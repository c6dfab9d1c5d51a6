import LsmKv.Error
import LsmKv.Foundation.Volume

/-!
# The filesystem seam

A method of the engine is a function of the object it is called on and of the
world, returning a result or an error together with what both have become
(`M`): an error leaves the changes made before it in place, as it does in the
source.

The world is a volume together with every volume the run has passed through
(`World.visited`), so that the places a crash may strike are the members of a
list.
`refusals` says which of the coming `append` calls the filesystem refuses, and
`shortReads` how many bytes the coming `read_at` calls return at most; a quiet
world has neither.
-/

namespace LsmKv

open Foundation

/-- Only tables are ever linked: a checkpoint gives them second names. -/
instance : Volume.Shares Path := ⟨fun p => ∃ id, p.name = .sst id⟩

@[simp] theorem may_path {dir : String} {name : FileName} :
    Volume.Shares.may (⟨dir, name⟩ : Path) ↔ ∃ id, name = .sst id := Iff.rfl

/-- The world outside the process. -/
structure World where
  vol : Volume Path
  /-- The volumes before it, latest first. -/
  past : List (Volume Path)
  /-- Advisory locks held. -/
  locks : List Path
  /-- The fate of the coming appends: refused after that many bytes, or taken. -/
  refusals : List (Option Nat)
  /-- Limits on the coming reads. -/
  shortReads : List Nat

namespace World

/-- The volume after each operation so far, latest first. -/
def visited (w : World) : List (Volume Path) := w.vol :: w.past

/-- Change the volume, and remember what it was. -/
def touch (w : World) (f : Volume Path → Volume Path) : World :=
  { w with vol := f w.vol, past := w.visited }

/-- No append is refused and no read is short. -/
structure Quiet (w : World) : Prop where
  accepts : w.refusals = []
  reads : w.shortReads = []

/-- A world that starts from a volume. -/
def start (v : Volume Path) : World := ⟨v, [], [], [], []⟩

@[simp] theorem vol_touch (w : World) (f : Volume Path → Volume Path) :
    (w.touch f).vol = f w.vol := rfl

@[simp] theorem visited_touch (w : World) (f : Volume Path → Volume Path) :
    (w.touch f).visited = f w.vol :: w.visited := rfl

@[simp] theorem locks_touch (w : World) (f : Volume Path → Volume Path) :
    (w.touch f).locks = w.locks := rfl

theorem Quiet.touch {w : World} (h : w.Quiet) (f : Volume Path → Volume Path) :
    (w.touch f).Quiet := ⟨h.accepts, h.reads⟩

theorem quiet_start (v : Volume Path) : (start v).Quiet := ⟨rfl, rfl⟩

end World

/-- A method on `σ` that may fail. -/
def M (σ α : Type) : Type := σ → World → Except Error α × σ × World

namespace M

variable {σ τ α β : Type}

/-- Run a method and keep only its result. -/
def result (m : M σ α) (s : σ) (w : World) : Except Error α := (m s w).1

protected def pure (a : α) : M σ α := fun s w => (.ok a, s, w)

protected def bind (m : M σ α) (f : α → M σ β) : M σ β := fun s w =>
  match m s w with
  | (.ok a, s', w') => f a s' w'
  | (.error e, s', w') => (.error e, s', w')

instance : Monad (M σ) where
  pure := M.pure
  bind := M.bind

/-- Return an error. -/
def fail (e : Error) : M σ α := fun s w => (.error e, s, w)

/-- A computation without effects that may fail. -/
def ofExcept (r : Except Error α) : M σ α := fun s w => (r, s, w)

/-- The object itself. -/
def self : M σ σ := fun s w => (.ok s, s, w)

/-- Change the object. -/
def update (f : σ → σ) : M σ Unit := fun s w => (.ok (), f s, w)

/-- Run a method and hand its outcome on as a value. -/
def attempt (m : M σ α) : M σ (Except Error α) := fun s w =>
  match m s w with
  | (r, s', w') => (.ok r, s', w')

/-- A method of a part of the object. -/
def zoom (get : σ → τ) (set : σ → τ → σ) (m : M τ α) : M σ α := fun s w =>
  match m (get s) w with
  | (r, t, w') => (r, set s t, w')

/-- A method of an object held outside: the object it becomes is returned. -/
def on (t : τ) (m : M τ α) : M σ (α × τ) := fun s w =>
  match m t w with
  | (.ok a, t', w') => (.ok (a, t'), s, w')
  | (.error e, _, w') => (.error e, s, w')

/-- The loop over a list. -/
def each (f : α → M σ Unit) : List α → M σ Unit
  | [] => M.pure ()
  | a :: l => M.bind (f a) (fun _ => each f l)

/-- The loop over a list that collects results. -/
def collect (f : α → M σ β) : List α → M σ (List β)
  | [] => M.pure []
  | a :: l => M.bind (f a) (fun b => M.bind (collect f l) (fun bs => M.pure (b :: bs)))

@[simp] theorem pure_apply (a : α) (s : σ) (w : World) :
    (pure a : M σ α) s w = (.ok a, s, w) := rfl

theorem bind_apply (m : M σ α) (f : α → M σ β) (s : σ) (w : World) :
    (m >>= f) s w = match m s w with
      | (.ok a, s', w') => f a s' w'
      | (.error e, s', w') => (.error e, s', w') := rfl

instance : LawfulMonad (M σ) :=
  LawfulMonad.mk' _
    (fun m => by
      funext s w
      show M.bind m (fun a => M.pure a) s w = m s w
      unfold M.bind
      rcases m s w with ⟨_ | _, _, _⟩ <;> rfl)
    (fun _ _ => rfl)
    (fun m f g => by
      funext s w
      show M.bind (M.bind m f) g s w = M.bind m (fun a => M.bind (f a) g) s w
      unfold M.bind
      rcases m s w with ⟨_ | _, _, _⟩ <;> rfl)

theorem bind_ok {m : M σ α} {f : α → M σ β} {s s' : σ} {w w' : World} {a : α}
    (h : m s w = (.ok a, s', w')) : (m >>= f) s w = f a s' w' := by
  rw [bind_apply, h]

theorem bind_error {m : M σ α} {f : α → M σ β} {s s' : σ} {w w' : World} {e : Error}
    (h : m s w = (.error e, s', w')) : (m >>= f) s w = (.error e, s', w') := by
  rw [bind_apply, h]

@[simp] theorem fail_apply (e : Error) (s : σ) (w : World) :
    (fail e : M σ α) s w = (.error e, s, w) := rfl

@[simp] theorem ofExcept_apply (r : Except Error α) (s : σ) (w : World) :
    (ofExcept r : M σ α) s w = (r, s, w) := rfl

@[simp] theorem self_apply (s : σ) (w : World) : (self : M σ σ) s w = (.ok s, s, w) := rfl

@[simp] theorem update_apply (f : σ → σ) (s : σ) (w : World) :
    (update f : M σ Unit) s w = (.ok (), f s, w) := rfl

theorem attempt_apply (m : M σ α) (s : σ) (w : World) :
    attempt m s w = (.ok (m s w).1, (m s w).2.1, (m s w).2.2) := rfl

theorem zoom_apply (get : σ → τ) (set : σ → τ → σ) (m : M τ α) (s : σ) (w : World) :
    zoom get set m s w =
      ((m (get s) w).1, set s (m (get s) w).2.1, (m (get s) w).2.2) := rfl

theorem on_ok {t t' : τ} {m : M τ α} {s : σ} {w w' : World} {a : α}
    (h : m t w = (.ok a, t', w')) : (on t m : M σ (α × τ)) s w = (.ok (a, t'), s, w') := by
  unfold on
  rw [h]

@[simp] theorem each_nil (f : α → M σ Unit) (s : σ) (w : World) :
    each f [] s w = (.ok (), s, w) := rfl

theorem each_cons (f : α → M σ Unit) (a : α) (l : List α) :
    each f (a :: l) = f a >>= fun _ => each f l := rfl

@[simp] theorem collect_nil (f : α → M σ β) (s : σ) (w : World) :
    collect f [] s w = (.ok [], s, w) := rfl

theorem collect_cons (f : α → M σ β) (a : α) (l : List α) :
    collect f (a :: l) =
      f a >>= fun b => collect f l >>= fun bs => pure (b :: bs) := rfl

end M

/-- How durable a sync has to be. -/
inductive SyncMode
  | durable
  | barrier
  | none
  deriving DecidableEq, Repr

/-- What a file is being opened for. -/
inductive OpenMode
  | read
  | append
  | truncate
  | lock
  deriving DecidableEq, Repr

namespace Fs

variable {σ : Type}

/-- Apply a change to the volume. -/
def touch (f : Volume Path → Volume Path) : M σ Unit := fun s w => (.ok (), s, w.touch f)

/-- The volume as it is. -/
def volume : M σ (Volume Path) := fun s w => (.ok w.vol, s, w)

/-- `Fs::list`. -/
def list (dir : String) : M σ (List Path) := do
  let v ← volume
  return v.names.filter (fun p => p.dir = dir)

/-- The inode number of an existing file. -/
def existing (p : Path) : M σ Nat := do
  let v ← volume
  match v.lookup p with
  | some i => return i
  | none => M.fail (.io .notFound)

/-- The inode number of a file, created empty if it is absent. -/
def create (p : Path) : M σ Nat := do
  let v ← volume
  match v.lookup p with
  | some i => return i
  | none =>
      touch (fun v => v.create p)
      return v.fresh

/-- Take an advisory lock. -/
def takeLock (p : Path) : M σ Unit := fun s w =>
  if p ∈ w.locks then (.error (.io .wouldBlock), s, w)
  else (.ok (), s, { w with locks := p :: w.locks })

/-- Give an advisory lock back. -/
def releaseLock (p : Path) : M σ Unit := fun s w =>
  (.ok (), s, { w with locks := w.locks.filter (fun q => q ≠ p) })

/-- `Fs::open`; a handle is an inode number. -/
def openFile (p : Path) (mode : OpenMode) : M σ Nat :=
  match mode with
  | .read => existing p
  | .append => create p
  | .truncate => do
      let v ← volume
      match v.lookup p with
      | some i =>
          touch (fun v => v.truncate i)
          return i
      | none => create p
  | .lock => do
      let i ← create p
      takeLock p
      return i

/-- `Fs::rename`. -/
def rename (p q : Path) : M σ Unit := do
  let _ ← existing p
  touch (fun v => v.rename p q)

/-- `Fs::remove`. -/
def remove (p : Path) : M σ Unit := do
  let _ ← existing p
  touch (fun v => v.remove p)

/-- `Fs::size`. -/
def size (p : Path) : M σ Nat := do
  let i ← existing p
  let v ← volume
  return (v.inodes i).bytes.length

/-- `Fs::exists`. -/
def fileExists (p : Path) : M σ Bool := do
  let r ← M.attempt (size p)
  return r.isOk

/-- `Fs::sync_dir`. -/
def syncDir (dir : String) : M σ Unit :=
  touch (fun v => v.syncNames (fun p => p.dir = dir))

end Fs

namespace File

variable {σ : Type}

/-- `File::read_at`: at most `n` bytes from `off`. -/
def readAt (i off n : Nat) : M σ Bytes := fun s w =>
  match w.shortReads with
  | [] => (.ok (((w.vol.inodes i).bytes.drop off).take n), s, w)
  | c :: rest =>
      (.ok (((w.vol.inodes i).bytes.drop off).take (min n (max 1 c))), s,
        { w with shortReads := rest })

/-- `File::append`: all the bytes, or an error with a proper initial part of
them written. -/
def append (i : Nat) (b : Bytes) : M σ Unit := fun s w =>
  match w.refusals with
  | [] => (.ok (), s, w.touch (fun v => v.append i b))
  | none :: rest =>
      (.ok (), s, { w with refusals := rest }.touch (fun v => v.append i b))
  | some n :: rest =>
      (.error (.io .other), s,
        { w with refusals := rest }.touch (fun v => v.append i (b.take (min n (b.length - 1)))))

/-- `File::sync_as`; only `Durable` is a promise about power loss. -/
def syncAs (i : Nat) (mode : SyncMode) : M σ Unit :=
  match mode with
  | .durable => Fs.touch (fun v => v.sync i)
  | .barrier => pure ()
  | .none => pure ()

/-- `File::size`. -/
def size (i : Nat) : M σ Nat := do
  let v ← Fs.volume
  return (v.inodes i).bytes.length

/-- The retry loop of `File::read_exact_at`. -/
def readExactLoop (i off n : Nat) : Nat → Bytes → M σ Bytes
  | 0, acc => if acc.length < n then M.fail (.io .unexpectedEof) else pure acc
  | fuel + 1, acc =>
      if acc.length < n then do
        let b ← readAt i (off + acc.length) (n - acc.length)
        if b = [] then M.fail (.io .unexpectedEof)
        else readExactLoop i off n fuel (acc ++ b)
      else pure acc

/-- `File::read_exact_at`: exactly `n` bytes at `off`, or an error. -/
def readExactAt (i off n : Nat) : M σ Bytes := readExactLoop i off n n []

/-- `File::read_all`. -/
def readAll (i : Nat) : M σ Bytes := do
  let len ← size i
  readExactAt i 0 len

end File

/-- `fs::BufAppend`: appends through a buffer. -/
structure BufAppend where
  file : Nat
  buf : Bytes
  cap : Nat
  writeFailed : Bool
  deriving DecidableEq, Repr

/-- `APPEND_BUFFER_BYTES`. -/
def appendBufferBytes : Nat := 64 * 1024

namespace BufAppend

/-- `BufAppend::with_capacity`. -/
def withCapacity (file cap : Nat) : BufAppend := ⟨file, [], max cap 1, false⟩

/-- `BufAppend::new`. -/
def new (file : Nat) : BufAppend := withCapacity file appendBufferBytes

/-- `BufAppend::flush`: a refused append leaves the bytes in the buffer. -/
def flush : M BufAppend Unit := do
  let self ← M.self
  if self.buf = [] then return ()
  else
    match ← M.attempt (File.append self.file self.buf) with
    | .error e =>
        M.update (fun self => { self with writeFailed := true })
        M.fail e
    | .ok _ => M.update (fun self => { self with buf := [] })

/-- `BufAppend::write`. -/
def write (bytes : Bytes) : M BufAppend Unit := do
  M.update (fun self => { self with buf := self.buf ++ bytes })
  let self ← M.self
  if self.buf.length ≥ self.cap then flush else return ()

/-- `BufAppend::sync`. -/
def sync : M BufAppend Unit := do
  flush
  let self ← M.self
  match ← M.attempt (File.syncAs self.file .durable) with
  | .error e =>
      M.update (fun self => { self with writeFailed := true })
      M.fail e
  | .ok _ => return ()

end BufAppend

end LsmKv
