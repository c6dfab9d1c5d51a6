import LsmKv.Catalogue

/-!
# A log that is appended to in any world

The handle of a log may have bytes in its buffer that an earlier append could not write, and
the world may refuse the next append.  Whatever becomes of it, an append writes to the file of
the log and to no other, so tables and manifest stay in order.

**Results.**
* `Steady.appendBatch`: an append in any world and on any handle leaves the other files alone.
* `Catalogue.logs`, `Catalogue.refuses`: so a write keeps tables and manifest, whether the log
  takes its batch or not.
-/

namespace LsmKv

open Foundation Volume

theorem World.refusals_nil {w : World} (h : w.refusals = []) : { w with refusals := [] } = w := by
  obtain ⟨vol, past, locks, refusals, reads⟩ := w
  cases h
  rfl

section Steady

variable {σ τ α β : Type}

/-- What a world that went on to append to one file has kept. -/
structure Beside (p : Path) (i : Nat) (w w' : World) : Prop where
  same : SameExcept [p] w.vol w'.vol
  name : w'.vol.lookup p = some i
  locks : w'.locks = w.locks
  reads : w'.shortReads = w.shortReads
  accepts : w.refusals = [] → w'.refusals = []
  passed : ∃ vs, w'.visited = vs ++ w.visited ∧ ∀ v ∈ vs, SameExcept [p] w.vol v

variable {p : Path} {i : Nat} {w w₁ w₂ : World}

theorem Beside.refl (h : w.vol.lookup p = some i) : Beside p i w w :=
  ⟨SameExcept.refl _ _, h, rfl, rfl, id, [], rfl, by simp⟩

theorem Beside.trans (h₁ : Beside p i w w₁) (h₂ : Beside p i w₁ w₂) : Beside p i w w₂ := by
  obtain ⟨vs₁, hvs₁, hall₁⟩ := h₁.passed
  obtain ⟨vs₂, hvs₂, hall₂⟩ := h₂.passed
  refine ⟨h₁.same.trans h₂.same, h₂.name, h₂.locks.trans h₁.locks, h₂.reads.trans h₁.reads,
    fun hw => h₂.accepts (h₁.accepts hw), vs₂ ++ vs₁, by rw [hvs₂, hvs₁, List.append_assoc],
    fun v hv => ?_⟩
  rcases List.mem_append.mp hv with hv | hv
  · exact h₁.same.trans (hall₂ v hv)
  · exact hall₁ v hv

/-- A change of the file alone, whatever becomes of the coming appends. -/
theorem Beside.touch (f : Volume Path → Volume Path) (hsame : SameExcept [p] w.vol (f w.vol))
    (hname : (f w.vol).lookup p = some i) (hvol : w₁.vol = f w.vol) (hpast : w₁.past = w.visited)
    (hlocks : w₁.locks = w.locks) (hreads : w₁.shortReads = w.shortReads)
    (haccepts : w.refusals = [] → w₁.refusals = []) : Beside p i w w₁ := by
  refine ⟨by rw [hvol]; exact hsame, by rw [hvol]; exact hname, hlocks, hreads, haccepts,
    [f w.vol], ?_, by simpa using hsame⟩
  unfold World.visited at *
  rw [hvol, hpast]
  rfl

theorem Beside.grew (h : Beside p i w w₁) (hq : w.Quiet) :
    w.Grew w₁ (SameExcept [p] w.vol) :=
  ⟨⟨h.accepts hq.accepts, h.reads.trans hq.reads⟩, h.locks, h.passed⟩

/-- A method that writes to no file but its own. -/
def Steady (p : Path) (i : Nat) (file : σ → Nat) (m : M σ α) : Prop :=
  ∀ s w, file s = i → w.vol.Sound → w.vol.lookup p = some i →
    file (m s w).2.1 = i ∧ Beside p i w (m s w).2.2

variable {file : σ → Nat}

theorem Steady.pure (a : α) : Steady p i file (pure a : M σ α) :=
  fun _ _ hs _ hl => ⟨hs, .refl hl⟩

theorem Steady.fail (e : Error) : Steady p i file (M.fail e : M σ α) :=
  fun _ _ hs _ hl => ⟨hs, .refl hl⟩

theorem Steady.update {f : σ → σ} (hf : ∀ s, file (f s) = file s) :
    Steady p i file (M.update f) :=
  fun s _ hs _ hl => ⟨(hf s).trans hs, .refl hl⟩

theorem Steady.bind {m : M σ α} {f : α → M σ β} (hm : Steady p i file m)
    (hf : ∀ a, Steady p i file (f a)) : Steady p i file (m >>= f) := by
  intro s w hs hsound hl
  obtain ⟨hs₁, hb₁⟩ := hm s w hs hsound hl
  rw [M.bind_apply]
  generalize m s w = out at hs₁ hb₁ ⊢
  obtain ⟨_ | a, s', w'⟩ := out
  · exact ⟨hs₁, hb₁⟩
  · obtain ⟨hs₂, hb₂⟩ := hf a s' w' hs₁ (hb₁.same.sound hsound) hb₁.name
    exact ⟨hs₂, hb₁.trans hb₂⟩

theorem Steady.self_bind {f : σ → M σ β} (hf : ∀ s, file s = i → Steady p i file (f s)) :
    Steady p i file (M.self >>= f) :=
  fun s w hs => hf s hs s w hs

theorem Steady.attempt {m : M σ α} (hm : Steady p i file m) : Steady p i file (M.attempt m) :=
  fun s w => hm s w

theorem Steady.zoom {get : σ → τ} {set : σ → τ → σ} {at' : τ → Nat} {m : M τ α}
    (hm : Steady p i at' m) (hset : ∀ s t, get (set s t) = t) :
    Steady p i (fun s => at' (get s)) (M.zoom get set m) := by
  intro s w hs hsound hl
  obtain ⟨ht, hb⟩ := hm (get s) w hs hsound hl
  refine ⟨?_, hb⟩
  show at' (get (set s (m (get s) w).2.1)) = i
  rw [hset]
  exact ht

theorem Steady.append (hp : ¬ Shares.may p) (b : Bytes) :
    Steady p i file (File.append i b : M σ Unit) := by
  intro s w hs hsound hl
  have hsame := fun b => sameExcept_append hsound hp hl b
  unfold File.append
  cases hw : w.refusals with
  | nil =>
      exact ⟨hs, .touch (fun v => v.append i b) (hsame _) hl rfl rfl rfl rfl fun _ => hw⟩
  | cons fate rest =>
      cases fate with
      | none =>
          exact ⟨hs, .touch (fun v => v.append i b) (hsame _) hl rfl rfl rfl rfl fun hnil => by
            simp [hw] at hnil⟩
      | some n =>
          exact ⟨hs, .touch (fun v => v.append i (b.take (min n (b.length - 1)))) (hsame _) hl rfl
            rfl rfl rfl fun hnil => by simp [hw] at hnil⟩

theorem Steady.syncAs (hp : ¬ Shares.may p) (sync : SyncMode) :
    Steady p i file (File.syncAs i sync : M σ Unit) := by
  intro s w hs hsound hl
  cases sync with
  | durable =>
      exact ⟨hs, .touch (fun v => v.sync i) (sameExcept_sync hsound hp hl) hl rfl rfl rfl rfl id⟩
  | barrier => exact ⟨hs, .refl hl⟩
  | none => exact ⟨hs, .refl hl⟩

theorem Steady.flush (hp : ¬ Shares.may p) : Steady p i BufAppend.file BufAppend.flush := by
  refine Steady.self_bind fun b hb => ?_
  split
  · exact Steady.pure _
  · refine Steady.bind (Steady.attempt ?_) fun r => ?_
    · rw [hb]
      exact Steady.append hp _
    · cases r with
      | error e =>
          refine Steady.bind ?_ fun _ => Steady.fail e
          exact Steady.update fun _ => rfl
      | ok _ => exact Steady.update fun _ => rfl

theorem Steady.write (hp : ¬ Shares.may p) (bytes : Bytes) :
    Steady p i BufAppend.file (BufAppend.write bytes) := by
  refine Steady.bind ?_ fun _ => Steady.self_bind fun b hb => ?_
  · exact Steady.update fun _ => rfl
  · split
    · exact Steady.flush hp
    · exact Steady.pure _

/-- An append to the log writes to no other file, whatever the filesystem makes of it. -/
theorem Steady.appendBatch (env : Env) (hp : ¬ Shares.may p) (records : List Record) :
    Steady p i (fun wal => wal.file.file) (Wal.appendBatch env records) := by
  have hfile : ∀ m : M BufAppend Unit, Steady p i BufAppend.file m →
      Steady p i (fun wal => wal.file.file) (Wal.onFile m) := fun m hm =>
    hm.zoom fun _ _ => rfl
  refine Steady.self_bind fun wal hwal => ?_
  split
  · exact Steady.pure _
  · split
    · exact Steady.fail _
    · rw [hwal]
      exact (hfile _ (Steady.write hp _)).bind fun _ => (hfile _ (Steady.write hp _)).bind fun _ =>
        (hfile _ (Steady.write hp _)).bind fun _ => (hfile _ (Steady.flush hp)).bind fun _ =>
          Steady.syncAs hp _

end Steady

section Write

variable {env : Env} {s : System} {held : Held} {records : List Record} {r : Except Error Unit}
variable {db : DbInner} {w : World}

/-- What an append to the log makes of the handle and of the world. -/
theorem logRecords_beside (w₀ : World) (hsound : w₀.vol.Sound)
    (hwal : LogHandle s.db.dir w₀.vol s.db.wal)
    (hrun : DbInner.logRecords env records s.db w₀ = (r, db, w)) :
    ∃ wal, db = { s.db with wal := wal } ∧
      Beside (walPath s.db.dir) wal.file.file w₀ w := by
  obtain ⟨hfile, hbeside⟩ := Steady.appendBatch env (p := walPath s.db.dir) (by simp) records
    s.db.wal w₀ rfl hsound hwal
  rw [← hfile] at hbeside
  cases hrun
  exact ⟨_, rfl, hbeside⟩

/-- An append to the log writes to nothing else, whether the log takes the batch or not. -/
theorem Catalogue.logs (h : Catalogue env s held)
    (hrun : DbInner.logRecords env records s.db s.w = (r, db, w)) :
    ∃ wal, db = { s.db with wal := wal } ∧
      s.w.Grew w (SameExcept [walPath s.db.dir] s.w.vol) ∧
      ∀ writer, Catalogue env { s with db := db, w := w, writer := writer } held := by
  obtain ⟨wal, rfl, hbeside⟩ := logRecords_beside s.w h.sound h.wal hrun
  exact ⟨wal, rfl, hbeside.grew h.quiet, fun writer =>
    h.afterLogged (hbeside.grew h.quiet).quiet hbeside.same hbeside.name writer⟩

/-- The filesystem decides the fate of the appends, and the next ones are taken again. -/
theorem Catalogue.refuses (h : Catalogue env s held) {fates : List (Option Nat)}
    (hrun : DbInner.logRecords env records s.db { s.w with refusals := fates } = (r, db, w)) :
    ∃ wal, db = { s.db with wal := wal } ∧
      ∀ writer, Catalogue env
        { s with db := db, w := { w with refusals := [] }, writer := writer } held := by
  obtain ⟨wal, rfl, hbeside⟩ := logRecords_beside { s.w with refusals := fates } h.sound h.wal hrun
  have hq : { w with refusals := [] }.Quiet := ⟨rfl, hbeside.reads.trans h.quiet.reads⟩
  exact ⟨wal, rfl, fun writer => h.afterLogged hq hbeside.same hbeside.name writer⟩

end Write

end LsmKv
