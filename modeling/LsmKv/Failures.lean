import LsmKv.Effects
import LsmKv.Foundation.Interrupted
import LsmKv.Returned

/-!
# Sections that fail

Any filesystem call of a flush or of a compaction may fail.  The thread then gives its lock
back and leaves the rest as it is: a flush its frozen slot, a compaction its scratch file.

The handle becomes what the section makes of it in some world in which it fails (`Fails`).  The
volume becomes what is left of a run of the section that is cut short at some call
(`System.BreaksAt`).

**Results.**
* `Step.view_eq`, `Fails.view_eq`: a section changes the fields of the handle it is about and no
  others, whether it fails or not.
* `Fails.flush_handle`, `Fails.merge_handle`: what a failed section leaves of the handle.
-/

namespace LsmKv

open Foundation Volume

/-- The sections of a flush after its freeze and before its end. -/
def Label.inFlush : Label → Bool
  | .write | .place | .count | .record | .publish | .relog => true
  | _ => false

/-- The sections of a compaction step after the list is read and before its end. -/
def Label.inCompaction : Label → Bool
  | .choose | .bound | .merge | .name => true
  | _ => false

/-- Whether a section opens the directory. -/
def Label.opens : Label → Bool
  | .reopen _ => true
  | _ => false

theorem Label.opens_of_inFlush {l : Label} (h : l.inFlush = true) : l.opens = false := by
  cases l <;> first | rfl | cases h

theorem Label.opens_of_inCompaction {l : Label} (h : l.inCompaction = true) :
    l.opens = false := by
  cases l <;> first | rfl | cases h

/-- A section of a flush or of a compaction fails with `e`: the handle is what the section makes
of it in some world where it fails. -/
inductive Fails (env : Env) (e : Error) : Label → System → DbInner → Prop
  | write {s : System} {db : DbInner} {w₀ w : World} {m : MemTable}
      (stage : s.flusher = .frozen m)
      (run : (do
        let id ← DbInner.takeSstId
        DbInner.writeTable env s.db.dir id m
        return id) s.db w₀ = (.error e, db, w)) : Fails env e .write s db
  | place {s : System} {db : DbInner} {w₀ w : World} {m : MemTable} {id : Nat}
      (stage : s.flusher = .written m id)
      (run : (do
        DbInner.nameTable s.db.dir id
        DbInner.settleTable s.db.dir s.db.opts.bloomEnabled id) s.db w₀ = (.error e, db, w)) :
      Fails env e .place s db
  | record {s : System} {db : DbInner} {w₀ w : World} {m : MemTable} {id : Nat}
      {table : SsTable} {a b : Nat} (stage : s.flusher = .counted m id table a b)
      (run : DbInner.recordTable env id a b s.db w₀ = (.error e, db, w)) :
      Fails env e .record s db
  | relog {s : System} {db : DbInner} {w₀ w : World} {m : MemTable}
      (stage : s.flusher = .published m) (free : s.writer = .free)
      (run : DbInner.rewriteWal env s.db w₀ = (.error e, db, w)) : Fails env e .relog s db
  | choose {s : System} {db : DbInner} {w₀ w : World} {tables : List SsTable}
      (stage : s.compactor = .listed tables)
      (run : DbInner.chooseRun tables s.db w₀ = (.error e, db, w)) : Fails env e .choose s db
  | merge {s : System} {db : DbInner} {w₀ w : World} {c : DbInner.Choice} {minSeq : Nat}
      (stage : s.compactor = .bounded c minSeq)
      (run : DbInner.mergeRun env s.db.dir c minSeq s.db w₀ = (.error e, db, w)) :
      Fails env e .merge s db
  | name {s : System} {db : DbInner} {w₀ w : World} {c : DbInner.Choice} {minSeq : Nat}
      (stage : s.compactor = .merged c minSeq) (free : s.flusher = .free)
      (run : DbInner.nameTable s.db.dir c.maxId s.db w₀ = (.error e, db, w)) :
      Fails env e .name s db
  | finish {s : System} {db : DbInner} {w₀ w : World} {c : DbInner.Choice} {minSeq : Nat}
      (stage : s.compactor = .named c minSeq)
      (run : DbInner.finishCompaction env s.db.dir s.db.opts.bloomEnabled c.run c.maxId s.db w₀ =
        (.error e, db, w)) : Fails env e .finish s db

/-- The log refuses the batch of a write, which gives its lock back.  Later appends are taken
again. -/
inductive Refuses (env : Env) (s : System) : System → Prop
  | mk {records : List Record} {fates : List (Option Nat)} {e : Error} {db : DbInner} {w : World}
      (stage : s.writer = .numbered records)
      (run : DbInner.logRecords env records s.db { s.w with refusals := fates } =
        (.error e, db, w)) :
      Refuses env s { s with db := db, w := { w with refusals := [] }, writer := .free }

/-- A thread gives up in a section `l`, with the handle and the world as it leaves them. -/
def System.gaveUp (s : System) (l : Label) (db : DbInner) (w : World) : System :=
  match l.inFlush with
  | true => { s with db := db, w := w, flusher := .free }
  | false => { s with db := db, w := w, compactor := .free }

section GaveUp

variable (s : System) (l : Label) (db : DbInner) (w : World)

theorem System.gaveUp_flush {s : System} {l : Label} {db : DbInner} {w : World}
    (h : l.inFlush = true) :
    s.gaveUp l db w = { s with db := db, w := w, flusher := .free } := by
  unfold gaveUp
  rw [h]

theorem System.gaveUp_merge {s : System} {l : Label} {db : DbInner} {w : World}
    (h : l.inFlush = false) :
    s.gaveUp l db w = { s with db := db, w := w, compactor := .free } := by
  unfold gaveUp
  rw [h]

@[simp]
theorem System.gaveUp_db : (s.gaveUp l db w).db = db := by
  unfold gaveUp
  split <;> rfl

@[simp]
theorem System.gaveUp_writer : (s.gaveUp l db w).writer = s.writer := by
  unfold gaveUp
  split <;> rfl

@[simp]
theorem System.gaveUp_loading : (s.gaveUp l db w).loading = s.loading := by
  unfold gaveUp
  split <;> rfl

@[simp]
theorem System.gaveUp_written : (s.gaveUp l db w).written = s.written := by
  unfold gaveUp
  split <;> rfl

end GaveUp

/-- A call of a run from `w` to `w'` has failed and left the volume `v`. -/
def World.Breaks (w w' : World) (v : Volume Path) : Prop := Interrupted w.visited w'.visited v

/-- A call of a section has failed and left the volume `v`: the first one, or a later one. -/
def System.BreaksAt (env : Env) (l : Label) (s : System) (v : Volume Path) : Prop :=
  v = s.w.vol ∨ ∃ s', Step env l s s' ∧ s.w.Breaks s'.w v

/-- What a failing call leaves satisfies what the run keeps. -/
theorem World.Grew.breaks {w w' : World} {v : Volume Path} {C : Volume Path → Prop}
    (h : w.Grew w' C) (hv : w.Breaks w' v) (hfirst : C w.vol)
    (hpart : ∀ u i b n, C u → C (u.append i b) → C (u.append i (b.take n))) : C v := by
  obtain ⟨vs, hvs, hC⟩ := h.visited
  unfold World.Breaks at hv
  rw [hvs] at hv
  exact hv.rule hfirst hC hpart

section Views

variable {env : Env} {s s' : System} {l : Label} {e : Error} {db : DbInner} {γ : Type}
variable {view : DbInner → γ}

/-- A view of the handle that does not depend on the fields a section is about. -/
def Label.Frames (view : DbInner → γ) : Label → Prop
  | .number _ => ∀ db n, view { db with nextSeq := n } = view db
  | .log | .relog => ∀ db wal, view { db with wal := wal } = view db
  | .insert => ∀ db m, view { db with active := m } = view db
  | .freeze => ∀ db m f, view { db with active := m, frozen := f } = view db
  | .write => ∀ db n, view { db with nextSstId := n } = view db
  | .record => ∀ db m, view { db with manifest := m } = view db
  | .publish => ∀ db ts, view { db with sstables := ts } = view db
  | .clear => ∀ db, view { db with frozen := none } = view db
  | .finish => ∀ db m ts, view { db with manifest := m, sstables := ts } = view db
  | .register _ | .drop _ => ∀ db hs, view { db with snapshots := hs } = view db
  | .reopen _ => False
  | .place | .count | .list | .choose | .abandon | .bound | .merge | .name | .load => True

theorem fixes_writing (hview : ∀ db n, view { db with nextSstId := n } = view db) (dir : String)
    (m : MemTable) :
    Fixes (fun db _ => view db) (do
      let id ← DbInner.takeSstId
      DbInner.writeTable env dir id m
      return id) := by
  refine Fixes.bind (fun db _ => hview db _) fun id => Fixes.bind ?_ fun _ => Fixes.pure _
  exact fixes_of_keeps view ((Keeps.writeTable _ _ _).bind fun _ => Fixes.pure _)

theorem keeps_settleTable (dir : String) (bloomEnabled : Bool) (id : Nat) :
    Keeps (DbInner.settleTable dir bloomEnabled id) :=
  (Keeps.syncDir _).bind fun _ => Keeps.openSsTable _ _ _

theorem keeps_placing (dir : String) (bloomEnabled : Bool) (id : Nat) :
    Keeps (do
      DbInner.nameTable dir id
      DbInner.settleTable dir bloomEnabled id) :=
  (Keeps.rename _ _).bind fun _ => keeps_settleTable _ _ _

theorem keeps_replaceWal : Keeps (DbInner.replaceWal env) :=
  Fixes.bind (fun _ _ => rfl) fun _ => (Keeps.createWal _ _).bind fun _ =>
    (Keeps.on _ _).bind fun _ => (Keeps.on _ _).bind fun _ => (Keeps.on _ _).bind fun _ =>
      Fixes.pure _

theorem fixes_rewriteWal (hview : ∀ db wal, view { db with wal := wal } = view db) :
    Fixes (fun db _ => view db) (DbInner.rewriteWal env) := by
  rw [DbInner.rewriteWal_sections]
  exact Fixes.bind (fun _ _ => rfl) fun _ => (fixes_of_keeps view keeps_replaceWal).bind fun _ =>
    (fixes_of_keeps view (Keeps.syncDir _)).bind fun _ db _ => hview db _

theorem keeps_mergeRun (dir : String) (c : DbInner.Choice) (minSeq : Nat) :
    Keeps (DbInner.mergeRun env dir c minSeq) :=
  (Keeps.compact _ _ _ _ _).bind fun _ => Fixes.pure _

theorem keeps_chooseRun (tables : List SsTable) : Keeps (DbInner.chooseRun tables) := by
  intro db w
  obtain ⟨r, hsame⟩ := DbInner.chooseRun_same tables db w
  rw [hsame]

theorem fixes_finishCompaction
    (hview : ∀ db m ts, view { db with manifest := m, sstables := ts } = view db) (dir : String)
    (bloomEnabled : Bool) (run : List SsTable) (maxId : Nat) :
    Fixes (fun db _ => view db) (DbInner.finishCompaction env dir bloomEnabled run maxId) := by
  refine (fixes_of_keeps view (keeps_settleTable _ _ _)).bind fun table =>
    Fixes.bind (fun db _ => hview db _ db.sstables) fun _ =>
      Fixes.bind (fun _ _ => rfl) fun self => ?_
  split
  · exact Fixes.fail _
  · split
    · exact Fixes.fail _
    · refine Fixes.bind (fun db _ => hview db db.manifest _) fun _ => ?_
      exact fixes_of_keeps view
        ((Fixes.each (fun _ => Keeps.remove _) _).bind fun _ => Keeps.syncDir _)

/-- A section changes the fields of the handle it is about, and no others. -/
theorem Step.view_eq (view : DbInner → γ) (h : Step env l s s') (hl : l.Frames view) :
    view s'.db = view s.db := by
  cases h with
  | number batch hne free run =>
      cases run
      exact hl _ _
  | log stage run => exact Fixes.of_run view (fun db _ => hl db _) run
  | insert stage run =>
      cases run
      exact hl _ _
  | freeze free run =>
      obtain ⟨_, _, _, rfl⟩ := freeze_some run
      exact hl _ _ _
  | write stage run => exact Fixes.of_run view (fixes_writing hl _ _) run
  | place stage run => exact Fixes.of_run view (fixes_of_keeps view (keeps_placing _ _ _)) run
  | record stage run => exact Fixes.of_run view (fun db _ => hl db _) run
  | publish stage run =>
      cases run
      exact hl _ _
  | relog stage free run => exact Fixes.of_run view (fixes_rewriteWal hl) run
  | clear stage run =>
      cases run
      exact hl _
  | choose stage run | abandon stage run =>
      exact Fixes.of_run view (fixes_of_keeps view (keeps_chooseRun _)) run
  | merge stage run => exact Fixes.of_run view (fixes_of_keeps view (keeps_mergeRun _ _ _)) run
  | name stage free run => exact Fixes.of_run view (fixes_of_keeps view (Keeps.rename _ _)) run
  | finish stage run => exact Fixes.of_run view (fixes_finishCompaction hl _ _ _ _) run
  | register loaded run =>
      cases run
      exact hl _ _
  | @drop _ db w horizon alive run =>
      obtain ⟨snapshots, hrun⟩ := dropSnapshot_same horizon s.db s.w
      cases hrun.symm.trans run
      exact hl _ _
  | reopen => exact hl.elim
  | count stage run | list free run | bound stage run | load run =>
      cases run
      rfl

/-- So does one that fails. -/
theorem Fails.view_eq (view : DbInner → γ) (h : Fails env e l s db) (hl : l.Frames view) :
    view db = view s.db := by
  cases h with
  | write stage run => exact Fixes.of_run view (fixes_writing hl _ _) run
  | place stage run => exact Fixes.of_run view (fixes_of_keeps view (keeps_placing _ _ _)) run
  | record stage run => exact Fixes.of_run view (fun db _ => hl db _) run
  | relog stage free run => exact Fixes.of_run view (fixes_rewriteWal hl) run
  | choose stage run => exact Fixes.of_run view (fixes_of_keeps view (keeps_chooseRun _)) run
  | merge stage run => exact Fixes.of_run view (fixes_of_keeps view (keeps_mergeRun _ _ _)) run
  | name stage free run => exact Fixes.of_run view (fixes_of_keeps view (Keeps.rename _ _)) run
  | finish stage run => exact Fixes.of_run view (fixes_finishCompaction hl _ _ _ _) run

/-- The log is replaced in the handle once everything else has succeeded. -/
theorem rewriteWal_error {db' : DbInner} {w w' : World}
    (h : DbInner.rewriteWal env db w = (.error e, db', w')) : db' = db := by
  rw [DbInner.rewriteWal_sections, M.bind_ok (M.self_apply _ _)] at h
  rcases hrun : DbInner.replaceWal env db w with ⟨e' | fresh, db₁, w₁⟩
  · rw [M.bind_error hrun] at h
    cases h
    exact Fixes.of_run id (fixes_of_keeps id keeps_replaceWal) hrun
  · rw [M.bind_ok hrun] at h
    cases h

/-- A failed flush leaves everything in the handle but the next id and the manifest. -/
theorem Fails.flush_handle (h : Fails env e l s db) (hl : l.inFlush = true) :
    ∃ nextSstId manifest, db = { s.db with nextSstId := nextSstId, manifest := manifest } := by
  cases h with
  | write stage run =>
      have hsame := Fails.view_eq (fun d : DbInner => { d with nextSstId := 0 })
        (.write stage run) fun _ _ => rfl
      exact ⟨db.nextSstId, s.db.manifest,
        congrArg (fun d : DbInner => { d with nextSstId := db.nextSstId }) hsame⟩
  | place stage run =>
      exact ⟨s.db.nextSstId, s.db.manifest,
        Fixes.of_run id (fixes_of_keeps id (keeps_placing _ _ _)) run⟩
  | record stage run =>
      have hsame := Fails.view_eq (fun d : DbInner => { d with manifest := s.db.manifest })
        (.record stage run) fun _ _ => rfl
      exact ⟨s.db.nextSstId, db.manifest,
        congrArg (fun d : DbInner => { d with manifest := db.manifest }) hsame⟩
  | relog stage free run => exact ⟨s.db.nextSstId, s.db.manifest, rewriteWal_error run⟩
  | choose | merge | name | finish => cases hl

/-- A compaction that fails before it publishes leaves the handle as it was. -/
theorem Fails.merge_handle (h : Fails env e l s db) (hl : l = .choose ∨ l = .merge) :
    db = s.db := by
  rcases hl with rfl | rfl
  · exact h.view_eq id trivial
  · exact h.view_eq id trivial

theorem Fails.merging (h : Fails env e l s db) (hflush : l.inFlush = false) (hname : l ≠ .name)
    (hfinish : l ≠ .finish) : l = .choose ∨ l = .merge := by
  cases h with
  | choose => exact Or.inl rfl
  | merge => exact Or.inr rfl
  | name => exact absurd rfl hname
  | finish => exact absurd rfl hfinish
  | write | place | record | relog => cases hflush

theorem Fails.unnamed (h : Fails env e l s db) (hl : l = .choose ∨ l = .merge) :
    s.compactor.publishing = false := by
  cases h with
  | choose stage | merge stage => rw [stage]; rfl
  | _ => simp at hl

/-- A flush that fails gives its lock back. -/
theorem Fails.flush_stages (h : Fails env e l s db) (hl : l.inFlush = true) (w : World) :
    s.flusher ≠ .free ∧ (s.gaveUp l db w).flusher = .free ∧
      (s.gaveUp l db w).compactor = s.compactor := by
  rw [System.gaveUp_flush hl]
  cases h with
  | write stage | place stage | record stage => simp [stage]
  | relog stage free => simp [stage]
  | choose | merge | name | finish => cases hl

/-- So does a compaction. -/
theorem Fails.merge_stages (h : Fails env e l s db) (hl : l.inFlush = false) (w : World) :
    s.compactor ≠ .free ∧ (s.gaveUp l db w).compactor = .free ∧
      (s.gaveUp l db w).flusher = s.flusher := by
  rw [System.gaveUp_merge hl]
  cases h with
  | choose stage | merge stage | finish stage => simp [stage]
  | name stage free => simp [stage]
  | write | place | record | relog => cases hl

theorem Fails.opens_eq (h : Fails env e l s db) : l.opens = false := by
  cases h <;> rfl

/-- No section but an open touches the options and the latch. -/
theorem Label.frames_fixed (hl : l.opens = false) :
    l.Frames (fun db : DbInner => (db.opts, db.failed)) := by
  cases l with
  | reopen opts => cases hl
  | freeze | finish => exact fun _ _ _ => rfl
  | clear => exact fun _ => rfl
  | place | count | list | choose | abandon | bound | merge | name | load => trivial
  | _ => exact fun _ _ => rfl

theorem Step.opts_eq (h : Step env l s s') (hl : l.opens = false) : s'.db.opts = s.db.opts :=
  congrArg Prod.fst (h.view_eq _ (Label.frames_fixed hl))

theorem Step.failed_eq (h : Step env l s s') (hl : l.opens = false) :
    s'.db.failed = s.db.failed :=
  congrArg Prod.snd (h.view_eq _ (Label.frames_fixed hl))

theorem Fails.failed_eq (h : Fails env e l s db) : db.failed = s.db.failed :=
  congrArg Prod.snd (h.view_eq _ (Label.frames_fixed h.opens_eq))

/-- The tables and the options of a handle. -/
def DbInner.setup (db : DbInner) : List SsTable × Options := (db.sstables, db.opts)

/-- Sections that neither publish a table nor replace some leave the tables and the options. -/
theorem Step.setup_eq (h : Step env l s s') (hpublish : l ≠ .publish) (hfinish : l ≠ .finish)
    (hopens : l.opens = false) : s'.db.setup = s.db.setup := by
  refine h.view_eq DbInner.setup ?_
  cases l with
  | publish => exact absurd rfl hpublish
  | finish => exact absurd rfl hfinish
  | reopen opts => cases hopens
  | freeze => exact fun _ _ _ => rfl
  | clear => exact fun _ => rfl
  | place | count | list | choose | abandon | bound | merge | name | load => trivial
  | _ => exact fun _ _ => rfl

theorem Fails.setup_eq (h : Fails env e l s db) (hfinish : l ≠ .finish) :
    db.setup = s.db.setup := by
  refine h.view_eq DbInner.setup ?_
  cases h with
  | write | record | relog => exact fun _ _ => rfl
  | place | choose | merge | name => trivial
  | finish => exact absurd rfl hfinish

/-- The MemTable changes where a write inserts, and where a flush freezes it. -/
theorem Step.active_eq (h : Step env l s s') (hinsert : l ≠ .insert) (hfreeze : l ≠ .freeze)
    (hopens : l.opens = false) : s'.db.active = s.db.active := by
  refine h.view_eq DbInner.active ?_
  cases l with
  | insert => exact absurd rfl hinsert
  | freeze => exact absurd rfl hfreeze
  | reopen opts => cases hopens
  | finish => exact fun _ _ _ => rfl
  | clear => exact fun _ => rfl
  | place | count | list | choose | abandon | bound | merge | name | load => trivial
  | _ => exact fun _ _ => rfl

end Views

end LsmKv
