import LsmKv.Apart
import LsmKv.Levels
import LsmKv.Schedules

/-!
# A checkpoint among writers, flushes and compactions

A checkpoint is one more thread inside the handle.  It flushes, looks whether its directory is
empty, and then holds the flush lock while it links the tables and writes the manifest; writers,
snapshots and merges go on meanwhile.

`Copying` is a system together with how far its checkpoint has come.

**Results.**
* `Stocked.opened`: a directory that holds a checkpoint is opened.
* `Copier.Backed.go`: other threads leave a checkpoint where it is.
* `Copying.Kept.step`, `Copying.Reached.kept`: what holds of the directory of the checkpoint,
  section by section and in every state reached.
-/

namespace LsmKv

open Foundation Volume Versioning

/-- How far a checkpoint has come.  `since` counts the batches that were in when it was called,
`upto` those that were in tables when it took the flush lock. -/
inductive Copier
  | away
  | called (since : Nat)
  /-- Its own flush is under way. -/
  | flushing (since : Nat)
  | flushed (since : Nat)
  /-- The directory is empty. -/
  | cleared (since : Nat)
  /-- It has the flush lock, and all tables but `left` are linked. -/
  | linking (since upto : Nat) (tables left : List SsTable)
  /-- The counters are loaded. -/
  | stated (since upto : Nat) (state : ManifestState)
  /-- The manifest is written. -/
  | recorded (since upto : Nat)
  | done (since upto : Nat)

/-- Which sections of other threads may run: the flush lock may be taken, the flush under way
may be the checkpoint's own, and the handle stays open. -/
def Copier.admits : Copier → Label → Bool
  | .away, _ | .done _ _, _ => true
  | .called _, l | .flushed _, l | .cleared _, l => l.onHandle
  | .flushing _, l => l.onHandle && decide (l ≠ .clear)
  | .linking _ _ _ _, l | .stated _ _ _, l | .recorded _ _, l =>
      l.onHandle && decide (l ≠ .freeze) && decide (l ≠ .name)

/-- A handle with threads inside, one of which makes a checkpoint. -/
structure Copying where
  sys : System
  copier : Copier

/-- The steps of the threads and of the checkpoint. -/
inductive Errand
  | go (l : Label)
  | call
  | freeze
  | pass
  | clear
  | find
  | refuse
  | list
  | link
  | state
  | record
  | settle

/-- One section of one thread. -/
inductive Copying.Step (env : Env) (copy : String) : Errand → Copying → Copying → Prop
  | go {x : Copying} {s : System} {l : Label} (fits : Fits env l x.sys)
      (admitted : x.copier.admits l = true) (step : LsmKv.Step env l x.sys s) :
      Copying.Step env copy (.go l) x { x with sys := s }
  | call {x : Copying} {db : DbInner} {w : World} (away : x.copier = .away)
      (healthy : DbInner.health x.sys.db x.sys.w = (.ok (), db, w)) :
      Copying.Step env copy .call x { x with copier := .called x.sys.written.length }
  | freeze {x : Copying} {s : System} {a : Nat} (stage : x.copier = .called a)
      (step : LsmKv.Step env .freeze x.sys s) : Copying.Step env copy .freeze x ⟨s, .flushing a⟩
  | pass {x : Copying} {db : DbInner} {w : World} {a : Nat} (stage : x.copier = .called a)
      (free : x.sys.flushLockFree)
      (run : DbInner.freeze x.sys.db x.sys.w = (.ok none, db, w)) :
      Copying.Step env copy .pass x { x with copier := .flushed a }
  | clear {x : Copying} {s : System} {a : Nat} (stage : x.copier = .flushing a)
      (step : LsmKv.Step env .clear x.sys s) : Copying.Step env copy .clear x ⟨s, .flushed a⟩
  | find {x : Copying} {db : DbInner} {w : World} {a : Nat} (stage : x.copier = .flushed a)
      (run : DbInner.findEmpty copy x.sys.db x.sys.w = (.ok (), db, w)) :
      Copying.Step env copy .find x { x with copier := .cleared a }
  | refuse {x : Copying} {db : DbInner} {w : World} {a : Nat} {e : Error}
      (stage : x.copier = .flushed a)
      (run : DbInner.findEmpty copy x.sys.db x.sys.w = (.error e, db, w)) :
      Copying.Step env copy .refuse x { x with copier := .away }
  | list {x : Copying} {db : DbInner} {w : World} {a : Nat} {tables : List SsTable}
      (stage : x.copier = .cleared a) (free : x.sys.flushLockFree)
      (run : DbInner.listTables x.sys.db x.sys.w = (.ok tables, db, w)) :
      Copying.Step env copy .list x
        { x with copier := .linking a x.sys.publishedAt tables tables }
  | link {x : Copying} {db : DbInner} {w : World} {a n : Nat} {tables left : List SsTable}
      {t : SsTable} (stage : x.copier = .linking a n tables (t :: left))
      (run : DbInner.linkTable x.sys.db.dir copy t x.sys.db x.sys.w = (.ok (), db, w)) :
      Copying.Step env copy .link x
        ⟨{ x.sys with db := db, w := w }, .linking a n tables left⟩
  | state {x : Copying} {db : DbInner} {w : World} {a n : Nat} {tables : List SsTable}
      {st : ManifestState} (stage : x.copier = .linking a n tables [])
      (run : DbInner.checkpointState tables x.sys.db x.sys.w = (.ok st, db, w)) :
      Copying.Step env copy .state x { x with copier := .stated a n st }
  | record {x : Copying} {db : DbInner} {w : World} {a n : Nat} {st : ManifestState}
      (stage : x.copier = .stated a n st)
      (run : Manifest.writeFresh env copy st x.sys.db x.sys.w = (.ok (), db, w)) :
      Copying.Step env copy .record x ⟨{ x.sys with db := db, w := w }, .recorded a n⟩
  | settle {x : Copying} {db : DbInner} {w : World} {a n : Nat}
      (stage : x.copier = .recorded a n)
      (run : Fs.syncDir copy x.sys.db x.sys.w = (.ok (), db, w)) :
      Copying.Step env copy .settle x ⟨{ x.sys with db := db, w := w }, .done a n⟩

/-- The states of a database on a fresh directory of which a checkpoint is made in `copy`. -/
def Copying.Reached (env : Env) (dir copy : String) (x : Copying) : Prop :=
  ∃ opts v db w, FreshDir dir v ∧
    (assemble env dir opts : M Unit DbInner) () (World.start v) = (.ok db, (), w) ∧
    Relation.ReflTransGen (fun x y => ∃ e, Copying.Step env copy e x y)
      ⟨System.opened db w, .away⟩ x

/-- One step of a thread. -/
def Copying.exec (env : Env) (copy : String) (e : Errand) (x : Copying) : Option Copying :=
  match e with
  | .go l =>
      if System.fitting env l x.sys && x.copier.admits l then
        (System.exec env l x.sys).map fun s => { x with sys := s }
      else none
  | .call =>
      match x.copier with
      | .away => (x.sys.after DbInner.health fun _ _ _ => x.sys).map fun _ =>
          { x with copier := .called x.sys.written.length }
      | _ => none
  | .freeze =>
      match x.copier with
      | .called a => (System.exec env .freeze x.sys).map fun s => ⟨s, .flushing a⟩
      | _ => none
  | .pass =>
      match x.copier, x.sys.flusher, x.sys.compactor.publishing with
      | .called a, .free, false =>
          match DbInner.freeze x.sys.db x.sys.w with
          | (.ok none, _, _) => some { x with copier := .flushed a }
          | _ => none
      | _, _, _ => none
  | .clear =>
      match x.copier with
      | .flushing a => (System.exec env .clear x.sys).map fun s => ⟨s, .flushed a⟩
      | _ => none
  | .find =>
      match x.copier with
      | .flushed a => (x.sys.after (DbInner.findEmpty copy) fun _ _ _ => x.sys).map fun _ =>
          { x with copier := .cleared a }
      | _ => none
  | .refuse =>
      match x.copier with
      | .flushed _ =>
          match DbInner.findEmpty copy x.sys.db x.sys.w with
          | (.error _, _, _) => some { x with copier := .away }
          | _ => none
      | _ => none
  | .list =>
      match x.copier, x.sys.flusher, x.sys.compactor.publishing with
      | .cleared a, .free, false =>
          match DbInner.listTables x.sys.db x.sys.w with
          | (.ok tables, _, _) =>
              some { x with copier := .linking a x.sys.publishedAt tables tables }
          | _ => none
      | _, _, _ => none
  | .link =>
      match x.copier with
      | .linking a n tables (t :: left) =>
          (x.sys.after (DbInner.linkTable x.sys.db.dir copy t) fun _ db w =>
            { x.sys with db := db, w := w }).map fun s => ⟨s, .linking a n tables left⟩
      | _ => none
  | .state =>
      match x.copier with
      | .linking a n tables [] =>
          match DbInner.checkpointState tables x.sys.db x.sys.w with
          | (.ok st, _, _) => some { x with copier := .stated a n st }
          | _ => none
      | _ => none
  | .record =>
      match x.copier with
      | .stated a n st =>
          (x.sys.after (Manifest.writeFresh env copy st) fun _ db w =>
            { x.sys with db := db, w := w }).map fun s => ⟨s, .recorded a n⟩
      | _ => none
  | .settle =>
      match x.copier with
      | .recorded a n =>
          (x.sys.after (Fs.syncDir copy) fun _ db w =>
            { x.sys with db := db, w := w }).map fun s => ⟨s, .done a n⟩
      | _ => none

/-- What `exec` returns is a step. -/
theorem Copying.exec_step {env : Env} {copy : String} {e : Errand} {x y : Copying}
    (h : Copying.exec env copy e x = some y) : Copying.Step env copy e x y := by
  cases e with
  | go l =>
      simp only [exec] at h
      split_ifs at h with hok
      obtain ⟨hfits, hadmits⟩ := Bool.and_eq_true_iff.mp hok
      obtain ⟨s, hs, rfl⟩ := Option.map_eq_some_iff.mp h
      exact .go (System.fits_of_fitting hfits) hadmits (System.exec_step hs)
  | freeze | clear =>
      simp only [exec] at h
      split at h
      · rename_i hstage
        obtain ⟨s, hs, rfl⟩ := Option.map_eq_some_iff.mp h
        constructor
        · exact hstage
        · exact System.exec_step hs
      · cases h
  | call | find | link | record | settle =>
      simp only [exec] at h
      split at h
      · rename_i hstage
        obtain ⟨s, hs, rfl⟩ := Option.map_eq_some_iff.mp h
        obtain ⟨_, db, w, hrun, rfl⟩ := System.after_eq_some hs
        constructor
        · exact hstage
        · exact hrun
      · cases h
  | refuse | state =>
      simp only [exec] at h
      split at h
      · rename_i hstage
        split at h
        · rename_i hrun
          cases h
          constructor
          · exact hstage
          · exact hrun
        · cases h
      · cases h
  | pass | list =>
      simp only [exec] at h
      split at h
      · rename_i hstage hflusher hcompactor
        split at h
        · rename_i hrun
          cases h
          constructor
          · exact hstage
          · exact ⟨hflusher, hcompactor⟩
          · exact hrun
        · cases h
      · cases h

/-- A schedule, as long as it can be followed. -/
def Copying.execAll (env : Env) (copy : String) : List Errand → Copying → Option Copying
  | [], x => some x
  | e :: es, x => (Copying.exec env copy e x).bind (Copying.execAll env copy es)

theorem Copying.execAll_steps {env : Env} {copy : String} {es : List Errand} {x y : Copying}
    (h : Copying.execAll env copy es x = some y) :
    Relation.ReflTransGen (fun x y => ∃ e, Copying.Step env copy e x y) x y := by
  induction es generalizing x with
  | nil =>
      cases h
      exact .refl
  | cons e es ih =>
      obtain ⟨z, hz, hrest⟩ := Option.bind_eq_some_iff.mp h
      exact .head ⟨e, Copying.exec_step hz⟩ (ih hrest)

/-- A schedule from an empty volume whose end passes a test reaches a state that passes it. -/
theorem Copying.execAll_any {env : Env} {dir copy : String} {opts : Options} {es : List Errand}
    {p : Copying → Bool}
    (h : ((System.start env dir opts).bind
      (fun s => Copying.execAll env copy es ⟨s, .away⟩)).any p = true) :
    ∃ x, Copying.Reached env dir copy x ∧ p x = true := by
  obtain ⟨x, hx, hp⟩ := exists_of_any h
  obtain ⟨s, hs, hrun⟩ := Option.bind_eq_some_iff.mp hx
  unfold System.start at hs
  split at hs
  · rename_i db u w hopen
    cases hs
    exact ⟨x, ⟨opts, Volume.empty, db, w, ⟨Volume.sound_empty, fun _ _ => rfl⟩, hopen,
      Copying.execAll_steps hrun⟩, hp⟩
  · cases hs

/-- The errands of a checkpoint that finds something to flush, in a handle with one table
then. -/
def Copying.checkpointErrands : List Errand :=
  [.call, .freeze, .go .write, .go .place, .go .count, .go .record, .go .publish, .go .relog,
    .clear, .find, .list, .link, .state, .record, .settle]

/-- The tables of a directory, and nothing else in it. -/
structure Linked (env : Env) (dir : String) (v : Volume Path)
    (tables : List (Nat × List Record)) : Prop where
  files : ∀ t ∈ tables, ∃ i,
    v.Bound (sstPath dir t.1) i (tableBytes env t.2) (tableBytes env t.2).length
  only : ∀ p i, p.dir = dir → v.lookup p = some i → ∃ t ∈ tables, p = sstPath dir t.1

/-- A manifest and tables that stand for all that was written. -/
structure Describes (env : Env) (st : ManifestState) (tables : List (Nat × List Record))
    (W : List (List Record)) : Prop where
  keys : st.liveTables.keys = tables.map Prod.fst
  fits : st.Fits
  fit : TablesFit env tables
  ids : (tables.map Prod.fst).Pairwise (· < ·)
  above : ∀ t ∈ tables, t.1 < st.nextSstId
  rising : recordVersions.Rising W.flatten
  below : ∀ r ∈ W.flatten, r.seq < st.nextSeq
  levels : tables.Pairwise (fun a b => ∀ r ∈ a.2, ∀ r' ∈ b.2, r.seq < r'.seq)
  kept : ∀ h, (∀ r ∈ W.flatten, r.seq < h) →
    recordVersions.StandsFor (pool (tables.map Prod.snd)) (ofList W.flatten)
      (ofList W.flatten) h

/-- A directory that holds a checkpoint of `W`. -/
structure Stocked (env : Env) (dir : String) (v : Volume Path) (W : List (List Record)) :
    Prop where
  described : ∃ st tables, Describes env st tables W ∧ Shelf env dir v st tables
  wal : v.lookup (walPath dir) = none

/-- The handle on a copy of `W`. -/
def System.copied (db : DbInner) (w : World) (W : List (List Record)) : System :=
  ⟨db, w, .free, .free, .free, [], [], W, W.length, W.length, W.length, W.length, W.length⟩

section Stocked

variable {env : Env} {dir : String} {v v' : Volume Path} {W : List (List Record)}
variable {st : ManifestState} {tables : List (Nat × List Record)} {d : Path → Prop}

theorem Linked.within (h : Linked env dir v tables) (hw : Within d v v')
    (hd : ∀ p : Path, p.dir = dir → ¬ d p) : Linked env dir v' tables := by
  refine ⟨fun t ht => ?_, fun p i hp hl => ?_⟩
  · obtain ⟨i, hb⟩ := h.files t ht
    exact ⟨i, hb.within hw (hd _ rfl)⟩
  · rw [hw.lookup (hd p hp)] at hl
    exact h.only p i hp hl

theorem Stocked.within (h : Stocked env dir v W) (hw : Within d v v')
    (hd : ∀ p : Path, p.dir = dir → ¬ d p) : Stocked env dir v' W := by
  obtain ⟨st, tables, hst, hshelf⟩ := h.described
  obtain ⟨g, c, i, b, hg, hcur, hman, hreplay⟩ := hshelf.rests.named
  refine ⟨⟨st, tables, hst, ⟨⟨hw.sound hshelf.rests.sound, g, c, i, b, hg,
    hcur.within hw (hd _ rfl), hman.within hw (hd _ rfl), hreplay⟩, hshelf.ids, hshelf.fit,
    fun t ht => ?_⟩⟩, (hw.lookup (hd _ rfl)).trans h.wal⟩
  obtain ⟨i, hb⟩ := hshelf.files t ht
  exact ⟨i, hb.within hw (hd _ rfl)⟩

/-- All of a checkpoint is durable. -/
theorem Stocked.crash (h : Stocked env dir v W) (keep : Nat → Nat) :
    Stocked env dir (v.crash keep) W := by
  obtain ⟨st, tables, hst, hshelf⟩ := h.described
  obtain ⟨g, c, i, b, hg, hcur, hman, hreplay⟩ := hshelf.rests.named
  refine ⟨⟨st, tables, hst, ⟨⟨hshelf.rests.sound.crash keep, g, c, i, b, hg,
    hcur.crash_synced le_rfl keep, hman.crash_synced le_rfl keep, hreplay⟩, hshelf.ids,
    hshelf.fit, fun t ht => ?_⟩⟩, h.wal⟩
  obtain ⟨i, hb⟩ := hshelf.files t ht
  exact ⟨i, hb.crash_synced le_rfl keep⟩

/-- The ledger of a copy. -/
theorem Ledger.copied {db : DbInner} {w : World} (h : Describes env st tables W)
    (hactive : db.active.iter = []) (hseq : db.nextSeq = st.nextSeq) :
    Ledger (System.copied db w W) ⟨tables, st.snapshotEdits, newestLog, []⟩ where
  rising := by
    show recordVersions.Rising (W.flatten ++ [])
    rw [List.append_nil]
    exact h.rising
  below := by
    show ∀ r ∈ W.flatten ++ [], r.seq < db.nextSeq
    rw [List.append_nil, hseq]
    exact h.below
  frozenFrom := le_rfl
  frozenAt := le_rfl
  active := by
    show ofList db.active.iter = ofList (span W W.length W.length)
    rw [hactive, span_self]
  traced := by
    refine ⟨by simp [System.copied, Flusher.slot], rfl, rfl, ?_, by simp [System.copied]⟩
    show ∀ r ∈ span W 0 W.length, r.seq < (applyAll st.snapshotEdits).nextSeq
    rw [span_zero_length, applyAll_snapshotEdits]
    exact h.below
  levels := h.levels
  dropped := le_rfl
  kept := by
    show ∀ x, (∀ r ∈ span W 0 W.length, r.seq < x) → recordVersions.StandsFor
      (pool (tables.map Prod.snd)) (ofList (span W 0 W.length)) (ofList (span W 0 W.length)) x
    rw [span_zero_length]
    exact h.kept
  logged := by
    show ofList ([] : List (List Record)).flatten =
      ofList (span W W.length W.length) ∪ ofList ([] : List (List Record)).flatten
    rw [span_self]
    simp [ofList]

/-- A checkpoint is opened. -/
theorem Stocked.opened {σ : Type} {s : σ} {w : World} (h : Stocked env dir w.vol W)
    (hq : w.Quiet) (hfree : lockPath dir ∉ w.locks) (opts : Options) :
    ∃ db w' held, (assemble env dir opts : M σ DbInner) s w = (.ok db, s, w') ∧
      Files env (System.copied db w' W) held ∧ Ledger (System.copied db w' W) held ∧
      Within (InDir dir) w.vol w'.vol ∧ db.dir = dir := by
  obtain ⟨st, tables, hst, hshelf⟩ := h.described
  have hwal : walBytes w.vol dir = none := by
    unfold walBytes
    rw [file_eq_none_iff.mpr h.wal]
    rfl
  have himg : Image env dir w.vol st tables [] := hshelf.image (by rw [hwal]; rfl)
  obtain ⟨w', db, hrun, hs', hopen, hman, hgrew⟩ := assemble_quiet (s := s) opts hq hfree himg
  have hwal' : walOpened (walBytes w.vol dir) = logBytes env newestLog [] := by
    rw [hwal, logBytes_nil]
    rfl
  rw [hwal'] at hopen
  have hopen' : Opened env dir opts w'.vol db st tables ([] : List (List Record)).flatten
      (logBytes env newestLog []) := hopen
  have hmem := Prod.ext_iff.mp hopen.memory
  refine ⟨db, w', _, hrun, Files.opened (s := System.copied db w' W) ⟨rfl, rfl, rfl⟩ hgrew.quiet
    hs' hopen' hman (by simp [ManifestState.snapshotEdits]) (applyAll_snapshotEdits st) hst.keys
    hst.ids hst.fit (by simp) hst.above, Ledger.copied hst ?_ hmem.2,
    ?_, hopen.inDir⟩
  · rw [show db.active = _ from hmem.1]
    rfl
  · rcases (assemble_within opts hq hfree himg hrun).ends with heq | hwithin
    · rw [show w'.vol = w.vol from heq]
      exact .refl _ _
    · exact hwithin

end Stocked

/-- The checkpoint has the flush lock. -/
structure Locked (s : System) (copy : String) (since upto : Nat) : Prop where
  free : s.flushLockFree
  since : since ≤ upto
  upto : upto = s.publishedAt
  apart : copy ≠ s.db.dir

/-- What holds of the system and of the directory, depending on how far the checkpoint has
come. -/
def Copier.Backed (env : Env) (copy : String) (s : System) (held : Held) : Copier → Prop
  | .away => True
  | .called a => a ≤ s.written.length
  | .flushing a => a ≤ s.frozenAt ∧ s.flusher ≠ .free
  | .flushed a => a ≤ s.publishedAt
  | .cleared a => a ≤ s.publishedAt ∧ copy ≠ s.db.dir ∧ Linked env copy s.w.vol []
  | .linking a n tables left => Locked s copy a n ∧ tables = s.db.sstables ∧
      ∃ k, left = tables.drop k ∧ Linked env copy s.w.vol (held.tables.take k)
  | .stated a n st => Locked s copy a n ∧ Linked env copy s.w.vol held.tables ∧
      Describes env st held.tables (s.written.take n)
  | .recorded a n => Locked s copy a n ∧ Stocked env copy s.w.vol (s.written.take n)
  | .done a n => a ≤ n ∧ n ≤ s.written.length ∧ copy ≠ s.db.dir ∧
      Stocked env copy s.w.vol (s.written.take n) ∧
      ∀ p : Path, p.dir = copy → s.w.vol.Covered p

/-- No batch is empty. -/
def System.Solid (s : System) : Prop := ∀ b ∈ s.written ++ s.writer.batches, b ≠ []

/-- What holds of a system of which a checkpoint is made. -/
def Copying.Kept (env : Env) (copy : String) (x : Copying) : Prop :=
  ∃ held, Files env x.sys held ∧ Ledger x.sys held ∧ x.sys.Solid ∧
    x.copier.Backed env copy x.sys held

section Go

variable {env : Env} {copy : String} {s s' : System} {held held' : Held} {l : Label}
variable {a n : Nat}

/-- No step makes an empty batch. -/
theorem System.Solid.step (h : s.Solid) (hstep : Step env l s s') : s'.Solid := by
  cases hstep with
  | @number _ db w records batch hne free run =>
      have hrecords : records = DbInner.numberRecords s.db.nextSeq batch := by
        cases run
        rfl
      intro b hb
      rcases List.mem_append.mp hb with hb | hb
      · exact h b (List.mem_append_left _ hb)
      · rw [List.mem_singleton.mp hb, hrecords]
        exact numberRecords_ne_nil _ hne
  | log stage run =>
      intro b hb
      rw [System.Solid, stage] at h
      exact h b hb
  | insert stage run =>
      intro b hb
      rw [System.Solid, stage] at h
      refine h b ?_
      simpa [Writer.batches] using hb
  | _ => exact h

/-- A flush that has begun comes to no end but by clearing its slot. -/
theorem Step.flusher_ne_free (h : s.flusher ≠ .free) (hl : l ≠ .clear)
    (hstep : Step env l s s') : s'.flusher ≠ .free := by
  cases hstep with
  | clear stage run => exact absurd rfl hl
  | freeze | write | place | count | record | publish | relog => simp
  | _ => exact h

/-- While the flush lock is held no table comes or goes. -/
theorem Effect.locked (h : Effect env l s held s' held') (hfree : s.flushLockFree)
    (hl : l.onHandle = true) (hfreeze : l ≠ .freeze) (hname : l ≠ .name) :
    s'.flushLockFree ∧ s'.db.sstables = s.db.sstables ∧ held'.tables = held.tables ∧
      s'.publishedAt = s.publishedAt := by
  obtain ⟨hflusher, hcompactor⟩ := hfree
  cases h with
  | freeze => exact absurd rfl hfreeze
  | name => exact absurd rfl hname
  | reopen => cases hl
  | write stage | place table stage | count stage | record stage | publish stage
  | relog wal stage | clear stage =>
      rw [hflusher] at stage
      cases stage
  | finish sstables stage =>
      rw [stage] at hcompactor
      cases hcompactor
  | list | choose | abandon | bound | merge => exact ⟨⟨hflusher, rfl⟩, rfl, rfl, rfl⟩
  | _ => exact ⟨⟨hflusher, hcompactor⟩, rfl, rfl, rfl⟩

/-- A beginning of the history stays a beginning. -/
theorem take_eq_of_extends {W W' : List (List Record)} (h : W <+: W') (hn : n ≤ W.length) :
    W'.take n = W.take n := by
  obtain ⟨rest, rfl⟩ := h
  exact List.take_append_of_le_length hn

/-- A section of another thread leaves the checkpoint where it is. -/
theorem Copier.Backed.go {c : Copier} (hfiles : Files env s held) (hledger : Ledger s held)
    (h : c.Backed env copy s held) (hadmits : c.admits l = true) (hfits : Fits env l s)
    (hstep : Step env l s s') (heff : Effect env l s held s' held') :
    c.Backed env copy s' held' := by
  obtain ⟨-, hwithin, hdir⟩ := hfiles.within hfits hstep
  have hbefore := hledger.before hstep
  have hother : copy ≠ s.db.dir → ∀ p : Path, p.dir = copy → ¬ InDir s.db.dir p :=
    fun hne p hp hin => hne (hp.symm.trans hin)
  have hlocked : ∀ {a n}, Locked s copy a n →
      (l.onHandle && decide (l ≠ .freeze) && decide (l ≠ .name)) = true →
      Locked s' copy a n ∧ s'.db.sstables = s.db.sstables ∧ held'.tables = held.tables ∧
        s'.written.take n = s.written.take n := by
    intro a n hlock hl
    simp only [Bool.and_eq_true, decide_eq_true_eq] at hl
    obtain ⟨hfree, hsst, htables, hpub⟩ := heff.locked hlock.free hl.1.1 hl.1.2 hl.2
    have hle : n ≤ s.written.length := by
      have := hledger.publishedAt_le.trans hledger.frozenAt
      rw [hlock.upto]
      exact this
    exact ⟨⟨hfree, hlock.since, hlock.upto.trans hpub.symm, by rw [hdir]; exact hlock.apart⟩,
      hsst, htables, take_eq_of_extends hbefore.written hle⟩
  cases c with
  | away => trivial
  | called a => exact le_trans h hbefore.written.length_le
  | flushing a =>
      obtain ⟨ha, hflusher⟩ := h
      simp only [Copier.admits, Bool.and_eq_true, decide_eq_true_eq] at hadmits
      exact ⟨ha.trans hbefore.frozenAt, hstep.flusher_ne_free hflusher hadmits.2⟩
  | flushed a => exact le_trans h hbefore.publishedAt
  | cleared a =>
      obtain ⟨ha, hne, hlinked⟩ := h
      exact ⟨ha.trans hbefore.publishedAt, by rw [hdir]; exact hne,
        hlinked.within hwithin (hother hne)⟩
  | linking a n tables left =>
      obtain ⟨hlock, hsst, k, hleft, hlinked⟩ := h
      obtain ⟨hlock', hsst', htables, _⟩ := hlocked hlock hadmits
      refine ⟨hlock', hsst.trans hsst'.symm, k, hleft, ?_⟩
      rw [htables]
      exact hlinked.within hwithin (hother hlock.apart)
  | stated a n st =>
      obtain ⟨hlock, hlinked, hdescribes⟩ := h
      obtain ⟨hlock', _, htables, htake⟩ := hlocked hlock hadmits
      refine ⟨hlock', ?_, ?_⟩
      · rw [htables]
        exact hlinked.within hwithin (hother hlock.apart)
      · rw [htables, htake]
        exact hdescribes
  | recorded a n =>
      obtain ⟨hlock, hstocked⟩ := h
      obtain ⟨hlock', _, _, htake⟩ := hlocked hlock hadmits
      refine ⟨hlock', ?_⟩
      rw [htake]
      exact hstocked.within hwithin (hother hlock.apart)
  | done a n =>
      obtain ⟨ha, hn, hne, hstocked, hcov⟩ := h
      refine ⟨ha, hn.trans hbefore.written.length_le, by rw [hdir]; exact hne, ?_,
        fun p hp => hwithin.covered (hother hne p hp) (hcov p hp)⟩
      rw [take_eq_of_extends hbefore.written hn]
      exact hstocked.within hwithin (hother hne)

end Go

section Own

variable {env : Env} {copy : String} {s : System} {held : Held} {a n : Nat}

/-- A flush that finds nothing to freeze: all is in tables. -/
theorem Ledger.published_of_empty (h : Ledger s held)
    (hsolid : s.Solid) (hfree : s.flushLockFree)
    (hempty : s.db.active.isEmpty = true) : s.publishedAt = s.written.length := by
  have htraced := h.traced
  rw [hfree.1] at htraced
  rw [show s.publishedAt = s.frozenAt from htraced.published]
  have hnone : ofList (span s.written s.frozenAt s.written.length) = ∅ := by
    rw [← h.active, MemTable.isEmpty_iff.mp hempty]
    simp [ofList]
  have hdrop : s.written.drop s.frozenAt = [] := by
    refine List.eq_nil_iff_forall_not_mem.mpr fun b hb => ?_
    have hmem : b ∈ s.written := List.mem_of_mem_drop hb
    obtain ⟨r, hr⟩ := List.exists_mem_of_ne_nil b (hsolid b (List.mem_append_left _ hmem))
    have hin : r ∈ ofList (span s.written s.frozenAt s.written.length) := by
      show r ∈ span s.written s.frozenAt s.written.length
      unfold span
      rw [List.take_length]
      exact List.mem_flatten.mpr ⟨b, hb, hr⟩
    rw [hnone] at hin
    exact hin
  exact le_antisymm h.frozenAt (List.drop_eq_nil_iff.mp hdrop)

/-- An empty directory is not that of the handle. -/
theorem Files.ne_of_empty (h : Files env s held)
    (hempty : ∀ p : Path, p.dir = copy → s.w.vol.lookup p = none) : copy ≠ s.db.dir := by
  intro heq
  obtain ⟨g, i, hman⟩ := h.manifest
  obtain ⟨c, hc⟩ := hman.live.named.current
  have := hempty (currentPath s.db.dir) heq.symm
  rw [hc.name] at this
  cases this

/-- A list from some place on. -/
theorem take_succ_of_drop {α : Type} {l rest : List α} {u : α} {k : Nat}
    (h : l.drop k = u :: rest) : l.take (k + 1) = l.take k ++ [u] ∧ l.drop (k + 1) = rest := by
  constructor
  · rw [List.take_add_one, ← List.head?_drop, h]
    rfl
  · rw [← List.tail_drop, h]
    rfl

/-- The next table is linked. -/
theorem Files.afterLink (h : Files env s held) (hlock : Locked s copy a n) {t : SsTable}
    {left : List SsTable} {k : Nat} (hleft : s.db.sstables.drop k = t :: left)
    (hlinked : Linked env copy s.w.vol (held.tables.take k)) :
    ∃ w, DbInner.linkTable s.db.dir copy t s.db s.w = (.ok (), s.db, w) ∧
      Files env { s with w := w } held ∧ Linked env copy w.vol (held.tables.take (k + 1)) := by
  have hread := List.forall₂_drop k h.read
  rw [hleft] at hread
  obtain ⟨u, rest, hu, hrest, hdrop⟩ := List.forall₂_cons_left_iff.mp hread
  obtain ⟨_, ht, _⟩ := hu
  obtain ⟨htake, _⟩ := take_succ_of_drop hdrop
  have hsplit : held.tables = held.tables.take k ++ u :: rest := by
    rw [← hdrop, List.take_append_drop]
  have hlater : ∀ x ∈ held.tables.take k, x.1 < u.1 := by
    have hids := h.ids
    rw [hsplit, List.map_append, List.pairwise_append] at hids
    exact fun x hx => hids.2.2 x.1 (List.mem_map_of_mem hx) u.1 (by simp)
  have hmem : u ∈ held.tables := by
    rw [hsplit]
    simp
  obtain ⟨i, hb⟩ := h.files u hmem (by simp [Compactor.replaced_eq_none_iff.mpr hlock.free.2])
  have habsent : s.w.vol.lookup (sstPath copy u.1) = none := by
    cases hl : s.w.vol.lookup (sstPath copy u.1) with
    | none => rfl
    | some j =>
        obtain ⟨x, hx, heq⟩ := hlinked.only _ j rfl hl
        have := hlater x hx
        simp only [sstPath, Path.mk.injEq, FileName.sst.injEq, true_and] at heq
        omega
  have hsame : SameExcept [sstPath copy u.1] s.w.vol
      (s.w.vol.link (sstPath s.db.dir u.1) (sstPath copy u.1)) :=
    sameExcept_link ⟨_, rfl⟩ ⟨_, rfl⟩ hb.name
  refine ⟨s.w.touch (fun v => v.link (sstPath s.db.dir u.1) (sstPath copy u.1)), ?_,
    h.elsewhere (h.quiet.touch _) (hsame.within ?_), ?_⟩
  · unfold DbInner.linkTable
    rw [ht]
    exact Fs.hardLink_some hb.name habsent
  · simpa using hlock.apart
  · rw [htake]
    refine ⟨fun x hx => ?_, fun p j hp hl => ?_⟩
    · rcases List.mem_append.mp hx with hx | hx
      · obtain ⟨j, hj⟩ := hlinked.files x hx
        have := hlater x hx
        refine ⟨j, hj.same hsame ?_⟩
        simp only [List.mem_singleton, sstPath, Path.mk.injEq, FileName.sst.injEq, true_and]
        omega
      · rw [List.mem_singleton.mp hx]
        exact ⟨i, hb.link⟩
    · rw [World.vol_touch, lookup_link hb.name] at hl
      split_ifs at hl with hq
      · exact ⟨u, by simp, hq⟩
      · obtain ⟨x, hx, heq⟩ := hlinked.only p j hp hl
        exact ⟨x, List.mem_append_left _ hx, heq⟩

/-- The manifest of the checkpoint describes its tables. -/
theorem Files.describes (h : Files env s held) (hledger : Ledger s held)
    (hlock : Locked s copy a n) :
    Describes env ⟨(s.db.sstables.map SsTable.id).foldl (fun s id => s.insert id ())
      SortedMap.empty, s.db.nextSeq, s.db.nextSstId⟩ held.tables (s.written.take n) := by
  have hids : s.db.sstables.map SsTable.id = held.tables.map Prod.fst := TablesRead.ids h.read
  have hkeys : ((s.db.sstables.map SsTable.id).foldl (fun s id => s.insert id ())
      SortedMap.empty).keys = held.tables.map Prod.fst := by
    rw [hids]
    exact keys_foldl_insert h.ids
  obtain ⟨⟨hnext, habove⟩, _⟩ := h.stage hlock.free.1
  obtain ⟨g, i, hman⟩ := h.manifest
  have hfits := fits_applyAll hman.fits
  have hsmall : s.db.nextSstId < 2 ^ 64 := by
    rw [← hnext]
    exact hfits.sst
  have hpart : ∀ r ∈ (s.written.take n).flatten, r ∈ s.written.flatten := fun r hr =>
    (List.take_sublist n s.written).flatten.mem hr
  have hspan : span s.written 0 s.publishedAt = (s.written.take n).flatten := by
    rw [hlock.upto, span, List.drop_zero]
  exact
    { keys := hkeys
      fits := ⟨fun id hid => by
          rw [hkeys] at hid
          obtain ⟨t, ht, rfl⟩ := List.mem_map.mp hid
          exact lt_trans (habove t ht) hsmall, by
          have := h.seq
          unfold u64Max at this
          show s.db.nextSeq < 2 ^ 64
          omega, hsmall⟩
      fit := h.fit
      ids := h.ids
      above := habove
      rising := hledger.written_rising.sublist (List.take_sublist n s.written).flatten
      below := fun r hr => hledger.below r (List.mem_append_left _ (hpart r hr))
      levels := hledger.levels
      kept := fun x hx => by
        have hkept := hledger.kept x (by rw [hspan]; exact hx)
        rw [hspan] at hkept
        refine hkept.mono fun r hr => ?_
        rw [← hspan]
        exact span_mono le_rfl hledger.droppedAt_le hr }

/-- The manifest is written. -/
theorem Files.afterManifest (h : Files env s held) (hlock : Locked s copy a n)
    {st : ManifestState} {W : List (List Record)} (hlinked : Linked env copy s.w.vol held.tables)
    (hdescribes : Describes env st held.tables W) :
    ∃ w, Manifest.writeFresh env copy st s.db s.w = (.ok (), s.db, w) ∧
      Files env { s with w := w } held ∧ Stocked env copy w.vol W ∧
      s.w.Grew w (FreshManifest env copy st.snapshotEdits s.w.vol) := by
  have habsent : ∀ name : FileName, (∀ id, name ≠ .sst id) →
      s.w.vol.lookup ⟨copy, name⟩ = none := by
    intro name hname
    cases hl : s.w.vol.lookup ⟨copy, name⟩ with
    | none => rfl
    | some j =>
        obtain ⟨x, _, heq⟩ := hlinked.only _ j rfl hl
        simp only [sstPath, Path.mk.injEq, true_and] at heq
        exact absurd heq (hname x.1)
  obtain ⟨w, i, hrun, hlive, hsame, hgrew⟩ := Manifest.writeFresh_live (s := s.db) env copy st
    h.quiet h.sound (habsent .current (by simp))
  obtain ⟨c, hc⟩ := hlive.named.current
  refine ⟨w, hrun, h.elsewhere hgrew.quiet (hsame.within ?_), ⟨⟨st, held.tables, hdescribes,
    ⟨⟨hsame.sound h.sound, 0, c, i, _, by decide, hc, hlive.holds, ?_⟩, hdescribes.keys,
      hdescribes.fit, fun t ht => ?_⟩⟩, ?_⟩, hgrew⟩
  · simpa using hlock.apart
  · rw [replayManifest_manifestBytes (snapshotEdits_fit hdescribes.fits), applyAll_snapshotEdits]
  · obtain ⟨j, hb⟩ := hlinked.files t ht
    exact ⟨j, hb.same hsame (by simp)⟩
  · rw [hsame.names _ (by simp)]
    exact habsent .wal (by simp)

end Own

section Run

variable {env : Env} {dir copy : String} {x y : Copying} {e : Errand}

theorem Ledger.publishedAt_le_written {s : System} {held : Held} (h : Ledger s held) :
    s.publishedAt ≤ s.written.length := h.publishedAt_le.trans h.frozenAt

/-- A section of any thread, run where all is in order, leaves all in order. -/
theorem Copying.Kept.step (h : x.Kept env copy) (hstep : Copying.Step env copy e x y) :
    y.Kept env copy := by
  obtain ⟨held, hfiles, hledger, hsolid, hback⟩ := h
  cases hstep with
  | go fits admitted step =>
      obtain ⟨held', heff, hfiles'⟩ := hfiles.step fits step
      exact ⟨held', hfiles', hledger.step hfiles.toStored heff, hsolid.step step,
        hback.go hfiles hledger admitted fits step heff⟩
  | call away healthy => exact ⟨held, hfiles, hledger, hsolid, le_rfl⟩
  | freeze stage step =>
      obtain ⟨held', heff, hfiles'⟩ := hfiles.step (l := .freeze) trivial step
      rw [stage] at hback
      refine ⟨held', hfiles', hledger.step hfiles.toStored heff, hsolid.step step, ?_⟩
      cases step with
      | freeze free run => exact ⟨hback, by simp⟩
  | pass stage free run =>
      rw [stage] at hback
      refine ⟨held, hfiles, hledger, hsolid, ?_⟩
      have hempty : x.sys.db.active.isEmpty = true := by
        cases hactive : x.sys.db.active.isEmpty with
        | true => rfl
        | false =>
            unfold DbInner.freeze at run
            rw [M.bind_ok (M.self_apply _ _), hactive] at run
            cases run
      show _ ≤ x.sys.publishedAt
      rw [hledger.published_of_empty hsolid free hempty]
      exact hback
  | clear stage step =>
      obtain ⟨held', heff, hfiles'⟩ := hfiles.step (l := .clear) trivial step
      rw [stage] at hback
      refine ⟨held', hfiles', hledger.step hfiles.toStored heff, hsolid.step step, ?_⟩
      cases step with
      | clear relogged run =>
          have htraced := hledger.traced
          rw [relogged] at htraced
          show _ ≤ x.sys.publishedAt
          rw [htraced.published]
          exact hback.1
  | find stage run =>
      rw [stage] at hback
      obtain ⟨_, _, hempty⟩ := findEmpty_ok run
      refine ⟨held, hfiles, hledger, hsolid, hback, hfiles.ne_of_empty hempty, by simp, ?_⟩
      intro p i hp hl
      rw [hempty p hp] at hl
      cases hl
  | refuse stage run => exact ⟨held, hfiles, hledger, hsolid, trivial⟩
  | list stage free run =>
      rw [stage] at hback
      obtain ⟨ha, hne, hlinked⟩ := hback
      cases run
      exact ⟨held, hfiles, hledger, hsolid, ⟨free, ha, rfl, hne⟩, rfl, 0, rfl, hlinked⟩
  | link stage run =>
      rw [stage] at hback
      obtain ⟨hlock, rfl, k, hleft, hlinked⟩ := hback
      obtain ⟨w, hrun, hfiles', hlinked'⟩ := hfiles.afterLink hlock hleft.symm hlinked
      cases hrun.symm.trans run
      exact ⟨held, hfiles', { hledger with }, hsolid, ⟨hlock.free, hlock.since, hlock.upto,
        hlock.apart⟩, rfl, k + 1, (take_succ_of_drop hleft.symm).2.symm, hlinked'⟩
  | state stage run =>
      rw [stage] at hback
      obtain ⟨hlock, rfl, k, hleft, hlinked⟩ := hback
      cases run
      have hlen : held.tables.length ≤ k := by
        rw [← List.Forall₂.length_eq hfiles.read]
        exact List.drop_eq_nil_iff.mp hleft.symm
      rw [List.take_of_length_le hlen] at hlinked
      exact ⟨held, hfiles, hledger, hsolid, hlock, hlinked, hfiles.describes hledger hlock⟩
  | record stage run =>
      rw [stage] at hback
      obtain ⟨hlock, hlinked, hdescribes⟩ := hback
      obtain ⟨w, hrun, hfiles', hstocked, _⟩ := hfiles.afterManifest hlock hlinked hdescribes
      cases hrun.symm.trans run
      exact ⟨held, hfiles', { hledger with }, hsolid,
        ⟨hlock.free, hlock.since, hlock.upto, hlock.apart⟩, hstocked⟩
  | @settle _ db w a n stage run =>
      rw [stage] at hback
      obtain ⟨hlock, hstocked⟩ := hback
      cases run
      have hwithin : ∀ d, Within d x.sys.w.vol
          (x.sys.w.vol.syncNames (fun p => p.dir = copy)) := fun d =>
        (sameExcept_syncNames [] _).within (by simp)
      refine ⟨held, hfiles.elsewhere (hfiles.quiet.touch _) (hwithin _), { hledger with }, hsolid,
        hlock.since, ?_, hlock.apart, hstocked.within (hwithin fun _ => False) (by simp),
        fun p hp => covered_syncNames (by simpa using hp)⟩
      rw [hlock.upto]
      exact hledger.publishedAt_le_written

/-- So it is in every state reached. -/
theorem Copying.Reached.kept (h : Copying.Reached env dir copy x) : x.Kept env copy := by
  obtain ⟨opts, v, db, w, hfresh, hopen, hrun⟩ := h
  have hreached : LsmKv.Reached env dir (Fits env) (System.opened db w) :=
    ⟨opts, v, db, w, hfresh, hopen, .refl⟩
  obtain ⟨held, hfiles, hledger⟩ := hreached.ledger (fun _ _ h => h)
  have hstart : Copying.Kept env copy ⟨System.opened db w, .away⟩ :=
    ⟨held, hfiles, hledger, by simp [System.Solid, System.opened, Writer.batches], trivial⟩
  induction hrun with
  | refl => exact hstart
  | tail _ hlast ih =>
      obtain ⟨e, hstep⟩ := hlast
      exact ih.step hstep

end Run

end LsmKv
