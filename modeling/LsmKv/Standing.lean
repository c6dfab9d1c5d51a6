import LsmKv.Serving

/-!
# One call after another

A handle in good standing (`Standing`) has its files laid out, nothing frozen
and nothing latched, and its counters above everything they count.  The calls
that move records between sources all come down to two effects on what the files
hold, a flush and a merge of neighbouring tables (`Moves`).

**Results.**
* `Standing.writeBatch`, `Standing.flushInner`, `Standing.compactStep`,
  `Standing.flush`, `Standing.maintain`: in good standing, a call whose data fit
  the file formats returns Ok, and what it did is one of the effects.
-/

namespace LsmKv

open Foundation Volume

/-- A handle between two calls. -/
structure Standing (env : Env) (w : World) (db : DbInner) (held : Held) : Prop where
  quiet : w.Quiet
  layout : Layout env w.vol db held
  healthy : db.failed = none
  frozen : db.frozen = none
  seq : db.nextSeq ≤ u64Max
  nextId : (applyAll held.edits).nextSstId = db.nextSstId
  above : ∀ t ∈ held.tables, t.1 < db.nextSstId

/-- What a call that only moves records does to the handle and to the files. -/
inductive Moves (db : DbInner) (held : Held) : DbInner → Held → Prop
  | flushed (table : SsTable) (wal : Wal) (full : db.active.isEmpty = false) :
      Moves db held (db.flushed table wal) (held.flushed db)
  | compacted {front stale back : List (Nat × List Record)} {last : Nat × List Record}
      (sstables : List SsTable) (run : RunAt held front stale last back) :
      Moves db held { db with sstables := sstables }
        (held.compacted front stale last back (db.mergeOut front stale last))

/-- Any number of such steps. -/
def ManyMoves (a b : DbInner × Held) : Prop :=
  Relation.ReflTransGen (fun a b : DbInner × Held => Moves a.1 a.2 b.1 b.2) a b

/-- The parts of a handle that moving records does not touch. -/
theorem ManyMoves.same {a b : DbInner × Held} (h : ManyMoves a b) :
    b.1.dir = a.1.dir ∧ b.1.opts = a.1.opts ∧ b.1.snapshots = a.1.snapshots ∧
      b.1.nextSeq = a.1.nextSeq := by
  induction h with
  | refl => exact ⟨rfl, rfl, rfl, rfl⟩
  | @tail b c _ hbc ih =>
      obtain ⟨h1, h2, h3, h4⟩ := ih
      have hstep : c.1.dir = b.1.dir ∧ c.1.opts = b.1.opts ∧ c.1.snapshots = b.1.snapshots ∧
          c.1.nextSeq = b.1.nextSeq := by
        obtain ⟨db', held'⟩ := c
        cases hbc with
        | flushed table wal full => exact ⟨rfl, rfl, rfl, rfl⟩
        | compacted sstables run => exact ⟨rfl, rfl, rfl, rfl⟩
      exact ⟨hstep.1.trans h1, hstep.2.1.trans h2, hstep.2.2.1.trans h3, hstep.2.2.2.trans h4⟩

/-- The records of a batch fit the log, and the sequence numbers do not run out. -/
structure WriteFits (db : DbInner) (batch : WriteBatch) : Prop where
  fits : BatchFits (DbInner.numberRecords db.nextSeq batch)
  seqs : db.nextSeq + batch.length ≤ u64Max

instance (db : DbInner) (batch : WriteBatch) : Decidable (WriteFits db batch) :=
  decidable_of_iff (BatchFits (DbInner.numberRecords db.nextSeq batch) ∧
      db.nextSeq + batch.length ≤ u64Max)
    ⟨fun h => ⟨h.1, h.2⟩, fun h => ⟨h.fits, h.seqs⟩⟩

/-- What a flush writes fits the formats. -/
structure FlushFits (env : Env) (db : DbInner) : Prop where
  table : db.active.isEmpty = false → TableFits env db.active.iter
  id : db.nextSstId + 1 < 2 ^ 64

instance (env : Env) (db : DbInner) : Decidable (FlushFits env db) :=
  decidable_of_iff ((db.active.isEmpty = false → TableFits env db.active.iter) ∧
      db.nextSstId + 1 < 2 ^ 64)
    ⟨fun h => ⟨h.1, h.2⟩, fun h => ⟨h.table, h.id⟩⟩

/-- What a compaction would write, should it find a run, fits the format. -/
def CompactionFits (env : Env) (db : DbInner) (w : World) : Prop :=
  ∀ start stop, ((pickCompaction db.sstables db.opts.compactionThreshold :
      M DbInner (Option (Nat × Nat))) db w).1 = .ok (some (start, stop)) →
    ∀ inputs, (M.collect (fun r : SsTableReader => r.iterAll env)
        (((db.sstables.take stop).drop start).map SsTable.reader) db w).1 = .ok inputs →
      TableFits env (compactRecords inputs (decide (start = 0)) db.minSnapshotSeq)

/-- Whether it does. -/
def compactionFitting (env : Env) (db : DbInner) (w : World) : Bool :=
  match ((pickCompaction db.sstables db.opts.compactionThreshold :
      M DbInner (Option (Nat × Nat))) db w).1 with
  | .ok (some (start, stop)) =>
      match (M.collect (fun r : SsTableReader => r.iterAll env)
          (((db.sstables.take stop).drop start).map SsTable.reader) db w).1 with
      | .ok inputs =>
          decide (TableFits env (compactRecords inputs (decide (start = 0)) db.minSnapshotSeq))
      | .error _ => true
  | _ => true

theorem compactionFits_of_fitting {env : Env} {db : DbInner} {w : World}
    (h : compactionFitting env db w = true) : CompactionFits env db w := by
  intro start stop hpick inputs hinputs
  unfold compactionFitting at h
  simp only [hpick, hinputs] at h
  exact of_decide_eq_true h

/-- So do all the merges of a compaction loop. -/
def LoopFits (env : Env) : Nat → DbInner → World → Prop
  | 0, _, _ => True
  | fuel + 1, db, w => CompactionFits env db w ∧
      ∀ db' w', DbInner.compactStep env db w = (.ok true, db', w') → LoopFits env fuel db' w'

namespace Standing

variable {env : Env} {w : World} {db : DbInner} {held : Held}

theorem writeBatch (h : Standing env w db held) {batch : WriteBatch} (hne : batch ≠ [])
    (htake : held.kind.Takes (DbInner.numberRecords db.nextSeq batch))
    (hseq : db.nextSeq + batch.length ≤ u64Max) :
    ∃ w', DbInner.writeBatch env batch db w = (.ok (), db.written batch, w') ∧
      Standing env w' (db.written batch)
        (held.written (DbInner.numberRecords db.nextSeq batch)) ∧
      w'.locks = w.locks := by
  obtain ⟨w', hrun, hlay, hgrew⟩ := writeBatch_quiet h.quiet h.healthy h.layout hne htake
  refine ⟨w', hrun, ?_, hgrew.locks⟩
  have hnext : (db.written batch).nextSeq ≤ u64Max :=
    le_trans (Nat.mod_le _ _) hseq
  exact ⟨hgrew.quiet, hlay, h.healthy, h.frozen, hnext, h.nextId, h.above⟩

/-- A log without counts takes no batch of several records: the numbers of the batch are
used up, and nothing else happens. -/
theorem writeBatch_refused (h : Standing env w db held) {batch : WriteBatch} (hne : batch ≠ [])
    (hno : ¬ held.kind.Takes (DbInner.numberRecords db.nextSeq batch)) :
    ∃ e, DbInner.writeBatch env batch db w =
      (.error e, { db with nextSeq := (db.nextSeq + batch.length) % 2 ^ 64 }, w) := by
  obtain ⟨i, n, hlog⟩ := h.layout.log
  have hrne := numberRecords_ne_nil db.nextSeq hne
  obtain ⟨hcounted, hone⟩ := not_or.mp hno
  have hpos := List.length_pos_iff.mpr hrne
  have hwal : db.wal.counted = false := by
    rw [hlog.handle]
    exact Bool.eq_false_of_not_eq_true hcounted
  obtain ⟨e, hrefused⟩ : ∃ e, Wal.appendBatch env (DbInner.numberRecords db.nextSeq batch)
      db.wal w = (.error e, db.wal, w) := by
    unfold Wal.appendBatch
    rw [M.bind_ok (M.self_apply _ _), if_neg hrne, if_pos ⟨hwal, by omega⟩]
    exact ⟨_, rfl⟩
  have hwrite : DbInner.onWal (Wal.appendBatch env (DbInner.numberRecords db.nextSeq batch))
      { db with nextSeq := (db.nextSeq + batch.length) % 2 ^ 64 } w =
        (.error e, { db with nextSeq := (db.nextSeq + batch.length) % 2 ^ 64 }, w) :=
    M.zoom_eq DbInner.wal (fun self wal => { self with wal := wal })
      (s := { db with nextSeq := (db.nextSeq + batch.length) % 2 ^ 64 }) hrefused
  refine ⟨e, ?_⟩
  unfold DbInner.writeBatch
  rw [M.bind_ok (health_ok h.healthy), if_neg hne, M.bind_ok (M.self_apply _ _),
    M.bind_ok (M.update_apply _ _ _), M.bind_error hwrite]

theorem takes_of_writeBatch_ok (h : Standing env w db held) {batch : WriteBatch}
    (hne : batch ≠ []) {db' : DbInner} {w' : World}
    (hrun : DbInner.writeBatch env batch db w = (.ok (), db', w')) :
    held.kind.Takes (DbInner.numberRecords db.nextSeq batch) := by
  by_contra hno
  obtain ⟨e, hrefused⟩ := h.writeBatch_refused hne hno
  cases hrun.symm.trans hrefused

theorem flushReady (h : Standing env w db held) (hfits : FlushFits env db)
    (hfull : db.active.isEmpty = false) : FlushReady env db held where
  table := hfits.table hfull
  id := hfits.id
  seq := by
    have := h.seq
    unfold u64Max at this
    omega
  above := h.above

theorem flushInner (h : Standing env w db held) (hfits : FlushFits env db) :
    ∃ db' held' w', DbInner.flushInner env db w = (.ok (), db', w') ∧
      ManyMoves (db, held) (db', held') ∧ Standing env w' db' held' ∧ w'.locks = w.locks ∧
      db'.sstables.length ≤ db.sstables.length + 1 := by
  cases hfull : db.active.isEmpty with
  | true =>
      exact ⟨db, held, w, flushInner_ok h.healthy (flushImpl_empty hfull), .refl, h, rfl,
        Nat.le_succ _⟩
  | false =>
      have hready := h.flushReady hfits hfull
      obtain ⟨w', table, wal, hrun, hlay, hgrew⟩ := flushImpl_quiet h.quiet h.layout hready hfull
      refine ⟨_, _, w', flushInner_ok h.healthy hrun, .single (.flushed table wal hfull),
        ⟨hgrew.quiet, hlay, h.healthy, rfl, h.seq, ?_, ?_⟩, hgrew.locks, ?_⟩
      · show (applyAll (held.edits ++ _)).nextSstId = _
        rw [applyAll_append]
        rfl
      · have hid := hfits.id
        have hnext : (db.flushed table wal).nextSstId = db.nextSstId + 1 :=
          Nat.mod_eq_of_lt hid
        intro t ht
        rw [hnext]
        rcases List.mem_append.mp ht with ht | ht
        · exact Nat.lt_succ_of_lt (h.above t ht)
        · rw [List.mem_singleton.mp ht]
          exact Nat.lt_succ_self _
      · simp [DbInner.flushed]

theorem applyAll_deleteEdits (edits : List VersionEdit) (stale : List (Nat × List Record)) :
    (applyAll (edits ++ deleteEdits stale)).nextSstId = (applyAll edits).nextSstId ∧
      (applyAll (edits ++ deleteEdits stale)).nextSeq = (applyAll edits).nextSeq := by
  have hfold : ∀ st : ManifestState,
      ((deleteEdits stale).foldl ManifestState.apply st).nextSstId = st.nextSstId ∧
        ((deleteEdits stale).foldl ManifestState.apply st).nextSeq = st.nextSeq := by
    induction stale with
    | nil => exact fun st => ⟨rfl, rfl⟩
    | cons t ts ih => exact fun st => ih (st.apply (.deleteTable t.1))
  rw [applyAll_append]
  exact hfold _

/-- What the merge of a picked run writes fits the format. -/
theorem fits_mergeOut (h : Standing env w db held) (hfits : CompactionFits env db w) {a b : Nat}
    {front stale back : List (Nat × List Record)} {last : Nat × List Record}
    (hpick : pickHeld env held.tables db.opts.compactionThreshold = some (a, b))
    (hat : RunAt held front stale last back) (ha : a = front.length)
    (hb : b = front.length + (stale.length + 1)) :
    TableFits env (db.mergeOut front stale last) := by
  have hopened := h.layout.opened
  rw [hat.tables] at hopened
  obtain ⟨FR, B, hsst, hFRlen, hFR, _⟩ := hopened.split
  obtain ⟨F, R, hFRsplit, hFlen, _, hR⟩ := hFR.split
  have hRlen : R.length = stale.length + 1 := by
    rw [hR.length_eq, List.length_append, List.length_singleton]
  have hrun : (db.sstables.take b).drop a = R := by
    have hbl : (F ++ R).length = b := by
      rw [List.length_append]
      omega
    rw [hsst, hFRsplit, ← hbl, List.take_left, ha, ← hFlen, List.drop_left]
  have hpicked : ((pickCompaction db.sstables db.opts.compactionThreshold :
      M DbInner (Option (Nat × Nat))) db w).1 = .ok (some (a, b)) := by
    rw [pickCompaction_quiet _ h.layout.opened, hpick]
  have hfitrun : TablesFit env (stale ++ [last]) := by
    refine ⟨fun t ht => h.layout.fit.fits t ?_, fun t ht => h.layout.fit.sorted t ?_⟩ <;>
      · rw [hat.tables]
        exact List.mem_append_left _ (List.mem_append_right _ ht)
  have hread := collect_iterAll (s := db) h.quiet (hR.read h.layout.sound) hfitrun
  have := hfits a b hpicked ((stale ++ [last]).map Prod.snd) (by rw [hrun, hread])
  have hzero : decide (a = 0) = decide (front = []) := by
    rw [ha, decide_eq_decide]
    exact List.length_eq_zero_iff
  rw [hzero] at this
  exact this

/-- One compaction step: nothing to do, or a run merged and fewer tables left. -/
theorem compactStep (h : Standing env w db held) (hfits : CompactionFits env db w) :
    ∃ r db' held' w', DbInner.compactStep env db w = (.ok r, db', w') ∧
      ManyMoves (db, held) (db', held') ∧ Standing env w' db' held' ∧ w'.locks = w.locks ∧
      (r = true → 2 ≤ db.opts.compactionThreshold →
        db'.sstables.length < db.sstables.length) := by
  cases hpick : pickHeld env held.tables db.opts.compactionThreshold with
  | none =>
      exact ⟨false, db, held, w, compactStep_ok h.healthy (compactStepImpl_none h.layout hpick),
        .refl, h, rfl, by simp⟩
  | some ab =>
      obtain ⟨a, b⟩ := ab
      obtain ⟨front, stale, last, back, htables, ha, hb, hlen⟩ := pickHeld_split hpick
      have hat : RunAt held front stale last back := ⟨htables, h.layout.ids⟩
      obtain ⟨g, j, hman⟩ := h.layout.manifest
      obtain ⟨w', sstables, hrun, hlay, -, hgrew⟩ :=
        compactStepImpl_quiet h.quiet h.layout hpick hat ha hb
          (h.fits_mergeOut hfits hpick hat ha hb) hman
      refine ⟨true, _, _, w', compactStep_ok h.healthy hrun, .single (.compacted sstables hat),
        ⟨hgrew.quiet, hlay, h.healthy, h.frozen, h.seq, ?_, ?_⟩, hgrew.locks, fun _ htwo => ?_⟩
      · exact (applyAll_deleteEdits held.edits stale).1.trans h.nextId
      · intro t ht
        have hlast := h.above last (by rw [htables]; simp)
        rcases List.mem_append.mp ht with ht | ht
        · rcases List.mem_append.mp ht with ht | ht
          · exact h.above t (by rw [htables]; simp [ht])
          · rw [List.mem_singleton.mp ht]
            exact hlast
        · exact h.above t (by rw [htables]; simp [ht])
      · have h1 := hlay.opened.length_eq
        have h2 := h.layout.opened.length_eq
        rw [htables] at h2
        simp only [Held.compacted, List.length_append, List.length_singleton] at h1 h2
        show sstables.length < _
        omega

/-- The compaction loop comes to its end. -/
theorem compactLoop (h : Standing env w db held) {fuel : Nat} (hfits : LoopFits env fuel db w) :
    ∃ r db' held' w', DbInner.compactLoop env fuel db w = (.ok r, db', w') ∧
      ManyMoves (db, held) (db', held') ∧ Standing env w' db' held' ∧ w'.locks = w.locks ∧
      (2 ≤ db.opts.compactionThreshold → db.sstables.length < fuel → r = true) := by
  induction fuel generalizing db held w with
  | zero => exact ⟨false, db, held, w, rfl, .refl, h, rfl, by omega⟩
  | succ fuel ih =>
      obtain ⟨r, db₁, held₁, w₁, hrun₁, hmoves₁, hst₁, hlocks₁, hfewer⟩ :=
        h.compactStep hfits.1
      cases r with
      | false =>
          refine ⟨true, db₁, held₁, w₁, ?_, hmoves₁, hst₁, hlocks₁, fun _ _ => rfl⟩
          unfold DbInner.compactLoop
          rw [M.bind_ok hrun₁]
          rfl
      | true =>
          obtain ⟨r, db₂, held₂, w₂, hrun₂, hmoves₂, hst₂, hlocks₂, hend⟩ :=
            ih hst₁ (hfits.2 db₁ w₁ hrun₁)
          refine ⟨r, db₂, held₂, w₂, ?_, hmoves₁.trans hmoves₂, hst₂, hlocks₂.trans hlocks₁,
            fun htwo hlt => hend (by rw [hmoves₁.same.2.1]; exact htwo)
              (by have := hfewer rfl htwo; omega)⟩
          unfold DbInner.compactLoop
          rw [M.bind_ok hrun₁]
          exact hrun₂

/-- `Db::flush`: a flush and then the compaction loop. -/
theorem flush (h : Standing env w db held) (hfits : FlushFits env db) {fuel : Nat}
    (hloop : ∀ db₁ w₁, DbInner.flushInner env db w = (.ok (), db₁, w₁) →
      LoopFits env fuel db₁ w₁) :
    ∃ r db' held' w', DbInner.flush env fuel db w = (.ok r, db', w') ∧
      ManyMoves (db, held) (db', held') ∧ Standing env w' db' held' ∧ w'.locks = w.locks ∧
      (2 ≤ db.opts.compactionThreshold → db.sstables.length + 1 < fuel → r = true) := by
  obtain ⟨db₁, held₁, w₁, hrun₁, hmoves₁, hst₁, hlocks₁, hlen⟩ := h.flushInner hfits
  obtain ⟨r, db₂, held₂, w₂, hrun₂, hmoves₂, hst₂, hlocks₂, hend⟩ :=
    hst₁.compactLoop (hloop db₁ w₁ hrun₁)
  refine ⟨r, db₂, held₂, w₂, ?_, hmoves₁.trans hmoves₂, hst₂, hlocks₂.trans hlocks₁,
    fun htwo hlt => hend (by rw [hmoves₁.same.2.1]; exact htwo) (by omega)⟩
  unfold DbInner.flush
  rw [M.bind_ok hrun₁]
  exact hrun₂

/-- `Db::maintain`: a flush if one is due, and otherwise a compaction step. -/
theorem maintain (h : Standing env w db held)
    (hflush : db.flushIsDue = true → FlushFits env db)
    (hcompact : db.flushIsDue = false → CompactionFits env db w) :
    ∃ r db' held' w', DbInner.maintain env db w = (.ok r, db', w') ∧
      ManyMoves (db, held) (db', held') ∧ Standing env w' db' held' ∧ w'.locks = w.locks := by
  cases hdue : db.flushIsDue with
  | true =>
      obtain ⟨db₁, held₁, w₁, hrun₁, hmoves₁, hst₁, hlocks₁, _⟩ := h.flushInner (hflush hdue)
      refine ⟨true, db₁, held₁, w₁, ?_, hmoves₁, hst₁, hlocks₁⟩
      unfold DbInner.maintain
      rw [M.bind_ok (M.self_apply _ _), hdue, if_pos rfl, M.bind_ok hrun₁]
      rfl
  | false =>
      obtain ⟨r, db₁, held₁, w₁, hrun₁, hmoves₁, hst₁, hlocks₁, _⟩ :=
        h.compactStep (hcompact hdue)
      refine ⟨r, db₁, held₁, w₁, ?_, hmoves₁, hst₁, hlocks₁⟩
      unfold DbInner.maintain
      rw [M.bind_ok (M.self_apply _ _), hdue, if_neg (by simp)]
      exact hrun₁

end Standing

end LsmKv
