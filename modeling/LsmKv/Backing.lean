import LsmKv.Catalogue

/-!
# The files behind a system

`Stored` is what holds of the files of a directory while threads are inside its
handle: the tables and the manifest are as `Catalogue` has them, and the log holds
whole batches.  Every section of every thread, run where `Stored` holds and fed
with data that fit the formats, returns Ok and leaves `Stored` behind.  `Files` says
beside it that no failure is latched.

**Results.**
* `Stored.besides`: a step that leaves the log alone keeps what `Stored` says of it.
* `Stored.afterLog`, `Stored.afterWrite`, `Stored.afterPlace`, `Stored.afterRecord`,
  `Stored.afterPublish`, `Stored.afterRelog`, `Stored.afterMerge`, `Stored.afterName`,
  `Stored.afterFinish`, …: one lemma for each section.
-/

namespace LsmKv

open Foundation Volume

/-- What holds of the files while threads are inside the handle. -/
structure Stored (env : Env) (s : System) (held : Held) : Prop extends Catalogue env s held where
  kind : held.kind = newestLog
  log : ∃ i n, LogOpen env s.db.dir s.db.opts.syncWal s.w.vol s.db.wal newestLog held.log i n
  batches : ∀ b ∈ held.log, BatchFits b
  numbered : ∀ records, s.writer = .numbered records → records ≠ []
  ahead : ∀ b ∈ s.writer.ahead, BatchFits b
  memory : ∀ r ∈ s.db.active.iter, BatchFits [r]

/-- What holds of them while no failure is latched. -/
structure Files (env : Env) (s : System) (held : Held) : Prop extends Stored env s held where
  healthy : s.db.failed = none

section Records

variable {records : List Record} {r : Record}

theorem BatchFits.single (h : BatchFits records) (hr : r ∈ records) : BatchFits [r] := by
  have hlen := encodedLen_le_of_mem hr
  have hp := h.payload
  rw [length_batchPayload_counted] at hp
  refine ⟨fun x hx => ?_, ?_⟩
  · rw [List.mem_singleton.mp hx]
    exact h.seqs r hr
  · rw [length_batchPayload_counted, List.flatMap_singleton, Record.length_encode]
    omega

theorem mem_iter_foldl_insert {m : MemTable} (h : r ∈ (records.foldl MemTable.insert m).iter) :
    r ∈ records ∨ r ∈ m.iter := by
  induction records generalizing m with
  | nil => exact Or.inr h
  | cons a l ih =>
      rcases ih h with hl | hm
      · exact Or.inl (List.mem_cons_of_mem _ hl)
      · rcases MemTable.mem_iter_insert.mp hm with rfl | ⟨hm, _⟩
        · exact Or.inl List.mem_cons_self
        · exact Or.inr hm

theorem replayInto_fst (records : List Record) (m : MemTable) (n : Nat) :
    (replayInto records m n).1 = records.foldl MemTable.insert m := by
  induction records generalizing m n with
  | nil => rfl
  | cons a l ih => exact ih (m.insert a) _

end Records

namespace Files

/-- The log has `records` behind what it had, or some initial part of their frame. -/
def Logging (env : Env) (dir : String) (log : List (List Record)) (records : List Record)
    (v₀ v : Volume Path) : Prop :=
  ∃ i n, v₀.Bound (walPath dir) i (logBytes env newestLog log) n ∧
    Appending v₀ (walPath dir) i (logBytes env newestLog log) n
      (frame ((walChecksum newestLog).hash env) (batchPayload newestLog.counted records)) v

/-- All of the log is durable. -/
def LogSynced (dir : String) (v : Volume Path) : Prop :=
  ∀ x, v.file (walPath dir) = some x → x.synced = x.bytes.length

end Files

namespace Stored

variable {env : Env} {s s' : System} {held held' : Held} {m : MemTable} {id : Nat}
variable {table : SsTable}

/-- A step that leaves the log alone. -/
theorem besides (h : Stored env s held) (hcat : Catalogue env s' held')
    {ps : List Path} (hsame : SameExcept ps s.w.vol s'.w.vol) (hwal : walPath s.db.dir ∉ ps)
    (hdir : s'.db.dir = s.db.dir) (hopts : s'.db.opts = s.db.opts) (hhandle : s'.db.wal = s.db.wal)
    (hactive : s'.db.active.iter ⊆ s.db.active.iter)
    (hwriter : s'.writer = s.writer) (hkind : held'.kind = held.kind)
    (hlog : held'.log = held.log) : Stored env s' held' := by
  obtain ⟨i, n, hopen⟩ := h.log
  refine ⟨hcat, hkind.trans h.kind, ⟨i, n, ?_⟩, by rw [hlog]; exact h.batches,
    by rw [hwriter]; exact h.numbered, by rw [hwriter]; exact h.ahead,
    fun r hr => h.memory r (hactive hr)⟩
  rw [hdir, hopts, hhandle, hlog]
  exact hopen.same hsame hwal

/-- What the stage of the flush says. -/
theorem stage (h : Stored env s held) {f : Flusher} (hf : s.flusher = f) :
    f.Backed env s.db.dir s.db.opts.bloomEnabled s.w.vol held.tables s.db.nextSstId
        (applyAll held.edits) ∧
      (applyAll held.edits).liveTables.keys = held.tables.map Prod.fst ++ f.recordedId ∧
      s.db.frozen = f.slot :=
  h.toCatalogue.stage hf

section Write

theorem afterNumber (h : Stored env s held) {batch : WriteBatch} (hne : batch ≠ [])
    (hseq : s.db.nextSeq + batch.length ≤ u64Max) :
    Stored env
      { s with
        db := { s.db with nextSeq := s.db.nextSeq + batch.length }
        writer := .numbered (DbInner.numberRecords s.db.nextSeq batch) } held where
  __ := h
  seq := hseq
  numbered := by
    intro records heq
    cases heq
    exact numberRecords_ne_nil s.db.nextSeq hne
  ahead := by simp [Writer.ahead]

theorem afterLog (h : Stored env s held) {records : List Record} (hne : records ≠ [])
    (hfits : BatchFits records) :
    ∃ w', DbInner.logRecords env records s.db s.w = (.ok (), s.db, w') ∧
      Stored env { s with w := w', writer := .logged records }
        { held with log := held.log ++ [records] } ∧
      (s.db.opts.syncWal = .durable → Files.LogSynced s.db.dir w'.vol) ∧
      SameExcept [walPath s.db.dir] s.w.vol w'.vol ∧
      s.w.Grew w' (Files.Logging env s.db.dir held.log records s.w.vol) := by
  obtain ⟨i, n, hlog⟩ := h.log
  obtain ⟨w', n', hrun, hb, hdur, hsame, hgrew⟩ := Wal.appendBatch_bound env s.db.opts.syncWal
    h.quiet h.sound (by simp) hlog.bound hne (takes_newestLog records)
  have hbytes : logBytes env newestLog held.log ++
      (Wal.handle i (walPath s.db.dir) s.db.opts.syncWal newestLog).frameOf env records =
        logBytes env newestLog (held.log ++ [records]) := by
    rw [logBytes_append, logPayloads, List.map_singleton, frames_cons, frames_nil,
      List.append_nil]
    rfl
  rw [hbytes] at hb hdur
  have hwal : DbInner.logRecords env records s.db s.w = (.ok (), s.db, w') := by
    rw [← hlog.handle] at hrun
    exact M.zoom_eq DbInner.wal (fun self wal => { self with wal := wal }) (s := s.db) hrun
  refine ⟨w', hwal, ?_, ?_, hsame, hgrew.mono fun v hv => ⟨i, n, hlog.bound, hv⟩⟩
  · have hname : LogHandle s.db.dir w'.vol s.db.wal := by
      show w'.vol.lookup (walPath s.db.dir) = some s.db.wal.file.file
      rw [hlog.handle]
      exact hb.name
    have hcat := h.toCatalogue.afterLogged hgrew.quiet hsame hname (.logged records)
    refine ⟨{ hcat with }, h.kind, ⟨i, n', hlog.handle, hb⟩, ?_, by simp,
      by simpa [Writer.ahead] using hfits, h.memory⟩
    intro b hmem
    rcases List.mem_append.mp hmem with hmem | hmem
    · exact h.batches b hmem
    · rw [List.mem_singleton.mp hmem]
      exact hfits
  · intro hsync x hx
    rw [hb.file] at hx
    cases hx
    exact hdur hsync

theorem afterInsert (h : Stored env s held) {records : List Record}
    (hstage : s.writer = .logged records) :
    Stored env
      { s with
        db := { s.db with active := records.foldl MemTable.insert s.db.active }
        writer := .free
        written := s.written ++ [records] } held where
  __ := h
  numbered := by simp
  ahead := by simp [Writer.ahead]
  memory := by
    intro r hr
    have hfits := h.ahead records (by simp [hstage, Writer.ahead])
    rcases mem_iter_foldl_insert hr with hr | hr
    · exact hfits.single hr
    · exact h.memory r hr

end Write

section Flush

theorem afterFreeze (h : Stored env s held) (hfree : s.flushLockFree) :
    Stored env
      { s with
        db :=
          { s.db with
            active := MemTable.new s.db.opts.memtableThreshold
            frozen := some s.db.active }
        flusher := .frozen s.db.active
        frozenFrom := s.frozenAt
        frozenAt := s.written.length } held := by
  refine h.besides (h.toCatalogue.afterFreeze hfree) (.refl [] _) (by simp) rfl rfl rfl ?_ rfl
    rfl rfl
  simp

theorem afterWrite (h : Stored env s held) (hstage : s.flusher = .frozen m)
    (hid : s.db.nextSstId + 1 < 2 ^ 64) (hfits : TableFits env m.iter) :
    ∃ w', (do
        let id ← DbInner.takeSstId
        DbInner.writeTable env s.db.dir id m
        return id) s.db s.w =
          (.ok s.db.nextSstId, { s.db with nextSstId := s.db.nextSstId + 1 }, w') ∧
      Stored env
        { s with
          db := { s.db with nextSstId := s.db.nextSstId + 1 }
          w := w'
          flusher := .written m s.db.nextSstId } held ∧
      SameExcept [sstTmpPath s.db.dir s.db.nextSstId] s.w.vol w'.vol ∧
      s.w.Grew w' (SameExcept [sstTmpPath s.db.dir s.db.nextSstId] s.w.vol) := by
  obtain ⟨w', hrun, hcat, hsame, hgrew⟩ := h.toCatalogue.afterWrite hstage hid hfits
  exact ⟨w', hrun, h.besides hcat hsame (by simp) rfl rfl rfl (List.Subset.refl _) rfl rfl rfl,
    hsame, hgrew⟩

theorem afterPlace (h : Stored env s held) (hstage : s.flusher = .written m id) :
    ∃ w' table, (do
        DbInner.nameTable s.db.dir id
        DbInner.settleTable s.db.dir s.db.opts.bloomEnabled id) s.db s.w =
          (.ok table, s.db, w') ∧
      Stored env { s with w := w', flusher := .placed m id table } held ∧
      (∀ p : Path, p.dir = s.db.dir → w'.vol.Covered p) ∧
      SameExcept [sstTmpPath s.db.dir id, sstPath s.db.dir id] s.w.vol w'.vol ∧
      s.w.Grew w' (SameExcept [sstTmpPath s.db.dir id, sstPath s.db.dir id] s.w.vol) := by
  obtain ⟨w', table, hrun, hcat, hcov, hsame, hgrew⟩ := h.toCatalogue.afterPlace hstage
  exact ⟨w', table, hrun,
    h.besides hcat hsame (by simp) rfl rfl rfl (List.Subset.refl _) rfl rfl rfl, hcov, hsame,
    hgrew⟩

theorem afterCount (h : Stored env s held) (hstage : s.flusher = .placed m id table) :
    Stored env { s with flusher := .counted m id table s.db.nextSstId s.db.nextSeq } held :=
  h.besides (h.toCatalogue.afterCount hstage) (.refl [] _) (by simp) rfl rfl rfl
    (List.Subset.refl _) rfl rfl rfl

theorem afterRecord (h : Stored env s held) {a b : Nat}
    (hstage : s.flusher = .counted m id table a b) :
    ∃ w', DbInner.recordTable env id a b s.db s.w = (.ok (), s.db, w') ∧
      Stored env { s with w := w', flusher := .recorded m id table }
        { held with edits := held.edits ++ flushEdits id a b } ∧
      ∃ g j, ManifestOpen env s.db.dir s.w.vol s.db.manifest held.edits g j ∧
        SameExcept [manifestPath s.db.dir g] s.w.vol w'.vol ∧
        s.w.Grew w' (Appending s.w.vol (manifestPath s.db.dir g) j (manifestBytes env held.edits)
          (manifestBytes env held.edits).length (editFrames env (flushEdits id a b))) := by
  obtain ⟨w', hrun, hcat, g, j, hman, hsame, hgrew⟩ := h.toCatalogue.afterRecord hstage
  exact ⟨w', hrun, h.besides hcat hsame (by simp) rfl rfl rfl (List.Subset.refl _) rfl rfl rfl,
    g, j, hman, hsame, hgrew⟩

theorem afterPublish (h : Stored env s held) (hstage : s.flusher = .recorded m id table) :
    Stored env
      { s with
        db := { s.db with sstables := s.db.sstables ++ [table] }
        flusher := .published m
        publishedAt := s.frozenAt }
      { held with tables := held.tables ++ [(id, m.iter)] } :=
  h.besides (h.toCatalogue.afterPublish hstage) (.refl [] _) (by simp) rfl rfl rfl
    (List.Subset.refl _) rfl rfl rfl

theorem afterRelog (h : Stored env s held) (hstage : s.flusher = .published m) :
    ∃ w' wal i, DbInner.rewriteWal env s.db s.w = (.ok (), { s.db with wal := wal }, w') ∧
      Stored env
        { s with
          db := { s.db with wal := wal }
          w := w'
          flusher := .relogged m
          loggedFrom := s.frozenAt }
        { held with log := s.db.active.iter.map (fun r => [r]) } ∧
      Files.LogSynced s.db.dir w'.vol ∧
      (∀ p : Path, p.dir = s.db.dir → w'.vol.Covered p) ∧
      SameExcept [walTmpPath s.db.dir, walPath s.db.dir] s.w.vol w'.vol ∧
      s.w.Grew w'
        (Rewriting env s.db.dir i (s.db.active.iter.map (fun r => [r])) s.w.vol) := by
  obtain ⟨w', i, hrun, hcat, hb, hcov, hsame, hgrew⟩ := h.toCatalogue.afterRelog hstage
  refine ⟨w', _, i, hrun, ⟨{ hcat with }, h.kind, ⟨i, _, rfl, hb⟩, ?_, h.numbered, h.ahead,
    h.memory⟩, ?_, hcov, hsame, hgrew⟩
  · intro b hmem
    obtain ⟨r, hr, rfl⟩ := List.mem_map.mp hmem
    exact h.memory r hr
  · intro x hx
    rw [hb.file] at hx
    cases hx
    rfl

theorem afterClear (h : Stored env s held) (hstage : s.flusher = .relogged m) :
    Stored env { s with db := { s.db with frozen := none }, flusher := .free } held :=
  h.besides (h.toCatalogue.afterClear hstage) (.refl [] _) (by simp) rfl rfl rfl
    (List.Subset.refl _) rfl rfl rfl

end Flush

section Compaction

variable {c : DbInner.Choice} {minSeq : Nat}

/-- A compaction that has not named its merge, and does not now. -/
theorem afterPick (h : Stored env s held) (hold : s.compactor.replaced = none) {k : Compactor}
    (hpub : k.publishing = false)
    (hback : k.Backed env s.db.dir s.w.vol s.db.sstables held.tables) :
    Stored env { s with compactor := k } held :=
  h.besides (h.toCatalogue.afterPick hold hpub hback) (.refl [] _) (by simp) rfl rfl rfl
    (List.Subset.refl _) rfl rfl rfl

theorem afterMerge (h : Stored env s held) (hstage : s.compactor = .bounded c minSeq)
    (hfits : ∀ inputs,
      (M.collect (fun r : SsTableReader => r.iterAll env) (c.run.map SsTable.reader) s.db s.w).1 =
        .ok inputs →
      TableFits env (compactRecords inputs c.dropTombstones minSeq)) :
    ∃ w', DbInner.mergeRun env s.db.dir c minSeq s.db s.w = (.ok (), s.db, w') ∧
      Stored env { s with w := w', compactor := .merged c minSeq } held ∧
      SameExcept [sstTmpPath s.db.dir c.maxId] s.w.vol w'.vol ∧
      s.w.Grew w' (SameExcept [sstTmpPath s.db.dir c.maxId] s.w.vol) := by
  obtain ⟨w', hrun, hcat, hsame, hgrew⟩ := h.toCatalogue.afterMerge hstage hfits
  exact ⟨w', hrun, h.besides hcat hsame (by simp) rfl rfl rfl (List.Subset.refl _) rfl rfl rfl,
    hsame, hgrew⟩

theorem afterName (h : Stored env s held) (hstage : s.compactor = .merged c minSeq)
    (hfree : s.flusher = .free) :
    ∃ w', DbInner.nameTable s.db.dir c.maxId s.db s.w = (.ok (), s.db, w') ∧
      Stored env { s with w := w', compactor := .named c minSeq } held ∧
      SameExcept [sstTmpPath s.db.dir c.maxId, sstPath s.db.dir c.maxId] s.w.vol w'.vol ∧
      s.w.Grew w' (fun v => v = w'.vol) := by
  obtain ⟨w', hrun, hcat, hsame, hgrew⟩ := h.toCatalogue.afterName hstage hfree
  exact ⟨w', hrun, h.besides hcat hsame (by simp) rfl rfl rfl (List.Subset.refl _) rfl rfl rfl,
    hsame, hgrew⟩

theorem afterFinish (h : Stored env s held) (hstage : s.compactor = .named c minSeq) :
    ∃ w' sstables front stale last back,
      DbInner.finishCompaction env s.db.dir s.db.opts.bloomEnabled c.run c.maxId s.db s.w =
        (.ok (), { s.db with sstables := sstables }, w') ∧
      Picked s.db.sstables held.tables c front stale last back ∧
      (∃ F B table, s.db.sstables = F ++ c.run ++ B ∧ sstables = F ++ [table] ++ B ∧
        table.id = c.maxId) ∧
      Stored env
        { s with
          db := { s.db with sstables := sstables }
          w := w'
          compactor := .free
          droppedAt := if c.dropTombstones then s.publishedAt else s.droppedAt }
        (held.compacted front stale last back (c.out minSeq stale last)) ∧
      (∀ p : Path, p.dir = s.db.dir → w'.vol.Covered p) ∧
      ∃ g j, ManifestOpen env s.db.dir s.w.vol s.db.manifest held.edits g j ∧
        SameExcept (manifestPath s.db.dir g :: stale.map (fun t => sstPath s.db.dir t.1))
          s.w.vol w'.vol ∧
        s.w.Grew w' (Finishing env s.db.dir g j held.edits stale s.w.vol) := by
  obtain ⟨w', sstables, front, stale, last, back, hrun, hpicked, _, hspliced, hcat, hcov, g, j,
    hman, hsame, hgrew⟩ := h.toCatalogue.afterFinish hstage
  exact ⟨w', sstables, front, stale, last, back, hrun, hpicked, hspliced,
    h.besides hcat hsame (by simp) rfl rfl rfl (List.Subset.refl _) rfl rfl rfl, hcov, g, j,
    hman, hsame, hgrew⟩

end Compaction

section Open

variable {dir : String} {opts : Options} {db : DbInner} {w : World}

/-- An open leaves the files behind it in order. -/
theorem opened {st : ManifestState} {tables : List (Nat × List Record)}
    {log : List (List Record)} {edits : List VersionEdit} (hidle : s.Idle) (hq : w.Quiet)
    (hs : w.vol.Sound)
    (hopen : Opened env dir opts w.vol db st tables log.flatten (logBytes env newestLog log))
    (hman : ∃ g i, ManifestOpen env dir w.vol db.manifest edits g i) (hne : edits ≠ [])
    (hst : applyAll edits = st) (hkeys : st.liveTables.keys = tables.map Prod.fst)
    (hids : (tables.map Prod.fst).Pairwise (· < ·)) (hfit : TablesFit env tables)
    (hbatches : ∀ b ∈ log, BatchFits b) (habove : ∀ t ∈ tables, t.1 < st.nextSstId) :
    Stored env { s with db := db, w := w } ⟨tables, edits, newestLog, log⟩ := by
  have hmem := Prod.ext_iff.mp hopen.memory
  refine ⟨Catalogue.opened hidle hq hs hopen hman hne hst hkeys hids hfit habove newestLog log,
    rfl, ?_, hbatches, by simp [hidle.writer], by simp [hidle.writer, Writer.ahead], ?_⟩
  · have hlog := hopen.logOpen
    rw [← hopen.inDir, ← hopen.withOpts] at hlog
    exact hlog
  · intro r hr
    rw [show db.active = _ from hmem.1, replayInto_fst] at hr
    rcases mem_iter_foldl_insert hr with hr | hr
    · obtain ⟨b, hb, hr⟩ := List.mem_flatten.mp hr
      exact (hbatches b hb).single hr
    · simp at hr

/-- What the files hold when nobody is inside. -/
theorem image (h : Stored env s held) (hflusher : s.flusher = .free)
    (hcompactor : s.compactor = .free) :
    Image env s.db.dir s.w.vol (applyAll held.edits) held.tables held.log.flatten ∧
      walBytes s.w.vol s.db.dir = some (logBytes env newestLog held.log) := by
  obtain ⟨_, hlive, _⟩ := h.stage hflusher
  obtain ⟨g, i, hman⟩ := h.manifest
  obtain ⟨c, hc⟩ := hman.live.named.current
  obtain ⟨k, n, hlog⟩ := h.log
  have hwal : walBytes s.w.vol s.db.dir = some (logBytes env newestLog held.log) := by
    unfold walBytes
    rw [hlog.bound.file]
    rfl
  refine ⟨⟨h.sound, ⟨g, c, _, i, _, _, hman.generation, hc, hman.live.holds,
    replayManifest_manifestBytes hman.fits⟩, hlive.trans (List.append_nil _), h.fit, ?_, ?_⟩, hwal⟩
  · exact fun t ht => h.files t ht (by simp [hcompactor, Compactor.replaced])
  · rw [hwal]
    exact replayBytes_logBytes newestLog_ne (classify_newestLog _ _) h.batches
      (fun b _ => takes_newestLog b)

theorem afterReopen (h : Stored env s held) (hidle : s.Idle) (opts : Options) :
    ∃ w₁ db' w', DbInner.close s.db s.w = (.ok (), s.db, w₁) ∧
      (assemble env s.db.dir opts : M Unit DbInner) () w₁ = (.ok db', (), w') ∧
      Opened env s.db.dir opts w'.vol db' (applyAll held.edits) held.tables held.log.flatten
        (logBytes env newestLog held.log) ∧
      Stored env { s with db := db', w := w' }
        { held with edits := (applyAll held.edits).snapshotEdits } := by
  obtain ⟨himg, hwal⟩ := h.image hidle.flusher hidle.compactor
  set w₁ : World := { s.w with locks := s.w.locks.filter (fun q => q ≠ lockPath s.db.dir) }
    with hw₁
  have hq₁ : w₁.Quiet := ⟨h.quiet.accepts, h.quiet.reads⟩
  obtain ⟨w', db', hrun, hs', hopen, hman, hgrew⟩ := assemble_quiet (s := ()) (w := w₁)
    opts hq₁ (by simp [hw₁]) himg
  rw [show walBytes w₁.vol s.db.dir = _ from hwal, walOpened_logBytes] at hopen
  obtain ⟨⟨hst, habove⟩, _⟩ := h.stage hidle.flusher
  have hfiles := opened hidle hgrew.quiet hs' hopen hman (by simp [ManifestState.snapshotEdits])
    (applyAll_snapshotEdits _) himg.ids h.ids h.fit h.batches (by rw [hst]; exact habove)
  rw [← h.kind] at hfiles
  exact ⟨w₁, db', w', rfl, hrun, hopen, hfiles⟩

end Open

end Stored

namespace Files

variable {env : Env} {s : System} {held : Held} {dir : String} {opts : Options} {db : DbInner}
variable {w : World}

theorem catalogue (h : Files env s held) : Catalogue env s held := h.toCatalogue

/-- An open leaves the files behind it in order. -/
theorem opened {st : ManifestState} {tables : List (Nat × List Record)}
    {log : List (List Record)} {edits : List VersionEdit} (hidle : s.Idle) (hq : w.Quiet)
    (hs : w.vol.Sound)
    (hopen : Opened env dir opts w.vol db st tables log.flatten (logBytes env newestLog log))
    (hman : ∃ g i, ManifestOpen env dir w.vol db.manifest edits g i) (hne : edits ≠ [])
    (hst : applyAll edits = st) (hkeys : st.liveTables.keys = tables.map Prod.fst)
    (hids : (tables.map Prod.fst).Pairwise (· < ·)) (hfit : TablesFit env tables)
    (hbatches : ∀ b ∈ log, BatchFits b) (habove : ∀ t ∈ tables, t.1 < st.nextSstId) :
    Files env { s with db := db, w := w } ⟨tables, edits, newestLog, log⟩ :=
  ⟨Stored.opened hidle hq hs hopen hman hne hst hkeys hids hfit hbatches habove, hopen.healthy⟩

/-- The first open of a fresh directory. -/
theorem fresh (env : Env) (opts : Options) (hq : w.Quiet) (hfree : lockPath dir ∉ w.locks)
    (hfresh : FreshDir dir w.vol) :
    ∃ db w', (assemble env dir opts : M Unit DbInner) () w = (.ok db, (), w') ∧
      Opened env dir opts w'.vol db (applyAll (migrationEdits [])) [] []
        (logBytes env newestLog []) ∧
      Files env (System.opened db w') ⟨[], migrationEdits [], newestLog, []⟩ := by
  obtain ⟨w', db, i, hrun, hopen, hman, hs, hgrew⟩ := assemble_migrating (s := ())
    opts hq hfree (hfresh.phase2 env)
  have hwal : walOpened (walBytes w.vol dir) = logBytes env newestLog [] := by
    unfold walBytes
    rw [file_eq_none_iff.mpr (hfresh.empty _ rfl), logBytes_nil]
    rfl
  rw [hwal] at hopen
  have hopen' : Opened env dir opts w'.vol db (applyAll (migrationEdits [])) []
      ([] : List (List Record)).flatten (logBytes env newestLog []) := hopen
  exact ⟨db, w', hrun, hopen, opened (s := System.opened db w') ⟨rfl, rfl, rfl⟩ hgrew.quiet hs
    hopen' ⟨0, i, hman⟩ (by simp [migrationEdits]) rfl rfl (by simp) ⟨by simp, by simp⟩ (by simp)
    (by simp)⟩

end Files

end LsmKv
