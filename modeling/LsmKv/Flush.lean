import LsmKv.Layout
import LsmKv.Sections

/-!
# A flush when nothing fails

**Results.**
* `replaceWal_quiet`, `rewriteWal_quiet`: the fresh log replaces the old one by a rename.
* `settleTable_quiet`, `appendEdits_quiet`: the sections a flush shares with a
  compaction.
* `flushInner_quiet`: the active MemTable becomes the newest table, the manifest
  names it, and the log is empty.
-/

namespace LsmKv

open Foundation Volume

variable {env : Env} {w : World} {db : DbInner} {held : Held}

/-- The volumes of a log rewrite on the way: the old log, or the new one. -/
def Rewriting (env : Env) (dir : String) (i : Nat) (log : List (List Record))
    (v₀ v : Volume Path) : Prop :=
  SameExcept [walTmpPath dir] v₀ v ∨
    (SameExcept [walTmpPath dir, walPath dir] v₀ v ∧
      v.Bound (walPath dir) i (logBytes env newestLog log) (logBytes env newestLog log).length)

/-- The fresh log is written and synced beside the old one before it is renamed over it. -/
theorem replaceWal_quiet (env : Env) (db : DbInner) (hq : w.Quiet) (hs : w.vol.Sound) :
    ∃ w' i v, DbInner.replaceWal env db w =
        (.ok (Wal.handle i (walPath db.dir) db.opts.syncWal newestLog), db, w') ∧
      v.Bound (walTmpPath db.dir) i
        (logBytes env newestLog (db.active.iter.map (fun r => [r])))
        (logBytes env newestLog (db.active.iter.map (fun r => [r]))).length ∧
      SameExcept [walTmpPath db.dir] w.vol v ∧
      w'.vol = v.rename (walTmpPath db.dir) (walPath db.dir) ∧
      w.Grew w' (fun u => SameExcept [walTmpPath db.dir] w.vol u ∨ u = w'.vol) := by
  set tmp := walTmpPath db.dir with htmp
  have hne : ¬ Shares.may tmp := by simp [htmp]
  obtain ⟨w₁, i, hrun₁, hb₁, hsame₁, hgrew₁⟩ :=
    Wal.create_bound (s := db) env tmp db.opts.syncWal hq hs hne
  obtain ⟨w₂, n₂, hrun₂, hb₂, hsame₂, hgrew₂⟩ := Wal.appendEach_bound env
    db.opts.syncWal db.active.iter hgrew₁.quiet (hsame₁.sound hs) hne hb₁
  rw [List.nil_append] at hb₂
  have h₂ := hsame₁.trans hsame₂
  obtain ⟨w₃, hrun₃, hb₃, hsame₃, hgrew₃⟩ := Wal.syncAll_bound db.opts.syncWal
    newestLog hgrew₂.quiet (h₂.sound hs) hne hb₂
  refine ⟨w₃.touch (fun v => v.rename tmp (walPath db.dir)), i, w₃.vol, ?_, hb₃,
    h₂.trans hsame₃, rfl, ?_⟩
  · unfold DbInner.replaceWal
    rw [M.bind_ok (M.self_apply _ _), M.bind_ok hrun₁, M.bind_ok (M.on_ok hrun₂)]
    dsimp only
    rw [M.bind_ok (M.on_ok hrun₃)]
    dsimp only
    rw [M.bind_ok (M.on_ok (Wal.renameTo_apply (walPath db.dir) hb₃.name))]
    rfl
  · exact World.Grew.trans (hgrew₁.mono fun v hv => Or.inl hv)
      (World.Grew.trans (hgrew₂.mono fun v hv => Or.inl (hsame₁.trans hv))
        (World.Grew.trans (hgrew₃.mono fun v hv => Or.inl (h₂.trans hv))
          (World.Grew.touch hgrew₃.quiet (Or.inr rfl))))

/-- Behind the rename the directory is synced. -/
theorem rewriteWal_of_replaceWal {w' : World} {fresh : Wal}
    (h : DbInner.replaceWal env db w = (.ok fresh, db, w')) :
    DbInner.rewriteWal env db w =
      (.ok (), { db with wal := fresh },
        w'.touch (fun v => v.syncNames (fun p => p.dir = db.dir))) := by
  rw [DbInner.rewriteWal_sections, M.bind_ok (M.self_apply _ _), M.bind_ok h,
    M.bind_ok (Fs.syncDir_apply db.dir)]
  rfl

/-- The fresh log replaces the old one by a rename. -/
theorem rewriteWal_quiet (env : Env) (db : DbInner) (hq : w.Quiet) (hs : w.vol.Sound) :
    ∃ w' i, DbInner.rewriteWal env db w =
        (.ok (), { db with wal := Wal.handle i (walPath db.dir) db.opts.syncWal newestLog }, w') ∧
      w'.vol.Bound (walPath db.dir) i
        (logBytes env newestLog (db.active.iter.map (fun r => [r])))
        (logBytes env newestLog (db.active.iter.map (fun r => [r]))).length ∧
      SameExcept [walTmpPath db.dir, walPath db.dir] w.vol w'.vol ∧
      (∀ p : Path, p.dir = db.dir → w'.vol.Covered p) ∧
      w.Grew w' (Rewriting env db.dir i (db.active.iter.map (fun r => [r])) w.vol) := by
  obtain ⟨w₁, i, v, hrun, hb, hsame, hrename, hgrew⟩ := replaceWal_quiet env db hq hs
  have hb₁ := hb.rename (q := walPath db.dir)
  have h₁ : SameExcept [walTmpPath db.dir, walPath db.dir] w.vol w₁.vol := by
    rw [hrename]
    exact (hsame.mono (by simp)).trans (sameExcept_rename (by simp) hb.name)
  rw [← hrename] at hb₁
  have h₂ := h₁.trans (sameExcept_syncNames _ (fun p : Path => p.dir = db.dir))
  have hb₂ := hb₁.syncNames (fun p : Path => p.dir = db.dir)
  refine ⟨_, i, rewriteWal_of_replaceWal hrun, hb₂, h₂,
    fun p hp => covered_syncNames (by simpa using hp), ?_⟩
  refine World.Grew.trans (hgrew.mono ?_) (World.Grew.touch hgrew.quiet (Or.inr ⟨h₂, hb₂⟩))
  rintro u (hu | rfl)
  · exact Or.inl hu
  · exact Or.inr ⟨h₁, hb₁⟩

/-- A table is opened under its id. -/
theorem openSsTable_quiet {σ : Type} {s : σ} {dir : String} (bloomEnabled : Bool) {id i n : Nat}
    {records : List Record} (hq : w.Quiet)
    (hb : w.vol.Bound (sstPath dir id) i (tableBytes env records) n)
    (hfits : TableFits env records) :
    (openSsTable dir bloomEnabled id : M σ SsTable) s w =
      (.ok ⟨id, readerOf env (sstPath dir id) i bloomEnabled records⟩, s, w) := by
  have hopen := openTable_eq (σ := σ) (s := s) bloomEnabled hq
    ⟨hb.name, by rw [hb.inode]⟩ hfits
  unfold openSsTable
  rw [M.bind_ok hopen]
  rfl

/-- A table that has its name is settled and opened. -/
theorem settleTable_quiet (db : DbInner) {dir : String} (bloomEnabled : Bool) {id i n : Nat}
    {records : List Record} (hq : w.Quiet)
    (hb : w.vol.Bound (sstPath dir id) i (tableBytes env records) n)
    (hfits : TableFits env records) :
    DbInner.settleTable dir bloomEnabled id db w =
      (.ok ⟨id, readerOf env (sstPath dir id) i bloomEnabled records⟩, db,
        w.touch (fun v => v.syncNames (fun p => p.dir = dir))) := by
  unfold DbInner.settleTable
  rw [M.bind_ok (Fs.syncDir_apply dir)]
  exact openSsTable_quiet bloomEnabled (hq.touch _) (hb.syncNames _) hfits

/-- The manifest takes a batch of edits. -/
theorem appendEdits_quiet (db : DbInner) {edits : List VersionEdit} {g j : Nat}
    (batch : List VersionEdit)
    (hq : w.Quiet) (hs : w.vol.Sound)
    (hman : ManifestOpen env db.dir w.vol db.manifest edits g j) (hfit : ∀ e ∈ batch, e.Fits) :
    ∃ w', DbInner.onManifest (Manifest.appendBatch env batch) db w = (.ok (), db, w') ∧
      ManifestOpen env db.dir w'.vol db.manifest (edits ++ batch) g j ∧
      SameExcept [manifestPath db.dir g] w.vol w'.vol ∧
      w.Grew w' (Appending w.vol (manifestPath db.dir g) j (manifestBytes env edits)
        (manifestBytes env edits).length (editFrames env batch)) := by
  obtain ⟨w', hrun, hb, hsame, hgrew⟩ := Manifest.appendBatch_quiet env db.dir g [] batch hq hs
    (by simp) hman.live.holds
  rw [List.nil_append] at hb hgrew
  rw [← manifestBytes_append] at hb
  refine ⟨w', ?_, ⟨hman.handle, hman.generation, ⟨?_, hb⟩, ?_⟩, hsame, hgrew⟩
  · rw [show Manifest.handleWith db.dir g j [] = Manifest.handle db.dir g j from rfl,
      ← hman.handle] at hrun
    exact M.zoom_eq DbInner.manifest (fun self manifest => { self with manifest := manifest })
      (s := db) hrun
  · obtain ⟨c, hc⟩ := hman.live.named.current
    exact ⟨⟨c, hc.same hsame (by simp)⟩,
      (hsame.names _ (by simp)).trans hman.live.named.scratch⟩
  · intro e he
    rcases List.mem_append.mp he with he | he
    · exact hman.fits e he
    · exact hfit e he

/-- The edits a flush appends. -/
def flushEdits (id nextSstId nextSeq : Nat) : List VersionEdit :=
  [.addTable id, .setNextSstId nextSstId, .setNextSeq nextSeq]

/-- What a flush makes of the files. -/
def Held.flushed (held : Held) (db : DbInner) : Held where
  tables := held.tables ++ [(db.nextSstId, db.active.iter)]
  edits := held.edits ++
    flushEdits db.nextSstId ((db.nextSstId + 1) % 2 ^ 64) db.nextSeq
  kind := newestLog
  log := []

theorem keys_insert_last {m : IdSet} {id : Nat} (h : ∀ x ∈ m.keys, x < id) :
    (m.insert id ()).keys = m.keys ++ [id] := by
  have : (m.insert id ()).entries = m.entries ++ [(id, ())] :=
    insertEntry_append fun e he => h e.1 (List.mem_map.mpr ⟨e, he, rfl⟩)
  simp [SortedMap.keys, this]

/-- What a flush needs: numbers and the table stay within the format, and the
id is above those of the live tables. -/
structure FlushReady (env : Env) (db : DbInner) (held : Held) : Prop where
  table : TableFits env db.active.iter
  id : db.nextSstId + 1 < 2 ^ 64
  seq : db.nextSeq < 2 ^ 64
  above : ∀ t ∈ held.tables, t.1 < db.nextSstId

theorem flushEdits_fit (h : FlushReady env db held) :
    ∀ e ∈ flushEdits db.nextSstId ((db.nextSstId + 1) % 2 ^ 64) db.nextSeq, e.Fits := by
  have hid := h.id
  have hseq := h.seq
  intro e he
  simp only [flushEdits, List.mem_cons, List.not_mem_nil, or_false] at he
  rcases he with rfl | rfl | rfl
  · show db.nextSstId < 2 ^ 64
    omega
  · show (db.nextSstId + 1) % 2 ^ 64 < 2 ^ 64
    omega
  · exact hseq

theorem live_flushed (hl : Layout env w.vol db held) (h : FlushReady env db held) :
    (applyAll (held.flushed db).edits).liveTables.keys =
      (held.flushed db).tables.map Prod.fst := by
  have hkeys : ∀ x ∈ (applyAll held.edits).liveTables.keys, x < db.nextSstId := by
    rw [hl.live]
    intro x hx
    obtain ⟨t, ht, rfl⟩ := List.mem_map.mp hx
    exact h.above t ht
  show (applyAll (held.edits ++ _)).liveTables.keys = _
  rw [applyAll_append]
  show ((applyAll held.edits).liveTables.insert db.nextSstId ()).keys = _
  rw [keys_insert_last hkeys, hl.live]
  simp [Held.flushed]

/-- What a flush makes of the handle. -/
def DbInner.flushed (db : DbInner) (table : SsTable) (wal : Wal) : DbInner :=
  { db with
    active := MemTable.new db.opts.memtableThreshold
    frozen := none
    nextSstId := (db.nextSstId + 1) % 2 ^ 64
    sstables := db.sstables ++ [table]
    wal := wal }

/-- A new table behind the others. -/
theorem TablesFit.concat {tables : List (Nat × List Record)} (h : TablesFit env tables) {id : Nat}
    {records : List Record} (hfits : TableFits env records) (hsorted : SortedRun records) :
    TablesFit env (tables ++ [(id, records)]) := by
  refine ⟨fun t ht => ?_, fun t ht => ?_⟩
  · rcases List.mem_append.mp ht with ht | ht
    · exact h.fits t ht
    · rw [List.mem_singleton.mp ht]
      exact hfits
  · rcases List.mem_append.mp ht with ht | ht
    · exact h.sorted t ht
    · rw [List.mem_singleton.mp ht]
      exact hsorted

theorem ids_concat {tables : List (Nat × List Record)} {id : Nat} {records : List Record}
    (h : (tables.map Prod.fst).Pairwise (· < ·)) (habove : ∀ t ∈ tables, t.1 < id) :
    ((tables ++ [(id, records)]).map Prod.fst).Pairwise (· < ·) := by
  rw [List.map_append, List.pairwise_append]
  refine ⟨h, by simp, ?_⟩
  intro a ha b hb
  obtain ⟨t, ht, rfl⟩ := List.mem_map.mp ha
  simp only [List.map_cons, List.map_nil, List.mem_singleton] at hb
  rw [hb]
  exact habove t ht

/-- A flush of a MemTable that has records. -/
theorem flushImpl_quiet (hq : w.Quiet) (hl : Layout env w.vol db held)
    (hready : FlushReady env db held) (hne : db.active.isEmpty = false) :
    ∃ w' table wal, DbInner.flushImpl env db w = (.ok (), db.flushed table wal, w') ∧
      Layout env w'.vol (db.flushed table wal) (held.flushed db) ∧
      w.Grew w' (fun _ => True) := by
  set id := db.nextSstId with hid
  set tmp := sstTmpPath db.dir id with htmp
  have hne' : ¬ Shares.may tmp := by simp [htmp]
  set dest := sstPath db.dir id with hdest
  set records := db.active.iter with hrecords
  set db₁ : DbInner := { db with
    active := MemTable.new db.opts.memtableThreshold
    frozen := some db.active } with hdb₁
  set db₂ : DbInner := { db₁ with nextSstId := (id + 1) % 2 ^ 64 } with hdb₂
  obtain ⟨g, j, hman⟩ := hl.manifest
  -- the table is written beside, renamed and opened
  obtain ⟨w₁, i, hrun₁, hb₁, hsame₁, hgrew₁⟩ :=
    SsTableWriter.write_quiet (s := db₂) env tmp records hq hl.sound hne'
  set w₂ := w₁.touch (fun v => v.rename tmp dest)
  set w₃ := w₂.touch (fun v => v.syncNames (fun p => p.dir = db.dir))
  have hb₂ : w₂.vol.Bound dest i (tableBytes env records) (tableBytes env records).length :=
    hb₁.rename
  have h₃ : SameExcept [tmp, dest] w.vol w₃.vol :=
    ((hsame₁.mono (by simp)).trans (sameExcept_rename hne' hb₁.name)).trans
      (sameExcept_syncNames _ _)
  have hq₂ : w₂.Quiet := hgrew₁.quiet.touch _
  have hsettle := settleTable_quiet db₂ db.opts.bloomEnabled hq₂ hb₂ hready.table
  -- the manifest names it
  have hman₃ : ManifestOpen env db₂.dir w₃.vol db₂.manifest held.edits g j :=
    hman.same h₃ (by simp [htmp, hdest]) (by simp [htmp, hdest]) (by simp [htmp, hdest])
  obtain ⟨w₄, hrun₄, hman₄, hsame₄, hgrew₄⟩ := appendEdits_quiet db₂ _ (hq₂.touch _)
    (h₃.sound hl.sound) hman₃ (flushEdits_fit hready)
  have hsound₄ := hsame₄.sound (h₃.sound hl.sound)
  -- the log starts anew
  set table : SsTable := ⟨id, readerOf env dest i db.opts.bloomEnabled records⟩ with htable
  set db₄ : DbInner := { db₂ with sstables := db.sstables ++ [table] } with hdb₄
  obtain ⟨w₅, k, hrun₅, hb₅, hsame₅, _, hgrew₅⟩ :=
    rewriteWal_quiet env db₄ hgrew₄.quiet hsound₄
  have hempty : db₄.active.iter.map (fun r => [r]) = [] := rfl
  rw [hempty] at hb₅
  refine ⟨w₅, table, Wal.handle k (walPath db.dir) db.opts.syncWal newestLog, ?_, ?_, ?_⟩
  · have hfreeze : DbInner.freeze db w = (.ok (some db.active), db₁, w) := by
      unfold DbInner.freeze
      rw [M.bind_ok (M.self_apply _ _), hne]
      rfl
    have hid₂ : DbInner.takeSstId db₁ w = (.ok id, db₂, w) := rfl
    have hwrite : DbInner.writeTable env db.dir id db.active db₂ w = (.ok (), db₂, w₁) := by
      unfold DbInner.writeTable
      rw [M.bind_ok hrun₁]
      rfl
    have hname : DbInner.nameTable db.dir id db₂ w₁ = (.ok (), db₂, w₂) :=
      Fs.rename_some hb₁.name
    have hload : DbInner.loadCounters db₂ w₃ =
        (.ok ((id + 1) % 2 ^ 64, db.nextSeq), db₂, w₃) := rfl
    have hrecord : DbInner.recordTable env id ((id + 1) % 2 ^ 64) db.nextSeq db₂ w₃ =
        (.ok (), db₂, w₄) := hrun₄
    have hpublish : DbInner.publishTable table db₂ w₄ = (.ok (), db₄, w₄) := rfl
    rw [DbInner.flushImpl_sections, M.bind_ok (M.self_apply _ _), M.bind_ok hfreeze]
    dsimp only
    rw [M.bind_ok hid₂, M.bind_ok hwrite, M.bind_ok hname, M.bind_ok hsettle, M.bind_ok hload,
      M.bind_ok hrecord, M.bind_ok hpublish, M.bind_ok hrun₅]
    rfl
  · have hfresh : ∀ t ∈ held.tables, sstPath db.dir t.1 ∉ [tmp, dest] := by
      intro t ht
      have := hready.above t ht
      simp only [htmp, hdest, List.mem_cons, Path.mk.injEq, true_and, reduceCtorEq,
        FileName.sst.injEq, List.not_mem_nil, or_false, false_or]
      omega
    have hopen₅ : TablesOpen env db.dir db.opts.bloomEnabled w₅.vol db.sstables held.tables :=
      ((hl.opened.same h₃ hfresh).same hsame₄ (by simp [hdb₂, hdb₁])).same hsame₅
        (by simp [hdb₄, hdb₂, hdb₁])
    have hnew₅ := ((hb₂.syncNames (fun p => p.dir = db.dir)).same hsame₄
      (by simp [hdest, hdb₂, hdb₁])).same hsame₅ (by simp [hdest, hdb₄, hdb₂, hdb₁])
    exact
      { sound := hsame₅.sound hsound₄
        opened := List.rel_append hopen₅ (List.Forall₂.cons ⟨i, rfl, hnew₅⟩ List.Forall₂.nil)
        fit := hl.fit.concat hready.table (sortedRun_iter _)
        ids := ids_concat hl.ids hready.above
        manifest := ⟨g, j, hman₄.same hsame₅ (by simp [hdb₄, hdb₂, hdb₁])
          (by simp [hdb₄, hdb₂, hdb₁]) (by simp [hdb₄, hdb₂, hdb₁])⟩
        live := live_flushed hl hready
        log := ⟨k, _, rfl, hb₅⟩ }
  · exact (hgrew₁.mono fun _ _ => trivial).trans
      ((World.Grew.touch hgrew₁.quiet trivial).trans
        ((World.Grew.touch hq₂ trivial).trans
          ((hgrew₄.mono fun _ _ => trivial).trans (hgrew₅.mono fun _ _ => trivial))))

/-- A flush of an empty MemTable does nothing. -/
theorem flushImpl_empty (he : db.active.isEmpty = true) :
    DbInner.flushImpl env db w = (.ok (), db, w) := by
  unfold DbInner.flushImpl
  rw [M.bind_ok (M.self_apply _ _), he, if_pos rfl]
  rfl

theorem latching_ok {α : Type} {m : M DbInner α} {a : α} {db' : DbInner} {w' : World}
    (h : m db w = (.ok a, db', w')) : DbInner.latching m db w = (.ok a, db', w') := by
  unfold DbInner.latching
  rw [M.bind_ok (M.attempt_eq h)]
  rfl

/-- A flush that does its work does it with the handle healthy. -/
theorem flushInner_ok {db' : DbInner} {w' : World} (hfail : db.failed = none)
    (h : DbInner.flushImpl env db w = (.ok (), db', w')) :
    DbInner.flushInner env db w = (.ok (), db', w') := by
  unfold DbInner.flushInner
  rw [M.bind_ok (health_ok hfail), latching_ok h]

end LsmKv
