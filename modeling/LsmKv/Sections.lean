import LsmKv.FsQuiet
import LsmKv.Db

/-!
# The sections of a call

Several threads may be inside the engine at once.  What one thread does while it
holds a lock is a section; between two sections others may run.  This module cuts
the methods of the engine into their sections.

**Results.**
* `writeBatch_sections`, `flushImpl_sections`, `rewriteWal_sections`,
  `compactStepImpl_sections`, `snapshot_sections`: a call that nobody interrupts is
  its sections one after another.
-/

namespace LsmKv

open Foundation

namespace DbInner

section Write

/-- Under the WAL lock: take the sequence numbers of a batch. -/
def takeNumbers (batch : WriteBatch) : M DbInner (List Record) := do
  let self ← M.self
  M.update (fun self => { self with nextSeq := (self.nextSeq + batch.length) % 2 ^ 64 })
  return numberRecords self.nextSeq batch

/-- Under the WAL lock: append the records to the log. -/
def logRecords (env : Env) (records : List Record) : M DbInner Unit :=
  onWal (Wal.appendBatch env records)

/-- Under the WAL lock and that of the active MemTable: insert the records. -/
def insertRecords (records : List Record) : M DbInner Unit :=
  M.update (fun self => { self with active := records.foldl MemTable.insert self.active })

theorem writeBatch_sections (env : Env) (batch : WriteBatch) :
    writeBatch env batch = (do
      health
      if batch = [] then return ()
      else
        let records ← takeNumbers batch
        logRecords env records
        insertRecords records) := by
  unfold writeBatch takeNumbers logRecords insertRecords
  simp only [bind_assoc, pure_bind]

end Write

section Flush

/-- Under the locks of both MemTables: swap the active one for a new one. -/
def freeze : M DbInner (Option MemTable) := do
  let self ← M.self
  if self.active.isEmpty then return none
  else
    M.update (fun s =>
      { s with
        active := MemTable.new s.opts.memtableThreshold
        frozen := some self.active })
    return some self.active

/-- Take the id of a new table. -/
def takeSstId : M DbInner Nat := do
  let self ← M.self
  M.update (fun self => { self with nextSstId := (self.nextSstId + 1) % 2 ^ 64 })
  return self.nextSstId

/-- Write the records of a new table beside. -/
def writeTable (env : Env) (dir : String) (id : Nat) (m : MemTable) : M DbInner Unit := do
  let _ ← SsTableWriter.write env (sstTmpPath dir id) m.iter

/-- Give a table its name. -/
def nameTable (dir : String) (id : Nat) : M DbInner Unit :=
  Fs.rename (sstTmpPath dir id) (sstPath dir id)

/-- Make the name durable and open the table. -/
def settleTable (dir : String) (bloomEnabled : Bool) (id : Nat) : M DbInner SsTable := do
  Fs.syncDir dir
  openSsTable dir bloomEnabled id

/-- Load the two counters. -/
def loadCounters : M DbInner (Nat × Nat) := do
  let self ← M.self
  return (self.nextSstId, self.nextSeq)

/-- Under the manifest lock: name the table and the counters. -/
def recordTable (env : Env) (id nextSstId nextSeq : Nat) : M DbInner Unit :=
  onManifest (Manifest.appendBatch env
    [.addTable id, .setNextSstId nextSstId, .setNextSeq nextSeq])

/-- Under the lock of the live set: add the table. -/
def publishTable (table : SsTable) : M DbInner Unit :=
  M.update (fun self => { self with sstables := self.sstables ++ [table] })

/-- Under the lock of the frozen slot: empty it. -/
def clearFrozen : M DbInner Unit := M.update (fun self => { self with frozen := none })

/-- The rewrite of the log up to the rename of the fresh one over the old one. -/
def replaceWal (env : Env) : M DbInner Wal := do
  let self ← M.self
  let fresh ← Wal.create (walTmpPath self.dir) self.opts.syncWal
  let (_, fresh) ← M.on fresh (M.each (Wal.append env) self.active.iter)
  let (_, fresh) ← M.on fresh Wal.syncAll
  let (_, fresh) ← M.on fresh (Wal.renameTo (walPath self.dir))
  return fresh

/-- Behind the rename the directory is synced. -/
theorem rewriteWal_sections (env : Env) :
    rewriteWal env = (do
      let self ← M.self
      let fresh ← replaceWal env
      Fs.syncDir self.dir
      M.update (fun self => { self with wal := fresh })) := by
  funext db w
  unfold rewriteWal replaceWal
  simp only [bind_assoc, pure_bind, M.bind_ok (M.self_apply _ _)]

theorem flushImpl_sections (env : Env) :
    flushImpl env = (do
      let self ← M.self
      match ← freeze with
      | none => return ()
      | some m =>
          let id ← takeSstId
          writeTable env self.dir id m
          nameTable self.dir id
          let table ← settleTable self.dir self.opts.bloomEnabled id
          let counters ← loadCounters
          recordTable env id counters.1 counters.2
          publishTable table
          rewriteWal env
          clearFrozen) := by
  funext db w
  unfold flushImpl freeze
  simp only [bind_assoc, M.bind_ok (M.self_apply _ _)]
  split_ifs
  · rfl
  · unfold takeSstId writeTable nameTable settleTable loadCounters recordTable publishTable
      clearFrozen
    simp only [bind_assoc, pure_bind]
    rfl

end Flush

section Compaction

/-- The tables a merge will read, the id of the newest of them, and whether the
oldest table is among them. -/
structure Choice where
  run : List SsTable
  maxId : Nat
  dropTombstones : Bool

/-- Under the compaction lock and that of the live set: read the list. -/
def listTables : M DbInner (List SsTable) := do
  let self ← M.self
  return self.sstables

/-- Pick a run. -/
def chooseRun (tables : List SsTable) : M DbInner (Option Choice) := do
  let self ← M.self
  match ← pickCompaction tables self.opts.compactionThreshold with
  | none => return none
  | some (start, stop) =>
      let run := (tables.take stop).drop start
      match run.head?, run.getLast?, tables.head? with
      | some first, some last, some oldest =>
          return some ⟨run, last.id, decide (first.id = oldest.id)⟩
      | _, _, _ => return none

/-- Under the lock of the snapshots: the lowest horizon. -/
def lowestHorizon : M DbInner Nat := do
  let self ← M.self
  return self.minSnapshotSeq

/-- Merge a run and write it beside. -/
def mergeRun (env : Env) (dir : String) (c : Choice) (minSeq : Nat) : M DbInner Unit := do
  let _ ← compact env (sstTmpPath dir c.maxId) (c.run.map SsTable.reader) c.dropTombstones minSeq

/-- Under the flush lock, once the merge has its name: the rest of the publish
section. -/
def finishCompaction (env : Env) (dir : String) (bloomEnabled : Bool) (run : List SsTable)
    (maxId : Nat) : M DbInner Unit := do
  let table ← settleTable dir bloomEnabled maxId
  let staleIds := (run.take (run.length - 1)).map SsTable.id
  onManifest (Manifest.appendBatch env (staleIds.map .deleteTable))
  let self ← M.self
  match self.sstables.findIdx? (fun t => t.id = maxId) with
  | none =>
      M.fail (.corrupt ("compacted run vanished from the live set: sst " ++ toString maxId))
  | some endPos =>
      if endPos + 1 < run.length then M.fail (.panic "attempt to subtract with overflow")
      else
        let startPos := endPos + 1 - run.length
        M.update (fun self =>
          { self with
            sstables :=
              self.sstables.take startPos ++ [table] ++ self.sstables.drop (endPos + 1) })
        M.each (fun id => Fs.remove (sstPath self.dir id)) staleIds
        Fs.syncDir self.dir

theorem publishCompaction_sections (env : Env) (run : List SsTable) (maxId : Nat) :
    publishCompaction env run maxId = (do
      let self ← M.self
      nameTable self.dir maxId
      finishCompaction env self.dir self.opts.bloomEnabled run maxId) := by
  refine congrArg (bind M.self) (funext fun self => ?_)
  refine congrArg (bind (Fs.rename _ _)) (funext fun _ => ?_)
  exact (bind_assoc (Fs.syncDir self.dir) _ _).symm

/-- Looking at sizes changes nothing. -/
theorem collect_size_same {σ : Type} (tables : List SsTable) (s : σ) (w : World) :
    ∃ r, M.collect (fun t : SsTable => Fs.size t.reader.path) tables s w = (r, s, w) := by
  induction tables with
  | nil => exact ⟨_, rfl⟩
  | cons t ts ih =>
      obtain ⟨r, hr⟩ := ih
      rw [M.collect_cons]
      cases hl : w.vol.lookup t.reader.path with
      | none => exact ⟨_, M.bind_error (Fs.size_none hl)⟩
      | some i =>
          rw [M.bind_ok (Fs.size_some hl)]
          cases r with
          | error e => exact ⟨_, M.bind_error hr⟩
          | ok a => exact ⟨_, M.bind_ok hr⟩

theorem pickCompaction_same {σ : Type} (tables : List SsTable) (threshold : Nat) (s : σ)
    (w : World) :
    ∃ r, (pickCompaction tables threshold : M σ (Option (Nat × Nat))) s w = (r, s, w) := by
  unfold pickCompaction
  split_ifs
  · exact ⟨_, rfl⟩
  · obtain ⟨r, hr⟩ := collect_size_same tables s w
    cases r with
    | error e => exact ⟨_, M.bind_error hr⟩
    | ok a => exact ⟨_, M.bind_ok hr⟩

/-- Picking a run changes nothing. -/
theorem chooseRun_same (tables : List SsTable) (db : DbInner) (w : World) :
    ∃ r, chooseRun tables db w = (r, db, w) := by
  obtain ⟨r, hr⟩ := pickCompaction_same tables db.opts.compactionThreshold db w
  unfold chooseRun
  rw [M.bind_ok (M.self_apply _ _)]
  rcases r with e | pick
  · exact ⟨_, M.bind_error hr⟩
  rw [M.bind_ok hr]
  rcases pick with _ | ⟨start, stop⟩
  · exact ⟨_, rfl⟩
  dsimp only
  rcases ((tables.take stop).drop start).head? with _ | first
  · exact ⟨_, rfl⟩
  rcases ((tables.take stop).drop start).getLast? with _ | last
  · exact ⟨_, rfl⟩
  rcases tables.head? with _ | oldest
  · exact ⟨_, rfl⟩
  · exact ⟨_, rfl⟩

/-- A choice is a run of neighbours among the tables it was made from. -/
theorem chooseRun_some {tables : List SsTable} {c : Choice} {db db' : DbInner} {w w' : World}
    (h : chooseRun tables db w = (.ok (some c), db', w')) :
    ∃ F S L B first oldest, tables = F ++ (S ++ [L]) ++ B ∧ c.run = S ++ [L] ∧
      c.maxId = L.id ∧ (S ++ [L]).head? = some first ∧ tables.head? = some oldest ∧
      c.dropTombstones = decide (first.id = oldest.id) := by
  obtain ⟨r, hr⟩ := pickCompaction_same tables db.opts.compactionThreshold db w
  unfold chooseRun at h
  rw [M.bind_ok (M.self_apply _ _)] at h
  rcases r with e | pick
  · rw [M.bind_error hr] at h
    cases h
  rw [M.bind_ok hr] at h
  rcases pick with _ | ⟨start, stop⟩
  · cases h
  dsimp only at h
  cases hfirst : ((tables.take stop).drop start).head? with
  | none =>
      rw [hfirst] at h
      cases h
  | some first =>
      cases hlast : ((tables.take stop).drop start).getLast? with
      | none =>
          rw [hfirst, hlast] at h
          cases h
      | some last =>
          cases holdest : tables.head? with
          | none =>
              rw [hfirst, hlast, holdest] at h
              cases h
          | some oldest =>
              rw [hfirst, hlast, holdest] at h
              cases h
              obtain ⟨S, hS⟩ := List.getLast?_eq_some_iff.mp hlast
              refine ⟨(tables.take stop).take start, S, last, tables.drop stop, first, oldest,
                ?_, hS, rfl, ?_, rfl, rfl⟩
              · rw [← hS, List.take_append_drop, List.take_append_drop]
              · rw [← hS]
                exact hfirst

theorem compactStepImpl_sections (env : Env) :
    compactStepImpl env = (do
      let self ← M.self
      let tables ← listTables
      match ← chooseRun tables with
      | none => return false
      | some c =>
          let minSeq ← lowestHorizon
          mergeRun env self.dir c minSeq
          publishCompaction env c.run c.maxId
          return true) := by
  funext db w
  obtain ⟨r, hr⟩ := pickCompaction_same db.sstables db.opts.compactionThreshold db w
  unfold compactStepImpl listTables chooseRun
  simp only [bind_assoc, pure_bind, M.bind_ok (M.self_apply _ _)]
  cases r with
  | error e => rw [M.bind_error hr, M.bind_error hr]
  | ok pick =>
      rw [M.bind_ok hr, M.bind_ok hr]
      cases pick with
      | none => rfl
      | some ab =>
          dsimp only
          generalize (db.sstables.take ab.2).drop ab.1 = run
          rcases run.head? with _ | first
          · rfl
          rcases run.getLast? with _ | last
          · rfl
          rcases db.sstables.head? with _ | oldest
          · rfl
          · simp only [bind_assoc, pure_bind, lowestHorizon, mergeRun]
            rfl

end Compaction

section Snapshot

/-- Load the horizon of a snapshot. -/
def loadHorizon : M DbInner Nat := do
  let self ← M.self
  return self.nextSeq

/-- Under the lock of the snapshots: register a horizon. -/
def registerHorizon (horizon : Nat) : M DbInner Unit :=
  M.update (fun self =>
    { self with
      snapshots := self.snapshots.insert horizon ((self.snapshots.find? horizon).getD 0 + 1) })

theorem snapshot_sections :
    snapshot = (do
      let horizon ← loadHorizon
      registerHorizon horizon
      return horizon) := rfl

end Snapshot

end DbInner

end LsmKv
