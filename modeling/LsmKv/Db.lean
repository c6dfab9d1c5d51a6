import LsmKv.Compaction
import LsmKv.Manifest
import LsmKv.MemTable
import LsmKv.Scan
import LsmKv.Wal

/-!
# The storage engine

The WAL, the MemTables and the stack of SSTables behind one handle, with one
thread calling.  A lock-protected section of the source is a part of the body
here; the orders in which several threads may interleave them are the subject
of the modules on concurrency.
-/

namespace LsmKv

open Foundation

/-- `db::Options`. -/
structure Options where
  memtableThreshold : Nat
  syncWal : SyncMode
  compactionThreshold : Nat
  bloomEnabled : Bool
  deriving DecidableEq, Repr

/-- `Options::default`. -/
def Options.default : Options := ⟨4 * 1024 * 1024, .durable, 4, true⟩

/-- The operations of a `WriteBatch`. -/
abbrev WriteBatch := List (Bytes × Option Bytes)

/-- `db::SsTable`. -/
structure SsTable where
  id : Nat
  reader : SsTableReader
  deriving DecidableEq, Repr

/-- `db::DbInner`. -/
structure DbInner where
  dir : String
  opts : Options
  wal : Wal
  active : MemTable
  frozen : Option MemTable
  sstables : List SsTable
  nextSstId : Nat
  nextSeq : Nat
  manifest : Manifest
  snapshots : SortedMap Nat Nat
  failed : Option Error

/-- `sst_path`. -/
abbrev sstPath (dir : String) (id : Nat) : Path := ⟨dir, .sst id⟩

/-- The scratch path of a table. -/
abbrev sstTmpPath (dir : String) (id : Nat) : Path := ⟨dir, .sstTmp id⟩

/-- The path of the log. -/
abbrev walPath (dir : String) : Path := ⟨dir, .wal⟩

/-- The scratch path of the log. -/
abbrev walTmpPath (dir : String) : Path := ⟨dir, .walTmp⟩

/-- `lock_path`. -/
abbrev lockPath (dir : String) : Path := ⟨dir, .lock⟩

section Open

variable {σ : Type}

/-- `DirLock::acquire`. -/
def acquireDirLock (dir : String) : M σ Unit := do
  let existed ← Fs.fileExists (lockPath dir)
  match ← M.attempt (Fs.openFile (lockPath dir) .lock) with
  | .error (.io .wouldBlock) => M.fail (.locked dir)
  | .error e => M.fail e
  | .ok _ => if existed then return () else Fs.syncDir dir

/-- `Db::migrate_dir`. -/
def migrateDir (env : Env) (dir : String) : M σ (Manifest × ManifestState) := do
  let paths ← Fs.list dir
  let sstIds := (paths.filterMap (fun p => p.name.parseSstId)).insertionSort (· ≤ ·)
  let nextSstId := match sstIds.getLast? with
    | some id => (id + 1) % 2 ^ 64
    | none => 0
  let manifest ← Manifest.create dir
  let edits := .setNextSstId nextSstId :: sstIds.map .addTable
  let (_, manifest) ← M.on manifest (Manifest.appendBatch env edits)
  let liveTables := sstIds.foldl (fun s id => s.insert id ()) SortedMap.empty
  return (manifest, ⟨liveTables, 0, nextSstId⟩)

/-- One turn of the reclamation loop of `Db::assemble`. -/
def reclaim (dir : String) (state : ManifestState) (path : Path) : M σ Unit :=
  if path = lockPath dir then return ()
  else
    match path.name.parseSstId with
    | some id =>
        if (state.liveTables.find? id).isNone then Fs.remove path else return ()
    | none => if path.name.isScratch then Fs.remove path else return ()

/-- The MemTable and the next sequence number after replaying `records`. -/
def replayInto (records : List Record) (m : MemTable) (nextSeq : Nat) : MemTable × Nat :=
  records.foldl (fun acc r => (acc.1.insert r, max acc.2 ((r.seq + 1) % 2 ^ 64))) (m, nextSeq)

/-- Open one live table. -/
def openSsTable (dir : String) (bloomEnabled : Bool) (id : Nat) : M σ SsTable := do
  let reader ← SsTableReader.openTable (sstPath dir id) bloomEnabled
  return ⟨id, reader⟩

/-- `Db::assemble` once the manifest is open: reclamation, tables and log. -/
def recoverFrom (env : Env) (dir : String) (opts : Options) (manifest : Manifest)
    (state : ManifestState) : M σ DbInner := do
  let paths ← Fs.list dir
  M.each (reclaim dir state) paths
  let sstables ← M.collect (openSsTable dir opts.bloomEnabled) state.liveTables.keys
  let replayed ← Wal.replay env (walPath dir)
  let (memtable, nextSeq) :=
    replayInto replayed (MemTable.new opts.memtableThreshold) state.nextSeq
  let wal ← Wal.openAppend (walPath dir) opts.syncWal
  return {
    dir := dir
    opts := opts
    wal := wal
    active := memtable
    frozen := none
    sstables := sstables
    nextSstId := state.nextSstId
    nextSeq := nextSeq
    manifest := manifest
    snapshots := SortedMap.empty
    failed := none }

/-- `Db::assemble` after the lock is taken. -/
def recover (env : Env) (dir : String) (opts : Options) : M σ DbInner := do
  let present ← Manifest.isPresent dir
  let (manifest, state) ←
    if present then Manifest.openManifest env dir else migrateDir env dir
  recoverFrom env dir opts manifest state

/-- `Db::assemble`; the lock is given back if the rest fails. -/
def assemble (env : Env) (dir : String) (opts : Options) : M σ DbInner := do
  acquireDirLock dir
  match ← M.attempt (recover env dir opts) with
  | .ok db => return db
  | .error e =>
      Fs.releaseLock (lockPath dir)
      M.fail e

end Open

/-- Bit width of a file size: the tier of a table. -/
def tier (len : Nat) : Nat := if len = 0 then 0 else Nat.log2 len + 1

/-- The inner loop of `pick_compaction`: where the tier of `i` ends. -/
def tierEnd (tiers : List Nat) (i : Nat) : Nat → Nat → Nat
  | 0, j => j
  | fuel + 1, j =>
      if j < tiers.length ∧ tiers[j]? = tiers[i]? then tierEnd tiers i fuel (j + 1) else j

/-- The outer loop of `pick_compaction`. -/
def pickLoop (tiers : List Nat) (threshold : Nat) : Nat → Nat → Option (Nat × Nat)
  | 0, _ => none
  | fuel + 1, i =>
      if i < tiers.length then
        let j := tierEnd tiers i (tiers.length - i) i
        if j - i ≥ threshold then some (i, j) else pickLoop tiers threshold fuel j
      else none

/-- `pick_compaction` on the sizes of the tables. -/
def pickRun (sizes : List Nat) (threshold : Nat) : Option (Nat × Nat) :=
  if sizes.length < threshold then none
  else pickLoop (sizes.map tier) threshold (sizes.length + 1) 0

/-- `pick_compaction`. -/
def pickCompaction {σ : Type} (tables : List SsTable) (threshold : Nat) :
    M σ (Option (Nat × Nat)) :=
  if tables.length < threshold then return none
  else do
    let sizes ← M.collect (fun t : SsTable => Fs.size t.reader.path) tables
    return pickRun sizes threshold

namespace DbInner

/-- A method of the log. -/
def onWal {α : Type} (m : M Wal α) : M DbInner α :=
  M.zoom DbInner.wal (fun self wal => { self with wal := wal }) m

/-- A method of the manifest. -/
def onManifest {α : Type} (m : M Manifest α) : M DbInner α :=
  M.zoom DbInner.manifest (fun self manifest => { self with manifest := manifest }) m

/-- `DbInner::health`. -/
def health : M DbInner Unit := do
  let self ← M.self
  match self.failed with
  | some e => M.fail (.poisoned e.text)
  | none => return ()

/-- `DbInner::fail`: latch the first failure. -/
def latch {α : Type} (e : Error) : M DbInner α := do
  M.update (fun self => { self with failed := some (self.failed.getD e) })
  let self ← M.self
  M.fail (.poisoned ((self.failed.map Error.text).getD "unknown"))

/-- Run a step and latch its failure. -/
def latching {α : Type} (m : M DbInner α) : M DbInner α := do
  match ← M.attempt m with
  | .ok a => return a
  | .error e => latch e

/-- The record of a mutation. -/
def recordOf (key : Bytes) (value : Option Bytes) (seq : Nat) : Record :=
  match value with
  | some v => Record.put key v seq
  | none => Record.tombstone key seq

/-- `DbInner::write`. -/
def write (env : Env) (key : Bytes) (value : Option Bytes) : M DbInner Unit := do
  health
  let self ← M.self
  let seq := self.nextSeq
  M.update (fun self => { self with nextSeq := (self.nextSeq + 1) % 2 ^ 64 })
  let record := recordOf key value seq
  onWal (Wal.append env record)
  M.update (fun self => { self with active := self.active.insert record })

/-- The records of a batch, numbered from `firstSeq`. -/
def numberRecords : Nat → WriteBatch → List Record
  | _, [] => []
  | seq, (key, value) :: ops => recordOf key value seq :: numberRecords (seq + 1) ops

/-- `DbInner::write_batch`. -/
def writeBatch (env : Env) (batch : WriteBatch) : M DbInner Unit := do
  health
  if batch = [] then return ()
  else
    let self ← M.self
    let firstSeq := self.nextSeq
    M.update (fun self => { self with nextSeq := (self.nextSeq + batch.length) % 2 ^ 64 })
    let records := numberRecords firstSeq batch
    onWal (Wal.appendBatch env records)
    M.update (fun self => { self with active := records.foldl MemTable.insert self.active })

/-- The tables from newest to oldest, until one answers. -/
def searchTables (env : Env) (key : Bytes) (seqBound : Nat) :
    List SsTable → M DbInner (Option Bytes)
  | [] => return none
  | t :: rest => do
      match ← t.reader.getAt env key seqBound with
      | some r => return r.value
      | none => searchTables env key seqBound rest

/-- `DbInner::get_at`. -/
def getAt (env : Env) (key : Bytes) (seqBound : Nat) : M DbInner (Option Bytes) := do
  health
  let self ← M.self
  match self.active.getAt key seqBound with
  | some r => return r.value
  | none =>
      match self.frozen.bind (fun f => f.getAt key seqBound) with
      | some r => return r.value
      | none => searchTables env key seqBound self.sstables.reverse

/-- `Db::get`. -/
def get (env : Env) (key : Bytes) : M DbInner (Option Bytes) := getAt env key u64Max

/-- `DbInner::scan_at`. -/
def scanAt (env : Env) (start stop : Option Bytes) (limit seqBound : Nat) :
    M DbInner (List (Bytes × Bytes)) := do
  health
  if limit = 0 then return []
  else
    let self ← M.self
    let fromMemtable := fun (m : MemTable) => (m.range start stop).map Except.ok
    let mems := fromMemtable self.active ::
      (match self.frozen with
        | some f => [fromMemtable f]
        | none => [])
    let tables ← M.collect (fun t : SsTable => t.reader.scan env start) self.sstables
    let m := Merge.new (mems ++ tables) seqBound stop
    M.ofExcept (Merge.collect limit (m.remaining + 1) m)

/-- `Db::scan`. -/
def scan (env : Env) (start stop : Option Bytes) (limit : Nat) :
    M DbInner (List (Bytes × Bytes)) := scanAt env start stop limit u64Max

/-- `DbInner::min_snapshot_seq`. -/
def minSnapshotSeq (self : DbInner) : Nat := self.snapshots.keys.head?.getD u64Max

/-- `Db::snapshot`: the horizon it pins. -/
def snapshot : M DbInner Nat := do
  let self ← M.self
  let horizon := self.nextSeq
  M.update (fun self =>
    { self with
      snapshots := self.snapshots.insert horizon ((self.snapshots.find? horizon).getD 0 + 1) })
  return horizon

/-- `Snapshot::drop`. -/
def dropSnapshot (horizon : Nat) : M DbInner Unit :=
  M.update (fun self =>
    match self.snapshots.find? horizon with
    | none => self
    | some count =>
        if count - 1 = 0 then { self with snapshots := self.snapshots.erase horizon }
        else { self with snapshots := self.snapshots.insert horizon (count - 1) })

/-- `DbInner::flush_is_due`. -/
def flushIsDue (self : DbInner) : Bool :=
  if self.frozen.isSome then true
  else !self.active.isEmpty && self.active.isFull

/-- The last section of `flush_impl`: a fresh log for what was written since
the freeze, built beside the live one and renamed over it. -/
def rewriteWal (env : Env) : M DbInner Unit := do
  let self ← M.self
  let fresh ← Wal.create (walTmpPath self.dir) self.opts.syncWal
  let (_, fresh) ← M.on fresh (M.each (Wal.append env) self.active.iter)
  let (_, fresh) ← M.on fresh Wal.syncAll
  let (_, fresh) ← M.on fresh (Wal.renameTo (walPath self.dir))
  Fs.syncDir self.dir
  M.update (fun self => { self with wal := fresh })

/-- `DbInner::flush_impl`. -/
def flushImpl (env : Env) : M DbInner Unit := do
  let self ← M.self
  if self.active.isEmpty then return ()
  else
    let frozen := self.active
    M.update (fun self =>
      { self with
        active := MemTable.new self.opts.memtableThreshold
        frozen := some frozen })
    let id := self.nextSstId
    M.update (fun self => { self with nextSstId := (self.nextSstId + 1) % 2 ^ 64 })
    let _ ← SsTableWriter.write env (sstTmpPath self.dir id) frozen.iter
    Fs.rename (sstTmpPath self.dir id) (sstPath self.dir id)
    Fs.syncDir self.dir
    let table ← openSsTable self.dir self.opts.bloomEnabled id
    let self ← M.self
    onManifest (Manifest.appendBatch env
      [.addTable id, .setNextSstId self.nextSstId, .setNextSeq self.nextSeq])
    M.update (fun self => { self with sstables := self.sstables ++ [table] })
    rewriteWal env
    M.update (fun self => { self with frozen := none })

/-- `DbInner::flush_inner`; also `Db::flush_only`. -/
def flushInner (env : Env) : M DbInner Unit := do
  health
  latching (flushImpl env)

/-- The publish section of `compact_step_impl`. -/
def publishCompaction (env : Env) (run : List SsTable) (maxId : Nat) : M DbInner Unit := do
  let self ← M.self
  Fs.rename (sstTmpPath self.dir maxId) (sstPath self.dir maxId)
  Fs.syncDir self.dir
  let table ← openSsTable self.dir self.opts.bloomEnabled maxId
  let staleIds := (run.take (run.length - 1)).map SsTable.id
  onManifest (Manifest.appendBatch env (staleIds.map .deleteTable))
  let self ← M.self
  match self.sstables.findIdx? (fun t => t.id = maxId) with
  | none =>
      M.fail (.corrupt ("compacted run vanished from the live set: sst " ++ toString maxId))
  | some endPos =>
      if endPos + 1 < run.length then M.fail (.panic "attempt to subtract with overflow")
      else
        let startPos := endPos + 1 - run.length
        M.update (fun self =>
          { self with
            sstables :=
              self.sstables.take startPos ++ [table] ++ self.sstables.drop (endPos + 1) })
        M.each (fun id => Fs.remove (sstPath self.dir id)) staleIds
        Fs.syncDir self.dir

/-- `DbInner::compact_step_impl`: whether a run was merged. -/
def compactStepImpl (env : Env) : M DbInner Bool := do
  let self ← M.self
  let tables := self.sstables
  match ← pickCompaction tables self.opts.compactionThreshold with
  | none => return false
  | some (start, stop) =>
      let run := (tables.take stop).drop start
      match run.head?, run.getLast?, tables.head? with
      | some first, some last, some oldest =>
          let dropTombstones := decide (first.id = oldest.id)
          let _ ← compact env (sstTmpPath self.dir last.id) (run.map SsTable.reader)
            dropTombstones self.minSnapshotSeq
          publishCompaction env run last.id
          return true
      | _, _, _ => return false

/-- `DbInner::compact_step`. -/
def compactStep (env : Env) : M DbInner Bool := do
  health
  latching (compactStepImpl env)

/-- `while compact_step()? {}`, at most `fuel` turns: whether it came to its end. -/
def compactLoop (env : Env) : Nat → M DbInner Bool
  | 0 => return false
  | fuel + 1 => do
      if ← compactStep env then compactLoop env fuel else return true

/-- `Db::flush`, with a bound on its compaction loop. -/
def flush (env : Env) (fuel : Nat) : M DbInner Bool := do
  flushInner env
  compactLoop env fuel

/-- `Db::maintain`. -/
def maintain (env : Env) : M DbInner Bool := do
  let self ← M.self
  if self.flushIsDue then
    flushInner env
    return true
  else compactStep env

/-- Dropping the handle and its last snapshot gives the lock back. -/
def close : M DbInner Unit := do
  let self ← M.self
  Fs.releaseLock (lockPath self.dir)

end DbInner

end LsmKv
