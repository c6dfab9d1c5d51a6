import LsmKv.Env
import LsmKv.Fs
import LsmKv.Record
import LsmKv.Foundation.Frames

/-!
# The write-ahead log

File layout: an eight-byte header, then frames `[crc:4][payload_len:4][payload]`.
From version 2 on a payload is `[count:4]` and that many records, so that a
batch is one frame; before that it is a single record.
-/

namespace LsmKv

open Foundation

/-- `wal::Wal`. -/
structure Wal where
  file : BufAppend
  path : Path
  sync : SyncMode
  checksum : Checksum
  counted : Bool
  deriving DecidableEq, Repr

/-- Whether frames of a file of this kind carry a batch count. -/
def Kind.counted : Kind → Bool
  | .legacy => false
  | .versioned 1 => false
  | _ => true

/-- `count` records, one after another. -/
def decodeRecords : Nat → Bytes → Nat → Except Error (List Record × Nat)
  | 0, _, pos => .ok ([], pos)
  | count + 1, payload, pos => do
      let (r, pos) ← Record.decodeAt payload pos
      let (rs, pos) ← decodeRecords count payload pos
      return (r :: rs, pos)

/-- The records of one verified payload; all of them or an error. -/
def decodeBatch (counted : Bool) (payload : Bytes) : Except Error (List Record) := do
  let (count, rpos) ←
    if counted then
      if payload.length < 4 then
        throw (.corrupt "WAL frame too short for a batch count")
      else pure (ofLe (payload.take 4), 4)
    else pure (1, 0)
  let (batch, rpos) ← decodeRecords count payload rpos
  if rpos ≠ payload.length then throw (.corrupt "trailing bytes in WAL frame")
  else return batch

/-- `Wal::replay` on the bytes of the file. -/
def replayBytes (env : Env) (bytes : Bytes) : Except Error (List Record) := do
  let kind ← classify bytes walMagic walVersion "the write-ahead log"
  if kind = .empty then return []
  else
    let hash := (walChecksum kind).hash env
    replayFrames hash
      (fun records payload => do
        let batch ← decodeBatch kind.counted payload
        return records ++ batch)
      (bytes.length + 1) (bytes.drop (framesStart kind)) []

/-- The payload `append_batch` builds. -/
def batchPayload (counted : Bool) (records : List Record) : Bytes :=
  (if counted then le 4 records.length else []) ++ records.flatMap Record.encode

namespace Wal

variable {σ : Type}

/-- A method of the buffered file. -/
def onFile {α : Type} (m : M BufAppend α) : M Wal α :=
  M.zoom Wal.file (fun self file => { self with file := file }) m

/-- `Wal::create`. -/
def create (path : Path) (sync : SyncMode) : M σ Wal := do
  let file ← Fs.openFile path .truncate
  let wal : Wal :=
    { file := BufAppend.new file
      path := path
      sync := sync
      checksum := walChecksum (.versioned walVersion)
      counted := true }
  let (_, wal) ← M.on wal (onFile (BufAppend.write (encodeHeader walMagic walVersion)))
  let (_, wal) ← M.on wal (onFile BufAppend.flush)
  return wal

/-- The first part of `Wal::open_append`: the open file, its size and the format it is taken
to have. -/
def openFront (path : Path) : M σ (Nat × Nat × Kind) := do
  let file ← Fs.openFile path .append
  let existing ← File.size file
  let front ← if existing = 0 then pure [] else File.readAt file 0 headerLen
  let kind ← M.ofExcept (classify front walMagic walVersion "the write-ahead log")
  return (file, existing, kind)

/-- `Wal::open_append`. -/
def openAppend (path : Path) (sync : SyncMode) : M σ Wal := do
  let (file, existing, kind) ← openFront path
  let effective := if kind = .empty then .versioned walVersion else kind
  let wal : Wal :=
    { file := BufAppend.new file
      path := path
      sync := sync
      checksum := walChecksum effective
      counted := effective.counted }
  if existing = 0 then
    let (_, wal) ← M.on wal (onFile (BufAppend.write (encodeHeader walMagic walVersion)))
    let (_, wal) ← M.on wal (onFile BufAppend.flush)
    return wal
  else return wal

/-- `Wal::append_batch`. -/
def appendBatch (env : Env) (records : List Record) : M Wal Unit := do
  let self ← M.self
  if records = [] then return ()
  else if self.counted = false ∧ records.length > 1 then
    M.fail (.badFormat (self.path.display ++
      " is a version 1 write-ahead log and cannot hold a batch of " ++
      toString records.length ++
      " records; it is replaced by a version 2 file at the next flush"))
  else
    let payload := batchPayload self.counted records
    let crc := self.checksum.hash env payload
    onFile (BufAppend.write (le 4 crc.toNat))
    onFile (BufAppend.write (le 4 payload.length))
    onFile (BufAppend.write payload)
    onFile BufAppend.flush
    File.syncAs self.file.file self.sync

/-- `Wal::append`. -/
def append (env : Env) (record : Record) : M Wal Unit := appendBatch env [record]

/-- `Wal::sync`. -/
def syncAll : M Wal Unit := do
  onFile BufAppend.flush
  let self ← M.self
  File.syncAs self.file.file .durable

/-- `Wal::rename_to`; the open handle follows the file. -/
def renameTo (dest : Path) : M Wal Unit := do
  let self ← M.self
  Fs.rename self.path dest
  M.update (fun self => { self with path := dest })

/-- `Wal::replay`. -/
def replay (env : Env) (path : Path) : M σ (List Record) := do
  match ← M.attempt (Fs.openFile path .read) with
  | .ok file =>
      let bytes ← File.readAll file
      M.ofExcept (replayBytes env bytes)
  | .error (.io .notFound) => return []
  | .error e => M.fail e

end Wal

end LsmKv
