import LsmKv.Env
import LsmKv.Fs
import LsmKv.Foundation.Frames
import LsmKv.Foundation.SortedMap
import Mathlib.Data.Nat.Digits.Defs

/-!
# The manifest

An append-only log of version edits, replayed on open and rolled over into a
fresh generation.  `CURRENT` names the live generation and is switched by a
rename.

Frame layout: `[crc:4][payload_len:4][payload]` with
`payload = [edit_tag:1][body:8]`.
-/

namespace LsmKv

open Foundation

/-- `VersionEdit`. -/
inductive VersionEdit
  | addTable (id : Nat)
  | deleteTable (id : Nat)
  | setNextSeq (seq : Nat)
  | setNextSstId (id : Nat)
  deriving DecidableEq, Repr

/-- `PAYLOAD_LEN`: tag and body. -/
def editPayloadLen : Nat := 9

namespace VersionEdit

/-- Tag byte of an edit. -/
def tag : VersionEdit → UInt8
  | .addTable _ => 0
  | .deleteTable _ => 1
  | .setNextSeq _ => 2
  | .setNextSstId _ => 3

/-- The number an edit carries. -/
def body : VersionEdit → Nat
  | .addTable id => id
  | .deleteTable id => id
  | .setNextSeq seq => seq
  | .setNextSstId id => id

/-- `VersionEdit::encode`. -/
def encode (e : VersionEdit) : Bytes := e.tag :: le 8 e.body

/-- `VersionEdit::decode`. -/
def decode (payload : Bytes) : Except Error VersionEdit :=
  if payload.length ≠ editPayloadLen then
    .error (.corrupt "bad manifest payload length")
  else
    let body := ofLe ((payload.drop 1).take 8)
    match ofLe (payload.take 1) with
    | 0 => .ok (.addTable body)
    | 1 => .ok (.deleteTable body)
    | 2 => .ok (.setNextSeq body)
    | 3 => .ok (.setNextSstId body)
    | other => .error (.corrupt ("bad manifest edit tag " ++ toString other))

end VersionEdit

/-- `BTreeSet<u64>`. -/
abbrev IdSet := SortedMap Nat Unit

/-- `ManifestState`. -/
structure ManifestState where
  liveTables : IdSet
  nextSeq : Nat
  nextSstId : Nat
  deriving DecidableEq

namespace ManifestState

/-- `ManifestState::default`. -/
def default : ManifestState := ⟨SortedMap.empty, 0, 0⟩

/-- `ManifestState::apply`. -/
def apply (st : ManifestState) : VersionEdit → ManifestState
  | .addTable id => { st with liveTables := st.liveTables.insert id () }
  | .deleteTable id => { st with liveTables := st.liveTables.erase id }
  | .setNextSeq seq => { st with nextSeq := seq }
  | .setNextSstId id => { st with nextSstId := id }

/-- `ManifestState::snapshot_edits`. -/
def snapshotEdits (st : ManifestState) : List VersionEdit :=
  .setNextSeq st.nextSeq :: .setNextSstId st.nextSstId ::
    st.liveTables.keys.map .addTable

end ManifestState

/-- `manifest_path`. -/
abbrev manifestPath (dir : String) (generation : Nat) : Path := ⟨dir, .manifest generation⟩

/-- The path of `CURRENT`. -/
abbrev currentPath (dir : String) : Path := ⟨dir, .current⟩

/-- The scratch path of `CURRENT`. -/
abbrev currentTmpPath (dir : String) : Path := ⟨dir, .currentTmp⟩

/-- The text `MANIFEST-`. -/
def manifestStem : Bytes := [77, 65, 78, 73, 70, 69, 83, 84, 45]

/-- Decimal digits of `n`, padded with zeros to at least `width`. -/
def decimalBytes (width n : Nat) : Bytes :=
  let digits := (Nat.digits 10 n).reverse
  (List.replicate (width - digits.length) 0 ++ digits).map (fun d => UInt8.ofNat (48 + d))

/-- What `write_current` writes: the name of the manifest and a line end. -/
def currentBytes (generation : Nat) : Bytes :=
  manifestStem ++ decimalBytes 6 generation ++ [10]

/-- The characters that are white space, in UTF-8. -/
def spaces : List Bytes :=
  [[9], [10], [11], [12], [13], [32], [0xC2, 0x85], [0xC2, 0xA0], [0xE1, 0x9A, 0x80],
    [0xE2, 0x80, 0x80], [0xE2, 0x80, 0x81], [0xE2, 0x80, 0x82], [0xE2, 0x80, 0x83],
    [0xE2, 0x80, 0x84], [0xE2, 0x80, 0x85], [0xE2, 0x80, 0x86], [0xE2, 0x80, 0x87],
    [0xE2, 0x80, 0x88], [0xE2, 0x80, 0x89], [0xE2, 0x80, 0x8A], [0xE2, 0x80, 0xA8],
    [0xE2, 0x80, 0xA9], [0xE2, 0x80, 0xAF], [0xE2, 0x81, 0x9F], [0xE3, 0x80, 0x80]]

/-- Drop the given words from the front for as long as there is one. -/
def dropWords (words : List Bytes) : Nat → Bytes → Bytes
  | 0, b => b
  | fuel + 1, b =>
      match words.find? (fun word => word.isPrefixOf b) with
      | some word => dropWords words fuel (b.drop word.length)
      | none => b

/-- `str::trim` on the bytes of a text.  A first byte of a character is never read as part of
the one before, also where `from_utf8_lossy` finds no character, so white space at either end
shows in the bytes. -/
def trimBytes (b : Bytes) : Bytes :=
  let front := dropWords spaces b.length b
  (dropWords (spaces.map List.reverse) front.length front.reverse).reverse

/-- The number written by decimal digits. -/
def decimalValue (b : Bytes) : Nat :=
  b.foldl (fun acc d => 10 * acc + (d.toNat - 48)) 0

/-- `str::parse::<u64>`. -/
def parseU64 (b : Bytes) : Option Nat :=
  let digits := if b.head? = some 43 then b.tail else b
  if digits = [] then none
  else if digits.all (fun d => 48 ≤ d && d ≤ 57) then
    if decimalValue digits ≤ u64Max then some (decimalValue digits) else none
  else none

/-- The generation named by the contents of `CURRENT`. -/
def parseCurrent (bytes : Bytes) : Except Error Nat :=
  let name := trimBytes bytes
  let generation :=
    if name.take 9 = manifestStem then parseU64 (name.drop 9) else none
  match generation with
  | some g => .ok g
  | none =>
      .error (.corrupt ("bad CURRENT contents: \"" ++
        String.ofList (name.map (fun b => Char.ofNat b.toNat)) ++ "\""))

/-- State of the replay loop: the edits applied so far and their number. -/
def applyFrame (st : ManifestState × Nat) (payload : Bytes) :
    Except Error (ManifestState × Nat) := do
  let edit ← VersionEdit.decode payload
  return (st.1.apply edit, st.2 + 1)

/-- `manifest::replay` on the bytes of the file at `path`. -/
def replayManifestBytes (env : Env) (path : Path) (bytes : Bytes) :
    Except Error ManifestState := do
  let kind ← classify bytes manifestMagic manifestVersion "the manifest"
  if kind = .empty then return ManifestState.default
  else
    let hash := (manifestChecksum kind).hash env
    let firstFrame := framesStart kind
    let (state, frames) ←
      replayFrames hash applyFrame (bytes.length + 1) (bytes.drop firstFrame)
        (ManifestState.default, 0)
    if frames = 0 ∧ bytes.length > firstFrame then
      throw (.corrupt (path.display ++ " holds " ++
        toString (bytes.length - firstFrame) ++
        " bytes and not one readable frame; refusing to treat it as empty, " ++
        "because doing so would reclaim every SSTable in the directory"))
    else return state

/-- `manifest::Manifest`. -/
structure Manifest where
  dir : String
  generation : Nat
  file : BufAppend
  checksum : Checksum
  deriving DecidableEq, Repr

namespace Manifest

variable {σ : Type}

/-- A method of the buffered file. -/
def onFile {α : Type} (m : M BufAppend α) : M Manifest α :=
  M.zoom Manifest.file (fun self file => { self with file := file }) m

/-- `Manifest::exists`. -/
def isPresent (dir : String) : M σ Bool := Fs.fileExists (currentPath dir)

/-- `read_current`. -/
def readCurrent (dir : String) : M σ Nat := do
  let file ← Fs.openFile (currentPath dir) .read
  let bytes ← File.readAll file
  M.ofExcept (parseCurrent bytes)

/-- `write_current`. -/
def writeCurrent (dir : String) (generation : Nat) : M σ Unit := do
  let tmp := currentTmpPath dir
  let f ← Fs.openFile tmp .truncate
  File.append f (currentBytes generation)
  File.syncAs f .durable
  Fs.rename tmp (currentPath dir)
  Fs.syncDir dir

/-- `classify_manifest`. -/
def classifyManifest (dir : String) (generation : Nat) : M σ Kind := do
  let front ←
    match ← M.attempt (Fs.openFile (manifestPath dir generation) .read) with
    | .ok f => File.readAt f 0 headerLen
    | .error (.io .notFound) => pure []
    | .error e => M.fail e
  M.ofExcept (classify front manifestMagic manifestVersion "the manifest")

/-- `manifest::replay`. -/
def replay (env : Env) (path : Path) : M σ ManifestState := do
  match ← M.attempt (Fs.openFile path .read) with
  | .ok file =>
      let bytes ← File.readAll file
      M.ofExcept (replayManifestBytes env path bytes)
  | .error (.io .notFound) => return ManifestState.default
  | .error e => M.fail e

/-- One frame of `append_batch`, through the buffer. -/
def appendEdit (env : Env) (edit : VersionEdit) : M Manifest Unit := do
  let self ← M.self
  let payload := edit.encode
  let crc := self.checksum.hash env payload
  onFile (BufAppend.write (le 4 crc.toNat))
  onFile (BufAppend.write (le 4 payload.length))
  onFile (BufAppend.write payload)

/-- `Manifest::append_batch`. -/
def appendBatch (env : Env) (edits : List VersionEdit) : M Manifest Unit := do
  M.each (appendEdit env) edits
  onFile BufAppend.sync

/-- `Manifest::create`. -/
def create (dir : String) : M σ Manifest := do
  let file ← Fs.openFile (manifestPath dir 0) .truncate
  let manifest : Manifest :=
    { dir := dir
      generation := 0
      file := BufAppend.new file
      checksum := manifestChecksum (.versioned manifestVersion) }
  let (_, manifest) ←
    M.on manifest (onFile (BufAppend.write (encodeHeader manifestMagic manifestVersion)))
  let (_, manifest) ← M.on manifest (onFile BufAppend.sync)
  writeCurrent dir 0
  return manifest

/-- `Manifest::rollover`; a failure to remove the old generation is ignored. -/
def rollover (env : Env) (state : ManifestState) : M Manifest Unit := do
  let self ← M.self
  let newGen := (self.generation + 1) % 2 ^ 64
  let file ← Fs.openFile (manifestPath self.dir newGen) .truncate
  let writer : Manifest :=
    { dir := self.dir
      generation := newGen
      file := BufAppend.new file
      checksum := manifestChecksum (.versioned manifestVersion) }
  let (_, writer) ←
    M.on writer (onFile (BufAppend.write (encodeHeader manifestMagic manifestVersion)))
  let (_, writer) ← M.on writer (appendBatch env state.snapshotEdits)
  writeCurrent self.dir newGen
  M.update (fun self =>
    { self with generation := newGen, file := writer.file, checksum := writer.checksum })
  let _ ← M.attempt (Fs.remove (manifestPath self.dir self.generation))
  return ()

/-- `Manifest::open`. -/
def openManifest (env : Env) (dir : String) : M σ (Manifest × ManifestState) := do
  let generation ← readCurrent dir
  let state ← replay env (manifestPath dir generation)
  let file ← Fs.openFile (manifestPath dir generation) .append
  let kind ← classifyManifest dir generation
  let manifest : Manifest :=
    { dir := dir
      generation := generation
      file := BufAppend.new file
      checksum := manifestChecksum kind }
  let (_, manifest) ← M.on manifest (rollover env state)
  return (manifest, state)

end Manifest

end LsmKv
