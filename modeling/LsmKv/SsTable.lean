import LsmKv.Bloom
import LsmKv.Fs
import LsmKv.Record

/-!
# SSTables

An immutable, sorted run of records:

```text
[data block 0] … [index] [bloom] [footer]
index entry:  [first_key_len:4][first_key][block_offset:8][comp_len:4]
footer:       [index_offset:8][index_entries:4][bloom_offset:8][bloom_len:8]
              [record_count:8][format_version:4][magic:4]
```

The writer cuts the records into blocks of about 4 KiB and never inside the
versions of one key; the reader finds the block of a key by a binary search
over the first keys.
-/

namespace LsmKv

open Foundation

/-- `MAGIC`, the text `LSM2`. -/
def tableMagic : Bytes := [76, 83, 77, 50]

/-- `FORMAT_VERSION`. -/
def tableFormatVersion : Nat := 2

/-- `FOOTER_LEN`. -/
def footerLen : Nat := 44

/-- `BLOCK_SIZE`. -/
def blockSize : Nat := 4 * 1024

/-- An entry of the block index: first key, offset and compressed length. -/
structure IndexEntry where
  firstKey : Bytes
  offset : Nat
  compLen : Nat
  deriving DecidableEq, Repr

/-- An index entry as it is written, field by field. -/
def IndexEntry.parts (e : IndexEntry) : List Bytes :=
  [le 4 e.firstKey.length, e.firstKey, le 8 e.offset, le 4 e.compLen]

/-- What `SsTableWriter::write` carries from record to record: the data blocks
handed to the file so far, where the next one goes, their index, and the block
being filled. -/
structure TableBuild where
  out : List Bytes
  offset : Nat
  index : List IndexEntry
  block : Bytes
  firstKey : Bytes
  deriving DecidableEq, Repr

namespace TableBuild

/-- The builder before the first record. -/
def start : TableBuild := ⟨[], 0, [], [], []⟩

/-- The closure `flush_block`. -/
def flushBlock (env : Env) (st : TableBuild) : TableBuild :=
  if st.block = [] then st
  else
    let comp := env.compress st.block
    { out := st.out ++ [comp]
      offset := st.offset + comp.length
      index := st.index ++ [⟨st.firstKey, st.offset, comp.length % 2 ^ 32⟩]
      block := []
      firstKey := [] }

/-- One turn of the loop over the records; `next` is the record after it. -/
def addRecord (env : Env) (st : TableBuild) (record : Record) (next : Option Record) :
    TableBuild :=
  let firstKey := if st.block = [] then record.key else st.firstKey
  let st := { st with block := st.block ++ record.encode, firstKey := firstKey }
  let nextDiffers := next.all (fun n => n.key ≠ record.key)
  if st.block.length ≥ blockSize ∧ nextDiffers then st.flushBlock env else st

/-- The loop over the records. -/
def addAll (env : Env) : List Record → TableBuild → TableBuild
  | [], st => st
  | r :: rs, st => addAll env rs (st.addRecord env r rs.head?)

end TableBuild

/-- The blocks and the index of a table. -/
def buildTable (env : Env) (records : List Record) : TableBuild :=
  (TableBuild.addAll env records TableBuild.start).flushBlock env

/-- The filter of a table. -/
def buildBloom (env : Env) (records : List Record) : BloomFilter :=
  records.foldl (fun f r => f.insert env r.key) (BloomFilter.new env records.length)

/-- The footer as it is written, field by field. -/
def footerParts (indexOffset entries bloomOffset bloomLen count : Nat) : List Bytes :=
  [le 8 indexOffset, le 4 entries, le 8 bloomOffset, le 8 bloomLen, le 8 count,
    le 4 tableFormatVersion, tableMagic]

/-- Everything `SsTableWriter::write` hands to the buffered file, in order. -/
def tableParts (env : Env) (records : List Record) : List Bytes :=
  let build := buildTable env records
  let bloom := (buildBloom env records).encode
  let indexOffset := build.offset
  let bloomOffset :=
    build.index.foldl (fun o e => o + (4 + e.firstKey.length + 8 + 4)) indexOffset
  build.out ++ build.index.flatMap IndexEntry.parts ++ [bloom] ++
    footerParts indexOffset build.index.length bloomOffset bloom.length records.length

/-- The bytes of a table file. -/
def tableBytes (env : Env) (records : List Record) : Bytes :=
  (tableParts env records).flatten

/-- `SsTableWriter::write`. -/
def SsTableWriter.write {σ : Type} (env : Env) (path : Path) (records : List Record) :
    M σ Nat := do
  let file ← Fs.openFile path .truncate
  let (_, w) ← M.on (BufAppend.new file) (M.each BufAppend.write (tableParts env records))
  let (_, _) ← M.on w BufAppend.sync
  return records.length

/-- `sstable::SsTableReader`, without its block cache. -/
structure SsTableReader where
  file : Nat
  path : Path
  index : List IndexEntry
  bloom : BloomFilter
  bloomEnabled : Bool
  recordCount : Nat
  deriving DecidableEq, Repr

/-- `sstable::read_bytes`. -/
def readIndexBytes (buf : Bytes) (pos n : Nat) : Except Error (Bytes × Nat) :=
  readBytes "sstable index truncated" buf pos n

/-- `sstable::read_u32` and `read_u64`: a field of `w` bytes. -/
def readIndexUint (w : Nat) (buf : Bytes) (pos : Nat) : Except Error (Nat × Nat) := do
  let (b, pos) ← readIndexBytes buf pos w
  return (ofLe b, pos)

/-- The loop of `SsTableReader::open` over the index entries. -/
def readIndex : Nat → Bytes → Nat → Except Error (List IndexEntry)
  | 0, _, _ => .ok []
  | entries + 1, ibuf, pos => do
      let (keyLen, pos) ← readIndexUint 4 ibuf pos
      let (key, pos) ← readIndexBytes ibuf pos keyLen
      let (blockOffset, pos) ← readIndexUint 8 ibuf pos
      let (compLen, pos) ← readIndexUint 4 ibuf pos
      let rest ← readIndex entries ibuf pos
      return ⟨key, blockOffset, compLen⟩ :: rest

/-- `slice::binary_search_by` against the first keys: `ok` with the position of
`key`, `error` with the place it would be inserted. -/
def searchLoop (index : List IndexEntry) (key : Bytes) : Nat → Nat → Nat → Nat
  | 0, base, _ => base
  | fuel + 1, base, size =>
      if size > 1 then
        let half := size / 2
        let mid := base + half
        let base :=
          if key < (index[mid]?.map IndexEntry.firstKey).getD [] then base else mid
        searchLoop index key fuel base (size - half)
      else base

/-- `slice::binary_search_by`. -/
def binarySearch (index : List IndexEntry) (key : Bytes) : Except Nat Nat :=
  if index = [] then .error 0
  else
    let base := searchLoop index key index.length 0 index.length
    let at_ := (index[base]?.map IndexEntry.firstKey).getD []
    if at_ = key then .ok base
    else .error (if at_ < key then base + 1 else base)

/-- The decode loop of `load_block`. -/
def decodeBlock : Nat → Bytes → Nat → Except Error (List Record)
  | 0, _, _ => .ok []
  | fuel + 1, raw, pos =>
      if pos < raw.length then do
        let (r, pos) ← Record.decodeAt raw pos
        let rest ← decodeBlock fuel raw pos
        return r :: rest
      else .ok []

/-- The scan of `get_at` over one block. -/
def scanBlock (key : Bytes) (seqBound : Nat) : List Record → Option Record
  | [] => none
  | r :: rs =>
      if r.key = key then
        if r.seq < seqBound then some r else scanBlock key seqBound rs
      else if key < r.key then none
      else scanBlock key seqBound rs

namespace SsTableReader

variable {σ : Type}

/-- `SsTableReader::open`. -/
def openTable (path : Path) (bloomEnabled : Bool) : M σ SsTableReader := do
  let file ← Fs.openFile path .read
  let fileLen ← File.size file
  if fileLen < footerLen then M.fail (.badFormat "file smaller than footer")
  else
    let footer ← File.readExactAt file (fileLen - footerLen) footerLen
    if (footer.drop 40).take 4 ≠ tableMagic then
      M.fail (.badFormat "bad magic (expected LSM2)")
    else
      let indexOffset := ofLe (footer.take 8)
      let indexEntries := ofLe ((footer.drop 8).take 4)
      let bloomOffset := ofLe ((footer.drop 12).take 8)
      let bloomLen := ofLe ((footer.drop 20).take 8)
      let recordCount := ofLe ((footer.drop 28).take 8)
      let footerStart := fileLen - footerLen
      if indexOffset > bloomOffset ∨ (bloomOffset + bloomLen) % 2 ^ 64 > footerStart then
        M.fail (.badFormat "footer offsets out of range")
      else
        let ibuf ← File.readExactAt file indexOffset (bloomOffset - indexOffset)
        let index ← M.ofExcept (readIndex indexEntries ibuf 0)
        let bbuf ← File.readExactAt file bloomOffset bloomLen
        let bloom ← M.ofExcept (BloomFilter.decode bbuf)
        return { file, path, index, bloom, bloomEnabled, recordCount }

/-- `load_block` on a cache miss: read, decompress and decode one block. -/
def loadBlock (env : Env) (self : SsTableReader) (e : IndexEntry) : M σ (List Record) := do
  let comp ← File.readExactAt self.file e.offset e.compLen
  match env.decompress comp with
  | .error msg => M.fail (.corrupt ("block decompression failed: " ++ msg))
  | .ok raw => M.ofExcept (decodeBlock raw.length raw 0)

/-- `SsTableReader::get_at`. -/
def getAt (env : Env) (self : SsTableReader) (key : Bytes) (seqBound : Nat) :
    M σ (Option Record) :=
  if self.index = [] then pure none
  else if self.bloomEnabled ∧ self.bloom.contains env key = false then pure none
  else
    let found :=
      match binarySearch self.index key with
      | .ok i => some i
      | .error 0 => none
      | .error (i + 1) => some i
    match found.bind (fun i => self.index[i]?) with
    | none => pure none
    | some e => do
        let block ← self.loadBlock env e
        return scanBlock key seqBound block

/-- `block_bracketing`. -/
def blockBracketing (self : SsTableReader) (key : Bytes) : Option Nat :=
  if self.index = [] then none
  else
    match binarySearch self.index key with
    | .ok i => some i
    | .error 0 => some 0
    | .error (i + 1) => some i

/-- `TableScan::next` over the blocks that are left, as the items it yields; a
failing block is one error item and the end. -/
def scanBlocks (env : Env) (self : SsTableReader) (start : Option Bytes) :
    List IndexEntry → M σ (List (Except Error Record))
  | [] => pure []
  | e :: rest => do
      match ← M.attempt (self.loadBlock env e) with
      | .error err => return [.error err]
      | .ok block =>
          let here := block.filter (fun r =>
            match start with
            | some k => decide (k ≤ r.key)
            | none => true)
          let later ← scanBlocks env self none rest
          return here.map .ok ++ later

/-- `SsTableReader::scan`: the items of the walk from `start`. -/
def scan (env : Env) (self : SsTableReader) (start : Option Bytes) :
    M σ (List (Except Error Record)) :=
  let first :=
    match start with
    | some key => self.blockBracketing key
    | none => if self.index = [] then none else some 0
  scanBlocks env self start (self.index.drop (first.getD self.index.length))

/-- `SsTableReader::iter_all`. -/
def iterAll (env : Env) (self : SsTableReader) : M σ (List Record) := do
  let blocks ← M.collect (self.loadBlock env) self.index
  return blocks.flatten

end SsTableReader

end LsmKv
