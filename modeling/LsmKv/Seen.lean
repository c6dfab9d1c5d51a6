import LsmKv.BlockCache
import LsmKv.Noted

/-!
# What the table reader does with numbers and memory

The methods of the table reader again, statement by statement as in `SsTable` and
`BlockCache`, and each reports its additions, subtractions, ranges, indices and divisions,
and the buffers and capacities it asks for.  Copies of a range that was reported, and the
checked additions of the two cursors, are not reported.

**Results.**
* `Seen.erase_openTable`, `Seen.erase_getAt`, `Seen.erase_iterAll`: without their reports the
  methods are those of the model.
* `Seen.erase_next`: the walk by block number and position is the walk of `TableScan`.
-/

namespace LsmKv

open Foundation Noted

/-- One thing the reader does that could go wrong. -/
inductive Act
  /-- `a + b` on `u64` or `usize`. -/
  | add (a b : Nat)
  /-- `a - b` on `u64` or `usize`. -/
  | sub (a b : Nat)
  /-- `buf[start..stop]` of a buffer of this length. -/
  | slice (start stop len : Nat)
  /-- `buf[i]` of a buffer of this length. -/
  | item (i len : Nat)
  /-- A division or a remainder by `d`. -/
  | divide (d : Nat)
  /-- `vec![0; len]`. -/
  | buffer (len : Nat)
  /-- `Vec::with_capacity(n)` for index entries that are read from a region of this length. -/
  | entrySlots (n region : Nat)
  /-- `Vec::with_capacity(n)` for records. -/
  | recordSlots (n : Nat)
  deriving DecidableEq, Repr

/-- A method that reports what it does. -/
abbrev Seen (σ α : Type) : Type := Noted Act σ α

namespace Seen

variable {σ : Type}

/-- The retry loop of `File::read_exact_at`. -/
def readExactLoop (i off n : Nat) : Nat → Bytes → Seen σ Bytes
  | 0, acc => ofM (File.readExactLoop i off n 0 acc)
  | fuel + 1, acc =>
      if acc.length < n then do
        note (.add off acc.length)
        note (.slice acc.length n n)
        let b ← ofM (File.readAt i (off + acc.length) (n - acc.length))
        if b = [] then ofM (M.fail (.io .unexpectedEof))
        else do
          note (.add acc.length b.length)
          readExactLoop i off n fuel (acc ++ b)
      else pure acc

/-- `File::read_exact_at`. -/
def readExactAt (i off n : Nat) : Seen σ Bytes := readExactLoop i off n n []

/-- `sstable::read_bytes` and `Reader::bytes`. -/
def readBytes (truncated : String) (buf : Bytes) (pos n : Nat) : Seen σ (Bytes × Nat) := do
  let r ← ofM (M.ofExcept (LsmKv.readBytes truncated buf pos n))
  note (.slice pos r.2 buf.length)
  return r

/-- A little-endian field of `w` bytes. -/
def uint (truncated : String) (w : Nat) (buf : Bytes) (pos : Nat) : Seen σ (Nat × Nat) := do
  let (b, pos) ← readBytes truncated buf pos w
  return (ofLe b, pos)

/-- `Reader::u8`. -/
def u8 (buf : Bytes) (pos : Nat) : Seen σ (Nat × Nat) := do
  let (b, pos) ← readBytes "record truncated" buf pos 1
  note (.item 0 b.length)
  return (ofLe b, pos)

/-- The loop of `SsTableReader::open` over the index entries. -/
def readIndex : Nat → Bytes → Nat → Seen σ (List IndexEntry)
  | 0, _, _ => return []
  | entries + 1, ibuf, pos => do
      let (keyLen, pos) ← uint "sstable index truncated" 4 ibuf pos
      let (key, pos) ← readBytes "sstable index truncated" ibuf pos keyLen
      let (blockOffset, pos) ← uint "sstable index truncated" 8 ibuf pos
      let (compLen, pos) ← uint "sstable index truncated" 4 ibuf pos
      let rest ← readIndex entries ibuf pos
      return ⟨key, blockOffset, compLen⟩ :: rest

/-- `BloomFilter::decode`. -/
def decodeBloom (buf : Bytes) : Seen σ BloomFilter :=
  if buf.length < 12 then ofM (M.fail (.corrupt "bloom filter truncated"))
  else do
    note (.slice 0 4 buf.length)
    note (.slice 4 12 buf.length)
    let k := ofLe (buf.take 4)
    let bitCount := ofLe ((buf.drop 4).take 8)
    note (.add 12 (BloomFilter.byteLen bitCount))
    if buf.length ≠ 12 + BloomFilter.byteLen bitCount then
      ofM (M.fail (.corrupt "bloom filter length mismatch"))
    else if k = 0 ∨ bitCount = 0 then
      ofM (M.fail (.corrupt "bloom filter has zero parameters"))
    else do
      note (.slice 12 buf.length buf.length)
      return ⟨buf.drop 12, bitCount, k⟩

/-- The part of `open` behind the check of the offsets. -/
def openParts (file : Nat) (path : Path) (bloomEnabled : Bool)
    (indexOffset indexEntries bloomOffset bloomLen recordCount : Nat) : Seen σ SsTableReader := do
  note (.sub bloomOffset indexOffset)
  note (.buffer (bloomOffset - indexOffset))
  let ibuf ← readExactAt file indexOffset (bloomOffset - indexOffset)
  note (.entrySlots indexEntries ibuf.length)
  let index ← readIndex indexEntries ibuf 0
  note (.buffer bloomLen)
  let bbuf ← readExactAt file bloomOffset bloomLen
  let bloom ← decodeBloom bbuf
  return { file, path, index, bloom, bloomEnabled, recordCount }

/-- The part of `open` behind the footer. -/
def openOffsets (file : Nat) (path : Path) (bloomEnabled : Bool) (fileLen : Nat)
    (footer : Bytes) : Seen σ SsTableReader := do
  let indexOffset := ofLe (footer.take 8)
  let indexEntries := ofLe ((footer.drop 8).take 4)
  let bloomOffset := ofLe ((footer.drop 12).take 8)
  let bloomLen := ofLe ((footer.drop 20).take 8)
  let recordCount := ofLe ((footer.drop 28).take 8)
  note (.sub fileLen footerLen)
  let footerStart := fileLen - footerLen
  if indexOffset > bloomOffset then
    ofM (M.fail (.badFormat "footer offsets out of range"))
  else
    note (.add bloomOffset bloomLen)
    if (bloomOffset + bloomLen) % 2 ^ 64 > footerStart then
      ofM (M.fail (.badFormat "footer offsets out of range"))
    else
      openParts file path bloomEnabled indexOffset indexEntries bloomOffset bloomLen recordCount

/-- `SsTableReader::open`. -/
def openTable (path : Path) (bloomEnabled : Bool) : Seen σ SsTableReader := do
  let file ← ofM (Fs.openFile path .read)
  let fileLen ← ofM (File.size file)
  if fileLen < footerLen then ofM (M.fail (.badFormat "file smaller than footer"))
  else
    note (.sub fileLen footerLen)
    let footer ← readExactAt file (fileLen - footerLen) footerLen
    if (footer.drop 40).take 4 ≠ tableMagic then
      ofM (M.fail (.badFormat "bad magic (expected LSM2)"))
    else openOffsets file path bloomEnabled fileLen footer

/-- The loop of `BloomFilter::contains` over the probes. -/
def probes (env : Env) (f : BloomFilter) (key : Bytes) : List Nat → Seen σ Bool
  | [] => return true
  | i :: is => do
      note (.divide f.bitCount)
      let bit := BloomFilter.position env f.bitCount key i
      note (.item (bit / 8) f.bits.length)
      if BloomFilter.testBit f.bits bit then probes env f key is else return false

/-- `BloomFilter::contains`. -/
def contains (env : Env) (f : BloomFilter) (key : Bytes) : Seen σ Bool :=
  probes env f key (List.range f.k)

/-- `Record::decode_at`. -/
def decodeAt (buf : Bytes) (pos : Nat) : Seen σ (Record × Nat) := do
  let (seq, p) ← uint "record truncated" 8 buf pos
  let (kind, p) ← u8 buf p
  let (keyLen, p) ← uint "record truncated" 4 buf p
  let (key, p) ← readBytes "record truncated" buf p keyLen
  let (valLen, p) ← uint "record truncated" 4 buf p
  let (val, p) ← readBytes "record truncated" buf p valLen
  match kind with
  | 0 => return (⟨key, some val, seq⟩, p)
  | 1 => return (⟨key, none, seq⟩, p)
  | other => ofM (M.fail (.corrupt ("bad record type " ++ toString other)))

/-- The decode loop of `load_block`. -/
def decodeBlock : Nat → Bytes → Nat → Seen σ (List Record)
  | 0, _, _ => return []
  | fuel + 1, raw, pos =>
      if pos < raw.length then do
        let (r, pos) ← decodeAt raw pos
        let rest ← decodeBlock fuel raw pos
        return r :: rest
      else return []

/-- `load_block` on a cache miss. -/
def loadBlock (env : Env) (self : SsTableReader) (e : IndexEntry) : Seen σ (List Record) := do
  note (.buffer e.compLen)
  let comp ← readExactAt self.file e.offset e.compLen
  match env.decompress comp with
  | .error msg => ofM (M.fail (.corrupt ("block decompression failed: " ++ msg)))
  | .ok raw => decodeBlock raw.length raw 0

/-- `load_block`. -/
def loadCached (env : Env) (self : SsTableReader) (e : IndexEntry) :
    Seen BlockCache (List Record) := do
  let cache ← ofM M.self
  match cache.get e.offset with
  | some block => return block
  | none =>
      let block ← loadBlock env self e
      ofM (M.update (fun cache => cache.put e.offset block))
      return block

/-- `get_at` from the place of the block on. -/
def getIn (env : Env) (self : SsTableReader) (key : Bytes) (seqBound i : Nat) :
    Seen BlockCache (Option Record) := do
  note (.item i self.index.length)
  match self.index[i]? with
  | none => return none
  | some e =>
      let block ← loadCached env self e
      return scanBlock key seqBound block

/-- The question to the filter in `get_at`. -/
def mayContain (env : Env) (self : SsTableReader) (key : Bytes) : Seen σ Bool :=
  if self.bloomEnabled then contains env self.bloom key else return true

/-- `SsTableReader::get_at`. -/
def getAt (env : Env) (self : SsTableReader) (key : Bytes) (seqBound : Nat) :
    Seen BlockCache (Option Record) :=
  if self.index = [] then return none
  else do
    let may ← mayContain env self key
    if may = false then return none
    else
      match binarySearch self.index key with
      | .ok i => getIn env self key seqBound i
      | .error 0 => return none
      | .error (i + 1) => do
          note (.sub (i + 1) 1)
          getIn env self key seqBound i

/-- `SsTableReader::iter_all`. -/
def iterAll (env : Env) (self : SsTableReader) : Seen BlockCache (List Record) := do
  note (.recordSlots self.recordCount)
  let blocks ← collect (loadCached env self) self.index
  return blocks.flatten

section Erase

theorem erase_readExactLoop (i off n fuel : Nat) (acc : Bytes) :
    (readExactLoop i off n fuel acc : Seen σ Bytes).erase =
      File.readExactLoop i off n fuel acc := by
  induction fuel generalizing acc with
  | zero => rfl
  | succ fuel ih =>
      rw [readExactLoop, File.readExactLoop, erase_ite]
      congr 1
      rw [erase_note_bind, erase_note_bind, erase_bind]
      refine bind_congr fun b => ?_
      rw [erase_ite]
      congr 1
      rw [erase_note_bind, ih]

theorem erase_readExactAt (i off n : Nat) :
    (readExactAt i off n : Seen σ Bytes).erase = File.readExactAt i off n :=
  erase_readExactLoop i off n n []

theorem erase_readBytes (truncated : String) (buf : Bytes) (pos n : Nat) :
    (readBytes truncated buf pos n : Seen σ (Bytes × Nat)).erase =
      M.ofExcept (LsmKv.readBytes truncated buf pos n) := by
  rw [readBytes, erase_bind, erase_ofM]
  simp only [erase_note_bind, erase_pure, bind_pure]

theorem erase_indexUint (w : Nat) (buf : Bytes) (pos : Nat) :
    (uint "sstable index truncated" w buf pos : Seen σ (Nat × Nat)).erase =
      M.ofExcept (readIndexUint w buf pos) := by
  rw [uint, erase_bind, erase_readBytes, readIndexUint, M.ofExcept_bind]
  rfl

theorem erase_recordUint (w : Nat) (buf : Bytes) (pos : Nat) :
    (uint "record truncated" w buf pos : Seen σ (Nat × Nat)).erase =
      M.ofExcept (Reader.uint w buf pos) := by
  rw [uint, erase_bind, erase_readBytes, Reader.uint, M.ofExcept_bind]
  rfl

theorem erase_u8 (buf : Bytes) (pos : Nat) :
    (u8 buf pos : Seen σ (Nat × Nat)).erase = M.ofExcept (Reader.uint 1 buf pos) := by
  rw [u8, erase_bind, erase_readBytes, Reader.uint, M.ofExcept_bind]
  rfl

theorem erase_readIndex (entries : Nat) (ibuf : Bytes) (pos : Nat) :
    (readIndex entries ibuf pos : Seen σ (List IndexEntry)).erase =
      M.ofExcept (LsmKv.readIndex entries ibuf pos) := by
  induction entries generalizing pos with
  | zero => rfl
  | succ entries ih =>
      rw [readIndex, LsmKv.readIndex, erase_bind, erase_indexUint, M.ofExcept_bind]
      refine bind_congr fun ⟨keyLen, p⟩ => ?_
      dsimp only
      rw [erase_bind, erase_readBytes, M.ofExcept_bind, readIndexBytes]
      refine bind_congr fun ⟨key, p⟩ => ?_
      dsimp only
      rw [erase_bind, erase_indexUint, M.ofExcept_bind]
      refine bind_congr fun ⟨blockOffset, p⟩ => ?_
      dsimp only
      rw [erase_bind, erase_indexUint, M.ofExcept_bind]
      refine bind_congr fun ⟨compLen, p⟩ => ?_
      dsimp only
      rw [erase_bind, ih, M.ofExcept_bind]
      rfl

theorem erase_decodeBloom (buf : Bytes) :
    (decodeBloom buf : Seen σ BloomFilter).erase = M.ofExcept (BloomFilter.decode buf) := by
  rw [decodeBloom, BloomFilter.decode, erase_ite, M.ofExcept_ite]
  congr 1
  rw [erase_note_bind, erase_note_bind]
  dsimp only
  rw [erase_note_bind, erase_ite, M.ofExcept_ite, erase_ite, M.ofExcept_ite, erase_note_bind]
  rfl

theorem erase_openTable (path : Path) (bloomEnabled : Bool) :
    (openTable path bloomEnabled : Seen σ SsTableReader).erase =
      SsTableReader.openTable path bloomEnabled := by
  rw [openTable, SsTableReader.openTable, erase_bind]
  refine bind_congr fun file => ?_
  rw [erase_bind]
  refine bind_congr fun fileLen => ?_
  rw [erase_ite]
  congr 1
  rw [erase_note_bind, erase_bind, erase_readExactAt]
  refine bind_congr fun footer => ?_
  rw [erase_ite]
  congr 1
  -- `||` of the source is one condition in the model and two in a row here
  rw [openOffsets]
  dsimp only
  rw [erase_note_bind, erase_ite, erase_note_bind, erase_ite, openParts]
  simp only [erase_bind, erase_readExactAt, erase_readIndex, erase_decodeBloom, erase_pure,
    erase_ofM]
  split_ifs
  all_goals first | rfl | omega

theorem erase_probes (env : Env) (f : BloomFilter) (key : Bytes) (is : List Nat) :
    (probes env f key is : Seen σ Bool).erase =
      pure (is.all fun i => BloomFilter.testBit f.bits
        (BloomFilter.position env f.bitCount key i)) := by
  induction is with
  | nil => rfl
  | cons i is ih =>
      rw [probes, erase_note_bind]
      dsimp only
      rw [erase_note_bind, erase_ite, ih, List.all_cons]
      split
      · next h => rw [h, Bool.true_and]
      · next h => rw [Bool.eq_false_iff.mpr h, Bool.false_and, erase_pure]

theorem erase_contains (env : Env) (f : BloomFilter) (key : Bytes) :
    (contains env f key : Seen σ Bool).erase = pure (f.contains env key) :=
  erase_probes env f key (List.range f.k)

theorem erase_mayContain (env : Env) (self : SsTableReader) (key : Bytes) :
    (mayContain env self key : Seen σ Bool).erase =
      pure (!self.bloomEnabled || self.bloom.contains env key) := by
  rw [mayContain, erase_ite, erase_contains]
  cases self.bloomEnabled with
  | false => rfl
  | true => rfl

theorem erase_decodeAt (buf : Bytes) (pos : Nat) :
    (decodeAt buf pos : Seen σ (Record × Nat)).erase = M.ofExcept (Record.decodeAt buf pos) := by
  rw [decodeAt, Record.decodeAt, erase_bind, erase_recordUint, M.ofExcept_bind]
  refine bind_congr fun ⟨seq, p⟩ => ?_
  dsimp only
  rw [erase_bind, erase_u8, M.ofExcept_bind]
  refine bind_congr fun ⟨kind, p⟩ => ?_
  dsimp only
  rw [erase_bind, erase_recordUint, M.ofExcept_bind]
  refine bind_congr fun ⟨keyLen, p⟩ => ?_
  dsimp only
  rw [erase_bind, erase_readBytes, M.ofExcept_bind, Reader.bytes]
  refine bind_congr fun ⟨key, p⟩ => ?_
  dsimp only
  rw [erase_bind, erase_recordUint, M.ofExcept_bind]
  refine bind_congr fun ⟨valLen, p⟩ => ?_
  dsimp only
  rw [erase_bind, erase_readBytes, M.ofExcept_bind, Reader.bytes]
  refine bind_congr fun ⟨val, p⟩ => ?_
  match kind with
  | 0 => rfl
  | 1 => rfl
  | other + 2 => rfl

theorem erase_decodeBlock (fuel : Nat) (raw : Bytes) (pos : Nat) :
    (decodeBlock fuel raw pos : Seen σ (List Record)).erase =
      M.ofExcept (LsmKv.decodeBlock fuel raw pos) := by
  induction fuel generalizing pos with
  | zero => rfl
  | succ fuel ih =>
      rw [decodeBlock, LsmKv.decodeBlock, erase_ite, M.ofExcept_ite]
      congr 1
      rw [erase_bind, erase_decodeAt, M.ofExcept_bind]
      refine bind_congr fun ⟨r, p⟩ => ?_
      dsimp only
      rw [erase_bind, ih, M.ofExcept_bind]
      rfl

theorem erase_loadBlock (env : Env) (self : SsTableReader) (e : IndexEntry) :
    (loadBlock env self e : Seen σ (List Record)).erase = self.loadBlock env e := by
  rw [loadBlock, SsTableReader.loadBlock, erase_note_bind, erase_bind, erase_readExactAt]
  refine bind_congr fun comp => ?_
  cases env.decompress comp with
  | error msg => rfl
  | ok raw => exact erase_decodeBlock _ _ _

theorem erase_loadCached (env : Env) (self : SsTableReader) (e : IndexEntry) :
    (loadCached env self e).erase = self.loadCached env e := by
  rw [loadCached, SsTableReader.loadCached, erase_bind]
  refine bind_congr fun cache => ?_
  cases cache.get e.offset with
  | some block => rfl
  | none =>
      dsimp only
      rw [erase_bind, erase_loadBlock]
      rfl

theorem erase_getAt (env : Env) (self : SsTableReader) (key : Bytes) (seqBound : Nat) :
    (getAt env self key seqBound).erase =
      self.getAtBy env (self.loadCached env) key seqBound := by
  have hin : ∀ i, (getIn env self key seqBound i).erase =
      match self.index[i]? with
      | none => pure none
      | some e => do
          let block ← self.loadCached env e
          return scanBlock key seqBound block := by
    intro i
    rw [getIn, erase_note_bind]
    cases self.index[i]? with
    | none => rfl
    | some e =>
        dsimp only
        rw [erase_bind, erase_loadCached]
        rfl
  rw [getAt, SsTableReader.getAtBy, erase_ite]
  congr 1
  rw [erase_bind, erase_mayContain, pure_bind, erase_ite]
  by_cases hbloom : self.bloomEnabled = true ∧ self.bloom.contains env key = false
  · rw [if_pos hbloom, if_pos (by simpa using hbloom)]
    rfl
  · rw [if_neg hbloom, if_neg (by simpa using hbloom)]
    rcases binarySearch self.index key with _ | i
    · next i =>
        cases i with
        | zero => rfl
        | succ i => exact hin i
    · exact hin i

theorem erase_iterAll (env : Env) (self : SsTableReader) :
    (iterAll env self).erase = self.iterAllBy (self.loadCached env) := by
  rw [iterAll, SsTableReader.iterAllBy, erase_note_bind, erase_bind, erase_collect]
  simp only [erase_loadCached]
  rfl

end Erase

end Seen

/-- `sstable::TableScan`, with its block number and its position in the loaded block. -/
structure TableCursor where
  block : Nat
  loaded : Option (List Record)
  pos : Nat
  start : Option Bytes

namespace Seen

variable {σ : Type}

/-- `block_bracketing`. -/
def blockBracketing (self : SsTableReader) (key : Bytes) : Seen σ (Option Nat) :=
  if self.index = [] then return none
  else
    match binarySearch self.index key with
    | .ok i => return some i
    | .error 0 => return some 0
    | .error (i + 1) => do
        note (.sub (i + 1) 1)
        return some i

/-- The block a walk starts in. -/
def firstBlock (self : SsTableReader) : Option Bytes → Seen σ (Option Nat)
  | some key => blockBracketing self key
  | none => if self.index = [] then return none else return some 0

/-- `SsTableReader::scan`. -/
def scan (self : SsTableReader) (start : Option Bytes) : Seen σ TableCursor := do
  let first ← firstBlock self start
  return ⟨first.getD self.index.length, none, 0, start⟩

/-- The turns of the loop of `next` inside the loaded block: the first record not below the
start, and the position behind it. -/
def nextIn (start : Option Bytes) : Nat → List Record → Seen σ (Option (Record × Nat))
  | _, [] => return none
  | pos, r :: rs => do
      note (.add pos 1)
      if start.any (fun k => decide (r.key < k)) then nextIn start (pos + 1) rs
      else return some (r, pos + 1)

/-- The turns of the loop of `next` from a block that is not loaded; `ahead` is the index from
that block on. -/
def nextBlock (load : IndexEntry → Seen σ (List Record)) (blocks : Nat) :
    Nat → List IndexEntry → Nat → Option Bytes →
      Seen σ (Option (Except Error Record) × TableCursor)
  | block, [], pos, start => return (none, ⟨block, none, pos, start⟩)
  | block, e :: ahead, pos, start => do
      match ← attempt (load e) with
      | .error err => return (some (.error err), ⟨blocks, none, pos, start⟩)
      | .ok records =>
          match ← nextIn start 0 records with
          | some (r, pos) => return (some (.ok r), ⟨block, some records, pos, start⟩)
          | none => do
              note (.add block 1)
              nextBlock load blocks (block + 1) ahead records.length none

/-- `TableScan::next`: the item, and the walk behind it. -/
def next (env : Env) (self : SsTableReader) (cursor : TableCursor) :
    Seen BlockCache (Option (Except Error Record) × TableCursor) :=
  match cursor.loaded with
  | none =>
      nextBlock (loadCached env self) self.index.length cursor.block
        (self.index.drop cursor.block) cursor.pos cursor.start
  | some records => do
      match ← nextIn cursor.start cursor.pos (records.drop cursor.pos) with
      | some (r, pos) => return (some (.ok r), { cursor with pos := pos })
      | none => do
          note (.add cursor.block 1)
          nextBlock (loadCached env self) self.index.length (cursor.block + 1)
            (self.index.drop (cursor.block + 1)) records.length none

end Seen

/-- Where a walk by block number and position is. -/
def TableCursor.walk (self : SsTableReader) (cursor : TableCursor) : TableScan :=
  match cursor.loaded with
  | none => ⟨self.index.drop cursor.block, none, cursor.start⟩
  | some records =>
      ⟨self.index.drop (cursor.block + 1), some (records.drop cursor.pos), cursor.start⟩

namespace Seen

section EraseWalk

variable {self : SsTableReader}

theorem erase_blockBracketing (self : SsTableReader) (key : Bytes) :
    (blockBracketing self key : Seen σ (Option Nat)).erase = pure (self.blockBracketing key) := by
  unfold blockBracketing SsTableReader.blockBracketing
  split
  · rfl
  · rcases binarySearch self.index key with (_ | i) | i
    · rfl
    · rfl
    · rfl

/-- The cursor `scan` starts with. -/
def startCursor (self : SsTableReader) (start : Option Bytes) : TableCursor :=
  ⟨(match start with
    | some key => self.blockBracketing key
    | none => if self.index = [] then none else some 0).getD self.index.length, none, 0, start⟩

theorem erase_scan (self : SsTableReader) (start : Option Bytes) :
    (scan self start : Seen σ TableCursor).erase = pure (startCursor self start) ∧
      (startCursor self start).walk self = self.walk start := by
  refine ⟨?_, rfl⟩
  rw [scan, erase_bind]
  cases start with
  | some key => rw [firstBlock, erase_blockBracketing, pure_bind]; rfl
  | none =>
      rw [firstBlock, erase_ite, startCursor]
      split
      · rfl
      · rfl

/-- Inside a block the two walks agree, and the position stays in the block. -/
theorem erase_nextIn (start : Option Bytes) {records l : List Record} {pos : Nat}
    (hl : records.drop pos = l) :
    ∃ out, (nextIn start pos l : Seen σ (Option (Record × Nat))).erase = pure out ∧
      TableScan.nextIn start l = out.map (fun o => (o.1, records.drop o.2)) ∧
      ∀ o ∈ out, o.2 ≤ records.length := by
  induction l generalizing pos with
  | nil => exact ⟨none, rfl, rfl, by simp⟩
  | cons r rs ih =>
      have hlt : pos < records.length := by
        by_contra hge
        rw [List.drop_eq_nil_of_le (by omega)] at hl
        cases hl
      have hrs : records.drop (pos + 1) = rs := by
        rw [← List.tail_drop, hl]
        rfl
      rw [nextIn, erase_note_bind, erase_ite, TableScan.nextIn]
      split
      · exact ih hrs
      · refine ⟨some (r, pos + 1), rfl, ?_, ?_⟩
        · rw [Option.map_some, hrs]
        · rintro o ho
          cases ho
          exact hlt

theorem erase_nextBlock (env : Env) {block pos : Nat} {ahead : List IndexEntry}
    {start : Option Bytes} (hahead : self.index.drop block = ahead) :
    ((nextBlock (loadCached env self) self.index.length block ahead pos start).erase >>=
        fun r => pure (r.1, r.2.walk self)) =
      TableScan.nextBlock (self.loadCached env) ahead start := by
  induction ahead generalizing block pos start with
  | nil =>
      rw [nextBlock, erase_pure, pure_bind, TableScan.nextBlock, TableCursor.walk, hahead]
  | cons e ahead ih =>
      have hrest : self.index.drop (block + 1) = ahead := by
        rw [← List.tail_drop, hahead]
        rfl
      rw [nextBlock, TableScan.nextBlock, erase_bind, erase_attempt, erase_loadCached, bind_assoc]
      refine bind_congr fun r => ?_
      cases r with
      | error err =>
          dsimp only
          rw [erase_pure, pure_bind, TableCursor.walk, List.drop_length]
      | ok records =>
          dsimp only
          obtain ⟨out, hout, hnext, -⟩ := erase_nextIn (σ := BlockCache) start
            (List.drop_zero (l := records))
          rw [erase_bind, hout, pure_bind, hnext]
          cases out with
          | some o =>
              dsimp only [Option.map_some]
              rw [erase_pure, pure_bind, TableCursor.walk, hrest]
          | none =>
              dsimp only [Option.map_none]
              rw [erase_note_bind]
              exact ih hrest

/-- The walk by block number and position is the walk of `TableScan`. -/
theorem erase_next (env : Env) (self : SsTableReader) (cursor : TableCursor) :
    ((next env self cursor).erase >>= fun r => pure (r.1, r.2.walk self)) =
      (cursor.walk self).next (self.loadCached env) := by
  obtain ⟨block, loaded, pos, start⟩ := cursor
  cases loaded with
  | none => exact erase_nextBlock env rfl
  | some records =>
      obtain ⟨out, hout, hnext, -⟩ := erase_nextIn (σ := BlockCache) start
        (rfl : records.drop pos = records.drop pos)
      rw [next, TableCursor.walk, TableScan.next]
      dsimp only
      rw [erase_bind, hout, pure_bind, hnext]
      cases out with
      | some o => rfl
      | none =>
          dsimp only [Option.map_none]
          rw [erase_note_bind]
          exact erase_nextBlock env rfl

end EraseWalk

end Seen

end LsmKv
