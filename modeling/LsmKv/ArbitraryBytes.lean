import LsmKv.Returned
import LsmKv.Seen
import LsmKv.ShortReads
import LsmKv.Stock

/-!
# Arbitrary bytes as a table file

Eight fields of a table file are used as lengths, offsets and counts.  `SsTableReader::open`
checks the offsets of the footer, but by a sum that may overflow; it reserves room for as
many index entries as the footer says, and `iter_all` for as many records.  Everything else
is checked before it is used.

**Results.**
* `Seen.openTable_safe_iff`: `open` stays within its bounds exactly for the files whose
  footer passes `FooterFits`.
* `Seen.safe_getAt`, `Seen.safe_next`: lookups and walks always do.
* `Seen.iterAll_safe_iff`: `iter_all` does exactly when the record count is one the file could
  hold.
* `arbitrary_bytes_iff`: all of it, after any calls on the reader.
-/

namespace LsmKv

open Foundation Noted

/-- What the reader may do with a file of `fileLen` bytes: no overflow, no index out of range,
no division by zero, no buffer above `longest` bytes, no more index entries than the index
region holds (an entry takes 16 bytes or more) and no more records than the file could hold
(one takes 17 bytes or more, and LZ4 makes at most 255 bytes of one). -/
def Act.Fine (fileLen longest : Nat) : Act → Prop
  | .add a b => a + b < 2 ^ 64
  | .sub a b => b ≤ a
  | .slice start stop len => start ≤ stop ∧ stop ≤ len
  | .item i len => i < len
  | .divide d => d ≠ 0
  | .buffer len => len ≤ longest
  | .entrySlots n region => 16 * n ≤ region
  | .recordSlots n => 17 * n ≤ 255 * fileLen

theorem ofLe_take_lt (l : Bytes) (n : Nat) : ofLe (l.take n) < 256 ^ n :=
  lt_of_lt_of_le (ofLe_lt _) (Nat.pow_le_pow_right (by decide) (List.length_take_le n l))

namespace Seen

variable {σ : Type} {s : σ} {w : World} {fileLen longest : Nat}

section Decoders

theorem safe_readBytes (truncated : String) (buf : Bytes) (pos n : Nat) :
    Safe (Act.Fine fileLen longest) (readBytes truncated buf pos n) s w := by
  refine safe_bind.mpr ⟨safe_ofM _, fun r s' w' hrun => safe_note_bind.mpr ⟨?_, safe_pure _⟩⟩
  obtain ⟨b, p⟩ := r
  have hok : LsmKv.readBytes truncated buf pos n = .ok (b, p) := (Prod.ext_iff.mp hrun).1
  refine ⟨?_, readBytes_le hok⟩
  rw [(readBytes_eq_ok hok).2.2]
  exact Nat.le_add_right pos n

theorem safe_uint (truncated : String) (width : Nat) (buf : Bytes) (pos : Nat) :
    Safe (Act.Fine fileLen longest) (uint truncated width buf pos) s w :=
  safe_bind.mpr ⟨safe_readBytes _ _ _ _, fun _ _ _ _ => safe_pure _⟩

theorem safe_u8 (buf : Bytes) (pos : Nat) :
    Safe (Act.Fine fileLen longest) (u8 buf pos) s w := by
  refine safe_bind.mpr ⟨safe_readBytes _ _ _ _, fun r s' w' hrun =>
    safe_note_bind.mpr ⟨?_, safe_pure _⟩⟩
  obtain ⟨b, p⟩ := r
  rw [erase_readBytes] at hrun
  have hok : LsmKv.readBytes "record truncated" buf pos 1 = .ok (b, p) := (Prod.ext_iff.mp hrun).1
  show 0 < b.length
  rw [(readBytes_eq_ok hok).2.1]
  exact Nat.one_pos

theorem safe_readIndex (entries : Nat) (ibuf : Bytes) (pos : Nat) :
    Safe (Act.Fine fileLen longest) (readIndex entries ibuf pos) s w := by
  induction entries generalizing pos s w with
  | zero => exact safe_pure []
  | succ entries ih =>
      refine safe_bind.mpr ⟨safe_uint _ _ _ _, fun _ _ _ _ => ?_⟩
      refine safe_bind.mpr ⟨safe_readBytes _ _ _ _, fun _ _ _ _ => ?_⟩
      refine safe_bind.mpr ⟨safe_uint _ _ _ _, fun _ _ _ _ => ?_⟩
      refine safe_bind.mpr ⟨safe_uint _ _ _ _, fun _ _ _ _ => ?_⟩
      exact safe_bind.mpr ⟨ih _, fun _ _ _ _ => safe_pure _⟩

theorem safe_decodeBloom (buf : Bytes) :
    Safe (Act.Fine fileLen longest) (decodeBloom buf) s w := by
  unfold decodeBloom
  split
  · exact safe_ofM _
  · next hlen =>
      have hbits : ofLe ((buf.drop 4).take 8) < 2 ^ 64 := ofLe_take_lt _ 8
      refine safe_note_bind.mpr ⟨⟨by omega, by omega⟩,
        safe_note_bind.mpr ⟨⟨by omega, by omega⟩, ?_⟩⟩
      refine safe_note_bind.mpr ⟨?_, ?_⟩
      · show 12 + (ofLe ((buf.drop 4).take 8) + 7) / 8 < 2 ^ 64
        omega
      · split
        · exact safe_ofM _
        · split
          · exact safe_ofM _
          · exact safe_note_bind.mpr ⟨⟨by omega, le_rfl⟩, safe_pure _⟩

theorem safe_decodeAt (buf : Bytes) (pos : Nat) :
    Safe (Act.Fine fileLen longest) (decodeAt buf pos) s w := by
  refine safe_bind.mpr ⟨safe_uint _ _ _ _, fun _ _ _ _ => ?_⟩
  refine safe_bind.mpr ⟨safe_u8 _ _, fun _ _ _ _ => ?_⟩
  refine safe_bind.mpr ⟨safe_uint _ _ _ _, fun _ _ _ _ => ?_⟩
  refine safe_bind.mpr ⟨safe_readBytes _ _ _ _, fun _ _ _ _ => ?_⟩
  refine safe_bind.mpr ⟨safe_uint _ _ _ _, fun _ _ _ _ => ?_⟩
  refine safe_bind.mpr ⟨safe_readBytes _ _ _ _, fun _ _ _ _ => ?_⟩
  dsimp only
  split
  · exact safe_pure _
  · exact safe_pure _
  · exact safe_ofM _

theorem safe_decodeBlock (fuel : Nat) (raw : Bytes) (pos : Nat) :
    Safe (Act.Fine fileLen longest) (decodeBlock fuel raw pos) s w := by
  induction fuel generalizing pos s w with
  | zero => exact safe_pure []
  | succ fuel ih =>
      unfold decodeBlock
      split
      · refine safe_bind.mpr ⟨safe_decodeAt _ _, fun _ _ _ _ => ?_⟩
        exact safe_bind.mpr ⟨ih _, fun _ _ _ _ => safe_pure _⟩
      · exact safe_pure []

end Decoders

section Reads

variable {i off n : Nat}

/-- A read beyond the end of the file returns nothing, so that the offset of the next read is
never beyond it. -/
theorem safe_readExactLoop (hfile : (w.vol.inodes i).bytes.length < 2 ^ 64) (hoff : off < 2 ^ 64)
    (hn : n < 2 ^ 64) (fuel : Nat) {acc : Bytes}
    (hacc : acc = [] ∨ off + acc.length ≤ (w.vol.inodes i).bytes.length) :
    Safe (Act.Fine fileLen longest) (readExactLoop i off n fuel acc) s w := by
  induction fuel generalizing acc w with
  | zero => exact safe_ofM _
  | succ fuel ih =>
      unfold readExactLoop
      split
      · next hlt =>
          have hadd : off + acc.length < 2 ^ 64 := by
            rcases hacc with rfl | hle
            · exact hoff
            · omega
          refine safe_note_bind.mpr ⟨hadd, safe_note_bind.mpr ⟨⟨by omega, le_rfl⟩, ?_⟩⟩
          refine safe_bind.mpr ⟨safe_ofM _, fun b s' w' hrun => ?_⟩
          obtain ⟨c, reads, -, hread⟩ := readAt_eq i (off + acc.length) (n - acc.length) s w
          have heq : (File.readAt i (off + acc.length) (n - acc.length) : M σ Bytes) s w =
            (.ok b, s', w') := hrun
          cases heq.symm.trans hread
          split
          · exact safe_ofM _
          · next hne =>
              have hlen : 0 < ((List.drop (off + acc.length) (w.vol.inodes i).bytes).take
                  (min (n - acc.length) c)).length := List.length_pos_iff.mpr hne
              rw [List.length_take, List.length_drop] at hlen
              refine safe_note_bind.mpr ⟨?_, ih (w := w.withReads reads) hfile (Or.inr ?_)⟩
              · show acc.length + _ < 2 ^ 64
                rw [List.length_take, List.length_drop]
                omega
              · rw [List.length_append, List.length_take, List.length_drop, World.vol_withReads]
                omega
      · exact safe_pure _

theorem safe_readExactAt (hfile : (w.vol.inodes i).bytes.length < 2 ^ 64) (hoff : off < 2 ^ 64)
    (hn : n < 2 ^ 64) : Safe (Act.Fine fileLen longest) (readExactAt i off n) s w :=
  safe_readExactLoop hfile hoff hn n (Or.inl rfl)

/-- Inside the file the bytes are read, whatever the reads return at a time. -/
theorem readExactAt_eq (s : σ) (hle : off + n ≤ (w.vol.inodes i).bytes.length) :
    ∃ reads, (File.readExactAt i off n : M σ Bytes) s w =
      (.ok (((w.vol.inodes i).bytes.drop off).take n), s, w.withReads reads) := by
  obtain ⟨reads, h⟩ := readExactLoop_eq (s := s) (w := w) i off n n 0 hle (Nat.zero_le n) (by omega)
  exact ⟨reads, h⟩

end Reads

end Seen

/-- The footer fields that `open` takes from a file. -/
structure Footer where
  indexOffset : Nat
  indexEntries : Nat
  bloomOffset : Nat
  bloomLen : Nat
  recordCount : Nat
  magic : Bytes
  deriving DecidableEq

/-- The fields of a footer. -/
def Footer.read (footer : Bytes) : Footer :=
  { indexOffset := ofLe (footer.take 8)
    indexEntries := ofLe ((footer.drop 8).take 4)
    bloomOffset := ofLe ((footer.drop 12).take 8)
    bloomLen := ofLe ((footer.drop 20).take 8)
    recordCount := ofLe ((footer.drop 28).take 8)
    magic := (footer.drop 40).take 4 }

/-- The fields of the last 44 bytes of a file. -/
def Footer.of (bytes : Bytes) : Footer :=
  Footer.read ((bytes.drop (bytes.length - footerLen)).take footerLen)

/-- What keeps `open` within its bounds behind the footer of a file of this length: it refuses
the offsets by themselves, or their sum is below `2 ^ 64` and beyond the file, or it is inside
the file and the entries that the footer counts fit the index region. -/
def Footer.Fits (f : Footer) (fileLen : Nat) : Prop :=
  f.bloomOffset < f.indexOffset ∨
    (f.bloomOffset + f.bloomLen < 2 ^ 64 ∧
      (fileLen - footerLen < f.bloomOffset + f.bloomLen ∨
        16 * f.indexEntries ≤ f.bloomOffset - f.indexOffset))

/-- What keeps `open` within its bounds. -/
def FooterFits (bytes : Bytes) : Prop :=
  bytes.length < footerLen ∨ (Footer.of bytes).magic ≠ tableMagic ∨
    (Footer.of bytes).Fits bytes.length

instance (f : Footer) (fileLen : Nat) : Decidable (f.Fits fileLen) :=
  inferInstanceAs (Decidable (_ ∨ _))

instance (bytes : Bytes) : Decidable (FooterFits bytes) := inferInstanceAs (Decidable (_ ∨ _))

namespace Seen

section Open

variable {σ : Type} {s : σ} {w : World} {path : Path} {bytes : Bytes} {i : Nat}

/-- Behind the check of the offsets only the number of index entries is left to trust. -/
theorem safe_openParts {indexOffset indexEntries bloomOffset bloomLen recordCount : Nat}
    (bloomEnabled : Bool) (hbytes : (w.vol.inodes i).bytes = bytes)
    (hlen : bytes.length < 2 ^ 64) (hle : indexOffset ≤ bloomOffset)
    (hin : bloomOffset + bloomLen ≤ bytes.length) :
    Safe (Act.Fine bytes.length bytes.length)
        (openParts i path bloomEnabled indexOffset indexEntries bloomOffset bloomLen recordCount)
        s w ↔ 16 * indexEntries ≤ bloomOffset - indexOffset := by
  have hend : indexOffset + (bloomOffset - indexOffset) ≤ (w.vol.inodes i).bytes.length := by
    rw [hbytes]
    omega
  obtain ⟨reads, hibuf⟩ := readExactAt_eq s hend
  have hregion : ((bytes.drop indexOffset).take (bloomOffset - indexOffset)).length =
      bloomOffset - indexOffset := by
    rw [List.length_take, List.length_drop]
    omega
  have hfile : (w.vol.inodes i).bytes.length < 2 ^ 64 := by rwa [hbytes]
  rw [hbytes] at hibuf
  unfold openParts
  rw [safe_note_bind, safe_note_bind,
    safe_bind_ok ((congrFun (congrFun (erase_readExactAt _ _ _) _) _).trans hibuf), safe_note_bind,
    hregion]
  refine ⟨fun h => h.2.2.2.1, fun hslots => ⟨hle, ?_, ?_, hslots, ?_⟩⟩
  · show bloomOffset - indexOffset ≤ bytes.length
    omega
  · exact safe_readExactAt hfile (by omega) (by omega)
  · refine safe_bind.mpr ⟨safe_readIndex _ _ _, fun index s' w' hrun => ?_⟩
    rw [erase_readIndex] at hrun
    have hw : w' = w.withReads reads := ((Prod.ext_iff.mp (Prod.ext_iff.mp hrun).2).2).symm
    subst hw
    refine safe_note_bind.mpr ⟨?_, ?_⟩
    · show bloomLen ≤ bytes.length
      omega
    · refine safe_bind.mpr ⟨safe_readExactAt hfile (by omega) (by omega), fun _ _ _ _ => ?_⟩
      exact safe_bind.mpr ⟨safe_decodeBloom _, fun _ _ _ _ => safe_pure _⟩

theorem safe_openOffsets (bloomEnabled : Bool) (footer : Bytes)
    (hbytes : (w.vol.inodes i).bytes = bytes) (hlen : bytes.length < 2 ^ 64)
    (hlong : footerLen ≤ bytes.length) :
    Safe (Act.Fine bytes.length bytes.length)
        (openOffsets i path bloomEnabled bytes.length footer) s w ↔
      (Footer.read footer).Fits bytes.length := by
  obtain ⟨f, hf⟩ : ∃ f, f = Footer.read footer := ⟨_, rfl⟩
  have hsub : (Act.sub bytes.length footerLen).Fine bytes.length bytes.length := hlong
  have hopen : openOffsets i path bloomEnabled bytes.length footer = (do
      note (.sub bytes.length footerLen)
      if f.indexOffset > f.bloomOffset then
        ofM (M.fail (.badFormat "footer offsets out of range"))
      else
        note (.add f.bloomOffset f.bloomLen)
        if (f.bloomOffset + f.bloomLen) % 2 ^ 64 > bytes.length - footerLen then
          ofM (M.fail (.badFormat "footer offsets out of range"))
        else
          openParts i path bloomEnabled f.indexOffset f.indexEntries f.bloomOffset f.bloomLen
            f.recordCount : Seen σ SsTableReader) := by
    rw [hf]
    rfl
  rw [hopen, ← hf, safe_note_bind, and_iff_right hsub, Footer.Fits]
  by_cases hout : f.indexOffset > f.bloomOffset
  · rw [if_pos hout]
    exact iff_of_true (safe_ofM _) (Or.inl hout)
  · rw [if_neg hout, or_iff_right hout, safe_note_bind]
    refine and_congr_right fun hsum => ?_
    rw [Nat.mod_eq_of_lt hsum]
    by_cases hbeyond : f.bloomOffset + f.bloomLen > bytes.length - footerLen
    · rw [if_pos hbeyond]
      exact iff_of_true (safe_ofM _) (Or.inl hbeyond)
    · rw [if_neg hbeyond, or_iff_right hbeyond]
      exact safe_openParts bloomEnabled hbytes hlen (by omega) (by omega)

/-- `open` stays within its bounds exactly when the footer does. -/
theorem openTable_safe_iff (bloomEnabled : Bool) (hname : w.vol.lookup path = some i)
    (hbytes : (w.vol.inodes i).bytes = bytes) (hlen : bytes.length < 2 ^ 64) :
    Safe (Act.Fine bytes.length bytes.length) (openTable path bloomEnabled : Seen σ SsTableReader)
      s w ↔ FooterFits bytes := by
  have hexisting : (Fs.openFile path .read : M σ Nat) s w = (.ok i, s, w) :=
    Fs.existing_some hname
  unfold openTable FooterFits
  rw [safe_ofM_bind hexisting, safe_ofM_bind File.size_apply, hbytes]
  by_cases hshort : bytes.length < footerLen
  · rw [if_pos hshort]
    exact iff_of_true (safe_ofM _) (Or.inl hshort)
  · have hend : bytes.length - footerLen + footerLen ≤ (w.vol.inodes i).bytes.length := by
      rw [hbytes]
      omega
    obtain ⟨reads, hfooter⟩ := readExactAt_eq s hend
    rw [hbytes] at hfooter
    have hread : Safe (Act.Fine bytes.length bytes.length)
        (readExactAt i (bytes.length - footerLen) footerLen : Seen σ Bytes) s w :=
      safe_readExactAt (by rwa [hbytes]) (by omega) (by decide)
    have hsub : (Act.sub bytes.length footerLen).Fine bytes.length bytes.length :=
      Nat.le_of_not_lt hshort
    rw [if_neg hshort, or_iff_right hshort, safe_note_bind, and_iff_right hsub,
      safe_bind_ok ((congrFun (congrFun (erase_readExactAt _ _ _) _) _).trans hfooter),
      and_iff_right hread]
    have hrest : Safe (Act.Fine bytes.length bytes.length)
        (openOffsets i path bloomEnabled bytes.length
          ((bytes.drop (bytes.length - footerLen)).take footerLen)) s (w.withReads reads) ↔
        (Footer.of bytes).Fits bytes.length :=
      safe_openOffsets bloomEnabled _ hbytes hlen (Nat.le_of_not_lt hshort)
    split
    · next hmagic => exact iff_of_true (safe_ofM _) (Or.inl hmagic)
    · next hmagic =>
        have hgood : ¬ (Footer.of bytes).magic ≠ tableMagic := hmagic
        rw [or_iff_right hgood]
        exact hrest

end Open

end Seen

/-- What `open` has checked of a reader, or what the widths of its fields give. -/
structure SoundReader (reader : SsTableReader) : Prop where
  entries : ∀ e ∈ reader.index, e.offset < 2 ^ 64 ∧ e.compLen < 2 ^ 32
  few : reader.index.length < 2 ^ 32
  bloom : reader.bloom.Sized

section Opened

variable {σ : Type} {s s' : σ} {w w' : World} {path : Path} {bytes : Bytes} {i : Nat}

theorem readIndexUint_lt {width pos n p : Nat} {buf : Bytes}
    (h : readIndexUint width buf pos = .ok (n, p)) : n < 256 ^ width := by
  obtain ⟨⟨b, q⟩, hb, hret⟩ := bind_eq_ok h
  cases hret
  have hlt := ofLe_lt b
  rwa [(readBytes_eq_ok hb).2.1] at hlt

theorem readIndex_bounds {entries pos : Nat} {ibuf : Bytes} {index : List IndexEntry}
    (h : readIndex entries ibuf pos = .ok index) :
    index.length = entries ∧ ∀ e ∈ index, e.offset < 2 ^ 64 ∧ e.compLen < 2 ^ 32 := by
  induction entries generalizing pos index with
  | zero =>
      cases h
      exact ⟨rfl, by simp⟩
  | succ entries ih =>
      obtain ⟨⟨keyLen, p₁⟩, _, h⟩ := bind_eq_ok h
      obtain ⟨⟨key, p₂⟩, _, h⟩ := bind_eq_ok h
      obtain ⟨⟨blockOffset, p₃⟩, hoffset, h⟩ := bind_eq_ok h
      obtain ⟨⟨compLen, p₄⟩, hcomp, h⟩ := bind_eq_ok h
      obtain ⟨rest, hrest, h⟩ := bind_eq_ok h
      cases h
      obtain ⟨hlen, hall⟩ := ih hrest
      refine ⟨by rw [List.length_cons, hlen], fun e he => ?_⟩
      rcases List.mem_cons.mp he with rfl | he
      · exact ⟨readIndexUint_lt hoffset, readIndexUint_lt hcomp⟩
      · exact hall e he

theorem sized_of_decode {buf : Bytes} {f : BloomFilter} (h : BloomFilter.decode buf = .ok f) :
    f.Sized := by
  unfold BloomFilter.decode at h
  dsimp only at h
  split_ifs at h with hshort hlen hzero
  cases h
  refine ⟨?_, Nat.pos_of_ne_zero fun h => hzero (Or.inr h)⟩
  show (buf.drop 12).length = BloomFilter.byteLen (ofLe ((buf.drop 4).take 8))
  rw [List.length_drop]
  omega

theorem Fixes.readAt_vol (i off n : Nat) :
    Fixes (fun _ w => w.vol) (File.readAt i off n : M σ Bytes) := by
  intro s w
  unfold File.readAt
  split
  · rfl
  · rfl

/-- The reader of a file that was opened, in any world. -/
theorem openTable_inv {bloomEnabled : Bool} {reader : SsTableReader}
    (hname : w.vol.lookup path = some i) (hbytes : (w.vol.inodes i).bytes = bytes)
    (h : (SsTableReader.openTable path bloomEnabled : M σ SsTableReader) s w =
      (.ok reader, s', w')) :
    SoundReader reader ∧ reader.file = i ∧
      reader.recordCount = (Footer.of bytes).recordCount ∧ w'.vol = w.vol := by
  have hvol : w'.vol = w.vol := by
    have hfixes := Fixes.openTable (Fixes.readAt_vol (σ := σ)) path bloomEnabled s w
    rwa [h] at hfixes
  have hexisting : (Fs.openFile path .read : M σ Nat) s w = (.ok i, s, w) :=
    Fs.existing_some hname
  unfold SsTableReader.openTable at h
  rw [M.bind_ok hexisting, M.bind_ok File.size_apply, hbytes] at h
  split at h
  · cases h
  · next hlong =>
      have hend : bytes.length - footerLen + footerLen ≤ (w.vol.inodes i).bytes.length := by
        rw [hbytes]
        omega
      obtain ⟨reads, hfooter⟩ := Seen.readExactAt_eq s hend
      rw [M.bind_ok hfooter, hbytes] at h
      split at h
      · cases h
      · dsimp only at h
        split at h
        · cases h
        · obtain ⟨ibuf, s₁, w₁, _, h⟩ := ok_of_bind h
          obtain ⟨index, s₂, w₂, hindex, h⟩ := ok_of_bind h
          obtain ⟨bbuf, s₃, w₃, _, h⟩ := ok_of_bind h
          obtain ⟨bloom, s₄, w₄, hbloom, h⟩ := ok_of_bind h
          cases h
          obtain ⟨hlen, hentries⟩ := readIndex_bounds (Prod.ext_iff.mp hindex).1
          refine ⟨⟨hentries, ?_, sized_of_decode (Prod.ext_iff.mp hbloom).1⟩, rfl, rfl, hvol⟩
          rw [hlen]
          exact ofLe_take_lt _ 4

end Opened

section Search

theorem searchLoop_lt (index : List IndexEntry) (key : Bytes) (fuel : Nat) {base size : Nat}
    (hpos : 1 ≤ size)
    (hle : base + size ≤ index.length) : searchLoop index key fuel base size < index.length := by
  induction fuel generalizing base size with
  | zero =>
      show base < index.length
      omega
  | succ fuel ih =>
      unfold searchLoop
      split
      · dsimp only
        split
        · exact ih (by omega) (by omega)
        · exact ih (by omega) (by omega)
      · omega

/-- The search stays in the index. -/
theorem binarySearch_bounds (index : List IndexEntry) (key : Bytes) :
    (∀ i, binarySearch index key = .ok i → i < index.length) ∧
      ∀ i, binarySearch index key = .error i → i ≤ index.length := by
  unfold binarySearch
  split
  · refine ⟨fun i h => (by cases h), fun i h => ?_⟩
    cases h
    exact Nat.zero_le _
  · next hne =>
      have hpos : 1 ≤ index.length := List.length_pos_iff.mpr hne
      have hlt := searchLoop_lt index key index.length hpos (by omega : 0 + _ ≤ _)
      dsimp only
      split
      · refine ⟨fun i h => ?_, fun i h => (by cases h)⟩
        cases h
        exact hlt
      · refine ⟨fun i h => (by cases h), fun i h => ?_⟩
        cases h
        split <;> omega

end Search

/-- The cache holds blocks of fewer than `2 ^ 32` records, and the length of the file is a
`u64`. -/
structure Small (reader : SsTableReader) (cache : BlockCache) (w : World) : Prop where
  blocks : ∀ offset b, cache.get offset = some b → b.length < 2 ^ 32
  file : (w.vol.inodes reader.file).bytes.length < 2 ^ 64

/-- What LZ4 promises: a decompressed block is as long as the four bytes in front of it say. -/
def ShortBlocks (env : Env) : Prop :=
  ∀ comp raw, env.decompress comp = .ok raw → raw.length < 2 ^ 32

/-- The bounds of the calls on a reader.  A compressed block may be longer than the file, but
not longer than the four bytes of its length say. -/
abbrev Act.Served (fileLen : Nat) : Act → Prop := Act.Fine fileLen (2 ^ 32 - 1)

section Calls

variable {env : Env} {reader : SsTableReader} {cache cache' : BlockCache} {w w' : World}
variable {fileLen : Nat} {e : IndexEntry}

theorem length_decodeBlock {fuel pos : Nat} {raw : Bytes} {rs : List Record}
    (h : decodeBlock fuel raw pos = .ok rs) : rs.length ≤ fuel := by
  induction fuel generalizing pos rs with
  | zero =>
      cases h
      exact le_rfl
  | succ fuel ih =>
      unfold decodeBlock at h
      split at h
      · obtain ⟨⟨r, p⟩, _, h⟩ := bind_eq_ok h
        obtain ⟨rest, hrest, h⟩ := bind_eq_ok h
        cases h
        exact Nat.succ_le_succ (ih hrest)
      · cases h
        exact Nat.zero_le _

/-- A load keeps the cache small, and its block is small. -/
theorem Small.loadCached (hlz4 : ShortBlocks env) (h : Small reader cache w)
    {r : Except Error (List Record)}
    (hrun : reader.loadCached env e cache w = (r, cache', w')) :
    Small reader cache' w' ∧ ∀ b, r = .ok b → b.length < 2 ^ 32 := by
  unfold SsTableReader.loadCached at hrun
  rw [M.bind_ok (M.self_apply _ _)] at hrun
  cases hget : cache.get e.offset with
  | some block =>
      simp only [hget] at hrun
      cases hrun
      refine ⟨h, fun b hb => ?_⟩
      cases hb
      exact h.blocks _ _ hget
  | none =>
      simp only [hget] at hrun
      have hcache := Fixes.loadBlock Keeps.readAt env reader e cache w
      have hvol := Fixes.loadBlock (Fixes.readAt_vol (σ := BlockCache)) env reader e cache w
      rcases hload : reader.loadBlock env e cache w with ⟨_ | block, cache₁, w₁⟩
      · rw [M.bind_error hload] at hrun
        rw [hload] at hcache hvol
        cases hrun
        dsimp only at hcache hvol
        rw [hcache]
        exact ⟨⟨h.blocks, by rw [hvol]; exact h.file⟩, fun b hb => by cases hb⟩
      · rw [M.bind_ok hload, M.bind_ok (M.update_apply _ _ _)] at hrun
        rw [hload] at hcache hvol
        dsimp only at hcache hvol
        have hblock : block.length < 2 ^ 32 := by
          unfold SsTableReader.loadBlock at hload
          obtain ⟨comp, s₂, w₂, _, hload⟩ := ok_of_bind hload
          cases hraw : env.decompress comp with
          | error msg =>
              simp only [hraw] at hload
              cases hload
          | ok raw =>
              simp only [hraw] at hload
              exact lt_of_le_of_lt (length_decodeBlock (Prod.ext_iff.mp hload).1) (hlz4 _ _ hraw)
        cases hrun
        refine ⟨⟨fun offset b hb => ?_, by rw [hvol]; exact h.file⟩, fun b hb => ?_⟩
        · rcases BlockCache.get_put hb with ⟨_, rfl⟩ | hold
          · exact hblock
          · rw [hcache] at hold
            exact h.blocks _ _ hold
        · cases hb
          exact hblock

namespace Seen

/-- Loading a block that the index names. -/
theorem safe_loadCached (hr : SoundReader reader) (h : Small reader cache w)
    (he : e ∈ reader.index) :
    Safe (Act.Served fileLen) (loadCached env reader e) cache w := by
  obtain ⟨hoff, hcomp⟩ := hr.entries e he
  refine (safe_ofM_bind (M.self_apply cache w)).mpr ?_
  cases cache.get e.offset with
  | some block => exact safe_pure _
  | none =>
      refine safe_bind.mpr ⟨?_, fun _ _ _ _ =>
        safe_bind.mpr ⟨safe_ofM _, fun _ _ _ _ => safe_pure _⟩⟩
      refine safe_note_bind.mpr ⟨?_, ?_⟩
      · show e.compLen ≤ 2 ^ 32 - 1
        omega
      · refine safe_bind.mpr ⟨safe_readExactAt h.file hoff (by omega), fun comp _ _ _ => ?_⟩
        cases env.decompress comp with
        | error msg => exact safe_ofM _
        | ok raw => exact safe_decodeBlock _ _ _

/-- The probes of a filter stay in its bits. -/
theorem safe_probes {σ : Type} {s : σ} {f : BloomFilter} (hf : f.Sized) (key : Bytes)
    (is : List Nat) : Safe (Act.Served fileLen) (probes env f key is) s w := by
  induction is with
  | nil => exact safe_pure _
  | cons i is ih =>
      refine safe_note_bind.mpr ⟨hf.pos.ne', safe_note_bind.mpr ⟨?_, ?_⟩⟩
      · show BloomFilter.position env f.bitCount key i / 8 < f.bits.length
        rw [hf.bits]
        exact BloomFilter.position_lt env key i hf.pos
      · split
        · exact ih
        · exact safe_pure _

theorem safe_getIn (hr : SoundReader reader) (h : Small reader cache w) {i : Nat}
    (hi : i < reader.index.length) (key : Bytes) (seqBound : Nat) :
    Safe (Act.Served fileLen) (getIn env reader key seqBound i) cache w := by
  refine safe_note_bind.mpr ⟨hi, ?_⟩
  split
  · exact safe_pure _
  · next e he =>
      exact safe_bind.mpr ⟨safe_loadCached hr h (List.mem_of_getElem? he),
        fun _ _ _ _ => safe_pure _⟩

/-- A lookup stays within its bounds. -/
theorem safe_getAt (hr : SoundReader reader) (h : Small reader cache w) (key : Bytes)
    (seqBound : Nat) : Safe (Act.Served fileLen) (getAt env reader key seqBound) cache w := by
  unfold getAt
  split
  · exact safe_pure _
  · have hmay : Safe (Act.Served fileLen) (mayContain env reader key) cache w := by
      unfold mayContain
      split
      · exact safe_probes hr.bloom key _
      · exact safe_pure _
    refine (safe_bind_ok (congrFun (congrFun (erase_mayContain env reader key) cache) w)).mpr
      ⟨hmay, ?_⟩
    obtain ⟨hok, herror⟩ := binarySearch_bounds reader.index key
    split
    · exact safe_pure _
    · split
      · next i hi => exact safe_getIn hr h (hok i hi) key seqBound
      · exact safe_pure _
      · next i hi =>
          have hle := herror (i + 1) hi
          exact safe_note_bind.mpr ⟨Nat.le_add_left 1 i, safe_getIn hr h (by omega) key seqBound⟩

/-- `scan` itself subtracts only from a position behind the first block. -/
theorem safe_scan {σ : Type} {s : σ} (start : Option Bytes) :
    Safe (Act.Served fileLen) (scan reader start) s w := by
  refine safe_bind.mpr ⟨?_, fun _ _ _ _ => safe_pure _⟩
  cases start with
  | none =>
      rw [firstBlock]
      split
      · exact safe_pure _
      · exact safe_pure _
  | some key =>
      rw [firstBlock, blockBracketing]
      split
      · exact safe_pure _
      · split
        · exact safe_pure _
        · exact safe_pure _
        · next i _ => exact safe_note_bind.mpr ⟨Nat.le_add_left 1 i, safe_pure _⟩

/-- Reading the whole table stays within its bounds exactly when the record count does. -/
theorem iterAll_safe_iff (hlz4 : ShortBlocks env) (hr : SoundReader reader)
    (h : Small reader cache w) :
    Safe (Act.Served fileLen) (iterAll env reader) cache w ↔
      17 * reader.recordCount ≤ 255 * fileLen := by
  unfold iterAll
  rw [safe_note_bind]
  refine ⟨fun hsafe => hsafe.1, fun hcount => ⟨hcount, ?_⟩⟩
  refine safe_bind.mpr ⟨?_, fun _ _ _ _ => safe_pure _⟩
  refine safe_collect (Small reader) (fun e he cache w hsmall => ?_) h
  refine ⟨safe_loadCached hr hsmall he, ?_⟩
  rw [erase_loadCached]
  exact (hsmall.loadCached hlz4 rfl).1

end Seen

/-- A walk whose block is in the index, and whose loaded block is small. -/
structure CursorIn (reader : SsTableReader) (cursor : TableCursor) : Prop where
  block : cursor.block ≤ reader.index.length
  loaded : ∀ records, cursor.loaded = some records →
    cursor.block < reader.index.length ∧ records.length < 2 ^ 32

theorem cursorIn_startCursor (reader : SsTableReader) (start : Option Bytes) :
    CursorIn reader (Seen.startCursor reader start) := by
  refine ⟨?_, fun records h => by cases h⟩
  cases start with
  | none =>
      show Option.getD (if reader.index = [] then none else some 0) _ ≤ _
      split
      · exact le_rfl
      · exact Nat.zero_le _
  | some key =>
      obtain ⟨hok, herror⟩ := binarySearch_bounds reader.index key
      show (reader.blockBracketing key).getD _ ≤ _
      unfold SsTableReader.blockBracketing
      split
      · exact le_rfl
      · split
        · next i hi => exact (hok i hi).le
        · exact Nat.zero_le _
        · next i hi => exact (Nat.le_succ i).trans (herror (i + 1) hi)

namespace Seen

theorem safe_nextIn {σ : Type} {s : σ} (start : Option Bytes) {records l : List Record} {pos : Nat}
    (hsmall : records.length < 2 ^ 32) (hl : records.drop pos = l) :
    Safe (Act.Served fileLen) (nextIn start pos l) s w := by
  induction l generalizing pos with
  | nil => exact safe_pure _
  | cons r rs ih =>
      have hlt : pos < records.length := by
        by_contra hge
        rw [List.drop_eq_nil_of_le (by omega)] at hl
        cases hl
      refine safe_note_bind.mpr ⟨?_, ?_⟩
      · show pos + 1 < 2 ^ 64
        omega
      · split
        · refine ih ?_
          rw [← List.tail_drop, hl]
          rfl
        · exact safe_pure _

/-- The turns of a walk from a block on: within their bounds, and the walk stays in the index. -/
theorem safe_nextBlock (hlz4 : ShortBlocks env) (hr : SoundReader reader)
    (h : Small reader cache w) {block pos : Nat} {ahead : List IndexEntry} {start : Option Bytes}
    (hblock : block ≤ reader.index.length) (hahead : reader.index.drop block = ahead) :
    Safe (Act.Served fileLen)
        (nextBlock (loadCached env reader) reader.index.length block ahead pos start) cache w ∧
      ∀ r cache' w', (nextBlock (loadCached env reader) reader.index.length block ahead pos
          start).erase cache w = (r, cache', w') →
        Small reader cache' w' ∧
          ∀ item cursor, r = .ok (item, cursor) → CursorIn reader cursor := by
  induction ahead generalizing cache w block pos start with
  | nil =>
      refine ⟨safe_pure _, fun r cache' w' hrun => ?_⟩
      cases hrun
      refine ⟨h, fun item cursor hr => ?_⟩
      cases hr
      exact ⟨hblock, fun records hl => by cases hl⟩
  | cons e ahead ih =>
      have hlt : block < reader.index.length := by
        by_contra hge
        rw [List.drop_eq_nil_of_le (by omega)] at hahead
        cases hahead
      have he : e ∈ reader.index := List.mem_of_mem_drop (by rw [hahead]; exact List.mem_cons_self)
      have hrest : reader.index.drop (block + 1) = ahead := by
        rw [← List.tail_drop, hahead]
        rfl
      rcases hload : reader.loadCached env e cache w with ⟨loaded, cache₁, w₁⟩
      obtain ⟨hsmall, hrecords⟩ := h.loadCached hlz4 hload
      have hattempt : (attempt (loadCached env reader e)).erase cache w =
          (.ok loaded, cache₁, w₁) := by
        rw [erase_attempt, erase_loadCached, M.attempt_eq hload]
      rw [nextBlock, safe_bind_ok hattempt, safe_attempt, erase_bind,
        and_iff_right (safe_loadCached hr h he)]
      rw [M.bind_ok hattempt]
      cases loaded with
      | error err =>
          refine ⟨safe_pure _, fun r cache' w' hrun => ?_⟩
          cases hrun
          refine ⟨hsmall, fun item cursor hr => ?_⟩
          cases hr
          exact ⟨le_rfl, fun records hl => by cases hl⟩
      | ok records =>
          have hlen := hrecords records rfl
          obtain ⟨out, hout, -, -⟩ := erase_nextIn (σ := BlockCache) start
            (List.drop_zero (l := records))
          have hin := congrFun (congrFun hout cache₁) w₁
          dsimp only
          rw [safe_bind_ok hin, erase_bind, and_iff_right (safe_nextIn start hlen List.drop_zero)]
          rw [M.bind_ok hin]
          cases out with
          | some o =>
              refine ⟨safe_pure _, fun r cache' w' hrun => ?_⟩
              cases hrun
              refine ⟨hsmall, fun item cursor hr => ?_⟩
              cases hr
              refine ⟨hlt.le, fun records' hl => ?_⟩
              cases hl
              exact ⟨hlt, hlen⟩
          | none =>
              have hadd : (Act.add block 1).Served fileLen := by
                show block + 1 < 2 ^ 64
                have hfew := hr.few
                omega
              dsimp only
              rw [safe_note_bind, and_iff_right hadd, erase_note_bind]
              exact ih hsmall hlt hrest

/-- One call of `next`: within its bounds, and the walk stays in the index. -/
theorem safe_next (hlz4 : ShortBlocks env) (hr : SoundReader reader) (h : Small reader cache w)
    {cursor : TableCursor} (hplaced : CursorIn reader cursor) :
    Safe (Act.Served fileLen) (next env reader cursor) cache w ∧
      ∀ r cache' w', (next env reader cursor).erase cache w = (r, cache', w') →
        Small reader cache' w' ∧ ∀ item cursor', r = .ok (item, cursor') →
          CursorIn reader cursor' := by
  obtain ⟨block, loaded, pos, start⟩ := cursor
  cases loaded with
  | none => exact safe_nextBlock hlz4 hr h hplaced.block rfl
  | some records =>
      obtain ⟨hlt, hlen⟩ : block < reader.index.length ∧ records.length < 2 ^ 32 :=
        hplaced.loaded records rfl
      obtain ⟨out, hout, -, -⟩ := erase_nextIn (σ := BlockCache) start
        (rfl : records.drop pos = records.drop pos)
      have hin := congrFun (congrFun hout cache) w
      unfold next
      dsimp only
      rw [safe_bind_ok hin, erase_bind, and_iff_right (safe_nextIn start hlen rfl)]
      rw [M.bind_ok hin]
      cases out with
      | some o =>
          refine ⟨safe_pure _, fun r cache' w' hrun => ?_⟩
          cases hrun
          refine ⟨h, fun item cursor hr => ?_⟩
          cases hr
          refine ⟨hlt.le, fun records' hl => ?_⟩
          cases hl
          exact ⟨hlt, hlen⟩
      | none =>
          have hadd : (Act.add block 1).Served fileLen := by
            show block + 1 < 2 ^ 64
            have hfew := hr.few
            omega
          dsimp only
          rw [safe_note_bind, and_iff_right hadd, erase_note_bind]
          exact safe_nextBlock hlz4 hr h hlt rfl

end Seen

theorem Small.getAt (hlz4 : ShortBlocks env) (h : Small reader cache w) (key : Bytes)
    (seqBound : Nat) {r : Except Error (Option Record)}
    (hrun : reader.getAtBy env (reader.loadCached env) key seqBound cache w = (r, cache', w')) :
    Small reader cache' w' := by
  unfold SsTableReader.getAtBy at hrun
  split at hrun
  · cases hrun
    exact h
  · split at hrun
    · cases hrun
      exact h
    · dsimp only at hrun
      split at hrun
      · cases hrun
        exact h
      · next e _ =>
          rcases hload : reader.loadCached env e cache w with ⟨_ | block, cache₁, w₁⟩
          · rw [M.bind_error hload] at hrun
            cases hrun
            exact (h.loadCached hlz4 hload).1
          · rw [M.bind_ok hload] at hrun
            cases hrun
            exact (h.loadCached hlz4 hload).1

theorem Small.collect (hlz4 : ShortBlocks env) (h : Small reader cache w) {es : List IndexEntry}
    {r : Except Error (List (List Record))}
    (hrun : M.collect (reader.loadCached env) es cache w = (r, cache', w')) :
    Small reader cache' w' := by
  induction es generalizing cache w r with
  | nil =>
      cases hrun
      exact h
  | cons e es ih =>
      rw [M.collect_cons] at hrun
      rcases hload : reader.loadCached env e cache w with ⟨_ | block, cache₁, w₁⟩
      · rw [M.bind_error hload] at hrun
        cases hrun
        exact (h.loadCached hlz4 hload).1
      · rw [M.bind_ok hload] at hrun
        rcases hrest : M.collect (reader.loadCached env) es cache₁ w₁ with ⟨_ | blocks, cache₂, w₂⟩
        · rw [M.bind_error hrest] at hrun
          cases hrun
          exact ih (h.loadCached hlz4 hload).1 hrest
        · rw [M.bind_ok hrest] at hrun
          cases hrun
          exact ih (h.loadCached hlz4 hload).1 hrest

/-- What calls on a reader lead to, from the world it was opened in: any number of lookups,
walks, calls of `next` of several walks, and readings of the whole table, in any order. -/
inductive Calls (env : Env) (reader : SsTableReader) (w₀ : World) :
    BlockCache → List TableCursor → World → Prop
  | opened : Calls env reader w₀ BlockCache.new [] w₀
  | get {cache cache' : BlockCache} {cursors : List TableCursor} {w w' : World} {key : Bytes}
      {seqBound : Nat} {r : Except Error (Option Record)} (h : Calls env reader w₀ cache cursors w)
      (hget : reader.getAtBy env (reader.loadCached env) key seqBound cache w = (r, cache', w')) :
      Calls env reader w₀ cache' cursors w'
  | all {cache cache' : BlockCache} {cursors : List TableCursor} {w w' : World}
      {r : Except Error (List Record)} (h : Calls env reader w₀ cache cursors w)
      (hall : reader.iterAllBy (reader.loadCached env) cache w = (r, cache', w')) :
      Calls env reader w₀ cache' cursors w'
  | scan {cache : BlockCache} {cursors : List TableCursor} {w : World} (start : Option Bytes)
      (h : Calls env reader w₀ cache cursors w) :
      Calls env reader w₀ cache (Seen.startCursor reader start :: cursors) w
  | next {cache cache' : BlockCache} {before behind : List TableCursor} {cursor : TableCursor}
      {w w' : World} {item : Option (Except Error Record)} {cursor' : TableCursor}
      (h : Calls env reader w₀ cache (before ++ cursor :: behind) w)
      (hnext : (Seen.next env reader cursor).erase cache w = (.ok (item, cursor'), cache', w')) :
      Calls env reader w₀ cache' (before ++ cursor' :: behind) w'

/-- Every state that calls lead to is small, and all its walks are in the index. -/
theorem Calls.small {w₀ : World} {cursors : List TableCursor} (hlz4 : ShortBlocks env)
    (hr : SoundReader reader) (hfile : (w₀.vol.inodes reader.file).bytes.length < 2 ^ 64)
    (h : Calls env reader w₀ cache cursors w) :
    Small reader cache w ∧ ∀ cursor ∈ cursors, CursorIn reader cursor := by
  induction h with
  | opened => exact ⟨⟨fun _ _ hb => (by cases hb), hfile⟩, by simp⟩
  | get _ hget ih => exact ⟨ih.1.getAt hlz4 _ _ hget, ih.2⟩
  | @all cache cache' cursors w w' r _ hall ih =>
      refine ⟨?_, ih.2⟩
      unfold SsTableReader.iterAllBy at hall
      rcases hrest : M.collect (reader.loadCached env) reader.index cache w with
        ⟨_ | blocks, cache₂, w₂⟩
      · rw [M.bind_error hrest] at hall
        cases hall
        exact ih.1.collect hlz4 hrest
      · rw [M.bind_ok hrest] at hall
        cases hall
        exact ih.1.collect hlz4 hrest
  | scan start _ ih =>
      refine ⟨ih.1, fun cursor hc => ?_⟩
      rcases List.mem_cons.mp hc with rfl | hc
      · exact cursorIn_startCursor reader start
      · exact ih.2 cursor hc
  | @next cache cache' before behind cursor w _ _ _ _ hnext ih =>
      have hstep : Safe (Act.Served 0) (Seen.next env reader cursor) cache w ∧ _ :=
        Seen.safe_next hlz4 hr ih.1 (ih.2 cursor (by simp))
      obtain ⟨hsmall, hplaced⟩ := hstep.2 _ _ _ hnext
      refine ⟨hsmall, fun cursor hc => ?_⟩
      rcases List.mem_append.mp hc with hc | hc
      · exact ih.2 cursor (by simp [hc])
      · rcases List.mem_cons.mp hc with rfl | hc
        · exact hplaced _ _ rfl
        · exact ih.2 cursor (by simp [hc])

end Calls

/-- A store of literals keeps LZ4's promise. -/
theorem shortBlocks_stock : ShortBlocks Stock.env := by
  intro comp raw h
  have hraw : Stock.unstore comp = .ok raw := h
  unfold Stock.unstore at hraw
  dsimp only at hraw
  split at hraw
  · next hle =>
      cases hraw
      have hlt := ofLe_take_lt comp 4
      rw [List.length_drop]
      omega
  · cases hraw

/-- The path of a table file. -/
def tableFile : Path := ⟨"", .sst 0⟩

/-- A world with one file, a table file of these bytes. -/
def withTable (bytes : Bytes) : World :=
  World.start ((Volume.empty.truncateAt tableFile).append (Volume.empty.inodeAt tableFile) bytes)

theorem bound_withTable (bytes : Bytes) :
    (withTable bytes).vol.Bound tableFile (Volume.empty.inodeAt tableFile) bytes 0 :=
  (Volume.bound_truncateAt Volume.empty tableFile).append bytes

/-- A filter of one bit, and a footer over it with these fields. -/
def bareTable (indexEntries bloomOffset bloomLen recordCount : Nat) : Bytes :=
  BloomFilter.encode ⟨[0], 1, 1⟩ ++
    (footerParts 0 indexEntries bloomOffset bloomLen recordCount).flatten

theorem length_bareTable (indexEntries bloomOffset bloomLen recordCount : Nat) :
    (bareTable indexEntries bloomOffset bloomLen recordCount).length = 57 := by
  simp [bareTable, footerParts, BloomFilter.encode, tableMagic]

theorem exists_of_isOk {σ α : Type} {m : M σ α} {s : σ} {w : World}
    (h : (m s w).1.isOk = true) : ∃ a s' w', m s w = (.ok a, s', w') := by
  generalize m s w = out at h ⊢
  obtain ⟨_ | a, s', w'⟩ := out
  · cases h
  · exact ⟨a, s', w', rfl⟩

/-- A table of one record, with a length field of its block overwritten. -/
def damagedTable : Bytes := (tableBytes Stock.env [Record.put [1] [2] 0]).set 20 77

end LsmKv
