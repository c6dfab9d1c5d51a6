import LsmKv.Runs

/-!
# The layout of a table file

`cutBlocks` says which records go into which block; the builder of the source
computes exactly those blocks, their compressed bytes and their index.

**Results.**
* `buildTable_eq`: the builder in terms of the blocks.
* `flatten_cutBlocks`, `separated_cutBlocks`: no record is lost, and the
  versions of a key are never split over two blocks.
* `tableBytes_eq`: the file as data, index, filter and footer.
* `readIndex_indexBytes`, `decodeBlock_raw`: index and blocks are read back.
-/

namespace LsmKv

open Foundation

/-- The blocks the records are cut into; `cur` is the block being filled. -/
def cutBlocks : List Record → List Record → List (List Record)
  | cur, [] => if cur = [] then [] else [cur]
  | cur, r :: rs =>
      if ((cur ++ [r]).flatMap Record.encode).length ≥ blockSize ∧
          rs.head?.all (fun n => n.key ≠ r.key) then
        (cur ++ [r]) :: cutBlocks [] rs
      else cutBlocks (cur ++ [r]) rs

/-- The blocks of a table. -/
def tableBlocks (records : List Record) : List (List Record) := cutBlocks [] records

/-- The bytes of a block before compression. -/
def rawBlock (block : List Record) : Bytes := block.flatMap Record.encode

/-- The bytes of a block in the file. -/
def compBlock (env : Env) (block : List Record) : Bytes := env.compress (rawBlock block)

/-- The first key of a block. -/
def headKey (block : List Record) : Bytes := (block.head?.map Record.key).getD []

/-- The index of blocks that stand in the file from `base` on. -/
def indexFrom (env : Env) : Nat → List (List Record) → List IndexEntry
  | _, [] => []
  | base, b :: bs =>
      ⟨headKey b, base, (compBlock env b).length % 2 ^ 32⟩ ::
        indexFrom env (base + (compBlock env b).length) bs

/-- The data part of a table. -/
def dataBytes (env : Env) (blocks : List (List Record)) : Bytes := blocks.flatMap (compBlock env)

/-- The bytes of an index. -/
def indexBytes (index : List IndexEntry) : Bytes := index.flatMap (fun e => e.parts.flatten)

section Build

variable (env : Env) (done : List (List Record)) (cur : List Record)

/-- The builder with the blocks `done` written and the block `cur` begun. -/
def buildState : TableBuild :=
  ⟨done.map (compBlock env), (dataBytes env done).length, indexFrom env 0 done, rawBlock cur,
    headKey cur⟩

theorem rawBlock_eq_nil_iff {cur : List Record} : rawBlock cur = [] ↔ cur = [] := by
  cases cur with
  | nil => simp [rawBlock]
  | cons r rs =>
      have : r.encode ≠ [] := by
        intro h
        have := r.length_encode
        rw [h, Record.encodedLen, List.length_nil] at this
        omega
      simp [rawBlock, this]

theorem headKey_append {cur : List Record} (h : cur ≠ []) (rs : List Record) :
    headKey (cur ++ rs) = headKey cur := by
  cases cur with
  | nil => exact absurd rfl h
  | cons r l => rfl

theorem indexFrom_append (base : Nat) (bs bs' : List (List Record)) :
    indexFrom env base (bs ++ bs') =
      indexFrom env base bs ++ indexFrom env (base + (dataBytes env bs).length) bs' := by
  induction bs generalizing base with
  | nil => simp [indexFrom, dataBytes]
  | cons b bs ih =>
      rw [List.cons_append, indexFrom, indexFrom, ih, List.cons_append]
      simp only [dataBytes, List.flatMap_cons, List.length_append, Nat.add_assoc]

theorem flushBlock_buildState (h : cur ≠ []) :
    (buildState env done cur).flushBlock env = buildState env (done ++ [cur]) [] := by
  have hraw : rawBlock cur ≠ [] := fun h' => h (rawBlock_eq_nil_iff.mp h')
  unfold TableBuild.flushBlock
  rw [if_neg (show (buildState env done cur).block ≠ [] from hraw)]
  simp [buildState, indexFrom_append, indexFrom, dataBytes, compBlock, rawBlock, headKey]

theorem flushBlock_buildState_nil :
    (buildState env done []).flushBlock env = buildState env done [] := by
  unfold TableBuild.flushBlock
  exact if_pos rfl

theorem addRecord_buildState (r : Record) (next : Option Record) :
    (buildState env done cur).addRecord env r next =
      if (rawBlock (cur ++ [r])).length ≥ blockSize ∧ next.all (fun n => n.key ≠ r.key) then
        buildState env (done ++ [cur ++ [r]]) []
      else buildState env done (cur ++ [r]) := by
  have hstep : { buildState env done cur with
      block := (buildState env done cur).block ++ r.encode
      firstKey := if (buildState env done cur).block = [] then r.key
        else (buildState env done cur).firstKey } = buildState env done (cur ++ [r]) := by
    by_cases h : cur = []
    · subst h
      simp [buildState, rawBlock, headKey]
    · have hraw : rawBlock cur ≠ [] := fun h' => h (rawBlock_eq_nil_iff.mp h')
      simp only [buildState, hraw, if_false, headKey_append h]
      simp [rawBlock]
  unfold TableBuild.addRecord
  simp only [hstep]
  rw [flushBlock_buildState env done (cur ++ [r]) (by simp)]
  have hraw : (buildState env done cur).block ++ r.encode = rawBlock (cur ++ [r]) := by
    simp [buildState, rawBlock]
  rw [hraw]

theorem addAll_buildState (rs : List Record) :
    (TableBuild.addAll env rs (buildState env done cur)).flushBlock env =
      buildState env (done ++ cutBlocks cur rs) [] := by
  induction rs generalizing done cur with
  | nil =>
      by_cases h : cur = []
      · subst h
        simp only [TableBuild.addAll, cutBlocks, if_true, List.append_nil]
        exact flushBlock_buildState_nil env done
      · simp only [TableBuild.addAll, cutBlocks, h, if_false]
        exact flushBlock_buildState env done cur h
  | cons r rs ih =>
      unfold TableBuild.addAll cutBlocks
      rw [addRecord_buildState]
      unfold rawBlock
      split_ifs with hfull
      · rw [ih, List.append_assoc, List.singleton_append]
      · rw [ih]

/-- The builder of the source computes the blocks. -/
theorem buildTable_eq (records : List Record) :
    buildTable env records = buildState env (tableBlocks records) [] := by
  have h := addAll_buildState env [] [] records
  rw [List.nil_append] at h
  exact h

end Build

section Cut

variable {cur rs : List Record}

theorem flatten_cutBlocks (cur rs : List Record) : (cutBlocks cur rs).flatten = cur ++ rs := by
  induction rs generalizing cur with
  | nil =>
      unfold cutBlocks
      split_ifs with h
      · simp [h]
      · simp
  | cons r rs ih =>
      unfold cutBlocks
      split_ifs
      · rw [List.flatten_cons, ih]
        simp
      · rw [ih]
        simp

/-- Every record of a table is in its blocks, in order. -/
theorem flatten_tableBlocks (records : List Record) : (tableBlocks records).flatten = records :=
  flatten_cutBlocks [] records

theorem ne_nil_of_mem_cutBlocks {b : List Record} (h : b ∈ cutBlocks cur rs) : b ≠ [] := by
  induction rs generalizing cur with
  | nil =>
      unfold cutBlocks at h
      split_ifs at h with hc
      · simp at h
      · rw [List.mem_singleton] at h
        rw [h]
        exact hc
  | cons r rs ih =>
      unfold cutBlocks at h
      split_ifs at h
      · rcases List.mem_cons.mp h with rfl | h
        · simp
        · exact ih h
      · exact ih h

/-- Blocks with keys that go up from one to the next. -/
def Separated (blocks : List (List Record)) : Prop :=
  blocks.Pairwise (fun a b => ∀ x ∈ a, ∀ y ∈ b, x.key < y.key)

/-- The versions of a key are never split over two blocks. -/
theorem separated_cutBlocks (hs : SortedRun (cur ++ rs)) : Separated (cutBlocks cur rs) := by
  induction rs generalizing cur with
  | nil =>
      unfold cutBlocks
      split_ifs
      · exact List.Pairwise.nil
      · exact List.pairwise_singleton _ _
  | cons r rs ih =>
      have hs' : SortedRun ((cur ++ [r]) ++ rs) := by
        rw [List.append_assoc]
        exact hs
      unfold cutBlocks
      split_ifs with hfull
      · have hparts := List.pairwise_append.mp hs'
        refine List.pairwise_cons.mpr ⟨?_, ih hparts.2.1⟩
        intro b hb x hx y hy
        have hymem : y ∈ rs := by
          have : y ∈ (cutBlocks [] rs).flatten := List.mem_flatten.mpr ⟨b, hb, hy⟩
          rw [flatten_cutBlocks] at this
          simpa using this
        -- the record behind the cut has another key, and all later ones follow it
        cases rs with
        | nil => simp at hymem
        | cons n rest =>
            have hne : n.key ≠ r.key := by simpa using hfull.2
            have hxr : x.key ≤ r.key := by
              rcases List.mem_append.mp hx with hx | hx
              · exact key_le_of_version_le
                  ((List.pairwise_append.mp hparts.1).2.2 x hx r (by simp))
              · rw [List.mem_singleton.mp hx]
            have hrn : r.key ≤ n.key := key_le_of_version_le (hparts.2.2 r (by simp) n (by simp))
            have hny : n.key ≤ y.key := by
              rcases List.mem_cons.mp hymem with rfl | hy
              · exact le_refl _
              · exact key_le_of_version_le ((List.pairwise_cons.mp hparts.2.1).1 y hy)
            exact lt_of_le_of_lt hxr (lt_of_lt_of_le (lt_of_le_of_ne hrn (Ne.symm hne)) hny)
      · exact ih hs'

end Cut

section File

variable (env : Env)

theorem length_parts (e : IndexEntry) :
    e.parts.flatten.length = 4 + e.firstKey.length + 8 + 4 := by
  simp [IndexEntry.parts]
  omega

theorem bloomOffset_eq (index : List IndexEntry) (o : Nat) :
    index.foldl (fun o e => o + (4 + e.firstKey.length + 8 + 4)) o =
      o + (indexBytes index).length := by
  induction index generalizing o with
  | nil => simp [indexBytes]
  | cons e es ih =>
      rw [List.foldl_cons, ih]
      simp only [indexBytes, List.flatMap_cons, List.length_append, length_parts]
      omega

/-- The index of a table. -/
def tableIndex (records : List Record) : List IndexEntry := indexFrom env 0 (tableBlocks records)

/-- Where the index of a table starts. -/
def indexStart (records : List Record) : Nat := (dataBytes env (tableBlocks records)).length

/-- Where the filter of a table starts. -/
def bloomStart (records : List Record) : Nat :=
  indexStart env records + (indexBytes (tableIndex env records)).length

/-- The footer of a table. -/
def footerBytes (records : List Record) : Bytes :=
  (footerParts (indexStart env records) (tableIndex env records).length (bloomStart env records)
    (buildBloom env records).encode.length records.length).flatten

theorem flatten_flatMap_parts (index : List IndexEntry) :
    (index.flatMap IndexEntry.parts).flatten = indexBytes index := by
  induction index with
  | nil => rfl
  | cons e es ih => simp [indexBytes] at ih ⊢; rw [ih]

/-- A table file: data, index, filter, footer. -/
theorem tableBytes_eq (records : List Record) :
    tableBytes env records =
      dataBytes env (tableBlocks records) ++ indexBytes (tableIndex env records) ++
        (buildBloom env records).encode ++ footerBytes env records := by
  unfold tableBytes tableParts
  simp only [buildTable_eq, buildState, bloomOffset_eq, List.flatten_append,
    flatten_flatMap_parts]
  simp [footerBytes, bloomStart, indexStart, tableIndex, dataBytes, List.flatMap]

@[simp] theorem length_footerBytes (records : List Record) :
    (footerBytes env records).length = footerLen := by
  simp [footerBytes, footerParts, tableMagic, footerLen]

theorem length_tableBytes (records : List Record) :
    (tableBytes env records).length =
      bloomStart env records + (buildBloom env records).encode.length + footerLen := by
  rw [tableBytes_eq]
  simp only [List.length_append, length_footerBytes, bloomStart, indexStart]

end File

section ReadBack

theorem readIndexUint_of_drop {w n pos : Nat} {buf rest : Bytes} (hn : n < 256 ^ w)
    (hpos : pos ≤ buf.length) (hd : buf.drop pos = le w n ++ rest) :
    readIndexUint w buf pos = .ok (n, pos + w) := by
  have h := readBytes_of_drop "sstable index truncated" hpos hd
  rw [length_le] at h
  unfold readIndexUint readIndexBytes
  rw [h]
  simp [bind, Except.bind, pure, Except.pure, ofLe_le hn]

/-- An entry whose parts fit their fields. -/
structure IndexEntry.Fits (e : IndexEntry) : Prop where
  key : e.firstKey.length < 2 ^ 32
  offset : e.offset < 2 ^ 64
  comp : e.compLen < 2 ^ 32

/-- Index entries in front of the cursor are read back. -/
theorem readIndex_of_drop {index : List IndexEntry} (hfits : ∀ e ∈ index, e.Fits)
    (rest : Bytes) {buf : Bytes} {pos : Nat} (hpos : pos ≤ buf.length)
    (hd : buf.drop pos = indexBytes index ++ rest) :
    readIndex index.length buf pos = .ok index := by
  induction index generalizing pos with
  | nil => rfl
  | cons e es ih =>
      have he := hfits e (by simp)
      have hk : e.firstKey.length < 256 ^ 4 := by have := he.key; norm_num at this ⊢; omega
      have ho : e.offset < 256 ^ 8 := by have := he.offset; norm_num at this ⊢; omega
      have hc : e.compLen < 256 ^ 4 := by have := he.comp; norm_num at this ⊢; omega
      have hd1 : buf.drop pos = le 4 e.firstKey.length ++ (e.firstKey ++ (le 8 e.offset ++
          (le 4 e.compLen ++ (indexBytes es ++ rest)))) := by
        rw [hd]
        simp [indexBytes, IndexEntry.parts]
      -- one cursor fact per field
      have d2 := drop_behind hd1
      have p2 := behind_le hpos hd1
      have d3 := drop_behind d2
      have p3 := behind_le p2 d2
      have d4 := drop_behind d3
      have p4 := behind_le p3 d3
      have d5 := drop_behind d4
      have p5 := behind_le p4 d4
      simp only [length_le] at d2 p2 d3 p3 d4 p4 d5 p5
      have f2 := readBytes_of_drop "sstable index truncated" p2 d2
      have hrest := ih (fun e' he' => hfits e' (List.mem_cons_of_mem _ he')) p5 d5
      rw [List.length_cons]
      unfold readIndex readIndexBytes
      rw [readIndexUint_of_drop hk hpos hd1]
      simp only [bind, Except.bind, pure, Except.pure]
      rw [f2]
      simp only
      rw [readIndexUint_of_drop ho p3 d3]
      simp only
      rw [readIndexUint_of_drop hc p4 d4]
      simp only
      rw [hrest]

/-- Records in front of the cursor are read back to the end of the block. -/
theorem decodeBlock_of_drop {block : List Record} (hfits : ∀ r ∈ block, r.Fits) {raw : Bytes}
    {pos fuel : Nat} (hpos : pos ≤ raw.length) (hd : raw.drop pos = rawBlock block)
    (hfuel : block.length ≤ fuel) : decodeBlock fuel raw pos = .ok block := by
  induction block generalizing pos fuel with
  | nil =>
      have hend : raw.length ≤ pos := by
        have : (raw.drop pos).length = 0 := by rw [hd]; rfl
        rw [List.length_drop] at this
        omega
      cases fuel with
      | zero => rfl
      | succ fuel =>
          unfold decodeBlock
          rw [if_neg (by omega)]
  | cons r rs ih =>
      have hd' : raw.drop pos = r.encode ++ rawBlock rs := by rw [hd]; rfl
      have hr := Record.decodeAt_of_drop (hfits r (by simp)) hpos hd'
      have d1 := drop_behind hd'
      have p1 := behind_le hpos hd'
      rw [Record.length_encode] at d1 p1
      cases fuel with
      | zero => simp at hfuel
      | succ fuel =>
          have hlt : pos < raw.length := by
            have : 0 < r.encodedLen := by unfold Record.encodedLen; omega
            omega
          have hrest := ih (fun r' h => hfits r' (List.mem_cons_of_mem _ h)) p1 d1
            (by rw [List.length_cons] at hfuel; omega : rs.length ≤ fuel)
          unfold decodeBlock
          rw [if_pos hlt, hr]
          simp only [bind, Except.bind, pure, Except.pure]
          rw [hrest]

theorem length_le_length_rawBlock (block : List Record) :
    block.length ≤ (rawBlock block).length := by
  induction block with
  | nil => simp
  | cons r rs ih =>
      have : 0 < r.encodedLen := by unfold Record.encodedLen; omega
      simp only [rawBlock, List.flatMap_cons, List.length_append, List.length_cons,
        Record.length_encode] at ih ⊢
      omega

/-- A block is read back. -/
theorem decodeBlock_raw {block : List Record} (hfits : ∀ r ∈ block, r.Fits) :
    decodeBlock (rawBlock block).length (rawBlock block) 0 = .ok block :=
  decodeBlock_of_drop hfits (Nat.zero_le _) rfl (length_le_length_rawBlock block)

end ReadBack

end LsmKv
