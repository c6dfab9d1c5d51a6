import LsmKv.FsQuiet
import LsmKv.SsTableLayout

/-!
# Reading a table back

A table file that was written whole is opened, searched and walked as the run
of records it was written from.

**Results.**
* `openTable_eq`: the reader of a written table.
* `getAt_eq`: its lookup is the search of the run, whatever the filter says.
* `scan_eq`, `iterAll_eq`: its walks yield the run.
* `SsTableWriter.write_quiet`: what the writer leaves in the volume.
-/

namespace LsmKv

open Foundation

/-- Records whose table stays within the fields of the format. -/
structure TableFits (env : Env) (records : List Record) : Prop where
  each : ∀ r ∈ records, r.Fits
  blocks : ∀ b ∈ tableBlocks records,
    (rawBlock b).length < 2 ^ 32 ∧ (compBlock env b).length < 2 ^ 32
  entries : (tableBlocks records).length < 2 ^ 32
  file : (tableBytes env records).length < 2 ^ 64

instance (env : Env) (records : List Record) : Decidable (TableFits env records) :=
  decidable_of_iff ((∀ r ∈ records, r.Fits) ∧
      (∀ b ∈ tableBlocks records,
        (rawBlock b).length < 2 ^ 32 ∧ (compBlock env b).length < 2 ^ 32) ∧
      (tableBlocks records).length < 2 ^ 32 ∧ (tableBytes env records).length < 2 ^ 64)
    ⟨fun h => ⟨h.1, h.2.1, h.2.2.1, h.2.2.2⟩,
      fun h => ⟨h.each, h.blocks, h.entries, h.file⟩⟩

/-- The reader of a table. -/
def readerOf (env : Env) (path : Path) (i : Nat) (bloomEnabled : Bool) (records : List Record) :
    SsTableReader where
  file := i
  path := path
  index := tableIndex env records
  bloom := buildBloom env records
  bloomEnabled := bloomEnabled
  recordCount := records.length % 2 ^ 64

section Index

variable (env : Env)

@[simp] theorem length_indexFrom (base : Nat) (blocks : List (List Record)) :
    (indexFrom env base blocks).length = blocks.length := by
  induction blocks generalizing base with
  | nil => rfl
  | cons b bs ih => rw [indexFrom, List.length_cons, ih, List.length_cons]

theorem drop_indexFrom (blocks : List (List Record)) (i : Nat) :
    (indexFrom env 0 blocks).drop i =
      indexFrom env (dataBytes env (blocks.take i)).length (blocks.drop i) := by
  by_cases hi : i ≤ blocks.length
  · have h := indexFrom_append env 0 (blocks.take i) (blocks.drop i)
    rw [List.take_append_drop, Nat.zero_add] at h
    rw [h, List.drop_left']
    rw [length_indexFrom, List.length_take]
    omega
  · rw [List.drop_eq_nil_of_le (by rw [length_indexFrom]; omega),
      List.drop_eq_nil_of_le (by omega)]
    rfl

theorem map_firstKey_indexFrom (base : Nat) (blocks : List (List Record)) :
    (indexFrom env base blocks).map IndexEntry.firstKey = blocks.map headKey := by
  induction blocks generalizing base with
  | nil => rfl
  | cons b bs ih => rw [indexFrom, List.map_cons, ih, List.map_cons]

theorem headKey_mem {b : List Record} (h : b ≠ []) : ∃ r ∈ b, r.key = headKey b := by
  cases b with
  | nil => exact absurd rfl h
  | cons r rs => exact ⟨r, by simp, rfl⟩

variable {env}

theorem indexEntry_fits {blocks : List (List Record)} {base : Nat}
    (hne : ∀ b ∈ blocks, b ≠ []) (hkeys : ∀ b ∈ blocks, ∀ r ∈ b, r.Fits)
    (hend : base + (dataBytes env blocks).length < 2 ^ 64) :
    ∀ e ∈ indexFrom env base blocks, e.Fits := by
  induction blocks generalizing base with
  | nil => simp [indexFrom]
  | cons b bs ih =>
      simp only [dataBytes, List.flatMap_cons, List.length_append] at hend
      intro e he
      rcases List.mem_cons.mp he with rfl | he
      · obtain ⟨r, hr, hk⟩ := headKey_mem (hne b (by simp))
        exact ⟨by rw [← hk]; exact (hkeys b (by simp) r hr).key, by dsimp only; omega,
          Nat.mod_lt _ (by norm_num)⟩
      · exact ih (fun b' h => hne b' (List.mem_cons_of_mem _ h))
          (fun b' h => hkeys b' (List.mem_cons_of_mem _ h))
          (by simp only [dataBytes]; omega) e he

end Index

section Search

variable {index : List IndexEntry} {key : Bytes}

/-- The first key of entry `j`, as the search reads it. -/
def firstAt (index : List IndexEntry) (j : Nat) : Bytes :=
  (index[j]?.map IndexEntry.firstKey).getD []

/-- First keys that go up. -/
def FirstsIncrease (index : List IndexEntry) : Prop :=
  index.Pairwise (fun a b => a.firstKey < b.firstKey)

theorem firstAt_lt (hs : FirstsIncrease index) {i j : Nat} (hij : i < j)
    (hj : j < index.length) : firstAt index i < firstAt index j := by
  unfold firstAt
  rw [List.getElem?_eq_getElem (lt_trans hij hj), List.getElem?_eq_getElem hj]
  exact List.pairwise_iff_getElem.mp hs i j (lt_trans hij hj) hj hij

/-- The loop keeps the last entry that is not behind the key in its window. -/
theorem searchLoop_spec (hs : FirstsIncrease index) (key : Bytes) (fuel base size : Nat)
    (hsize : 1 ≤ size)
    (hfuel : size ≤ fuel) (hend : base + size ≤ index.length)
    (hlow : base = 0 ∨ firstAt index base ≤ key)
    (hhigh : ∀ j, base + size ≤ j → j < index.length → key < firstAt index j) :
    searchLoop index key fuel base size < index.length ∧
      (searchLoop index key fuel base size = 0 ∨
        firstAt index (searchLoop index key fuel base size) ≤ key) ∧
      ∀ j, searchLoop index key fuel base size < j → j < index.length →
        key < firstAt index j := by
  induction fuel generalizing base size with
  | zero => omega
  | succ fuel ih =>
      unfold searchLoop
      split_ifs with hone
      · by_cases hlt : key < firstAt index (base + size / 2)
        · have hbase : (if key < (index[base + size / 2]?.map IndexEntry.firstKey).getD []
              then base else base + size / 2) = base := if_pos hlt
          dsimp only
          rw [hbase]
          refine ih base (size - size / 2) (by omega) (by omega) (by omega) hlow ?_
          intro j hj hjn
          rcases Nat.lt_or_eq_of_le (show base + size / 2 ≤ j by omega) with h | h
          · exact lt_trans hlt (firstAt_lt hs h hjn)
          · rw [← h]
            exact hlt
        · have hbase : (if key < (index[base + size / 2]?.map IndexEntry.firstKey).getD []
              then base else base + size / 2) = base + size / 2 := if_neg hlt
          dsimp only
          rw [hbase]
          refine ih (base + size / 2) (size - size / 2) (by omega) (by omega) (by omega)
            (Or.inr (not_lt.mp hlt)) ?_
          intro j hj hjn
          exact hhigh j (by omega) hjn
      · refine ⟨by omega, hlow, ?_⟩
        intro j hj hjn
        exact hhigh j (by omega) hjn

/-- The search finds the last entry that is not behind the key, if there is one. -/
theorem binarySearch_spec (hs : FirstsIncrease index) (hne : index ≠ []) (key : Bytes) :
    (∃ i, (binarySearch index key = .ok i ∨ binarySearch index key = .error (i + 1)) ∧
        i < index.length ∧ firstAt index i ≤ key ∧
        ∀ j, i < j → j < index.length → key < firstAt index j) ∨
      (binarySearch index key = .error 0 ∧
        ∀ j, j < index.length → key < firstAt index j) := by
  have hlen : 1 ≤ index.length := List.length_pos_iff.mpr hne
  obtain ⟨hlt, hlow, hhigh⟩ := searchLoop_spec hs key index.length 0 index.length hlen
    le_rfl (by omega) (Or.inl rfl) (by omega)
  unfold binarySearch
  rw [if_neg hne]
  dsimp only
  generalize searchLoop index key index.length 0 index.length = i at hlt hlow hhigh
  show (∃ i', ((if firstAt index i = key then _ else _) = _ ∨ _) ∧ _) ∨ _
  by_cases heq : firstAt index i = key
  · refine Or.inl ⟨i, Or.inl ?_, hlt, le_of_eq heq, hhigh⟩
    exact if_pos heq
  · rcases lt_or_gt_of_ne heq with h | h
    · refine Or.inl ⟨i, Or.inr ?_, hlt, le_of_lt h, hhigh⟩
      exact (if_neg heq).trans (congrArg Except.error (if_pos h))
    · have hi : i = 0 := hlow.resolve_right (not_le.mpr h)
      refine Or.inr ⟨?_, ?_⟩
      · exact (if_neg heq).trans (congrArg Except.error
          ((if_neg (not_lt.mpr (le_of_lt h))).trans hi))
      · intro j hj
        rcases Nat.eq_zero_or_pos j with rfl | hj0
        · rw [← hi]
          exact h
        · exact hhigh j (by omega) hj

end Search

section Blocks

variable {blocks : List (List Record)} {key : Bytes} {i : Nat}

theorem firstsIncrease_indexFrom (env : Env) (base : Nat) (hne : ∀ b ∈ blocks, b ≠ [])
    (hsep : Separated blocks) : FirstsIncrease (indexFrom env base blocks) := by
  have hmap : ((indexFrom env base blocks).map IndexEntry.firstKey).Pairwise (· < ·) := by
    rw [map_firstKey_indexFrom, List.pairwise_map]
    apply hsep.imp_of_mem
    intro a b ha hb hab
    obtain ⟨x, hx, hxk⟩ := headKey_mem (hne a ha)
    obtain ⟨y, hy, hyk⟩ := headKey_mem (hne b hb)
    rw [← hxk, ← hyk]
    exact hab x hx y hy
  exact List.pairwise_map.mp hmap

theorem firstAt_indexFrom (env : Env) (base j : Nat) :
    firstAt (indexFrom env base blocks) j = (blocks[j]?.map headKey).getD [] := by
  unfold firstAt
  rw [← List.getElem?_map, map_firstKey_indexFrom, List.getElem?_map]

/-- The first key of a block is its least. -/
theorem headKey_le {b : List Record} (hs : SortedRun b) {r : Record} (hr : r ∈ b) :
    headKey b ≤ r.key := by
  cases b with
  | nil => simp at hr
  | cons x xs =>
      rcases List.mem_cons.mp hr with rfl | hr
      · exact le_refl _
      · exact key_le_of_version_le ((List.pairwise_cons.mp hs).1 r hr)

/-- The blocks around the place the search finds. -/
structure Bracket (blocks : List (List Record)) (key : Bytes) (i : Nat) (b : List Record) :
    Prop where
  here : blocks.drop i = b :: blocks.drop (i + 1)
  before : ∀ r ∈ (blocks.take i).flatten, r.key < key
  behind : ∀ r ∈ (blocks.drop (i + 1)).flatten, key < r.key

theorem sortedRun_of_mem (hs : SortedRun blocks.flatten) {b : List Record} (hb : b ∈ blocks) :
    SortedRun b := (List.pairwise_flatten.mp hs).1 b hb

/-- What the search finds brackets the key. -/
theorem bracket_of_search (env : Env) (base : Nat) (hne : ∀ b ∈ blocks, b ≠ [])
    (hsep : Separated blocks) (hsorted : SortedRun blocks.flatten) (hi : i < blocks.length)
    (hlow : firstAt (indexFrom env base blocks) i ≤ key)
    (hhigh : ∀ j, i < j → j < blocks.length → key < firstAt (indexFrom env base blocks) j) :
    Bracket blocks key i blocks[i] := by
  rw [firstAt_indexFrom, List.getElem?_eq_getElem hi] at hlow
  simp only [Option.map_some, Option.getD_some] at hlow
  refine ⟨List.drop_eq_getElem_cons hi, ?_, ?_⟩
  · intro r hr
    obtain ⟨a, ha, hra⟩ := List.mem_flatten.mp hr
    obtain ⟨x, hx, hxk⟩ := headKey_mem (hne _ (List.getElem_mem hi))
    have hsplit := hsep
    rw [← List.take_append_drop i blocks] at hsplit
    have hab := (List.pairwise_append.mp hsplit).2.2 a ha blocks[i]
      (by rw [List.drop_eq_getElem_cons hi]; exact List.mem_cons_self)
    exact lt_of_lt_of_le (hab r hra x hx) (by rw [hxk]; exact hlow)
  · intro r hr
    obtain ⟨a, ha, hra⟩ := List.mem_flatten.mp hr
    obtain ⟨n, hn, rfl⟩ := List.mem_iff_getElem.mp ha
    rw [List.length_drop] at hn
    rw [List.getElem_drop] at hra
    have hjn : i + 1 + n < blocks.length := by omega
    have hfirst := hhigh (i + 1 + n) (by omega) hjn
    rw [firstAt_indexFrom, List.getElem?_eq_getElem hjn] at hfirst
    simp only [Option.map_some, Option.getD_some] at hfirst
    exact lt_of_lt_of_le hfirst
      (headKey_le (sortedRun_of_mem hsorted (List.getElem_mem hjn)) hra)

/-- If every block starts behind the key, so does every record. -/
theorem behind_of_search (env : Env) (base : Nat) (hsorted : SortedRun blocks.flatten)
    (hhigh : ∀ j, j < blocks.length → key < firstAt (indexFrom env base blocks) j) :
    ∀ r ∈ blocks.flatten, key < r.key := by
  intro r hr
  obtain ⟨a, ha, hra⟩ := List.mem_flatten.mp hr
  obtain ⟨n, hn, rfl⟩ := List.mem_iff_getElem.mp ha
  have hfirst := hhigh n hn
  rw [firstAt_indexFrom, List.getElem?_eq_getElem hn] at hfirst
  simp only [Option.map_some, Option.getD_some] at hfirst
  exact lt_of_lt_of_le hfirst (headKey_le (sortedRun_of_mem hsorted (List.getElem_mem hn)) hra)

theorem Bracket.flatten_eq {b : List Record} (h : Bracket blocks key i b) :
    blocks.flatten = (blocks.take i).flatten ++ (b ++ (blocks.drop (i + 1)).flatten) := by
  conv_lhs => rw [← List.take_append_drop i blocks]
  rw [List.flatten_append, h.here, List.flatten_cons]

theorem lookupAt_eq_none {l : List Record} {seqBound : Nat} (h : ∀ r ∈ l, r.key ≠ key) :
    lookupAt l key seqBound = none := by
  unfold lookupAt
  rw [List.find?_eq_none]
  intro r hr hdec
  exact h r hr (of_decide_eq_true hdec).1

theorem lookupAt_append (l l' : List Record) (key : Bytes) (seqBound : Nat) :
    lookupAt (l ++ l') key seqBound = (lookupAt l key seqBound).or (lookupAt l' key seqBound) :=
  List.find?_append

/-- A lookup only concerns the bracketed block. -/
theorem Bracket.lookupAt_eq {b : List Record} (h : Bracket blocks key i b) (seqBound : Nat) :
    lookupAt blocks.flatten key seqBound = lookupAt b key seqBound := by
  rw [h.flatten_eq, lookupAt_append, lookupAt_append,
    lookupAt_eq_none (fun r hr => ne_of_lt (h.before r hr)),
    lookupAt_eq_none (fun r hr => ne_of_gt (h.behind r hr)), Option.none_or, Option.or_none]

theorem fromStart_append (start : Option Bytes) (l l' : List Record) :
    fromStart start (l ++ l') = fromStart start l ++ fromStart start l' := List.filter_append ..

theorem fromStart_eq_self {l : List Record} (h : ∀ r ∈ l, key ≤ r.key) :
    fromStart (some key) l = l :=
  List.filter_eq_self.mpr (fun r hr => decide_eq_true (h r hr))

theorem fromStart_eq_nil {l : List Record} (h : ∀ r ∈ l, r.key < key) :
    fromStart (some key) l = [] :=
  List.filter_eq_nil_iff.mpr (fun r hr hdec => absurd (of_decide_eq_true hdec)
    (not_le.mpr (h r hr)))

/-- A walk from a key starts in the bracketed block. -/
theorem Bracket.fromStart_eq {b : List Record} (h : Bracket blocks key i b) :
    fromStart (some key) blocks.flatten =
      fromStart (some key) b ++ (blocks.drop (i + 1)).flatten := by
  rw [h.flatten_eq, fromStart_append, fromStart_append, fromStart_eq_nil h.before,
    fromStart_eq_self (fun r hr => le_of_lt (h.behind r hr)), List.nil_append]

end Blocks

section Reader

variable {σ : Type} {s : σ} {env : Env} {w : World} {path : Path} {i : Nat}
variable {bloomEnabled : Bool} {records : List Record}

theorem fits_of_mem_tableBlocks (hfits : TableFits env records) {b : List Record}
    (hb : b ∈ tableBlocks records) : ∀ r ∈ b, r.Fits := by
  intro r hr
  apply hfits.each
  rw [← flatten_tableBlocks records]
  exact List.mem_flatten.mpr ⟨b, hb, hr⟩

theorem tableIndex_fits (hfits : TableFits env records) :
    ∀ e ∈ tableIndex env records, e.Fits := by
  refine indexEntry_fits (fun b hb => ne_nil_of_mem_cutBlocks hb)
    (fun b hb => fits_of_mem_tableBlocks hfits hb) ?_
  have := hfits.file
  rw [length_tableBytes, bloomStart, indexStart] at this
  omega

theorem sized_buildBloom (env : Env) (records : List Record) : (buildBloom env records).Sized := by
  unfold buildBloom
  generalize hf : BloomFilter.new env records.length = f
  have h : f.Sized := by rw [← hf]; exact BloomFilter.sized_new env _
  clear hf
  induction records generalizing f with
  | nil => exact h
  | cons r rs ih =>
      rw [List.foldl_cons]
      exact ih _ (h.insert _)

theorem buildBloom_fields (env : Env) (records : List Record) :
    (buildBloom env records).k = env.bloomProbes records.length ∧
      (buildBloom env records).bitCount = env.bloomBits records.length := by
  have hfold : ∀ (l : List Record) (f : BloomFilter),
      (l.foldl (fun f r => f.insert env r.key) f).k = f.k ∧
        (l.foldl (fun f r => f.insert env r.key) f).bitCount = f.bitCount := by
    intro l
    induction l with
    | nil => exact fun f => ⟨rfl, rfl⟩
    | cons r rs ih => exact fun f => ih _
  exact hfold records _

theorem decode_buildBloom (env : Env) (records : List Record) :
    BloomFilter.decode (buildBloom env records).encode = .ok (buildBloom env records) := by
  obtain ⟨hk, hb⟩ := buildBloom_fields env records
  apply BloomFilter.decode_encode (sized_buildBloom env records)
  · rw [hk]
    exact env.bloomProbes_lt _
  · rw [hk]
    exact Nat.one_le_iff_ne_zero.mp (env.bloomProbes_pos _)
  · rw [hb]
    exact env.bloomBits_lt _

/-- The filter of a table never denies one of its keys. -/
theorem buildBloom_contains (env : Env) {key : Bytes} (h : ∃ r ∈ records, r.key = key) :
    (buildBloom env records).contains env key = true :=
  BloomFilter.contains_insertAll Record.key records (BloomFilter.sized_new env _) (Or.inr h)

/-- The fields of the footer. -/
theorem footer_fields (hfits : TableFits env records) :
    ((footerBytes env records).drop 40).take 4 = tableMagic ∧
      ofLe ((footerBytes env records).take 8) = indexStart env records ∧
      ofLe (((footerBytes env records).drop 8).take 4) = (tableIndex env records).length ∧
      ofLe (((footerBytes env records).drop 12).take 8) = bloomStart env records ∧
      ofLe (((footerBytes env records).drop 20).take 8) =
        (buildBloom env records).encode.length ∧
      ofLe (((footerBytes env records).drop 28).take 8) = records.length % 2 ^ 64 := by
  have hfile := hfits.file
  rw [length_tableBytes] at hfile
  have hi : indexStart env records < 256 ^ 8 := by
    have : indexStart env records ≤ bloomStart env records := Nat.le_add_right _ _
    norm_num
    omega
  have hn : (tableIndex env records).length < 256 ^ 4 := by
    have := hfits.entries
    rw [tableIndex, length_indexFrom]
    norm_num at this ⊢
    omega
  have hb : bloomStart env records < 256 ^ 8 := by norm_num; omega
  have hl : (buildBloom env records).encode.length < 256 ^ 8 := by norm_num; omega
  have hcut : ∀ (a b rest : Bytes) (n m : Nat), a.length = n → b.length = m →
      ((a ++ (b ++ rest)).drop n).take m = b := by
    intro a b rest n m ha hb
    rw [List.drop_left' ha, List.take_left' hb]
  have hfoot : footerBytes env records = le 8 (indexStart env records) ++
      (le 4 (tableIndex env records).length ++ (le 8 (bloomStart env records) ++
        (le 8 (buildBloom env records).encode.length ++ (le 8 records.length ++
          (le 4 tableFormatVersion ++ tableMagic))))) := by
    simp [footerBytes, footerParts]
  refine ⟨?_, ?_, ?_, ?_, ?_, ?_⟩
  · rw [hfoot]
    simp only [← List.append_assoc]
    rw [List.drop_left' (by simp)]
    rfl
  · rw [hfoot, List.take_left' (length_le _ _), ofLe_le hi]
  · rw [hfoot, hcut _ _ _ _ _ (length_le _ _) (length_le _ _), ofLe_le hn]
  · rw [hfoot, ← List.append_assoc, hcut _ _ _ _ _ (by simp) (length_le _ _), ofLe_le hb]
  · rw [hfoot, ← List.append_assoc, ← List.append_assoc,
      hcut _ _ _ _ _ (by simp) (length_le _ _), ofLe_le hl]
  · rw [hfoot, ← List.append_assoc, ← List.append_assoc, ← List.append_assoc,
      hcut _ _ _ _ _ (by simp) (length_le _ _), ofLe_le_mod]
    norm_num

/-- A table file in a volume. -/
structure TableAt (env : Env) (v : Volume Path) (path : Path) (i : Nat)
    (records : List Record) : Prop where
  bound : v.lookup path = some i
  bytes : (v.inodes i).bytes = tableBytes env records

/-- The pieces of a table file, where its reader looks for them. -/
theorem tableBytes_pieces (env : Env) (records : List Record) :
    (tableBytes env records).drop (bloomStart env records +
        (buildBloom env records).encode.length) = footerBytes env records ∧
      ((tableBytes env records).drop (indexStart env records)).take
        (bloomStart env records - indexStart env records) =
          indexBytes (tableIndex env records) ∧
      ((tableBytes env records).drop (bloomStart env records)).take
        (buildBloom env records).encode.length = (buildBloom env records).encode ∧
      ∃ rest, tableBytes env records = dataBytes env (tableBlocks records) ++ rest := by
  have h := tableBytes_eq env records
  have hsub : bloomStart env records - indexStart env records =
      (indexBytes (tableIndex env records)).length := by
    unfold bloomStart
    omega
  refine ⟨?_, ?_, ?_, ⟨_, by rw [h, List.append_assoc, List.append_assoc]⟩⟩
  · rw [h, List.drop_left']
    simp only [List.length_append, bloomStart, indexStart]
  · rw [h, List.append_assoc, List.append_assoc, hsub, indexStart, List.drop_left,
      List.take_left]
  · rw [h, List.append_assoc, List.drop_left' (by simp [bloomStart, indexStart]),
      List.take_left' rfl]

/-- A written table is opened. -/
theorem openTable_eq (bloomEnabled : Bool) (hq : w.Quiet) (ht : TableAt env w.vol path i records)
    (hfits : TableFits env records) :
    (SsTableReader.openTable path bloomEnabled : M σ SsTableReader) s w =
      (.ok (readerOf env path i bloomEnabled records), s, w) := by
  have hlen := length_tableBytes env records
  obtain ⟨pfoot, pindex, pbloom, _⟩ := tableBytes_pieces env records
  obtain ⟨fmagic, findex, fentries, fbloom, flen, fcount⟩ := footer_fields hfits
  have hle : indexStart env records ≤ bloomStart env records := Nat.le_add_right _ _
  have hindex : readIndex (tableIndex env records).length (indexBytes (tableIndex env records)) 0 =
      .ok (tableIndex env records) :=
    readIndex_of_drop (tableIndex_fits hfits) [] (Nat.zero_le _) (by simp)
  have hfoot : (File.readExactAt i ((tableBytes env records).length - footerLen) footerLen :
      M σ Bytes) s w = (.ok (footerBytes env records), s, w) := by
    rw [File.readExactAt_quiet hq (by rw [ht.bytes]; omega), ht.bytes]
    rw [show (tableBytes env records).length - footerLen =
      bloomStart env records + (buildBloom env records).encode.length by omega, pfoot,
      List.take_of_length_le (by rw [length_footerBytes])]
  have hibuf : (File.readExactAt i (indexStart env records)
      (bloomStart env records - indexStart env records) : M σ Bytes) s w =
        (.ok (indexBytes (tableIndex env records)), s, w) := by
    rw [File.readExactAt_quiet hq (by rw [ht.bytes]; omega), ht.bytes, pindex]
  have hbbuf : (File.readExactAt i (bloomStart env records)
      (buildBloom env records).encode.length : M σ Bytes) s w =
        (.ok (buildBloom env records).encode, s, w) := by
    rw [File.readExactAt_quiet hq (by rw [ht.bytes]; omega), ht.bytes, pbloom]
  have hrange : ¬ (indexStart env records > bloomStart env records ∨
      (bloomStart env records + (buildBloom env records).encode.length) % 2 ^ 64 >
        (tableBytes env records).length - footerLen) := by
    have := Nat.mod_le (bloomStart env records + (buildBloom env records).encode.length) (2 ^ 64)
    omega
  unfold SsTableReader.openTable
  rw [M.bind_ok (Fs.openRead_some ht.bound), M.bind_ok File.size_apply, ht.bytes,
    if_neg (by omega), M.bind_ok hfoot, fmagic, if_neg (by simp)]
  simp only [findex, fentries, fbloom, flen, fcount]
  rw [if_neg hrange, M.bind_ok hibuf, hindex, M.bind_ok (M.ofExcept_apply _ _ _),
    M.bind_ok hbbuf, decode_buildBloom, M.bind_ok (M.ofExcept_apply _ _ _)]
  rfl

/-- A block that stands in the file is loaded. -/
theorem loadBlock_eq (hq : w.Quiet) {reader : SsTableReader} {block : List Record} (rest : Bytes)
    (hfits : ∀ r ∈ block, r.Fits) (hraw : (rawBlock block).length < 2 ^ 32)
    (hcomp : (compBlock env block).length < 2 ^ 32) {base : Nat}
    (hbase : base ≤ (w.vol.inodes reader.file).bytes.length)
    (hd : (w.vol.inodes reader.file).bytes.drop base = compBlock env block ++ rest)
    (key : Bytes) :
    (reader.loadBlock env ⟨key, base, (compBlock env block).length % 2 ^ 32⟩ :
      M σ (List Record)) s w = (.ok block, s, w) := by
  have hread : (File.readExactAt reader.file base ((compBlock env block).length % 2 ^ 32) :
      M σ Bytes) s w = (.ok (compBlock env block), s, w) := by
    rw [Nat.mod_eq_of_lt hcomp, File.readExactAt_quiet hq (behind_le hbase hd), hd,
      List.take_left' rfl]
  have hdec : env.decompress (compBlock env block) = .ok (rawBlock block) :=
    env.decompress_compress _ hraw
  unfold SsTableReader.loadBlock
  rw [M.bind_ok hread, hdec]
  simp only [decodeBlock_raw hfits, M.ofExcept_apply]

/-- Blocks that stand in the file one behind the other. -/
structure BlocksAt (env : Env) (bytes : Bytes) (base : Nat) (blocks : List (List Record)) :
    Prop where
  inside : base ≤ bytes.length
  stands : ∃ rest, bytes.drop base = dataBytes env blocks ++ rest
  fits : ∀ b ∈ blocks, (∀ r ∈ b, r.Fits) ∧
    (rawBlock b).length < 2 ^ 32 ∧ (compBlock env b).length < 2 ^ 32

theorem BlocksAt.tail {bytes : Bytes} {base : Nat} {b : List Record} {bs : List (List Record)}
    (h : BlocksAt env bytes base (b :: bs)) :
    BlocksAt env bytes (base + (compBlock env b).length) bs := by
  obtain ⟨hb, ⟨rest, hd⟩, hf⟩ := h
  have hd' : bytes.drop base = compBlock env b ++ (dataBytes env bs ++ rest) := by
    rw [hd]
    simp [dataBytes]
  exact ⟨behind_le hb hd', ⟨rest, drop_behind hd'⟩, fun b' h => hf b' (List.mem_cons_of_mem _ h)⟩

theorem BlocksAt.load (hq : w.Quiet) (reader : SsTableReader) {base : Nat} {b : List Record}
    {bs : List (List Record)}
    (h : BlocksAt env (w.vol.inodes reader.file).bytes base (b :: bs)) :
    (reader.loadBlock env ⟨headKey b, base, (compBlock env b).length % 2 ^ 32⟩ :
      M σ (List Record)) s w = (.ok b, s, w) := by
  obtain ⟨hb, ⟨rest, hd⟩, hf⟩ := h
  obtain ⟨h1, h2, h3⟩ := hf b (by simp)
  refine loadBlock_eq hq (dataBytes env bs ++ rest) h1 h2 h3 hb ?_ _
  rw [hd]
  simp [dataBytes]

/-- The walk over blocks that stand in the file yields their records; only the
first block is cut at the start. -/
theorem scanBlocks_eq (hq : w.Quiet) (reader : SsTableReader) (start : Option Bytes)
    {base : Nat} {b : List Record} {bs : List (List Record)}
    (h : BlocksAt env (w.vol.inodes reader.file).bytes base (b :: bs)) :
    (reader.scanBlocks env start (indexFrom env base (b :: bs)) :
      M σ (List (Except Error Record))) s w =
        (.ok ((fromStart start b ++ bs.flatten).map .ok), s, w) := by
  induction bs generalizing base b start with
  | nil =>
      unfold indexFrom SsTableReader.scanBlocks
      rw [M.bind_ok (M.attempt_eq (h.load hq reader))]
      simp only [indexFrom, SsTableReader.scanBlocks, pure_bind, List.flatten_nil,
        List.append_nil, M.pure_apply]
      rfl
  | cons b' bs ih =>
      have hlater := ih none h.tail
      have hall : fromStart none b' = b' := List.filter_eq_self.mpr (fun _ _ => rfl)
      rw [hall] at hlater
      unfold indexFrom SsTableReader.scanBlocks
      rw [M.bind_ok (M.attempt_eq (h.load hq reader))]
      dsimp only
      rw [M.bind_ok hlater, M.pure_apply, List.flatten_cons, ← List.map_append]
      rfl

/-- Loading every block yields every record. -/
theorem collect_loadBlock (hq : w.Quiet) (reader : SsTableReader) {base : Nat}
    {bs : List (List Record)} (h : BlocksAt env (w.vol.inodes reader.file).bytes base bs) :
    (M.collect (reader.loadBlock env) (indexFrom env base bs) : M σ (List (List Record))) s w =
      (.ok bs, s, w) := by
  induction bs generalizing base with
  | nil => rfl
  | cons b bs ih =>
      unfold indexFrom
      rw [M.collect_cons, M.bind_ok (h.load hq reader), M.bind_ok (ih h.tail)]
      rfl

/-- The blocks of a table stand in its file from the `n`-th on. -/
theorem blocksAt_drop (hfits : TableFits env records) (n : Nat) :
    BlocksAt env (tableBytes env records)
      (dataBytes env ((tableBlocks records).take n)).length ((tableBlocks records).drop n) := by
  obtain ⟨_, _, _, rest, hrest⟩ := tableBytes_pieces env records
  have hsplit : dataBytes env (tableBlocks records) =
      dataBytes env ((tableBlocks records).take n) ++
        dataBytes env ((tableBlocks records).drop n) := by
    unfold dataBytes
    rw [← List.flatMap_append, List.take_append_drop]
  rw [hsplit, List.append_assoc] at hrest
  refine ⟨by rw [hrest]; simp, ⟨rest, by rw [hrest, List.drop_left]⟩, ?_⟩
  intro b hb
  have hmem := List.mem_of_mem_drop hb
  exact ⟨fits_of_mem_tableBlocks hfits hmem, hfits.blocks b hmem⟩

theorem tableIndex_eq_nil_iff : tableIndex env records = [] ↔ records = [] := by
  rw [tableIndex, ← List.length_eq_zero_iff, length_indexFrom, List.length_eq_zero_iff]
  constructor
  · intro h
    rw [← flatten_tableBlocks records, h]
    rfl
  · rintro rfl
    rfl

/-- What the search of a table finds. -/
theorem search_table (env : Env) (hsorted : SortedRun records) (hne : records ≠ []) (key : Bytes) :
    (∃ n b, (binarySearch (tableIndex env records) key = .ok n ∨
        binarySearch (tableIndex env records) key = .error (n + 1)) ∧
        Bracket (tableBlocks records) key n b) ∨
      (binarySearch (tableIndex env records) key = .error 0 ∧ ∀ r ∈ records, key < r.key) := by
  have hblocks : ∀ b ∈ tableBlocks records, b ≠ [] := fun b hb => ne_nil_of_mem_cutBlocks hb
  have hsep : Separated (tableBlocks records) := separated_cutBlocks hsorted
  have hflat : SortedRun (tableBlocks records).flatten := by
    rw [flatten_tableBlocks]
    exact hsorted
  have hlen : (tableIndex env records).length = (tableBlocks records).length :=
    length_indexFrom env 0 _
  rcases binarySearch_spec (firstsIncrease_indexFrom env 0 hblocks hsep)
    (fun h => hne (tableIndex_eq_nil_iff.mp h)) key with ⟨n, hfound, hn, hlow, hhigh⟩ | ⟨h0, hhigh⟩
  · rw [length_indexFrom] at hn hhigh
    exact Or.inl ⟨n, _, hfound, bracket_of_search env 0 hblocks hsep hflat hn hlow hhigh⟩
  · rw [length_indexFrom] at hhigh
    refine Or.inr ⟨h0, ?_⟩
    have := behind_of_search env 0 hflat hhigh
    rwa [flatten_tableBlocks] at this

/-- The entry of a bracketed block loads it. -/
theorem load_bracket (path : Path) (bloomEnabled : Bool) (hq : w.Quiet)
    (hbytes : (w.vol.inodes i).bytes = tableBytes env records)
    (hfits : TableFits env records) {key : Bytes} {n : Nat} {b : List Record}
    (hb : Bracket (tableBlocks records) key n b) :
    ∃ e, (tableIndex env records)[n]? = some e ∧
      ((readerOf env path i bloomEnabled records).loadBlock env e : M σ (List Record)) s w =
        (.ok b, s, w) := by
  have hat := blocksAt_drop hfits n
  rw [hb.here, ← hbytes] at hat
  refine ⟨_, ?_, hat.load hq (readerOf env path i bloomEnabled records)⟩
  have hdrop := drop_indexFrom env (tableBlocks records) n
  rw [hb.here] at hdrop
  rw [← List.head?_drop, tableIndex, hdrop]
  rfl

/-- The lookup of a table is the search of its run. -/
theorem getAt_eq (path : Path) (bloomEnabled : Bool) (hq : w.Quiet)
    (hbytes : (w.vol.inodes i).bytes = tableBytes env records)
    (hfits : TableFits env records) (hsorted : SortedRun records) (key : Bytes)
    (seqBound : Nat) :
    ((readerOf env path i bloomEnabled records).getAt env key seqBound :
      M σ (Option Record)) s w = (.ok (lookupAt records key seqBound), s, w) := by
  have hindex : (readerOf env path i bloomEnabled records).index = tableIndex env records := rfl
  unfold SsTableReader.getAt
  by_cases hne : records = []
  · rw [if_pos (hindex.trans (tableIndex_eq_nil_iff.mpr hne)), hne]
    rfl
  rw [if_neg (fun h => hne (tableIndex_eq_nil_iff.mp (hindex.symm.trans h)))]
  split_ifs with hbloom
  · -- the filter denies the key, so no record has it
    have hno : ∀ r ∈ records, r.key ≠ key := by
      intro r hr hk
      have := buildBloom_contains env ⟨r, hr, hk⟩
      rw [show (readerOf env path i bloomEnabled records).bloom = buildBloom env records from rfl]
        at hbloom
      rw [this] at hbloom
      exact absurd hbloom.2 (by simp)
    rw [lookupAt_eq_none hno]
    rfl
  · rcases search_table env hsorted hne key with ⟨n, b, hfound, hb⟩ | ⟨h0, hbehind⟩
    · obtain ⟨e, he, hload⟩ := load_bracket path bloomEnabled
        (s := s) hq hbytes hfits hb
      have hblock : SortedRun b := by
        have hmem : b ∈ tableBlocks records :=
          List.mem_of_mem_drop (i := n) (by rw [hb.here]; exact List.mem_cons_self)
        have := hsorted
        rw [← flatten_tableBlocks records] at this
        exact sortedRun_of_mem this hmem
      have hscan : ((readerOf env path i bloomEnabled records).loadBlock env e >>=
          fun block => pure (scanBlock key seqBound block) : M σ (Option Record)) s w =
            (.ok (lookupAt records key seqBound), s, w) := by
        rw [M.bind_ok hload, scanBlock_eq hblock, ← hb.lookupAt_eq, flatten_tableBlocks]
        rfl
      rcases hfound with h | h
      · simp only [hindex, h, Option.bind_some, he]
        exact hscan
      · simp only [hindex, h, Option.bind_some, he]
        exact hscan
    · simp only [hindex, h0, Option.bind_none]
      rw [lookupAt_eq_none (fun r hr => ne_of_gt (hbehind r hr))]
      rfl

/-- The walk of a table from a key yields its run from there. -/
theorem scan_eq (path : Path) (bloomEnabled : Bool) (hq : w.Quiet)
    (hbytes : (w.vol.inodes i).bytes = tableBytes env records)
    (hfits : TableFits env records) (hsorted : SortedRun records) (start : Option Bytes) :
    ((readerOf env path i bloomEnabled records).scan env start :
      M σ (List (Except Error Record))) s w =
        (.ok ((fromStart start records).map .ok), s, w) := by
  have hindex : (readerOf env path i bloomEnabled records).index = tableIndex env records := rfl
  by_cases hne : records = []
  · have hnil : tableIndex env records = [] := tableIndex_eq_nil_iff.mpr hne
    unfold SsTableReader.scan
    rw [hindex, hnil, List.drop_nil, hne]
    rfl
  have hnil : tableIndex env records ≠ [] := fun h => hne (tableIndex_eq_nil_iff.mp h)
  -- the walk from block `n`
  have hwalk : ∀ n b, (tableBlocks records).drop n = b :: (tableBlocks records).drop (n + 1) →
      ((readerOf env path i bloomEnabled records).scanBlocks env start
        ((tableIndex env records).drop n) : M σ (List (Except Error Record))) s w =
          (.ok ((fromStart start b ++ ((tableBlocks records).drop (n + 1)).flatten).map .ok),
            s, w) := by
    intro n b hn
    have hat := blocksAt_drop hfits n
    rw [hn, ← hbytes] at hat
    rw [tableIndex, drop_indexFrom, hn]
    exact scanBlocks_eq hq (readerOf env path i bloomEnabled records) start hat
  -- the first block, and what the whole run is then
  have hfirst : ∃ b, (tableBlocks records).drop 0 = b :: (tableBlocks records).drop (0 + 1) := by
    cases hb : tableBlocks records with
    | nil =>
        rw [← flatten_tableBlocks records, hb] at hne
        exact absurd rfl hne
    | cons b bs => exact ⟨b, rfl⟩
  obtain ⟨b₀, hb₀⟩ := hfirst
  have hrecords : records = b₀ ++ ((tableBlocks records).drop (0 + 1)).flatten := by
    rw [← List.flatten_cons, ← hb₀, List.drop_zero, flatten_tableBlocks]
  unfold SsTableReader.scan
  rw [hindex]
  cases start with
  | none =>
      have hall : ∀ l, fromStart none l = l := fun l => List.filter_eq_self.mpr (fun _ _ => rfl)
      dsimp only
      rw [if_neg hnil, Option.getD_some, hwalk 0 b₀ hb₀, hall, hall, ← hrecords]
  | some key =>
      simp only [SsTableReader.blockBracketing, hindex, hnil, if_false]
      rcases search_table env hsorted hne key with ⟨n, b, hfound, hb⟩ | ⟨h0, hbehind⟩
      · have hwhole : fromStart (some key) records =
            fromStart (some key) b ++ ((tableBlocks records).drop (n + 1)).flatten := by
          rw [← hb.fromStart_eq, flatten_tableBlocks]
        rw [hwhole, ← hwalk n b hb.here]
        rcases hfound with h | h
        · simp only [h, Option.getD_some]
        · simp only [h, Option.getD_some]
      · have hwhole : fromStart (some key) records =
            fromStart (some key) b₀ ++ ((tableBlocks records).drop (0 + 1)).flatten := by
          have hb₀' : ∀ r ∈ b₀, key ≤ r.key := by
            intro r hr
            apply le_of_lt (hbehind r _)
            rw [hrecords]
            exact List.mem_append_left _ hr
          rw [fromStart_eq_self hb₀', fromStart_eq_self (fun r hr => le_of_lt (hbehind r hr)),
            ← hrecords]
        rw [hwhole, ← hwalk 0 b₀ hb₀]
        simp only [h0, Option.getD_some]

/-- Reading a whole table yields its run. -/
theorem iterAll_eq (path : Path) (bloomEnabled : Bool) (hq : w.Quiet)
    (hbytes : (w.vol.inodes i).bytes = tableBytes env records)
    (hfits : TableFits env records) :
    ((readerOf env path i bloomEnabled records).iterAll env : M σ (List Record)) s w =
      (.ok records, s, w) := by
  have hat := blocksAt_drop hfits 0
  rw [List.take_zero, List.drop_zero, ← hbytes] at hat
  have hload := collect_loadBlock (s := s) hq (readerOf env path i bloomEnabled records) hat
  unfold SsTableReader.iterAll
  rw [show (readerOf env path i bloomEnabled records).index =
    indexFrom env (dataBytes env []).length (tableBlocks records) from rfl, M.bind_ok hload,
    flatten_tableBlocks]
  rfl

end Reader

section Writer

variable {σ : Type} {s : σ} {w : World}

/-- A writer truncates its file, appends the table in pieces and makes it durable. -/
theorem SsTableWriter.write_volume (env : Env) (path : Path) (records : List Record)
    (hq : w.Quiet) :
    let v := w.vol.truncateAt path
    let i := w.vol.inodeAt path
    ∃ w', (SsTableWriter.write env path records : M σ Nat) s w =
        (.ok records.length, s, w') ∧
      w'.vol = (v.append i (tableBytes env records)).sync i ∧
      w.Grew w' (fun u => u = v ∨ (∃ b, u = v.append i b) ∨
        u = (v.append i (tableBytes env records)).sync i) := by
  intro v i
  have hq₁ := hq.touch (fun v => v.truncateAt path)
  obtain ⟨w₂, done, left, hrun₂, hsplit, hvol₂, hgrew₂⟩ :=
    BufAppend.writeAll_quiet (b := BufAppend.new i) hq₁ (tableParts env records)
  obtain ⟨w₃, hrun₃, hvol₃, hgrew₃⟩ :=
    BufAppend.sync_quiet (b := { BufAppend.new i with buf := left }) hgrew₂.quiet
  have hfull : w₂.vol.append i left = v.append i (tableBytes env records) := by
    rw [hvol₂, show (BufAppend.new i).file = i from rfl, Volume.append_append, ← hsplit,
      World.vol_touch]
    rfl
  rw [show (BufAppend.new i).file = i from rfl, hfull] at hvol₃ hgrew₃
  refine ⟨w₃, ?_, hvol₃, ?_⟩
  · unfold SsTableWriter.write
    rw [M.bind_ok (Fs.openTruncate_apply path), M.bind_ok (M.on_ok hrun₂)]
    dsimp only
    rw [M.bind_ok (M.on_ok hrun₃)]
    rfl
  · refine World.Grew.trans (World.Grew.touch hq (Or.inl rfl))
      (World.Grew.trans (hgrew₂.mono ?_) (hgrew₃.mono ?_))
    · rintro u ⟨n, rfl⟩
      exact Or.inr (Or.inl ⟨_, rfl⟩)
    · rintro u (rfl | rfl)
      · exact Or.inr (Or.inl ⟨_, rfl⟩)
      · exact Or.inr (Or.inr rfl)

/-- A writer leaves the whole table, durable, in its file. -/
theorem SsTableWriter.write_quiet (env : Env) (path : Path) (records : List Record)
    (hq : w.Quiet) (hs : w.vol.Sound) (hpath : ¬ Volume.Shares.may path) :
    ∃ w' i, (SsTableWriter.write env path records : M σ Nat) s w =
        (.ok records.length, s, w') ∧
      w'.vol.Bound path i (tableBytes env records) (tableBytes env records).length ∧
      Volume.SameExcept [path] w.vol w'.vol ∧
      w.Grew w' (fun v => Volume.SameExcept [path] w.vol v) := by
  obtain ⟨w', hrun, hvol, hgrew⟩ := SsTableWriter.write_volume (s := s) env path records hq
  have hsame := Volume.sameExcept_truncateAt hs hpath
  have hbound := Volume.bound_truncateAt w.vol path
  -- every volume on the way differs in the scratch file only
  have hpart : ∀ b, Volume.SameExcept [path] w.vol
      ((w.vol.truncateAt path).append (w.vol.inodeAt path) b) :=
    fun b => hsame.trans (Volume.sameExcept_append (hsame.sound hs) hpath hbound.name b)
  have hfull := hbound.append (tableBytes env records)
  have hlast := (hpart (tableBytes env records)).trans
    (Volume.sameExcept_sync ((hpart _).sound hs) hpath hfull.name)
  refine ⟨w', w.vol.inodeAt path, hrun, ?_, ?_, hgrew.mono ?_⟩
  · rw [hvol]
    exact hfull.sync
  · rw [hvol]
    exact hlast
  · rintro v (rfl | ⟨b, rfl⟩ | rfl)
    · exact hsame
    · exact hpart b
    · exact hlast

end Writer

end LsmKv
