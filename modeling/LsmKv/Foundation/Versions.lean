import Mathlib.Data.Set.Lattice
import Mathlib.Data.List.Pairwise

/-!
# Reads over versioned records

Records carry a key, a sequence number and a value or none (a tombstone).  A
read of a key below a horizon takes the value of the newest visible record;
a tombstone and no record at all read alike (`Reads`).

Records are spread over sources, newest source first.  The sources are layered
for a read when a newer source that has a visible version of the key has one at
least as new as anything in the older sources (`Layered`).

**Results.**
* `reads_findSome`: over layered sources, the first source that answers gives
  the read of the whole.
* `Reads.insert`: a record above all others answers the reads that see it.
* `Reads.condense`, `Layered.condense`: neighbouring sources may be replaced by
  one that keeps the newest version visible to the read, or drops it when it is
  a tombstone with nothing older behind it.
* `Stacked`: sources in which newer means a higher sequence number, key by key,
  are layered for every read.
-/

namespace LsmKv
namespace Foundation

/-- How records are read: key, sequence number, and value or tombstone. -/
structure Versioning (ρ κ ν : Type) where
  key : ρ → κ
  seq : ρ → Nat
  value : ρ → Option ν

namespace Versioning

variable {ρ κ ν : Type} (V : Versioning ρ κ ν)

/-- A record of `S` that a read of `k` below `h` may return. -/
def Visible (S : Set ρ) (k : κ) (h : Nat) (r : ρ) : Prop :=
  r ∈ S ∧ V.key r = k ∧ V.seq r < h

/-- A visible record with the highest sequence number. -/
def Newest (S : Set ρ) (k : κ) (h : Nat) (r : ρ) : Prop :=
  V.Visible S k h r ∧ ∀ r', V.Visible S k h r' → V.seq r' ≤ V.seq r

/-- Nothing is visible. -/
def Hidden (S : Set ρ) (k : κ) (h : Nat) : Prop := ∀ r, ¬ V.Visible S k h r

/-- A read returns `v`. -/
def Reads (S : Set ρ) (k : κ) (h : Nat) (v : Option ν) : Prop :=
  (∃ r, V.Newest S k h r ∧ V.value r = v) ∨ (V.Hidden S k h ∧ v = none)

/-- No two records share key and sequence number. -/
def OnePerSeq (S : Set ρ) : Prop :=
  ∀ r ∈ S, ∀ r' ∈ S, V.key r = V.key r' → V.seq r = V.seq r' → r = r'

/-- If `A` has a visible version, it has one at least as new as all of `B`'s. -/
def Above (k : κ) (h : Nat) (A B : Set ρ) : Prop :=
  ∀ a, V.Visible A k h a → ∀ b, V.Visible B k h b →
    ∃ a', V.Visible A k h a' ∧ V.seq b ≤ V.seq a'

variable {V} {S T : Set ρ} {k : κ} {h : Nat} {v v' : Option ν}

theorem Visible.mono {r : ρ} (hr : V.Visible S k h r) (hST : S ⊆ T) : V.Visible T k h r :=
  ⟨hST hr.1, hr.2⟩

theorem Hidden.mono (hT : V.Hidden T k h) (hST : S ⊆ T) : V.Hidden S k h :=
  fun r hr => hT r (hr.mono hST)

theorem Above.mono {A B B' : Set ρ} (hAB : V.Above k h A B) (hB : B' ⊆ B) :
    V.Above k h A B' :=
  fun a ha b hb => hAB a ha b (hb.mono hB)

theorem OnePerSeq.mono (hT : V.OnePerSeq T) (hST : S ⊆ T) : V.OnePerSeq S :=
  fun r hr r' hr' => hT r (hST hr) r' (hST hr')

/-- Newest records of one set are equal. -/
theorem Newest.unique (hS : V.OnePerSeq S) {r r' : ρ} (hr : V.Newest S k h r)
    (hr' : V.Newest S k h r') : r = r' :=
  hS r hr.1.1 r' hr'.1.1 (hr.1.2.1.trans hr'.1.2.1.symm)
    (le_antisymm (hr'.2 r hr.1) (hr.2 r' hr'.1))

/-- A read has one answer. -/
theorem Reads.unique (hS : V.OnePerSeq S) (hv : V.Reads S k h v) (hv' : V.Reads S k h v') :
    v = v' := by
  rcases hv with ⟨r, hr, rfl⟩ | ⟨hhid, rfl⟩
  · rcases hv' with ⟨r', hr', rfl⟩ | ⟨hhid', _⟩
    · rw [hr.unique hS hr']
    · exact absurd hr.1 (hhid' r)
  · rcases hv' with ⟨r', hr', _⟩ | ⟨_, rfl⟩
    · exact absurd hr'.1 (hhid r')
    · rfl

/-- Sets with the same visible records read alike. -/
theorem Reads.congr (hST : ∀ r, V.Visible S k h r ↔ V.Visible T k h r)
    (hv : V.Reads S k h v) : V.Reads T k h v := by
  rcases hv with ⟨r, hr, hval⟩ | ⟨hhid, hnone⟩
  · left
    exact ⟨r, ⟨(hST r).mp hr.1, fun r' hr' => hr.2 r' ((hST r').mpr hr')⟩, hval⟩
  · right
    exact ⟨fun r hr => hhid r ((hST r).mpr hr), hnone⟩

/-- Two horizons with no record between them read alike. -/
theorem Reads.horizon {h' : Nat} (hS : ∀ r ∈ S, V.seq r < h ↔ V.seq r < h')
    (hv : V.Reads S k h v) : V.Reads S k h' v := by
  have hvis : ∀ r, V.Visible S k h r ↔ V.Visible S k h' r := by
    intro r
    constructor
    · rintro ⟨hr, hk, hs⟩
      exact ⟨hr, hk, (hS r hr).mp hs⟩
    · rintro ⟨hr, hk, hs⟩
      exact ⟨hr, hk, (hS r hr).mpr hs⟩
  rcases hv with ⟨r, hr, hval⟩ | ⟨hhid, hnone⟩
  · left
    exact ⟨r, ⟨(hvis r).mp hr.1, fun r' hr' => hr.2 r' ((hvis r').mpr hr')⟩, hval⟩
  · right
    exact ⟨fun r hr => hhid r ((hvis r).mpr hr), hnone⟩

/-- A record above all others answers the reads of its key that see it. -/
theorem Reads.insert [DecidableEq κ] {r : ρ} (habove : ∀ r' ∈ S, V.seq r' ≤ V.seq r)
    (hseq : V.seq r < h) (hv : V.Reads S k h v) :
    V.Reads (S ∪ {r}) k h (if V.key r = k then V.value r else v) := by
  split_ifs with hk
  · left
    refine ⟨r, ⟨⟨Or.inr rfl, hk, hseq⟩, ?_⟩, rfl⟩
    rintro r' ⟨hr' | rfl, -⟩
    · exact habove r' hr'
    · exact le_rfl
  · refine hv.congr (fun r' => ?_)
    constructor
    · exact fun hr' => hr'.mono Set.subset_union_left
    · rintro ⟨hr' | rfl, hk', hs'⟩
      · exact ⟨hr', hk', hs'⟩
      · exact absurd hk' hk

/-- Records at or above the horizon do not matter. -/
theorem Reads.union_above (hT : ∀ r ∈ T, h ≤ V.seq r) (hv : V.Reads S k h v) :
    V.Reads (S ∪ T) k h v := by
  refine hv.congr (fun r => ⟨fun hr => hr.mono Set.subset_union_left, ?_⟩)
  rintro ⟨hr | hr, hk, hs⟩
  · exact ⟨hr, hk, hs⟩
  · exact absurd hs (not_lt.mpr (hT r hr))

/-- The records of a list. -/
def ofList (l : List ρ) : Set ρ := {r | r ∈ l}

/-- The records of several sources together. -/
def pool (sources : List (List ρ)) : Set ρ := {r | ∃ s ∈ sources, r ∈ s}

@[simp] theorem mem_ofList {l : List ρ} {r : ρ} : r ∈ ofList l ↔ r ∈ l := Iff.rfl

theorem ofList_append (a b : List ρ) : ofList (a ++ b) = ofList a ∪ ofList b := by
  ext r
  simp [ofList]

theorem mem_pool {sources : List (List ρ)} {r : ρ} :
    r ∈ pool sources ↔ ∃ s ∈ sources, r ∈ s := Iff.rfl

@[simp] theorem pool_nil : pool ([] : List (List ρ)) = ∅ := by
  ext r
  simp [pool]

@[simp] theorem pool_cons (s : List ρ) (sources : List (List ρ)) :
    pool (s :: sources) = ofList s ∪ pool sources := by
  ext r
  simp [pool, ofList]

theorem pool_append (a b : List (List ρ)) : pool (a ++ b) = pool a ∪ pool b := by
  ext r
  simp only [mem_pool, List.mem_append, Set.mem_union]
  constructor
  · rintro ⟨s, hs | hs, hr⟩
    · exact Or.inl ⟨s, hs, hr⟩
    · exact Or.inr ⟨s, hs, hr⟩
  · rintro (⟨s, hs, hr⟩ | ⟨s, hs, hr⟩)
    · exact ⟨s, Or.inl hs, hr⟩
    · exact ⟨s, Or.inr hs, hr⟩

theorem pool_eq_flatten (sources : List (List ρ)) : pool sources = ofList sources.flatten := by
  ext r
  simp [pool, ofList, List.mem_flatten]

/-- Among finitely many records a visible one has a newest. -/
theorem exists_newest (l : List ρ) {r : ρ} (hr : V.Visible (ofList l) k h r) :
    ∃ r', V.Newest (ofList l) k h r' := by
  induction l generalizing r with
  | nil => exact absurd hr.1 (by simp)
  | cons a l ih =>
      by_cases hl : ∃ x, V.Visible (ofList l) k h x
      · obtain ⟨x, hx⟩ := hl
        obtain ⟨m, hm⟩ := ih hx
        by_cases ha : V.key a = k ∧ V.seq a < h ∧ V.seq m < V.seq a
        · refine ⟨a, ⟨by simp, ha.1, ha.2.1⟩, ?_⟩
          rintro y ⟨hy, hyk, hys⟩
          rcases List.mem_cons.mp hy with rfl | hy
          · exact le_rfl
          · exact le_of_lt (lt_of_le_of_lt (hm.2 y ⟨hy, hyk, hys⟩) ha.2.2)
        · refine ⟨m, ⟨List.mem_cons_of_mem _ hm.1.1, hm.1.2⟩, ?_⟩
          rintro y ⟨hy, hyk, hys⟩
          rcases List.mem_cons.mp hy with rfl | hy
          · by_contra hlt
            exact ha ⟨hyk, hys, not_le.mp hlt⟩
          · exact hm.2 y ⟨hy, hyk, hys⟩
      · refine ⟨r, hr, ?_⟩
        have honly : ∀ y, V.Visible (ofList (a :: l)) k h y → y = a := by
          rintro y ⟨hy, hyk, hys⟩
          rcases List.mem_cons.mp hy with rfl | hy
          · rfl
          · exact absurd ⟨y, hy, hyk, hys⟩ hl
        intro y hy
        rw [honly y hy, honly r hr]

/-- Sources, newest first, that a read may search in order. -/
def Layered (V : Versioning ρ κ ν) (k : κ) (h : Nat) (sources : List (List ρ)) : Prop :=
  sources.Pairwise (fun newer older => V.Above k h (ofList newer) (ofList older))

/-- The answer of one source. -/
def Finds (V : Versioning ρ κ ν) (k : κ) (h : Nat) (s : List ρ) : Option ρ → Prop
  | some r => V.Newest (ofList s) k h r
  | none => V.Hidden (ofList s) k h

/-- Over layered sources the first answer is the read of the whole. -/
theorem reads_findSome (look : List ρ → Option ρ) {sources : List (List ρ)}
    (hlay : V.Layered k h sources) (hlook : ∀ s ∈ sources, V.Finds k h s (look s)) :
    V.Reads (pool sources) k h ((sources.findSome? look).bind V.value) := by
  induction sources with
  | nil =>
      right
      exact ⟨fun r hr => by simpa using hr.1, rfl⟩
  | cons s ss ih =>
      have hs := hlook s (by simp)
      have hlay' := List.pairwise_cons.mp hlay
      rw [List.findSome?_cons]
      cases hl : look s with
      | some r =>
          rw [hl] at hs
          left
          have hmem : r ∈ pool (s :: ss) := ⟨s, by simp, hs.1.1⟩
          refine ⟨r, ⟨⟨hmem, hs.1.2⟩, ?_⟩, rfl⟩
          rintro r' ⟨hr', hk', hs'⟩
          rw [pool_cons] at hr'
          rcases hr' with hr' | ⟨o, ho, hr'⟩
          · exact hs.2 r' ⟨hr', hk', hs'⟩
          · obtain ⟨r'', hr'', hle⟩ := hlay'.1 o ho r hs.1 r' ⟨hr', hk', hs'⟩
            exact le_trans hle (hs.2 r'' hr'')
      | none =>
          rw [hl] at hs
          refine (ih hlay'.2 (fun x hx => hlook x (by simp [hx]))).congr (fun r => ?_)
          rw [pool_cons]
          constructor
          · exact fun hr => hr.mono Set.subset_union_right
          · rintro ⟨hr | hr, hk, hsq⟩
            · exact absurd ⟨hr, hk, hsq⟩ (hs r)
            · exact ⟨hr, hk, hsq⟩

/-- What `A` answers is the read of `A` and `B` together exactly when a newer record of `B`
has the same value. -/
theorem Newest.reads_union_iff {A : Set ρ} {b : List ρ} {r : ρ}
    (hone : V.OnePerSeq (A ∪ ofList b)) (hr : V.Newest A k h r) :
    V.Reads (A ∪ ofList b) k h (V.value r) ↔
      ∀ t, V.Newest (ofList b) k h t → V.seq r < V.seq t → V.value t = V.value r := by
  have hover : ∀ t, V.Newest (ofList b) k h t → V.seq r < V.seq t →
      V.Newest (A ∪ ofList b) k h t := by
    refine fun t ht hlt => ⟨ht.1.mono Set.subset_union_right, ?_⟩
    rintro x ⟨hx | hx, hxk⟩
    · exact le_of_lt (lt_of_le_of_lt (hr.2 x ⟨hx, hxk⟩) hlt)
    · exact ht.2 x ⟨hx, hxk⟩
  constructor
  · intro hreads t ht hlt
    exact Reads.unique hone (Or.inl ⟨t, hover t ht hlt, rfl⟩) hreads
  · intro hsame
    by_cases hnewer : ∃ t, V.Newest (ofList b) k h t ∧ V.seq r < V.seq t
    · obtain ⟨t, ht, hlt⟩ := hnewer
      exact Or.inl ⟨t, hover t ht hlt, hsame t ht hlt⟩
    · refine Or.inl ⟨r, ⟨hr.1.mono Set.subset_union_left, ?_⟩, rfl⟩
      rintro x ⟨hx | hx, hxk⟩
      · exact hr.2 x ⟨hx, hxk⟩
      · obtain ⟨t, ht⟩ := exists_newest b ⟨hx, hxk⟩
        exact (ht.2 x ⟨hx, hxk⟩).trans (not_lt.mp fun hlt => hnewer ⟨t, ht, hlt⟩)

/-- Where `A` has no answer, `B` has it. -/
theorem Hidden.reads_union {A B : Set ρ} (hA : V.Hidden A k h) (hB : V.Reads B k h v) :
    V.Reads (A ∪ B) k h v := by
  refine hB.congr fun r => ⟨fun hr => hr.mono Set.subset_union_right, ?_⟩
  rintro ⟨hr | hr, hk⟩
  · exact absurd ⟨hr, hk⟩ (hA r)
  · exact ⟨hr, hk⟩

/-- `merged` stands for the sources of `run` in a read: it holds nothing else,
and keeps the newest visible record, unless tombstones are dropped and that is
one, and then it holds nothing visible. -/
structure Condenses (V : Versioning ρ κ ν) (k : κ) (h : Nat) (dropping : Prop)
    (run merged : Set ρ) : Prop where
  subset : merged ⊆ run
  newest : ∀ r, V.Newest run k h r →
    r ∈ merged ∨ (dropping ∧ V.value r = none ∧ V.Hidden merged k h)

/-- The newest record stays where it can be seen, unless it is a tombstone that is dropped. -/
theorem Condenses.keeps {newer run merged older : Set ρ} {dropping : Prop} {r : ρ}
    (hc : V.Condenses k h dropping run merged) (hone : V.OnePerSeq (newer ∪ run ∪ older))
    (habove : V.Above k h newer run) (hr : V.Newest (newer ∪ run ∪ older) k h r) :
    r ∈ newer ∪ merged ∪ older ∨
      (dropping ∧ V.value r = none ∧ V.Hidden newer k h ∧ V.Hidden merged k h) := by
  rcases hr.1.1 with (hr1 | hr1) | hr1
  · exact Or.inl (Or.inl (Or.inl hr1))
  · have hrun : V.Newest run k h r :=
      ⟨⟨hr1, hr.1.2⟩, fun r' hr' => hr.2 r' (hr'.mono fun _ hx => Or.inl (Or.inr hx))⟩
    rcases hc.newest r hrun with hmem | ⟨hdrop, hval, hhid⟩
    · exact Or.inl (Or.inl (Or.inr hmem))
    · by_cases hnew : ∃ a, V.Visible newer k h a
      · -- a newer source sees the same tombstone
        obtain ⟨a, ha⟩ := hnew
        obtain ⟨a', ha', hle⟩ := habove a ha r hrun.1
        have hle' := hr.2 a' (ha'.mono fun _ hx => Or.inl (Or.inl hx))
        have : a' = r := hone a' (Or.inl (Or.inl ha'.1)) r hr.1.1
          (ha'.2.1.trans hr.1.2.1.symm) (le_antisymm hle' hle)
        subst this
        exact Or.inl (Or.inl (Or.inl ha'.1))
      · exact Or.inr ⟨hdrop, hval, fun a ha => hnew ⟨a, ha⟩, hhid⟩
  · exact Or.inl (Or.inr hr1)

/-- Condensing does not change what is read. -/
theorem Reads.condense {newer run merged older : Set ρ} {dropping : Prop}
    (hone : V.OnePerSeq (newer ∪ run ∪ older)) (habove : V.Above k h newer run)
    (hc : V.Condenses k h dropping run merged) (hold : dropping → V.Hidden older k h)
    (hv : V.Reads (newer ∪ run ∪ older) k h v) :
    V.Reads (newer ∪ merged ∪ older) k h v := by
  have hsub : newer ∪ merged ∪ older ⊆ newer ∪ run ∪ older :=
    Set.union_subset_union_left _ (Set.union_subset_union_right _ hc.subset)
  rcases hv with ⟨r, hr, rfl⟩ | ⟨hhid, rfl⟩
  · rcases hc.keeps hone habove hr with hmem | ⟨hdrop, hval, hnew, hhid⟩
    · exact Or.inl ⟨r, ⟨⟨hmem, hr.1.2⟩, fun r' hr' => hr.2 r' (hr'.mono hsub)⟩, rfl⟩
    · refine Or.inr ⟨?_, hval⟩
      rintro x ⟨(hx | hx) | hx, hxk⟩
      · exact hnew x ⟨hx, hxk⟩
      · exact hhid x ⟨hx, hxk⟩
      · exact hold hdrop x ⟨hx, hxk⟩
  · exact Or.inr ⟨hhid.mono hsub, rfl⟩

/-- A value that a dropped tombstone no longer covers: nothing newer and nothing of the merge is
visible, and the sources that are still there have a value. -/
structure Resurfaces (V : Versioning ρ κ ν) (k : κ) (h : Nat) (newer merged kept : Set ρ) :
    Prop where
  newer : V.Hidden newer k h
  merged : V.Hidden merged k h
  value : ∃ t, V.Newest kept k h t ∧ V.value t ≠ none

/-- What resurfaces resurfaces beside older sources too. -/
theorem Resurfaces.beside {newer merged kept older : Set ρ}
    (hr : V.Resurfaces k h newer merged kept)
    (habove : V.Above k h kept older) : V.Resurfaces k h newer merged (kept ∪ older) := by
  obtain ⟨hnew, hmerged, t, ht, hval⟩ := hr
  refine ⟨hnew, hmerged, t, ⟨ht.1.mono Set.subset_union_left, ?_⟩, hval⟩
  rintro r ⟨hr | hr, hkey⟩
  · exact ht.2 r ⟨hr, hkey⟩
  · obtain ⟨x, hx, hle⟩ := habove t ht.1 r ⟨hr, hkey⟩
    exact le_trans hle (ht.2 x hx)

/-- Where nothing else is visible, the newest record of the sources that are still there is the
newest of all. -/
theorem Newest.of_kept {newer merged kept older : Set ρ} {t : ρ} (hnew : V.Hidden newer k h)
    (hhid : V.Hidden merged k h) (hold : V.Hidden older k h) (ht : V.Newest kept k h t) :
    V.Newest (newer ∪ (merged ∪ kept) ∪ older) k h t := by
  refine ⟨ht.1.mono fun _ hx => Or.inl (Or.inr (Or.inr hx)), ?_⟩
  rintro x ⟨(hx | hx | hx) | hx, hxk⟩
  · exact absurd ⟨hx, hxk⟩ (hnew x)
  · exact absurd ⟨hx, hxk⟩ (hhid x)
  · exact ht.2 x ⟨hx, hxk⟩
  · exact absurd ⟨hx, hxk⟩ (hold x)

/-- A merge beside some of the sources it stands for reads like them, unless a value
resurfaces. -/
theorem Reads.condense_beside_iff {newer merged older : Set ρ} {run kept : List ρ}
    {dropping : Prop} (hone : V.OnePerSeq (newer ∪ ofList run ∪ older))
    (habove : V.Above k h newer (ofList run))
    (hc : V.Condenses k h dropping (ofList run) merged) (hold : dropping → V.Hidden older k h)
    (hkept : kept ⊆ run) (hv : V.Reads (newer ∪ ofList run ∪ older) k h v) :
    V.Reads (newer ∪ (merged ∪ ofList kept) ∪ older) k h v ↔
      ¬ V.Resurfaces k h newer merged (ofList kept) := by
  have hsub : newer ∪ (merged ∪ ofList kept) ∪ older ⊆ newer ∪ ofList run ∪ older :=
    Set.union_subset_union_left _ (Set.union_subset_union_right _
      (Set.union_subset hc.subset hkept))
  constructor
  · -- the value that resurfaces is read, and the tombstone was
    rintro hreads ⟨hnew, hhid, t, ht, hval⟩
    obtain ⟨r, hr⟩ := exists_newest run (ht.1.mono hkept)
    rcases hc.newest r hr with hmem | ⟨hdrop, htomb, -⟩
    · exact hhid r ⟨hmem, hr.1.2⟩
    · have hbefore : V.Reads (newer ∪ ofList run ∪ older) k h none := by
        refine Or.inl ⟨r, ⟨hr.1.mono fun _ hx => Or.inl (Or.inr hx), ?_⟩, htomb⟩
        rintro x ⟨(hx | hx) | hx, hxk⟩
        · exact absurd ⟨hx, hxk⟩ (hnew x)
        · exact hr.2 x ⟨hx, hxk⟩
        · exact absurd ⟨hx, hxk⟩ (hold hdrop x)
      have hafter : V.Reads (newer ∪ (merged ∪ ofList kept) ∪ older) k h (V.value t) :=
        Or.inl ⟨t, ht.of_kept hnew hhid (hold hdrop), rfl⟩
      rw [Reads.unique hone hv hbefore] at hreads
      exact hval (Reads.unique (hone.mono hsub) hafter hreads)
  · intro hno
    rcases hv with ⟨r, hr, rfl⟩ | ⟨hhid, rfl⟩
    · rcases hc.keeps hone habove hr with hmem | ⟨hdrop, htomb, hnew, hhid⟩
      · have hmem' : r ∈ newer ∪ (merged ∪ ofList kept) ∪ older := by
          rcases hmem with (hx | hx) | hx
          · exact Or.inl (Or.inl hx)
          · exact Or.inl (Or.inr (Or.inl hx))
          · exact Or.inr hx
        exact Or.inl ⟨r, ⟨⟨hmem', hr.1.2⟩, fun r' hr' => hr.2 r' (hr'.mono hsub)⟩, rfl⟩
      · rw [htomb]
        by_cases hvis : ∃ x, V.Visible (ofList kept) k h x
        · obtain ⟨x, hx⟩ := hvis
          obtain ⟨t, ht⟩ := exists_newest kept hx
          refine Or.inl ⟨t, ht.of_kept hnew hhid (hold hdrop), ?_⟩
          by_contra hval
          exact hno ⟨hnew, hhid, t, ht, hval⟩
        · refine Or.inr ⟨?_, rfl⟩
          rintro x ⟨(hx | hx | hx) | hx, hxk⟩
          · exact hnew x ⟨hx, hxk⟩
          · exact hhid x ⟨hx, hxk⟩
          · exact hvis ⟨x, hx, hxk⟩
          · exact hold hdrop x ⟨hx, hxk⟩
    · exact Or.inr ⟨hhid.mono hsub, rfl⟩

/-- Condensing keeps sources layered. -/
theorem Layered.condense {newer run older : List (List ρ)} {merged : List ρ}
    {dropping : Prop} (hlay : V.Layered k h (newer ++ run ++ older))
    (hc : V.Condenses k h dropping (pool run) (ofList merged)) :
    V.Layered k h (newer ++ [merged] ++ older) := by
  obtain ⟨hnr, hold, hcross⟩ := List.pairwise_append.mp hlay
  obtain ⟨hnew, _, hnewrun⟩ := List.pairwise_append.mp hnr
  refine List.pairwise_append.mpr ⟨List.pairwise_append.mpr ⟨hnew, by simp, ?_⟩, hold, ?_⟩
  · intro a ha m hm
    obtain rfl := List.mem_singleton.mp hm
    intro x hx y hy
    obtain ⟨s, hs, hys⟩ := hc.subset hy.1
    exact hnewrun a ha s hs x hx y ⟨hys, hy.2⟩
  · intro m hm o ho
    rcases List.mem_append.mp hm with hm | hm
    · exact hcross m (List.mem_append_left _ hm) o ho
    · obtain rfl := List.mem_singleton.mp hm
      intro x hx y hy
      obtain ⟨s, hs, hxs⟩ := hc.subset hx.1
      have hxrun : V.Visible (ofList run.flatten) k h x :=
        ⟨List.mem_flatten.mpr ⟨s, hs, hxs⟩, hx.2⟩
      obtain ⟨n, hn⟩ := exists_newest run.flatten hxrun
      rw [← pool_eq_flatten] at hn
      obtain ⟨z, hz, hyz⟩ := hcross s (List.mem_append_right _ hs) o ho x ⟨hxs, hx.2⟩ y hy
      have hzn := hn.2 z ⟨⟨s, hs, hz.1⟩, hz.2⟩
      rcases hc.newest n hn with hmem | ⟨_, _, hhid⟩
      · exact ⟨n, ⟨hmem, hn.1.2⟩, le_trans hyz hzn⟩
      · exact absurd hx (hhid x)

/-- So does a merge beside some of the sources it stands for. -/
theorem Layered.condense_beside {newer run kept older : List (List ρ)} {merged : List ρ}
    {dropping : Prop} (hlay : V.Layered k h (newer ++ run ++ older))
    (hc : V.Condenses k h dropping (pool run) (ofList merged)) (hkept : kept.Sublist run) :
    V.Layered k h (newer ++ (merged :: kept) ++ older) := by
  have hmerged := List.pairwise_append.mp (hlay.condense hc)
  have hnewer := List.pairwise_append.mp hmerged.1
  have hrest := List.pairwise_append.mp
    (List.Pairwise.sublist (((List.Sublist.refl newer).append hkept).append (.refl older)) hlay)
  have hbeside := List.pairwise_append.mp hrest.1
  refine List.pairwise_append.mpr ⟨List.pairwise_append.mpr ⟨hnewer.1,
    List.pairwise_cons.mpr ⟨?_, hbeside.2.1⟩, ?_⟩, hmerged.2.1, ?_⟩
  · -- where the merge has a version, it has the newest of the run
    intro s hs x hx y hy
    obtain ⟨u, hu, hxu⟩ := hc.subset hx.1
    obtain ⟨n, hn⟩ := exists_newest run.flatten
      (r := x) ⟨List.mem_flatten.mpr ⟨u, hu, hxu⟩, hx.2⟩
    rw [← pool_eq_flatten] at hn
    rcases hc.newest n hn with hmem | ⟨_, _, hhid⟩
    · exact ⟨n, ⟨hmem, hn.1.2⟩, hn.2 y ⟨⟨s, hkept.subset hs, hy.1⟩, hy.2⟩⟩
    · exact absurd hx (hhid x)
  · intro a ha m hm
    rcases List.mem_cons.mp hm with rfl | hm
    · exact hnewer.2.2 a ha m (by simp)
    · exact hbeside.2.2 a ha m hm
  · intro m hm o ho
    rcases List.mem_append.mp hm with hm | hm
    · exact hmerged.2.2 m (List.mem_append_left _ hm) o ho
    · rcases List.mem_cons.mp hm with rfl | hm
      · exact hmerged.2.2 m (by simp) o ho
      · exact hrest.2.2 m (List.mem_append_right _ hm) o ho

/-- Per key, a newer source has only newer records, and within a source no two
records share key and sequence number. -/
structure Stacked (V : Versioning ρ κ ν) (sources : List (List ρ)) : Prop where
  each : ∀ s ∈ sources, V.OnePerSeq (ofList s)
  across : sources.Pairwise (fun newer older =>
    ∀ a ∈ newer, ∀ b ∈ older, V.key a = V.key b → V.seq b < V.seq a)

section Stacked

variable {sources newer run older : List (List ρ)} {merged : List ρ}

theorem Stacked.sublist {part : List (List ρ)} (hst : V.Stacked sources)
    (hsub : part.Sublist sources) : V.Stacked part :=
  ⟨fun s hs => hst.each s (hsub.subset hs), hst.across.sublist hsub⟩

theorem Stacked.tail {s : List ρ} (hst : V.Stacked (s :: sources)) : V.Stacked sources :=
  hst.sublist (List.sublist_cons_self s sources)

theorem Stacked.onePerSeq (hst : V.Stacked sources) : V.OnePerSeq (pool sources) := by
  induction sources with
  | nil =>
      rintro r ⟨s, hs, -⟩
      cases hs
  | cons s ss ih =>
      have hcons := List.pairwise_cons.mp hst.across
      rintro r ⟨a, ha, hr⟩ r' ⟨b, hb, hr'⟩ hk hq
      rcases List.mem_cons.mp ha with ha' | ha'
      · rw [ha'] at hr
        rcases List.mem_cons.mp hb with hb' | hb'
        · rw [hb'] at hr'
          exact hst.each s (by simp) r hr r' hr' hk hq
        · exact absurd hq (ne_of_gt (hcons.1 b hb' r hr r' hr' hk))
      · rcases List.mem_cons.mp hb with hb' | hb'
        · rw [hb'] at hr'
          exact absurd hq (ne_of_lt (hcons.1 a ha' r' hr' r hr hk.symm))
        · exact ih hst.tail r ⟨a, ha', hr⟩ r' ⟨b, hb', hr'⟩ hk hq

/-- Stacked sources are layered for every read. -/
theorem Stacked.layered (hst : V.Stacked sources) (k : κ) (h : Nat) : V.Layered k h sources :=
  hst.across.imp fun hab a ha b hb =>
    ⟨a, ha, le_of_lt (hab a ha.1 b hb.1 (ha.2.1.trans hb.2.1.symm))⟩

theorem Stacked.above (hst : V.Stacked (newer ++ older)) (k : κ) (h : Nat) :
    V.Above k h (pool newer) (pool older) := by
  rintro a ⟨⟨s, hs, ha⟩, hk, hq⟩ b ⟨⟨t, ht, hb⟩, hk', _⟩
  have := (List.pairwise_append.mp hst.across).2.2 s hs t ht a ha b hb (hk.trans hk'.symm)
  exact ⟨a, ⟨⟨s, hs, ha⟩, hk, hq⟩, le_of_lt this⟩

/-- Neighbouring sources may be replaced by a part of them. -/
theorem Stacked.condense (hst : V.Stacked (newer ++ run ++ older))
    (hsub : ofList merged ⊆ pool run) : V.Stacked (newer ++ [merged] ++ older) := by
  obtain ⟨hnr, hold, hcross⟩ := List.pairwise_append.mp hst.across
  obtain ⟨hnew, _, hnewrun⟩ := List.pairwise_append.mp hnr
  refine ⟨?_, List.pairwise_append.mpr ⟨List.pairwise_append.mpr ⟨hnew, by simp, ?_⟩, hold, ?_⟩⟩
  · intro s hs
    rcases List.mem_append.mp hs with hs | hs
    · rcases List.mem_append.mp hs with hs | hs
      · exact hst.each s (by simp [hs])
      · rw [List.mem_singleton.mp hs]
        refine hst.onePerSeq.mono fun r hr => ?_
        obtain ⟨t, ht, hr⟩ := hsub hr
        exact ⟨t, by simp [ht], hr⟩
    · exact hst.each s (by simp [hs])
  · intro s hs m hm a ha b hb hk
    rw [List.mem_singleton.mp hm] at hb
    obtain ⟨t, ht, hbt⟩ := hsub hb
    exact hnewrun s hs t ht a ha b hbt hk
  · intro s hs o ho a ha b hb hk
    rcases List.mem_append.mp hs with hs | hs
    · exact hcross s (List.mem_append_left _ hs) o ho a ha b hb hk
    · rw [List.mem_singleton.mp hs] at ha
      obtain ⟨t, ht, hat⟩ := hsub ha
      exact hcross t (List.mem_append_right _ ht) o ho a hat b hb hk

/-- A search of the merge beside some of the sources it stands for finds what is read, unless a
value resurfaces. -/
theorem Stacked.search_beside_iff (look : List ρ → Option ρ) {kept : List (List ρ)}
    {dropping : Prop} (hst : V.Stacked (newer ++ run ++ older))
    (hc : V.Condenses k h dropping (pool run) (ofList merged)) (hold : dropping → older = [])
    (hkept : kept.Sublist run)
    (hlook : ∀ s ∈ newer ++ (merged :: kept) ++ older, V.Finds k h s (look s))
    (hv : V.Reads (pool (newer ++ run ++ older)) k h v) :
    ((newer ++ (merged :: kept) ++ older).findSome? look).bind V.value = v ↔
      ¬ V.Resurfaces k h (pool newer) (ofList merged) (pool kept) := by
  have hfound := reads_findSome look ((hst.layered k h).condense_beside hc hkept) hlook
  have hone := hst.onePerSeq
  have habove : V.Above k h (pool newer) (pool run) := by
    rw [List.append_assoc] at hst
    refine (hst.above k h).mono ?_
    rw [pool_append]
    exact Set.subset_union_left
  have hhid : dropping → V.Hidden (pool older) k h := by
    intro hdrop r hr
    rw [hold hdrop, pool_nil] at hr
    exact hr.1
  rw [pool_append, pool_append, pool_cons, pool_eq_flatten kept] at hfound
  rw [pool_append, pool_append, pool_eq_flatten run] at hone hv
  rw [pool_eq_flatten run] at habove hc
  have hsub : kept.flatten ⊆ run.flatten := by
    intro r hr
    obtain ⟨s, hs, hr⟩ := List.mem_flatten.mp hr
    exact List.mem_flatten.mpr ⟨s, hkept.subset hs, hr⟩
  rw [pool_eq_flatten kept, ← hv.condense_beside_iff hone habove hc hhid hsub]
  refine ⟨fun heq => heq ▸ hfound, fun hread => Reads.unique (hone.mono ?_) hfound hread⟩
  exact Set.union_subset_union_left _ (Set.union_subset_union_right _
    (Set.union_subset hc.subset fun r hr => hsub hr))

end Stacked

end Versioning

end Foundation
end LsmKv
