import LsmKv.Foundation.Versions
import Mathlib.Data.List.Induction

/-!
# Sources that stand for a history

A history is a list of records whose sequence numbers rise in the order they were
written.  What a store keeps of a part of it may be less: superseded versions go,
and with them tombstones that have nothing left to hide.  `StandsFor T S D h`
says that `T` is such a remainder of `S` for reads below `h`, and that every
tombstone it went without is in `D`.

A history comes in batches; `span W i j` is the part of it from the `i`-th batch
up to the `j`-th.

**Results.**
* `span_split`, `Rising.spans`: spans that meet make one, and later spans have
  higher sequence numbers.
* `reads_valueAfter`: a read of a whole history is the last value written.
* `reads_first_answer`, `StandsFor.reads_cut`: sources read at different moments
  show one beginning of the history.
* `StandsFor.reads`, `StandsFor.reads_union`: reads of the remainder, alone or
  beside newer records, are reads of the history.
* `StandsFor.extend`, `StandsFor.condense`: newer records may be added on both
  sides, and neighbouring sources may be merged.
-/

namespace LsmKv
namespace Foundation
namespace Versioning

variable {ρ κ ν : Type} (V : Versioning ρ κ ν)

/-- Sequence numbers rise along the list. -/
def Rising (l : List ρ) : Prop := l.Pairwise (fun a b => V.seq a < V.seq b)

/-- The value the records of `l` leave at `k`, one written after another. -/
def valueAfter [DecidableEq κ] (l : List ρ) (k : κ) : Option ν :=
  l.foldl (fun v r => if V.key r = k then V.value r else v) none

/-- `T` is what is kept of `S` for reads below `h`: the newest visible record of
every key, or nothing visible where that is a tombstone of `D`. -/
structure StandsFor (T S D : Set ρ) (h : Nat) : Prop where
  subset : T ⊆ S
  newest : ∀ k r, V.Newest S k h r →
    r ∈ T ∨ (V.value r = none ∧ r ∈ D ∧ V.Hidden T k h)

/-- The records of the batches from the `i`-th up to the `j`-th. -/
def span (W : List (List ρ)) (i j : Nat) : List ρ := ((W.take j).drop i).flatten

variable {V}

section Span

variable {W : List (List ρ)} {b : List ρ} {i j k : Nat}

theorem span_of_le (W : List (List ρ)) (h : j ≤ i) : span W i j = [] := by
  rw [span, List.drop_eq_nil_of_le (by rw [List.length_take]; omega), List.flatten_nil]

@[simp] theorem span_self (W : List (List ρ)) (i : Nat) : span W i i = [] := span_of_le W le_rfl

theorem span_zero_length (W : List (List ρ)) : span W 0 W.length = W.flatten := by
  rw [span, List.take_length, List.drop_zero]

/-- Spans that meet make one. -/
theorem span_split (hij : i ≤ j) (hjk : j ≤ k) : span W i k = span W i j ++ span W j k := by
  have htake : W.take k = W.take j ++ (W.take k).drop j := by
    conv_lhs => rw [← List.take_append_drop j (W.take k), List.take_take, min_eq_left hjk]
  unfold span
  rw [← List.flatten_append]
  congr 1
  by_cases hlen : i ≤ (W.take j).length
  · conv_lhs => rw [htake, List.drop_append_of_le_length hlen]
  · -- the history ends before `i`
    have hnil : ∀ l, (W.take l).drop i = [] := fun l => List.drop_eq_nil_of_le (by
      rw [List.length_take] at hlen ⊢
      omega)
    have hnil' : (W.take k).drop j = [] := List.drop_eq_nil_of_le (by
      rw [List.length_take] at hlen ⊢
      omega)
    rw [hnil, hnil, hnil', List.append_nil]

/-- What is written later is in no earlier span. -/
theorem span_begins {W' : List (List ρ)} (h : W <+: W') (hj : j ≤ W.length) :
    span W' i j = span W i j := by
  obtain ⟨rest, rfl⟩ := h
  rw [span, List.take_append_of_le_length hj, span]

/-- A batch behind the history is in no earlier span. -/
theorem span_concat_of_le (hj : j ≤ W.length) : span (W ++ [b]) i j = span W i j :=
  span_begins ⟨[b], rfl⟩ hj

theorem span_concat (hi : i ≤ W.length) :
    span (W ++ [b]) i (W ++ [b]).length = span W i W.length ++ b := by
  rw [span, List.take_length, span, List.take_length, List.drop_append_of_le_length hi,
    List.flatten_append, List.flatten_singleton]

/-- A part of a span. -/
theorem span_mono {i' j' : Nat} (hi : i' ≤ i) (hj : j ≤ j') {r : ρ} (h : r ∈ span W i j) :
    r ∈ span W i' j' := by
  by_cases hij : i ≤ j
  · rw [span_split (hi.trans hij) hj, span_split hi hij]
    simp [h]
  · rw [span_of_le W (by omega)] at h
    cases h

theorem mem_span {r : ρ} (h : r ∈ span W i j) : r ∈ W.flatten := by
  obtain ⟨b, hb, hr⟩ := List.mem_flatten.mp h
  exact List.mem_flatten.mpr ⟨b, List.mem_of_mem_take (List.mem_of_mem_drop hb), hr⟩

/-- A span from inside the beginning, with the beginning. -/
theorem span_union (hij : i ≤ j) :
    (ofList (span W 0 j) ∪ ofList (span W i k) : Set ρ) = ofList (span W 0 (max j k)) := by
  apply Set.Subset.antisymm
  · rintro r (hr | hr)
    · exact span_mono le_rfl (le_max_left j k) hr
    · exact span_mono (Nat.zero_le i) (le_max_right j k) hr
  · intro r hr
    rw [span_split (Nat.zero_le j) (le_max_left j k), ofList_append] at hr
    rcases hr with hr | hr
    · exact Or.inl hr
    · rcases le_total j k with hjk | hkj
      · rw [max_eq_right hjk] at hr
        exact Or.inr (span_mono hij le_rfl hr)
      · rw [max_eq_left hkj, span_self] at hr
        cases hr

end Span

section Rising

variable {l l' : List ρ}

theorem Rising.sublist (hl : V.Rising l) (hsub : l'.Sublist l) : V.Rising l' :=
  List.Pairwise.sublist hsub hl

theorem Rising.onePerSeq (hl : V.Rising l) : V.OnePerSeq (ofList l) := by
  induction l with
  | nil => exact fun r hr => absurd hr (by simp)
  | cons a l ih =>
      obtain ⟨ha, hrest⟩ := List.pairwise_cons.mp hl
      intro r hr r' hr' hk hq
      rcases List.mem_cons.mp hr with hra | hrl
      · rcases List.mem_cons.mp hr' with hra' | hrl'
        · rw [hra, hra']
        · exact absurd hq (ne_of_lt (hra ▸ ha r' hrl'))
      · rcases List.mem_cons.mp hr' with hra' | hrl'
        · exact absurd hq (ne_of_gt (hra' ▸ ha r hrl))
        · exact ih hrest r hrl r' hrl' hk hq

/-- Records of the front part are older than those behind. -/
theorem Rising.across (hl : V.Rising (l ++ l')) {a b : ρ} (ha : a ∈ l) (hb : b ∈ l') :
    V.seq a < V.seq b := (List.pairwise_append.mp hl).2.2 a ha b hb

/-- Later spans have higher sequence numbers. -/
theorem Rising.spans {W : List (List ρ)} {i j j' k : Nat} (hW : V.Rising W.flatten)
    (hj : j ≤ j') {a b : ρ} (ha : a ∈ span W i j) (hb : b ∈ span W j' k) :
    V.seq a < V.seq b := by
  have ha' : a ∈ (W.take j).flatten := by
    obtain ⟨l, hl, hal⟩ := List.mem_flatten.mp ha
    exact List.mem_flatten.mpr ⟨l, List.mem_of_mem_drop hl, hal⟩
  have hb' : b ∈ (W.drop j).flatten := by
    obtain ⟨l, hl, hbl⟩ := List.mem_flatten.mp hb
    refine List.mem_flatten.mpr ⟨l, ?_, hbl⟩
    rw [List.drop_take] at hl
    have hdrop := List.mem_of_mem_take hl
    rw [← Nat.add_sub_cancel' hj, ← List.drop_drop] at hdrop
    exact List.mem_of_mem_drop hdrop
  rw [← List.take_append_drop j W, List.flatten_append] at hW
  exact hW.across ha' hb'

/-- The newest record of a span is the newest of the history up to its end. -/
theorem Rising.newest_span {W : List (List ρ)} {i j h : Nat} {k : κ} (hW : V.Rising W.flatten)
    (hij : i ≤ j) {r : ρ} (hr : V.Newest (ofList (span W i j)) k h r) :
    V.Newest (ofList (span W 0 j)) k h r := by
  refine ⟨hr.1.mono fun x hx => span_mono (Nat.zero_le i) le_rfl hx, fun x hx => ?_⟩
  rw [span_split (Nat.zero_le i) hij, ofList_append] at hx
  rcases hx with ⟨hmem | hmem, hkx⟩
  · exact le_of_lt (hW.spans le_rfl hmem hr.1.1)
  · exact hr.2 x ⟨hmem, hkx⟩

/-- A record of a beginning of the history that is newer than all of a span is behind the
span. -/
theorem Rising.newest_behind_iff {W : List (List ρ)} {a n p h : Nat} {k : κ} {r t : ρ}
    (hW : V.Rising W.flatten) (han : a ≤ n) (hr : V.Newest (ofList (span W a n)) k h r) :
    V.Newest (ofList (span W n p)) k h t ↔
      V.Newest (ofList (span W 0 p)) k h t ∧ V.seq r < V.seq t := by
  constructor
  · intro ht
    have hnp : n ≤ p := by
      by_contra hlt
      have hmem := ht.1.1
      rw [span_of_le W (by omega)] at hmem
      cases hmem
    exact ⟨hW.newest_span hnp ht, hW.spans le_rfl hr.1.1 ht.1.1⟩
  · rintro ⟨ht, hlt⟩
    have hbehind : t ∈ ofList (span W n p) := by
      have hmem : t ∈ ofList (span W 0 (max p n)) :=
        span_mono le_rfl (le_max_left p n) ht.1.1
      rw [span_split (Nat.zero_le a) (han.trans (le_max_right p n)),
        span_split han (le_max_right p n), ofList_append, ofList_append] at hmem
      rcases hmem with hmem | hmem | hmem
      · exact absurd (hW.spans le_rfl hmem hr.1.1) (by omega)
      · exact absurd (hr.2 t ⟨hmem, ht.1.2⟩) (by omega)
      · rcases le_total n p with hnp | hpn
        · rwa [max_eq_left hnp] at hmem
        · rw [max_eq_right hpn, span_self] at hmem
          cases hmem
    exact ⟨⟨hbehind, ht.1.2⟩, fun x hx => ht.2 x (hx.mono fun y hy => span_mono (Nat.zero_le n)
      le_rfl hy)⟩

/-- A read goes on past a span in which nothing is visible. -/
theorem Reads.past {W : List (List ρ)} {i j n h : Nat} {k : κ} {v : Option ν}
    (hv : V.Reads (ofList (span W 0 j)) k h v) (hij : i ≤ j)
    (hhid : V.Hidden (ofList (span W i n)) k h) :
    V.Reads (ofList (span W 0 (max j n))) k h v := by
  rw [← span_union hij]
  refine hv.congr fun r => ⟨fun hr => hr.mono Set.subset_union_left, ?_⟩
  rintro ⟨hmem | hmem, hkr⟩
  · exact ⟨hmem, hkr⟩
  · exact absurd ⟨hmem, hkr⟩ (hhid r)

/-- The first answer of three sources read one after another, the newest first, is a
read of the history up to some moment: the first source is a span that begins before
the end of the second, which begins before the end of what the third shows. -/
theorem reads_first_answer {W : List (List ρ)} {p f b a n h : Nat} {k : κ}
    (hW : V.Rising W.flatten) (look : List ρ → Option ρ) {A : List ρ} {F : Option (List ρ)}
    {T : List (List ρ)} (hlook : ∀ s ∈ A :: (F.toList ++ T), V.Finds k h s (look s))
    (hA : ofList A = ofList (span W a n)) (hF : pool F.toList = ofList (span W f b))
    (hT : ∀ v, V.Reads (pool T) k h v → V.Reads (ofList (span W 0 p)) k h v)
    (hlay : V.Layered k h T) (han : a ≤ n) (hfb : f ≤ b) (hfp : f ≤ p) (hab : a ≤ b) :
    ∃ m, n ≤ m ∧ m ≤ max (max p b) n ∧ V.Reads (ofList (span W 0 m)) k h
      (((A :: (F.toList ++ T)).findSome? look).bind V.value) := by
  have hfindA := hlook A (by simp)
  rw [List.findSome?_cons]
  cases hlookA : look A with
  | some r =>
      rw [hlookA] at hfindA
      have hr : V.Newest (ofList (span W a n)) k h r := hA ▸ hfindA
      exact ⟨n, le_rfl, le_max_right _ _, Or.inl ⟨r, hW.newest_span han hr, rfl⟩⟩
  | none =>
      rw [hlookA] at hfindA
      have hhidA : V.Hidden (ofList (span W a n)) k h := hA ▸ hfindA
      have hrest : V.Hidden (ofList (span W f b)) k h →
          V.Reads (ofList (span W 0 (max (max p b) n))) k h
            ((T.findSome? look).bind V.value) := by
        intro hhidF
        have hreads := hT _ (reads_findSome look hlay fun s hs => hlook s (by simp [hs]))
        exact (hreads.past hfp hhidF).past (hab.trans (le_max_right p b)) hhidA
      cases F with
      | none =>
          refine ⟨_, le_max_right _ _, le_rfl, hrest ?_⟩
          rw [← hF]
          rintro r ⟨⟨s, hs, -⟩, -⟩
          cases hs
      | some F =>
          have hfindF := hlook F (by simp)
          have hFset : ofList F = ofList (span W f b) := by
            rw [← hF, Option.toList_some, pool_cons, pool_nil, Set.union_empty]
          rw [Option.toList_some, List.singleton_append, List.findSome?_cons]
          cases hlookF : look F with
          | some r =>
              rw [hlookF] at hfindF
              have hr : V.Newest (ofList (span W f b)) k h r := hFset ▸ hfindF
              have hreads : V.Reads (ofList (span W 0 b)) k h (V.value r) :=
                Or.inl ⟨r, hW.newest_span hfb hr, rfl⟩
              exact ⟨max b n, le_max_right _ _, by omega,
                hreads.past hab hhidA⟩
          | none =>
              rw [hlookF] at hfindF
              exact ⟨_, le_max_right _ _, le_rfl, hrest (hFset ▸ hfindF)⟩

theorem exists_reads (l : List ρ) (k : κ) (h : Nat) : ∃ v, V.Reads (ofList l) k h v := by
  by_cases hvis : ∃ r, V.Visible (ofList l) k h r
  · obtain ⟨r, hr⟩ := hvis
    obtain ⟨r', hr'⟩ := exists_newest l hr
    exact ⟨_, Or.inl ⟨r', hr', rfl⟩⟩
  · exact ⟨none, Or.inr ⟨fun r hr => hvis ⟨r, hr⟩, rfl⟩⟩

theorem valueAfter_concat [DecidableEq κ] (l : List ρ) (r : ρ) (k : κ) :
    V.valueAfter (l ++ [r]) k = if V.key r = k then V.value r else V.valueAfter l k := by
  simp [valueAfter, List.foldl_append]

/-- A read of a whole history returns the last value written. -/
theorem reads_valueAfter [DecidableEq κ] (hl : V.Rising l) {h : Nat}
    (hh : ∀ r ∈ l, V.seq r < h) (k : κ) : V.Reads (ofList l) k h (V.valueAfter l k) := by
  induction l using List.reverseRecOn with
  | nil => exact Or.inr ⟨fun r hr => absurd hr.1 (by simp), rfl⟩
  | append_singleton l r ih =>
      have hprev := ih (hl.sublist (List.sublist_append_left l [r]))
        (fun x hx => hh x (List.mem_append_left _ hx))
      have hset : ofList (l ++ [r]) = ofList l ∪ {r} := by
        ext x
        simp [ofList, or_comm]
      rw [hset, valueAfter_concat]
      exact hprev.insert (fun x hx => le_of_lt (hl.across hx (by simp)))
        (hh r (by simp))

end Rising

section StandsFor

variable {T S D U A N R M O : Set ρ} {k : κ} {h : Nat} {v : Option ν}

theorem StandsFor.refl (S D : Set ρ) (h : Nat) : V.StandsFor S S D h :=
  ⟨fun _ hr => hr, fun _ _ hr => Or.inl hr.1.1⟩

theorem StandsFor.mono {D' : Set ρ} (hst : V.StandsFor T S D h) (hD : D ⊆ D') :
    V.StandsFor T S D' h := by
  refine ⟨hst.subset, fun k r hr => ?_⟩
  rcases hst.newest k r hr with hmem | ⟨hval, hd, hhid⟩
  · exact Or.inl hmem
  · exact Or.inr ⟨hval, hD hd, hhid⟩

/-- What is kept reads as the whole beside records `U` that every tombstone gone
without is older than. -/
theorem StandsFor.reads_union (hst : V.StandsFor T S D h)
    (hD : ∀ d ∈ D, ∀ u ∈ U, d ∈ U ∨ V.seq d < V.seq u) (hv : V.Reads (S ∪ U) k h v) :
    V.Reads (T ∪ U) k h v := by
  have hsub : T ∪ U ⊆ S ∪ U := Set.union_subset_union_left U hst.subset
  rcases hv with ⟨r, hr, rfl⟩ | ⟨hhid, rfl⟩
  · have hkeep : r ∈ T ∪ U → V.Reads (T ∪ U) k h (V.value r) := fun hmem =>
      Or.inl ⟨r, ⟨⟨hmem, hr.1.2⟩, fun x hx => hr.2 x (hx.mono hsub)⟩, rfl⟩
    by_cases hU : r ∈ U
    · exact hkeep (Or.inr hU)
    · have hS : V.Newest S k h r :=
        ⟨⟨hr.1.1.resolve_right hU, hr.1.2⟩, fun x hx => hr.2 x (hx.mono Set.subset_union_left)⟩
      rcases hst.newest k r hS with hmem | ⟨hval, hd, hhid⟩
      · exact hkeep (Or.inl hmem)
      · right
        refine ⟨?_, hval⟩
        rintro x ⟨hx | hx, hk, hq⟩
        · exact hhid x ⟨hx, hk, hq⟩
        · -- a record beside would be newer than the tombstone
          have hle := hr.2 x ⟨Or.inr hx, hk, hq⟩
          rcases hD r hd x hx with hmem | hlt
          · exact hU hmem
          · exact absurd hlt (not_lt.mpr hle)
  · exact Or.inr ⟨hhid.mono hsub, rfl⟩

/-- What is kept reads as the whole. -/
theorem StandsFor.reads (hst : V.StandsFor T S D h) (hv : V.Reads S k h v) :
    V.Reads T k h v := by
  have := hst.reads_union (U := ∅) (by simp) (by rwa [Set.union_empty])
  rwa [Set.union_empty] at this

/-- A read of what is kept is a read of the whole. -/
theorem StandsFor.reads_of {l : List ρ} (hst : V.StandsFor T (ofList l) D h)
    (hone : V.OnePerSeq (ofList l)) (hv : V.Reads T k h v) : V.Reads (ofList l) k h v := by
  obtain ⟨v', hv'⟩ := exists_reads (V := V) l k h
  rwa [hv.unique (hone.mono hst.subset) (hst.reads hv')]

/-- Where no tombstone is gone without, the newest records are kept and no others are newest. -/
theorem StandsFor.newest_iff {l : List ρ} (hst : V.StandsFor T (ofList l) D h) (hD : D = ∅)
    (hone : V.OnePerSeq (ofList l)) {r : ρ} : V.Newest T k h r ↔ V.Newest (ofList l) k h r := by
  have hkept : ∀ {x}, V.Newest (ofList l) k h x → V.Newest T k h x := by
    intro x hx
    rcases hst.newest k x hx with hmem | ⟨_, hd, _⟩
    · exact ⟨⟨hmem, hx.1.2⟩, fun y hy => hx.2 y (hy.mono hst.subset)⟩
    · rw [hD] at hd
      cases hd
  refine ⟨fun hr => ?_, hkept⟩
  obtain ⟨v, ⟨x, hx, -⟩ | ⟨hhid, -⟩⟩ := exists_reads (V := V) l k h
  · rwa [hr.unique (hone.mono hst.subset) (hkept hx)]
  · exact absurd (hr.1.mono hst.subset) (hhid r)

/-- Three sources read at three moments show the history up to the last of them:
what is kept of its beginning, a span that begins inside that, and a span that begins
before the end of the second and behind every tombstone gone without. -/
theorem StandsFor.reads_cut {W : List (List ρ)} {p d f b a n : Nat} (hW : V.Rising W.flatten)
    (hst : V.StandsFor T (ofList (span W 0 p)) (ofList (span W 0 d)) h) (hfp : f ≤ p)
    (hab : a ≤ b) (hda : d ≤ a)
    (hv : V.Reads (ofList (span W 0 (max (max p b) n))) k h v) :
    V.Reads (T ∪ (ofList (span W f b) ∪ ofList (span W a n))) k h v := by
  refine hst.reads_union ?_ ?_
  · rintro x hx u (hu | hu)
    · have hxb : x ∈ span W 0 b := span_mono le_rfl (hda.trans hab) hx
      by_cases hfb : f ≤ b
      · rw [span_split (Nat.zero_le f) hfb] at hxb
        rcases List.mem_append.mp hxb with hxf | hxf
        · exact Or.inr (hW.spans le_rfl hxf hu)
        · exact Or.inl (Or.inl hxf)
      · have hself : u ∈ span W f f := span_mono le_rfl (by omega) hu
        rw [span_self] at hself
        cases hself
    · exact Or.inr (hW.spans hda hx hu)
  · rwa [← Set.union_assoc, span_union hfp, span_union (hab.trans (le_max_right p b))]

/-- Records newer than all of `S` may be added on both sides. -/
theorem StandsFor.extend (hst : V.StandsFor T S D h) (hA : ∀ a ∈ A, ∀ s ∈ S, V.seq s < V.seq a) :
    V.StandsFor (T ∪ A) (S ∪ A) D h := by
  refine ⟨Set.union_subset_union_left A hst.subset, fun k r hr => ?_⟩
  rcases hr.1.1 with hS | hmem
  · have hnew : V.Newest S k h r :=
      ⟨⟨hS, hr.1.2⟩, fun x hx => hr.2 x (hx.mono Set.subset_union_left)⟩
    rcases hst.newest k r hnew with hmem | ⟨hval, hd, hhid⟩
    · exact Or.inl (Or.inl hmem)
    · refine Or.inr ⟨hval, hd, ?_⟩
      rintro x ⟨hx | hx, hk, hq⟩
      · exact hhid x ⟨hx, hk, hq⟩
      · exact absurd (hr.2 x ⟨Or.inr hx, hk, hq⟩) (not_le.mpr (hA x hx r hS))
  · exact Or.inl (Or.inr hmem)

/-- Neighbouring sources `R` may be merged into `M`; the tombstones of a merge
that drops them are those of `R`, and then nothing older may be left. -/
theorem StandsFor.condense {dropping : Prop} (hst : V.StandsFor (N ∪ R ∪ O) S D h)
    (hN : ∀ n ∈ N, ∀ r ∈ R, V.seq r < V.seq n)
    (hc : ∀ k, V.Condenses k h dropping R M) (hO : dropping → O = ∅) {D' : Set ρ}
    (hD : D ⊆ D') (hR : dropping → R ⊆ D') : V.StandsFor (N ∪ M ∪ O) S D' h := by
  have hsub : ∀ k : κ, N ∪ M ∪ O ⊆ N ∪ R ∪ O := fun k =>
    Set.union_subset_union_left _ (Set.union_subset_union_right _ (hc k).subset)
  refine ⟨fun x hx => ?_, fun k r hr => ?_⟩
  · exact hst.subset (hsub (V.key x) hx)
  · rcases hst.newest k r hr with hmem | ⟨hval, hd, hhid⟩
    · rcases hmem with (hmem | hmem) | hmem
      · exact Or.inl (Or.inl (Or.inl hmem))
      · have hnew : V.Newest R k h r := ⟨⟨hmem, hr.1.2⟩, fun x hx =>
          hr.2 x (hx.mono fun y hy => hst.subset (Or.inl (Or.inr hy)))⟩
        rcases (hc k).newest r hnew with hkept | ⟨hdrop, hval, hhid⟩
        · exact Or.inl (Or.inl (Or.inr hkept))
        · refine Or.inr ⟨hval, hR hdrop hmem, ?_⟩
          rintro x ⟨(hx | hx) | hx, hk, hq⟩
          · have hle := hr.2 x ⟨hst.subset (Or.inl (Or.inl hx)), hk, hq⟩
            exact absurd (hN x hx r hmem) (not_lt.mpr hle)
          · exact hhid x ⟨hx, hk, hq⟩
          · rw [hO hdrop] at hx
            exact hx
      · exact Or.inl (Or.inr hmem)
    · exact Or.inr ⟨hval, hD hd, hhid.mono (hsub k)⟩

end StandsFor

end Versioning
end Foundation
end LsmKv
