import LsmKv.Compaction
import LsmKv.Runs

/-!
# What a compaction keeps

**Results.**
* `mergeStream_spec`: the merge hands out all records of the inputs, keys
  ascending.
* `sortedRun_compactRecords`: what is written is a sorted run.
* `compact_preserves_reads`: what reads at or above the horizon see is kept.
* `condenses_compactRecords`: for a read whose horizon is not below the lowest
  snapshot, or is above everything, the output stands for the inputs.
-/

namespace LsmKv

open Foundation Versioning

/-- Keys do not descend. -/
def KeySorted (l : List Record) : Prop := l.Pairwise (fun a b => a.key ≤ b.key)

theorem SortedRun.keySorted {l : List Record} (h : SortedRun l) : KeySorted l :=
  h.imp key_le_of_version_le

section Merge

theorem key_le_of_precedes {a b : MergeItem} (h : a.precedes b = true) :
    a.record.key ≤ b.record.key := by
  unfold MergeItem.precedes at h
  rcases of_decide_eq_true h with h | h
  · exact le_of_lt h
  · exact le_of_eq h.1

theorem key_le_of_not_precedes {a b : MergeItem} (h : ¬ a.precedes b = true) :
    b.record.key ≤ a.record.key := by
  unfold MergeItem.precedes at h
  rw [decide_eq_true_eq, not_or] at h
  exact not_lt.mp h.1

/-- A pop takes an item of least key out of the heap. -/
theorem popLeast_spec (heap : List MergeItem) :
    (popLeast heap = none ∧ heap = []) ∨
      ∃ a rest, popLeast heap = some (a, rest) ∧ heap.Perm (a :: rest) ∧
        ∀ b ∈ rest, a.record.key ≤ b.record.key := by
  induction heap with
  | nil => exact Or.inl ⟨rfl, rfl⟩
  | cons x heap ih =>
      right
      rcases ih with ⟨hnone, rfl⟩ | ⟨a, rest, hsome, hperm, hleast⟩
      · exact ⟨x, [], rfl, List.Perm.refl _, by simp⟩
      · by_cases hx : x.precedes a = true
        · refine ⟨x, a :: rest, by simp [popLeast, hsome, hx], hperm.cons x, ?_⟩
          intro b hb
          have hxa := key_le_of_precedes hx
          rcases List.mem_cons.mp hb with rfl | hb
          · exact hxa
          · exact le_trans hxa (hleast b hb)
        · refine ⟨a, x :: rest, by simp [popLeast, hsome, hx],
            (hperm.cons x).trans (List.Perm.swap a x rest), ?_⟩
          intro b hb
          rcases List.mem_cons.mp hb with rfl | hb
          · exact key_le_of_not_precedes hx
          · exact hleast b hb

/-- What holds of the heap and the rest of the inputs: an input with something
left has its head in the heap, and no head is past what is left of its input. -/
structure MergeReady (iters : List (List Record)) (heap : List MergeItem) : Prop where
  headed : ∀ i l, iters[i]? = some l → l ≠ [] → ∃ a ∈ heap, a.inputIdx = i
  sorted : ∀ l ∈ iters, KeySorted l
  ordered : ∀ a ∈ heap, ∀ l, iters[a.inputIdx]? = some l → ∀ x ∈ l, a.record.key ≤ x.key

theorem flatten_set_perm {iters : List (List Record)} {i : Nat} {x : Record} {rest : List Record}
    (h : iters[i]? = some (x :: rest)) :
    iters.flatten.Perm (x :: (iters.set i rest).flatten) := by
  obtain ⟨hi, hx⟩ := List.getElem?_eq_some_iff.mp h
  have hsplit : iters = iters.take i ++ (x :: rest) :: iters.drop (i + 1) := by
    rw [← hx, ← List.drop_eq_getElem_cons hi, List.take_append_drop]
  have hset : iters.set i rest = iters.take i ++ rest :: iters.drop (i + 1) :=
    List.set_eq_take_append_cons_drop.trans (if_pos hi)
  rw [hset]
  conv_lhs => rw [hsplit]
  simp only [List.flatten_append, List.flatten_cons, List.cons_append]
  exact List.perm_middle

/-- The merge loop hands out everything, keys ascending. -/
theorem mergeLoop_spec (fuel : Nat) (iters : List (List Record)) (heap : List MergeItem)
    (hready : MergeReady iters heap) (hfuel : heap.length + iters.flatten.length < fuel) :
    (mergeLoop fuel iters heap).Perm (heap.map MergeItem.record ++ iters.flatten) ∧
      KeySorted (mergeLoop fuel iters heap) := by
  induction fuel generalizing iters heap with
  | zero => omega
  | succ fuel ih =>
      rcases popLeast_spec heap with ⟨hnone, rfl⟩ | ⟨a, heap', hsome, hperm, hleast⟩
      · have hempty : iters.flatten = [] := by
          rw [List.flatten_eq_nil_iff]
          intro l hl
          by_contra hne
          obtain ⟨i, hi⟩ := List.getElem?_of_mem hl
          obtain ⟨a, ha, _⟩ := hready.headed i l hi hne
          cases ha
        rw [hempty]
        exact ⟨List.Perm.refl _, List.Pairwise.nil⟩
      · have hlen : heap.length = heap'.length + 1 := by simpa using hperm.length_eq
        have hmap : (heap.map MergeItem.record).Perm (a.record :: heap'.map MergeItem.record) := by
          simpa using hperm.map MergeItem.record
        have hmem : ∀ b, b ∈ heap ↔ b = a ∨ b ∈ heap' := fun b => by
          rw [hperm.mem_iff, List.mem_cons]
        -- nothing that is left has a smaller key
        have hall : ∀ x ∈ heap'.map MergeItem.record ++ iters.flatten, a.record.key ≤ x.key := by
          intro x hx
          rcases List.mem_append.mp hx with hx | hx
          · obtain ⟨b, hb, rfl⟩ := List.mem_map.mp hx
            exact hleast b hb
          · obtain ⟨l, hl, hxl⟩ := List.mem_flatten.mp hx
            obtain ⟨i, hi⟩ := List.getElem?_of_mem hl
            obtain ⟨b, hb, rfl⟩ := hready.headed i l hi (List.ne_nil_of_mem hxl)
            have hbx := hready.ordered b hb l hi x hxl
            rcases (hmem b).mp hb with rfl | hb
            · exact hbx
            · exact le_trans (hleast b hb) hbx
        -- so it is enough that the rest of the loop hands that out
        suffices hrest : ∃ iters' heap'', mergeLoop (fuel + 1) iters heap =
            a.record :: mergeLoop fuel iters' heap'' ∧ MergeReady iters' heap'' ∧
            heap''.length + iters'.flatten.length < fuel ∧
            (heap''.map MergeItem.record ++ iters'.flatten).Perm
              (heap'.map MergeItem.record ++ iters.flatten) by
          obtain ⟨iters', heap'', hloop, hready', hfuel', hperm'⟩ := hrest
          obtain ⟨hp, hs⟩ := ih iters' heap'' hready' hfuel'
          rw [hloop]
          refine ⟨?_, List.pairwise_cons.mpr ⟨?_, hs⟩⟩
          · refine ((hp.trans hperm').cons a.record).trans ?_
            rw [← List.cons_append]
            exact (hmap.append_right _).symm
          · intro x hx
            exact hall x ((hp.trans hperm').mem_iff.mp hx)
        cases hit : (iters[a.inputIdx]?).getD [] with
        | nil =>
            refine ⟨iters, heap', by simp only [mergeLoop, hsome, hit], ?_, by omega,
              List.Perm.refl _⟩
            refine ⟨?_, hready.sorted, fun b hb => hready.ordered b ((hmem b).mpr (Or.inr hb))⟩
            intro i l hi hne
            obtain ⟨b, hb, hbi⟩ := hready.headed i l hi hne
            rcases (hmem b).mp hb with rfl | hb
            · rw [hbi, hi] at hit
              exact absurd hit hne
            · exact ⟨b, hb, hbi⟩
        | cons next rest =>
            have hi : iters[a.inputIdx]? = some (next :: rest) := by
              cases h : iters[a.inputIdx]? with
              | none =>
                  rw [h] at hit
                  cases hit
              | some l =>
                  rw [h] at hit
                  exact congrArg some hit
            have hset := flatten_set_perm hi
            have hnr := List.pairwise_cons.mp (hready.sorted _ (List.mem_of_getElem? hi))
            have hlt : a.inputIdx < iters.length := (List.getElem?_eq_some_iff.mp hi).1
            refine ⟨iters.set a.inputIdx rest, ⟨next, a.inputIdx⟩ :: heap',
              by simp only [mergeLoop, hsome, hit], ⟨?_, ?_, ?_⟩, ?_, ?_⟩
            · intro i l hil hne
              by_cases hia : i = a.inputIdx
              · exact ⟨⟨next, a.inputIdx⟩, List.mem_cons_self, hia.symm⟩
              · rw [List.getElem?_set_ne (Ne.symm hia)] at hil
                obtain ⟨b, hb, hbi⟩ := hready.headed i l hil hne
                rcases (hmem b).mp hb with rfl | hb
                · exact absurd hbi.symm hia
                · exact ⟨b, List.mem_cons_of_mem _ hb, hbi⟩
            · intro l hl
              rcases List.mem_or_eq_of_mem_set hl with hl | rfl
              · exact hready.sorted l hl
              · exact hnr.2
            · intro b hb l hbl x hx
              by_cases hba : b.inputIdx = a.inputIdx
              · rw [hba, List.getElem?_set_self hlt] at hbl
                cases hbl
                rcases List.mem_cons.mp hb with rfl | hb
                · exact hnr.1 x hx
                · exact hready.ordered b ((hmem b).mpr (Or.inr hb)) (next :: rest)
                    (by rw [hba]; exact hi) x (List.mem_cons_of_mem _ hx)
              · rw [List.getElem?_set_ne (Ne.symm hba)] at hbl
                rcases List.mem_cons.mp hb with rfl | hb
                · exact absurd rfl hba
                · exact hready.ordered b ((hmem b).mpr (Or.inr hb)) l hbl x hx
            · have := hset.length_eq
              simp only [List.length_cons] at this ⊢
              omega
            · rw [List.map_cons, List.cons_append]
              exact List.perm_middle.symm.trans (hset.symm.append_left _)

theorem firstHeads_spec (inputs : List (List Record)) (i : Nat) :
    ((firstHeads i inputs).map MergeItem.record ++ (inputs.map List.tail).flatten).Perm
        inputs.flatten ∧
      (∀ a ∈ firstHeads i inputs, ∃ j l, a.inputIdx = i + j ∧ inputs[j]? = some l ∧
        l.head? = some a.record) ∧
      ∀ j l, inputs[j]? = some l → l ≠ [] → ∃ a ∈ firstHeads i inputs, a.inputIdx = i + j := by
  induction inputs generalizing i with
  | nil => simp [firstHeads]
  | cons l ls ih =>
      obtain ⟨hp, hhead, hall⟩ := ih (i + 1)
      cases l with
      | nil =>
          refine ⟨by simpa [firstHeads] using hp, ?_, ?_⟩
          · intro a ha
            obtain ⟨j, l, hj, hl, hr⟩ := hhead a ha
            exact ⟨j + 1, l, by omega, by simpa using hl, hr⟩
          · intro j l hj hne
            cases j with
            | zero =>
                cases hj
                exact absurd rfl hne
            | succ j =>
                obtain ⟨a, ha, hai⟩ := hall j l (by simpa using hj) hne
                exact ⟨a, ha, by omega⟩
      | cons x xs =>
          refine ⟨?_, ?_, ?_⟩
          · simp only [firstHeads, List.map_cons, List.tail_cons, List.flatten_cons,
              List.cons_append]
            refine List.Perm.cons x ?_
            rw [← List.append_assoc]
            refine (List.perm_append_comm.append_right _).trans ?_
            rw [List.append_assoc]
            exact hp.append_left xs
          · intro a ha
            rcases List.mem_cons.mp ha with rfl | ha
            · exact ⟨0, x :: xs, rfl, rfl, rfl⟩
            · obtain ⟨j, l, hj, hl, hr⟩ := hhead a ha
              exact ⟨j + 1, l, by omega, by simpa using hl, hr⟩
          · intro j l hj hne
            cases j with
            | zero => exact ⟨_, List.mem_cons_self, rfl⟩
            | succ j =>
                obtain ⟨a, ha, hai⟩ := hall j l (by simpa using hj) hne
                exact ⟨a, List.mem_cons_of_mem _ ha, by omega⟩

/-- The stream has all records of the inputs, keys ascending. -/
theorem mergeStream_spec {inputs : List (List Record)} (hsorted : ∀ l ∈ inputs, KeySorted l) :
    (mergeStream inputs).Perm inputs.flatten ∧ KeySorted (mergeStream inputs) := by
  obtain ⟨hp, hhead, hall⟩ := firstHeads_spec inputs 0
  have hready : MergeReady (inputs.map List.tail) (firstHeads 0 inputs) := by
    refine ⟨?_, ?_, ?_⟩
    · intro i l hi hne
      rw [List.getElem?_map] at hi
      cases hin : inputs[i]? with
      | none => simp [hin] at hi
      | some l' =>
          have hl' : l'.tail = l := by simpa [hin] using hi
          obtain ⟨a, ha, hai⟩ := hall i l' hin (by
            rintro rfl
            exact hne (by simpa using hl'.symm))
          exact ⟨a, ha, by omega⟩
    · intro l hl
      obtain ⟨l', hl', rfl⟩ := List.mem_map.mp hl
      exact (hsorted l' hl').tail
    · intro a ha l hl x hx
      obtain ⟨j, l', hj, hl', hr⟩ := hhead a ha
      have hj' : a.inputIdx = j := by omega
      rw [hj', List.getElem?_map, hl'] at hl
      cases hl
      cases l' with
      | nil => cases hr
      | cons y ys =>
          cases hr
          exact (List.pairwise_cons.mp (hsorted _ (List.mem_of_getElem? hl'))).1 x hx
  have hlen := hp.length_eq
  rw [List.length_append, List.length_map] at hlen
  obtain ⟨hperm, hkeys⟩ := mergeLoop_spec (inputs.flatten.length + 1) _ _ hready (by omega)
  exact ⟨hperm.trans hp, hkeys⟩

end Merge

section Group

variable {minSeq : Nat} {group : List Record}

theorem sortNewestFirst_perm (group : List Record) : (sortNewestFirst group).Perm group :=
  List.perm_insertionSort _ group

theorem sortNewestFirst_sorted (group : List Record) :
    (sortNewestFirst group).Pairwise (fun a b => b.seq ≤ a.seq) := by
  have : IsTrans Record (fun a b => b.seq ≤ a.seq) := ⟨fun _ _ _ h₁ h₂ => le_trans h₂ h₁⟩
  have : Std.Total (fun a b : Record => b.seq ≤ a.seq) := ⟨fun a b => le_total b.seq a.seq⟩
  exact List.pairwise_insertionSort _ group

theorem keepVersions_sublist (minSeq : Nat) (taken : Bool) (l : List Record) :
    (keepVersions minSeq taken l).Sublist l := by
  induction l generalizing taken with
  | nil => exact List.Sublist.refl _
  | cons r rs ih =>
      unfold keepVersions
      split_ifs
      · exact (ih taken).cons_cons r
      · exact (ih true).cons_cons r
      · exact (ih taken).cons r

theorem peelTombstones_initial (kept : List Record) : peelTombstones kept <+: kept := by
  unfold peelTombstones
  rw [← List.reverse_suffix, List.reverse_reverse]
  exact List.dropWhile_suffix _

theorem compactGroup_sublist (dropping : Bool) (minSeq : Nat) (group : List Record) :
    (compactGroup dropping minSeq group).Sublist (sortNewestFirst group) := by
  unfold compactGroup
  split_ifs
  · exact (peelTombstones_initial _).sublist.trans (keepVersions_sublist _ _ _)
  · exact keepVersions_sublist _ _ _

theorem mem_of_mem_compactGroup {dropping : Bool} {r : Record}
    (h : r ∈ compactGroup dropping minSeq group) : r ∈ group :=
  (sortNewestFirst_perm group).mem_iff.mp ((compactGroup_sublist _ _ _).subset h)

/-- Every version at or above the lowest snapshot is kept. -/
theorem mem_keepVersions_of_le (taken : Bool) {l : List Record} {r : Record} (hr : r ∈ l)
    (hq : minSeq ≤ r.seq) : r ∈ keepVersions minSeq taken l := by
  induction l generalizing taken with
  | nil => cases hr
  | cons x xs ih =>
      unfold keepVersions
      rcases List.mem_cons.mp hr with rfl | hr
      · rw [if_pos hq]
        exact List.mem_cons_self
      · split_ifs
        · exact List.mem_cons_of_mem _ (ih taken hr)
        · exact List.mem_cons_of_mem _ (ih true hr)
        · exact ih taken hr

/-- Of the versions below the lowest snapshot the first is kept. -/
theorem exists_mem_keepVersions {l : List Record} {r : Record} (hr : r ∈ l)
    (hsorted : l.Pairwise (fun a b => b.seq ≤ a.seq)) (hq : r.seq < minSeq) :
    ∃ x ∈ keepVersions minSeq false l, x.seq < minSeq ∧ r.seq ≤ x.seq := by
  induction l with
  | nil => cases hr
  | cons y ys ih =>
      have hcons := List.pairwise_cons.mp hsorted
      unfold keepVersions
      by_cases hy : y.seq ≥ minSeq
      · rw [if_pos hy]
        rcases List.mem_cons.mp hr with rfl | hr
        · omega
        · obtain ⟨x, hx, hxs⟩ := ih hr hcons.2
          exact ⟨x, List.mem_cons_of_mem _ hx, hxs⟩
      · rw [if_neg hy, if_pos rfl]
        refine ⟨y, List.mem_cons_self, by omega, ?_⟩
        rcases List.mem_cons.mp hr with rfl | hr
        · exact le_rfl
        · exact hcons.1 r hr

/-- A version that is peeled is a tombstone, and so is everything behind it. -/
theorem peelTombstones_or {kept : List Record} {r : Record} (hr : r ∈ kept)
    (hsorted : kept.Pairwise (fun a b => b.seq ≤ a.seq)) :
    r ∈ peelTombstones kept ∨ (r.value = none ∧ ∀ x ∈ peelTombstones kept, r.seq ≤ x.seq) := by
  obtain ⟨rest, hrest⟩ := peelTombstones_initial kept
  have htomb : ∀ x ∈ rest, x.value = none := by
    intro x hx
    have hrev : kept.reverse.takeWhile (fun r => r.value.isNone) ++
        kept.reverse.dropWhile (fun r => r.value.isNone) = kept.reverse :=
      List.takeWhile_append_dropWhile
    have hrest' : rest.reverse = kept.reverse.takeWhile (fun r => r.value.isNone) := by
      have h1 := congrArg List.reverse hrest
      rw [List.reverse_append, peelTombstones, List.reverse_reverse] at h1
      exact List.append_cancel_right (h1.trans hrev.symm)
    have hx' : x ∈ kept.reverse.takeWhile (fun r => r.value.isNone) := by
      rw [← hrest']
      exact List.mem_reverse.mpr hx
    simpa using List.all_eq_true.mp List.all_takeWhile x hx'
  have hmem : r ∈ peelTombstones kept ++ rest := by
    rw [hrest]
    exact hr
  rcases List.mem_append.mp hmem with h | h
  · exact Or.inl h
  · refine Or.inr ⟨htomb r h, ?_⟩
    intro x hx
    rw [← hrest] at hsorted
    exact (List.pairwise_append.mp hsorted).2.2 x hx r h

/-- What a group's compaction does for a read that the horizon admits. -/
theorem compactGroup_newest (dropping : Bool) (minSeq : Nat) {h : Nat} {r : Record} (hr : r ∈ group)
    (hnewest : ∀ x ∈ group, x.seq < h → x.seq ≤ r.seq)
    (hone : ∀ x ∈ group, x.seq = r.seq → x = r)
    (hh : minSeq ≤ h ∨ ∀ x ∈ group, x.seq < h) :
    r ∈ compactGroup dropping minSeq group ∨
      (dropping = true ∧ r.value = none ∧
        ∀ x ∈ compactGroup dropping minSeq group, ¬ x.seq < h) := by
  have hperm := sortNewestFirst_perm group
  have hsort := sortNewestFirst_sorted group
  have hkept : r ∈ keepVersions minSeq false (sortNewestFirst group) := by
    by_cases hq : minSeq ≤ r.seq
    · exact mem_keepVersions_of_le false (hperm.mem_iff.mpr hr) hq
    · obtain ⟨x, hx, hxlt, hle⟩ :=
        exists_mem_keepVersions (hperm.mem_iff.mpr hr) hsort (not_le.mp hq)
      have hxg : x ∈ group := hperm.mem_iff.mp ((keepVersions_sublist _ _ _).subset hx)
      have hxh : x.seq < h := by
        rcases hh with hh | hh
        · omega
        · exact hh x hxg
      rwa [hone x hxg (le_antisymm (hnewest x hxg hxh) hle)] at hx
  unfold compactGroup
  cases dropping with
  | false => exact Or.inl hkept
  | true =>
      have hks : (keepVersions minSeq false (sortNewestFirst group)).Pairwise
          (fun a b => b.seq ≤ a.seq) := hsort.sublist (keepVersions_sublist _ _ _)
      rcases peelTombstones_or hkept hks with hp | ⟨hval, hall⟩
      · exact Or.inl hp
      · by_cases hin : r ∈ peelTombstones (keepVersions minSeq false (sortNewestFirst group))
        · exact Or.inl hin
        · refine Or.inr ⟨rfl, hval, ?_⟩
          intro x hx hxh
          have hx' : x ∈ peelTombstones (keepVersions minSeq false (sortNewestFirst group)) := hx
          have hxg : x ∈ group := hperm.mem_iff.mp ((keepVersions_sublist _ _ _).subset
            ((peelTombstones_initial _).subset hx'))
          have := hone x hxg (le_antisymm (hnewest x hxg hxh) (hall x hx'))
          exact hin (this ▸ hx')

end Group

section Groups

variable {dropping : Bool} {minSeq : Nat}

/-- In a stream with ascending keys the records of its first key come first. -/
theorem takeWhile_key {r : Record} {rs : List Record} (h : KeySorted (r :: rs)) :
    rs.takeWhile (fun x => decide (x.key = r.key)) = rs.filter (fun x => decide (x.key = r.key)) ∧
      rs.dropWhile (fun x => decide (x.key = r.key)) =
        rs.filter (fun x => decide (x.key ≠ r.key)) := by
  induction rs with
  | nil => simp
  | cons y ys ih =>
      have hcons := List.pairwise_cons.mp h
      have hys := List.pairwise_cons.mp hcons.2
      have hr : KeySorted (r :: ys) :=
        List.pairwise_cons.mpr ⟨fun x hx => hcons.1 x (List.mem_cons_of_mem _ hx), hys.2⟩
      obtain ⟨ih1, ih2⟩ := ih hr
      by_cases hy : y.key = r.key
      · constructor
        · simp [hy, ih1]
        · simp [hy, ih2]
      · have hlt : r.key < y.key := lt_of_le_of_ne (hcons.1 y (by simp)) (Ne.symm hy)
        have hne : ∀ x ∈ ys, x.key ≠ r.key := fun x hx =>
          ne_of_gt (lt_of_lt_of_le hlt (hys.1 x hx))
        constructor
        · rw [List.takeWhile_cons_of_neg (by simpa using hy), List.filter_cons_of_neg
            (by simpa using hy)]
          symm
          rw [List.filter_eq_nil_iff]
          intro x hx
          simpa using hne x hx
        · rw [List.dropWhile_cons_of_neg (by simpa using hy), List.filter_cons_of_pos
            (by simpa using hy)]
          congr 1
          symm
          rw [List.filter_eq_self]
          intro x hx
          simpa using hne x hx

/-- A record is written iff its key's group keeps it. -/
theorem mem_compactGroups {fuel : Nat} {l : List Record} (hl : KeySorted l)
    (hfuel : l.length ≤ fuel) {x : Record} :
    x ∈ compactGroups dropping minSeq fuel l ↔
      x ∈ compactGroup dropping minSeq (l.filter (fun y => decide (y.key = x.key))) := by
  induction fuel generalizing l with
  | zero =>
      have : l = [] := List.eq_nil_of_length_eq_zero (by omega)
      subst this
      simp [compactGroups, compactGroup, sortNewestFirst, keepVersions, peelTombstones]
  | succ fuel ih =>
      cases l with
      | nil => simp [compactGroups, compactGroup, sortNewestFirst, keepVersions, peelTombstones]
      | cons r rs =>
          obtain ⟨htake, hdrop⟩ := takeWhile_key hl
          have hrest : KeySorted (rs.filter (fun y => decide (y.key ≠ r.key))) :=
            (List.pairwise_cons.mp hl).2.sublist List.filter_sublist
          have hlen : (rs.filter (fun y => decide (y.key ≠ r.key))).length ≤ fuel := by
            have := List.length_filter_le (fun y : Record => decide (y.key ≠ r.key)) rs
            simp only [List.length_cons] at hfuel
            omega
          unfold compactGroups
          rw [List.mem_append, htake, hdrop, ih hrest hlen, List.filter_filter]
          by_cases hx : x.key = r.key
          · have hempty : rs.filter (fun y => decide (y.key = x.key) && decide (y.key ≠ r.key)) =
                [] := by
              rw [List.filter_eq_nil_iff]
              intro y _
              simp [hx]
            rw [hempty, List.filter_cons_of_pos (by simp [hx]), hx]
            constructor
            · rintro (h | h)
              · exact h
              · exact absurd (mem_of_mem_compactGroup h) (by simp)
            · exact Or.inl
          · have hsame : rs.filter (fun y => decide (y.key = x.key) && decide (y.key ≠ r.key)) =
                rs.filter (fun y => decide (y.key = x.key)) := by
              apply List.filter_congr
              intro y _
              by_cases hy : y.key = x.key
              · simp [hy, hx]
              · simp [hy]
            rw [hsame, List.filter_cons_of_neg (by simpa using Ne.symm hx)]
            constructor
            · rintro (h | h)
              · have := mem_of_mem_compactGroup h
                rcases List.mem_cons.mp this with h | h
                · exact absurd (by rw [h]) hx
                · exact absurd (by simpa using (List.mem_filter.mp h).2) hx
              · exact h
            · exact Or.inr

/-- What is written is a sorted run. -/
theorem sortedRun_compactGroups {fuel : Nat} {l : List Record} (hl : KeySorted l)
    (hfuel : l.length ≤ fuel) : SortedRun (compactGroups dropping minSeq fuel l) := by
  induction fuel generalizing l with
  | zero => exact List.Pairwise.nil
  | succ fuel ih =>
      cases l with
      | nil => exact List.Pairwise.nil
      | cons r rs =>
          obtain ⟨htake, hdrop⟩ := takeWhile_key hl
          have hrest : KeySorted (rs.filter (fun y => decide (y.key ≠ r.key))) :=
            (List.pairwise_cons.mp hl).2.sublist List.filter_sublist
          have hlen : (rs.filter (fun y => decide (y.key ≠ r.key))).length ≤ fuel := by
            have := List.length_filter_le (fun y : Record => decide (y.key ≠ r.key)) rs
            simp only [List.length_cons] at hfuel
            omega
          have hkey : ∀ x ∈ compactGroup dropping minSeq
              (r :: rs.filter (fun y => decide (y.key = r.key))), x.key = r.key := by
            intro x hx
            rcases List.mem_cons.mp (mem_of_mem_compactGroup hx) with rfl | hx
            · rfl
            · simpa using (List.mem_filter.mp hx).2
          unfold compactGroups
          rw [htake, hdrop]
          refine List.pairwise_append.mpr ⟨?_, ih hrest hlen, ?_⟩
          · refine ((sortNewestFirst_sorted _).sublist
              (compactGroup_sublist dropping minSeq _)).imp_of_mem ?_
            intro a b ha hb hab
            exact version_le_iff.mpr (Or.inr ⟨(hkey a ha).trans (hkey b hb).symm, hab⟩)
          · intro a ha b hb
            have hb' := (mem_compactGroups hrest hlen).mp hb
            have hbr := (List.mem_filter.mp (mem_of_mem_compactGroup hb')).1
            obtain ⟨hbrs, hbne⟩ := List.mem_filter.mp hbr
            have hle := (List.pairwise_cons.mp hl).1 b hbrs
            refine version_le_iff.mpr (Or.inl ?_)
            rw [hkey a ha]
            exact lt_of_le_of_ne hle (Ne.symm (by simpa using hbne))

end Groups

section Compact

variable {inputs : List (List Record)} {minSeq : Nat}

theorem sortedRun_compactRecords (dropping : Bool) (minSeq : Nat)
    (hsorted : ∀ l ∈ inputs, SortedRun l) :
    SortedRun (compactRecords inputs dropping minSeq) :=
  sortedRun_compactGroups (mergeStream_spec fun l hl => (hsorted l hl).keySorted).2 le_rfl

/-- What a compaction writes stands for its inputs in every read whose horizon
is not below the lowest snapshot, or is above everything. -/
theorem condenses_compactRecords (dropping : Bool) (hsorted : ∀ l ∈ inputs, SortedRun l)
    (hone : recordVersions.OnePerSeq (pool inputs)) {k : Bytes} {h : Nat}
    (hh : minSeq ≤ h ∨ ∀ x ∈ pool inputs, x.seq < h) :
    recordVersions.Condenses k h (dropping = true) (pool inputs)
      (ofList (compactRecords inputs dropping minSeq)) := by
  obtain ⟨hperm, hkeys⟩ := mergeStream_spec fun l hl => (hsorted l hl).keySorted
  have hmem : ∀ x, x ∈ pool inputs ↔ x ∈ mergeStream inputs := by
    intro x
    rw [pool_eq_flatten, mem_ofList, hperm.mem_iff]
  have hin : ∀ {x : Record}, x ∈ compactRecords inputs dropping minSeq ↔
      x ∈ compactGroup dropping minSeq
        ((mergeStream inputs).filter (fun y => decide (y.key = x.key))) :=
    mem_compactGroups hkeys le_rfl
  constructor
  · intro x hx
    rw [hmem]
    exact (List.mem_filter.mp (mem_of_mem_compactGroup (hin.mp hx))).1
  · rintro r ⟨⟨hr, rfl, hrh⟩, hnewest⟩
    have hgroup : ∀ x, x ∈ (mergeStream inputs).filter (fun y => decide (y.key = r.key)) ↔
        x ∈ pool inputs ∧ x.key = r.key := by
      intro x
      rw [List.mem_filter, hmem, decide_eq_true_eq]
    have hstep := compactGroup_newest dropping minSeq ((hgroup r).mpr ⟨hr, rfl⟩)
      (h := h)
      (fun x hx hxh => hnewest x ⟨((hgroup x).mp hx).1, ((hgroup x).mp hx).2, hxh⟩)
      (fun x hx hxs => hone x ((hgroup x).mp hx).1 r hr ((hgroup x).mp hx).2 hxs)
      (hh.imp_right fun hall x hx => hall x ((hgroup x).mp hx).1)
    rcases hstep with hkeep | ⟨hdrop, hval, hhid⟩
    · exact Or.inl (hin.mpr hkeep)
    · refine Or.inr ⟨hdrop, hval, ?_⟩
      rintro x ⟨hx, hxk, hxh⟩
      have hx' := hin.mp hx
      rw [show x.key = r.key from hxk] at hx'
      exact hhid x hx' hxh

/-- Whatever a read at or above the horizon `minSeq` sees in the inputs, it sees in what
`compact` writes: the same newest record of its key, or none where that is a tombstone and
tombstones are dropped.  What is written comes from the inputs, and is sorted as a table
has to be. -/
theorem compact_preserves_reads (inputs : List (List Record)) (dropping : Bool) (minSeq : Nat)
    (hsorted : ∀ l ∈ inputs, l.Pairwise
      (fun a b => a.key < b.key ∨ (a.key = b.key ∧ b.seq ≤ a.seq)))
    (hone : ∀ l ∈ inputs, ∀ l' ∈ inputs, ∀ r ∈ l, ∀ r' ∈ l',
      r.key = r'.key → r.seq = r'.seq → r = r') :
    (∀ k h, minSeq ≤ h →
      (∀ r, recordVersions.Newest (ofList (compactRecords inputs dropping minSeq)) k h r →
        recordVersions.Newest (pool inputs) k h r) ∧
      ∀ r, recordVersions.Newest (pool inputs) k h r →
        recordVersions.Newest (ofList (compactRecords inputs dropping minSeq)) k h r ∨
          (dropping = true ∧ r.value = none ∧
            recordVersions.Hidden (ofList (compactRecords inputs dropping minSeq)) k h)) ∧
    (∀ r ∈ compactRecords inputs dropping minSeq, ∃ l ∈ inputs, r ∈ l) ∧
    (compactRecords inputs dropping minSeq).Pairwise
      (fun a b => a.key < b.key ∨ (a.key = b.key ∧ b.seq ≤ a.seq)) := by
  have hruns : ∀ l ∈ inputs, SortedRun l := fun l hl =>
    (hsorted l hl).imp fun h => version_le_iff.mpr h
  have hpool : recordVersions.OnePerSeq (pool inputs) := by
    rintro r ⟨l, hl, hr⟩ r' ⟨l', hl', hr'⟩
    exact hone l hl l' hl' r hr r' hr'
  have hsub : ∀ r ∈ compactRecords inputs dropping minSeq, r ∈ pool inputs := fun r hr =>
    (condenses_compactRecords (k := r.key) (h := minSeq) dropping hruns hpool
      (Or.inl le_rfl)).subset hr
  refine ⟨fun k h hh => ?_, fun r hr => hsub r hr,
    (sortedRun_compactRecords dropping minSeq hruns).imp fun h => version_le_iff.mp h⟩
  have hcond := condenses_compactRecords (k := k) dropping hruns hpool (Or.inl hh)
  have hkeep : ∀ r, recordVersions.Newest (pool inputs) k h r →
      r ∈ compactRecords inputs dropping minSeq →
      recordVersions.Newest (ofList (compactRecords inputs dropping minSeq)) k h r :=
    fun r hr hmem => ⟨⟨hmem, hr.1.2⟩, fun x hx => hr.2 x ⟨hsub x hx.1, hx.2⟩⟩
  constructor
  · intro r hr
    have hvis : recordVersions.Visible (ofList inputs.flatten) k h r := by
      rw [← pool_eq_flatten]
      exact ⟨hsub r hr.1.1, hr.1.2⟩
    obtain ⟨t, ht⟩ := exists_newest inputs.flatten hvis
    rw [← pool_eq_flatten] at ht
    rcases hcond.newest t ht with hmem | ⟨_, _, hhid⟩
    · have hone' := hpool.mono hsub
      rw [hr.unique hone' (hkeep t ht hmem)]
      exact ht
    · exact absurd hr.1 (hhid r)
  · intro r hr
    rcases hcond.newest r hr with hmem | hdropped
    · exact Or.inl (hkeep r hr hmem)
    · exact Or.inr hdropped

/-- A run with a deleted key, from the oldest table on. -/
theorem compact_preserves_reads_deleted :
    compactRecords [[Record.put [1] [2] 0, Record.put [3] [4] 1], [Record.tombstone [1] 2]] true
        3 = [Record.put [3] [4] 1] ∧
      ∀ r, recordVersions.Newest
          (pool [[Record.put [1] [2] 0, Record.put [3] [4] 1], [Record.tombstone [1] 2]]) [3] 5 r →
        recordVersions.Newest (ofList (compactRecords [[Record.put [1] [2] 0,
            Record.put [3] [4] 1], [Record.tombstone [1] 2]] true 3)) [3] 5 r ∨
          (true = true ∧ r.value = none ∧ recordVersions.Hidden (ofList (compactRecords
            [[Record.put [1] [2] 0, Record.put [3] [4] 1], [Record.tombstone [1] 2]] true 3)) [3]
            5) :=
  ⟨by decide, ((compact_preserves_reads [[Record.put [1] [2] 0, Record.put [3] [4] 1],
    [Record.tombstone [1] 2]] true 3 (by decide) (by decide)).1 [3] 5 (by decide)).2⟩

end Compact

end LsmKv
