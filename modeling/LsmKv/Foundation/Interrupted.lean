import LsmKv.Foundation.Agree

/-!
# A run that a failing call cuts short

The volumes of a run stand in a list, latest first.  A call that fails leaves the volume as
the calls before it have left it; one that was to append may have appended a beginning of
its bytes.

**Results.**
* `Interrupted.rule`: what holds where a run begins and wherever it passes, and of every part
  of an append between two such volumes, holds of what a failing call leaves.
* `SameExcept.cut`, `Appending.cut`: what an operation leaves alone, and what an append has
  appended, are of this kind.
-/

namespace LsmKv
namespace Foundation
namespace Volume

variable {ν : Type} [DecidableEq ν]

/-- What a failing call may leave of a run that goes on from `past` to `visited`. -/
inductive Interrupted (past visited : List (Volume ν)) : Volume ν → Prop
  | between {v : Volume ν} {l : List (Volume ν)} (begun : past <:+ v :: l)
      (rest : v :: l <:+ visited) : Interrupted past visited v
  | within {v : Volume ν} {l : List (Volume ν)} {i : Nat} {b : Bytes} (n : Nat)
      (begun : past <:+ v :: l) (rest : v.append i b :: v :: l <:+ visited) :
      Interrupted past visited (v.append i (b.take n))

section Rule

variable {v₀ v : Volume ν} {l vs past : List (Volume ν)} {C : Volume ν → Prop}

/-- A volume of a run is the first one or one the run has passed. -/
theorem eq_or_mem_of_suffix (hbegun : v₀ :: past <:+ v :: l) (hrest : v :: l <:+ vs ++ v₀ :: past) :
    v = v₀ ∨ v ∈ vs := by
  obtain ⟨t, ht⟩ := hbegun
  cases t with
  | nil =>
      cases ht
      exact Or.inl rfl
  | cons a t =>
      cases ht
      obtain ⟨u, hu⟩ := hrest
      have hvs : u ++ v :: t = vs := by
        have hall : (u ++ v :: t) ++ v₀ :: past = vs ++ v₀ :: past := by
          rw [← hu, List.append_assoc]
          rfl
        exact List.append_cancel_right hall
      exact Or.inr (by simp [← hvs])

/-- What holds along a run and of every part of an append in it holds of what a failing call
leaves. -/
theorem Interrupted.rule (h : Interrupted (v₀ :: past) (vs ++ v₀ :: past) v) (hfirst : C v₀)
    (hpassed : ∀ u ∈ vs, C u)
    (hpart : ∀ u i b n, C u → C (u.append i b) → C (u.append i (b.take n))) : C v := by
  have hall : ∀ u, u = v₀ ∨ u ∈ vs → C u := by
    rintro u (rfl | hu)
    · exact hfirst
    · exact hpassed u hu
  cases h with
  | between begun rest => exact hall _ (eq_or_mem_of_suffix begun rest)
  | @within u l i b n begun rest =>
      have hnext : v₀ :: past <:+ u.append i b :: u :: l := begun.trans (List.suffix_cons _ _)
      have hthis : u :: l <:+ vs ++ v₀ :: past := (List.suffix_cons _ _).trans rest
      exact hpart u i b n (hall _ (eq_or_mem_of_suffix begun hthis))
        (hall _ (eq_or_mem_of_suffix hnext rest))

end Rule

section Part

variable {v u : Volume ν} {p : ν} {i j m : Nat} {b c : Bytes}

/-- An append that leaves a file alone appends to another one, or nothing. -/
theorem inodes_append_part (h : (u.append i b).inodes j = u.inodes j) (n : Nat) :
    (u.append i (b.take n)).inodes j = u.inodes j := by
  rw [inodes_append] at h ⊢
  split_ifs at h ⊢ with hj
  · have hnil : b = [] := by simpa [hj] using congrArg Inode.bytes h
    simp [hnil, hj]
  · rfl

/-- A file that an append leaves as it was is so in every part of it. -/
theorem Bound.cut (h : u.Bound p j c m) (h' : (u.append i b).Bound p j c m) (n : Nat) :
    (u.append i (b.take n)).Bound p j c m :=
  ⟨h.name, by rw [inodes_append_part (h'.inode.trans h.inode.symm), h.inode]⟩

variable [Shares ν]

/-- What is left alone by an append is left alone by every part of it. -/
theorem SameExcept.cut {ps : List ν} (h : SameExcept ps v u)
    (h' : SameExcept ps v (u.append i b)) (n : Nat) :
    SameExcept ps v (u.append i (b.take n)) where
  names := h.names
  files := fun r hr => by
    have hfile := h.files r hr
    have hfile' := h'.files r hr
    unfold file at hfile hfile' ⊢
    rw [lookup_append] at hfile' ⊢
    cases hl : u.lookup r with
    | none =>
        rw [hl] at hfile
        exact hfile
    | some j =>
        rw [hl] at hfile hfile'
        rw [← hfile, Option.map_some, Option.map_some, Option.some.injEq]
        refine inodes_append_part ?_ n
        exact Option.some.inj (hfile'.trans hfile.symm)
  sound := fun hs => (h.sound hs).append _
  still := fun j hj => by
    obtain ⟨hstill, hsame⟩ := h.still j hj
    refine ⟨⟨hstill.below, hstill.names⟩, ?_⟩
    rw [inodes_append_part ((h'.still j hj).2.trans hsame.symm), hsame]
  covered := h.covered

/-- A part of an append on the way of an append is on its way too. -/
theorem Appending.cut {v₀ : Volume ν} {more : Bytes} (h : Appending v₀ p j c m more u)
    (h' : Appending v₀ p j c m more (u.append i b)) (n : Nat) :
    Appending v₀ p j c m more (u.append i (b.take n)) := by
  refine ⟨h.same.cut h'.same n, ?_⟩
  obtain ⟨k, n₁, hn₁, hb⟩ := h.part
  obtain ⟨k', _, _, hb'⟩ := h'.part
  by_cases hj : j = i
  · subst hj
    have hnow := (hb.append b).unique hb'
    have htail : more.take k ++ b = more.take k' := by
      simpa [List.append_assoc] using hnow.2.1
    refine ⟨min ((more.take k).length + n) k', n₁, hn₁, ?_⟩
    have hcut : (more.take k) ++ b.take n =
        more.take (min ((more.take k).length + n) k') := by
      rw [← List.take_take, ← htail, List.take_length_add_append]
    rw [← hcut, ← List.append_assoc]
    exact hb.append _
  · refine ⟨k, n₁, hn₁, hb.name, ?_⟩
    rw [inodes_append, if_neg hj, hb.inode]

end Part

end Volume
end Foundation
end LsmKv
