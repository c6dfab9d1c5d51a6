import Mathlib.Order.Nat

/-!
# Maximal blocks of equal entries

A block of a list is a nonempty range of equal entries that cannot be made longer: the
entries beside it differ from it, or there are none.

**Results.**
* `Block.apart`: of two blocks the one that starts first ends before the other starts.
* `FirstBlock.unique`: there is at most one leftmost block of a given length.
-/

namespace LsmKv
namespace Foundation

variable {α : Type*} {l : List α} {n i j i' j' : Nat}

/-- The entries `i..j` are equal, and those beside them differ or do not exist. -/
structure Block (l : List α) (i j : Nat) : Prop where
  pos : i < j
  within : j ≤ l.length
  same : ∀ k, i ≤ k → k < j → l[k]? = l[i]?
  left : i = 0 ∨ l[i - 1]? ≠ l[i]?
  right : j = l.length ∨ l[j]? ≠ l[i]?

/-- The leftmost block with at least `n` entries. -/
structure FirstBlock (l : List α) (n i j : Nat) : Prop where
  block : Block l i j
  long : n ≤ j - i
  first : ∀ i' j', Block l i' j' → n ≤ j' - i' → i ≤ i'

namespace Block

theorem end_le (h : Block l i j) (h' : Block l i j') : j' ≤ j := by
  by_contra hlt
  rcases h.right with hend | hne
  · have := h'.within
    omega
  · exact hne (h'.same j (le_of_lt h.pos) (by omega))

/-- A block is given by where it starts. -/
theorem end_eq (h : Block l i j) (h' : Block l i j') : j = j' :=
  le_antisymm (h'.end_le h) (h.end_le h')

/-- Of two blocks the one that starts first ends before the other starts. -/
theorem apart (h : Block l i j) (h' : Block l i' j') (hlt : i < i') : j ≤ i' := by
  by_contra hin
  rcases h'.left with hzero | hne
  · omega
  · have hbefore := h.same (i' - 1) (by omega) (by omega)
    have hat := h.same i' (by omega) (by omega)
    exact hne (hbefore.trans hat.symm)

end Block

/-- There is at most one leftmost block. -/
theorem FirstBlock.unique (h : FirstBlock l n i j) (h' : FirstBlock l n i' j') :
    i = i' ∧ j = j' := by
  have hi : i = i' :=
    le_antisymm (h.first _ _ h'.block h'.long) (h'.first _ _ h.block h.long)
  subst hi
  exact ⟨rfl, h.block.end_eq h'.block⟩

end Foundation
end LsmKv
