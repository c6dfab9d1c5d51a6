import LsmKv.Foundation.Histories

/-!
# Sources that overlap

A store that has crashed may hold a part of its history twice: in a table, and in the log that was
about to be cut behind it.  `Piled W sources n` says that the sources, newest first, are spans of
the history `W` that make up its first `n` batches: each begins inside what the older ones hold and
reaches at least as far.

**Results.**
* `Piled.pool_eq`: together the sources hold the first `n` batches and nothing else.
* `Piled.layered`: a source that knows a key knows its newest version below.
* `Piled.reads`: the first answer of a search is the read of the history.
-/

namespace LsmKv
namespace Foundation
namespace Versioning

variable {ρ κ ν : Type} {V : Versioning ρ κ ν}

/-- Sources, newest first, that make up the first `n` batches of `W` and may overlap. -/
inductive Piled (W : List (List ρ)) : List (List ρ) → Nat → Prop
  | nil : Piled W [] 0
  | cons {sources : List (List ρ)} {s : List ρ} {i j n : Nat} (rest : Piled W sources n)
      (meets : i ≤ n) (reaches : n ≤ j) (holds : ofList s = ofList (span W i j)) :
      Piled W (s :: sources) j

section Piled

variable {W W' sources : List (List ρ)} {n : Nat}

/-- A span before the cut. -/
theorem span_take {i j m : Nat} (hj : j ≤ m) : span (W.take m) i j = span W i j := by
  rw [span, List.take_take, min_eq_left hj, span]

theorem Piled.pool_eq (h : Piled W sources n) : pool sources = ofList (span W 0 n) := by
  induction h with
  | nil =>
      rw [pool_nil, span_self]
      simp [ofList]
  | cons rest meets reaches holds ih =>
      rw [pool_cons, ih, holds, Set.union_comm, span_union meets, max_eq_right reaches]

/-- What is written later changes nothing. -/
theorem Piled.begins (h : Piled W sources n) (hW : W <+: W') (hn : n ≤ W.length) :
    Piled W' sources n := by
  induction h with
  | nil => exact .nil
  | cons rest meets reaches holds ih =>
      exact .cons (ih (reaches.trans hn)) meets reaches (by rw [holds, span_begins hW hn])

/-- So does what is lost behind the sources. -/
theorem Piled.cut (h : Piled W sources n) {m : Nat} (hm : n ≤ m) : Piled (W.take m) sources n := by
  induction h with
  | nil => exact .nil
  | cons rest meets reaches holds ih =>
      exact .cons (ih (reaches.trans hm)) meets reaches (by rw [holds, span_take hm])

theorem Piled.layered (h : Piled W sources n) (hW : V.Rising W.flatten) (k : κ) (x : Nat) :
    V.Layered k x sources := by
  induction h with
  | nil => exact List.Pairwise.nil
  | @cons sources s i j n rest meets reaches holds ih =>
      refine List.pairwise_cons.mpr ⟨fun o ho a ha b hb => ?_, ih⟩
      have hmem : b ∈ ofList (span W 0 n) := by
        rw [← rest.pool_eq]
        exact ⟨o, ho, hb.1⟩
      rw [span_split (Nat.zero_le i) meets, ofList_append] at hmem
      rcases hmem with hold | hnew
      · -- older than anything in `s`
        have ha' : a ∈ ofList (span W i j) := holds ▸ ha.1
        exact ⟨a, ha, le_of_lt (hW.spans le_rfl hold ha')⟩
      · have hb' : b ∈ ofList s := by
          rw [holds]
          exact span_mono le_rfl reaches hnew
        exact ⟨b, ⟨hb', hb.2⟩, le_rfl⟩

/-- The first answer of a search through the sources is the read of the history. -/
theorem Piled.reads (h : Piled W sources n) (hW : V.Rising W.flatten) {k : κ} {x : Nat}
    (look : List ρ → Option ρ) (hlook : ∀ s ∈ sources, V.Finds k x s (look s)) :
    V.Reads (ofList (span W 0 n)) k x ((sources.findSome? look).bind V.value) := by
  rw [← h.pool_eq]
  exact reads_findSome look (h.layered hW k x) hlook

end Piled

end Versioning
end Foundation
end LsmKv
