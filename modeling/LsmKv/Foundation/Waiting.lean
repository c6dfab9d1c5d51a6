import Mathlib.Logic.Relation

/-!
# Waiting

Parties that may wait for one another, and channels that are closed by a last message.

**Results.**
* `EndsIn.tail`, `EndsIn.eq_nil`: what is left of a closed channel as its messages are taken.
* `exists_not_waiting`: where waiting has a rank, whoever waits does so, along a chain, for
  somebody who does not.
-/

namespace LsmKv.Foundation

variable {α : Type*}

/-- Along a chain of parties that wait for parties of lower rank there is one that does not
wait. -/
theorem exists_not_waiting {waits : α → α → Prop} {rank : α → Nat}
    (hrank : ∀ a b, waits a b → rank b < rank a) (a : α) :
    ∃ b, Relation.ReflTransGen waits a b ∧ ∀ c, ¬ waits b c := by
  induction hn : rank a using Nat.strongRecOn generalizing a with
  | _ n ih =>
      by_cases h : ∃ b, waits a b
      · obtain ⟨b, hab⟩ := h
        obtain ⟨c, hbc, hc⟩ := ih (rank b) (hn ▸ hrank a b hab) b rfl
        exact ⟨c, .head hab hbc, hc⟩
      · exact ⟨a, .refl, fun c hc => h ⟨c, hc⟩⟩

section Channel

variable {stop a : α} {queue : List α}

/-- A channel whose last message, and no other, is `stop`. -/
def EndsIn (stop : α) (queue : List α) : Prop := ∃ front, queue = front ++ [stop] ∧ stop ∉ front

theorem EndsIn.close (h : stop ∉ queue) : EndsIn stop (queue ++ [stop]) := ⟨queue, rfl, h⟩

theorem EndsIn.ne_nil (h : EndsIn stop queue) : queue ≠ [] := by
  obtain ⟨front, rfl, _⟩ := h
  simp

/-- Once `stop` is taken, nothing is left. -/
theorem EndsIn.eq_nil (h : EndsIn stop (stop :: queue)) : queue = [] := by
  obtain ⟨_ | ⟨b, front⟩, heq, hnot⟩ := h
  · simpa using heq
  · obtain ⟨rfl, _⟩ := List.cons.inj heq
    exact absurd List.mem_cons_self hnot

/-- A message before `stop` leaves the channel closed. -/
theorem EndsIn.tail (h : EndsIn stop (a :: queue)) (hne : a ≠ stop) : EndsIn stop queue := by
  obtain ⟨_ | ⟨b, front⟩, heq, hnot⟩ := h
  · obtain ⟨rfl, _⟩ := List.cons.inj heq
    exact absurd rfl hne
  · obtain ⟨_, htail⟩ := List.cons.inj heq
    exact ⟨front, htail, fun hmem => hnot (List.mem_cons_of_mem _ hmem)⟩

end Channel

end LsmKv.Foundation
