import Mathlib.Algebra.GroupWithZero.Nat
import Mathlib.Order.Defs.LinearOrder
import Mathlib.Order.Lattice
import Mathlib.Data.List.Pairwise

/-!
# Ordered maps as sorted association lists

An ordered map is a list of bindings whose keys strictly increase; the order
is a field, so that every value of the type is a map.  Insertion replaces the
binding of an equal key.

**Results.**
* `find?_insert`, `find?_erase`: the two updates as functions on keys.
* `ext_find?`: two maps with the same bindings are equal.
* `insert_comm`: inserts of distinct keys commute.
* `sum_insert`: what an insert does to a sum over the values.
-/

namespace LsmKv
namespace Foundation

universe u v

variable {κ : Type u} {ν : Type v} [LinearOrder κ]

/-- Strictly increasing keys. -/
def KeysIncrease (l : List (κ × ν)) : Prop :=
  l.Pairwise (fun a b => a.1 < b.1)

/-- An ordered map: its bindings, in strictly increasing key order. -/
structure SortedMap (κ : Type u) (ν : Type v) [LinearOrder κ] where
  entries : List (κ × ν)
  increasing : KeysIncrease entries

namespace SortedMap

/-- The position of a key in a sorted list decides where a binding goes. -/
def insertEntry (k : κ) (v : ν) : List (κ × ν) → List (κ × ν)
  | [] => [(k, v)]
  | e :: l =>
      if k < e.1 then (k, v) :: e :: l
      else if k = e.1 then (k, v) :: l
      else e :: insertEntry k v l

/-- The first binding of `k`. -/
def findEntry (k : κ) : List (κ × ν) → Option ν
  | [] => none
  | e :: l => if k = e.1 then some e.2 else findEntry k l

theorem mem_insertEntry {k : κ} {v : ν} {l : List (κ × ν)} {e : κ × ν}
    (h : e ∈ insertEntry k v l) : e = (k, v) ∨ e ∈ l := by
  induction l with
  | nil => simpa [insertEntry] using h
  | cons a l ih =>
      unfold insertEntry at h
      split_ifs at h
      · simpa using h
      · rcases List.mem_cons.mp h with h | h
        · exact Or.inl h
        · exact Or.inr (List.mem_cons_of_mem _ h)
      · rcases List.mem_cons.mp h with h | h
        · exact Or.inr (by simp [h])
        · rcases ih h with h | h
          · exact Or.inl h
          · exact Or.inr (List.mem_cons_of_mem _ h)

theorem keysIncrease_insertEntry (k : κ) (v : ν) {l : List (κ × ν)}
    (h : KeysIncrease l) : KeysIncrease (insertEntry k v l) := by
  induction l with
  | nil => simp [insertEntry, KeysIncrease]
  | cons a l ih =>
      have ha := List.pairwise_cons.mp h
      unfold insertEntry
      split_ifs with hlt heq
      · refine List.pairwise_cons.mpr ⟨?_, h⟩
        intro b hb
        rcases List.mem_cons.mp hb with rfl | hb
        · exact hlt
        · exact lt_trans hlt (ha.1 b hb)
      · refine List.pairwise_cons.mpr ⟨?_, ha.2⟩
        intro b hb
        subst heq
        exact ha.1 b hb
      · refine List.pairwise_cons.mpr ⟨?_, ih ha.2⟩
        intro b hb
        rcases mem_insertEntry hb with rfl | hb
        · exact lt_of_le_of_ne (not_lt.mp hlt) (Ne.symm heq)
        · exact ha.1 b hb

/-- The empty map. -/
def empty : SortedMap κ ν := ⟨[], List.Pairwise.nil⟩

/-- Bind `k` to `v`. -/
def insert (m : SortedMap κ ν) (k : κ) (v : ν) : SortedMap κ ν :=
  ⟨insertEntry k v m.entries, keysIncrease_insertEntry k v m.increasing⟩

/-- Remove the binding of `k`. -/
def erase (m : SortedMap κ ν) (k : κ) : SortedMap κ ν :=
  ⟨m.entries.filter (fun e => e.1 ≠ k), m.increasing.filter _⟩

/-- The value bound to `k`. -/
def find? (m : SortedMap κ ν) (k : κ) : Option ν := findEntry k m.entries

/-- The values in key order. -/
def values (m : SortedMap κ ν) : List ν := m.entries.map Prod.snd

/-- The keys in order. -/
def keys (m : SortedMap κ ν) : List κ := m.entries.map Prod.fst

theorem findEntry_eq_some_iff {l : List (κ × ν)} (h : KeysIncrease l) {k : κ} {v : ν} :
    findEntry k l = some v ↔ (k, v) ∈ l := by
  induction l with
  | nil => simp [findEntry]
  | cons a l ih =>
      have ha := List.pairwise_cons.mp h
      unfold findEntry
      split_ifs with hk
      · constructor
        · intro hv
          have : a = (k, v) := Prod.ext hk.symm (by simpa using hv)
          simp [this]
        · intro hv
          rcases List.mem_cons.mp hv with hv | hv
          · rw [← hv]
          · exact absurd (ha.1 _ hv) (by simp [hk])
      · rw [ih ha.2]
        constructor
        · exact List.mem_cons_of_mem _
        · intro hv
          rcases List.mem_cons.mp hv with hv | hv
          · exact absurd (by rw [← hv]) hk
          · exact hv

/-- Lookup is membership of the binding. -/
theorem find?_eq_some_iff (m : SortedMap κ ν) {k : κ} {v : ν} :
    m.find? k = some v ↔ (k, v) ∈ m.entries :=
  findEntry_eq_some_iff m.increasing

theorem find?_eq_none_iff (m : SortedMap κ ν) {k : κ} :
    m.find? k = none ↔ ∀ v, (k, v) ∉ m.entries := by
  constructor
  · intro h v hv
    rw [(m.find?_eq_some_iff).mpr hv] at h
    cases h
  · intro h
    cases hf : m.find? k with
    | none => rfl
    | some v => exact absurd ((m.find?_eq_some_iff).mp hf) (h v)

@[simp] theorem find?_empty (k : κ) : (empty : SortedMap κ ν).find? k = none := rfl

theorem findEntry_insertEntry (k : κ) (v : ν) (l : List (κ × ν)) (j : κ) :
    findEntry j (insertEntry k v l) = if j = k then some v else findEntry j l := by
  induction l with
  | nil => simp [insertEntry, findEntry]
  | cons a l ih =>
      by_cases hj : j = k
      · subst hj
        rw [if_pos rfl] at ih ⊢
        unfold insertEntry
        split_ifs with hlt heq
        · simp [findEntry]
        · simp [findEntry]
        · simp [findEntry, heq, ih]
      · rw [if_neg hj] at ih ⊢
        unfold insertEntry
        split_ifs with hlt heq
        · simp [findEntry, hj]
        · have hne : j ≠ a.1 := fun h => hj (h.trans heq.symm)
          simp [findEntry, hj, hne]
        · simp [findEntry, ih]

/-- Insertion as an update of the lookup function. -/
@[simp] theorem find?_insert (m : SortedMap κ ν) (k : κ) (v : ν) (j : κ) :
    (m.insert k v).find? j = if j = k then some v else m.find? j :=
  findEntry_insertEntry k v m.entries j

/-- Removal as an update of the lookup function. -/
@[simp] theorem find?_erase (m : SortedMap κ ν) (k j : κ) :
    (m.erase k).find? j = if j = k then none else m.find? j := by
  split_ifs with h
  · rw [find?_eq_none_iff]
    intro v hv
    simp [erase, h] at hv
  · cases hf : m.find? j with
    | none =>
        rw [find?_eq_none_iff] at hf ⊢
        intro v hv
        exact hf v (List.mem_filter.mp hv).1
    | some v =>
        rw [find?_eq_some_iff] at hf ⊢
        exact List.mem_filter.mpr ⟨hf, by simpa using h⟩

/-- Sorted lists with the same members are equal. -/
theorem keysIncrease_ext : ∀ {l₁ l₂ : List (κ × ν)}, KeysIncrease l₁ → KeysIncrease l₂ →
    (∀ e, e ∈ l₁ ↔ e ∈ l₂) → l₁ = l₂
  | [], [], _, _, _ => rfl
  | [], b :: l₂, _, _, h => absurd ((h b).mpr (by simp)) (by simp)
  | a :: l₁, [], _, _, h => absurd ((h a).mp (by simp)) (by simp)
  | a :: l₁, b :: l₂, h₁, h₂, h => by
      have ha := List.pairwise_cons.mp h₁
      have hb := List.pairwise_cons.mp h₂
      have hab : a = b := by
        rcases List.mem_cons.mp ((h a).mp (by simp)) with hab | hab
        · exact hab
        · rcases List.mem_cons.mp ((h b).mpr (by simp)) with hba | hba
          · exact hba.symm
          · exact absurd (lt_trans (hb.1 a hab) (ha.1 b hba)) (lt_irrefl _)
      subst hab
      have hl : l₁ = l₂ := by
        apply keysIncrease_ext ha.2 hb.2
        intro e
        constructor
        · intro he
          rcases List.mem_cons.mp ((h e).mp (List.mem_cons_of_mem _ he)) with rfl | he'
          · exact absurd (ha.1 e he) (lt_irrefl _)
          · exact he'
        · intro he
          rcases List.mem_cons.mp ((h e).mpr (List.mem_cons_of_mem _ he)) with rfl | he'
          · exact absurd (hb.1 e he) (lt_irrefl _)
          · exact he'
      rw [hl]

@[ext] theorem ext_entries {m n : SortedMap κ ν} (h : m.entries = n.entries) : m = n := by
  cases m
  cases n
  cases h
  rfl

/-- A map is determined by its lookups. -/
theorem ext_find? {m n : SortedMap κ ν} (h : ∀ k, m.find? k = n.find? k) : m = n := by
  apply ext_entries
  apply keysIncrease_ext m.increasing n.increasing
  rintro ⟨k, v⟩
  rw [← find?_eq_some_iff, ← find?_eq_some_iff, h k]

/-- Inserts of distinct keys commute. -/
theorem insert_comm (m : SortedMap κ ν) {j k : κ} (hjk : j ≠ k) (v w : ν) :
    (m.insert j v).insert k w = (m.insert k w).insert j v := by
  apply ext_find?
  intro i
  simp only [find?_insert]
  split_ifs with h₁ h₂
  · exact absurd (h₂.symm.trans h₁) hjk
  · rfl
  · rfl
  · rfl

/-- An insert adds the weight of its value and takes away that of the value it replaces. -/
theorem sum_insert (m : SortedMap κ ν) (k : κ) (v : ν) (f : ν → Nat) :
    ((m.insert k v).values.map f).sum + ((m.find? k).map f).getD 0 =
      (m.values.map f).sum + f v := by
  obtain ⟨l, hl⟩ := m
  have hlist : ((insertEntry k v l).map (fun e => f e.2)).sum + ((findEntry k l).map f).getD 0 =
      (l.map (fun e => f e.2)).sum + f v := by
    induction l with
    | nil => simp [insertEntry, findEntry]
    | cons a l ih =>
        have ha := List.pairwise_cons.mp hl
        have ih := ih ha.2
        unfold insertEntry
        split_ifs with hlt heq
        · have hnone : findEntry k (a :: l) = none := by
            cases hf : findEntry k (a :: l) with
            | none => rfl
            | some x =>
                rcases List.mem_cons.mp ((findEntry_eq_some_iff hl).mp hf) with h | h
                · exact absurd hlt (by rw [← h]; exact lt_irrefl _)
                · exact absurd (lt_trans hlt (ha.1 _ h)) (lt_irrefl _)
          simp [hnone]
          omega
        · simp [findEntry, heq]
          omega
        · simp only [List.map_cons, List.sum_cons, findEntry, if_neg heq]
          omega
  simpa [values, insert, find?, List.map_map, Function.comp_def] using hlist

instance [DecidableEq ν] : DecidableEq (SortedMap κ ν) := fun m n =>
  decidable_of_iff (m.entries = n.entries) ⟨ext_entries, fun h => by rw [h]⟩

end SortedMap

end Foundation
end LsmKv
