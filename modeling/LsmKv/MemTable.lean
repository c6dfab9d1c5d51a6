import LsmKv.Record
import LsmKv.Foundation.SortedMap
import Mathlib.Data.Prod.Lex
import Mathlib.Order.OrderDual

/-!
# The MemTable

Every buffered version of every key, keyed by `(key, Reverse(seq))`: key
ascending and, within a key, sequence descending.
-/

namespace LsmKv

open Foundation

/-- `VersionKey`. -/
abbrev VersionKey := Bytes ×ₗ ℕᵒᵈ

/-- The key under which a version of `key` is stored. -/
def versionKey (key : Bytes) (seq : Nat) : VersionKey := toLex (key, OrderDual.toDual seq)

/-- The key of a record in a MemTable. -/
def Record.version (r : Record) : VersionKey := versionKey r.key r.seq

/-- `memtable::MemTable`; every record is stored under its own version. -/
structure MemTable where
  map : SortedMap VersionKey Record
  size : Nat
  threshold : Nat
  keyed : ∀ e ∈ map.entries, e.1 = e.2.version

namespace MemTable

/-- `MemTable::new`. -/
def new (threshold : Nat) : MemTable := ⟨SortedMap.empty, 0, threshold, by simp [SortedMap.empty]⟩

/-- `MemTable::insert`. -/
def insert (m : MemTable) (record : Record) : MemTable :=
  let newLen := record.encodedLen
  let key := record.version
  { m with
    map := m.map.insert key record
    size :=
      match m.map.find? key with
      | some old => m.size - old.encodedLen + newLen
      | none => m.size + newLen
    keyed := fun e he => by
      rcases SortedMap.mem_insertEntry he with rfl | he
      · rfl
      · exact m.keyed e he }

/-- `MemTable::versions_of`: the entries from `(key, MAX)` to `(key, 0)`. -/
def versionsOf (m : MemTable) (key : Bytes) : List Record :=
  (m.map.entries.filter (fun e =>
    versionKey key u64Max ≤ e.1 ∧ e.1 ≤ versionKey key 0)).map Prod.snd

/-- `MemTable::get_at`. -/
def getAt (m : MemTable) (key : Bytes) (seqBound : Nat) : Option Record :=
  (m.versionsOf key).find? (fun r => r.seq < seqBound)

/-- `MemTable::iter`. -/
def iter (m : MemTable) : List Record := m.map.values

/-- `MemTable::range`. -/
def range (m : MemTable) (start stop : Option Bytes) : List Record :=
  let low := m.map.entries.filter (fun e =>
    match start with
    | some k => decide (versionKey k u64Max ≤ e.1)
    | none => true)
  (low.map Prod.snd).takeWhile (fun record =>
    match stop with
    | some e => decide (record.key < e)
    | none => true)

/-- `MemTable::is_empty`. -/
def isEmpty (m : MemTable) : Bool := m.map.entries.isEmpty

/-- `MemTable::is_full`. -/
def isFull (m : MemTable) : Bool := m.size ≥ m.threshold

end MemTable

section Order

variable {k k' : Bytes} {q q' : Nat}

theorem versionKey_le_iff : versionKey k q ≤ versionKey k' q' ↔ k < k' ∨ (k = k' ∧ q' ≤ q) := by
  unfold versionKey
  rw [Prod.Lex.toLex_le_toLex]
  rfl

theorem versionKey_lt_iff : versionKey k q < versionKey k' q' ↔ k < k' ∨ (k = k' ∧ q' < q) := by
  unfold versionKey
  rw [Prod.Lex.toLex_lt_toLex]
  rfl

theorem versionKey_inj : versionKey k q = versionKey k' q' ↔ k = k' ∧ q = q' := by
  unfold versionKey
  rw [toLex_inj, Prod.mk.injEq, OrderDual.toDual_inj]

end Order

namespace MemTable

variable {m : MemTable} {r r' : Record}

theorem mem_iter_iff : r ∈ m.iter ↔ (r.version, r) ∈ m.map.entries := by
  unfold iter SortedMap.values
  rw [List.mem_map]
  constructor
  · rintro ⟨e, he, rfl⟩
    rw [← m.keyed e he]
    exact he
  · exact fun h => ⟨_, h, rfl⟩

/-- The records stand in version order, each version once. -/
theorem iter_increasing (m : MemTable) :
    m.iter.Pairwise (fun a b => a.version < b.version) := by
  unfold iter SortedMap.values
  rw [List.pairwise_map]
  refine m.map.increasing.imp_of_mem ?_
  intro a b ha hb hab
  rwa [m.keyed a ha, m.keyed b hb] at hab

@[simp] theorem iter_new (threshold : Nat) : (new threshold).iter = [] := rfl

/-- An insert replaces the record of the same version. -/
theorem mem_iter_insert :
    r' ∈ (m.insert r).iter ↔ r' = r ∨ (r' ∈ m.iter ∧ r'.version ≠ r.version) := by
  rw [mem_iter_iff, mem_iter_iff, ← SortedMap.find?_eq_some_iff, ← SortedMap.find?_eq_some_iff]
  show (m.map.insert r.version r).find? r'.version = some r' ↔ _
  rw [SortedMap.find?_insert]
  split_ifs with h
  · constructor
    · intro heq
      exact Or.inl (by simpa using heq.symm)
    · rintro (rfl | ⟨_, hne⟩)
      · rfl
      · exact absurd h hne
  · constructor
    · exact fun hr => Or.inr ⟨hr, h⟩
    · rintro (rfl | ⟨hr, _⟩)
      · exact absurd rfl h
      · exact hr

theorem isEmpty_iff : m.isEmpty = true ↔ m.iter = [] := by
  unfold isEmpty iter SortedMap.values
  simp

end MemTable

end LsmKv
