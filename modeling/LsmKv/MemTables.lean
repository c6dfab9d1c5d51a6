import LsmKv.Runs
import Mathlib.Algebra.Order.BigOperators.Group.List
import Mathlib.Data.List.TakeWhile

/-!
# What a MemTable holds

After any sequence of inserts, also ones that write a version again with a record of
another length.

**Results.**
* `MemTable.Weighed.insertAll`: the size is that of the stored records.
* `MemTable.mem_insertAll`: the last record of each version is stored.
* `memtable_representation`: the size, the order, the lookups and the ranges, and that
  the order of the inserts of distinct versions leaves no trace.
-/

namespace LsmKv

open Foundation

namespace MemTable

variable {m : MemTable} {r : Record} {rs : List Record}

/-- The inserts of a list of records. -/
def insertAll (m : MemTable) (records : List Record) : MemTable := records.foldl insert m

/-- The size is that of the stored records. -/
def Weighed (m : MemTable) : Prop := m.size = (m.iter.map Record.encodedLen).sum

theorem weighed_new (threshold : Nat) : (new threshold).Weighed := rfl

/-- The record that an insert replaces is counted in the size. -/
theorem Weighed.old_le (h : m.Weighed) {old : Record}
    (hold : m.map.find? r.version = some old) : old.encodedLen ≤ m.size := by
  have hmem : old ∈ m.iter :=
    List.mem_map.mpr ⟨_, m.map.find?_eq_some_iff.mp hold, rfl⟩
  rw [h]
  exact List.single_le_sum (by simp) _ (List.mem_map.mpr ⟨old, hmem, rfl⟩)

theorem Weighed.insert (h : m.Weighed) (r : Record) : (m.insert r).Weighed := by
  have hsum := m.map.sum_insert r.version r Record.encodedLen
  have hsize : m.size = (m.map.values.map Record.encodedLen).sum := h
  show (m.insert r).size = ((m.map.insert r.version r).values.map Record.encodedLen).sum
  cases hold : m.map.find? r.version with
  | none =>
      rw [hold] at hsum
      simp only [Option.map_none, Option.getD_none] at hsum
      have hinsert : (m.insert r).size = m.size + r.encodedLen := by
        simp only [MemTable.insert, hold]
      omega
  | some old =>
      have hle := h.old_le hold
      rw [hold] at hsum
      simp only [Option.map_some, Option.getD_some] at hsum
      have hinsert : (m.insert r).size = m.size - old.encodedLen + r.encodedLen := by
        simp only [MemTable.insert, hold]
      omega

/-- The size after any inserts is that of the stored records. -/
theorem Weighed.insertAll (h : m.Weighed) (rs : List Record) : (m.insertAll rs).Weighed := by
  induction rs generalizing m with
  | nil => exact h
  | cons r rs ih => exact ih (h.insert r)

/-- The last record of each version is stored. -/
theorem mem_insertAll :
    r ∈ (m.insertAll rs).iter ↔
      (∃ a b, rs = a ++ r :: b ∧ ∀ x ∈ b, x.version ≠ r.version) ∨
        (r ∈ m.iter ∧ ∀ x ∈ rs, x.version ≠ r.version) := by
  induction rs generalizing m with
  | nil => simp [insertAll]
  | cons y ys ih =>
      have hstep : m.insertAll (y :: ys) = (m.insert y).insertAll ys := rfl
      rw [hstep, ih, mem_iter_insert]
      constructor
      · rintro (⟨a, b, rfl, hb⟩ | ⟨rfl | ⟨hr, hne⟩, hys⟩)
        · exact Or.inl ⟨y :: a, b, rfl, hb⟩
        · exact Or.inl ⟨[], ys, rfl, hys⟩
        · refine Or.inr ⟨hr, fun x hx => ?_⟩
          rcases List.mem_cons.mp hx with rfl | hx
          · exact Ne.symm hne
          · exact hys x hx
      · rintro (⟨a, b, hab, hb⟩ | ⟨hr, hall⟩)
        · cases a with
          | nil =>
              cases hab
              exact Or.inr ⟨Or.inl rfl, hb⟩
          | cons z a =>
              cases hab
              exact Or.inl ⟨a, b, rfl, hb⟩
        · exact Or.inr ⟨Or.inr ⟨hr, Ne.symm (hall y (by simp))⟩,
            fun x hx => hall x (List.mem_cons_of_mem _ hx)⟩

theorem map_insertAll (m : MemTable) (rs : List Record) :
    (m.insertAll rs).map = rs.foldl (fun map r => map.insert r.version r) m.map := by
  induction rs generalizing m with
  | nil => rfl
  | cons r rs ih => exact ih (m.insert r)

theorem threshold_insertAll (m : MemTable) (rs : List Record) :
    (m.insertAll rs).threshold = m.threshold := by
  induction rs generalizing m with
  | nil => rfl
  | cons r rs ih => exact ih (m.insert r)

/-- Weighed MemTables are determined by what they hold. -/
theorem Weighed.ext {m' : MemTable} (h : m.Weighed) (h' : m'.Weighed) (hmap : m.map = m'.map)
    (ht : m.threshold = m'.threshold) : m = m' := by
  have hsize : m.size = m'.size := by
    rw [h, h', iter, iter, hmap]
  cases m
  cases m'
  cases hmap
  cases hsize
  cases ht
  rfl

/-- Inserts of distinct versions commute. -/
theorem Weighed.insert_comm (h : m.Weighed) {r' : Record} (hne : r.version ≠ r'.version) :
    (m.insert r).insert r' = (m.insert r').insert r :=
  ((h.insert r).insert r').ext ((h.insert r').insert r)
    (m.map.insert_comm hne r r') rfl

/-- Any order of inserts of distinct versions leads to the same MemTable. -/
theorem Weighed.insertAll_perm (h : m.Weighed) {rs' : List Record} (hperm : rs.Perm rs')
    (hdistinct : rs.Pairwise (fun a b => a.version ≠ b.version)) :
    m.insertAll rs = m.insertAll rs' := by
  refine (h.insertAll rs).ext (h.insertAll rs') ?_ (by rw [threshold_insertAll,
    threshold_insertAll])
  rw [map_insertAll, map_insertAll]
  refine hperm.foldl_eq' (fun x hx y hy z => ?_) m.map
  by_cases hxy : x = y
  · rw [hxy]
  · have hsymm : Std.Symm (fun a b : Record => a.version ≠ b.version) := ⟨fun _ _ h => Ne.symm h⟩
    exact z.insert_comm (hdistinct.forall hx hy hxy) x y

end MemTable

section Representation

variable {m : MemTable} {key : Bytes} {seqBound : Nat}

theorem untilStop_eq_filter {stop : Option Bytes} {l : List Record} (hl : SortedRun l) :
    untilStop stop l = l.filter (fun r =>
      match stop with
      | some e => decide (r.key < e)
      | none => true) := by
  unfold untilStop
  cases stop with
  | none => simp
  | some e =>
      induction l with
      | nil => rfl
      | cons r rs ih =>
          have hcons := List.pairwise_cons.mp hl
          by_cases hr : r.key < e
          · rw [List.takeWhile_cons_of_pos (by simpa using hr),
              List.filter_cons_of_pos (by simpa using hr), ih hcons.2]
          · rw [List.takeWhile_cons_of_neg (by simpa using hr),
              List.filter_cons_of_neg (by simpa using hr)]
            symm
            rw [List.filter_eq_nil_iff]
            intro x hx
            have hle := key_le_of_version_le (hcons.1 x hx)
            simpa using le_trans (not_lt.mp hr) hle

/-- A lookup in a MemTable returns the newest visible version. -/
theorem MemTable.getAt_eq_some_iff (hseq : SeqsFit m.iter) {r : Record} :
    m.getAt key seqBound = some r ↔
      r ∈ m.iter ∧ r.key = key ∧ r.seq < seqBound ∧
        ∀ x ∈ m.iter, x.key = key → x.seq < seqBound → x.seq ≤ r.seq := by
  have hfinds : recordVersions.Finds key seqBound m.iter (m.getAt key seqBound) := by
    rw [MemTable.getAt_eq hseq]
    exact finds_lookupAt (sortedRun_iter m)
  constructor
  · intro h
    rw [h] at hfinds
    exact ⟨hfinds.1.1, hfinds.1.2.1, hfinds.1.2.2, fun x hx hk hq => hfinds.2 x ⟨hx, hk, hq⟩⟩
  · rintro ⟨hr, hk, hq, hall⟩
    cases hget : m.getAt key seqBound with
    | none =>
        rw [hget] at hfinds
        exact absurd ⟨hr, hk, hq⟩ (hfinds r)
    | some x =>
        rw [hget] at hfinds
        obtain ⟨⟨hx, hxk, hxq⟩, hxall⟩ := hfinds
        have hseqs : x.seq = r.seq := le_antisymm (hall x hx hxk hxq) (hxall r ⟨hr, hk, hq⟩)
        have hver : x.version = r.version :=
          versionKey_inj.mpr ⟨(show x.key = key from hxk).trans hk.symm, hseqs⟩
        replace hx := MemTable.mem_iter_iff.mp hx
        rw [MemTable.mem_iter_iff] at hr
        rw [hver, ← SortedMap.find?_eq_some_iff] at hx
        rw [← SortedMap.find?_eq_some_iff] at hr
        rw [hr] at hx
        rw [Option.some.inj hx]

end Representation

/-- After any inserts the size is that of the stored records, and what an insert replaces is
counted in it; a record is stored iff it was the last of its version; the records come key
ascending and newest first; a lookup returns the newest visible one, or none; a range is the
part of the records with keys in it; and neither the order of two inserts of distinct
versions nor, where all are distinct, that of all of them can be told. -/
theorem memtable_representation (threshold : Nat) (rs : List Record)
    (hseq : ∀ r ∈ rs, r.seq ≤ u64Max) :
    let m := (MemTable.new threshold).insertAll rs
    (m.size = (m.iter.map Record.encodedLen).sum ∧
      ∀ (r : Record) old, m.map.find? r.version = some old → old.encodedLen ≤ m.size) ∧
    (∀ r, r ∈ m.iter ↔ ∃ a b, rs = a ++ r :: b ∧ ∀ x ∈ b, ¬ (x.key = r.key ∧ x.seq = r.seq)) ∧
    m.iter.Pairwise (fun a b => a.key < b.key ∨ (a.key = b.key ∧ b.seq < a.seq)) ∧
    (∀ key seqBound,
      (∀ r, m.getAt key seqBound = some r ↔
        r ∈ m.iter ∧ r.key = key ∧ r.seq < seqBound ∧
          ∀ x ∈ m.iter, x.key = key → x.seq < seqBound → x.seq ≤ r.seq) ∧
      (m.getAt key seqBound = none ↔ ∀ x ∈ m.iter, x.key = key → ¬ x.seq < seqBound)) ∧
    (∀ start stop, m.range start stop = m.iter.filter (fun r =>
      start.all (fun k => decide (k ≤ r.key)) && stop.all (fun e => decide (r.key < e)))) ∧
    (∀ start stop, stop ≤ start → m.range (some start) (some stop) = []) ∧
    (∀ r r', ¬ (r.key = r'.key ∧ r.seq = r'.seq) →
      (m.insert r).insert r' = (m.insert r').insert r) ∧
    ∀ rs', rs.Perm rs' → rs.Pairwise (fun a b => ¬ (a.key = b.key ∧ a.seq = b.seq)) →
      (MemTable.new threshold).insertAll rs' = m := by
  intro m
  have hm : m.Weighed := (MemTable.weighed_new threshold).insertAll rs
  have hver : ∀ a b : Record, a.version = b.version ↔ a.key = b.key ∧ a.seq = b.seq :=
    fun _ _ => versionKey_inj
  have hmem : ∀ r, r ∈ m.iter ↔ ∃ a b, rs = a ++ r :: b ∧ ∀ x ∈ b, x.version ≠ r.version := by
    intro r
    rw [MemTable.mem_insertAll]
    simp
  have hfit : SeqsFit m.iter := by
    intro r hr
    obtain ⟨a, b, rfl, _⟩ := (hmem r).mp hr
    exact hseq r (by simp)
  have hrange : ∀ start stop, m.range start stop = m.iter.filter (fun r =>
      start.all (fun k => decide (k ≤ r.key)) && stop.all (fun e => decide (r.key < e))) := by
    intro start stop
    have hsorted : SortedRun (fromStart start m.iter) :=
      (sortedRun_iter m).sublist List.filter_sublist
    rw [MemTable.range_eq hfit, untilStop_eq_filter hsorted, fromStart, List.filter_filter]
    apply List.filter_congr
    intro r _
    cases start <;> cases stop <;> simp [Bool.and_comm]
  refine ⟨⟨hm, fun r old hold => hm.old_le hold⟩, fun r => ?_, ?_, fun key seqBound => ⟨fun r =>
    MemTable.getAt_eq_some_iff hfit, ?_⟩, hrange, ?_, ?_, ?_⟩
  · simp only [hmem, ne_eq, hver]
  · exact m.iter_increasing.imp fun h => versionKey_lt_iff.mp h
  · rw [MemTable.getAt_eq hfit, lookupAt, List.find?_eq_none]
    simp
  · intro start stop hle
    rw [hrange, List.filter_eq_nil_iff]
    intro r _ hr
    simp only [Option.all_some, Bool.and_eq_true, decide_eq_true_eq] at hr
    exact absurd (lt_of_le_of_lt hr.1 hr.2) (not_lt.mpr hle)
  · intro r r' hne
    exact hm.insert_comm fun h => hne ((hver r r').mp h)
  · intro rs' hperm hdistinct
    exact ((MemTable.weighed_new threshold).insertAll_perm hperm
      (hdistinct.imp fun h hv => h ((hver _ _).mp hv))).symm

/-- A version that is written again with a longer value, and an older one. -/
theorem memtable_representation_rewritten :
    ((MemTable.new 100).insertAll [Record.put [1] [2] 5, Record.put [1] [3, 4] 5,
        Record.tombstone [1] 2]).size = 38 ∧
      ((MemTable.new 100).insertAll [Record.put [1] [2] 5, Record.put [1] [3, 4] 5,
        Record.tombstone [1] 2]).getAt [1] 5 = some (Record.tombstone [1] 2) := by
  have h := memtable_representation 100 [Record.put [1] [2] 5, Record.put [1] [3, 4] 5,
    Record.tombstone [1] 2] (by decide)
  exact ⟨h.1.1.trans (by decide), (h.2.2.2.1 [1] 5).1 _ |>.mpr (by decide)⟩

end LsmKv
