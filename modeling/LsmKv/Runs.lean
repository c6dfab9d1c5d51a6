import LsmKv.Foundation.Versions
import LsmKv.MemTable
import LsmKv.SsTable

/-!
# Sorted runs of records

MemTables and tables both hand out their records key ascending and, within a
key, newest first.  In such a run the first visible version of a key is the
newest one, which is what every lookup of the engine relies on.

**Results.**
* `finds_lookupAt`: the first visible version is the newest.
* `MemTable.getAt_eq`, `scanBlock_eq`: the lookups of the source are that search.
* `MemTable.range_eq`: a range of a MemTable as a part of its run.
-/

namespace LsmKv

open Foundation

/-- How the engine reads records. -/
def recordVersions : Versioning Record Bytes Bytes := ⟨Record.key, Record.seq, Record.value⟩

/-- Key ascending and, within a key, newest first. -/
def SortedRun (l : List Record) : Prop := l.Pairwise (fun a b => a.version ≤ b.version)

/-- The first version of `key` below `seqBound`. -/
def lookupAt (l : List Record) (key : Bytes) (seqBound : Nat) : Option Record :=
  l.find? (fun r => decide (r.key = key ∧ r.seq < seqBound))

/-- The value of a key in the newest source that holds it. -/
def newestHolding (sources : List (List Record)) (key : Bytes) : Option Bytes :=
  (sources.findSome? (fun s => s.find? (fun r => decide (r.key = key)))).bind Record.value

/-- Sequence numbers a `u64` can hold. -/
def SeqsFit (l : List Record) : Prop := ∀ r ∈ l, r.seq ≤ u64Max

section Runs

variable {l : List Record} {key : Bytes} {seqBound : Nat}

theorem version_le_iff {a b : Record} :
    a.version ≤ b.version ↔ a.key < b.key ∨ (a.key = b.key ∧ b.seq ≤ a.seq) :=
  versionKey_le_iff

theorem sortedRun_iter (m : MemTable) : SortedRun m.iter :=
  m.iter_increasing.imp le_of_lt

theorem SortedRun.sublist {l' : List Record} (h : SortedRun l) (hl : l'.Sublist l) :
    SortedRun l' := List.Pairwise.sublist hl h

/-- Keys do not descend along a run. -/
theorem key_le_of_version_le {a b : Record} (h : a.version ≤ b.version) : a.key ≤ b.key := by
  rcases version_le_iff.mp h with h | h
  · exact le_of_lt h
  · exact le_of_eq h.1

/-- In a sorted run the first visible version is the newest. -/
theorem finds_lookupAt (hs : SortedRun l) :
    recordVersions.Finds key seqBound l (lookupAt l key seqBound) := by
  cases hl : lookupAt l key seqBound with
  | none =>
      rintro r ⟨hr, hk, hq⟩
      have := List.find?_eq_none.mp hl r hr
      exact this (decide_eq_true ⟨hk, hq⟩)
  | some r =>
      obtain ⟨hr, front, rest, rfl, hfront⟩ := List.find?_eq_some_iff_append.mp hl
      have hr' := of_decide_eq_true hr
      refine ⟨⟨by simp, hr'⟩, ?_⟩
      rintro r' ⟨hmem, hk, hq⟩
      rcases List.mem_append.mp hmem with hmem | hmem
      · have := hfront r' hmem
        rw [Bool.not_eq_true', decide_eq_false_iff_not] at this
        exact absurd ⟨hk, hq⟩ this
      · rcases List.mem_cons.mp hmem with rfl | hmem
        · exact le_rfl
        · have hle := (List.pairwise_cons.mp (List.pairwise_append.mp hs).2.1).1 r' hmem
          rcases version_le_iff.mp hle with hlt | ⟨_, hle⟩
          · exact absurd (hr'.1.trans hk.symm) (ne_of_lt hlt)
          · exact hle

/-- `MemTable::versions_of` is the part of the run with that key. -/
theorem MemTable.versionsOf_eq {m : MemTable} (hseq : SeqsFit m.iter) (key : Bytes) :
    m.versionsOf key = m.iter.filter (fun r => r.key = key) := by
  unfold MemTable.versionsOf MemTable.iter SortedMap.values
  rw [List.filter_map]
  congr 1
  apply List.filter_congr
  intro e he
  have hq : e.2.seq ≤ u64Max := hseq e.2 (List.mem_map.mpr ⟨e, he, rfl⟩)
  rw [m.keyed e he, Record.version]
  simp only [versionKey_le_iff, Function.comp, decide_eq_decide]
  constructor
  · rintro ⟨h1 | h1, h2 | h2⟩
    · exact absurd (lt_trans h1 h2) (lt_irrefl _)
    · exact h2.1
    · exact h1.1.symm
    · exact h2.1
  · rintro rfl
    exact ⟨Or.inr ⟨rfl, hq⟩, Or.inr ⟨rfl, Nat.zero_le _⟩⟩

/-- `MemTable::get_at` searches the run. -/
theorem MemTable.getAt_eq {m : MemTable} (hseq : SeqsFit m.iter) :
    m.getAt key seqBound = lookupAt m.iter key seqBound := by
  unfold MemTable.getAt lookupAt
  rw [MemTable.versionsOf_eq hseq, List.find?_filter]
  congr 1
  funext r
  simp

/-- The scan of a block searches the run. -/
theorem scanBlock_eq (hs : SortedRun l) : scanBlock key seqBound l = lookupAt l key seqBound := by
  induction l with
  | nil => rfl
  | cons r rs ih =>
      have hcons := List.pairwise_cons.mp hs
      have ih := ih hcons.2
      unfold lookupAt at ih ⊢
      unfold scanBlock
      rw [List.find?_cons]
      by_cases hk : r.key = key
      · by_cases hq : r.seq < seqBound
        · simp [hk, hq]
        · simp [hk, hq, ih]
      · have hno : decide (r.key = key ∧ r.seq < seqBound) = false := by simp [hk]
        rw [if_neg hk, hno]
        split_ifs with hlt
        · symm
          rw [List.find?_eq_none]
          intro r' hr' hdec
          have hkey := (of_decide_eq_true hdec).1
          have hle := key_le_of_version_le (hcons.1 r' hr')
          rw [hkey] at hle
          exact absurd hlt (not_lt.mpr hle)
        · exact ih

/-- The records of a run from `start` on. -/
def fromStart (start : Option Bytes) (l : List Record) : List Record :=
  l.filter (fun r =>
    match start with
    | some k => decide (k ≤ r.key)
    | none => true)

/-- The records of a run up to the first key that is not before `stop`. -/
def untilStop (stop : Option Bytes) (l : List Record) : List Record :=
  l.takeWhile (fun r =>
    match stop with
    | some e => decide (r.key < e)
    | none => true)

/-- `MemTable::range` cuts the run at both ends. -/
theorem MemTable.range_eq {m : MemTable} (hseq : SeqsFit m.iter) (start stop : Option Bytes) :
    m.range start stop = untilStop stop (fromStart start m.iter) := by
  unfold MemTable.range untilStop fromStart MemTable.iter SortedMap.values
  dsimp only
  rw [List.filter_map]
  congr 2
  apply List.filter_congr
  intro e he
  have hq : e.2.seq ≤ u64Max := hseq e.2 (List.mem_map.mpr ⟨e, he, rfl⟩)
  cases start with
  | none => rfl
  | some k =>
      simp only [Function.comp]
      rw [m.keyed e he, Record.version, decide_eq_decide, versionKey_le_iff]
      constructor
      · rintro (h | h)
        · exact le_of_lt h
        · exact le_of_eq h.1
      · intro h
        rcases lt_or_eq_of_le h with h | h
        · exact Or.inl h
        · exact Or.inr ⟨h, hq⟩

end Runs

end LsmKv
