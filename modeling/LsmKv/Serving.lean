import Mathlib.Data.List.Find
import LsmKv.Compact

/-!
# The map a stack of sources stands for

`Serving sources nextSeq now pinned` relates the records of an engine to what
its callers think it holds: the map `now`, and for every live snapshot the map
that was current when it was taken.

**Results.**  Every operation on the records keeps the relation:
* `Serving.insert`: a write changes the current map and no pinned one;
* `Serving.freeze`: an empty MemTable in front changes nothing;
* `Serving.condense`: so does merging neighbouring tables, whether or not the
  tombstones of the oldest run are dropped.
-/

namespace LsmKv

open Foundation Versioning

/-- A mutation as an update of a map. -/
def applyOp (m : SortedMap Bytes Bytes) (op : Bytes × Option Bytes) : SortedMap Bytes Bytes :=
  match op.2 with
  | some v => m.insert op.1 v
  | none => m.erase op.1

/-- The mutations of a batch, in order. -/
def applyBatch (m : SortedMap Bytes Bytes) (batch : WriteBatch) : SortedMap Bytes Bytes :=
  batch.foldl applyOp m

/-- Sources that stand for the map `now`, and below the horizon of each entry of
`pinned` for the map beside it. -/
structure Serving (sources : List (List Record)) (nextSeq : Nat) (now : SortedMap Bytes Bytes)
    (pinned : List (Nat × SortedMap Bytes Bytes)) : Prop where
  stacked : recordVersions.Stacked sources
  below : ∀ r ∈ pool sources, r.seq < nextSeq
  now : ∀ k h, nextSeq ≤ h → recordVersions.Reads (pool sources) k h (now.find? k)
  pinned : ∀ p ∈ pinned, p.1 ≤ nextSeq ∧
    ∀ k, recordVersions.Reads (pool sources) k p.1 (p.2.find? k)

/-- Over stacked sources the newest one that holds a key has its newest version. -/
theorem reads_newestHolding {sources : List (List Record)} {bound : Nat} (key : Bytes)
    (hst : recordVersions.Stacked sources) (hsorted : ∀ s ∈ sources, SortedRun s)
    (hbelow : ∀ s ∈ sources, ∀ r ∈ s, r.seq < bound) :
    recordVersions.Reads (pool sources) key bound (newestHolding sources key) := by
  refine reads_findSome _ (hst.layered key bound) fun s hs => ?_
  have hlook : s.find? (fun r => decide (r.key = key)) = lookupAt s key bound := by
    refine List.find?_congr fun r hr => ?_
    simp [hbelow s hs r hr]
  rw [hlook]
  exact finds_lookupAt (hsorted s hs)

section Records

theorem find?_applyOp (m : SortedMap Bytes Bytes) (op : Bytes × Option Bytes) (k : Bytes) :
    (applyOp m op).find? k = if op.1 = k then op.2 else m.find? k := by
  obtain ⟨key, value⟩ := op
  unfold applyOp
  cases value with
  | none =>
      simp only [SortedMap.find?_erase]
      by_cases h : k = key
      · simp [h]
      · simp [h, Ne.symm h]
  | some v =>
      simp only [SortedMap.find?_insert]
      by_cases h : k = key
      · simp [h]
      · simp [h, Ne.symm h]

@[simp] theorem key_recordOf (key : Bytes) (value : Option Bytes) (seq : Nat) :
    (DbInner.recordOf key value seq).key = key := by
  cases value <;> rfl

@[simp] theorem seq_recordOf (key : Bytes) (value : Option Bytes) (seq : Nat) :
    (DbInner.recordOf key value seq).seq = seq := by
  cases value <;> rfl

@[simp] theorem value_recordOf (key : Bytes) (value : Option Bytes) (seq : Nat) :
    (DbInner.recordOf key value seq).value = value := by
  cases value <;> rfl

/-- A record whose version is new is added. -/
theorem ofList_iter_insert {m : MemTable} {r : Record}
    (h : ∀ x ∈ m.iter, x.version ≠ r.version) :
    ofList (m.insert r).iter = ofList m.iter ∪ {r} := by
  ext x
  rw [mem_ofList, MemTable.mem_iter_insert]
  constructor
  · rintro (rfl | ⟨hx, _⟩)
    · exact Or.inr rfl
    · exact Or.inl hx
  · rintro (hx | rfl)
    · exact Or.inr ⟨hx, h x hx⟩
    · exact Or.inl rfl

theorem seq_ne_of_version_ne {a b : Record} (h : a.seq ≠ b.seq) : a.version ≠ b.version := by
  intro hv
  exact h (versionKey_inj.mp hv).2

end Records

namespace Serving

variable {m : MemTable} {rest sources newer run older : List (List Record)}
variable {nextSeq : Nat} {now : SortedMap Bytes Bytes}
variable {pinned : List (Nat × SortedMap Bytes Bytes)}

/-- The sources of an empty engine. -/
theorem fresh (threshold nextSeq : Nat) :
    Serving [(MemTable.new threshold).iter] nextSeq SortedMap.empty [] where
  stacked := ⟨by simp [OnePerSeq], by simp⟩
  below := by simp
  now k h _ := Or.inr ⟨fun r hr => by simpa using hr.1, rfl⟩
  pinned := by simp

/-- A write changes the current map, and no pinned one. -/
theorem insert (hs : Serving (m.iter :: rest) nextSeq now pinned) (op : Bytes × Option Bytes) :
    Serving ((m.insert (DbInner.recordOf op.1 op.2 nextSeq)).iter :: rest) (nextSeq + 1)
      (applyOp now op) pinned := by
  set r := DbInner.recordOf op.1 op.2 nextSeq with hr
  have hseq : r.seq = nextSeq := seq_recordOf _ _ _
  have hold : ∀ x ∈ m.iter, x.seq < nextSeq := fun x hx =>
    hs.below x ⟨m.iter, by simp, hx⟩
  have hiter := ofList_iter_insert (m := m) (r := r) fun x hx =>
    seq_ne_of_version_ne (by have := hold x hx; omega)
  have hpool : pool ((m.insert r).iter :: rest) = pool (m.iter :: rest) ∪ {r} := by
    rw [pool_cons, pool_cons, hiter, Set.union_right_comm]
  have hmem : ∀ x ∈ (m.insert r).iter, x = r ∨ x ∈ m.iter := by
    intro x hx
    rcases MemTable.mem_iter_insert.mp hx with h | h
    · exact Or.inl h
    · exact Or.inr h.1
  have hcons := List.pairwise_cons.mp hs.stacked.across
  refine ⟨⟨?_, List.pairwise_cons.mpr ⟨?_, hcons.2⟩⟩, ?_, ?_, ?_⟩
  · intro s hmems
    rcases List.mem_cons.mp hmems with rfl | hmems
    · intro a ha b hb hk hq
      rcases hmem a ha with rfl | ha'
      · rcases hmem b hb with rfl | hb'
        · rfl
        · have : b.seq < nextSeq := hold b hb'
          exact absurd hq (by show r.seq ≠ b.seq; omega)
      · rcases hmem b hb with rfl | hb'
        · have : a.seq < nextSeq := hold a ha'
          exact absurd hq (by show a.seq ≠ r.seq; omega)
        · exact hs.stacked.each m.iter (by simp) a ha' b hb' hk hq
    · exact hs.stacked.each s (List.mem_cons_of_mem _ hmems)
  · intro o ho a ha b hb hk
    rcases hmem a ha with rfl | ha'
    · have := hs.below b ⟨o, List.mem_cons_of_mem _ ho, hb⟩
      show b.seq < r.seq
      omega
    · exact hcons.1 o ho a ha' b hb hk
  · intro x hx
    rw [hpool] at hx
    rcases hx with hx | rfl
    · have := hs.below x hx
      omega
    · show r.seq < nextSeq + 1
      omega
  · intro k h hh
    have hreads := hs.now k h (by omega)
    have habove : ∀ x ∈ pool (m.iter :: rest), recordVersions.seq x ≤ recordVersions.seq r := by
      intro x hx
      have := hs.below x hx
      show x.seq ≤ r.seq
      omega
    rw [hpool, find?_applyOp]
    have := hreads.insert habove (show r.seq < h by omega)
    rwa [show recordVersions.key r = op.1 from key_recordOf _ _ _,
      show recordVersions.value r = op.2 from value_recordOf _ _ _] at this
  · intro p hp
    obtain ⟨hle, hreads⟩ := hs.pinned p hp
    refine ⟨by omega, fun k => ?_⟩
    rw [hpool]
    refine (hreads k).union_above fun x hx => ?_
    rw [hx]
    show p.1 ≤ r.seq
    omega

/-- A batch is its mutations one after another. -/
theorem insertAll (hs : Serving (m.iter :: rest) nextSeq now pinned) (batch : WriteBatch) :
    Serving (((DbInner.numberRecords nextSeq batch).foldl MemTable.insert m).iter :: rest)
      (nextSeq + batch.length) (applyBatch now batch) pinned := by
  induction batch generalizing m nextSeq now with
  | nil => exact hs
  | cons op ops ih =>
      have := ih (hs.insert op)
      rw [List.length_cons, Nat.add_comm ops.length 1, ← Nat.add_assoc]
      exact this

/-- Sequence numbers that no record has may be skipped. -/
theorem skip (hs : Serving sources nextSeq now pinned) {next : Nat} (h : nextSeq ≤ next) :
    Serving sources next now pinned :=
  ⟨hs.stacked, fun r hr => lt_of_lt_of_le (hs.below r hr) h, fun k b hb => hs.now k b (h.trans hb),
    fun p hp => ⟨(hs.pinned p hp).1.trans h, (hs.pinned p hp).2⟩⟩

/-- Sources with the same records in the same order of age stand for the same maps. -/
theorem freeze (threshold : Nat) (hs : Serving sources nextSeq now pinned) :
    Serving ((MemTable.new threshold).iter :: sources) nextSeq now pinned := by
  have hpool : pool ((MemTable.new threshold).iter :: sources) = pool sources := by
    rw [pool_cons, MemTable.iter_new]
    ext r
    simp
  refine ⟨⟨?_, List.pairwise_cons.mpr ⟨by simp, hs.stacked.across⟩⟩, ?_, ?_, ?_⟩
  · intro s hmem
    rcases List.mem_cons.mp hmem with rfl | hmem
    · simp [OnePerSeq]
    · exact hs.stacked.each s hmem
  · rw [hpool]
    exact hs.below
  · rw [hpool]
    exact hs.now
  · rw [hpool]
    exact hs.pinned

/-- Merging neighbouring sources changes no map whose horizon the merge respects. -/
theorem condense {merged : List Record}
    (hs : Serving (newer ++ run ++ older) nextSeq now pinned) (dropping : Prop)
    (hnow : ∀ k h, nextSeq ≤ h →
      recordVersions.Condenses k h dropping (pool run) (ofList merged))
    (hpin : ∀ p ∈ pinned, ∀ k,
      recordVersions.Condenses k p.1 dropping (pool run) (ofList merged))
    (hdrop : dropping → older = []) :
    Serving (newer ++ [merged] ++ older) nextSeq now pinned := by
  have hsub : ofList merged ⊆ pool run := (hnow [] nextSeq le_rfl).subset
  have hpool : ∀ l, pool (newer ++ l ++ older) = pool newer ∪ pool l ∪ pool older := by
    intro l
    rw [pool_append, pool_append]
  have hmerged : pool [merged] = ofList merged := by simp
  have hread : ∀ k h v, recordVersions.Condenses k h dropping (pool run) (ofList merged) →
      recordVersions.Reads (pool (newer ++ run ++ older)) k h v →
        recordVersions.Reads (pool (newer ++ [merged] ++ older)) k h v := by
    intro k h v hc hv
    have hone := hs.stacked.onePerSeq
    have hstack := hs.stacked
    rw [List.append_assoc] at hstack
    have hrun : pool run ⊆ pool (run ++ older) := by
      rw [pool_append]
      exact Set.subset_union_left
    have habove := (hstack.above k h).mono hrun
    rw [hpool] at hone hv
    rw [hpool, hmerged]
    refine Reads.condense hone habove hc ?_ hv
    intro hd
    rw [hdrop hd, pool_nil]
    exact fun r hr => hr.1
  refine ⟨hs.stacked.condense hsub, ?_, ?_, ?_⟩
  · intro r hr
    apply hs.below
    rw [hpool, hmerged] at hr
    rw [hpool]
    rcases hr with (hr | hr) | hr
    · exact Or.inl (Or.inl hr)
    · exact Or.inl (Or.inr (hsub hr))
    · exact Or.inr hr
  · exact fun k h hh => hread k h _ (hnow k h hh) (hs.now k h hh)
  · exact fun p hp => ⟨(hs.pinned p hp).1, fun k => hread k p.1 _ (hpin p hp k)
      ((hs.pinned p hp).2 k)⟩

/-- A snapshot pins the current map. -/
theorem pin (hs : Serving sources nextSeq now pinned) :
    Serving sources nextSeq now ((nextSeq, now) :: pinned) := by
  refine ⟨hs.stacked, hs.below, hs.now, ?_⟩
  intro p hp
  rcases List.mem_cons.mp hp with rfl | hp
  · exact ⟨le_rfl, fun k => hs.now k nextSeq le_rfl⟩
  · exact hs.pinned p hp

theorem unpin {pinned' : List (Nat × SortedMap Bytes Bytes)}
    (hs : Serving sources nextSeq now pinned) (hsub : ∀ p ∈ pinned', p ∈ pinned) :
    Serving sources nextSeq now pinned' :=
  ⟨hs.stacked, hs.below, hs.now, fun p hp => hs.pinned p (hsub p hp)⟩

theorem holds (hs : Serving sources nextSeq now pinned) {h : Nat} (hh : nextSeq ≤ h) :
    Holds sources h now := ⟨hs.stacked.onePerSeq, fun k => hs.now k h hh⟩

theorem holdsAt (hs : Serving sources nextSeq now pinned) {p : Nat × SortedMap Bytes Bytes}
    (hp : p ∈ pinned) : Holds sources p.1 p.2 :=
  ⟨hs.stacked.onePerSeq, (hs.pinned p hp).2⟩

end Serving

end LsmKv
