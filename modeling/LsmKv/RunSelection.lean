import LsmKv.Foundation.Blocks
import LsmKv.Returned
import Mathlib.Data.Nat.Size
import Mathlib.Logic.Function.Iterate

/-!
# The run a compaction picks

`pick_compaction` walks two cursors over the tiers of the tables.  Here its loops are shown
to stop at the leftmost long enough block of equal tiers, and to stop at all: `Cursors` are
the loops as they stand in the source, with nothing that bounds them.

**Results.**
* `firstBlock_pickLoop`, `pickLoop_eq_none`: the outer loop, from a place where a block
  starts.
* `Cursors.run`: the unbounded loops end where the bounded ones do.
* `pick_compaction_exact`: what `pick_compaction` returns.
-/

namespace LsmKv

open Foundation

/-- `64 - len.leading_zeros()` is the bit width. -/
theorem tier_eq_size (len : Nat) : tier len = Nat.size len := by
  unfold tier
  split_ifs with hzero
  · rw [hzero, Nat.size_zero]
  · refine le_antisymm ?_ ?_
    · exact Nat.lt_size.mpr (Nat.log2_self_le hzero)
    · exact Nat.size_le.mpr Nat.lt_log2_self

section Loops

variable {tiers : List Nat} {threshold fuel i j : Nat}

/-- The inner loop goes over equal tiers only. -/
theorem tierEnd_same {k : Nat} (hfrom : j ≤ k) (hk : k < tierEnd tiers i fuel j) :
    tiers[k]? = tiers[i]? := by
  induction fuel generalizing j with
  | zero => exact absurd hk (not_lt.mpr hfrom)
  | succ fuel ih =>
      unfold tierEnd at hk
      split_ifs at hk with hgo
      · rcases Nat.eq_or_lt_of_le hfrom with rfl | hlt
        · exact hgo.2
        · exact ih hlt hk
      · exact absurd hk (not_lt.mpr hfrom)

/-- With fuel for the rest of the tiers, the inner loop is left by its own test. -/
theorem tierEnd_stops (hj : j ≤ tiers.length) (hfuel : tiers.length ≤ j + fuel) :
    tierEnd tiers i fuel j = tiers.length ∨
      tiers[tierEnd tiers i fuel j]? ≠ tiers[i]? := by
  induction fuel generalizing j with
  | zero => exact Or.inl (le_antisymm hj hfuel)
  | succ fuel ih =>
      unfold tierEnd
      split_ifs with hgo
      · exact ih hgo.1 (by omega)
      · rcases Nat.eq_or_lt_of_le hj with heq | hlt
        · exact Or.inl heq
        · exact Or.inr fun hsame => hgo ⟨hlt, hsame⟩

/-- From where a block starts, the inner loop finds the block. -/
theorem block_tierEnd (hi : i < tiers.length) (hleft : i = 0 ∨ tiers[i - 1]? ≠ tiers[i]?) :
    Block tiers i (tierEnd tiers i (tiers.length - i) i) where
  pos := lt_tierEnd hi
  within := tierEnd_le tiers i _ (le_of_lt hi)
  same _ hfrom hk := tierEnd_same hfrom hk
  left := hleft
  right := tierEnd_stops (le_of_lt hi) (by omega)

/-- The outer loop stands at `i`: no block goes over `i`, and those before it are short. -/
structure Passed (tiers : List Nat) (threshold i : Nat) : Prop where
  within : i ≤ tiers.length
  starts : i < tiers.length → i = 0 ∨ tiers[i - 1]? ≠ tiers[i]?
  short : ∀ a b, Block tiers a b → a < i → b - a < threshold

theorem Passed.zero (tiers : List Nat) (threshold : Nat) : Passed tiers threshold 0 :=
  ⟨Nat.zero_le _, fun _ => Or.inl rfl, fun _ _ _ hlt => absurd hlt (Nat.not_lt_zero _)⟩

/-- One turn of the outer loop: a short block is passed. -/
theorem Passed.next (h : Passed tiers threshold i) (hb : Block tiers i j)
    (hshort : j - i < threshold) : Passed tiers threshold j where
  within := hb.within
  starts hj := by
    have hpos := hb.pos
    have hlast := hb.same (j - 1) (by omega) (by omega)
    rcases hb.right with hend | hne
    · exact absurd hj (by omega)
    · exact Or.inr fun heq => hne (heq.symm.trans hlast)
  short a b hab hlt := by
    rcases Nat.lt_trichotomy a i with hbefore | rfl | hafter
    · exact h.short a b hab hbefore
    · rwa [hab.end_eq hb]
    · exact absurd (hb.apart hab hafter) (not_le.mpr hlt)

/-- What the outer loop returns is the leftmost block of the length asked for. -/
theorem firstBlock_pickLoop {a b : Nat} (h : Passed tiers threshold i)
    (hpick : pickLoop tiers threshold fuel i = some (a, b)) :
    FirstBlock tiers threshold a b := by
  induction fuel generalizing i with
  | zero => cases hpick
  | succ fuel ih =>
      unfold pickLoop at hpick
      split_ifs at hpick with hi
      have hb := block_tierEnd hi (h.starts hi)
      dsimp only at hpick
      split_ifs at hpick with hlong
      · cases hpick
        refine ⟨hb, hlong, fun i' j' hblock hlong' => ?_⟩
        by_contra hlt
        exact absurd (h.short i' j' hblock (not_le.mp hlt)) (not_lt.mpr hlong')
      · exact ih (h.next hb (not_le.mp hlong)) hpick

/-- The outer loop comes back empty only when every block is short. -/
theorem short_of_pickLoop (h : Passed tiers threshold i) (hfuel : tiers.length < i + fuel)
    (hpick : pickLoop tiers threshold fuel i = none) {a b : Nat} (hab : Block tiers a b) :
    b - a < threshold := by
  induction fuel generalizing i with
  | zero => exact absurd h.within (by omega)
  | succ fuel ih =>
      unfold pickLoop at hpick
      split_ifs at hpick with hi
      · have hb := block_tierEnd hi (h.starts hi)
        dsimp only at hpick
        split_ifs at hpick with hlong
        have hpos := hb.pos
        exact ih (h.next hb (not_le.mp hlong)) (by omega) hpick
      · have hpos := hab.pos
        have hwithin := hab.within
        exact h.short a b hab (by omega)

end Loops

section Selection

variable {sizes : List Nat} {threshold : Nat}

theorem map_tier (sizes : List Nat) : sizes.map tier = sizes.map Nat.size :=
  List.map_congr_left fun len _ => tier_eq_size len

theorem pickRun_eq_some {i j : Nat} (h : pickRun sizes threshold = some (i, j)) :
    FirstBlock (sizes.map Nat.size) threshold i j := by
  unfold pickRun at h
  split_ifs at h
  rw [map_tier] at h
  exact firstBlock_pickLoop (Passed.zero _ _) h

theorem pickRun_eq_none (h : pickRun sizes threshold = none) {i j : Nat}
    (hb : Block (sizes.map Nat.size) i j) : j - i < threshold := by
  unfold pickRun at h
  split_ifs at h with hfew
  · -- too few tables for any run
    have hwithin := hb.within
    rw [List.length_map] at hwithin
    omega
  · rw [map_tier] at h
    exact short_of_pickLoop (Passed.zero _ _) (by rw [List.length_map]; omega) h hb

theorem pickRun_some_iff {i j : Nat} :
    pickRun sizes threshold = some (i, j) ↔
      FirstBlock (sizes.map Nat.size) threshold i j := by
  refine ⟨pickRun_eq_some, fun h => ?_⟩
  cases hpick : pickRun sizes threshold with
  | none => exact absurd h.long (not_le.mpr (pickRun_eq_none hpick h.block))
  | some picked =>
      obtain ⟨rfl, rfl⟩ := (pickRun_eq_some hpick).unique h
      rfl

theorem pickRun_none_iff :
    pickRun sizes threshold = none ↔
      ¬ ∃ i j, Block (sizes.map Nat.size) i j ∧ threshold ≤ j - i := by
  refine ⟨fun h => ?_, fun h => ?_⟩
  · rintro ⟨i, j, hb, hlong⟩
    exact absurd (pickRun_eq_none h hb) (not_lt.mpr hlong)
  · cases hpick : pickRun sizes threshold with
    | none => rfl
    | some picked =>
        have hfirst := pickRun_eq_some (i := picked.1) (j := picked.2) hpick
        exact absurd ⟨_, _, hfirst.block, hfirst.long⟩ h

end Selection

/-- Where the loops of `pick_compaction` stand: before the test of the outer loop, before
the test of the inner loop, or returned. -/
inductive Cursors where
  | outer (i : Nat)
  | inner (i j : Nat)
  | returned (picked : Option (Nat × Nat))
  deriving DecidableEq, Repr

namespace Cursors

/-- One turn of the loops. -/
def step (tiers : List Nat) (threshold : Nat) : Cursors → Cursors
  | outer i => if i < tiers.length then inner i i else returned none
  | inner i j =>
      if j < tiers.length ∧ tiers[j]? = tiers[i]? then inner i (j + 1)
      else if j - i ≥ threshold then returned (some (i, j))
      else outer j
  | returned picked => returned picked

variable {tiers : List Nat} {fuel i j : Nat}

/-- The inner loop runs to the end of the tier, one turn for each table of it. -/
theorem run_inner (threshold i : Nat) (hj : j ≤ tiers.length) (hfuel : tiers.length ≤ j + fuel) :
    (step tiers threshold)^[tierEnd tiers i fuel j - j] (inner i j) =
      inner i (tierEnd tiers i fuel j) := by
  induction fuel generalizing j with
  | zero => simp [tierEnd]
  | succ fuel ih =>
      have hge := le_tierEnd tiers i fuel (j + 1)
      unfold tierEnd
      split_ifs with hgo
      · rw [show tierEnd tiers i fuel (j + 1) - j =
            (tierEnd tiers i fuel (j + 1) - (j + 1)) + 1 by omega,
          Function.iterate_succ_apply, step, if_pos hgo]
        exact ih hgo.1 (by omega)
      · simp

/-- The loops end where the bounded loops do, after at most three turns a table. -/
theorem run (threshold : Nat) (hi : i ≤ tiers.length) (hfuel : tiers.length < i + fuel) :
    ∃ n ≤ 3 * (tiers.length - i) + 1,
      (step tiers threshold)^[n] (outer i) = returned (pickLoop tiers threshold fuel i) := by
  induction fuel generalizing i with
  | zero => exact absurd hi (by omega)
  | succ fuel ih =>
      unfold pickLoop
      split_ifs with hlt
      · have hgt := lt_tierEnd hlt
        have hle := tierEnd_le tiers i (tiers.length - i) hi
        have hstops := tierEnd_stops (i := i) hi (show _ ≤ i + (tiers.length - i) by omega)
        have hin := run_inner threshold i hi
          (show _ ≤ i + (tiers.length - i) by omega)
        dsimp only
        generalize tierEnd tiers i (tiers.length - i) i = stop at hgt hle hstops hin ⊢
        have hleave : ¬ (stop < tiers.length ∧ tiers[stop]? = tiers[i]?) := by
          rintro ⟨hshort, hsame⟩
          rcases hstops with hend | hne
          · omega
          · exact hne hsame
        have hturn : (step tiers threshold)^[1 + (stop - i) + 1] (outer i) =
            step tiers threshold (inner i stop) := by
          rw [Function.iterate_succ_apply', Nat.add_comm 1, Function.iterate_succ_apply, step,
            if_pos hlt, hin]
        rw [step, if_neg hleave] at hturn
        split_ifs with hlong
        · rw [if_pos hlong] at hturn
          exact ⟨_, by omega, hturn⟩
        · rw [if_neg hlong] at hturn
          obtain ⟨n, hn, hrun⟩ := ih hle (by omega)
          refine ⟨n + (1 + (stop - i) + 1), by omega, ?_⟩
          rw [Function.iterate_add_apply, hturn, hrun]
      · exact ⟨1, by omega, by simp [step, hlt]⟩

end Cursors

/-- The early exit on the number of tables returns what the loops would. -/
theorem Cursors.run_pickRun (sizes : List Nat) (threshold : Nat) :
    ∃ n ≤ 3 * sizes.length + 1,
      (Cursors.step (sizes.map tier) threshold)^[n] (.outer 0) =
        .returned (pickRun sizes threshold) := by
  obtain ⟨n, hn, hrun⟩ := Cursors.run threshold (Nat.zero_le (sizes.map tier).length)
    (show _ < 0 + (sizes.length + 1) by rw [List.length_map]; omega)
  refine ⟨n, by simpa using hn, hrun.trans (congrArg _ ?_)⟩
  unfold pickRun
  split_ifs with hfew
  · cases hpick : pickLoop (sizes.map tier) threshold (sizes.length + 1) 0 with
    | none => rfl
    | some picked =>
        have hb := pickLoop_bounds (a := picked.1) (b := picked.2) hpick
        rw [List.length_map] at hb
        omega
  · rfl

section Returned

variable {σ : Type} {s : σ} {w : World} {tables : List SsTable} {sizes : List Nat}

/-- With the sizes the tables have, `pick_compaction` returns the run picked from them. -/
theorem pickCompaction_of_sizes (threshold : Nat)
    (h : (M.collect (fun t : SsTable => Fs.size t.reader.path) tables).result s w =
      .ok sizes) :
    (pickCompaction tables threshold : M σ _).result s w = .ok (pickRun sizes threshold) := by
  obtain ⟨s', w', hr⟩ : ∃ s' w', M.collect (fun t : SsTable => Fs.size t.reader.path) tables s w =
      (.ok sizes, s', w') := ⟨_, _, Prod.ext h rfl⟩
  unfold pickCompaction M.result
  split_ifs with hfew
  · rw [pickRun, if_pos (by rw [length_of_collect hr]; exact hfew)]
    rfl
  · rw [M.bind_ok hr]
    rfl

end Returned

/-- `pick_compaction` returns a range exactly when it is the leftmost block of at least
`threshold` neighbouring tables whose sizes have one bit width, and nothing exactly when
there is no such block; its loops end, after at most three turns for each table. -/
theorem pick_compaction_exact {σ : Type} (tables : List SsTable) (threshold : Nat) (s : σ)
    (w : World) (sizes : List Nat)
    (hsizes : (M.collect (fun t : SsTable => Fs.size t.reader.path) tables).result s w =
      .ok sizes) :
    ∃ picked, (pickCompaction tables threshold : M σ _).result s w = .ok picked ∧
      (∀ i j, picked = some (i, j) ↔ FirstBlock (sizes.map Nat.size) threshold i j) ∧
      (picked = none ↔ ¬ ∃ i j, Block (sizes.map Nat.size) i j ∧ threshold ≤ j - i) ∧
      ∃ n ≤ 3 * sizes.length + 1,
        (Cursors.step (sizes.map tier) threshold)^[n] (.outer 0) = .returned picked :=
  ⟨pickRun sizes threshold, pickCompaction_of_sizes threshold hsizes,
    fun _ _ => pickRun_some_iff, pickRun_none_iff, Cursors.run_pickRun sizes threshold⟩

/-- A file of the given length under each number, from the first on. -/
def filesOf (lengths : List Nat) : Volume Path :=
  (lengths.zipIdx.foldl (fun v l =>
    (v.create (sstPath "db" l.2)).append l.2 (List.replicate l.1 0)) Volume.empty)

/-- Open tables under the numbers. -/
def tablesOf (ids : List Nat) : List SsTable :=
  ids.map fun id => ⟨id, ⟨id, sstPath "db" id, [], ⟨[], 0, 0⟩, false, 0⟩⟩

/-- Of tables of 9, 5, 6, 7 and 20 bytes, a threshold of two takes the three in the middle. -/
theorem pick_compaction_exact_three :
    (pickCompaction (tablesOf [0, 1, 2, 3, 4]) 2 : M Unit _).result ()
        (World.start (filesOf [9, 5, 6, 7, 20])) = .ok (some (1, 4)) ∧
      FirstBlock ([9, 5, 6, 7, 20].map Nat.size) 2 1 4 := by
  obtain ⟨picked, hpick, hsome, -, -⟩ := pick_compaction_exact (tablesOf [0, 1, 2, 3, 4]) 2 ()
    (World.start (filesOf [9, 5, 6, 7, 20])) [9, 5, 6, 7, 20] (by decide +kernel)
  have hout : (pickCompaction (tablesOf [0, 1, 2, 3, 4]) 2 : M Unit _).result ()
      (World.start (filesOf [9, 5, 6, 7, 20])) = .ok (some (1, 4)) := by decide +kernel
  refine ⟨hout, (hsome 1 4).mp ?_⟩
  rw [hout] at hpick
  exact (Except.ok.inj hpick).symm

end LsmKv
