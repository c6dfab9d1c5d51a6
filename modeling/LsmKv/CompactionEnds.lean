import LsmKv.Engine
import LsmKv.Returned
import LsmKv.Stock

/-!
# When the maintenance loops end

`Db::flush` and the compaction thread call `compact_step` until it returns false, and a host
may call `maintain` so.  A step that returns true has replaced a run of tables by one table.
The run has as many tables as the threshold asks for, and with a threshold of one or zero a
run of one table will do: the step then replaces a table by its own merge, and there is
always another such step.

**Results.**
* `turns_end`, `turns_never_true`: when a loop over a step ends, and when it does not.
* `Alone.forever`: a store of one table under such a threshold is merged without end.
* `maintenance_ends_iff`: in a world that does not fail the loops end, with every merge leaving
  fewer tables, exactly when the threshold is two or more or there is nothing to do.
-/

namespace LsmKv

open Foundation

section Turns

variable {σ : Type}

/-- `while step()? {}`, at most `fuel` turns: whether it came to its end. -/
def turns (step : M σ Bool) : Nat → M σ Bool
  | 0 => return false
  | fuel + 1 => do
      if ← step then turns step fuel else return true

/-- The loop comes to its end, or an error ends it. -/
def Ends (step : M σ Bool) (s : σ) (w : World) : Prop := ∃ fuel, (turns step fuel s w).1 ≠ .ok false

/-- The states in which the loop takes its turns. -/
inductive Turning (step : M σ Bool) : σ → World → σ → World → Prop
  | first {s : σ} {w : World} : Turning step s w s w
  | next {s s₁ s' : σ} {w w₁ w' : World} (turn : step s w = (.ok true, s₁, w₁))
      (later : Turning step s₁ w₁ s' w') : Turning step s w s' w'

/-- No call the loop makes fails. -/
def Unfailing (step : M σ Bool) (s : σ) (w : World) : Prop :=
  ∀ s' w', Turning step s w s' w' → ∀ e, (step s' w').1 ≠ .error e

variable {step : M σ Bool}

theorem turns_succ (fuel : Nat) (s : σ) (w : World) :
    turns step (fuel + 1) s w =
      match step s w with
      | (.ok true, s', w') => turns step fuel s' w'
      | (.ok false, s', w') => (.ok true, s', w')
      | (.error e, s', w') => (.error e, s', w') := by
  rw [turns, M.bind_apply]
  rcases step s w with ⟨_ | _ | _, s', w'⟩
  · rfl
  · rfl
  · rfl

/-- A loop whose turns decrease a measure ends. -/
theorem turns_end (Inv : σ → Prop) (μ : σ → Nat)
    (hstep : ∀ s w s' w', Inv s → step s w = (.ok true, s', w') → Inv s' ∧ μ s' < μ s)
    {fuel : Nat} {s : σ} {w : World} (hs : Inv s) (hfuel : μ s < fuel) :
    (turns step fuel s w).1 ≠ .ok false := by
  induction fuel generalizing s w with
  | zero => omega
  | succ fuel ih =>
      rw [turns_succ]
      rcases hrun : step s w with ⟨_ | _ | _, s', w'⟩
      · simp
      · simp
      · obtain ⟨hs', hlt⟩ := hstep s w s' w' hs hrun
        exact ih hs' (by omega)

/-- A loop none of whose turns is the last does not come to its end. -/
theorem turns_never_true (Inv : σ → Prop)
    (hstep : ∀ s w r s' w', Inv s → step s w = (.ok r, s', w') → r = true ∧ Inv s')
    (fuel : Nat) {s : σ} {w : World} (hs : Inv s) : (turns step fuel s w).1 ≠ .ok true := by
  induction fuel generalizing s w with
  | zero => simp [turns]
  | succ fuel ih =>
      rw [turns_succ]
      rcases hrun : step s w with ⟨_ | _ | _, s', w'⟩
      · simp
      · exact absurd (hstep s w false s' w' hs hrun).1 (by simp)
      · exact ih (hstep s w true s' w' hs hrun).2

/-- What every turn keeps holds in all of them. -/
theorem Turning.keeps (Inv : σ → Prop)
    (hstep : ∀ s w s' w', Inv s → step s w = (.ok true, s', w') → Inv s') {s s' : σ}
    {w w' : World} (h : Turning step s w s' w') (hs : Inv s) : Inv s' := by
  induction h with
  | first => exact hs
  | next turn _ ih => exact ih (hstep _ _ _ _ hs turn)

/-- A loop whose first turn is its last takes no other. -/
theorem Turning.eq_first {s s' : σ} {w w' : World} (h : Turning step s w s' w')
    (hlast : ∀ s₁ w₁, step s w ≠ (.ok true, s₁, w₁)) : s' = s ∧ w' = w := by
  cases h with
  | first => exact ⟨rfl, rfl⟩
  | next turn later => exact absurd turn (hlast _ _)

/-- Where no call fails, no error ends the loop. -/
theorem Unfailing.turns_ne_error {s : σ} {w : World} (h : Unfailing step s w) (fuel : Nat)
    (e : Error) : (turns step fuel s w).1 ≠ .error e := by
  induction fuel generalizing s w with
  | zero => simp [turns]
  | succ fuel ih =>
      rw [turns_succ]
      rcases hrun : step s w with ⟨e' | _ | _, s', w'⟩
      · exact absurd (congrArg Prod.fst hrun) (h s w .first e')
      · simp
      · exact ih fun s'' w'' hlater => h s'' w'' (.next hrun hlater)

/-- There a loop that ends comes to its end. -/
theorem Unfailing.comes_to_end {s : σ} {w : World} (h : Unfailing step s w)
    (hends : Ends step s w) : ∃ fuel, (turns step fuel s w).1 = .ok true := by
  obtain ⟨fuel, hne⟩ := hends
  refine ⟨fuel, ?_⟩
  rcases hrun : (turns step fuel s w).1 with e | _ | _
  · exact absurd hrun (h.turns_ne_error fuel e)
  · exact absurd hrun hne
  · rfl

/-- A loop that has come to its end had no call that failed. -/
theorem unfailing_of_turns {fuel : Nat} {s : σ} {w : World}
    (h : (turns step fuel s w).1 = .ok true) : Unfailing step s w := by
  induction fuel generalizing s w with
  | zero => simp [turns] at h
  | succ fuel ih =>
      rw [turns_succ] at h
      rcases hrun : step s w with ⟨e | _ | _, s₁, w₁⟩
      · simp [hrun] at h
      · intro s' w' hturn e
        obtain ⟨rfl, rfl⟩ := hturn.eq_first (by simp [hrun])
        simp [hrun]
      · rw [hrun] at h
        intro s' w' hturn
        cases hturn with
        | first => simp [hrun]
        | next turn later =>
            cases hrun.symm.trans turn
            exact ih h s' w' later

end Turns

section Loops

variable {env : Env} {db db' : DbInner} {w w' : World}

/-- The loop of `Db::flush` is the loop over the compaction step. -/
theorem compactLoop_eq_turns (env : Env) :
    DbInner.compactLoop env = turns (DbInner.compactStep env) := by
  funext fuel
  induction fuel with
  | zero => rfl
  | succ fuel ih => rw [DbInner.compactLoop, turns, ih]

theorem Merges.fewer {k : Nat} (h : Merges k db db') (hthr : 2 ≤ db.opts.compactionThreshold) :
    db'.sstables.length < db.sstables.length := by
  have htables := h.tables
  have henough := h.enough
  omega

/-- The threshold as the options have it makes every merge one of two tables or more. -/
theorem compactStep_fewer (hthr : 2 ≤ db.opts.compactionThreshold)
    (h : DbInner.compactStep env db w = (.ok true, db', w')) :
    db'.sstables.length < db.sstables.length := by
  rcases compactStep_inv h with ⟨hr, _⟩ | ⟨_, k, hk⟩
  · cases hr
  · exact hk.fewer hthr

/-- A threshold of two or more stays so. -/
theorem compactStep_threshold (hthr : 2 ≤ db.opts.compactionThreshold)
    (h : DbInner.compactStep env db w = (.ok true, db', w')) :
    2 ≤ db'.opts.compactionThreshold := by
  rcases compactStep_inv h with ⟨hr, _⟩ | ⟨_, k, hk⟩
  · cases hr
  · rwa [hk.opts]

theorem compactStep_ends (hthr : 2 ≤ db.opts.compactionThreshold) :
    Ends (DbInner.compactStep env) db w := by
  exact ⟨db.sstables.length + 1, turns_end (fun db => 2 ≤ db.opts.compactionThreshold)
    (fun db => db.sstables.length)
    (fun _ _ _ _ hthr h => ⟨compactStep_threshold hthr h, compactStep_fewer hthr h⟩) hthr
    (Nat.lt_succ_self _)⟩

/-- A loop whose first turn does not ask for another one ends. -/
theorem ends_of_first {σ : Type} {step : M σ Bool} {s : σ} {w : World}
    (h : ∀ s' w', step s w ≠ (.ok true, s', w')) : Ends step s w := by
  refine ⟨1, ?_⟩
  rw [turns_succ]
  rcases hrun : step s w with ⟨_ | _ | _, s', w'⟩
  · simp
  · simp
  · exact absurd hrun (h s' w')

theorem compactStep_nil (hnil : db.sstables = []) :
    DbInner.compactStep env db w ≠ (.ok true, db', w') := by
  intro h
  rcases compactStep_inv h with ⟨hr, _⟩ | ⟨_, k, hk⟩
  · cases hr
  · have hinside := hk.inside
    have hsome := hk.some_table
    rw [hnil, List.length_nil] at hinside
    omega

/-- With a threshold of one or zero a step over some tables is never the last one. -/
theorem compactStep_again {r : Bool} (hthr : db.opts.compactionThreshold ≤ 1)
    (hne : db.sstables ≠ []) (h : DbInner.compactStep env db w = (.ok r, db', w')) :
    r = true ∧ db'.opts.compactionThreshold ≤ 1 ∧ db'.sstables ≠ [] ∧ db'.frozen = db.frozen := by
  rcases compactStep_inv h with ⟨_, _, hnil | htwo⟩ | ⟨hr, k, hk⟩
  · exact absurd hnil hne
  · omega
  · refine ⟨hr, by rwa [hk.opts], ?_, hk.frozen⟩
    intro hnil
    have htables := hk.tables
    have hinside := hk.inside
    rw [hnil, List.length_nil] at htables
    omega

/-- Every compaction step of the loop that returns true leaves fewer tables than it found. -/
def Fewer (env : Env) (step : M DbInner Bool) (db : DbInner) (w : World) : Prop :=
  ∀ db₁ w₁ db₂ w₂, Turning step db w db₁ w₁ →
    DbInner.compactStep env db₁ w₁ = (.ok true, db₂, w₂) →
    db₂.sstables.length < db₁.sstables.length

theorem fewer_of_threshold {step : M DbInner Bool}
    (hstep : ∀ db w db' w', 2 ≤ db.opts.compactionThreshold → step db w = (.ok true, db', w') →
      2 ≤ db'.opts.compactionThreshold) (hthr : 2 ≤ db.opts.compactionThreshold) :
    Fewer env step db w :=
  fun _ _ _ _ hturn h =>
    compactStep_fewer (hturn.keeps (fun db => 2 ≤ db.opts.compactionThreshold) hstep hthr) h

/-- A loop that stops in its first turn, with no tables, merges none. -/
theorem fewer_of_first {step : M DbInner Bool} (hlast : ∀ db₁ w₁, step db w ≠ (.ok true, db₁, w₁))
    (hnil : db.sstables = []) : Fewer env step db w := by
  intro db₁ w₁ db₂ w₂ hturn h
  obtain ⟨rfl, rfl⟩ := hturn.eq_first hlast
  exact absurd h (compactStep_nil hnil)

/-- When the compaction loop comes to its end. -/
theorem compactStep_ends_iff (h : Unfailing (DbInner.compactStep env) db w) :
    (∃ fuel, (turns (DbInner.compactStep env) fuel db w).1 = .ok true) ∧
        Fewer env (DbInner.compactStep env) db w ↔
      2 ≤ db.opts.compactionThreshold ∨ db.sstables = [] := by
  constructor
  · rintro ⟨⟨fuel, hends⟩, -⟩
    by_contra hnot
    obtain ⟨hthr, hnil⟩ := not_or.mp hnot
    refine turns_never_true (fun db => db.opts.compactionThreshold ≤ 1 ∧ db.sstables ≠ []) ?_ fuel
      ⟨by omega, hnil⟩ hends
    rintro db w r db' w' ⟨hone, hne⟩ h
    obtain ⟨hr, hone', hne', _⟩ := compactStep_again hone hne h
    exact ⟨hr, hone', hne'⟩
  · rintro (hthr | hnil)
    · exact ⟨h.comes_to_end (compactStep_ends hthr),
        fewer_of_threshold (fun _ _ _ _ => compactStep_threshold) hthr⟩
    · have hlast : ∀ db' w', DbInner.compactStep env db w ≠ (.ok true, db', w') :=
        fun _ _ => compactStep_nil hnil
      exact ⟨h.comes_to_end (ends_of_first hlast), fewer_of_first hlast hnil⟩

/-- No flush is under way.  A flush that failed leaves its MemTable in the frozen slot, but
also the error on the handle. -/
def DbInner.NotFlushing (db : DbInner) : Prop := db.frozen ≠ none → db.failed ≠ none

theorem flushIsDue_eq (hfrozen : db.frozen = none) :
    db.flushIsDue = (!db.active.isEmpty && db.active.isFull) := by
  simp [DbInner.flushIsDue, hfrozen]

theorem Flushes.not_due (h : Flushes db db') : db'.flushIsDue = false := by
  simp [flushIsDue_eq h.frozen, h.active]

theorem Merges.due {k : Nat} (h : Merges k db db') : db'.flushIsDue = db.flushIsDue := by
  simp [DbInner.flushIsDue, h.active, h.frozen]

/-- What is due is not nothing. -/
theorem flushes_of_due (hfrozen : db.frozen = none) (hdue : db.flushIsDue = true)
    (h : DbInner.flushInner env db w = (.ok (), db', w')) : Flushes db db' := by
  rcases flushInner_inv h with ⟨hempty, _⟩ | ⟨_, hflush⟩
  · rw [flushIsDue_eq hfrozen, hempty] at hdue
    cases hdue
  · exact hflush

/-- A handle that carries an error fails the call. -/
theorem maintain_failed (env : Env) (w : World) (hfailed : db.failed ≠ none) :
    ∃ e, (DbInner.maintain env db w).1 = .error e := by
  obtain ⟨e, he⟩ := Option.ne_none_iff_exists'.mp hfailed
  have hhealth := health_error (w := w) he
  refine ⟨.poisoned e.text, ?_⟩
  unfold DbInner.maintain
  rw [M.bind_ok (M.self_apply _ _)]
  split
  · rw [DbInner.flushInner, M.bind_error (M.bind_error hhealth)]
  · rw [DbInner.compactStep, M.bind_error hhealth]

theorem maintain_threshold (hthr : 2 ≤ db.opts.compactionThreshold)
    (h : DbInner.maintain env db w = (.ok true, db', w')) :
    2 ≤ db'.opts.compactionThreshold := by
  rcases maintain_inv h with ⟨_, _, hflush⟩ | ⟨_, hstep⟩
  · rcases flushInner_inv hflush with ⟨_, rfl⟩ | ⟨_, hdone⟩
    · exact hthr
    · rwa [hdone.opts]
  · exact compactStep_threshold hthr hstep

theorem maintain_ends (hthr : 2 ≤ db.opts.compactionThreshold) (hfrozen : db.frozen = none) :
    Ends (DbInner.maintain env) db w := by
  refine ⟨_, turns_end
    (fun db => 2 ≤ db.opts.compactionThreshold ∧ db.frozen = none)
    (fun db => db.sstables.length + if db.flushIsDue then 2 else 0) ?_ ⟨hthr, hfrozen⟩
    (Nat.lt_succ_self _)⟩
  rintro db w db' w' ⟨hthr, hfrozen⟩ h
  rcases maintain_inv h with ⟨hdue, _, hflush⟩ | ⟨hdue, hstep⟩
  · have hdone := flushes_of_due hfrozen hdue hflush
    refine ⟨⟨by rwa [hdone.opts], hdone.frozen⟩, ?_⟩
    simp [hdone.not_due, hdue, hdone.tables]
  · have hfewer := compactStep_fewer hthr hstep
    rcases compactStep_inv hstep with ⟨hr, _⟩ | ⟨_, k, hk⟩
    · cases hr
    · refine ⟨⟨by rwa [hk.opts], hk.frozen.trans hfrozen⟩, ?_⟩
      simpa [hk.due, hdue] using hfewer

/-- With a threshold of one or zero a maintenance step with something to do is never the last
one. -/
theorem maintain_again {r : Bool} (hthr : db.opts.compactionThreshold ≤ 1)
    (hfrozen : db.frozen = none) (hwork : db.sstables ≠ [] ∨ db.flushIsDue = true)
    (h : DbInner.maintain env db w = (.ok r, db', w')) :
    r = true ∧ db'.opts.compactionThreshold ≤ 1 ∧ db'.frozen = none ∧
      (db'.sstables ≠ [] ∨ db'.flushIsDue = true) := by
  rcases maintain_inv h with ⟨hdue, hr, hflush⟩ | ⟨hdue, hstep⟩
  · have hdone := flushes_of_due hfrozen hdue hflush
    refine ⟨hr, by rwa [hdone.opts], hdone.frozen, Or.inl ?_⟩
    have htables := hdone.tables
    exact List.ne_nil_of_length_pos (by omega)
  · have hne : db.sstables ≠ [] := hwork.resolve_right (by rw [hdue]; simp)
    obtain ⟨hr, hone, hne', hkept⟩ := compactStep_again hthr hne hstep
    exact ⟨hr, hone, hkept.trans hfrozen, Or.inl hne'⟩

/-- A loop whose first call fails has ended. -/
theorem ends_of_failing {σ : Type} {step : M σ Bool} {s : σ} {w : World} {e : Error}
    (h : (step s w).1 = .error e) : Ends step s w :=
  ends_of_first fun s' w' hrun => by simp [hrun] at h

/-- When the maintenance loop comes to its end. -/
theorem maintain_ends_iff (hfrozen : db.frozen = none)
    (h : Unfailing (DbInner.maintain env) db w) :
    (∃ fuel, (turns (DbInner.maintain env) fuel db w).1 = .ok true) ∧
        Fewer env (DbInner.maintain env) db w ↔
      2 ≤ db.opts.compactionThreshold ∨ db.sstables = [] ∧ db.flushIsDue = false := by
  constructor
  · rintro ⟨⟨fuel, hends⟩, -⟩
    by_contra hnot
    obtain ⟨hthr, hidle⟩ := not_or.mp hnot
    have hwork : db.sstables ≠ [] ∨ db.flushIsDue = true := by
      rcases not_and_or.mp hidle with hne | hdue
      · exact Or.inl hne
      · exact Or.inr (by simpa using hdue)
    refine turns_never_true (fun db => db.opts.compactionThreshold ≤ 1 ∧ db.frozen = none ∧
      (db.sstables ≠ [] ∨ db.flushIsDue = true)) ?_ fuel ⟨by omega, hfrozen, hwork⟩ hends
    rintro db w r db' w' ⟨hone, hnone, hwork⟩ h
    exact maintain_again hone hnone hwork h
  · rintro (hthr | ⟨hnil, hdue⟩)
    · exact ⟨h.comes_to_end (maintain_ends hthr hfrozen),
        fewer_of_threshold (fun _ _ _ _ => maintain_threshold) hthr⟩
    · have hlast : ∀ db' w', DbInner.maintain env db w ≠ (.ok true, db', w') := by
        intro db' w' h
        rcases maintain_inv h with ⟨hdue', _⟩ | ⟨_, hstep⟩
        · rw [hdue] at hdue'
          cases hdue'
        · exact compactStep_nil hnil hstep
      exact ⟨h.comes_to_end (ends_of_first hlast), fewer_of_first hlast hnil⟩

/-- With a threshold of two or more the compaction loop and the maintenance loop end, in every
world, and every compaction step they make that returns true leaves fewer tables than it found.
In a world in which no call of theirs fails, they come to their end in this way exactly when
the threshold is two or more or there is nothing to do. -/
theorem maintenance_ends_iff (env : Env) (db : DbInner) (w : World) :
    (2 ≤ db.opts.compactionThreshold →
      (Ends (DbInner.compactStep env) db w ∧ Fewer env (DbInner.compactStep env) db w) ∧
        (db.NotFlushing →
          Ends (DbInner.maintain env) db w ∧ Fewer env (DbInner.maintain env) db w)) ∧
      (Unfailing (DbInner.compactStep env) db w →
        ((∃ fuel, (DbInner.compactLoop env fuel db w).1 = .ok true) ∧
            Fewer env (DbInner.compactStep env) db w ↔
          2 ≤ db.opts.compactionThreshold ∨ db.sstables = [])) ∧
      (db.NotFlushing → Unfailing (DbInner.maintain env) db w →
        ((∃ fuel, (turns (DbInner.maintain env) fuel db w).1 = .ok true) ∧
            Fewer env (DbInner.maintain env) db w ↔
          2 ≤ db.opts.compactionThreshold ∨ db.sstables = [] ∧ db.flushIsDue = false)) := by
  rw [compactLoop_eq_turns]
  refine ⟨fun hthr => ⟨⟨compactStep_ends hthr, ?_⟩, fun hfree => ⟨?_, ?_⟩⟩, compactStep_ends_iff,
    fun hfree h => ?_⟩
  · exact fewer_of_threshold (fun _ _ _ _ => compactStep_threshold) hthr
  · by_cases hfrozen : db.frozen = none
    · exact maintain_ends hthr hfrozen
    · obtain ⟨e, he⟩ := maintain_failed env w (hfree hfrozen)
      exact ends_of_failing he
  · exact fewer_of_threshold (fun _ _ _ _ => maintain_threshold) hthr
  · refine maintain_ends_iff ?_ h
    by_contra hfrozen
    obtain ⟨e, he⟩ := maintain_failed env w (hfree hfrozen)
    exact h db w .first e he

/-- A quiet store that holds one table, and a merge of it alone changes nothing. -/
structure Alone (env : Env) (records : List Record) (db : DbInner) (w : World) : Prop where
  quiet : w.Quiet
  layout : ∃ held id, Layout env w.vol db held ∧ held.tables = [(id, records)]
  healthy : db.failed = none
  idle : db.flushIsDue = false
  threshold : db.opts.compactionThreshold ≤ 1
  merge : compactRecords [records] true db.minSnapshotSeq = records

variable {records : List Record}

theorem Alone.length (h : Alone env records db w) : db.sstables.length = 1 := by
  obtain ⟨held, id, hlay, htables⟩ := h.layout
  rw [hlay.opened.length_eq, htables, List.length_singleton]

/-- The table is merged with itself, and nothing is different. -/
theorem Alone.compactStep (h : Alone env records db w) :
    ∃ db' w', DbInner.compactStep env db w = (.ok true, db', w') ∧ Alone env records db' w' := by
  obtain ⟨held, id, hlay, htables⟩ := h.layout
  have hthr := h.threshold
  obtain ⟨⟨a, b⟩, hpick⟩ : ∃ ab,
      pickHeld env held.tables db.opts.compactionThreshold = some ab := by
    refine Option.ne_none_iff_exists'.mp ?_
    rw [pickHeld, htables, if_neg (by rw [List.length_singleton]; omega)]
    exact pickRun_ne_none (by simp) hthr
  obtain ⟨hab, hb, -⟩ := pickHeld_bounds hpick
  rw [htables, List.length_singleton] at hb
  have hat : RunAt held [] [] (id, records) [] := ⟨by simpa using htables, hlay.ids⟩
  have hout : db.mergeOut [] [] (id, records) = records := h.merge
  have hfits : TableFits env records := hlay.fit.fits (id, records) (by rw [htables]; simp)
  obtain ⟨g, j, hman⟩ := hlay.manifest
  obtain ⟨w', sstables, hrun, hlay', -, hgrew⟩ := compactStepImpl_quiet h.quiet hlay hpick hat
    (by rw [List.length_nil]; omega) (by rw [List.length_nil]; omega) (by rwa [hout]) hman
  refine ⟨_, w', compactStep_ok h.healthy hrun, hgrew.quiet, ⟨_, id, hlay', ?_⟩, h.healthy,
    h.idle, h.threshold, h.merge⟩
  simp [Held.compacted, hout]

theorem maintain_idle (h : db.flushIsDue = false) :
    DbInner.maintain env db w = DbInner.compactStep env db w := by
  unfold DbInner.maintain
  rw [M.bind_ok (M.self_apply _ _), if_neg (by rw [h]; simp)]

/-- Neither loop comes to an end, and no error ends it. -/
theorem Alone.forever (h : Alone env records db w) (fuel : Nat) :
    (turns (DbInner.compactStep env) fuel db w).1 = .ok false ∧
      (turns (DbInner.maintain env) fuel db w).1 = .ok false := by
  induction fuel generalizing db w with
  | zero => exact ⟨rfl, rfl⟩
  | succ fuel ih =>
      obtain ⟨db', w', hrun, hnext⟩ := h.compactStep
      rw [turns_succ, turns_succ, maintain_idle h.idle, hrun]
      exact ih hnext

end Loops

/-- Two writes, each flushed into a table of its own. -/
def flushedTwice (env : Env) (opts : Options) : Option (DbInner × World) :=
  match (assemble env "db" opts : M Unit DbInner) () (World.start Volume.empty) with
  | (.ok db, _, w) =>
      match (do
        DbInner.writeBatch env [([1], some [2])]
        DbInner.flushInner env
        DbInner.writeBatch env [([1], some [3])]
        DbInner.flushInner env : M DbInner Unit) db w with
      | (.ok _, db', w') => some (db', w')
      | _ => none
  | _ => none

/-- With a threshold of two, two tables are merged into one and the loops come to their end. -/
theorem maintenance_ends_iff_merged :
    ∃ db w, flushedTwice Stock.env { Options.default with compactionThreshold := 2 } =
        some (db, w) ∧
      (db.sstables.length = 2 ∧ db.NotFlushing ∧
        Unfailing (DbInner.compactStep Stock.env) db w ∧
        Unfailing (DbInner.maintain Stock.env) db w) ∧
      ((∃ fuel, (DbInner.compactLoop Stock.env fuel db w).1 = .ok true) ∧
        Fewer Stock.env (DbInner.compactStep Stock.env) db w) ∧
      (∃ fuel, (turns (DbInner.maintain Stock.env) fuel db w).1 = .ok true) ∧
        Fewer Stock.env (DbInner.maintain Stock.env) db w := by
  have hrun : (flushedTwice Stock.env { Options.default with compactionThreshold := 2 }).any
      (fun x => decide (x.1.sstables.length = 2 ∧ x.1.opts.compactionThreshold = 2) &&
        x.1.frozen.isNone &&
        decide ((turns (DbInner.compactStep Stock.env) 2 x.1 x.2).1.toOption = some true ∧
          (turns (DbInner.maintain Stock.env) 2 x.1 x.2).1.toOption = some true)) = true := by
    decide +kernel
  obtain ⟨⟨db, w⟩, hopen, htest⟩ := Option.any_eq_true _ _ |>.mp hrun
  obtain ⟨hshape, hends⟩ := Bool.and_eq_true_iff.mp htest
  obtain ⟨hshape, hfrozen⟩ := Bool.and_eq_true_iff.mp hshape
  obtain ⟨hlen, hthr⟩ := of_decide_eq_true hshape
  obtain ⟨hcompact, hmaintain⟩ := of_decide_eq_true hends
  have hfree : db.NotFlushing := fun h => absurd (Option.isNone_iff_eq_none.mp hfrozen) h
  have hok : ∀ {r : Except Error Bool}, r.toOption = some true → r = .ok true := by
    rintro (e | b) h
    · cases h
    · exact congrArg _ (Option.some.inj h)
  have hquiet := unfailing_of_turns (hok hcompact)
  have hquiet' := unfailing_of_turns (hok hmaintain)
  obtain ⟨-, hloop, hmaintains⟩ := maintenance_ends_iff Stock.env db w
  have htwo : 2 ≤ db.opts.compactionThreshold := hthr.ge
  exact ⟨db, w, hopen, ⟨hlen, hfree, hquiet, hquiet'⟩, (hloop hquiet).mpr (Or.inl htwo),
    (hmaintains hfree hquiet').mpr (Or.inl htwo)⟩

/-- With a threshold of one, a put and a flush are enough: the table is merged with itself for
ever, by either loop. -/
theorem one_table_merged_forever :
    ∃ db w db₁ w₁ db₂ w₂,
      (assemble Stock.env "db" { Options.default with compactionThreshold := 1 } :
          M Unit DbInner) () (World.start Volume.empty) = (.ok db, (), w) ∧
        DbInner.writeBatch Stock.env [([1], some [2])] db w = (.ok (), db₁, w₁) ∧
        DbInner.flushInner Stock.env db₁ w₁ = (.ok (), db₂, w₂) ∧
        (∃ db' w', DbInner.compactStep Stock.env db₂ w₂ = (.ok true, db', w') ∧
          db'.sstables.length = db₂.sstables.length) ∧
        ∀ fuel, (DbInner.compactLoop Stock.env fuel db₂ w₂).1 = .ok false ∧
          (turns (DbInner.maintain Stock.env) fuel db₂ w₂).1 = .ok false := by
  have hfresh : FreshDir "db" Volume.empty := ⟨Volume.sound_empty, fun _ _ => rfl⟩
  obtain ⟨db, w, held, hrun, hengine, -, hopts⟩ :=
    engine_fresh Stock.env { Options.default with compactionThreshold := 1 }
      (World.quiet_start Volume.empty) (by decide) hfresh
  -- the fields of the fresh handle that the run below looks at
  obtain ⟨hseq, hid, htables, hrecords, hsnap⟩ :
      db.nextSeq = 0 ∧ db.nextSstId = 0 ∧ db.sstables.length = 0 ∧
        (db.written [([1], some [2])]).active.iter = [Record.put [1] [2] 0] ∧
        db.minSnapshotSeq = u64Max := by
    have hfields := congrArg (fun r => r.1.toOption.map fun db =>
      (db.nextSeq, db.nextSstId, db.sstables.length,
        (db.written [([1], some [2])]).active.iter, db.minSnapshotSeq)) hrun
    have hvalues := Option.some.inj (hfields.symm.trans
      (show _ = some (0, 0, 0, [Record.put [1] [2] 0], u64Max) by decide +kernel))
    simpa using hvalues
  obtain ⟨w₁, hwrite, hstanding, -⟩ := hengine.standing.writeBatch
    (List.cons_ne_nil ([1], some [2]) []) (Or.inr rfl) (by rw [hseq]; decide)
  have hfull : (db.written [([1], some [2])]).active.isEmpty = false := by
    rw [Bool.eq_false_iff, ne_eq, MemTable.isEmpty_iff, hrecords]
    simp
  have hready : FlushFits Stock.env (db.written [([1], some [2])]) := by
    refine ⟨fun _ => ?_, ?_⟩
    · rw [hrecords]
      decide
    · show db.nextSstId + 1 < 2 ^ 64
      rw [hid]
      decide
  obtain ⟨w₂, table, wal, hflush, hlay, hgrew⟩ := flushImpl_quiet hstanding.quiet hstanding.layout
    (hstanding.flushReady hready hfull) hfull
  have hnone : held.tables = [] := by
    rw [← List.length_eq_zero_iff, ← hengine.standing.layout.opened.length_eq, htables]
  have halone : Alone Stock.env [Record.put [1] [2] 0]
      ((db.written [([1], some [2])]).flushed table wal) w₂ := by
    refine ⟨hgrew.quiet, ⟨_, db.nextSstId, hlay, ?_⟩, hengine.standing.healthy, ?_, ?_, ?_⟩
    · rw [Held.flushed, hrecords]
      show held.tables ++ _ = _
      rw [hnone]
      rfl
    · rfl
    · show db.opts.compactionThreshold ≤ 1
      rw [hopts]
    · show compactRecords _ true db.minSnapshotSeq = _
      rw [hsnap]
      decide
  obtain ⟨db', w', hstep, hnext⟩ := halone.compactStep
  refine ⟨db, w, _, w₁, _, w₂, hrun, hwrite, flushInner_ok hstanding.healthy hflush,
    ⟨db', w', hstep, by rw [hnext.length, halone.length]⟩, fun fuel => ?_⟩
  rw [compactLoop_eq_turns]
  exact halone.forever fuel

end LsmKv
