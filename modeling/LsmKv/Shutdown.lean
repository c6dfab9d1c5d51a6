import LsmKv.PendingWork

/-!
# A drop comes to an end

`Workers::drop` joins the flush thread and then the compaction thread.  Both may have work in
their channels, and any of it may fail.  With a compaction threshold of two or more every turn of
a background thread uses something up, and there is always a turn to take until both threads are
joined.

**Results.**
* `finishCompaction_tables`, `Fails.tables`: what a compaction does to the tables of a handle, in
  any world and whether it fails or not.
* `Workers.left`: a bound on the turns that are left.
* `drop_returns`: `Workers::drop` returns after at most that many turns.
-/

namespace LsmKv

open Foundation Volume

section Handle

variable {env : Env} {s s' : System} {l : Label} {e : Error} {db : DbInner}

/-- A first part that leaves the object as it is fails, or the rest goes on from there. -/
theorem Keeps.bind_cases {σ α β : Type} {m : M σ α} (hm : Keeps m) (f : α → M σ β) (a : σ)
    (w : World) : (∃ e w', (m >>= f) a w = (.error e, a, w')) ∨
      ∃ b w', (m >>= f) a w = f b a w' := by
  have hkept := hm a w
  rcases hrun : m a w with ⟨e | b, a', w'⟩
  · rw [hrun] at hkept
    cases hkept
    exact Or.inl ⟨e, w', M.bind_error hrun⟩
  · rw [hrun] at hkept
    cases hkept
    exact Or.inr ⟨b, w', M.bind_ok hrun⟩

/-- What the end of a compaction does to the tables: it replaces its run by one, or it fails and
there are no more than before. -/
theorem finishCompaction_tables {db db' : DbInner} {w w' : World} {r : Except Error Unit}
    (dir : String) (bloomEnabled : Bool) {run : List SsTable} (hrun : 0 < run.length)
    (maxId : Nat)
    (h : DbInner.finishCompaction env dir bloomEnabled run maxId db w = (r, db', w')) :
    db'.opts = db.opts ∧ db'.sstables.length ≤ db.sstables.length ∧
      (r = .ok () → db'.sstables.length + run.length = db.sstables.length + 1) := by
  have hsettle : Keeps (DbInner.settleTable dir bloomEnabled maxId : M DbInner SsTable) :=
    (Keeps.syncDir _).bind fun _ => Keeps.openSsTable _ _ _
  unfold DbInner.finishCompaction at h
  rcases hsettle.bind_cases _ db w with ⟨e, w₁, heq⟩ | ⟨table, w₁, heq⟩
  · cases heq.symm.trans h
    exact ⟨rfl, le_rfl, nofun⟩
  replace h := heq.symm.trans h
  dsimp only at h
  -- the manifest is written
  rcases hman : DbInner.onManifest (Manifest.appendBatch env
      (((run.take (run.length - 1)).map SsTable.id).map .deleteTable)) db w₁ with ⟨_ | _, db₁, w₂⟩
  · have hsetup : db₁.setup = db.setup := Fixes.of_run DbInner.setup (fun _ _ => rfl) hman
    rw [M.bind_error hman] at h
    cases h
    exact ⟨congrArg Prod.snd hsetup, le_of_eq (congrArg (List.length ∘ Prod.fst) hsetup), nofun⟩
  rw [M.bind_ok hman, M.bind_ok (M.self_apply _ _)] at h
  have hsetup : db₁.setup = db.setup := Fixes.of_run DbInner.setup (fun _ _ => rfl) hman
  have htables : db₁.sstables = db.sstables := congrArg Prod.fst hsetup
  have hopts : db₁.opts = db.opts := congrArg Prod.snd hsetup
  rw [← htables, ← hopts]
  cases hpos : db₁.sstables.findIdx? (fun t => decide (t.id = maxId)) with
  | none =>
      simp only [hpos] at h
      cases h
      exact ⟨rfl, le_rfl, nofun⟩
  | some endPos =>
      simp only [hpos] at h
      have hlt := (List.findIdx?_eq_some_iff_getElem.mp hpos).1
      split at h
      · cases h
        exact ⟨rfl, le_rfl, nofun⟩
      · next hinside =>
          rw [M.bind_ok (M.update_apply _ _ _)] at h
          have hrest : Keeps (do
              M.each (fun id => Fs.remove (sstPath db₁.dir id))
                ((run.take (run.length - 1)).map SsTable.id)
              Fs.syncDir db₁.dir : M DbInner Unit) :=
            (Fixes.each (fun _ => Keeps.remove _) _).bind fun _ => Keeps.syncDir _
          have hkept := Fixes.of_run DbInner.setup (fixes_of_keeps DbInner.setup hrest) h
          have htables' := congrArg (List.length ∘ Prod.fst) hkept
          simp only [DbInner.setup, Function.comp_apply, List.length_append, List.length_take,
            List.length_drop, List.length_singleton] at htables'
          exact ⟨congrArg Prod.snd hkept, by omega, fun _ => by omega⟩

/-- A run that is chosen is as long as the threshold says. -/
theorem chooseRun_enough {tables : List SsTable} {c : DbInner.Choice} {db db' : DbInner}
    {w w' : World} (h : DbInner.chooseRun tables db w = (.ok (some c), db', w')) :
    db.opts.compactionThreshold ≤ c.run.length := by
  unfold DbInner.chooseRun at h
  rw [M.bind_ok (M.self_apply _ _)] at h
  obtain ⟨picked, w₁, hpick, h⟩ := (Keeps.pickCompaction _ _).ok_of_bind h
  obtain ⟨sizes, hlen, rfl⟩ := pickCompaction_inv hpick
  cases hrun : pickRun sizes db.opts.compactionThreshold with
  | none =>
      rw [hrun] at h
      cases h
  | some ab =>
      obtain ⟨a, b⟩ := ab
      obtain ⟨hab, hb, hthr⟩ := pickRun_bounds hrun
      rw [hrun] at h
      dsimp only at h
      have hlen' : ((tables.take b).drop a).length = b - a := by
        rw [List.length_drop, List.length_take]
        omega
      obtain ⟨first, hfirst⟩ := exists_head? (l := (tables.take b).drop a) (by omega)
      obtain ⟨last, hlast⟩ := exists_getLast? (l := (tables.take b).drop a) (by omega)
      obtain ⟨oldest, holdest⟩ := exists_head? (l := tables) (by omega)
      rw [hfirst, hlast, holdest] at h
      cases h
      rw [hlen']
      exact hthr

/-- The run of the compaction under way is as long as the threshold says. -/
def System.Enough (s : System) : Prop :=
  ∀ c, s.compactor.choice = some c → s.db.opts.compactionThreshold ≤ c.run.length

theorem Step.enough (h : Step env l s s') (hopens : l.opens = false) (hs : s.Enough) :
    s'.Enough := by
  have hopts := h.opts_eq hopens
  cases h with
  | choose stage run =>
      intro c hc
      cases hc
      rw [hopts]
      exact chooseRun_enough run
  | list | abandon | finish => exact nofun
  | reopen opts => cases hopens
  | bound stage run | merge stage run | name stage free run =>
      intro c hc
      rw [hopts]
      exact hs c (by rw [stage]; exact hc)
  | _ =>
      intro c hc
      rw [hopts]
      exact hs c hc

theorem Fails.enough (h : Fails env e l s db) (w : World) (hs : s.Enough) :
    (s.gaveUp l db w).Enough := by
  intro c hc
  cases hflush : l.inFlush with
  | true =>
      have hsetup := h.setup_eq (by rintro rfl; cases hflush)
      rw [(h.flush_stages hflush w).2.2] at hc
      rw [System.gaveUp_db, show db.opts = s.db.opts from congrArg Prod.snd hsetup]
      exact hs c hc
  | false =>
      rw [(h.merge_stages hflush w).2.1] at hc
      cases hc

end Handle

section Runs

variable {env : Env} {dir : String} {ok : Label → System → Prop} {x y : Workers}

theorem Workers.Turn.enough (h : Workers.Turn env ok x y) (hx : x.sys.Enough) :
    y.sys.Enough := by
  cases h with
  | freeze _ _ step | clear _ _ step | list _ _ step | abandon _ _ step | finish _ _ step =>
      exact step.enough rfl hx
  | flush own inner fits step => exact step.enough (Label.opens_of_inFlush inner) hx
  | compact own inner fits step => exact step.enough (Label.opens_of_inCompaction inner) hx
  | failFlush own inner fails | failCompaction own inner fails => exact fails.enough _ hx
  | _ => exact hx

theorem Workers.Call.enough (h : Workers.Call env ok x y) (hx : x.sys.Enough) :
    y.sys.Enough := by
  cases h with
  | go running inner fits step => exact step.enough (Label.opens_of_inCall inner) hx
  | insert _ _ step | freeze _ _ step | clear _ _ _ step | list _ _ _ step | listOnce _ _ step
  | abandon _ _ _ step | finish _ _ _ step | finishOnce _ _ _ step | dropSnapshot _ step =>
      exact step.enough rfl hx
  | refuse running refuses =>
      cases refuses with
      | mk stage run =>
          intro c hc
          rw [show _ = x.sys.db.opts from Fixes.of_run DbInner.opts (fun _ _ => rfl) run]
          exact hx c hc
  | flush running own inner fits step => exact step.enough (Label.opens_of_inFlush inner) hx
  | compact running own inner fits step =>
      exact step.enough (Label.opens_of_inCompaction inner) hx
  | failFlush running own inner fails | failCompaction running own inner fails =>
      exact fails.enough _ hx
  | _ => exact hx

theorem Workers.Served.enough (h : Workers.Served env ok x) : x.sys.Enough := by
  obtain ⟨s, hidle, _, hrun⟩ := h
  induction hrun with
  | refl =>
      intro c hc
      rw [show (Workers.started s).sys.compactor = .free from hidle.compactor] at hc
      cases hc
  | tail _ hlast ih =>
      rcases hlast with hturn | hcall
      · exact hturn.enough ih
      · exact hcall.enough ih

end Runs

/-- What a flush under way has left, the step that may merge its table included. -/
def Flusher.worth (f : Flusher) : Nat := f.left + if f.unpublished then 10 else 0

/-- What is left of the turns of the flush thread. -/
def FlushThread.left : FlushThread → Nat
  | .waiting => 1
  | .called => 29
  | .flushing => 11
  | .announcing => 11
  | .failing _ => 1
  | .stopped => 0

/-- What is left of the turns of the compaction thread, but for the tables it may merge. -/
def CompactThread.left : CompactThread → Nat
  | .waiting => 1
  | .looping => 9
  | .called => 8
  | .stepping => 2
  | .failing _ => 2
  | .stopped => 0

/-- The joins that are left. -/
def Dropping.left : Dropping → Nat
  | .running => 3
  | .flushTold => 2
  | .compactTold => 1
  | .joined => 0

/-- A bound on the turns that are left: a table is worth the compaction step that may merge it,
a flush the table it will publish, and a message the look it causes. -/
def Workers.left (x : Workers) : Nat :=
  29 * x.tasks.count .flush + x.flushThread.left + x.sys.flusher.worth +
    9 * x.sys.db.sstables.length + 9 * x.msgs.count .run + x.compactThread.left +
    x.sys.compactor.left + x.dropping.left

section Ending

variable {env : Env} {dir : String} {ok : Label → System → Prop} {x y : Workers}

theorem Fails.tables {l : Label} {e : Error} {s : System} {db : DbInner} (h : Fails env e l s db)
    (henough : s.Enough) (hthr : 2 ≤ s.db.opts.compactionThreshold) :
    db.opts = s.db.opts ∧ db.sstables.length ≤ s.db.sstables.length := by
  by_cases hfinish : l = .finish
  · subst hfinish
    cases h with
    | finish stage run =>
        have hrun := henough _ (by rw [stage]; rfl)
        obtain ⟨hopts, htables, _⟩ := finishCompaction_tables _ _ (by omega) _ run
        exact ⟨hopts, htables⟩
  · have hsetup := h.setup_eq hfinish
    exact ⟨congrArg Prod.snd hsetup, le_of_eq (congrArg (List.length ∘ Prod.fst) hsetup)⟩

/-- A section of a flush uses up some of that, the table it publishes included. -/
theorem Step.flush_worth {l : Label} {s s' : System} (h : Step env l s s')
    (hl : l.inFlush = true) :
    s'.flusher.worth + 9 * s'.db.sstables.length < s.flusher.worth + 9 * s.db.sstables.length ∧
      s'.db.opts = s.db.opts := by
  have hopens := Label.opens_of_inFlush hl
  refine ⟨?_, h.opts_eq hopens⟩
  have htables : l ≠ .publish → s'.db.sstables = s.db.sstables := fun hpublish =>
    congrArg Prod.fst (h.setup_eq hpublish (by rintro rfl; cases hl) hopens)
  cases h with
  | publish stage run =>
      cases run
      simp only [stage, Flusher.worth, Flusher.left, Flusher.unpublished, List.length_append,
        List.length_singleton]
      simp
      omega
  | write stage | place stage | count stage | record stage | relog stage =>
      rw [htables (by simp)]
      simp [stage, Flusher.worth, Flusher.left, Flusher.unpublished]
  | _ => cases hl

/-- A section of a compaction under way uses up one. -/
theorem Step.compaction_left {l : Label} {s s' : System} (h : Step env l s s')
    (hl : l.inCompaction = true) :
    s'.compactor.left < s.compactor.left ∧ s'.db.setup = s.db.setup := by
  refine ⟨?_, h.setup_eq (by rintro rfl; cases hl) (by rintro rfl; cases hl)
    (Label.opens_of_inCompaction hl)⟩
  cases h with
  | choose stage | bound stage | merge stage | name stage => simp [stage, Compactor.left]
  | _ => cases hl

theorem latched_sstables (s : System) (e : Error) :
    (s.latched e).db.sstables = s.db.sstables := rfl

theorem latched_flusher (s : System) (e : Error) : (s.latched e).flusher = s.flusher := rfl

theorem latched_compactor (s : System) (e : Error) : (s.latched e).compactor = s.compactor := rfl

/-- Every turn uses something up. -/
theorem Workers.Turn.left_lt (h : Workers.Turn env ok x y) (henough : x.sys.Enough)
    (hthr : 2 ≤ x.sys.db.opts.compactionThreshold) :
    y.left < x.left ∧ y.sys.db.opts = x.sys.db.opts := by
  cases h with
  | takeFlush waiting queue healthy =>
      refine ⟨?_, rfl⟩
      simp only [Workers.left, waiting, queue, FlushThread.left, List.count_cons_self]
      omega
  | refuseFlush waiting queue poisoned =>
      refine ⟨?_, rfl⟩
      simp only [Workers.left, waiting, queue, FlushThread.left, List.count_cons_self]
      omega
  | stopFlush waiting queue =>
      refine ⟨?_, rfl⟩
      simp only [Workers.left, waiting, queue, FlushThread.left,
        List.count_cons_of_ne (show Task.shutdown ≠ .flush by simp)]
      omega
  | freeze called fits step =>
      have hsetup := step.setup_eq (by simp) (by simp) rfl
      cases step with
      | freeze free run =>
          have htables := congrArg (List.length ∘ Prod.fst) hsetup
          simp only [DbInner.setup, Function.comp_apply] at htables
          refine ⟨?_, congrArg Prod.snd hsetup⟩
          simp only [Workers.left, called, FlushThread.left, Flusher.worth, Flusher.left,
            Flusher.unpublished, free.1, htables]
          simp
  | pass called free run =>
      refine ⟨?_, rfl⟩
      simp only [Workers.left, called, FlushThread.left]
      omega
  | flush own inner fits step =>
      obtain ⟨hworth, hopts⟩ := step.flush_worth inner
      obtain ⟨_, _, _, hcompactor, _⟩ := step.inFlush_stages inner
      refine ⟨?_, hopts⟩
      simp only [Workers.left, hcompactor]
      omega
  | clear own fits step =>
      cases step with
      | clear stage run =>
          cases run
          refine ⟨?_, rfl⟩
          simp [Workers.left, own, stage, FlushThread.left, Flusher.worth, Flusher.left,
            Flusher.unpublished]
  | announce done =>
      refine ⟨?_, rfl⟩
      simp only [Workers.left, done, FlushThread.left, List.count_append, List.count_singleton_self]
      omega
  | @failFlush l e db w own inner fails =>
      obtain ⟨hopts, htables⟩ := fails.tables henough hthr
      obtain ⟨hin, hfree, hcompactor⟩ := fails.flush_stages inner w
      refine ⟨?_, by rw [System.gaveUp_db]; exact hopts⟩
      simp only [Workers.left, own, FlushThread.left, Flusher.worth, Flusher.left,
        Flusher.unpublished, hfree, hcompactor, System.gaveUp_db]
      simp
      omega
  | latchFlush failing =>
      refine ⟨?_, rfl⟩
      simp only [Workers.left, failing, FlushThread.left, latched_sstables, latched_flusher,
        latched_compactor]
      omega
  | takeRun waiting queue =>
      refine ⟨?_, rfl⟩
      simp only [Workers.left, waiting, queue, CompactThread.left, List.count_cons_self]
      omega
  | stopCompact waiting queue =>
      refine ⟨?_, rfl⟩
      simp only [Workers.left, waiting, queue, CompactThread.left,
        List.count_cons_of_ne (show CompactMsg.shutdown ≠ .run by simp)]
      omega
  | enter looping healthy =>
      refine ⟨?_, rfl⟩
      simp only [Workers.left, looping, CompactThread.left]
      omega
  | refuseStep looping poisoned =>
      refine ⟨?_, rfl⟩
      simp only [Workers.left, looping, CompactThread.left]
      omega
  | list called fits step =>
      cases step with
      | list free run =>
          cases run
          refine ⟨?_, rfl⟩
          simp only [Workers.left, called, free, CompactThread.left, Compactor.left]
          omega
  | compact own inner fits step =>
      obtain ⟨hleft, hsetup⟩ := step.compaction_left inner
      obtain ⟨_, _, _, hflusher, _⟩ := step.inCompaction_stages inner
      have htables := congrArg (List.length ∘ Prod.fst) hsetup
      simp only [DbInner.setup, Function.comp_apply] at htables
      refine ⟨?_, congrArg Prod.snd hsetup⟩
      simp only [Workers.left, hflusher, htables]
      omega
  | abandon own fits step =>
      have hsetup := step.setup_eq (by simp) (by simp) rfl
      have htables := congrArg (List.length ∘ Prod.fst) hsetup
      simp only [DbInner.setup, Function.comp_apply] at htables
      refine ⟨?_, congrArg Prod.snd hsetup⟩
      cases step with
      | abandon stage run =>
          simp only [Workers.left, own, stage, CompactThread.left, Compactor.left, htables]
          omega
  | finish own fits step =>
      cases step with
      | finish stage run =>
          have hrun := henough _ (by rw [stage]; rfl)
          obtain ⟨hopts, _, htables⟩ := finishCompaction_tables _ _ (by omega) _ run
          have hmerged := htables rfl
          refine ⟨?_, hopts⟩
          simp only [Workers.left, own, stage, CompactThread.left, Compactor.left]
          omega
  | @failCompaction l e db w own inner fails =>
      obtain ⟨hopts, htables⟩ := fails.tables henough hthr
      obtain ⟨hin, hfree, hflusher⟩ := fails.merge_stages inner w
      refine ⟨?_, by rw [System.gaveUp_db]; exact hopts⟩
      have hpos : 0 < x.sys.compactor.left := by
        cases hc : x.sys.compactor with
        | free => exact absurd hc hin
        | _ => simp [Compactor.left]
      have hzero : Compactor.free.left = 0 := rfl
      simp only [Workers.left, own, CompactThread.left, hfree, hzero, hflusher, System.gaveUp_db]
      omega
  | latchCompaction failing =>
      refine ⟨?_, rfl⟩
      simp only [Workers.left, failing, CompactThread.left, latched_sstables, latched_flusher,
        latched_compactor]
      omega
  | joinFlush told stopped =>
      refine ⟨?_, rfl⟩
      simp only [Workers.left, told, Dropping.left, List.count_append,
        List.count_singleton]
      simp
  | joinCompact told stopped =>
      refine ⟨?_, rfl⟩
      simp only [Workers.left, told, Dropping.left]
      omega

/-- The next section of a flush under way succeeds or fails. -/
theorem flush_goes_on (env : Env) {s : System} (hin : s.flusher ≠ .free)
    (hw : s.writer = .free) :
    (∃ l s', l.inFlush = true ∧ Step env l s s') ∨ (∃ s', Step env .clear s s') ∨
      ∃ l e db, l.inFlush = true ∧ Fails env e l s db := by
  cases hf : s.flusher with
  | free => exact absurd hf hin
  | frozen m =>
      rcases hrun : (do
        let id ← DbInner.takeSstId
        DbInner.writeTable env s.db.dir id m
        return id) s.db s.w with ⟨e | id, db, w⟩
      · exact Or.inr (Or.inr ⟨.write, e, db, rfl, .write hf hrun⟩)
      · exact Or.inl ⟨.write, _, rfl, .write hf hrun⟩
  | written m id =>
      rcases hrun : (do
        DbInner.nameTable s.db.dir id
        DbInner.settleTable s.db.dir s.db.opts.bloomEnabled id) s.db s.w with ⟨e | table, db, w⟩
      · exact Or.inr (Or.inr ⟨.place, e, db, rfl, .place hf hrun⟩)
      · exact Or.inl ⟨.place, _, rfl, .place hf hrun⟩
  | placed m id table => exact Or.inl ⟨.count, _, rfl, .count hf rfl⟩
  | counted m id table a b =>
      rcases hrun : DbInner.recordTable env id a b s.db s.w with ⟨e | ⟨⟩, db, w⟩
      · exact Or.inr (Or.inr ⟨.record, e, db, rfl, .record hf hrun⟩)
      · exact Or.inl ⟨.record, _, rfl, .record hf hrun⟩
  | recorded m id table => exact Or.inl ⟨.publish, _, rfl, .publish hf rfl⟩
  | published m =>
      rcases hrun : DbInner.rewriteWal env s.db s.w with ⟨e | ⟨⟩, db, w⟩
      · exact Or.inr (Or.inr ⟨.relog, e, db, rfl, .relog hf hw hrun⟩)
      · exact Or.inl ⟨.relog, _, rfl, .relog hf hw hrun⟩
  | relogged m => exact Or.inr (Or.inl ⟨_, .clear hf rfl⟩)

/-- The same of a compaction. -/
theorem compaction_goes_on (env : Env) {s : System} (hin : s.compactor ≠ .free)
    (hf : s.flusher = .free) :
    (∃ l s', l.inCompaction = true ∧ Step env l s s') ∨ (∃ s', Step env .abandon s s') ∨
      (∃ s', Step env .finish s s') ∨ ∃ l e db, l.inFlush = false ∧ Fails env e l s db := by
  cases hc : s.compactor with
  | free => exact absurd hc hin
  | listed tables =>
      rcases hrun : DbInner.chooseRun tables s.db s.w with ⟨e | _ | c, db, w⟩
      · exact Or.inr (Or.inr (Or.inr ⟨.choose, e, db, rfl, .choose hc hrun⟩))
      · exact Or.inr (Or.inl ⟨_, .abandon hc hrun⟩)
      · exact Or.inl ⟨.choose, _, rfl, .choose hc hrun⟩
  | chosen c => exact Or.inl ⟨.bound, _, rfl, .bound hc rfl⟩
  | bounded c minSeq =>
      rcases hrun : DbInner.mergeRun env s.db.dir c minSeq s.db s.w with ⟨e | ⟨⟩, db, w⟩
      · exact Or.inr (Or.inr (Or.inr ⟨.merge, e, db, rfl, .merge hc hrun⟩))
      · exact Or.inl ⟨.merge, _, rfl, .merge hc hrun⟩
  | merged c minSeq =>
      rcases hrun : DbInner.nameTable s.db.dir c.maxId s.db s.w with ⟨e | ⟨⟩, db, w⟩
      · exact Or.inr (Or.inr (Or.inr ⟨.name, e, db, rfl, .name hc hf hrun⟩))
      · exact Or.inl ⟨.name, _, rfl, .name hc hf hrun⟩
  | named c minSeq =>
      rcases hrun : DbInner.finishCompaction env s.db.dir s.db.opts.bloomEnabled c.run c.maxId
        s.db s.w with ⟨e | ⟨⟩, db, w⟩
      · exact Or.inr (Or.inr (Or.inr ⟨.finish, e, db, rfl, .finish hc hrun⟩))
      · exact Or.inr (Or.inr (Or.inl ⟨_, .finish hc hrun⟩))

/-- A freeze does not fail. -/
theorem freeze_ne_error {db db' : DbInner} {w w' : World} {e : Error} :
    DbInner.freeze db w ≠ (.error e, db', w') := by
  intro h
  unfold DbInner.freeze at h
  rw [M.bind_ok (M.self_apply _ _)] at h
  cases hempty : db.active.isEmpty with
  | true =>
      rw [hempty] at h
      cases h
  | false =>
      rw [hempty] at h
      cases h

/-- A compaction thread in the middle of a step can go on, as long as no flush is under way. -/
theorem Workers.Ordered.stepping_turn (h : x.Ordered) (hstep : x.compactThread = .stepping)
    (hfree : x.sys.flusher = .free) : ∃ y, Workers.Turn env (fun _ _ => True) x y := by
  rcases compaction_goes_on env (h.stepping hstep) hfree with
    ⟨l, s', hl, hs'⟩ | ⟨s', hs'⟩ | ⟨s', hs'⟩ | ⟨l, e, db, hl, hfails⟩
  · exact ⟨_, .compact hstep hl trivial hs'⟩
  · exact ⟨_, .abandon hstep trivial hs'⟩
  · exact ⟨_, .finish hstep trivial hs'⟩
  · exact ⟨_, .failCompaction (w := x.sys.w) hstep hl hfails⟩

/-- Until both threads are joined there is a turn to take. -/
theorem Workers.Ordered.turns (h : x.Ordered) (hdrop : x.dropping ≠ .running)
    (hjoined : x.dropping ≠ .joined) : ∃ y, Workers.Turn env (fun _ _ => True) x y := by
  have hwriter := h.writer hdrop
  cases hf : x.flushThread with
  | waiting =>
      have hclosing := (h.closing hdrop).resolve_left (by simp [hf])
      cases hq : x.tasks with
      | nil => exact absurd hq hclosing.ne_nil
      | cons t ts =>
          cases t with
          | shutdown => exact ⟨_, .stopFlush hf hq⟩
          | flush =>
              rcases hrun : DbInner.health x.sys.db x.sys.w with ⟨e | ⟨⟩, db, w⟩
              · exact ⟨_, .refuseFlush hf hq hrun⟩
              · exact ⟨_, .takeFlush hf hq hrun⟩
  | called =>
      have hfree := h.flusher hdrop (by simp [hf])
      cases hpub : x.sys.compactor.publishing with
      | true =>
          -- the flush lock is with the compaction thread
          refine h.stepping_turn ?_ hfree
          by_contra hne
          simp [h.compactor hdrop hne, Compactor.publishing] at hpub
      | false =>
          rcases hrun : DbInner.freeze x.sys.db x.sys.w with ⟨e | _ | m, db, w⟩
          · exact absurd hrun freeze_ne_error
          · exact ⟨_, .pass hf ⟨hfree, hpub⟩ hrun⟩
          · exact ⟨_, .freeze hf trivial (.freeze ⟨hfree, hpub⟩ hrun)⟩
  | flushing =>
      rcases flush_goes_on env (h.flushing hf) hwriter with
        ⟨l, s', hl, hs'⟩ | ⟨s', hs'⟩ | ⟨l, e, db, hl, hfails⟩
      · exact ⟨_, .flush hf hl trivial hs'⟩
      · exact ⟨_, .clear hf trivial hs'⟩
      · exact ⟨_, .failFlush (w := x.sys.w) hf hl hfails⟩
  | announcing => exact ⟨_, .announce hf⟩
  | failing e => exact ⟨_, .latchFlush hf⟩
  | stopped =>
      cases hd : x.dropping with
      | running => exact absurd hd hdrop
      | joined => exact absurd hd hjoined
      | flushTold => exact ⟨_, .joinFlush hd hf⟩
      | compactTold =>
          cases hc : x.compactThread with
          | waiting =>
              have hclosed := ((h.closed (Or.inl hd)).2.resolve_left (by simp [hc])).2
              cases hq : x.msgs with
              | nil => exact absurd hq hclosed.ne_nil
              | cons m ms =>
                  cases m with
                  | run => exact ⟨_, .takeRun hc hq⟩
                  | shutdown => exact ⟨_, .stopCompact hc hq⟩
          | looping =>
              rcases hrun : DbInner.health x.sys.db x.sys.w with ⟨e | ⟨⟩, db, w⟩
              · exact ⟨_, .refuseStep hc hrun⟩
              · exact ⟨_, .enter hc hrun⟩
          | called =>
              exact ⟨_, .list hc trivial (.list (h.compactor hdrop (by simp [hc])) rfl)⟩
          | stepping => exact h.stepping_turn hc (h.flusher hdrop (by simp [hf]))
          | failing e => exact ⟨_, .latchCompaction hc⟩
          | stopped => exact ⟨_, .joinCompact hd hc⟩

/-- Runs with `n` turns of the background threads in them. -/
inductive Workers.Turns (env : Env) (x : Workers) : Nat → Workers → Prop
  | start : Turns env x 0 x
  | turn {n : Nat} {y z : Workers} (before : Turns env x n y)
      (last : Workers.Turn env (fun _ _ => True) y z) : Turns env x (n + 1) z
  | call {n : Nat} {y z : Workers} (before : Turns env x n y)
      (last : Workers.Call env (fun _ _ => True) y z) : Turns env x n z

/-- Once a drop has begun, callers do nothing that matters to it. -/
theorem Workers.Call.dropped (h : Workers.Call env ok x y) (hdrop : x.dropping ≠ .running) :
    y.left = x.left ∧ y.sys.db.opts = x.sys.db.opts ∧ y.dropping = x.dropping := by
  cases h with
  | dropSnapshot fits step =>
      have hsetup := step.setup_eq (by simp) (by simp) rfl
      have htables := congrArg (List.length ∘ Prod.fst) hsetup
      simp only [DbInner.setup, Function.comp_apply] at htables
      refine ⟨?_, congrArg Prod.snd hsetup, rfl⟩
      cases step with
      | drop alive run => simp only [Workers.left, htables]
  | _ => exact absurd ‹x.dropping = .running› hdrop

theorem Workers.Turn.dropped (h : Workers.Turn env ok x y) (hdrop : x.dropping ≠ .running) :
    y.dropping ≠ .running := by
  cases h with
  | joinFlush | joinCompact => simp
  | _ => exact hdrop

end Ending

/-- `Workers::drop` of a handle whose compaction threshold is two or more returns, whatever its
channels hold, whatever is under way and whatever fails: from where it has begun, no run has more
than `x.left` turns of the background threads, and none gets stuck before both are joined. -/
theorem drop_returns (env : Env) {ok : Label → System → Prop} {x : Workers}
    (h : Workers.Served env ok x) (begun : x.dropping ≠ .running)
    (merges : 2 ≤ x.sys.db.opts.compactionThreshold) {n : Nat} {y : Workers}
    (run : Workers.Turns env x n y) :
    n ≤ x.left ∧ (y.dropping = .joined ∨ ∃ z, Workers.Turn env (fun _ _ => True) y z) := by
  obtain ⟨hord, henough, hdrop, hopts, hleft⟩ : y.Ordered ∧ y.sys.Enough ∧
      y.dropping ≠ .running ∧ y.sys.db.opts = x.sys.db.opts ∧ n + y.left ≤ x.left := by
    induction run with
    | start => exact ⟨h.ordered, h.enough, begun, rfl, by omega⟩
    | turn before last ih =>
        obtain ⟨hord, henough, hdrop, hopts, hleft⟩ := ih
        obtain ⟨hlt, hsame⟩ := last.left_lt henough (by rw [hopts]; exact merges)
        exact ⟨hord.turn last, last.enough henough, last.dropped hdrop, hsame.trans hopts,
          by omega⟩
    | call before last ih =>
        obtain ⟨hord, henough, hdrop, hopts, hleft⟩ := ih
        obtain ⟨heq, hsame, hstage⟩ := last.dropped hdrop
        exact ⟨hord.call last, last.enough henough, by rw [hstage]; exact hdrop,
          hsame.trans hopts, by omega⟩
  refine ⟨by omega, ?_⟩
  by_cases hjoined : y.dropping = .joined
  · exact Or.inl hjoined
  · exact Or.inr (hord.turns hdrop hjoined)

/-- Two tables wait to be merged when the handle is opened, and a drop has begun with a flush in
the channel. -/
theorem drop_returns_queued :
    ∃ x, Workers.Served Stock.env (Fits Stock.env) x ∧ x.tasks = [.flush, .shutdown] ∧
      x.dropping = .flushTold ∧ x.sys.db.opts.compactionThreshold = 2 ∧
      x.sys.db.sstables.length = 2 ∧
      ∀ n y, Workers.Turns Stock.env x n y →
        n ≤ x.left ∧ (y.dropping = .joined ∨ ∃ z, Workers.Turn Stock.env (fun _ _ => True) y z)
    := by
  have hrun : ((System.start Stock.env "db" ⟨1, .durable, 2, true⟩).bind
      (System.execAll Stock.env (fun _ _ => true)
        (System.writeSteps [([1], some [2])] ++ System.flushSteps ++
          System.writeSteps [([3], some [4])] ++ System.flushSteps))).any
      (fun s => (System.startOn Stock.env "db" ⟨1, .durable, 2, true⟩ s.w.vol).any fun s' =>
        (Workers.execAll Stock.env ((Workers.writeAndFlush [([5], some [6])]).take 4 ++ [.drop])
          (Workers.started s')).any fun x => decide (x.tasks = [.flush, .shutdown] ∧
            x.dropping = .flushTold ∧ x.sys.db.opts.compactionThreshold = 2 ∧
            x.sys.db.sstables.length = 2)) = true := by
    decide +kernel
  obtain ⟨s, _, htest⟩ := System.execAll_any hrun
  obtain ⟨s', hs', htest⟩ := exists_of_any htest
  obtain ⟨db, w, _, rfl⟩ := System.startOn_eq_some hs'
  obtain ⟨x, hx, htest⟩ := exists_of_any htest
  obtain ⟨htasks, hdrop, hthr, htables⟩ := of_decide_eq_true htest
  have hserved : Workers.Served Stock.env (Fits Stock.env) x :=
    ⟨_, ⟨rfl, rfl, rfl⟩, rfl, Workers.execAll_run hx⟩
  exact ⟨x, hserved, htasks, hdrop, hthr, htables, fun n y hturns =>
    drop_returns Stock.env hserved (by simp [hdrop]) (by omega) hturns⟩

end LsmKv
