import LsmKv.CompactionEnds
import LsmKv.Workers

/-!
# No work is forgotten

What the background threads are told is all they know.  This module says that it is enough: as
long as nothing fails, a full MemTable has a flush on its way, and a run of tables that
qualifies for a merge has somebody who will look for it.

**Results.**
* `Catalogue.maintain_false`: what `Db::maintain` says of a handle nobody is inside.
* `Workers.Prompt.turn`, `Workers.Prompt.call`: what every move keeps.
* `full_memtable_is_flushed`: a MemTable that is full is on its way to a flush.
* `drop_leaves_no_work`: when a handle is dropped, nothing is left for `Db::maintain` to do.
-/

namespace LsmKv

open Foundation Volume

section Maintain

variable {env : Env} {s : System} {held : Held}

/-- Picking a run among all tables finds none exactly if none qualifies. -/
theorem Catalogue.chooseRun_all (h : Catalogue env s held) (hkept : s.compactor.replaced = none) :
    DbInner.chooseRun s.db.sstables s.db s.w = (.ok none, s.db, s.w) ∧
        pickHeld env held.tables s.db.opts.compactionThreshold = none ∨
      ∃ c, DbInner.chooseRun s.db.sstables s.db s.w = (.ok (some c), s.db, s.w) ∧
        pickHeld env held.tables s.db.opts.compactionThreshold ≠ none := by
  obtain ⟨T, B, htables, hlen, hchoose⟩ := h.chooseRun (List.append_nil _).symm hkept
  have hB : B = [] := by
    have hread := h.read.length_eq
    rw [htables, List.length_append, hlen] at hread
    exact List.length_eq_zero_iff.mp (by omega)
  rw [htables, hB, List.append_nil]
  exact hchoose

/-- Where no run qualifies, a compaction step does nothing. -/
theorem Catalogue.compactStep_none (h : Catalogue env s held) (healthy : s.db.failed = none)
    (hfree : s.compactor = .free)
    (hnone : pickHeld env held.tables s.db.opts.compactionThreshold = none) :
    DbInner.compactStep env s.db s.w = (.ok false, s.db, s.w) := by
  have hlist : DbInner.listTables s.db s.w = (.ok s.db.sstables, s.db, s.w) := rfl
  rcases h.chooseRun_all (by simp [hfree, Compactor.replaced]) with ⟨hrun, _⟩ | ⟨c, _, hsome⟩
  · refine compactStep_ok healthy ?_
    rw [DbInner.compactStepImpl_sections, M.bind_ok (M.self_apply _ _), M.bind_ok hlist,
      M.bind_ok hrun]
    rfl
  · exact absurd hnone hsome

/-- A compaction step of a handle that no compaction is inside returns `false` exactly if no run
qualifies. -/
theorem Catalogue.compactStep_false (h : Catalogue env s held) (healthy : s.db.failed = none)
    (hfree : s.compactor = .free) :
    (DbInner.compactStep env s.db s.w).1 = .ok false ↔
      pickHeld env held.tables s.db.opts.compactionThreshold = none := by
  have hlist : DbInner.listTables s.db s.w = (.ok s.db.sstables, s.db, s.w) := rfl
  rcases h.chooseRun_all (by simp [hfree, Compactor.replaced]) with ⟨_, hnone⟩ | ⟨c, hrun, hsome⟩
  · exact iff_of_true (by rw [h.compactStep_none healthy hfree hnone]) hnone
  · refine iff_of_false (fun hfalse => ?_) hsome
    rcases hstep : DbInner.compactStep env s.db s.w with ⟨r, db', w'⟩
    rw [hstep] at hfalse
    cases hfalse
    unfold DbInner.compactStep at hstep
    rw [M.bind_ok (health_ok healthy)] at hstep
    have himpl := ok_of_latching hstep
    rw [DbInner.compactStepImpl_sections, M.bind_ok (M.self_apply _ _), M.bind_ok hlist,
      M.bind_ok hrun] at himpl
    obtain ⟨_, _, _, _, himpl⟩ := ok_of_bind himpl
    obtain ⟨_, _, _, _, himpl⟩ := ok_of_bind himpl
    obtain ⟨_, _, _, _, himpl⟩ := ok_of_bind himpl
    cases himpl

/-- `Db::maintain` has nothing to do with a handle nobody is inside exactly if the MemTable is
not full and no run of tables qualifies for a merge. -/
theorem Catalogue.maintain_false (h : Catalogue env s held) (healthy : s.db.failed = none)
    (hidle : s.Idle) :
    (DbInner.maintain env s.db s.w).1 = .ok false ↔
      (s.db.active.isEmpty = false → s.db.active.isFull = false) ∧
        pickHeld env held.tables s.db.opts.compactionThreshold = none := by
  have hfrozen : s.db.frozen = none := by
    rw [h.slot, hidle.flusher]
    rfl
  rw [← h.compactStep_false healthy hidle.compactor]
  cases hdue : s.db.flushIsDue with
  | false =>
      rw [maintain_idle hdue]
      rw [flushIsDue_eq hfrozen] at hdue
      refine (and_iff_right fun hempty => ?_).symm
      simpa [hempty] using hdue
  | true =>
      refine iff_of_false (fun hfalse => ?_) fun hboth => ?_
      · rcases hrun : DbInner.maintain env s.db s.w with ⟨r, db', w'⟩
        rw [hrun] at hfalse
        cases hfalse
        rcases maintain_inv hrun with ⟨_, hr, _⟩ | ⟨hnot, _⟩
        · cases hr
        · rw [hdue] at hnot
          cases hnot
      · rw [flushIsDue_eq hfrozen] at hdue
        obtain ⟨hempty, hfull⟩ := Bool.and_eq_true_iff.mp hdue
        rw [hboth.1 (by simpa using hempty)] at hfull
        cases hfull

end Maintain

/-- Whether the table of a flush is in the live set. -/
def Flusher.late : Flusher → Bool
  | .published _ | .relogged _ => true
  | _ => false

/-- A flush is on its way: a writer is about to ask for it, it is asked for, or the flush thread
has taken it up. -/
def Workers.FlushComing (x : Workers) : Prop :=
  0 < x.triggers ∨ .flush ∈ x.tasks ∨ x.flushThread = .called

/-- The compaction thread is about to be told of a table, or is told. -/
def Workers.RunComing (x : Workers) : Prop :=
  x.sys.flusher.late = true ∨ x.flushThread = .announcing ∨ 0 < x.announcing ∨ .run ∈ x.msgs

/-- Somebody is about to look for a run, looks at the tables as they are now, or is merging. -/
def Workers.Looking (x : Workers) : Prop :=
  x.compactThread = .looping ∨ x.compactThread = .called ∨ 0 < x.loops ∨
    x.sys.compactor = .listed x.sys.db.sstables ∨ x.sys.compactor.choice ≠ none ∨
    x.maintained = true

/-- What holds while nothing has failed: a full MemTable has a flush on its way, and a run that
qualifies has somebody who will look for it. -/
structure Workers.Prompt (env : Env) (x : Workers) (held : Held) : Prop where
  files : Catalogue env x.sys held
  healthy : x.sys.db.failed = none
  flush : x.sys.db.active.isEmpty = false → x.sys.db.active.isFull = true → x.FlushComing
  merge : pickHeld env held.tables x.sys.db.opts.compactionThreshold = none ∨ x.RunComing ∨
    x.Looking
  stopped : x.flushThread = .stopped → x.tasks = [] ∧ x.dropping ≠ .running
  flushes : ∀ e, x.flushThread ≠ .failing e
  merges : ∀ e, x.compactThread ≠ .failing e
  calls : x.errors = []

section Prompt

variable {env : Env} {x y : Workers} {s : System} {held : Held} {l : Label}

theorem Workers.Looking.act (h : x.Looking) (hc : s.compactor = x.sys.compactor)
    (hsst : s.db.sstables = x.sys.db.sstables) : { x with sys := s }.Looking := by
  unfold Looking
  dsimp only
  rw [hc, hsst]
  exact h

/-- What a section makes of the tables, the latch, the MemTable and what there is to merge. -/
theorem Workers.Prompt.after (h : x.Prompt env held) (hfits : Fits env l x.sys)
    (hopens : l.opens = false) (hstep : Step env l x.sys s) :
    ∃ held', Catalogue env s held' ∧ s.db.failed = none ∧
      (l ≠ .insert → l ≠ .freeze →
        s.db.active.isEmpty = false → s.db.active.isFull = true → x.FlushComing) ∧
      (l ≠ .publish → l ≠ .finish → s.db.sstables = x.sys.db.sstables ∧
        (pickHeld env held'.tables s.db.opts.compactionThreshold = none ∨ x.RunComing ∨
          x.Looking)) := by
  obtain ⟨_, ⟨held', hcat, htables⟩, _⟩ := h.files.step hfits hstep
  refine ⟨held', hcat, (hstep.failed_eq hopens).trans h.healthy, fun hinsert hfreeze => ?_,
    fun hpublish hfinish => ?_⟩
  · rw [hstep.active_eq hinsert hfreeze hopens]
    exact h.flush
  · rw [htables hpublish hfinish, hstep.opts_eq hopens]
    exact ⟨congrArg Prod.fst (hstep.setup_eq hpublish hfinish hopens), h.merge⟩

/-- A section within a call leaves the flush that is on its way, and those who look, where they
are. -/
theorem Workers.Prompt.section (h : x.Prompt env held) (hfits : Fits env l x.sys)
    (hl : l.inCall = true ∨ l.inFlush = true ∨ l.inCompaction = true ∨ ∃ n, l = .drop n)
    (hstep : Step env l x.sys s) : ∃ held', { x with sys := s }.Prompt env held' := by
  have hnot : l ≠ .insert ∧ l ≠ .freeze ∧ l.opens = false := by
    refine ⟨?_, ?_, ?_⟩
    · rintro rfl
      simp [Label.inCall, Label.inFlush, Label.inCompaction] at hl
    · rintro rfl
      simp [Label.inCall, Label.inFlush, Label.inCompaction] at hl
    · cases l with
      | reopen opts => simp [Label.inCall, Label.inFlush, Label.inCompaction] at hl
      | _ => rfl
  obtain ⟨held', hcat, healthy, hflush, hmerge⟩ := h.after hfits hnot.2.2 hstep
  refine ⟨held',
    { h with
      files := hcat
      healthy := healthy
      flush := hflush hnot.1 hnot.2.1
      merge := ?_ }⟩
  cases hstep with
  | publish stage => exact Or.inr (Or.inl (Or.inl rfl))
  | relog stage => exact Or.inr (Or.inl (Or.inl rfl))
  | choose | bound | merge | name => exact Or.inr (Or.inr (by simp [Looking, Compactor.choice]))
  | write stage | place stage | count stage | record stage =>
      obtain ⟨hsst, hmerge⟩ := hmerge (by simp) (by simp)
      refine hmerge.imp_right (Or.imp (fun hcoming => ?_) fun hlook => hlook.act rfl hsst)
      refine Or.inr (hcoming.resolve_left ?_)
      simp [stage, Flusher.late]
  | insert | freeze | clear | list | abandon | finish | reopen =>
      simp [Label.inCall, Label.inFlush, Label.inCompaction] at hl
  | _ =>
      obtain ⟨hsst, hmerge⟩ := hmerge (by simp) (by simp)
      exact hmerge.imp_right (Or.imp_right fun hlook => hlook.act rfl hsst)

/-- A compaction that finds no run leaves none behind, unless somebody will look again. -/
theorem Workers.Prompt.abandoned (h : x.Prompt env held) {tables : List SsTable}
    (hstage : x.sys.compactor = .listed tables)
    (hrun : DbInner.chooseRun tables x.sys.db x.sys.w = (.ok none, x.sys.db, x.sys.w)) :
    pickHeld env held.tables x.sys.db.opts.compactionThreshold = none ∨ x.RunComing ∨
      x.compactThread = .looping ∨ x.compactThread = .called ∨ 0 < x.loops ∨
        x.maintained = true := by
  rcases h.merge with hnone | hcoming | hlook
  · exact Or.inl hnone
  · exact Or.inr (Or.inl hcoming)
  · rcases hlook with hl | hl | hl | hl | hl | hl
    · exact Or.inr (Or.inr (Or.inl hl))
    · exact Or.inr (Or.inr (Or.inr (Or.inl hl)))
    · exact Or.inr (Or.inr (Or.inr (Or.inr (Or.inl hl))))
    · -- what was listed is what there is
      cases hstage.symm.trans hl
      rcases h.files.chooseRun_all (by simp [hstage, Compactor.replaced]) with
        ⟨_, hnone⟩ | ⟨c, hsome, _⟩
      · exact Or.inl hnone
      · cases hsome.symm.trans hrun
    · simp [hstage, Compactor.choice] at hl
    · exact Or.inr (Or.inr (Or.inr (Or.inr (Or.inr hl))))

theorem freeze_none {db db' : DbInner} {w w' : World}
    (h : DbInner.freeze db w = (.ok none, db', w')) : db.active.isEmpty = true := by
  unfold DbInner.freeze at h
  rw [M.bind_ok (M.self_apply _ _)] at h
  cases hempty : db.active.isEmpty with
  | true => rfl
  | false =>
      rw [hempty] at h
      cases h

/-- A flush stays on its way as long as the flush thread does not drop one it has taken. -/
theorem Workers.FlushComing.act (h : x.FlushComing) {f : FlushThread}
    (hf : x.flushThread ≠ .called) : { x with sys := s, flushThread := f }.FlushComing :=
  h.imp_right fun h => Or.inl (h.resolve_right hf)

/-- A message stays on its way as long as the flush thread does not keep it back. -/
theorem Workers.RunComing.act (h : x.RunComing) {f : FlushThread} {ts : List Task}
    (hlate : x.sys.flusher.late = true → s.flusher.late = true)
    (hf : x.flushThread ≠ .announcing) :
    { x with sys := s, tasks := ts, flushThread := f }.RunComing := by
  rcases h with h | h | h
  · exact Or.inl (hlate h)
  · exact absurd h hf
  · exact Or.inr (Or.inr h)

theorem Workers.Prompt.turn (h : x.Prompt env held) (hord : x.Ordered)
    (hturn : Workers.Turn env (Fits env) x y) (hok : y.failed = false) :
    ∃ held', y.Prompt env held' := by
  have hhealth := health_ok (w := x.sys.w) h.healthy
  cases hturn with
  | takeFlush waiting queue healthy =>
      exact ⟨held,
        { h with
          flush := fun _ _ => Or.inr (Or.inr rfl)
          merge := h.merge.imp_right (Or.imp_left fun hc => hc.act id (by simp [waiting]))
          stopped := by simp
          flushes := by simp }⟩
  | refuseFlush waiting queue poisoned => cases hhealth.symm.trans poisoned
  | stopFlush waiting queue =>
      have hdrop : x.dropping ≠ .running := fun hd => hord.tasks hd (by simp [queue])
      have hnil := ((queue ▸ hord.closing hdrop).resolve_left (by simp [waiting])).eq_nil
      refine ⟨held,
        { h with
          flush := fun hempty hfull => ?_
          merge := h.merge.imp_right (Or.imp_left fun hc => hc.act id (by simp [waiting]))
          stopped := fun _ => ⟨hnil, hdrop⟩
          flushes := by simp }⟩
      rcases h.flush hempty hfull with hc | hc | hc
      · exact Or.inl hc
      · simp [queue, hnil] at hc
      · simp [waiting] at hc
  | freeze called fits step =>
      obtain ⟨held', hcat, healthy, _, hmerge⟩ := h.after fits rfl step
      cases step with
      | freeze free run =>
          obtain ⟨_, rfl, rfl, rfl⟩ := freeze_some run
          exact ⟨held',
            { h with
              files := hcat
              healthy := healthy
              flush := fun hempty => by cases hempty
              merge := (hmerge (by simp) (by simp)).2.imp_right (Or.imp_left fun hc =>
                hc.act (by simp [free.1, Flusher.late]) (by simp [called]))
              stopped := by simp
              flushes := by simp }⟩
  | pass called free run =>
      have hempty := freeze_none run
      exact ⟨held,
        { h with
          flush := fun hsome _ => by simp [hempty] at hsome
          merge := h.merge.imp_right (Or.imp_left fun hc => hc.act id (by simp [called]))
          stopped := by simp
          flushes := by simp }⟩
  | flush own inner fits step => exact h.section fits (Or.inr (Or.inl inner)) step
  | clear own fits step =>
      obtain ⟨held', hcat, healthy, _⟩ := h.after fits rfl step
      cases step with
      | clear stage run =>
          cases run
          exact ⟨held',
            { h with
              files := hcat
              healthy := healthy
              flush := fun hempty hfull => (h.flush hempty hfull).act (by simp [own])
              merge := Or.inr (Or.inl (Or.inr (Or.inl rfl)))
              stopped := by simp
              flushes := by simp }⟩
  | announce done =>
      exact ⟨held,
        { h with
          flush := fun hempty hfull => (h.flush hempty hfull).act (s := x.sys) (by simp [done])
          merge := Or.inr (Or.inl (Or.inr (Or.inr (Or.inr (by simp)))))
          stopped := by simp
          flushes := by simp }⟩
  | failFlush own fails => cases hok
  | latchFlush failing => exact absurd failing (h.flushes _)
  | takeRun waiting queue =>
      exact ⟨held, { h with merge := Or.inr (Or.inr (Or.inl rfl)), merges := by simp }⟩
  | stopCompact waiting queue =>
      have hdrop : x.dropping = .compactTold ∨ x.dropping = .joined := by
        rcases hd : x.dropping
        · exact absurd (by simp [queue]) (hord.msgs (Or.inl hd)).1
        · exact absurd (by simp [queue]) (hord.msgs (Or.inr hd)).1
        · exact Or.inl rfl
        · exact Or.inr rfl
      have hnil := ((queue ▸ (hord.closed hdrop).2).resolve_left (by simp [waiting])).2.eq_nil
      refine ⟨held, { h with merge := ?_, merges := by simp }⟩
      refine h.merge.imp_right (Or.imp (fun hc => ?_) fun hlook => ?_)
      · rcases hc with hc | hc | hc | hc
        · exact Or.inl hc
        · exact Or.inr (Or.inl hc)
        · exact Or.inr (Or.inr (Or.inl hc))
        · simp [queue, hnil] at hc
      · rcases hlook with hl | hl | hl
        · simp [waiting] at hl
        · simp [waiting] at hl
        · exact Or.inr (Or.inr hl)
  | enter looping healthy =>
      exact ⟨held, { h with merge := Or.inr (Or.inr (Or.inr (Or.inl rfl))), merges := by simp }⟩
  | refuseStep looping poisoned => cases hhealth.symm.trans poisoned
  | list called fits step =>
      obtain ⟨held', hcat, healthy, _⟩ := h.after fits rfl step
      cases step with
      | list free run =>
          cases run
          exact ⟨held',
            { h with
              files := hcat
              healthy := healthy
              merge := Or.inr (Or.inr (Or.inr (Or.inr (Or.inr (Or.inl rfl)))))
              merges := by simp }⟩
  | compact own inner fits step => exact h.section fits (Or.inr (Or.inr (Or.inl inner))) step
  | abandon own fits step =>
      cases step with
      | abandon stage run =>
          obtain ⟨r, hsame⟩ := DbInner.chooseRun_same _ x.sys.db x.sys.w
          cases hsame.symm.trans run
          refine ⟨held,
            { h with
              files := h.files.afterPick (by simp [stage, Compactor.replaced]) rfl trivial
              merge := ?_
              merges := by simp }⟩
          refine (h.abandoned stage run).imp_right (Or.imp_right fun hlook => ?_)
          rcases hlook with hl | hl | hl | hl
          · simp [own] at hl
          · simp [own] at hl
          · exact Or.inr (Or.inr (Or.inl hl))
          · exact Or.inr (Or.inr (Or.inr (Or.inr (Or.inr hl))))
  | finish own fits step =>
      obtain ⟨held', hcat, healthy, hflush, _⟩ := h.after fits rfl step
      cases step with
      | finish stage run =>
          exact ⟨held',
            { h with
              files := hcat
              healthy := healthy
              flush := hflush (by simp) (by simp)
              merge := Or.inr (Or.inr (Or.inl rfl))
              merges := by simp }⟩
  | failCompaction own fails => cases hok
  | latchCompaction failing => exact absurd failing (h.merges _)
  | joinFlush told stopped =>
      refine ⟨held, { h with merge := ?_, stopped := fun hs => ⟨(h.stopped hs).1, by simp⟩ }⟩
      refine h.merge.imp_right (Or.imp_left fun hc => ?_)
      exact Or.imp_right (Or.imp_right (Or.imp_right (List.mem_append_left _))) hc
  | joinCompact told stopped =>
      exact ⟨held, { h with stopped := fun hs => ⟨(h.stopped hs).1, by simp⟩ }⟩

theorem Workers.Prompt.call (h : x.Prompt env held)
    (hcall : Workers.Call env (Fits env) x y) (hok : y.failed = false) :
    ∃ held', y.Prompt env held' := by
  cases hcall with
  | go running inner fits step => exact h.section fits (Or.inl inner) step
  | insert running fits step =>
      obtain ⟨held', hcat, healthy, _, hmerge⟩ := h.after fits rfl step
      cases step with
      | insert stage run =>
          cases run
          refine ⟨held',
            { h with
              files := hcat
              healthy := healthy
              flush := fun _ hfull => Or.inl ?_
              merge := (hmerge (by simp) (by simp)).2 }⟩
          simp only [hfull, if_true]
          omega
  | refuse running refuses =>
      cases refuses with
      | mk stage run =>
          obtain ⟨wal, rfl, hcat⟩ := h.files.refuses run
          exact ⟨held, { h with files := hcat .free }⟩
  | trigger running full =>
      exact ⟨held,
        { h with
          flush := fun _ _ => Or.inr (Or.inl (by simp))
          stopped := fun hs => absurd running (h.stopped hs).2 }⟩
  | freeze running fits step =>
      obtain ⟨held', hcat, healthy, _, hmerge⟩ := h.after fits rfl step
      cases step with
      | freeze free run =>
          obtain ⟨_, rfl, rfl, rfl⟩ := freeze_some run
          refine ⟨held',
            { h with
              files := hcat
              healthy := healthy
              flush := fun hempty => by cases hempty
              merge := ?_ }⟩
          refine (hmerge (by simp) (by simp)).2.imp_right (Or.imp_left fun hc => ?_)
          exact Or.inr (hc.resolve_left (by simp [free.1, Flusher.late]))
  | flush running own inner fits step => exact h.section fits (Or.inr (Or.inl inner)) step
  | clear running own fits step =>
      obtain ⟨held', hcat, healthy, _⟩ := h.after fits rfl step
      cases step with
      | clear stage run =>
          cases run
          exact ⟨held',
            { h with
              files := hcat
              healthy := healthy
              merge := Or.inr (Or.inl (Or.inr (Or.inr (Or.inl (Nat.succ_pos _))))) }⟩
  | announce running done =>
      exact ⟨held,
        { h with merge := Or.inr (Or.inl (Or.inr (Or.inr (Or.inr (by simp))))) }⟩
  | failFlush running own fails => cases hok
  | enter running =>
      exact ⟨held,
        { h with merge := Or.inr (Or.inr (Or.inr (Or.inr (Or.inl (Nat.succ_pos _))))) }⟩
  | list running inside fits step =>
      obtain ⟨held', hcat, healthy, _⟩ := h.after fits rfl step
      cases step with
      | list free run =>
          cases run
          exact ⟨held',
            { h with
              files := hcat
              healthy := healthy
              merge := Or.inr (Or.inr (Or.inr (Or.inr (Or.inr (Or.inl rfl))))) }⟩
  | listOnce running fits step =>
      obtain ⟨held', hcat, healthy, _⟩ := h.after fits rfl step
      cases step with
      | list free run =>
          cases run
          exact ⟨held',
            { h with
              files := hcat
              healthy := healthy
              merge := Or.inr (Or.inr (Or.inr (Or.inr (Or.inr (Or.inl rfl))))) }⟩
  | compact running own inner fits step =>
      exact h.section fits (Or.inr (Or.inr (Or.inl inner))) step
  | abandon running own fits step =>
      cases step with
      | abandon stage run =>
          obtain ⟨r, hsame⟩ := DbInner.chooseRun_same _ x.sys.db x.sys.w
          cases hsame.symm.trans run
          refine ⟨held,
            { h with
              files := h.files.afterPick (by simp [stage, Compactor.replaced]) rfl trivial
              merge := ?_ }⟩
          refine (h.abandoned stage run).imp_right (Or.imp_right fun hlook => ?_)
          exact Or.imp_right (Or.imp_right (Or.imp_right fun hl => Or.inr (Or.inr hl))) hlook
  | finish running own fits step =>
      obtain ⟨held', hcat, healthy, hflush, _⟩ := h.after fits rfl step
      cases step with
      | finish stage run =>
          exact ⟨held',
            { h with
              files := hcat
              healthy := healthy
              flush := hflush (by simp) (by simp)
              merge := Or.inr (Or.inr (Or.inr (Or.inr (Or.inl (Nat.succ_pos _))))) }⟩
  | finishOnce running own fits step =>
      obtain ⟨held', hcat, healthy, hflush, _⟩ := h.after fits rfl step
      cases step with
      | finish stage run =>
          exact ⟨held',
            { h with
              files := hcat
              healthy := healthy
              flush := hflush (by simp) (by simp)
              merge := Or.inr (Or.inr (Or.inr (Or.inr (Or.inr (Or.inr (Or.inr rfl)))))) }⟩
  | failCompaction running own fails => cases hok
  | latch running failed => simp [h.calls] at failed
  | dropSnapshot fits step => exact h.section fits (Or.inr (Or.inr (Or.inr ⟨_, rfl⟩))) step
  | drop running alone =>
      exact ⟨held,
        { h with
          flush := fun hempty hfull => (h.flush hempty hfull).imp_right
            (Or.imp_left (List.mem_append_left _))
          stopped := fun hs => absurd running (h.stopped hs).2 }⟩

end Prompt

/-- The states of a handle with background threads: it is opened, on a fresh directory or on one
that an earlier handle has left, with nothing for them to do. -/
def Workers.Reached (env : Env) (dir : String) (ok : Label → System → Prop) (x : Workers) :
    Prop :=
  ∃ s, LsmKv.Reached env dir (Fits env) s ∧ s.Idle ∧ s.loading = [] ∧
    (DbInner.maintain env s.db s.w).1 = .ok false ∧ Workers.Run env ok (Workers.started s) x

section Reach

variable {env : Env} {dir : String} {ok : Label → System → Prop} {x : Workers}

theorem Workers.Reached.served (h : Workers.Reached env dir ok x) : Workers.Served env ok x := by
  obtain ⟨s, _, hidle, hloading, _, hrun⟩ := h
  exact ⟨s, hidle, hloading, hrun⟩

/-- A failure is never forgotten. -/
theorem Workers.failed_mono {y : Workers}
    (hmove : Workers.Turn env ok x y ∨ Workers.Call env ok x y) (hok : y.failed = false) :
    x.failed = false := by
  rcases hmove with hturn | hcall
  · cases hturn with
    | failFlush | failCompaction => cases hok
    | _ => exact hok
  · cases hcall with
    | failFlush | failCompaction => cases hok
    | _ => exact hok

theorem Workers.Reached.prompt (h : Workers.Reached env dir (Fits env) x)
    (hok : x.failed = false) : ∃ held, x.Prompt env held := by
  obtain ⟨s, hreached, hidle, hloading, hmaintain, hrun⟩ := h
  obtain ⟨held, hfiles, _⟩ := hreached.ledger (fun _ _ h => h)
  obtain ⟨hactive, hpick⟩ := (hfiles.maintain_false hfiles.healthy hidle).mp hmaintain
  have hstart : (Workers.started s).Prompt env held :=
    { files := hfiles.catalogue
      healthy := hfiles.healthy
      flush := fun hempty hfull => by
        have hnot : s.db.active.isFull = false := hactive hempty
        rw [show s.db.active.isFull = true from hfull] at hnot
        cases hnot
      merge := Or.inl hpick
      stopped := by simp [Workers.started]
      flushes := by simp [Workers.started]
      merges := by simp [Workers.started]
      calls := rfl }
  induction hrun with
  | refl => exact ⟨held, hstart⟩
  | @tail y z hsteps hlast ih =>
      obtain ⟨held', hprompt⟩ := ih (Workers.failed_mono hlast hok)
      have hord := Workers.Served.ordered ⟨s, hidle, hloading, hsteps⟩
      rcases hlast with hturn | hcall
      · exact hprompt.turn hord hturn hok
      · exact hprompt.call hcall hok

/-- The handle on an empty volume, if there is nothing to do. -/
def Workers.start (env : Env) (dir : String) (opts : Options) : Option Workers :=
  (System.start env dir opts).bind fun s =>
    match (DbInner.maintain env s.db s.w).1 with
    | .ok false => some (Workers.started s)
    | _ => none

/-- A schedule from there whose end passes a test. -/
theorem Workers.execAll_any {opts : Options} {ms : List Workers.Move} {p : Workers → Bool}
    (h : ((Workers.start env dir opts).bind (Workers.execAll env ms)).any p = true) :
    ∃ x, Workers.Reached env dir (Fits env) x ∧ p x = true := by
  obtain ⟨x, hx, hp⟩ := exists_of_any h
  obtain ⟨x₀, hx₀, hrun⟩ := Option.bind_eq_some_iff.mp hx
  obtain ⟨s, hs, hstart⟩ := Option.bind_eq_some_iff.mp hx₀
  unfold System.start at hs
  split at hs
  · rename_i db u w hopen
    cases hs
    split at hstart
    · rename_i hmaintain
      cases hstart
      exact ⟨x, ⟨_, ⟨opts, Volume.empty, db, w, ⟨Volume.sound_empty, fun _ _ => rfl⟩, hopen,
        .refl⟩, ⟨rfl, rfl, rfl⟩, rfl, hmaintain, Workers.execAll_run hrun⟩, hp⟩
    · cases hstart
  · cases hs

end Reach

/-- Let callers and the background threads of a handle be at work in any interleaving.  As long
as no flush or compaction has failed, a MemTable that is full and not empty is on its way to a
flush: a writer is about to send the task, the task is in the channel, or the flush thread has
taken it and not frozen the MemTable yet. -/
theorem full_memtable_is_flushed (env : Env) (dir : String) {x : Workers}
    (h : Workers.Reached env dir (Fits env) x) (healthy : x.failed = false)
    (some : x.sys.db.active.isEmpty = false) (full : x.sys.db.active.isFull = true) :
    0 < x.triggers ∨ .flush ∈ x.tasks ∨ x.flushThread = .called := by
  obtain ⟨held, hprompt⟩ := h.prompt healthy
  exact hprompt.flush some full

/-- A write has just filled the MemTable. -/
theorem full_memtable_is_flushed_written :
    ∃ x, Workers.Reached Stock.env "db" (Fits Stock.env) x ∧ x.failed = false ∧
      x.sys.db.active.isEmpty = false ∧ x.sys.db.active.isFull = true ∧
      (0 < x.triggers ∨ .flush ∈ x.tasks ∨ x.flushThread = .called) := by
  have hrun : ((Workers.start Stock.env "db" { Options.default with memtableThreshold := 1 }).bind
      (Workers.execAll Stock.env ((Workers.writeAndFlush [([1], some [2])]).take 3))).any
      (fun x => decide (x.failed = false ∧ x.sys.db.active.isEmpty = false ∧
        x.sys.db.active.isFull = true)) = true := by
    decide +kernel
  obtain ⟨x, hreached, htest⟩ := Workers.execAll_any hrun
  obtain ⟨healthy, hsome, hfull⟩ := of_decide_eq_true htest
  exact ⟨x, hreached, healthy, hsome, hfull,
    full_memtable_is_flushed Stock.env "db" hreached healthy hsome hfull⟩

/-- When `Workers::drop` has joined both threads of such a handle, and no call of `Db::maintain`
has merged tables, nothing is left to do: the MemTable is not full, no table waits to be
published, and no run of tables qualifies for a merge. -/
theorem drop_leaves_no_work (env : Env) (dir : String) {x : Workers}
    (h : Workers.Reached env dir (Fits env) x) (healthy : x.failed = false)
    (looped : x.maintained = false) (joined : x.dropping = .joined) :
    x.sys.Idle ∧ DbInner.maintain env x.sys.db x.sys.w = (.ok false, x.sys.db, x.sys.w) := by
  obtain ⟨held, hprompt⟩ := h.prompt healthy
  have hord := h.served.ordered
  have hdrop : x.dropping ≠ .running := by simp [joined]
  obtain ⟨hflush, hclosed⟩ := hord.closed (Or.inr joined)
  have hcompact := hord.joined joined
  have hmsgs : x.msgs = [] := (hclosed.resolve_right fun hs => hs.1 hcompact).2
  have hidle : x.sys.Idle := ⟨hord.writer hdrop, hord.flusher hdrop (by simp [hflush]),
    hord.compactor hdrop (by simp [hcompact])⟩
  have hfull : x.sys.db.flushIsDue = false := by
    rw [flushIsDue_eq (by rw [hprompt.files.slot, hidle.flusher]; rfl), Bool.and_eq_false_iff]
    by_contra hdue
    obtain ⟨hsome, hfull⟩ := not_or.mp hdue
    rcases hprompt.flush (by simpa using hsome) (by simpa using hfull) with hc | hc | hc
    · simp [hord.triggers hdrop] at hc
    · simp [(hprompt.stopped hflush).1] at hc
    · simp [hflush] at hc
  refine ⟨hidle, ?_⟩
  rw [maintain_idle hfull]
  refine hprompt.files.compactStep_none hprompt.healthy hidle.compactor
    (hprompt.merge.resolve_right ?_)
  -- nobody is left who could have been told of a run
  rintro (hcoming | hlook)
  · rcases hcoming with hc | hc | hc | hc
    · simp [hidle.flusher, Flusher.late] at hc
    · simp [hflush] at hc
    · simp [hord.announcing hdrop] at hc
    · simp [hmsgs] at hc
  · rcases hlook with hl | hl | hl | hl | hl | hl
    · simp [hcompact] at hl
    · simp [hcompact] at hl
    · simp [hord.loops hdrop] at hl
    · simp [hidle.compactor] at hl
    · simp [hidle.compactor, Compactor.choice] at hl
    · simp [looped] at hl

/-- The flush thread has flushed a write, and the handle is dropped. -/
theorem drop_leaves_no_work_flushed :
    ∃ x, Workers.Reached Stock.env "db" (Fits Stock.env) x ∧ x.failed = false ∧
      x.maintained = false ∧ x.dropping = .joined ∧ x.sys.db.sstables.length = 1 ∧
      DbInner.maintain Stock.env x.sys.db x.sys.w = (.ok false, x.sys.db, x.sys.w) := by
  have hrun : ((Workers.start Stock.env "db" { Options.default with memtableThreshold := 1 }).bind
      (Workers.execAll Stock.env
        (Workers.writeAndFlush [([1], some [2])] ++ Workers.dropMoves))).any
      (fun x => decide (x.failed = false ∧ x.maintained = false ∧ x.dropping = .joined ∧
        x.sys.db.sstables.length = 1)) = true := by
    decide +kernel
  obtain ⟨x, hreached, htest⟩ := Workers.execAll_any hrun
  obtain ⟨healthy, hlooped, hjoined, htables⟩ := of_decide_eq_true htest
  exact ⟨x, hreached, healthy, hlooped, hjoined, htables,
    (drop_leaves_no_work Stock.env "db" hreached healthy hlooped hjoined).2⟩

end LsmKv
