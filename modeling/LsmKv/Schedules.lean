import LsmKv.System

/-!
# Running a schedule

`System.exec` takes one step of a thread by evaluating its section, and
`System.execAll` a list of them, as long as every step is possible and what it
writes fits the formats.

**Results.**
* `System.exec_step`: what `exec` returns is a step.
* `System.execAll_steps`: a schedule that runs to its end is an interleaving.
-/

namespace LsmKv

open Foundation

theorem exists_of_any {α : Type} {o : Option α} {p : α → Bool} (h : o.any p = true) :
    ∃ a, o = some a ∧ p a = true := by
  cases o with
  | none => cases h
  | some a => exact ⟨a, rfl, h⟩

namespace System

/-- Run a section and go on from its result. -/
def after {α : Type} (s : System) (m : M DbInner α) (next : α → DbInner → World → System) :
    Option System :=
  match m s.db s.w with
  | (.ok a, db, w) => some (next a db w)
  | (.error _, _, _) => none

theorem after_eq_some {α : Type} {s s' : System} {m : M DbInner α}
    {next : α → DbInner → World → System} (h : s.after m next = some s') :
    ∃ a db w, m s.db s.w = (.ok a, db, w) ∧ s' = next a db w := by
  unfold after at h
  rcases hm : m s.db s.w with ⟨r, db, w⟩
  rw [hm] at h
  cases r with
  | error e => cases h
  | ok a =>
      cases h
      exact ⟨a, db, w, rfl, rfl⟩

/-- One step of a thread. -/
def exec (env : Env) (l : Label) (s : System) : Option System :=
  match l with
  | .number batch =>
      match batch, s.writer with
      | op :: ops, .free => s.after (DbInner.takeNumbers (op :: ops)) fun records db w =>
          { s with db := db, w := w, writer := .numbered records }
      | _, _ => none
  | .log =>
      match s.writer with
      | .numbered records => s.after (DbInner.logRecords env records) fun _ db w =>
          { s with db := db, w := w, writer := .logged records }
      | _ => none
  | .insert =>
      match s.writer with
      | .logged records => s.after (DbInner.insertRecords records) fun _ db w =>
          { s with db := db, w := w, writer := .free, written := s.written ++ [records] }
      | _ => none
  | .freeze =>
      match s.flusher, s.compactor.publishing with
      | .free, false =>
          match DbInner.freeze s.db s.w with
          | (.ok (some m), db, w) =>
              some
                { s with
                  db := db
                  w := w
                  flusher := .frozen m
                  frozenFrom := s.frozenAt
                  frozenAt := s.written.length }
          | _ => none
      | _, _ => none
  | .write =>
      match s.flusher with
      | .frozen m => s.after (do
            let id ← DbInner.takeSstId
            DbInner.writeTable env s.db.dir id m
            return id) fun id db w => { s with db := db, w := w, flusher := .written m id }
      | _ => none
  | .place =>
      match s.flusher with
      | .written m id => s.after (do
            DbInner.nameTable s.db.dir id
            DbInner.settleTable s.db.dir s.db.opts.bloomEnabled id) fun table db w =>
          { s with db := db, w := w, flusher := .placed m id table }
      | _ => none
  | .count =>
      match s.flusher with
      | .placed m id table => s.after DbInner.loadCounters fun counters db w =>
          { s with db := db, w := w, flusher := .counted m id table counters.1 counters.2 }
      | _ => none
  | .record =>
      match s.flusher with
      | .counted m id table nextSstId nextSeq =>
          s.after (DbInner.recordTable env id nextSstId nextSeq) fun _ db w =>
            { s with db := db, w := w, flusher := .recorded m id table }
      | _ => none
  | .publish =>
      match s.flusher with
      | .recorded m _ table => s.after (DbInner.publishTable table) fun _ db w =>
          { s with db := db, w := w, flusher := .published m, publishedAt := s.frozenAt }
      | _ => none
  | .relog =>
      match s.flusher, s.writer with
      | .published m, .free => s.after (DbInner.rewriteWal env) fun _ db w =>
          { s with db := db, w := w, flusher := .relogged m, loggedFrom := s.frozenAt }
      | _, _ => none
  | .clear =>
      match s.flusher with
      | .relogged _ => s.after DbInner.clearFrozen fun _ db w =>
          { s with db := db, w := w, flusher := .free }
      | _ => none
  | .list =>
      match s.compactor with
      | .free => s.after DbInner.listTables fun tables db w =>
          { s with db := db, w := w, compactor := .listed tables }
      | _ => none
  | .choose =>
      match s.compactor with
      | .listed tables =>
          match DbInner.chooseRun tables s.db s.w with
          | (.ok (some c), db, w) => some { s with db := db, w := w, compactor := .chosen c }
          | _ => none
      | _ => none
  | .abandon =>
      match s.compactor with
      | .listed tables =>
          match DbInner.chooseRun tables s.db s.w with
          | (.ok none, db, w) => some { s with db := db, w := w, compactor := .free }
          | _ => none
      | _ => none
  | .bound =>
      match s.compactor with
      | .chosen c => s.after DbInner.lowestHorizon fun minSeq db w =>
          { s with db := db, w := w, compactor := .bounded c minSeq }
      | _ => none
  | .merge =>
      match s.compactor with
      | .bounded c minSeq => s.after (DbInner.mergeRun env s.db.dir c minSeq) fun _ db w =>
          { s with db := db, w := w, compactor := .merged c minSeq }
      | _ => none
  | .name =>
      match s.compactor, s.flusher with
      | .merged c minSeq, .free => s.after (DbInner.nameTable s.db.dir c.maxId) fun _ db w =>
          { s with db := db, w := w, compactor := .named c minSeq }
      | _, _ => none
  | .finish =>
      match s.compactor with
      | .named c _ =>
          s.after (DbInner.finishCompaction env s.db.dir s.db.opts.bloomEnabled c.run c.maxId)
            fun _ db w =>
              { s with
                db := db
                w := w
                compactor := .free
                droppedAt := if c.dropTombstones then s.publishedAt else s.droppedAt }
      | _ => none
  | .load => s.after DbInner.loadHorizon fun horizon db w =>
      { s with db := db, w := w, loading := horizon :: s.loading }
  | .register horizon =>
      if horizon ∈ s.loading then
        s.after (DbInner.registerHorizon horizon) fun _ db w =>
          { s with
            db := db
            w := w
            loading := s.loading.erase horizon
            live := horizon :: s.live }
      else none
  | .drop horizon =>
      if horizon ∈ s.live then
        s.after (DbInner.dropSnapshot horizon) fun _ db w =>
          { s with db := db, w := w, live := s.live.erase horizon }
      else none
  | .reopen opts =>
      match s.writer, s.flusher, s.compactor, s.loading, s.live with
      | .free, .free, .free, [], [] =>
          match DbInner.close s.db s.w with
          | (.ok _, _, w) =>
              match (assemble env s.db.dir opts : M Unit DbInner) () w with
              | (.ok db, _, w) => some { s with db := db, w := w }
              | _ => none
          | _ => none
      | _, _, _, _, _ => none

/-- What `exec` returns is a step. -/
theorem exec_step {env : Env} {l : Label} {s s' : System} (h : exec env l s = some s') :
    Step env l s s' := by
  cases l with
  | log | insert | write | place | count | record | publish | clear | list | bound | merge
  | finish =>
      -- a section that starts from one stage of its thread
      simp only [exec] at h
      split at h
      · rename_i hstage
        obtain ⟨_, db, w, hrun, rfl⟩ := after_eq_some h
        constructor
        · exact hstage
        · exact hrun
      · cases h
  | relog | name =>
      simp only [exec] at h
      split at h
      · rename_i hstage hfree
        obtain ⟨_, db, w, hrun, rfl⟩ := after_eq_some h
        constructor
        · exact hstage
        · exact hfree
        · exact hrun
      · cases h
  | choose | abandon =>
      simp only [exec] at h
      split at h
      · rename_i hstage
        split at h
        · rename_i hrun
          cases h
          constructor
          · exact hstage
          · exact hrun
        · cases h
      · cases h
  | number batch =>
      simp only [exec] at h
      split at h
      · rename_i hfree
        obtain ⟨records, db, w, hrun, rfl⟩ := after_eq_some h
        exact .number _ (by simp) hfree hrun
      · cases h
  | freeze =>
      simp only [exec] at h
      split at h
      · rename_i hflusher hcompactor
        split at h
        · rename_i hrun
          cases h
          exact .freeze ⟨hflusher, hcompactor⟩ hrun
        · cases h
      · cases h
  | load =>
      simp only [exec] at h
      obtain ⟨_, db, w, hrun, rfl⟩ := after_eq_some h
      exact .load hrun
  | register horizon =>
      simp only [exec] at h
      split_ifs at h with hmem
      obtain ⟨_, db, w, hrun, rfl⟩ := after_eq_some h
      exact .register hmem hrun
  | drop horizon =>
      simp only [exec] at h
      split_ifs at h with hmem
      obtain ⟨_, db, w, hrun, rfl⟩ := after_eq_some h
      exact .drop hmem hrun
  | reopen opts =>
      simp only [exec] at h
      split at h
      · rename_i hwriter hflusher hcompactor hloading hlive
        split at h
        · rename_i hclosed
          split at h
          · rename_i hrun
            cases h
            exact .reopen opts hwriter hflusher hcompactor hloading hlive hclosed hrun
          · cases h
        · cases h
      · cases h

/-- Whether what a step writes fits the formats. -/
def fitting (env : Env) (l : Label) (s : System) : Bool :=
  match l with
  | .number batch => decide (s.db.nextSeq + batch.length ≤ u64Max)
  | .log => decide (BatchFits s.writer.pending)
  | .write => decide (s.db.nextSstId + 1 < 2 ^ 64) &&
      (match s.flusher with
        | .frozen m => decide (TableFits env m.iter)
        | _ => true)
  | .merge =>
      match s.compactor with
      | .bounded c minSeq =>
          match (M.collect (fun r : SsTableReader => r.iterAll env) (c.run.map SsTable.reader)
              s.db s.w).1 with
          | .ok inputs => decide (TableFits env (compactRecords inputs c.dropTombstones minSeq))
          | .error _ => true
      | _ => true
  | _ => true

theorem fits_of_fitting {env : Env} {l : Label} {s : System} (h : fitting env l s = true) :
    Fits env l s := by
  cases l with
  | number batch | log =>
      simp only [fitting, decide_eq_true_eq] at h
      exact h
  | write =>
      simp only [fitting, Bool.and_eq_true, decide_eq_true_eq] at h
      refine ⟨h.1, fun m hm => ?_⟩
      have := h.2
      rw [hm] at this
      exact of_decide_eq_true this
  | merge =>
      intro c minSeq inputs hstage hinputs
      simp only [fitting, hstage, hinputs] at h
      exact of_decide_eq_true h
  | _ => trivial

/-- A schedule, as long as it can be followed and its steps pass a test. -/
def execAll (env : Env) (test : Label → System → Bool) : List Label → System → Option System
  | [], s => some s
  | l :: ls, s =>
      if fitting env l s && test l s then (exec env l s).bind (execAll env test ls) else none

/-- A schedule that runs to its end is an interleaving. -/
theorem execAll_steps {env : Env} {test : Label → System → Bool} {ls : List Label}
    {s s' : System} (h : execAll env test ls s = some s') :
    Steps env (fun l s => Fits env l s ∧ test l s = true) s s' := by
  induction ls generalizing s with
  | nil =>
      cases h
      exact .refl
  | cons l ls ih =>
      unfold execAll at h
      split_ifs at h with hok
      obtain ⟨hfits, htest⟩ := Bool.and_eq_true_iff.mp hok
      obtain ⟨s₁, hs₁, hrest⟩ := Option.bind_eq_some_iff.mp h
      exact .head ⟨l, ⟨fits_of_fitting hfits, htest⟩, exec_step hs₁⟩ (ih hrest)

/-- The sections of one write. -/
def writeSteps (batch : WriteBatch) : List Label := [.number batch, .log, .insert]

/-- The sections of one flush. -/
def flushSteps : List Label :=
  [.freeze, .write, .place, .count, .record, .publish, .relog, .clear]

/-- The sections of one compaction, up to the flush lock. -/
def mergeSteps : List Label := [.list, .choose, .bound, .merge]

/-- A handle on an empty volume. -/
def start (env : Env) (dir : String) (opts : Options) : Option System :=
  match (assemble env dir opts : M Unit DbInner) () (World.start Volume.empty) with
  | (.ok db, _, w) => some (opened db w)
  | _ => none

/-- A schedule from an empty volume reaches where it ends. -/
theorem execAll_reached {env : Env} {dir : String} {opts : Options}
    {test : Label → System → Bool} {ls : List Label} {s : System}
    (h : (start env dir opts).bind (execAll env test ls) = some s) :
    Reached env dir (fun l s => Fits env l s ∧ test l s = true) s := by
  obtain ⟨s₀, hs₀, hrun⟩ := Option.bind_eq_some_iff.mp h
  unfold start at hs₀
  split at hs₀
  · rename_i db u w hopen
    cases hs₀
    exact ⟨opts, Volume.empty, db, w, ⟨Volume.sound_empty, fun _ _ => rfl⟩, hopen,
      execAll_steps hrun⟩
  · cases hs₀

/-- A schedule whose end passes a test reaches a state that passes it. -/
theorem execAll_any {env : Env} {dir : String} {opts : Options} {test : Label → System → Bool}
    {ls : List Label} {p : System → Bool}
    (h : ((start env dir opts).bind (execAll env test ls)).any p = true) :
    ∃ s, Reached env dir (fun l s => Fits env l s ∧ test l s = true) s ∧ p s = true := by
  obtain ⟨s, hs, hp⟩ := exists_of_any h
  exact ⟨s, execAll_reached hs, hp⟩

/-- The same for a schedule that goes on from there. -/
theorem execAll_any_later {env : Env} {dir : String} {opts : Options}
    {test test' : Label → System → Bool} {ls ls' : List Label} {p : System → System → Bool}
    (h : ((start env dir opts).bind (execAll env test ls)).any
      (fun s => (execAll env test' ls' s).any (p s)) = true) :
    ∃ s s', Reached env dir (fun l s => Fits env l s ∧ test l s = true) s ∧
      Steps env (fun l s => Fits env l s ∧ test' l s = true) s s' ∧ p s s' = true := by
  obtain ⟨s, hreached, hs⟩ := execAll_any h
  obtain ⟨s', hs', hp⟩ := exists_of_any hs
  exact ⟨s, s', hreached, execAll_steps hs', hp⟩

end System

theorem Reached.weaken {env : Env} {dir : String} {ok ok' : Label → System → Prop} {s : System}
    (h : Reached env dir ok s) (himp : ∀ l s, ok l s → ok' l s) : Reached env dir ok' s := by
  obtain ⟨opts, v, db, w, hfresh, hopen, hrun⟩ := h
  exact ⟨opts, v, db, w, hfresh, hopen, hrun.weaken himp⟩

end LsmKv
