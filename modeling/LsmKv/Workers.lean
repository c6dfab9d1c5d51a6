import LsmKv.FlushFailures
import LsmKv.Progress

/-!
# The background threads

Under `Maintenance::Threads` a handle has a flush thread and a compaction thread, each at the
end of a channel.  A write that finds the MemTable full sends `Task::Flush`, a flush that has
published its table sends `CompactMsg::Run`, and `Workers::drop` sends each thread a `Shutdown`
and joins it.  Any number of callers are at work meanwhile.

`Workers` is a handle with these threads, its channels and its callers.  A turn is a move of a
background thread or of `Workers::drop`; a call is a move of a caller.  A filesystem call of a
flush or of a compaction may fail.

**Results.**
* `Workers.Ordered`: who has which lock, and what is in the channels, at every stage of a drop.
* `Workers.Run.ordered`, `Workers.Served.ordered`: it holds in every state of a run.
-/

namespace LsmKv

open Foundation Volume

/-- `db::Task`. -/
inductive Task
  | flush
  | shutdown
  deriving DecidableEq

/-- `compactor::CompactMsg`. -/
inductive CompactMsg
  | run
  | shutdown
  deriving DecidableEq

/-- How far `worker_loop` has come. -/
inductive FlushThread
  | waiting
  /-- It has taken a task, and its `flush_inner` is past `health`. -/
  | called
  /-- The flush under way is its own. -/
  | flushing
  /-- The flush is done, and the compaction thread not told yet. -/
  | announcing
  /-- The flush has failed with an error that is not latched yet. -/
  | failing (e : Error)
  | stopped

/-- How far `compaction_loop` has come. -/
inductive CompactThread
  | waiting
  /-- It has taken a message, and is between two steps. -/
  | looping
  /-- Its `compact_step` is past `health`. -/
  | called
  /-- The compaction under way is its own. -/
  | stepping
  | failing (e : Error)
  | stopped

/-- How far `Workers::drop` has come. -/
inductive Dropping
  | running
  /-- The flush thread is told to shut down. -/
  | flushTold
  /-- It is joined, and the compaction thread told. -/
  | compactTold
  | joined
  deriving DecidableEq

/-- A handle with its background threads, their channels and its callers. -/
structure Workers where
  sys : System
  /-- Writes that have found the MemTable full and have not sent `Task::Flush` yet. -/
  triggers : Nat
  tasks : List Task
  flushThread : FlushThread
  /-- Flushes of callers that are done and have not sent `CompactMsg::Run` yet. -/
  announcing : Nat
  msgs : List CompactMsg
  compactThread : CompactThread
  /-- Callers of `Db::flush` between two steps of its compaction loop. -/
  loops : Nat
  /-- Errors of callers that are not latched yet. -/
  errors : List Error
  /-- Whether a call of `Db::maintain` has merged tables. -/
  maintained : Bool
  /-- Whether a flush or a compaction has failed. -/
  failed : Bool
  dropping : Dropping

/-- The handle as `Db::open_on` returns it. -/
def Workers.started (s : System) : Workers :=
  ⟨s, 0, [], .waiting, 0, [], .waiting, 0, [], false, false, .running⟩

/-- The sections of a write up to its insert, and those of a snapshot up to its return. -/
def Label.inCall : Label → Bool
  | .number _ | .log | .load | .register _ => true
  | _ => false

theorem Label.opens_of_inCall {l : Label} (h : l.inCall = true) : l.opens = false := by
  cases l <;> first | rfl | cases h

/-- An error is latched. -/
def System.latched (s : System) (e : Error) : System :=
  { s with db := ((DbInner.latch e : M DbInner Unit) s.db s.w).2.1 }

/-- A move of a background thread, or of `Workers::drop` while it waits for them. -/
inductive Workers.Turn (env : Env) (ok : Label → System → Prop) : Workers → Workers → Prop
  | takeFlush {x : Workers} {ts : List Task} {db : DbInner} {w : World}
      (waiting : x.flushThread = .waiting) (queue : x.tasks = .flush :: ts)
      (healthy : DbInner.health x.sys.db x.sys.w = (.ok (), db, w)) :
      Turn env ok x { x with tasks := ts, flushThread := .called }
  /-- `flush_inner` finds the handle poisoned, and the loop ends. -/
  | refuseFlush {x : Workers} {ts : List Task} {e : Error} {db : DbInner} {w : World}
      (waiting : x.flushThread = .waiting) (queue : x.tasks = .flush :: ts)
      (poisoned : DbInner.health x.sys.db x.sys.w = (.error e, db, w)) :
      Turn env ok x { x with tasks := ts, flushThread := .stopped }
  | stopFlush {x : Workers} {ts : List Task} (waiting : x.flushThread = .waiting)
      (queue : x.tasks = .shutdown :: ts) :
      Turn env ok x { x with tasks := ts, flushThread := .stopped }
  | freeze {x : Workers} {s : System} (called : x.flushThread = .called)
      (fits : ok .freeze x.sys) (step : Step env .freeze x.sys s) :
      Turn env ok x { x with sys := s, flushThread := .flushing }
  /-- There is nothing to flush. -/
  | pass {x : Workers} {db : DbInner} {w : World} (called : x.flushThread = .called)
      (free : x.sys.flushLockFree)
      (run : DbInner.freeze x.sys.db x.sys.w = (.ok none, db, w)) :
      Turn env ok x { x with flushThread := .waiting }
  | flush {x : Workers} {s : System} {l : Label} (own : x.flushThread = .flushing)
      (inner : l.inFlush = true) (fits : ok l x.sys) (step : Step env l x.sys s) :
      Turn env ok x { x with sys := s }
  | clear {x : Workers} {s : System} (own : x.flushThread = .flushing)
      (fits : ok .clear x.sys) (step : Step env .clear x.sys s) :
      Turn env ok x { x with sys := s, flushThread := .announcing }
  | announce {x : Workers} (done : x.flushThread = .announcing) :
      Turn env ok x { x with msgs := x.msgs ++ [.run], flushThread := .waiting }
  | failFlush {x : Workers} {l : Label} {e : Error} {db : DbInner} {w : World}
      (own : x.flushThread = .flushing) (inner : l.inFlush = true)
      (fails : Fails env e l x.sys db) :
      Turn env ok x
        { x with sys := x.sys.gaveUp l db w, flushThread := .failing e, failed := true }
  | latchFlush {x : Workers} {e : Error} (failing : x.flushThread = .failing e) :
      Turn env ok x { x with sys := x.sys.latched e, flushThread := .stopped }
  | takeRun {x : Workers} {ms : List CompactMsg} (waiting : x.compactThread = .waiting)
      (queue : x.msgs = .run :: ms) :
      Turn env ok x { x with msgs := ms, compactThread := .looping }
  | stopCompact {x : Workers} {ms : List CompactMsg} (waiting : x.compactThread = .waiting)
      (queue : x.msgs = .shutdown :: ms) :
      Turn env ok x { x with msgs := ms, compactThread := .stopped }
  | enter {x : Workers} {db : DbInner} {w : World} (looping : x.compactThread = .looping)
      (healthy : DbInner.health x.sys.db x.sys.w = (.ok (), db, w)) :
      Turn env ok x { x with compactThread := .called }
  /-- `compact_step` finds the handle poisoned, and the inner loop ends. -/
  | refuseStep {x : Workers} {e : Error} {db : DbInner} {w : World}
      (looping : x.compactThread = .looping)
      (poisoned : DbInner.health x.sys.db x.sys.w = (.error e, db, w)) :
      Turn env ok x { x with compactThread := .waiting }
  | list {x : Workers} {s : System} (called : x.compactThread = .called)
      (fits : ok .list x.sys) (step : Step env .list x.sys s) :
      Turn env ok x { x with sys := s, compactThread := .stepping }
  | compact {x : Workers} {s : System} {l : Label} (own : x.compactThread = .stepping)
      (inner : l.inCompaction = true) (fits : ok l x.sys) (step : Step env l x.sys s) :
      Turn env ok x { x with sys := s }
  /-- No run qualifies, and the inner loop ends. -/
  | abandon {x : Workers} {s : System} (own : x.compactThread = .stepping)
      (fits : ok .abandon x.sys) (step : Step env .abandon x.sys s) :
      Turn env ok x { x with sys := s, compactThread := .waiting }
  | finish {x : Workers} {s : System} (own : x.compactThread = .stepping)
      (fits : ok .finish x.sys) (step : Step env .finish x.sys s) :
      Turn env ok x { x with sys := s, compactThread := .looping }
  | failCompaction {x : Workers} {l : Label} {e : Error} {db : DbInner} {w : World}
      (own : x.compactThread = .stepping) (inner : l.inFlush = false)
      (fails : Fails env e l x.sys db) :
      Turn env ok x
        { x with sys := x.sys.gaveUp l db w, compactThread := .failing e, failed := true }
  | latchCompaction {x : Workers} {e : Error} (failing : x.compactThread = .failing e) :
      Turn env ok x { x with sys := x.sys.latched e, compactThread := .waiting }
  | joinFlush {x : Workers} (told : x.dropping = .flushTold)
      (stopped : x.flushThread = .stopped) :
      Turn env ok x { x with msgs := x.msgs ++ [.shutdown], dropping := .compactTold }
  | joinCompact {x : Workers} (told : x.dropping = .compactTold)
      (stopped : x.compactThread = .stopped) : Turn env ok x { x with dropping := .joined }

/-- No caller is in the middle of a call: what is under way belongs to a background thread. -/
structure Workers.Alone (x : Workers) : Prop where
  writer : x.sys.writer = .free
  loading : x.sys.loading = []
  triggers : x.triggers = 0
  announcing : x.announcing = 0
  loops : x.loops = 0
  errors : x.errors = []
  flusher : x.flushThread ≠ .flushing → x.sys.flusher = .free
  compactor : x.compactThread ≠ .stepping → x.sys.compactor = .free

/-- A move of a caller.  The handle can be dropped once no caller is in the middle of a call;
after that only snapshots are left to be dropped. -/
inductive Workers.Call (env : Env) (ok : Label → System → Prop) : Workers → Workers → Prop
  | go {x : Workers} {s : System} {l : Label} (running : x.dropping = .running)
      (inner : l.inCall = true) (fits : ok l x.sys) (step : Step env l x.sys s) :
      Call env ok x { x with sys := s }
  | insert {x : Workers} {s : System} (running : x.dropping = .running)
      (fits : ok .insert x.sys) (step : Step env .insert x.sys s) :
      Call env ok x
        { x with
          sys := s
          triggers := if s.db.active.isFull then x.triggers + 1 else x.triggers }
  /-- The log refuses the batch, and the write returns the error. -/
  | refuse {x : Workers} {s : System} (running : x.dropping = .running)
      (refuses : Refuses env x.sys s) : Call env ok x { x with sys := s }
  | trigger {x : Workers} {n : Nat} (running : x.dropping = .running)
      (full : x.triggers = n + 1) :
      Call env ok x { x with triggers := n, tasks := x.tasks ++ [.flush] }
  | freeze {x : Workers} {s : System} (running : x.dropping = .running)
      (fits : ok .freeze x.sys) (step : Step env .freeze x.sys s) :
      Call env ok x { x with sys := s }
  | flush {x : Workers} {s : System} {l : Label} (running : x.dropping = .running)
      (own : x.flushThread ≠ .flushing) (inner : l.inFlush = true) (fits : ok l x.sys)
      (step : Step env l x.sys s) : Call env ok x { x with sys := s }
  | clear {x : Workers} {s : System} (running : x.dropping = .running)
      (own : x.flushThread ≠ .flushing) (fits : ok .clear x.sys)
      (step : Step env .clear x.sys s) :
      Call env ok x { x with sys := s, announcing := x.announcing + 1 }
  | announce {x : Workers} {n : Nat} (running : x.dropping = .running)
      (done : x.announcing = n + 1) :
      Call env ok x { x with announcing := n, msgs := x.msgs ++ [.run] }
  | failFlush {x : Workers} {l : Label} {e : Error} {db : DbInner} {w : World}
      (running : x.dropping = .running) (own : x.flushThread ≠ .flushing)
      (inner : l.inFlush = true) (fails : Fails env e l x.sys db) :
      Call env ok x
        { x with sys := x.sys.gaveUp l db w, errors := e :: x.errors, failed := true }
  /-- `Db::flush` goes on to its compaction loop. -/
  | enter {x : Workers} (running : x.dropping = .running) :
      Call env ok x { x with loops := x.loops + 1 }
  | list {x : Workers} {s : System} {n : Nat} (running : x.dropping = .running)
      (inside : x.loops = n + 1) (fits : ok .list x.sys) (step : Step env .list x.sys s) :
      Call env ok x { x with sys := s, loops := n }
  /-- `Db::maintain` takes a compaction step. -/
  | listOnce {x : Workers} {s : System} (running : x.dropping = .running)
      (fits : ok .list x.sys) (step : Step env .list x.sys s) :
      Call env ok x { x with sys := s }
  | compact {x : Workers} {s : System} {l : Label} (running : x.dropping = .running)
      (own : x.compactThread ≠ .stepping) (inner : l.inCompaction = true) (fits : ok l x.sys)
      (step : Step env l x.sys s) : Call env ok x { x with sys := s }
  | abandon {x : Workers} {s : System} (running : x.dropping = .running)
      (own : x.compactThread ≠ .stepping) (fits : ok .abandon x.sys)
      (step : Step env .abandon x.sys s) : Call env ok x { x with sys := s }
  | finish {x : Workers} {s : System} (running : x.dropping = .running)
      (own : x.compactThread ≠ .stepping) (fits : ok .finish x.sys)
      (step : Step env .finish x.sys s) :
      Call env ok x { x with sys := s, loops := x.loops + 1 }
  | finishOnce {x : Workers} {s : System} (running : x.dropping = .running)
      (own : x.compactThread ≠ .stepping) (fits : ok .finish x.sys)
      (step : Step env .finish x.sys s) :
      Call env ok x { x with sys := s, maintained := true }
  | failCompaction {x : Workers} {l : Label} {e : Error} {db : DbInner} {w : World}
      (running : x.dropping = .running) (own : x.compactThread ≠ .stepping)
      (inner : l.inFlush = false) (fails : Fails env e l x.sys db) :
      Call env ok x
        { x with sys := x.sys.gaveUp l db w, errors := e :: x.errors, failed := true }
  | latch {x : Workers} {e : Error} (running : x.dropping = .running) (failed : e ∈ x.errors) :
      Call env ok x { x with sys := x.sys.latched e, errors := x.errors.erase e }
  | dropSnapshot {x : Workers} {s : System} {horizon : Nat} (fits : ok (.drop horizon) x.sys)
      (step : Step env (.drop horizon) x.sys s) : Call env ok x { x with sys := s }
  /-- `Workers::drop` begins. -/
  | drop {x : Workers} (running : x.dropping = .running) (alone : x.Alone) :
      Call env ok x { x with tasks := x.tasks ++ [.shutdown], dropping := .flushTold }

/-- Moves of any kind, one after another. -/
def Workers.Run (env : Env) (ok : Label → System → Prop) : Workers → Workers → Prop :=
  Relation.ReflTransGen (fun x y => Workers.Turn env ok x y ∨ Workers.Call env ok x y)

/-- The states of a handle with background threads that nobody was inside when they were
started. -/
def Workers.Served (env : Env) (ok : Label → System → Prop) (x : Workers) : Prop :=
  ∃ s, s.Idle ∧ s.loading = [] ∧ Workers.Run env ok (Workers.started s) x

section Sections

variable {env : Env} {s s' : System} {l : Label} {e : Error}

/-- A section of a flush under way concerns the flush alone. -/
theorem Step.inFlush_stages (h : Step env l s s') (hl : l.inFlush = true) :
    s.flusher ≠ .free ∧ s'.flusher ≠ .free ∧ s'.writer = s.writer ∧
      s'.compactor = s.compactor ∧ s'.loading = s.loading := by
  cases h with
  | write stage | place stage | count stage | record stage | publish stage =>
      simp [stage]
  | relog stage free => simp [stage]
  | _ => cases hl

/-- A section of a compaction under way concerns the compaction alone. -/
theorem Step.inCompaction_stages (h : Step env l s s') (hl : l.inCompaction = true) :
    s.compactor ≠ .free ∧ s'.compactor ≠ .free ∧ s'.writer = s.writer ∧
      s'.flusher = s.flusher ∧ s'.loading = s.loading := by
  cases h with
  | choose stage | bound stage | merge stage => simp [stage]
  | name stage free => simp [stage]
  | _ => cases hl

theorem Step.inCall_stages (h : Step env l s s') (hl : l.inCall = true) :
    s'.flusher = s.flusher ∧ s'.compactor = s.compactor := by
  cases h with
  | number | log | load | register => exact ⟨rfl, rfl⟩
  | _ => cases hl

end Sections

/-- Who has which lock and what is in the channels, at every stage of a drop. -/
structure Workers.Ordered (x : Workers) : Prop where
  flushing : x.flushThread = .flushing → x.sys.flusher ≠ .free
  stepping : x.compactThread = .stepping → x.sys.compactor ≠ .free
  writer : x.dropping ≠ .running → x.sys.writer = .free
  loading : x.dropping ≠ .running → x.sys.loading = []
  triggers : x.dropping ≠ .running → x.triggers = 0
  announcing : x.dropping ≠ .running → x.announcing = 0
  loops : x.dropping ≠ .running → x.loops = 0
  errors : x.dropping ≠ .running → x.errors = []
  flusher : x.dropping ≠ .running → x.flushThread ≠ .flushing → x.sys.flusher = .free
  compactor : x.dropping ≠ .running → x.compactThread ≠ .stepping → x.sys.compactor = .free
  tasks : x.dropping = .running → .shutdown ∉ x.tasks
  closing : x.dropping ≠ .running → x.flushThread = .stopped ∨ EndsIn .shutdown x.tasks
  msgs : x.dropping = .running ∨ x.dropping = .flushTold →
    .shutdown ∉ x.msgs ∧ x.compactThread ≠ .stopped
  closed : x.dropping = .compactTold ∨ x.dropping = .joined → x.flushThread = .stopped ∧
    (x.compactThread = .stopped ∧ x.msgs = [] ∨
      x.compactThread ≠ .stopped ∧ EndsIn .shutdown x.msgs)
  joined : x.dropping = .joined → x.compactThread = .stopped

section Order

variable {env : Env} {ok : Label → System → Prop} {x y : Workers} {s : System}

theorem Workers.Ordered.started (hwriter : s.writer = .free) (hloading : s.loading = []) :
    (Workers.started s).Ordered where
  flushing := nofun
  stepping := nofun
  writer _ := hwriter
  loading _ := hloading
  triggers _ := rfl
  announcing _ := rfl
  loops _ := rfl
  errors _ := rfl
  flusher h := absurd rfl h
  compactor h := absurd rfl h
  tasks _ := by simp [Workers.started]
  closing h := absurd rfl h
  msgs _ := by simp [Workers.started]
  closed h := by simp [Workers.started] at h
  joined := nofun

/-- A move that touches no channel and stops no thread: whoever holds a lock after it may. -/
theorem Workers.Ordered.act (h : x.Ordered) {f : FlushThread} {c : CompactThread}
    (hf : f = .stopped ↔ x.flushThread = .stopped)
    (hc : c = .stopped ↔ x.compactThread = .stopped)
    (hflushing : f = .flushing → s.flusher ≠ .free)
    (hstepping : c = .stepping → s.compactor ≠ .free)
    (hdrop : x.dropping ≠ .running → s.writer = .free ∧ s.loading = [] ∧
      (f ≠ .flushing → s.flusher = .free) ∧ (c ≠ .stepping → s.compactor = .free)) :
    { x with sys := s, flushThread := f, compactThread := c }.Ordered :=
  { h with
    flushing := hflushing
    stepping := hstepping
    writer := fun hd => (hdrop hd).1
    loading := fun hd => (hdrop hd).2.1
    flusher := fun hd => (hdrop hd).2.2.1
    compactor := fun hd => (hdrop hd).2.2.2
    closing := fun hd => (h.closing hd).imp_left hf.mpr
    msgs := fun hd => ⟨(h.msgs hd).1, fun hs => (h.msgs hd).2 (hc.mp hs)⟩
    closed := fun hd => ⟨hf.mpr (h.closed hd).1,
      (h.closed hd).2.imp (fun hs => ⟨hc.mpr hs.1, hs.2⟩) fun hs => ⟨mt hc.mp hs.1, hs.2⟩⟩
    joined := fun hd => hc.mpr (h.joined hd) }

/-- A move of the flush thread. -/
theorem Workers.Ordered.actFlush (h : x.Ordered) {f : FlushThread}
    (hold : x.flushThread ≠ .stopped) (hf : f ≠ .stopped)
    (hflushing : f = .flushing ↔ s.flusher ≠ .free) (hw : s.writer = x.sys.writer)
    (hc : s.compactor = x.sys.compactor) (hload : s.loading = x.sys.loading) :
    { x with sys := s, flushThread := f }.Ordered :=
  h.act (by simp [hold, hf]) Iff.rfl hflushing.mp (by rw [hc]; exact h.stepping) fun hd =>
    ⟨hw.trans (h.writer hd), hload.trans (h.loading hd),
      fun hne => not_not.mp fun hin => hne (hflushing.mpr hin), by rw [hc]; exact h.compactor hd⟩

/-- A move of the compaction thread. -/
theorem Workers.Ordered.actCompact (h : x.Ordered) {c : CompactThread}
    (hold : x.compactThread ≠ .stopped) (hc : c ≠ .stopped)
    (hstepping : c = .stepping → s.compactor ≠ .free)
    (hout : x.dropping ≠ .running → c ≠ .stepping → s.compactor = .free)
    (hw : s.writer = x.sys.writer) (hf : s.flusher = x.sys.flusher)
    (hload : s.loading = x.sys.loading) :
    { x with sys := s, compactThread := c }.Ordered :=
  h.act Iff.rfl (by simp [hold, hc]) (by rw [hf]; exact h.flushing) hstepping fun hd =>
    ⟨hw.trans (h.writer hd), hload.trans (h.loading hd), by rw [hf]; exact h.flusher hd,
      hout hd⟩

theorem Workers.Ordered.inFlush {l : Label} (h : x.Ordered) (hl : l.inFlush = true)
    (hstep : Step env l x.sys s) : { x with sys := s }.Ordered := by
  obtain ⟨hin, hin', hw, hc, hload⟩ := hstep.inFlush_stages hl
  exact h.act Iff.rfl Iff.rfl (fun _ => hin') (by rw [hc]; exact h.stepping) fun hd =>
    ⟨hw.trans (h.writer hd), hload.trans (h.loading hd),
      fun hf => absurd (h.flusher hd hf) hin, by rw [hc]; exact h.compactor hd⟩

theorem Workers.Ordered.inCompaction {l : Label} (h : x.Ordered) (hl : l.inCompaction = true)
    (hstep : Step env l x.sys s) : { x with sys := s }.Ordered := by
  obtain ⟨hin, hin', hw, hf, hload⟩ := hstep.inCompaction_stages hl
  exact h.act Iff.rfl Iff.rfl (by rw [hf]; exact h.flushing) (fun _ => hin') fun hd =>
    ⟨hw.trans (h.writer hd), hload.trans (h.loading hd), by rw [hf]; exact h.flusher hd,
      fun hc => absurd (h.compactor hd hc) hin⟩

/-- The flush thread stops. -/
theorem Workers.Ordered.stopFlush (h : x.Ordered) (hin : x.flushThread ≠ .flushing)
    {ts : List Task} (hts : ∀ t ∈ ts, t ∈ x.tasks) :
    { x with tasks := ts, flushThread := .stopped }.Ordered :=
  { h with
    flushing := nofun
    flusher := fun hd _ => h.flusher hd hin
    tasks := fun hd hmem => h.tasks hd (hts _ hmem)
    closing := fun _ => Or.inl rfl
    closed := fun hd => ⟨rfl, (h.closed hd).2⟩ }

/-- The compaction thread is told of a table. -/
theorem Workers.Ordered.announce (h : x.Ordered)
    (hearly : x.dropping = .running ∨ x.flushThread ≠ .stopped) :
    { x with msgs := x.msgs ++ [CompactMsg.run] }.Ordered :=
  { h with
    msgs := fun hd => ⟨by simp [(h.msgs hd).1], (h.msgs hd).2⟩
    closed := fun hd => by
      rcases hearly with hrun | hf
      · simp [hrun] at hd
      · exact absurd (h.closed hd).1 hf }

/-- `Workers::drop` goes on. -/
theorem Workers.Ordered.join (h : x.Ordered) (hdrop : x.dropping ≠ .running) {d : Dropping}
    {ms : List CompactMsg} (hd : d = .compactTold ∨ d = .joined)
    (hclosed : x.flushThread = .stopped ∧ (x.compactThread = .stopped ∧ ms = [] ∨
      x.compactThread ≠ .stopped ∧ EndsIn .shutdown ms))
    (hjoined : d = .joined → x.compactThread = .stopped) :
    { x with msgs := ms, dropping := d }.Ordered :=
  { h with
    writer := fun _ => h.writer hdrop
    loading := fun _ => h.loading hdrop
    triggers := fun _ => h.triggers hdrop
    announcing := fun _ => h.announcing hdrop
    loops := fun _ => h.loops hdrop
    errors := fun _ => h.errors hdrop
    flusher := fun _ => h.flusher hdrop
    compactor := fun _ => h.compactor hdrop
    tasks := by
      rintro rfl
      simp at hd
    closing := fun _ => h.closing hdrop
    msgs := by
      rintro (rfl | rfl)
      · simp at hd
      · simp at hd
    closed := fun _ => hclosed
    joined := hjoined }

theorem Workers.Ordered.turn (h : x.Ordered) (hturn : Workers.Turn env ok x y) : y.Ordered := by
  cases hturn with
  | takeFlush waiting queue healthy =>
      have hin : x.flushThread ≠ .flushing := by simp [waiting]
      have hrun : x.flushThread ≠ .stopped := by simp [waiting]
      exact
        { h with
          flushing := nofun
          flusher := fun hd _ => h.flusher hd hin
          tasks := fun hd hmem => h.tasks hd (by simp [queue, hmem])
          closing := fun hd => Or.inr
            (((queue ▸ h.closing hd).resolve_left hrun).tail (by simp))
          closed := fun hd => absurd (h.closed hd).1 hrun }
  | refuseFlush waiting queue poisoned =>
      exact h.stopFlush (by simp [waiting]) fun t ht => by simp [queue, ht]
  | stopFlush waiting queue =>
      exact h.stopFlush (by simp [waiting]) fun t ht => by simp [queue, ht]
  | freeze called fits step =>
      cases step with
      | freeze free run =>
          exact h.actFlush (by simp [called]) (by simp) (by simp) rfl rfl rfl
  | pass called free run =>
      exact h.actFlush (by simp [called]) (by simp) (by simp [free.1]) rfl rfl rfl
  | flush own inner fits step => exact h.inFlush inner step
  | clear own fits step =>
      cases step with
      | clear stage run => exact h.actFlush (by simp [own]) (by simp) (by simp) rfl rfl rfl
  | announce done =>
      have hin : x.flushThread ≠ .flushing := by simp [done]
      exact (h.announce (Or.inr (by simp [done]))).act (by simp [done]) Iff.rfl nofun h.stepping
        fun hd => ⟨h.writer hd, h.loading hd, fun _ => h.flusher hd hin, h.compactor hd⟩
  | failFlush own inner fails =>
      obtain ⟨_, hfree, hc⟩ := fails.flush_stages inner _
      exact { h.actFlush (f := .failing _) (by simp [own]) (by simp) (by simp [hfree])
        (System.gaveUp_writer ..) hc (System.gaveUp_loading ..) with }
  | latchFlush failing =>
      exact { h.stopFlush (by simp [failing]) fun t ht => ht with }
  | takeRun waiting queue =>
      have hin : x.compactThread ≠ .stepping := by simp [waiting]
      have hrun : x.compactThread ≠ .stopped := by simp [waiting]
      exact
        { h with
          stepping := nofun
          compactor := fun hd _ => h.compactor hd hin
          msgs := fun hd => ⟨fun hmem => (h.msgs hd).1 (by simp [queue, hmem]), nofun⟩
          closed := fun hd => ⟨(h.closed hd).1, Or.inr ⟨nofun,
            ((queue ▸ (h.closed hd).2).resolve_left fun hs => hrun hs.1).2.tail (by simp)⟩⟩
          joined := fun hd => absurd (h.joined hd) hrun }
  | stopCompact waiting queue =>
      have hin : x.compactThread ≠ .stepping := by simp [waiting]
      have hrun : x.compactThread ≠ .stopped := by simp [waiting]
      exact
        { h with
          stepping := nofun
          compactor := fun hd _ => h.compactor hd hin
          msgs := fun hd => absurd (by simp [queue]) (h.msgs hd).1
          closed := fun hd => ⟨(h.closed hd).1, Or.inl ⟨rfl,
            ((queue ▸ (h.closed hd).2).resolve_left fun hs => hrun hs.1).2.eq_nil⟩⟩
          joined := fun _ => rfl }
  | enter looping healthy =>
      exact h.actCompact (by simp [looping]) (by simp) nofun
        (fun hd _ => h.compactor hd (by simp [looping])) rfl rfl rfl
  | refuseStep looping poisoned =>
      exact h.actCompact (by simp [looping]) (by simp) nofun
        (fun hd _ => h.compactor hd (by simp [looping])) rfl rfl rfl
  | list called fits step =>
      cases step with
      | list free run =>
          exact h.actCompact (by simp [called]) (by simp) (by simp) (by simp) rfl rfl rfl
  | compact own inner fits step => exact h.inCompaction inner step
  | abandon own fits step =>
      cases step with
      | abandon stage run =>
          exact h.actCompact (by simp [own]) (by simp) (by simp) (by simp) rfl rfl rfl
  | finish own fits step =>
      cases step with
      | finish stage run =>
          exact h.actCompact (by simp [own]) (by simp) (by simp) (by simp) rfl rfl rfl
  | failCompaction own inner fails =>
      obtain ⟨_, hfree, hf⟩ := fails.merge_stages inner _
      exact { h.actCompact (c := .failing _) (by simp [own]) (by simp) (by simp)
        (fun _ _ => hfree) (System.gaveUp_writer ..) hf (System.gaveUp_loading ..) with }
  | latchCompaction failing =>
      exact h.actCompact (by simp [failing]) (by simp) nofun
        (fun hd _ => h.compactor hd (by simp [failing])) rfl rfl rfl
  | joinFlush told stopped =>
      obtain ⟨hmsgs, hrun⟩ := h.msgs (Or.inr told)
      exact h.join (by simp [told]) (by simp) ⟨stopped, Or.inr ⟨hrun, .close hmsgs⟩⟩ nofun
  | joinCompact told stopped =>
      exact h.join (by simp [told]) (by simp) (h.closed (Or.inl told)) fun _ => stopped

/-- While the handle is in use, callers may hold any lock a background thread does not. -/
theorem Workers.Ordered.busy (h : x.Ordered) (hrun : x.dropping = .running)
    (hflusher : x.flushThread = .flushing → s.flusher ≠ .free)
    (hcompactor : x.compactThread = .stepping → s.compactor ≠ .free) :
    { x with sys := s }.Ordered :=
  h.act Iff.rfl Iff.rfl hflusher hcompactor fun hd => absurd hrun hd

theorem Workers.Ordered.call (h : x.Ordered) (hcall : Workers.Call env ok x y) : y.Ordered := by
  cases hcall with
  | go running inner fits step =>
      obtain ⟨hf, hc⟩ := step.inCall_stages inner
      exact h.busy running (by rw [hf]; exact h.flushing) (by rw [hc]; exact h.stepping)
  | insert running fits step =>
      cases step with
      | insert stage run =>
          exact
            { h.busy (s := { x.sys with db := _, w := _, writer := .free, written := _ })
                running h.flushing h.stepping with
              triggers := fun hd => absurd running hd }
  | refuse running refuses =>
      cases refuses with
      | mk stage run => exact h.busy running h.flushing h.stepping
  | trigger running full =>
      exact
        { h with
          triggers := fun hd => absurd running hd
          tasks := fun hd => by simp [h.tasks hd]
          closing := fun hd => absurd running hd }
  | freeze running fits step =>
      cases step with
      | freeze free run => exact h.busy running (fun _ => by simp) h.stepping
  | flush running own inner fits step => exact h.inFlush inner step
  | clear running own fits step =>
      cases step with
      | clear stage run =>
          exact { h.busy (s := { x.sys with db := _, w := _, flusher := .free }) running
            (fun hf => absurd hf own) h.stepping with announcing := fun hd => absurd running hd }
  | announce running done =>
      exact { h.announce (Or.inl running) with announcing := fun hd => absurd running hd }
  | failFlush running own inner fails =>
      obtain ⟨_, _, hc⟩ := fails.flush_stages inner _
      exact { h.busy running (fun hf => absurd hf own) (by rw [hc]; exact h.stepping) with
        errors := fun hd => absurd running hd }
  | enter running => exact { h with loops := fun hd => absurd running hd }
  | list running inside fits step =>
      cases step with
      | list free run =>
          exact { h.busy (s := { x.sys with db := _, w := _, compactor := .listed _ }) running
            h.flushing (fun _ => by simp) with loops := fun hd => absurd running hd }
  | listOnce running fits step =>
      cases step with
      | list free run => exact h.busy running h.flushing fun _ => by simp
  | compact running own inner fits step => exact h.inCompaction inner step
  | abandon running own fits step =>
      cases step with
      | abandon stage run => exact h.busy running h.flushing fun hc => absurd hc own
  | finish running own fits step =>
      cases step with
      | finish stage run =>
          exact { h.busy (s := { x.sys with db := _, w := _, compactor := .free, droppedAt := _ })
            running h.flushing (fun hc => absurd hc own) with
              loops := fun hd => absurd running hd }
  | finishOnce running own fits step =>
      cases step with
      | finish stage run =>
          exact { h.busy (s := { x.sys with db := _, w := _, compactor := .free, droppedAt := _ })
            running h.flushing (fun hc => absurd hc own) with }
  | failCompaction running own inner fails =>
      obtain ⟨_, _, hf⟩ := fails.merge_stages inner _
      exact { h.busy running (by rw [hf]; exact h.flushing) (fun hc => absurd hc own) with
        errors := fun hd => absurd running hd }
  | latch running failed =>
      exact { h.busy (s := x.sys.latched _) running h.flushing h.stepping with
        errors := fun hd => absurd running hd }
  | dropSnapshot fits step =>
      cases step with
      | drop alive run =>
          exact h.act Iff.rfl Iff.rfl h.flushing h.stepping fun hd =>
            ⟨h.writer hd, h.loading hd, h.flusher hd, h.compactor hd⟩
  | drop running alone =>
      exact
        { h with
          writer := fun _ => alone.writer
          loading := fun _ => alone.loading
          triggers := fun _ => alone.triggers
          announcing := fun _ => alone.announcing
          loops := fun _ => alone.loops
          errors := fun _ => alone.errors
          flusher := fun _ => alone.flusher
          compactor := fun _ => alone.compactor
          tasks := nofun
          closing := fun _ => Or.inr (.close (h.tasks running))
          msgs := fun _ => h.msgs (Or.inl running)
          closed := by simp
          joined := nofun }

/-- The order is kept by every run. -/
theorem Workers.Run.ordered (hrun : Workers.Run env ok x y) (h : x.Ordered) : y.Ordered := by
  induction hrun with
  | refl => exact h
  | tail _ hlast ih =>
      rcases hlast with hturn | hcall
      · exact ih.turn hturn
      · exact ih.call hcall

theorem Workers.Served.ordered (h : Workers.Served env ok x) : x.Ordered := by
  obtain ⟨s, hidle, hloading, hrun⟩ := h
  exact hrun.ordered (.started hidle.writer hloading)

end Order

section Schedules

/-- A move of a schedule in which nothing fails and callers only write. -/
inductive Workers.Move
  | write (l : Label)
  | insert
  | trigger
  | takeTask
  | freeze
  | flush (l : Label)
  | clear
  | announce
  | takeMsg
  | enter
  | list
  | abandon
  | drop
  | join

variable {env : Env} {x y : Workers}

/-- Run a section, if what it writes fits the formats. -/
def Workers.after (env : Env) (x : Workers) (l : Label) (next : System → Workers) :
    Option Workers :=
  if System.fitting env l x.sys then (System.exec env l x.sys).map next else none

theorem Workers.after_eq_some {l : Label} {next : System → Workers}
    (h : x.after env l next = some y) :
    ∃ s, Fits env l x.sys ∧ Step env l x.sys s ∧ y = next s := by
  unfold Workers.after at h
  split_ifs at h with hfits
  obtain ⟨s, hs, rfl⟩ := Option.map_eq_some_iff.mp h
  exact ⟨s, System.fits_of_fitting hfits, System.exec_step hs, rfl⟩

/-- One move, by evaluating its section. -/
def Workers.exec (env : Env) (x : Workers) : Workers.Move → Option Workers
  | .write l =>
      match x.dropping, l.inCall with
      | .running, true => x.after env l fun s => { x with sys := s }
      | _, _ => none
  | .insert =>
      match x.dropping with
      | .running => x.after env .insert fun s =>
          { x with
            sys := s
            triggers := if s.db.active.isFull then x.triggers + 1 else x.triggers }
      | _ => none
  | .trigger =>
      match x.dropping, x.triggers with
      | .running, n + 1 => some { x with triggers := n, tasks := x.tasks ++ [.flush] }
      | _, _ => none
  | .takeTask =>
      match x.flushThread, x.tasks, DbInner.health x.sys.db x.sys.w with
      | .waiting, .flush :: ts, (.ok (), _, _) =>
          some { x with tasks := ts, flushThread := .called }
      | .waiting, .shutdown :: ts, _ => some { x with tasks := ts, flushThread := .stopped }
      | _, _, _ => none
  | .freeze =>
      match x.flushThread with
      | .called => x.after env .freeze fun s => { x with sys := s, flushThread := .flushing }
      | _ => none
  | .flush l =>
      match x.flushThread, l.inFlush with
      | .flushing, true => x.after env l fun s => { x with sys := s }
      | _, _ => none
  | .clear =>
      match x.flushThread with
      | .flushing => x.after env .clear fun s => { x with sys := s, flushThread := .announcing }
      | _ => none
  | .announce =>
      match x.flushThread with
      | .announcing => some { x with msgs := x.msgs ++ [.run], flushThread := .waiting }
      | _ => none
  | .takeMsg =>
      match x.compactThread, x.msgs with
      | .waiting, .run :: ms => some { x with msgs := ms, compactThread := .looping }
      | .waiting, .shutdown :: ms => some { x with msgs := ms, compactThread := .stopped }
      | _, _ => none
  | .enter =>
      match x.compactThread, DbInner.health x.sys.db x.sys.w with
      | .looping, (.ok (), _, _) => some { x with compactThread := .called }
      | _, _ => none
  | .list =>
      match x.compactThread with
      | .called => x.after env .list fun s => { x with sys := s, compactThread := .stepping }
      | _ => none
  | .abandon =>
      match x.compactThread with
      | .stepping => x.after env .abandon fun s => { x with sys := s, compactThread := .waiting }
      | _ => none
  | .drop =>
      match x.dropping, x.sys.writer, x.sys.flusher, x.sys.compactor, x.sys.loading, x.errors with
      | .running, .free, .free, .free, [], [] =>
          if x.triggers = 0 ∧ x.announcing = 0 ∧ x.loops = 0 then
            some { x with tasks := x.tasks ++ [.shutdown], dropping := .flushTold }
          else none
      | _, _, _, _, _, _ => none
  | .join =>
      match x.dropping, x.flushThread, x.compactThread with
      | .flushTold, .stopped, _ =>
          some { x with msgs := x.msgs ++ [.shutdown], dropping := .compactTold }
      | .compactTold, _, .stopped => some { x with dropping := .joined }
      | _, _, _ => none

theorem Workers.exec_move {m : Workers.Move} (h : x.exec env m = some y) :
    Workers.Turn env (Fits env) x y ∨ Workers.Call env (Fits env) x y := by
  cases m with
  | write l =>
      simp only [Workers.exec] at h
      split at h
      · rename_i running inner
        obtain ⟨s, fits, step, rfl⟩ := Workers.after_eq_some h
        exact Or.inr (.go running inner fits step)
      · cases h
  | insert =>
      simp only [Workers.exec] at h
      split at h
      · rename_i running
        obtain ⟨s, fits, step, rfl⟩ := Workers.after_eq_some h
        exact Or.inr (.insert running fits step)
      · cases h
  | trigger =>
      simp only [Workers.exec] at h
      split at h
      · rename_i running full
        cases h
        exact Or.inr (.trigger running full)
      · cases h
  | takeTask =>
      simp only [Workers.exec] at h
      split at h
      · rename_i waiting queue healthy
        cases h
        exact Or.inl (.takeFlush waiting queue healthy)
      · rename_i waiting queue
        cases h
        exact Or.inl (.stopFlush waiting queue)
      · cases h
  | freeze =>
      simp only [Workers.exec] at h
      split at h
      · rename_i called
        obtain ⟨s, fits, step, rfl⟩ := Workers.after_eq_some h
        exact Or.inl (.freeze called fits step)
      · cases h
  | flush l =>
      simp only [Workers.exec] at h
      split at h
      · rename_i own inner
        obtain ⟨s, fits, step, rfl⟩ := Workers.after_eq_some h
        exact Or.inl (.flush own inner fits step)
      · cases h
  | clear =>
      simp only [Workers.exec] at h
      split at h
      · rename_i own
        obtain ⟨s, fits, step, rfl⟩ := Workers.after_eq_some h
        exact Or.inl (.clear own fits step)
      · cases h
  | announce =>
      simp only [Workers.exec] at h
      split at h
      · rename_i done
        cases h
        exact Or.inl (.announce done)
      · cases h
  | takeMsg =>
      simp only [Workers.exec] at h
      split at h
      · rename_i waiting queue
        cases h
        exact Or.inl (.takeRun waiting queue)
      · rename_i waiting queue
        cases h
        exact Or.inl (.stopCompact waiting queue)
      · cases h
  | enter =>
      simp only [Workers.exec] at h
      split at h
      · rename_i looping healthy
        cases h
        exact Or.inl (.enter looping healthy)
      · cases h
  | list =>
      simp only [Workers.exec] at h
      split at h
      · rename_i called
        obtain ⟨s, fits, step, rfl⟩ := Workers.after_eq_some h
        exact Or.inl (.list called fits step)
      · cases h
  | abandon =>
      simp only [Workers.exec] at h
      split at h
      · rename_i own
        obtain ⟨s, fits, step, rfl⟩ := Workers.after_eq_some h
        exact Or.inl (.abandon own fits step)
      · cases h
  | drop =>
      simp only [Workers.exec] at h
      split at h
      · rename_i running writer flusher compactor loading errors
        split_ifs at h with hnone
        cases h
        exact Or.inr (.drop running ⟨writer, loading, hnone.1, hnone.2.1, hnone.2.2, errors,
          fun _ => flusher, fun _ => compactor⟩)
      · cases h
  | join =>
      simp only [Workers.exec] at h
      split at h
      · rename_i told stopped
        cases h
        exact Or.inl (.joinFlush told stopped)
      · rename_i told stopped
        cases h
        exact Or.inl (.joinCompact told stopped)
      · cases h

/-- Moves one after another. -/
def Workers.execAll (env : Env) : List Workers.Move → Workers → Option Workers
  | [], x => some x
  | m :: ms, x => (x.exec env m).bind (Workers.execAll env ms)

theorem Workers.execAll_run {ms : List Workers.Move} (h : Workers.execAll env ms x = some y) :
    Workers.Run env (Fits env) x y := by
  induction ms generalizing x with
  | nil =>
      cases h
      exact .refl
  | cons m ms ih =>
      obtain ⟨z, hz, hrest⟩ := Option.bind_eq_some_iff.mp h
      exact .head (Workers.exec_move hz) (ih hrest)

/-- A write that fills the MemTable, and its flush by the flush thread. -/
def Workers.writeAndFlush (batch : WriteBatch) : List Workers.Move :=
  [.write (.number batch), .write .log, .insert, .trigger, .takeTask, .freeze, .flush .write,
    .flush .place, .flush .count, .flush .record, .flush .publish, .flush .relog, .clear,
    .announce]

/-- `Workers::drop`, with one message left for the compaction thread. -/
def Workers.dropMoves : List Workers.Move :=
  [.drop, .takeTask, .join, .takeMsg, .enter, .list, .abandon, .takeMsg, .join]

end Schedules

end LsmKv
