import LsmKv.Foundation.Waiting
import LsmKv.Ledger
import LsmKv.Returned
import LsmKv.Schedules
import LsmKv.Stock

/-!
# No thread is ever stuck

The threads inside a handle wait for one another's locks: a flush that rewrites the log for the
writer that has the WAL lock, a compaction that publishes for the flush that has the flush lock.
This module says that they never wait in a circle, and that a section whose lock is free does
not fail.

**Results.**
* `Catalogue.chooseRun`: picking a run never fails, and says of the tables it is given whether
  there is one.
* `Files.takes_next`: whoever does not wait can take the next section.
* `threads_never_stuck`: so every thread inside waits, if at all, for one that can go on.
-/

namespace LsmKv

open Foundation Volume

/-- The threads that can be in the middle of a call. -/
inductive Thread
  | writer
  | flusher
  | compactor
  | snapshot
  deriving DecidableEq

/-- The sections that come next, one of which is taken. -/
def Thread.next (s : System) : Thread → List Label
  | .writer =>
      match s.writer with
      | .free => []
      | .numbered _ => [.log]
      | .logged _ => [.insert]
  | .flusher =>
      match s.flusher with
      | .free => []
      | .frozen _ => [.write]
      | .written _ _ => [.place]
      | .placed _ _ _ => [.count]
      | .counted _ _ _ _ _ => [.record]
      | .recorded _ _ _ => [.publish]
      | .published _ => [.relog]
      | .relogged _ => [.clear]
  | .compactor =>
      match s.compactor with
      | .free => []
      | .listed _ => [.choose, .abandon]
      | .chosen _ => [.bound]
      | .bounded _ _ => [.merge]
      | .merged _ _ => [.name]
      | .named _ _ => [.finish]
  | .snapshot => s.loading.map .register

/-- One thread needs a lock that another one holds. -/
inductive Waits (s : System) : Thread → Thread → Prop
  | relog {m : MemTable} (stage : s.flusher = .published m) (held : s.writer ≠ .free) :
      Waits s .flusher .writer
  | name {c : DbInner.Choice} {minSeq : Nat} (stage : s.compactor = .merged c minSeq)
      (held : s.flusher ≠ .free) : Waits s .compactor .flusher

/-- How many sections a write has left. -/
def Writer.left : Writer → Nat
  | .free => 0
  | .numbered _ => 2
  | .logged _ => 1

/-- How many sections a flush has left. -/
def Flusher.left : Flusher → Nat
  | .free => 0
  | .frozen _ => 7
  | .written _ _ => 6
  | .placed _ _ _ => 5
  | .counted _ _ _ _ _ => 4
  | .recorded _ _ _ => 3
  | .published _ => 2
  | .relogged _ => 1

/-- How many sections a compaction has left at most. -/
def Compactor.left : Compactor → Nat
  | .free => 0
  | .listed _ => 5
  | .chosen _ => 4
  | .bounded _ _ => 3
  | .merged _ _ => 2
  | .named _ _ => 1

/-- How many sections the threads inside have left at most. -/
def System.left (s : System) : Nat :=
  s.writer.left + s.flusher.left + s.compactor.left + s.loading.length

section Next

variable {env : Env} {s s' : System} {held : Held} {l : Label} {t : Thread}

/-- A section of a thread inside is one less for all of them. -/
theorem Step.left_lt (h : Step env l s s') (hnext : l ∈ t.next s) : s'.left < s.left := by
  cases h with
  | log stage run => simp [System.left, stage, Writer.left]
  | insert stage run => simp [System.left, stage, Writer.left]
  | write stage run => simp [System.left, stage, Flusher.left]
  | place stage run => simp [System.left, stage, Flusher.left]
  | count stage run => simp [System.left, stage, Flusher.left]
  | record stage run => simp [System.left, stage, Flusher.left]
  | publish stage run => simp [System.left, stage, Flusher.left]
  | relog stage free run => simp [System.left, stage, Flusher.left]
  | clear stage run => simp [System.left, stage, Flusher.left]
  | choose stage run => simp [System.left, stage, Compactor.left]
  | abandon stage run => simp [System.left, stage, Compactor.left]
  | bound stage run => simp [System.left, stage, Compactor.left]
  | merge stage run => simp [System.left, stage, Compactor.left]
  | name stage free run => simp [System.left, stage, Compactor.left]
  | finish stage run => simp [System.left, stage, Compactor.left]
  | register loaded run =>
      have hlen := List.length_erase_of_mem loaded
      have hpos := List.length_pos_of_mem loaded
      simp only [System.left, hlen]
      omega
  | number | freeze | list | load | drop | reopen =>
      exfalso
      cases t with
      | writer => cases hw : s.writer <;> simp [Thread.next, hw] at hnext
      | flusher => cases hf : s.flusher <;> simp [Thread.next, hf] at hnext
      | compactor => cases hc : s.compactor <;> simp [Thread.next, hc] at hnext
      | snapshot => simp [Thread.next] at hnext

/-- The sizes of tables that nobody replaces. -/
theorem collect_size_read {σ : Type} {a : σ} {w : World} {dir : String} {bloomEnabled : Bool}
    {sstables : List SsTable} {tables : List (Nat × List Record)}
    (h : TablesRead env dir bloomEnabled w.vol sstables tables)
    (hfiles : ∀ t ∈ tables, ∃ i,
      w.vol.Bound (sstPath dir t.1) i (tableBytes env t.2) (tableBytes env t.2).length) :
    M.collect (fun t : SsTable => Fs.size t.reader.path) sstables a w =
      (.ok (tables.map (fun t => (tableBytes env t.2).length)), a, w) := by
  induction h with
  | nil => rfl
  | cons hth _ ih =>
      obtain ⟨_, rfl, _⟩ := hth
      obtain ⟨i, hb⟩ := hfiles _ List.mem_cons_self
      have hsize := Fs.size_some (s := a) hb.name
      rw [hb.inode] at hsize
      rw [M.collect_cons, M.bind_ok (show Fs.size (SsTableReader.path _) a w = _ from hsize),
        M.bind_ok (ih fun t ht => hfiles t (List.mem_cons_of_mem _ ht))]
      rfl

/-- Picking a run among the first tables finds one if one qualifies. -/
theorem Catalogue.chooseRun (h : Catalogue env s held) {ts rest : List SsTable}
    (hsst : s.db.sstables = ts ++ rest) (hkept : s.compactor.replaced = none) :
    ∃ T B, held.tables = T ++ B ∧ T.length = ts.length ∧
      (DbInner.chooseRun ts s.db s.w = (.ok none, s.db, s.w) ∧
          pickHeld env T s.db.opts.compactionThreshold = none ∨
        ∃ c, DbInner.chooseRun ts s.db s.w = (.ok (some c), s.db, s.w) ∧
          pickHeld env T s.db.opts.compactionThreshold ≠ none) := by
  have hread := h.read
  rw [hsst] at hread
  obtain ⟨T, B, htables, hlen', hT, _⟩ := hread.parts
  have hlen : T.length = ts.length := hlen'.symm
  have hfiles : ∀ t ∈ T, ∃ i, s.w.vol.Bound (sstPath s.db.dir t.1) i (tableBytes env t.2)
      (tableBytes env t.2).length := fun t ht =>
    h.files t (by rw [htables]; exact List.mem_append_left _ ht) (by simp [hkept])
  have hpick : (pickCompaction ts s.db.opts.compactionThreshold :
      M DbInner (Option (Nat × Nat))) s.db s.w =
        (.ok (pickHeld env T s.db.opts.compactionThreshold), s.db, s.w) := by
    unfold pickCompaction pickHeld
    rw [hlen]
    split_ifs
    · rfl
    · rw [M.bind_ok (collect_size_read hT hfiles)]
      rfl
  refine ⟨T, B, htables, hlen, ?_⟩
  unfold DbInner.chooseRun
  rw [M.bind_ok (M.self_apply _ _), M.bind_ok hpick]
  cases hheld : pickHeld env T s.db.opts.compactionThreshold with
  | none => exact Or.inl ⟨rfl, rfl⟩
  | some ab =>
      obtain ⟨a, b⟩ := ab
      obtain ⟨hab, hb, _⟩ := pickHeld_bounds hheld
      have hrun : ((ts.take b).drop a).length = b - a := by
        rw [List.length_drop, List.length_take]
        omega
      refine Or.inr ?_
      dsimp only
      obtain ⟨first, hfirst⟩ := exists_head? (l := (ts.take b).drop a) (by omega)
      obtain ⟨last, hlast⟩ := exists_getLast? (l := (ts.take b).drop a) (by omega)
      obtain ⟨oldest, holdest⟩ := exists_head? (l := ts) (by omega)
      rw [hfirst, hlast, holdest]
      exact ⟨_, rfl, by simp⟩

/-- A thread that waits for nobody can take one of the sections that come next. -/
theorem Files.takes_next (h : Files env s held) (hin : t.next s ≠ [])
    (hgo : ∀ u, ¬ Waits s t u) : ∃ l ∈ t.next s, Fits env l s → ∃ s', Step env l s s' := by
  cases t with
  | writer =>
      cases hw : s.writer with
      | free => simp [Thread.next, hw] at hin
      | numbered records =>
          refine ⟨.log, by simp [Thread.next, hw], fun hfits => ?_⟩
          have hfit : BatchFits s.writer.pending := hfits
          rw [hw] at hfit
          obtain ⟨w', hrun, _⟩ := h.afterLog (h.numbered _ hw) hfit
          exact ⟨_, .log hw hrun⟩
      | logged records => exact ⟨.insert, by simp [Thread.next, hw], fun _ => ⟨_, .insert hw rfl⟩⟩
  | flusher =>
      cases hf : s.flusher with
      | free => simp [Thread.next, hf] at hin
      | frozen m =>
          refine ⟨.write, by simp [Thread.next, hf], fun hfits => ?_⟩
          obtain ⟨w', hrun, _⟩ := h.afterWrite hf hfits.1 (hfits.2 m hf)
          exact ⟨_, .write hf hrun⟩
      | written m id =>
          obtain ⟨w', table, hrun, _⟩ := h.afterPlace hf
          exact ⟨.place, by simp [Thread.next, hf], fun _ => ⟨_, .place hf hrun⟩⟩
      | placed m id table =>
          exact ⟨.count, by simp [Thread.next, hf], fun _ => ⟨_, .count hf rfl⟩⟩
      | counted m id table a b =>
          obtain ⟨w', hrun, _⟩ := h.afterRecord hf
          exact ⟨.record, by simp [Thread.next, hf], fun _ => ⟨_, .record hf hrun⟩⟩
      | recorded m id table =>
          exact ⟨.publish, by simp [Thread.next, hf], fun _ => ⟨_, .publish hf rfl⟩⟩
      | published m =>
          have hfree : s.writer = .free := by
            by_contra hheld
            exact hgo _ (.relog hf hheld)
          obtain ⟨w', wal, i, hrun, _⟩ := h.afterRelog hf
          exact ⟨.relog, by simp [Thread.next, hf], fun _ => ⟨_, .relog hf hfree hrun⟩⟩
      | relogged m => exact ⟨.clear, by simp [Thread.next, hf], fun _ => ⟨_, .clear hf rfl⟩⟩
  | compactor =>
      cases hc : s.compactor with
      | free => simp [Thread.next, hc] at hin
      | listed ts =>
          have hback := h.compactor
          rw [hc] at hback
          obtain ⟨rest, hsst⟩ := hback
          obtain ⟨_, _, _, _, ⟨hrun, _⟩ | ⟨c, hrun, _⟩⟩ := h.chooseRun hsst
            (by simp [hc, Compactor.replaced])
          · exact ⟨.abandon, by simp [Thread.next, hc], fun _ => ⟨_, .abandon hc hrun⟩⟩
          · exact ⟨.choose, by simp [Thread.next, hc], fun _ => ⟨_, .choose hc hrun⟩⟩
      | chosen c => exact ⟨.bound, by simp [Thread.next, hc], fun _ => ⟨_, .bound hc rfl⟩⟩
      | bounded c minSeq =>
          refine ⟨.merge, by simp [Thread.next, hc], fun hfits => ?_⟩
          obtain ⟨w', hrun, _⟩ := h.afterMerge hc fun inputs => hfits _ _ inputs hc
          exact ⟨_, .merge hc hrun⟩
      | merged c minSeq =>
          have hfree : s.flusher = .free := by
            by_contra hheld
            exact hgo _ (.name hc hheld)
          obtain ⟨w', hrun, _⟩ := h.afterName hc hfree
          exact ⟨.name, by simp [Thread.next, hc], fun _ => ⟨_, .name hc hfree hrun⟩⟩
      | named c minSeq =>
          obtain ⟨w', sstables, front, stale, last, back, hrun, _⟩ := h.afterFinish hc
          exact ⟨.finish, by simp [Thread.next, hc], fun _ => ⟨_, .finish hc hrun⟩⟩
  | snapshot =>
      obtain ⟨horizon, hload⟩ := List.exists_mem_of_ne_nil s.loading
        (by simpa [Thread.next] using hin)
      exact ⟨.register horizon, List.mem_map_of_mem hload, fun _ => ⟨_, .register hload rfl⟩⟩

/-- In which order threads wait. -/
def Thread.rank : Thread → Nat
  | .writer => 0
  | .flusher => 1
  | .compactor => 2
  | .snapshot => 0

theorem Waits.rank_lt {u : Thread} (h : Waits s t u) : u.rank < t.rank := by
  cases h <;> decide

/-- Whoever is waited for is in the middle of a call. -/
theorem Waits.inside {u : Thread} (h : Waits s t u) : u.next s ≠ [] := by
  cases h with
  | relog stage held =>
      cases hw : s.writer with
      | free => exact absurd hw held
      | numbered records => simp [Thread.next, hw]
      | logged records => simp [Thread.next, hw]
  | name stage held =>
      cases hf : s.flusher with
      | free => exact absurd hf held
      | _ => simp [Thread.next, hf]

end Next

/-- In every state that writers, flushes, compactions and snapshots reach in any interleaving, a
thread in the middle of a call waits, if at all, along a chain of locks for a thread that can
take its next section now: the section, if what it writes fits the formats, succeeds, and
leaves fewer sections to do. -/
theorem threads_never_stuck (env : Env) (dir : String) {s : System}
    (h : Reached env dir (Fits env) s) {t : Thread} (inside : t.next s ≠ []) :
    ∃ u l, Relation.ReflTransGen (Waits s) t u ∧ l ∈ u.next s ∧
      (Fits env l s → ∃ s', Step env l s s' ∧ s'.left < s.left) := by
  obtain ⟨held, hfiles, _⟩ := h.ledger (fun _ _ h => h)
  have hrank : ∀ a b, Waits s a b → b.rank < a.rank := fun _ _ hw => hw.rank_lt
  obtain ⟨u, hchain, hgo⟩ := exists_not_waiting hrank t
  have hin : u.next s ≠ [] := by
    rcases hchain.cases_tail with rfl | ⟨_, _, hlast⟩
    · exact inside
    · exact hlast.inside
  obtain ⟨l, hl, hstep⟩ := hfiles.takes_next hin hgo
  refine ⟨u, l, hchain, hl, fun hfits => ?_⟩
  obtain ⟨s', hs'⟩ := hstep hfits
  exact ⟨s', hs', hs'.left_lt hl⟩

/-- A compaction that waits for a flush that waits for a writer. -/
theorem threads_never_stuck_chain :
    ∃ s, Reached Stock.env "db" (Fits Stock.env) s ∧ Thread.compactor.next s = [.name] ∧
      Thread.flusher.next s = [.relog] ∧ Thread.writer.next s = [.log] ∧
      ∃ u l, Relation.ReflTransGen (Waits s) .compactor u ∧ l ∈ u.next s ∧
        (Fits Stock.env l s → ∃ s', Step Stock.env l s s' ∧ s'.left < s.left) := by
  have hrun : ((System.start Stock.env "db" { Options.default with compactionThreshold := 2 }).bind
      (System.execAll Stock.env (fun _ _ => true)
        (System.writeSteps [([1], some [2])] ++ System.flushSteps ++
          System.writeSteps [([3], some [4])] ++ System.flushSteps ++ System.mergeSteps ++
          System.writeSteps [([5], some [6])] ++ System.flushSteps.take 6 ++
          [.number [([7], none)]]))).any (fun s =>
      decide (Thread.compactor.next s = [.name] ∧ Thread.flusher.next s = [.relog] ∧
        Thread.writer.next s = [.log])) = true := by
    decide +kernel
  obtain ⟨s, hreached, htest⟩ := System.execAll_any hrun
  obtain ⟨hcompactor, hflusher, hwriter⟩ := of_decide_eq_true htest
  have h : Reached Stock.env "db" (Fits Stock.env) s := hreached.weaken fun _ _ h => h.1
  exact ⟨s, h, hcompactor, hflusher, hwriter,
    threads_never_stuck Stock.env "db" h (by rw [hcompactor]; simp)⟩

end LsmKv
