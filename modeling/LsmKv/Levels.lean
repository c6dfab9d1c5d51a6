import LsmKv.Ledger
import LsmKv.Schedules
import LsmKv.Stock

/-!
# The order of the levels

A lookup stops at the first level that answers, and a merge decides by sequence
number.  Both rest on the order proved here, which holds between any two sections
of any interleaving.

**Results.**
* `levels_ordered`: sequence numbers rise from the oldest table to the active
  MemTable, and no two records of a key share one.
* `live_set_agrees`: while nobody holds the flush lock, the table list, the manifest
  and the directory agree, and a compaction replaces the run it picked.
-/

namespace LsmKv

open Foundation Volume Versioning

/-- Every sequence number of `a` is below every one of `b`. -/
def Older (a b : List Record) : Prop := ∀ r ∈ a, ∀ r' ∈ b, r.seq < r'.seq

instance (a b : List Record) : Decidable (Older a b) :=
  inferInstanceAs (Decidable (∀ r ∈ a, ∀ r' ∈ b, r.seq < r'.seq))

/-- The records of the live tables, oldest table first. -/
def System.tableRuns (env : Env) (s : System) : Except Error (List (List Record)) :=
  (M.collect (fun r : SsTableReader => r.iterAll env) (s.db.sstables.map SsTable.reader)
    s.db s.w).1

/-- The levels of a system over the records of its tables. -/
def System.levels (s : System) (runs : List (List Record)) : List (List Record) :=
  runs ++ (s.db.frozen.map MemTable.iter).toList ++ [s.db.active.iter]

/-- What the manifest on the volume says. -/
def System.manifestState (env : Env) (s : System) : Except Error ManifestState :=
  ((do
    let generation ← Manifest.readCurrent s.db.dir
    Manifest.replay env (manifestPath s.db.dir generation)) s.db s.w).1

/-- The records a live table reads. -/
def System.tableRecords (env : Env) (s : System) (t : SsTable) : Except Error (List Record) :=
  (t.reader.iterAll env s.db s.w).1

/-- The records in the file of a table, opened anew. -/
def System.fileRecords (env : Env) (s : System) (id : Nat) : Except Error (List Record) :=
  ((do
    let reader ← SsTableReader.openTable (sstPath s.db.dir id) s.db.opts.bloomEnabled
    reader.iterAll env) s.db s.w).1

section Levels

variable {env : Env} {s : System} {held : Held}

theorem Files.tableRuns (h : Files env s held) :
    s.tableRuns env = .ok (held.tables.map Prod.snd) := by
  unfold System.tableRuns
  rw [collect_iterAll h.quiet h.read h.fit]

theorem Ledger.frozen_iter (hfiles : Files env s held) (h : Ledger s held) {m : MemTable}
    (hm : s.db.frozen = some m) :
    ofList m.iter = ofList (span s.written s.frozenFrom s.frozenAt) :=
  h.traced.slot m (hfiles.slot.symm.trans hm)

/-- Every record of a level was written. -/
theorem Ledger.mem_written (hfiles : Files env s held) (h : Ledger s held) {a : List Record}
    (ha : a ∈ s.levels (held.tables.map Prod.snd)) {r : Record} (hr : r ∈ a) :
    r ∈ s.written.flatten := by
  unfold System.levels at ha
  rcases List.mem_append.mp ha with ha | ha
  · rcases List.mem_append.mp ha with ha | ha
    · exact mem_span (h.tables_subset ⟨a, ha, hr⟩)
    · rw [Option.mem_toList, Option.map_eq_some_iff] at ha
      obtain ⟨m, hm, rfl⟩ := ha
      have hmem : r ∈ ofList m.iter := hr
      rw [h.frozen_iter hfiles hm] at hmem
      exact mem_span hmem
  · rw [List.mem_singleton.mp ha] at hr
    have hmem : r ∈ ofList s.db.active.iter := hr
    rw [h.active] at hmem
    exact mem_span hmem

/-- In every interleaving sequence numbers order the levels: the tables from oldest
to newest, the frozen MemTable above them until its own table is published, the
active MemTable above all, and the next number above everything; and no two records
of one key that were ever numbered share a sequence number. -/
theorem levels_ordered (env : Env) (dir : String) {s : System}
    (h : Reached env dir (Fits env) s) :
    ∃ runs, s.tableRuns env = .ok runs ∧
      runs.Pairwise Older ∧
      (∀ a ∈ runs, Older a s.db.active.iter) ∧
      (∀ m, s.db.frozen = some m → Older m.iter s.db.active.iter ∧
        (s.flusher.unpublished = true → ∀ a ∈ runs, Older a m.iter)) ∧
      (∀ a ∈ s.levels runs, ∀ r ∈ a, r.seq < s.db.nextSeq ∧ r ∈ s.written.flatten) ∧
      ∀ r ∈ s.written.flatten ++ s.writer.pending,
        ∀ r' ∈ s.written.flatten ++ s.writer.pending,
          r.key = r'.key → r.seq = r'.seq → r = r' := by
  obtain ⟨held, hfiles, hledger⟩ := h.ledger fun _ _ h => h
  have hrising := hledger.written_rising
  have htable : ∀ a ∈ held.tables.map Prod.snd, ∀ r ∈ a,
      r ∈ span s.written 0 s.publishedAt := fun a ha r hr =>
    hledger.tables_subset ⟨a, ha, hr⟩
  have hactive : ∀ r ∈ s.db.active.iter, r ∈ span s.written s.frozenAt s.written.length := by
    intro r hr
    have hmem : r ∈ ofList s.db.active.iter := hr
    rwa [hledger.active] at hmem
  refine ⟨_, hfiles.tableRuns, ?_, ?_, ?_, ?_, hledger.rising.onePerSeq⟩
  · rw [List.pairwise_map]
    exact hledger.levels
  · intro a ha r hr r' hr'
    exact hrising.spans hledger.publishedAt_le (htable a ha r hr) (hactive r' hr')
  · intro m hm
    have hfrozen : ∀ r ∈ m.iter, r ∈ span s.written s.frozenFrom s.frozenAt := by
      intro r hr
      have hmem : r ∈ ofList m.iter := hr
      rwa [hledger.frozen_iter hfiles hm] at hmem
    refine ⟨fun r hr r' hr' => hrising.spans le_rfl (hfrozen r hr) (hactive r' hr'), ?_⟩
    intro hunpub a ha r hr r' hr'
    have hpub := hledger.traced.published
    rw [if_pos hunpub] at hpub
    exact hrising.spans (le_of_eq hpub) (htable a ha r hr) (hfrozen r' hr')
  · intro a ha r hr
    have hmem := hledger.mem_written hfiles ha hr
    exact ⟨hledger.below r (List.mem_append_left _ hmem), hmem⟩

/-- Two tables are live, and a writer has its number while a flush freezes: the tables are in
order, and below the frozen record, which is below the one that is inserted behind it. -/
theorem levels_ordered_straddling :
    ∃ s, Reached Stock.env "db" (Fits Stock.env) s ∧
      (s.db.sstables.map SsTable.id = [0, 1] ∧
        s.db.frozen.map MemTable.iter = some [Record.put [1] [4] 2] ∧
        s.db.active.iter = [Record.put [1] [5] 3]) ∧
      ∃ runs, s.tableRuns Stock.env = .ok runs ∧ runs.length = 2 ∧ runs.Pairwise Older ∧
        ∀ a ∈ runs, Older a [Record.put [1] [4] 2] := by
  have hrun : ((System.start Stock.env "db" Options.default).bind
      (System.execAll Stock.env (fun _ _ => true)
        (System.writeSteps [([1], some [2])] ++ System.flushSteps ++
          System.writeSteps [([1], some [3])] ++ System.flushSteps ++
          System.writeSteps [([1], some [4])] ++
          [.number [([1], some [5])], .freeze, .log, .insert]))).any (fun s =>
            s.flusher.unpublished && decide (s.db.sstables.map SsTable.id = [0, 1] ∧
              s.db.frozen.map MemTable.iter = some [Record.put [1] [4] 2] ∧
              s.db.active.iter = [Record.put [1] [5] 3] ∧
              (s.tableRuns Stock.env).toOption.map List.length = some 2)) = true := by
    decide +kernel
  obtain ⟨s, hrun, htest⟩ := System.execAll_any hrun
  have hreached := hrun.weaken fun _ _ h => h.1
  obtain ⟨hunpub, hlevels⟩ := Bool.and_eq_true_iff.mp htest
  obtain ⟨hids, hfrozen, hactive, hlen⟩ := of_decide_eq_true hlevels
  obtain ⟨m, hm, hiter⟩ := Option.map_eq_some_iff.mp hfrozen
  obtain ⟨runs, hruns, hordered, _, hslot, _⟩ := levels_ordered Stock.env "db" hreached
  rw [hruns] at hlen
  refine ⟨s, hreached, ⟨hids, hfrozen, hactive⟩, runs, hruns, Option.some.inj hlen, hordered, ?_⟩
  rw [← hiter]
  exact (hslot m hm).2 hunpub

theorem Files.manifestState (h : Files env s held) :
    s.manifestState env = .ok (applyAll held.edits) := by
  obtain ⟨g, i, hman⟩ := h.manifest
  obtain ⟨⟨⟨c, hcurrent⟩, _⟩, hfile⟩ := hman.live
  unfold System.manifestState
  rw [M.bind_ok (Manifest.readCurrent_quiet h.quiet hman.generation hcurrent),
    Manifest.replay_quiet env h.quiet hfile, replayManifest_manifestBytes hman.fits]

theorem TablesRead.exists_entry {dir : String} {bloomEnabled : Bool} {v : Volume Path}
    {sstables : List SsTable} {tables : List (Nat × List Record)}
    (h : TablesRead env dir bloomEnabled v sstables tables) {t : SsTable} (ht : t ∈ sstables) :
    ∃ e ∈ tables, ∃ i, t = ⟨e.1, readerOf env (sstPath dir e.1) i bloomEnabled e.2⟩ ∧
      (v.inodes i).bytes = tableBytes env e.2 := by
  induction h with
  | nil => cases ht
  | cons hhead _ ih =>
      rcases List.mem_cons.mp ht with rfl | ht
      · obtain ⟨i, heq, _, hi⟩ := hhead
        exact ⟨_, List.mem_cons_self, i, heq, by rw [hi]⟩
      · obtain ⟨e, he, hrest⟩ := ih ht
        exact ⟨e, List.mem_cons_of_mem _ he, hrest⟩

/-- A live table and the file of its id hold the same records, unless a compaction is
just replacing the file. -/
theorem Files.table_file (h : Files env s held) (hfree : s.compactor.replaced = none)
    {t : SsTable} (ht : t ∈ s.db.sstables) :
    ∃ records, s.tableRecords env t = .ok records ∧ s.fileRecords env t.id = .ok records := by
  obtain ⟨e, he, i, rfl, hbytes⟩ := h.read.exists_entry ht
  obtain ⟨j, hj⟩ := h.files e he (by simp [hfree])
  have hfits := h.fit.fits e he
  refine ⟨e.2, ?_, ?_⟩
  · unfold System.tableRecords
    rw [iterAll_eq _ _ h.quiet hbytes hfits]
  · unfold System.fileRecords
    rw [M.bind_ok (openTable_eq _ h.quiet ⟨hj.name, by rw [hj.inode]⟩ hfits),
      iterAll_eq _ _ h.quiet (by rw [hj.inode]) hfits]

/-- While nobody holds the flush lock, the list of live tables has rising ids below the
next one, the manifest names exactly these, and each file holds what its table reads;
and the publish of a compaction puts one table in the place of the run it picked. -/
theorem live_set_agrees (env : Env) (dir : String) {s : System}
    (h : Reached env dir (Fits env) s) :
    (s.flushLockFree →
      (s.db.sstables.map SsTable.id).Pairwise (· < ·) ∧
      (∀ t ∈ s.db.sstables, t.id < s.db.nextSstId) ∧
      (∃ st, s.manifestState env = .ok st ∧
        st.liveTables.keys = s.db.sstables.map SsTable.id) ∧
      ∀ t ∈ s.db.sstables, ∃ records,
        s.tableRecords env t = .ok records ∧ s.fileRecords env t.id = .ok records) ∧
    ∀ c minSeq, s.compactor = .named c minSeq →
      ∃ F B table w', s.db.sstables = F ++ c.run ++ B ∧ table.id = c.maxId ∧
        DbInner.finishCompaction env s.db.dir s.db.opts.bloomEnabled c.run c.maxId s.db s.w =
          (.ok (), { s.db with sstables := F ++ [table] ++ B }, w') := by
  obtain ⟨held, hfiles, _⟩ := h.ledger fun _ _ h => h
  refine ⟨?_, ?_⟩
  · rintro ⟨hflush, hcomp⟩
    have hids := hfiles.read.ids
    have hback := hfiles.flusher
    have hlive := hfiles.live
    rw [hflush] at hback hlive
    refine ⟨?_, ?_, ⟨_, hfiles.manifestState, ?_⟩,
      fun t ht => hfiles.table_file (Compactor.replaced_eq_none_iff.mpr hcomp) ht⟩
    · rw [hids]
      exact hfiles.ids
    · intro t ht
      have hmem : t.id ∈ held.tables.map Prod.fst := by
        rw [← hids]
        exact List.mem_map_of_mem ht
      obtain ⟨e, he, heq⟩ := List.mem_map.mp hmem
      rw [← heq]
      exact hback.2 e he
    · rw [hlive, hids]
      exact List.append_nil _
  · intro c minSeq hstage
    obtain ⟨w', _, front, stale, last, back, hrun, _, ⟨F, B, table, hsst, rfl, hid⟩, _⟩ :=
      hfiles.afterFinish hstage
    exact ⟨F, B, table, w', hsst, hid, hrun⟩

/-- The tables of a run whose merge has its name. -/
def Compactor.namedIds : Compactor → List Nat
  | .named c _ => c.run.map SsTable.id
  | _ => []

/-- A third table is flushed while the first two are merged: the publish replaces the
first two. -/
theorem live_set_agrees_overtaken :
    ∃ s, Reached Stock.env "db" (Fits Stock.env) s ∧
      s.db.sstables.map SsTable.id = [0, 1, 2] ∧
      ∃ c minSeq, s.compactor = .named c minSeq ∧ c.run.map SsTable.id = [0, 1] ∧
        ∃ F B table w', s.db.sstables = F ++ c.run ++ B ∧ table.id = c.maxId ∧
          DbInner.finishCompaction Stock.env s.db.dir s.db.opts.bloomEnabled c.run c.maxId
            s.db s.w = (.ok (), { s.db with sstables := F ++ [table] ++ B }, w') := by
  have hrun : ((System.start Stock.env "db" ⟨100, .durable, 2, true⟩).bind
      (System.execAll Stock.env (fun _ _ => true)
        (System.writeSteps [([1], some [2])] ++ System.flushSteps ++
          System.writeSteps [([1], none)] ++ System.flushSteps ++ System.mergeSteps ++
          System.writeSteps [([3], some [4])] ++ System.flushSteps ++ [.name]))).any
      (fun s => decide (s.db.sstables.map SsTable.id = [0, 1, 2]) &&
        decide (s.compactor.namedIds = [0, 1])) = true := by
    decide +kernel
  obtain ⟨s, hrun, htest⟩ := System.execAll_any hrun
  have hreached := hrun.weaken fun _ _ h => h.1
  obtain ⟨hids, hstage⟩ := Bool.and_eq_true_iff.mp htest
  refine ⟨s, hreached, of_decide_eq_true hids, ?_⟩
  cases hs : s.compactor with
  | named c minSeq =>
      rw [hs] at hstage
      exact ⟨c, minSeq, rfl, of_decide_eq_true hstage,
        (live_set_agrees Stock.env "db" hreached).2 c minSeq hs⟩
  | _ =>
      rw [hs] at hstage
      cases of_decide_eq_true hstage

end Levels

end LsmKv
