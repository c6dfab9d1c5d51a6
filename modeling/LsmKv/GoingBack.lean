import LsmKv.Crash

/-!
# When recovered reads go back in time

A flush leaves its table and the manifest durable, and replaces the log only behind them.  If
the power fails in between and takes the end of an unsynced log, the log that is replayed ends
before the table does.  A lookup trusts the replayed records and goes back to them; a scan
compares sequence numbers and does not.

How many batches are left in the log, and how many the tables hold, is counted on the run and
on the bytes the crash has kept: `System.batchesLeft` and `System.batchesInTables`.

**Results.**
* `LogTail`, `LogTail.step`: a log is a durable front and the batches written since.
* `LogTail.replays`: what a cut log replays to.
* `recovered_newest_iff`: whatever the sync mode, when the recovered reads return the newest
  records there are.
-/

namespace LsmKv

open Foundation Volume Versioning

/-- The length of a file, nothing if there is none. -/
def fileSize (v : Volume Path) (p : Path) : Nat := (v.file p).elim 0 fun x => x.bytes.length

/-- The bytes that batches take in a log. -/
def logFrames (env : Env) (batches : List (List Record)) : Bytes :=
  frames ((walChecksum newestLog).hash env) (logPayloads newestLog batches)

/-- The length of the log once every numbered batch is in it. -/
def System.logEnd (env : Env) (s : System) : Nat :=
  fileSize s.w.vol (walPath s.db.dir) + (logFrames env s.writer.unlogged).length

/-- How many batches of the history end within what a volume has of the log. -/
def System.batchesLeft (env : Env) (s : System) (v : Volume Path) : Nat :=
  Nat.findGreatest (fun n => s.logEnd env ≤
    fileSize v (walPath s.db.dir) + (logFrames env (s.history.drop n)).length) s.history.length

/-- How many batches are in the tables that what a volume has of the manifest names. -/
def System.batchesInTables (env : Env) (s : System) (v : Volume Path) : Nat :=
  let manifest := manifestPath s.db.dir s.db.manifest.generation
  s.tabledAt (wholeEdits env s.flusher.coming (fileSize v manifest - fileSize s.w.vol manifest))

/-- The log is still the file it was, and it ends before the tables do: some key has a newer
record in the tables than in the log, with another value. -/
def System.GoesBack (env : Env) (s : System) (v : Volume Path) : Prop :=
  v.lookup (walPath s.db.dir) = s.w.vol.lookup (walPath s.db.dir) ∧
    ∃ key r t,
      recordVersions.Newest
        (ofList (span s.history s.loggedFrom (s.batchesLeft env v))) key u64Max r ∧
      recordVersions.Newest
        (ofList (span s.history (s.batchesLeft env v) (s.batchesInTables env v))) key u64Max t ∧
      t.value ≠ r.value

/-- A log is a front of records that was durable when the log was last replaced, and the
batches from the `base`-th on. -/
structure LogTail (env : Env) (s : System) (held : Held) (front : List (List Record))
    (base : Nat) : Prop where
  base_le : base ≤ s.written.length
  from_le : s.loggedFrom ≤ base
  log : held.log = front ++ (s.written ++ s.writer.ahead).drop base
  records : ofList front.flatten = ofList (span s.written s.loggedFrom base)
  durable : base = 0 ∧ front = [] ∨
    ∀ x, s.w.vol.file (walPath s.db.dir) = some x →
      (logBytes env newestLog front).length ≤ x.synced

section Tail

variable {env : Env} {s s' : System} {held held' : Held} {front : List (List Record)} {base : Nat}
variable {l : Label} {v : Volume Path}

theorem Bound.fileSize_eq {p : Path} {i n : Nat} {b : Bytes} (h : v.Bound p i b n) :
    fileSize v p = b.length := by
  rw [fileSize, h.file]
  rfl

theorem length_logBytes_front (env : Env) (front more : List (List Record)) :
    (logBytes env newestLog (front ++ more)).length =
      (logBytes env newestLog front).length + (logFrames env more).length := by
  rw [logBytes_append, List.length_append]
  rfl

/-- The log of a fresh database. -/
theorem LogTail.fresh (hwritten : s.written = []) (hwriter : s.writer = .free)
    (hfrom : s.loggedFrom = 0) (hlog : held.log = []) : LogTail env s held [] 0 where
  base_le := Nat.zero_le _
  from_le := hfrom.le
  log := by rw [hlog, hwritten, hwriter]; rfl
  records := by rw [hfrom, span_self]; rfl
  durable := Or.inl ⟨rfl, rfl⟩

/-- Steps that leave the log, the writer and the history alone. -/
theorem LogTail.same (h : LogTail env s held front base) (hwritten : s'.written = s.written)
    (hwriter : s'.writer.ahead = s.writer.ahead) (hfrom : s'.loggedFrom = s.loggedFrom)
    (hdir : s'.db.dir = s.db.dir) (hlog : held'.log = held.log) {ps : List Path}
    (hsame : SameExcept ps s.w.vol s'.w.vol) (hwal : walPath s.db.dir ∉ ps) :
    LogTail env s' held' front base where
  base_le := hwritten ▸ h.base_le
  from_le := hfrom ▸ h.from_le
  log := by rw [hlog, hwritten, hwriter, h.log]
  records := by rw [h.records, hwritten, hfrom]
  durable := by
    rw [hdir, hsame.files _ hwal]
    exact h.durable

/-- Every step of a writer or of a flush keeps a log of this form. -/
theorem LogTail.step (h : LogTail env s held front base) (hf' : Files env s' held')
    (hledger : Ledger s held) (hl : l.plain = true) (heff : Effect env l s held s' held') :
    ∃ front base, LogTail env s' held' front base := by
  cases heff with
  | number batch some free seqs =>
      exact ⟨_, _, h.same rfl (by rw [free]; rfl) rfl rfl rfl (.refl [] _) (by simp)⟩
  | freeze | count | publish | clear | load | register | drop =>
      exact ⟨_, _, h.same rfl rfl rfl rfl rfl (.refl [] _) (by simp)⟩
  | write stage same grew => exact ⟨_, _, h.same rfl rfl rfl rfl rfl same (by simp)⟩
  | place table stage covered same grew =>
      exact ⟨_, _, h.same rfl rfl rfl rfl rfl same (by simp)⟩
  | record stage manifest same grew => exact ⟨_, _, h.same rfl rfl rfl rfl rfl same (by simp)⟩
  | @log _ _ w records stage fits synced same grew =>
      refine ⟨front, base, h.base_le, h.from_le, ?_, h.records, ?_⟩
      · have hlog := h.log
        rw [stage] at hlog
        simp only [Writer.ahead, List.append_nil] at hlog ⊢
        rw [hlog, List.drop_append_of_le_length h.base_le, List.append_assoc]
      · refine h.durable.imp id fun hdur x hx => ?_
        rcases grew.ends with heq | ⟨i, n, hb, happ⟩
        · exact hdur x (heq ▸ hx)
        · obtain ⟨k, m, hm, hb'⟩ := happ.part
          cases hb'.file.symm.trans hx
          exact (hdur _ hb.file).trans hm
  | @insert _ _ records stage =>
      refine ⟨front, base, ?_, h.from_le, ?_, ?_, h.durable⟩
      · exact h.base_le.trans (by simp)
      · have hlog := h.log
        rw [stage] at hlog
        simpa [Writer.ahead] using hlog
      · rw [h.records]
        exact congrArg ofList (span_concat_of_le h.base_le).symm
  | relog wal stage free synced covered same grew =>
      refine ⟨s.db.active.iter.map (fun r => [r]), s.written.length, le_rfl, hledger.frozenAt,
        ?_, ?_, Or.inr fun x hx => ?_⟩
      · simp [free, Writer.ahead]
      · rw [← List.flatMap_def, List.flatMap_singleton']
        exact hledger.active
      · obtain ⟨i, n, hlog⟩ := hf'.log
        rw [synced x hx]
        cases hlog.bound.file.symm.trans hx
        exact le_rfl
  | list | choose | abandon | bound | merge | name | finish | reopen => cases hl

theorem Writer.ahead_append_unlogged (w : Writer) : w.ahead ++ w.unlogged = w.batches := by
  cases w <;> rfl

/-- The log with the numbered batch behind it. -/
theorem LogTail.whole (h : LogTail env s held front base) :
    held.log ++ s.writer.unlogged = front ++ s.history.drop base := by
  have hbase : base ≤ (s.written ++ s.writer.ahead).length := by
    rw [List.length_append]
    exact h.base_le.trans (Nat.le_add_right _ _)
  rw [h.log, System.history, ← Writer.ahead_append_unlogged, ← List.append_assoc s.written,
    List.drop_append_of_le_length hbase, List.append_assoc]

theorem LogTail.logEnd_eq (h : LogTail env s held front base) (hf : Files env s held) :
    s.logEnd env = (logBytes env newestLog (front ++ s.history.drop base)).length := by
  obtain ⟨i, n, hlog⟩ := hf.log
  rw [← h.whole, length_logBytes_front, System.logEnd, Bound.fileSize_eq hlog.bound]

/-- The batches up to the `n`-th end within a cut. -/
theorem LogTail.ends_within_iff (h : LogTail env s held front base) (hf : Files env s held)
    {n size : Nat} (hn : base ≤ n) :
    s.logEnd env ≤ size + (logFrames env (s.history.drop n)).length ↔
      (logBytes env newestLog
        ((front ++ s.history.drop base).take (front.length + (n - base)))).length ≤ size := by
  have hsplit : front ++ s.history.drop base =
      (front ++ s.history.drop base).take (front.length + (n - base)) ++ s.history.drop n := by
    conv_lhs => rw [← List.take_append_drop (front.length + (n - base))
      (front ++ s.history.drop base)]
    rw [List.drop_length_add_append, List.drop_drop, Nat.add_sub_cancel' hn]
  rw [h.logEnd_eq hf]
  conv_lhs => rw [hsplit, length_logBytes_front]
  exact Nat.add_le_add_iff_right

/-- A whole batch takes some room. -/
theorem length_logBytes_lt (env : Env) (batches : List (List Record))
    {more : List (List Record)} (hne : more ≠ []) : (logBytes env newestLog batches).length <
      (logBytes env newestLog (batches ++ more)).length := by
  have hpos := length_le_length_frames ((walChecksum newestLog).hash env)
    (logPayloads newestLog more)
  have := List.length_pos_iff.mpr hne
  rw [logPayloads, List.length_map] at hpos
  rw [length_logBytes_front, logFrames, logPayloads]
  omega

/-- What is left of the log by a crash: the batches that end within the bytes kept. -/
theorem LogTail.replays (h : LogTail env s held front base) (hf : Files env s held)
    {B : List (List Record)} {i size : Nat} (hB : B <+: front ++ s.history.drop base)
    (hlog : held.log <+: B) (hfits : ∀ b ∈ B, BatchFits b)
    (hsize : size ≤ (logBytes env newestLog B).length)
    (hdurable : base = 0 ∧ front = [] ∨ (logBytes env newestLog front).length ≤ size)
    (hb : v.Bound (walPath s.db.dir) i ((logBytes env newestLog B).take size) size) :
    base ≤ s.batchesLeft env v ∧ s.batchesLeft env v ≤ s.history.length ∧
      ∃ log, replayOption env (walBytes v s.db.dir) = .ok log ∧
        ofList log = ofList (span s.history s.loggedFrom (s.batchesLeft env v)) := by
  set K := wholeBatches env B size with hK
  have hKB : K ≤ B.length := wholeBatches_le size
  have hfile : fileSize v (walPath s.db.dir) = size := by
    rw [Bound.fileSize_eq hb, List.length_take, min_eq_left hsize]
  have hfront : front <+: B := by
    refine List.IsPrefix.trans ?_ hlog
    rw [h.log]
    exact List.prefix_append _ _
  have hKf : front.length ≤ K := by
    rcases hdurable with ⟨-, rfl⟩ | hdur
    · exact Nat.zero_le _
    · refine le_wholeBatches hfront.length_le ?_
      rwa [← List.prefix_iff_eq_take.mp hfront]
  have hlen := hB.length_le
  rw [List.length_append, List.length_drop] at hlen
  have hhist : base ≤ s.history.length := by
    refine h.base_le.trans ?_
    rw [System.history, List.length_append]
    exact Nat.le_add_right _ _
  have hpart : ∀ {j}, j ≤ B.length → B.take j = (front ++ s.history.drop base).take j := by
    intro j hj
    rw [List.prefix_iff_eq_take.mp hB, List.take_take, min_eq_left hj]
  -- batches that end within the cut are in `B`, and whole
  have hwithin : ∀ {n}, base ≤ n → n ≤ s.history.length →
      s.logEnd env ≤ size + (logFrames env (s.history.drop n)).length →
      front.length + (n - base) ≤ K := by
    intro n hn hn' hend
    rw [h.ends_within_iff hf hn] at hend
    have hj : front.length + (n - base) ≤ B.length := by
      by_contra hgt
      have hmore : (front ++ s.history.drop base).take (front.length + (n - base)) =
          B ++ ((front ++ s.history.drop base).take (front.length + (n - base))).drop B.length := by
        conv_lhs => rw [← List.take_append_drop B.length (List.take _ _), List.take_take,
          min_eq_left (by omega), ← List.prefix_iff_eq_take.mp hB]
      rw [hmore] at hend
      have hne : ((front ++ s.history.drop base).take (front.length + (n - base))).drop
          B.length ≠ [] := by
        rw [← List.length_pos_iff, List.length_drop, List.length_take, List.length_append,
          List.length_drop]
        omega
      have hlt := length_logBytes_lt env B hne
      omega
    refine le_wholeBatches hj ?_
    rwa [hpart hj]
  have hleft : s.batchesLeft env v = base + (K - front.length) := by
    rw [System.batchesLeft, hfile, Nat.findGreatest_eq_iff]
    refine ⟨by omega, fun hne => ?_, fun n hlt hn hend => ?_⟩
    · rw [h.ends_within_iff hf (Nat.le_add_right _ _), Nat.add_sub_cancel_left,
        Nat.add_sub_cancel' hKf]
      rw [← hpart hKB]
      by_cases hzero : K = 0
      · have hnil : front = [] := List.eq_nil_of_length_eq_zero (by omega)
        rcases hdurable with ⟨rfl, -⟩ | hdur
        · exact absurd (by rw [hzero, Nat.zero_sub]) hne
        · rw [hzero, List.take_zero, ← hnil]
          exact hdur
      · exact length_le_of_wholeBatches hzero le_rfl
    · have := hwithin (by omega) hn hend
      omega
  refine ⟨by omega, by omega, (B.take K).flatten, ?_, ?_⟩
  · unfold walBytes
    rw [hb.file]
    exact replayBytes_take hfits size
  · have hkept : B.take K = front ++ ((s.history.take (s.batchesLeft env v)).drop base) := by
      rw [hpart hKB, List.take_append, List.take_of_length_le hKf, hleft, List.drop_take,
        Nat.add_sub_cancel_left]
    have hrecords : span s.written s.loggedFrom base = span s.history s.loggedFrom base :=
      (span_begins (List.prefix_append _ _) h.base_le).symm
    rw [hkept, List.flatten_append, ofList_append, h.records, hrecords, ← ofList_append,
      span_split h.from_le (show base ≤ s.batchesLeft env v by omega)]
    rfl

end Tail

section Recovered

variable {env : Env} {dir : String} {s : System} {held : Held}

/-- There is a map of what any of the records read as. -/
theorem exists_map {l l' : List Record} (hl : recordVersions.Rising l) {x : Nat}
    (hx : ∀ r ∈ l, r.seq < x) (hsub : ∀ r ∈ l', r ∈ l) :
    ∃ m : SortedMap Bytes Bytes, ∀ k, recordVersions.Reads (ofList l') k x (m.find? k) := by
  have hsame : ofList l' = ofList (l.filter (· ∈ l')) := by
    ext r
    simp only [mem_ofList, List.mem_filter, decide_eq_true_eq]
    exact ⟨fun hr => ⟨hsub r hr, hr⟩, fun hr => hr.2⟩
  refine ⟨mapAfter [l.filter (· ∈ l')], fun k => ?_⟩
  rw [hsame, find?_mapAfter]
  simp only [List.flatten_cons, List.flatten_nil, List.append_nil]
  exact reads_valueAfter (hl.sublist List.filter_sublist)
    (fun r hr => hx r (List.mem_of_mem_filter hr)) k

/-- Without a frozen slot a lookup returns what the sources hold exactly when no table has a
newer record of the key than the active MemTable, with another value. -/
theorem getAt_eq_find?_iff {w : World} {db : DbInner} {tables : List (Nat × List Record)}
    {h : Nat} {m : SortedMap Bytes Bytes} (key : Bytes) (hq : w.Quiet)
    (hs : Serves env w.vol db tables) (hfrozen : db.frozen = none)
    (hlevels : tables.Pairwise (fun a b => ∀ r ∈ a.2, ∀ r' ∈ b.2, r.seq < r'.seq))
    (hm : Holds (db.sources tables) h m) :
    (DbInner.getAt env key h db w).1 = .ok (m.find? key) ↔
      ∀ r t, recordVersions.Newest (ofList db.active.iter) key h r →
        recordVersions.Newest (pool (tables.map Prod.snd)) key h t → r.seq < t.seq →
        t.value = r.value := by
  have hrev : pool (tables.map Prod.snd).reverse = pool (tables.map Prod.snd) := by
    ext r
    simp [mem_pool]
  have hpool : pool (db.sources tables) =
      ofList db.active.iter ∪ pool (tables.map Prod.snd) := by
    unfold DbInner.sources
    rw [hfrozen, pool_cons]
    exact congrArg _ hrev
  obtain ⟨hone, hreads⟩ := hm
  rw [hpool] at hone hreads
  have hvalue : ∀ v, v = m.find? key ↔ recordVersions.Reads
      (ofList db.active.iter ∪ pool (tables.map Prod.snd)) key h v := fun v =>
    ⟨fun hv => hv ▸ hreads key, fun hv => hv.unique hone (hreads key)⟩
  rw [getAt_serves hq hs, Except.ok.injEq, hvalue]
  have hactive : recordVersions.Finds key h db.active.iter (lookupAt db.active.iter key h) :=
    finds_lookupAt (sortedRun_iter _)
  unfold DbInner.sources
  rw [List.findSome?_cons]
  cases hlook : lookupAt db.active.iter key h with
  | some r =>
      rw [hlook] at hactive
      rw [pool_eq_flatten] at hone ⊢
      refine (Newest.reads_union_iff hone hactive).trans ⟨fun hall r' t hr' ht hlt => ?_,
        fun hall t ht hlt => hall r t hactive ht hlt⟩
      cases hactive.unique (hone.mono Set.subset_union_left) hr'
      exact hall t ht hlt
  | none =>
      rw [hlook] at hactive
      have htables := reads_findSome (fun l => lookupAt l key h) (layered_of_levels hlevels key h)
        (fun l hl => finds_lookupAt (sorted_sources hs l (by
          unfold DbInner.sources
          exact List.mem_cons_of_mem _ (List.mem_append_right _ hl))))
      rw [hrev] at htables
      simp only [hfrozen, Option.map_none, Option.toList_none, List.nil_append]
      exact ⟨fun _ r t hr => absurd hr.1 (hactive r), fun _ => hactive.reads_union htables⟩

/-- A log of which nothing is lost has every inserted batch. -/
theorem LogTail.written_left {front : List (List Record)} {base : Nat} {v : Volume Path}
    (h : LogTail env s held front base) (hf : Files env s held)
    (hsize : (logBytes env newestLog held.log).length ≤ fileSize v (walPath s.db.dir)) :
    s.written.length ≤ s.batchesLeft env v := by
  refine Nat.le_findGreatest (by simp [System.history]) ?_
  rw [h.ends_within_iff hf h.base_le, ← h.whole, List.take_append_of_le_length]
  · exact (length_logBytes_take env held.log _).trans hsize
  · have hbase := h.base_le
    rw [h.log, List.length_append, List.length_drop, List.length_append]
    omega

/-- What a crash leaves of the log, at every volume on the way. -/
theorem LogTail.crashed {front : List (List Record)} {base : Nat} {v : Volume Path}
    (h : LogTail env s held front base) (hf : Files env s held) (hledger : Ledger s held)
    (hway : LogWay env s held v) (keep : Nat → Nat) :
    ∃ a n log, a ≤ n ∧ n ≤ s.history.length ∧
      replayOption env (walBytes (v.crash keep) s.db.dir) = .ok log ∧
      ofList log = ofList (span s.history a n) ∧
      (s.db.opts.syncWal = .durable → Logged s held → s.written.length ≤ n) ∧
      ((v.lookup (walPath s.db.dir) = s.w.vol.lookup (walPath s.db.dir) ∧
          a = s.loggedFrom ∧ n = s.batchesLeft env (v.crash keep)) ∨
        v.lookup (walPath s.db.dir) ≠ s.w.vol.lookup (walPath s.db.dir) ∧
          ∀ j, s.tabledAt j ≤ n) := by
  cases hway with
  | @kept more k i n₀ n begins fits was bound durable =>
      obtain ⟨m, hm, hb⟩ := bound.crash keep
      set bytes := logBytes env newestLog held.log ++
        (frames ((walChecksum newestLog).hash env) (logPayloads newestLog more)).take k with hbytes
      have hcut : bytes.take m <+: logBytes env newestLog (held.log ++ more) := by
        refine (List.take_prefix _ _).trans ?_
        rw [logBytes_append]
        exact (List.prefix_append_right_inj _).mpr (List.take_prefix _ _)
      have hdurable : base = 0 ∧ front = [] ∨
          (logBytes env newestLog front).length ≤ (bytes.take m).length := by
        refine h.durable.imp id fun hdur => ?_
        have hn₀ : (logBytes env newestLog front).length ≤ n₀ := hdur _ was.file
        have hlog : (logBytes env newestLog front).length ≤
            (logBytes env newestLog held.log).length := by
          rw [h.log, length_logBytes_front]
          exact Nat.le_add_right _ _
        rw [List.length_take, hbytes, List.length_append]
        omega
      have hprefix : held.log ++ more <+: front ++ s.history.drop base := by
        rw [← h.whole]
        exact (List.prefix_append_right_inj _).mpr begins
      obtain ⟨hbase, hn, log, hreplay, hspan⟩ := h.replays hf hprefix (List.prefix_append _ _)
        fits hcut.length_le hdurable (by rwa [← List.prefix_iff_eq_take.mp hcut])
      refine ⟨_, _, log, h.from_le.trans hbase, hn, hreplay, hspan, fun hsync hlogged => ?_,
        Or.inl ⟨bound.name.trans was.name.symm, rfl, rfl⟩⟩
      by_cases hnil : held.log = []
      · -- nothing was written since the log was replaced
        have hlog := congrArg List.length h.log
        rw [hnil, List.length_append, List.length_drop, List.length_append] at hlog
        simp only [List.length_nil] at hlog
        omega
      · have hn₀ : n₀ = (logBytes env newestLog held.log).length := hlogged hsync hnil _ was.file
        refine h.written_left hf ?_
        rw [Bound.fileSize_eq hb, List.length_take, hbytes, List.length_append]
        omega
  | @replaced i m free stage name fits bound =>
      have hb := bound.crash_synced le_rfl keep
      have hwhole : replayBytes env (logBytes env newestLog
          (s.db.active.iter.map (fun r => [r]))) = .ok s.db.active.iter := by
        rw [replayBytes_logBytes newestLog_ne (classify_newestLog _ _) fits
          (fun b _ => takes_newestLog b), ← List.flatMap_def, List.flatMap_singleton']
      refine ⟨s.frozenAt, s.written.length, s.db.active.iter, hledger.frozenAt,
        by simp [System.history], ?_, ?_, fun _ _ => le_rfl,
        Or.inr ⟨?_, fun j => (hledger.tablesAt j).2.1⟩⟩
      · unfold walBytes
        rw [hb.file]
        exact hwhole
      · rw [hledger.active]
        exact congrArg ofList (span_begins (List.prefix_append _ _) le_rfl).symm
      · rw [bound.name]
        exact fun heq => name heq.symm

/-- The tables hold the batches that the manifest says, as far as it is kept. -/
theorem Files.batchesInTables_eq (hf : Files env s held) {v : Volume Path} {x : Inode}
    (hx : v.file (manifestPath s.db.dir s.db.manifest.generation) = some x) :
    s.batchesInTables env v = s.tabledAt (wholeEdits env s.flusher.coming
      (x.bytes.length - (manifestBytes env held.edits).length)) := by
  obtain ⟨g, i, hopen⟩ := hf.manifest
  obtain rfl : s.db.manifest.generation = g := by rw [hopen.handle]; rfl
  unfold System.batchesInTables
  dsimp only
  rw [Bound.fileSize_eq hopen.live.holds, fileSize, hx]
  rfl

/-- The map of the newest records in a replayed log and in tables, both of them from one
history. -/
theorem Opened.holds {opts : Options} {w : World} {db : DbInner} {st : ManifestState}
    {tables : List (Nat × List Record)} {log : List Record} {wal : Bytes} {W : List (List Record)}
    (hopen : Opened env dir opts w.vol db st tables log wal)
    (hrising : recordVersions.Rising W.flatten) (hbelow : ∀ r ∈ W.flatten, r.seq < u64Max)
    (hlog : ∀ r ∈ log, r ∈ W.flatten) (htables : pool (tables.map Prod.snd) ⊆ ofList W.flatten) :
    ∃ m : SortedMap Bytes Bytes,
      (∀ key, recordVersions.Reads (pool (log :: tables.map Prod.snd)) key u64Max
        (m.find? key)) ∧ Holds (db.sources tables) u64Max m := by
  have hall : ∀ r ∈ (log :: tables.map Prod.snd).flatten, r ∈ W.flatten := by
    intro r hr
    rw [List.flatten_cons] at hr
    rcases List.mem_append.mp hr with hr | hr
    · exact hlog r hr
    · rw [pool_eq_flatten] at htables
      exact htables hr
  obtain ⟨m, hm⟩ := exists_map hrising hbelow hall
  rw [← pool_eq_flatten] at hm
  have hpool : pool (db.sources tables) = pool (log :: tables.map Prod.snd) := by
    unfold DbInner.sources
    rw [hopen.frozen, pool_cons, pool_cons, hopen.active (hrising.onePerSeq.mono hlog)]
    congr 1
    ext r
    simp [mem_pool]
  refine ⟨m, hm, ?_, hpool ▸ hm⟩
  rw [hpool, pool_eq_flatten]
  exact hrising.onePerSeq.mono hall

/-- No batch of the log is behind the tables, or no key has a newer record there with another
value. -/
theorem System.not_goesBack_iff {v : Volume Path} {a n p : Nat}
    (hp : s.batchesInTables env v = p)
    (hcut : (v.lookup (walPath s.db.dir) = s.w.vol.lookup (walPath s.db.dir) ∧
        a = s.loggedFrom ∧ n = s.batchesLeft env v) ∨
      v.lookup (walPath s.db.dir) ≠ s.w.vol.lookup (walPath s.db.dir) ∧ p ≤ n) :
    ¬ s.GoesBack env v ↔ ∀ key r t,
      recordVersions.Newest (ofList (span s.history a n)) key u64Max r →
      recordVersions.Newest (ofList (span s.history n p)) key u64Max t → t.value = r.value := by
  rcases hcut with ⟨hname, rfl, rfl⟩ | ⟨hname, hle⟩
  · rw [← hp]
    refine ⟨fun hgoes key r t hr ht => ?_, fun hsame hgoes => ?_⟩
    · by_contra hne
      exact hgoes ⟨hname, key, r, t, hr, ht, hne⟩
    · obtain ⟨-, key, r, t, hr, ht, hne⟩ := hgoes
      exact hne (hsame key r t hr ht)
  · refine iff_of_true (fun hgoes => hname hgoes.1) fun key r t _ ht => ?_
    rw [span_of_le _ hle] at ht
    exact (List.not_mem_nil ht.1.1).elim

/-- Let a database on a fresh directory be written to and flushed, whatever its sync mode, and
lose power at any moment, inside a section or between two, with any cut of its unsynced bytes.
The next open succeeds, and a scan of it returns the map `m` of the newest records in the
replayed log and the live tables.  A lookup returns what `m` has for every key exactly when the
batches the cut leaves in the log do not end before those the tables hold, or no key has in
between a newer record with another value.  With a durable log that is always so. -/
theorem recovered_newest_iff (env : Env) (dir : String) {v : Volume Path}
    (h : Reached env dir (Plain env) s) (hv : Passing env (Plain env) s v) (keep : Nat → Nat)
    (opts : Options) :
    ∃ db w' log tables, ∃ m : SortedMap Bytes Bytes,
      (assemble env s.db.dir opts : M Unit DbInner) () (World.start (v.crash keep)) =
        (.ok db, (), w') ∧
      ((Wal.replay env (walPath s.db.dir) : M Unit _) () (World.start (v.crash keep))).1 =
        .ok log ∧
      TablesRead env s.db.dir opts.bloomEnabled w'.vol db.sstables tables ∧
      (∀ key, recordVersions.Reads (pool (log :: tables.map Prod.snd)) key u64Max
        (m.find? key)) ∧
      (∀ start stop limit, (DbInner.scan env start stop limit db w').1 =
        .ok ((entriesWithin m start stop).take limit)) ∧
      ((∀ key, (DbInner.get env key db w').1 = .ok (m.find? key)) ↔
        ¬ s.GoesBack env (v.crash keep)) ∧
      (s.db.opts.syncWal = .durable → ¬ s.GoesBack env (v.crash keep)) := by
  obtain ⟨hfree, hdropped, held, hfiles, hledger, hlogged, front, base, htail⟩ := h.plain_with
    (Q := fun s held => ∃ front base, LogTail env s held front base)
    (fun s held hwritten hwriter hfrom hlog => ⟨_, _, .fresh hwritten hwriter hfrom hlog⟩)
    (fun l s s' held held' hf' hledger hl heff ⟨_, _, ht⟩ => ht.step hf' hledger hl heff)
  obtain ⟨a, n, log, han, hn, hlog, hspan, hdurable, hcut⟩ :=
    htail.crashed hfiles hledger (hfiles.logWay hv) keep
  obtain ⟨j, hj, hshelf, x, hx, hjx⟩ := (hfiles.salvage hfree hv).crash keep
  obtain ⟨hpp, hpw, hlevels, hkept⟩ := hledger.tablesAt j
  obtain ⟨w', db, hrun, hs', hopen, _, hgrew⟩ := assemble_quiet (s := ())
    (w := World.start (v.crash keep)) opts (World.quiet_start _) (by simp [World.start])
    (hshelf.image hlog)
  have hrising := hledger.history_rising
  have hbelow := hledger.history_below hfiles.seq
  have hkept' : recordVersions.StandsFor _ (ofList (span s.history 0 (s.tabledAt j))) _ u64Max :=
    span_begins (List.prefix_append s.written s.writer.batches) hpw ▸
      hkept u64Max fun r hr => hbelow r (s.written_subset_history hr)
  have hin : ∀ r ∈ log, r ∈ s.history.flatten := by
    intro r hr
    have hmem : r ∈ ofList log := hr
    rw [hspan] at hmem
    exact mem_span hmem
  have hone := hrising.onePerSeq.mono hin
  have hserves := hopen.serves hs' hshelf.fit hone fun r hr => le_of_lt (hbelow r (hin r hr))
  obtain ⟨m, hm, hholds⟩ := hopen.holds hrising hbelow hin fun r hr => mem_span (hkept'.subset hr)
  have hback : ¬ s.GoesBack env (v.crash keep) ↔ _ := System.not_goesBack_iff
    (by rw [hfiles.batchesInTables_eq hx, hjx]) (hcut.imp id fun h => ⟨h.1, h.2 j⟩)
  refine ⟨db, w', log, _, m, hrun, ?_, hopen.opened.read hs', hm, fun start stop limit => ?_, ?_,
    fun hsync => ?_⟩
  · rw [replay_eq env s.db.dir (World.quiet_start _)]
    exact hlog
  · exact congrArg Prod.fst (scanAt_holds hgrew.quiet hserves hholds start stop limit)
  · -- a newer record in a table is one of a batch behind those in the log
    rw [hback]
    refine forall_congr' fun key =>
      (getAt_eq_find?_iff key hgrew.quiet hserves hopen.frozen hlevels hholds).trans ?_
    rw [hopen.active hone, hspan]
    refine forall₂_congr fun r t => forall_congr' fun hr => ?_
    rw [hrising.newest_behind_iff han hr, hkept'.newest_iff (by simp [hdropped, ofList])
      (hrising.onePerSeq.mono fun x hx => mem_span hx), and_imp]
    exact Iff.rfl
  · rw [hback, span_of_le _ (hpw.trans (hdurable hsync hlogged))]
    exact fun key r t _ ht => (List.not_mem_nil ht.1.1).elim

/-- Two writes to one key, a flush that has recorded its table, and a cut that leaves the first
write in the log: lookups do not all return the newest records, for the key goes back. -/
theorem recovered_newest_iff_unsynced :
    ∃ s, Reached Stock.env "db" (Plain Stock.env) s ∧
      Passing Stock.env (Plain Stock.env) s s.w.vol ∧
      (s.db.opts.syncWal = .none ∧ s.written.length = 2 ∧
        s.batchesLeft Stock.env (s.w.vol.crash fun _ => 39) = 1 ∧
        s.batchesInTables Stock.env (s.w.vol.crash fun _ => 39) = 2) ∧
      ∃ db w', ∃ m : SortedMap Bytes Bytes,
        (assemble Stock.env s.db.dir Options.default : M Unit DbInner) ()
          (World.start (s.w.vol.crash fun _ => 39)) = (.ok db, (), w') ∧
        (∀ start stop limit, (DbInner.scan Stock.env start stop limit db w').1 =
          .ok ((entriesWithin m start stop).take limit)) ∧
        ((∀ key, (DbInner.get Stock.env key db w').1 = .ok (m.find? key)) ↔
          ¬ s.GoesBack Stock.env (s.w.vol.crash fun _ => 39)) ∧
        s.GoesBack Stock.env (s.w.vol.crash fun _ => 39) := by
  have hrun : ((System.start Stock.env "db" { Options.default with syncWal := .none }).bind
      (System.execAll Stock.env (fun l _ => l.plain) (System.writeSteps [([1], some [2])] ++
        System.writeSteps [([1], some [3])] ++ [.freeze, .write, .place, .count, .record]))).any
      (fun s => decide (s.db.opts.syncWal = .none ∧ s.written.length = 2 ∧
          s.batchesLeft Stock.env (s.w.vol.crash fun _ => 39) = 1 ∧
          s.batchesInTables Stock.env (s.w.vol.crash fun _ => 39) = 2) &&
        let opened := (assemble Stock.env s.db.dir Options.default : M Unit DbInner) ()
          (World.start (s.w.vol.crash fun _ => 39))
        opened.1.toOption.any fun db => decide
          ((DbInner.get Stock.env [1] db opened.2.2).1.toOption = some (some [2]) ∧
            (DbInner.scan Stock.env none none 1 db opened.2.2).1.toOption =
              some [([1], [3])])) = true := by
    decide +kernel
  obtain ⟨s, hreached, htest⟩ := System.execAll_any hrun
  obtain ⟨hcounts, hreads⟩ := Bool.and_eq_true_iff.mp htest
  obtain ⟨db, w', log, tables, m, hopen, _, _, _, hscan, hget, _⟩ := recovered_newest_iff Stock.env
    "db" hreached (Or.inl rfl) (fun _ => 39) Options.default
  refine ⟨s, hreached, Or.inl rfl, of_decide_eq_true hcounts, db, w', m, hopen, hscan, hget, ?_⟩
  dsimp only at hreads
  rw [hopen] at hreads
  obtain ⟨hold, hnew⟩ := of_decide_eq_true hreads
  by_contra hgoes
  rw [hget.mpr hgoes [1]] at hold
  rw [hscan none none 1] at hnew
  have hmem : ([1], [3]) ∈ entriesWithin m none none :=
    List.mem_of_mem_take (Option.some.inj hnew ▸ List.mem_singleton_self _)
  rw [(mem_entriesWithin.mp hmem).1] at hold
  cases hold

/-- A key is written twice and both writes go to one table.  The power fails before the log
is replaced, and of the unsynced log only the first write is left: a lookup goes back to
it, and a scan does not. -/
theorem recovered_get_goes_back :
    ∃ s, Reached Stock.env "db" (Plain Stock.env) s ∧
      Passing Stock.env (Plain Stock.env) s s.w.vol ∧
      ∃ db w', (assemble Stock.env s.db.dir Options.default : M Unit DbInner) ()
          (World.start (s.w.vol.crash fun _ => 39)) = (.ok db, (), w') ∧
        (DbInner.get Stock.env [1] db w').1.toOption = some (some [2]) ∧
        (DbInner.scan Stock.env none none 1 db w').1.toOption = some [([1], [3])] := by
  have hrun : ((System.start Stock.env "db" { Options.default with syncWal := .none }).bind
      (System.execAll Stock.env (fun l _ => l.plain) (System.writeSteps [([1], some [2])] ++
        System.writeSteps [([1], some [3])] ++ [.freeze, .write, .place, .count, .record]))).any
      (fun s =>
        let opened := (assemble Stock.env s.db.dir Options.default : M Unit DbInner) ()
          (World.start (s.w.vol.crash fun _ => 39))
        opened.1.toOption.any fun db => decide
          ((DbInner.get Stock.env [1] db opened.2.2).1.toOption = some (some [2]) ∧
            (DbInner.scan Stock.env none none 1 db opened.2.2).1.toOption =
              some [([1], [3])])) = true := by
    decide +kernel
  obtain ⟨s, hreached, htest⟩ := System.execAll_any hrun
  refine ⟨s, hreached, Or.inl rfl, ?_⟩
  dsimp only at htest
  rcases hopen : (assemble Stock.env s.db.dir Options.default : M Unit DbInner) ()
    (World.start (s.w.vol.crash fun _ => 39)) with ⟨_ | db, ⟨⟩, w'⟩
  · rw [hopen] at htest
    cases htest
  · rw [hopen] at htest
    exact ⟨db, w', rfl, of_decide_eq_true htest⟩

end Recovered

end LsmKv
