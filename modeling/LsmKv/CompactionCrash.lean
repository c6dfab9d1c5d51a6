import LsmKv.Crash
import LsmKv.Sequential

/-!
# A crash inside a compaction

A compaction gives its merge the name of the newest input, and only then takes the other inputs
out of the manifest.  A crash in between leaves the merge beside some of the inputs it stands
for.  What it holds covers them; but a merge that contains the oldest table drops its
tombstones, and what such a tombstone covered resurfaces.

**Results.**
* `Compacting.wreck`: what there is to recover at every volume of a compaction on the way.
* `compaction_crash_iff`: every crash inside a compaction keeps every lookup exactly when no
  dropped tombstone covers a value of the other inputs.
-/

namespace LsmKv

open Foundation Volume Versioning

/-- The tables once the merge has its name and `m` of the other inputs are deleted. -/
def tablesOnWay (front stale : List (Nat × List Record)) (last : Nat × List Record)
    (back : List (Nat × List Record)) (out : List Record) (m : Nat) :
    List (Nat × List Record) :=
  front ++ (stale.drop m ++ [(last.1, out)]) ++ back

section Wreckage

variable {env : Env} {v v' : Volume Path} {db : DbInner} {held : Held}
variable {front stale back : List (Nat × List Record)} {last : Nat × List Record}
variable {out : List Record} {g j m : Nat}

/-- A table on the way is the merge, or one of the tables before that is not deleted. -/
theorem mem_tablesOnWay {t : Nat × List Record} (hat : RunAt held front stale last back)
    (ht : t ∈ tablesOnWay front stale last back out m) :
    t = (last.1, out) ∨
      (t ∈ held.tables ∧ t.1 ≠ last.1 ∧ ∀ u ∈ stale.take m, t.1 ≠ u.1) := by
  obtain ⟨hfront, hstale, hback, hfs, hbs, hids⟩ := hat.parts
  rcases List.mem_append.mp ht with ht | ht
  · rcases List.mem_append.mp ht with ht | ht
    · exact Or.inr ⟨by rw [hat.tables]; simp [ht], ne_of_lt (hfront t ht),
        fun u hu => ne_of_lt (hfs t ht u (List.mem_of_mem_take hu))⟩
    · rcases List.mem_append.mp ht with ht | ht
      · have hmem := List.mem_of_mem_drop ht
        rw [List.pairwise_map, ← List.take_append_drop m stale] at hids
        exact Or.inr ⟨by rw [hat.tables]; simp [hmem], ne_of_lt (hstale t hmem),
          fun u hu => ne_of_gt ((List.pairwise_append.mp hids).2.2 u hu t ht)⟩
      · exact Or.inl (List.mem_singleton.mp ht)
  · exact Or.inr ⟨by rw [hat.tables]; simp [ht], ne_of_gt (hback t ht),
      fun u hu => ne_of_gt (hbs t ht u (List.mem_of_mem_take hu))⟩

theorem fit_tablesOnWay (hat : RunAt held front stale last back)
    (hfit : TablesFit env held.tables) (hout : TableFits env out) (hsorted : SortedRun out) :
    TablesFit env (tablesOnWay front stale last back out m) := by
  refine ⟨fun t ht => ?_, fun t ht => ?_⟩
  · rcases mem_tablesOnWay hat ht with rfl | ⟨ht, -⟩
    · exact hout
    · exact hfit.fits t ht
  · rcases mem_tablesOnWay hat ht with rfl | ⟨ht, -⟩
    · exact hsorted
    · exact hfit.sorted t ht

theorem live_tablesOnWay (hat : RunAt held front stale last back) {st : ManifestState}
    (hst : st.liveTables.keys = held.tables.map Prod.fst) (out : List Record) (m : Nat) :
    ((deleteEdits (stale.take m)).foldl ManifestState.apply st).liveTables.keys =
      (tablesOnWay front stale last back out m).map Prod.fst := by
  have htables : held.tables = front ++ stale.take m ++ (stale.drop m ++ [last] ++ back) := by
    rw [hat.tables]
    nth_rewrite 1 [← List.take_append_drop m stale]
    simp only [List.append_assoc]
  rw [keys_deleted htables hat.ids hst]
  simp [tablesOnWay]

/-- What there is to recover where the log and `CURRENT` are as they were. -/
theorem Layout.wreck (hl : Layout env v db held) (hkind : held.kind = newestLog)
    (hlog : ∀ b ∈ held.log, BatchFits b)
    (hman : ManifestOpen env db.dir v db.manifest held.edits g j) {ps : List Path}
    (hsame : SameExcept ps v v') (hcur : currentPath db.dir ∉ ps) (hwal : walPath db.dir ∉ ps)
    {edits batch : List VersionEdit} {tables : Nat → List (Nat × List Record)}
    (hrecorded : edits ≠ []) (hedits : ∀ e ∈ edits, e.Fits) (hbatch : ∀ e ∈ batch, e.Fits)
    (hmanifest : ∃ k n, v'.Bound (manifestPath db.dir g) j
      (manifestBytes env edits ++ (editFrames env batch).take k) n ∧
        (manifestBytes env edits).length ≤ n)
    (hlive : ∀ n ≤ batch.length,
      (applyAll (edits ++ batch.take n)).liveTables.keys = (tables n).map Prod.fst)
    (hfit : ∀ n ≤ batch.length, TablesFit env (tables n))
    (hfiles : ∀ n ≤ batch.length, ∀ t ∈ tables n, ∃ i,
      v'.Bound (sstPath db.dir t.1) i (tableBytes env t.2) (tableBytes env t.2).length) :
    Wreck env db.dir v' edits batch tables held.log 0 := by
  obtain ⟨c, hc⟩ := hman.live.named.current
  obtain ⟨i, n, hopen⟩ := hl.log
  obtain ⟨k, n', hm, hn'⟩ := hmanifest
  have hb := hopen.bound
  rw [hkind] at hb
  exact
    { sound := hsame.sound hl.sound
      recorded := hrecorded
      editsFit := hedits
      batchFit := hbatch
      manifest := ⟨g, c, j, k, n', hman.generation, hc.same hsame hcur, hm, hn'⟩
      live := hlive
      fit := hfit
      files := hfiles
      log := logCut_self hlog (hb.same hsame hwal) (Or.inl rfl) }

theorem Layout.recorded_of_run (hl : Layout env v db held)
    (hat : RunAt held front stale last back) : held.edits ≠ [] := by
  intro hnil
  have hlive := hl.live
  rw [hnil, hat.tables] at hlive
  have hlen := congrArg List.length hlive
  rw [show (applyAll []).liveTables.keys = [] from rfl] at hlen
  simp at hlen

/-- A table on the way has its file once the merge has its name. -/
theorem Layout.bound_onWay (hl : Layout env v db held) (hat : RunAt held front stale last back)
    {ps : List Path} (hsame : SameExcept ps v v')
    (hps : ∀ id, sstPath db.dir id ∈ ps → id = last.1) {i : Nat}
    (hmerged : v'.Bound (sstPath db.dir last.1) i (tableBytes env out)
      (tableBytes env out).length) :
    ∀ t ∈ tablesOnWay front stale last back out m, ∃ i,
      v'.Bound (sstPath db.dir t.1) i (tableBytes env t.2) (tableBytes env t.2).length := by
  intro t ht
  rcases mem_tablesOnWay hat ht with rfl | ⟨ht, hne, -⟩
  · exact ⟨i, hmerged⟩
  · obtain ⟨i, hb⟩ := TablesOpen.bound (w := World.start v) hl.opened t ht
    exact ⟨i, hb.same hsame fun hmem => hne (hps t.1 hmem)⟩

/-- What there is to recover right behind the rename, with all inputs in the manifest. -/
theorem Layout.wreck_named (hl : Layout env v db held) (hat : RunAt held front stale last back)
    (hkind : held.kind = newestLog) (hlog : ∀ b ∈ held.log, BatchFits b)
    (hman : ManifestOpen env db.dir v db.manifest held.edits g j) (hout : TableFits env out)
    (hsorted : SortedRun out)
    (hsame : SameExcept [sstTmpPath db.dir last.1, sstPath db.dir last.1] v v') {i : Nat}
    (hmerged : v'.Bound (sstPath db.dir last.1) i (tableBytes env out)
      (tableBytes env out).length) :
    Wreck env db.dir v' held.edits [] (fun _ => tablesOnWay front stale last back out 0)
      held.log 0 := by
  refine hl.wreck hkind hlog hman hsame (by simp) (by simp) (hl.recorded_of_run hat) hman.fits
    (by simp) ⟨0, _, ?_, le_rfl⟩ (fun n _ => ?_)
    (fun _ _ => fit_tablesOnWay hat hl.fit hout hsorted)
    fun _ _ => hl.bound_onWay hat hsame (by simp) hmerged
  · rw [List.take_zero, List.append_nil]
    exact hman.live.holds.same hsame (by simp)
  · rw [List.take_nil, List.append_nil]
    exact live_tablesOnWay hat hl.live out 0

/-- What there is to recover in a volume of a compaction on the way. -/
theorem Compacting.wreck (hl : Layout env v db held) (hat : RunAt held front stale last back)
    (hkind : held.kind = newestLog) (hlog : ∀ b ∈ held.log, BatchFits b)
    (hman : ManifestOpen env db.dir v db.manifest held.edits g j) (hout : TableFits env out)
    (hsorted : SortedRun out)
    (hv : Compacting env db.dir g j held.edits stale last.1 out v v') :
    ∃ edits batch tables, Wreck env db.dir v' edits batch tables held.log 0 ∧
      ∀ n ≤ batch.length,
        (applyAll (edits ++ batch.take n)).nextSeq = (applyAll held.edits).nextSeq ∧
        (tables n = held.tables ∨
          ∃ m, tables n = tablesOnWay front stale last back out m) := by
  have hrecorded := hl.recorded_of_run hat
  have hdelete : ∀ e ∈ deleteEdits stale, e.Fits := deleteEdits_fit hman.fits hl.live fun t ht => by
    rw [hat.tables]
    simp [ht]
  have hbound : ∀ t ∈ held.tables, ∃ i,
      v.Bound (sstPath db.dir t.1) i (tableBytes env t.2) (tableBytes env t.2).length :=
    TablesOpen.bound (w := World.start v) hl.opened
  cases hv with
  | beside same =>
      refine ⟨held.edits, [], fun _ => held.tables,
        hl.wreck hkind hlog hman same (by simp) (by simp)
        hrecorded hman.fits (by simp) ⟨0, _, ?_, le_rfl⟩ ?_ (fun _ _ => hl.fit) ?_, ?_⟩
      · rw [List.take_zero, List.append_nil]
        exact hman.live.holds.same same (by simp)
      · intro n _
        rw [List.take_nil, List.append_nil]
        exact hl.live
      · intro n _ t ht
        obtain ⟨i, hb⟩ := hbound t ht
        exact ⟨i, hb.same same (by simp)⟩
      · intro n _
        rw [List.take_nil, List.append_nil]
        exact ⟨rfl, Or.inl rfl⟩
  | @renamed i k n same merged manifest durable =>
      have htake : ∀ n, (deleteEdits stale).take n = deleteEdits (stale.take n) := fun n => by
        simp [deleteEdits, List.map_take]
      refine ⟨held.edits, deleteEdits stale, tablesOnWay front stale last back out,
        hl.wreck hkind hlog hman same (by simp) (by simp) hrecorded hman.fits hdelete
          ⟨k, n, manifest, durable⟩ ?_ (fun _ _ => fit_tablesOnWay hat hl.fit hout hsorted) ?_, ?_⟩
      · intro n _
        rw [htake, applyAll_append]
        exact live_tablesOnWay hat hl.live out n
      · exact fun _ _ => hl.bound_onWay hat same (by simp) merged
      · intro n _
        rw [htake]
        exact ⟨(Standing.applyAll_deleteEdits held.edits _).2, Or.inr ⟨n, rfl⟩⟩
  | @removing i gone part same merged manifest =>
      refine ⟨held.edits ++ deleteEdits stale, [], fun _ => tablesOnWay front stale last back out
        stale.length, hl.wreck hkind hlog hman same (by simp) (by simp) (by simp [hrecorded]) ?_
          (by simp) ⟨0, _, ?_, le_rfl⟩ ?_ (fun _ _ => fit_tablesOnWay hat hl.fit hout hsorted) ?_,
          ?_⟩
      · intro e he
        rcases List.mem_append.mp he with he | he
        · exact hman.fits e he
        · exact hdelete e he
      · rw [List.take_zero, List.append_nil]
        exact manifest
      · intro n _
        rw [List.take_nil, List.append_nil, applyAll_append]
        have := live_tablesOnWay hat hl.live out stale.length
        rwa [List.take_length] at this
      · intro n _ t ht
        rcases mem_tablesOnWay hat ht with rfl | ⟨ht, hne, hgone⟩
        · exact ⟨i, merged⟩
        · obtain ⟨i, hb⟩ := hbound t ht
          rw [List.take_length] at hgone
          refine ⟨i, hb.same same fun hmem => ?_⟩
          rcases List.mem_append.mp hmem with hmem | hmem
          · simp [hne] at hmem
          · obtain ⟨u, hu, heq⟩ := List.mem_map.mp hmem
            simp only [Path.mk.injEq, true_and, FileName.sst.injEq] at heq
            exact hgone u (part u hu) heq.symm
      · intro n _
        rw [List.take_nil, List.append_nil]
        exact ⟨(Standing.applyAll_deleteEdits held.edits _).2, Or.inr ⟨_, rfl⟩⟩

end Wreckage

section Reads

variable {env : Env} {w : World} {db : DbInner} {held : Held} {now : SortedMap Bytes Bytes}
variable {pinned : List (Nat × SortedMap Bytes Bytes)}

/-- What an open reads after a crash that lost nothing of the log. -/
theorem Engine.reads_wreck (h : Engine env w db held now pinned) {v : Volume Path}
    {edits batch : List VersionEdit} {tables : Nat → List (Nat × List Record)}
    (hwreck : Wreck env db.dir v edits batch tables held.log 0)
    (hseq : ∀ n ≤ batch.length,
      (applyAll (edits ++ batch.take n)).nextSeq = (applyAll held.edits).nextSeq)
    (keep : Nat → Nat) (hlog : walBytes (v.crash keep) db.dir = walBytes w.vol db.dir)
    (opts : Options) :
    ∃ n db' w', n ≤ batch.length ∧
      (assemble env db.dir opts : M Unit DbInner) () (World.start (v.crash keep)) =
        (.ok db', (), w') ∧
      ∀ key, DbInner.get env key db' w' =
        (.ok (((db.active.iter :: ((tables n).map Prod.snd).reverse).findSome?
          (fun l => lookupAt l key u64Max)).bind Record.value), db', w') := by
  obtain ⟨n, k, hn, -, himg⟩ := hwreck.image keep
  obtain ⟨himg₀, -⟩ := h.standing.layout.image h.stands.kind h.stands.fits
  have hrecords : (held.log.take k).flatten = held.log.flatten := by
    have hrep := himg.log
    rw [hlog, himg₀.log] at hrep
    exact (Except.ok.inj hrep).symm
  rw [hrecords] at himg
  obtain ⟨w', db', hrun, hs', hopen, -, hgrew⟩ := assemble_quiet (s := ())
    (w := World.start (v.crash keep)) opts (World.quiet_start _) (by simp [World.start]) himg
  obtain ⟨hactive, -⟩ := h.memory_again hopen (hseq n hn)
  have hserves := hopen.serves_tables hs' himg.fit (by rw [hactive]; exact h.serves.active)
  refine ⟨n, db', w', hn, hrun, fun key => ?_⟩
  have hget : DbInner.getAt env key u64Max db' w' = _ := getAt_serves hgrew.quiet hserves
  rw [show db'.sources (tables n) = db.active.iter :: ((tables n).map Prod.snd).reverse by
    simp [DbInner.sources, hopen.frozen, hactive]] at hget
  exact hget

variable {front stale back : List (Nat × List Record)} {last : Nat × List Record}

/-- The sources behind a crash: the merge beside some of its inputs. -/
theorem sources_onWay (db : DbInner) (front stale : List (Nat × List Record))
    (last : Nat × List Record) (back : List (Nat × List Record)) (out : List Record) (m : Nat) :
    db.active.iter :: ((tablesOnWay front stale last back out m).map Prod.snd).reverse =
      (db.active.iter :: (back.map Prod.snd).reverse) ++
        (out :: ((stale.drop m).map Prod.snd).reverse) ++ (front.map Prod.snd).reverse := by
  simp [tablesOnWay]

theorem Engine.sorted_onWay (h : Engine env w db held now pinned)
    (hat : RunAt held front stale last back) (m : Nat) :
    ∀ l ∈ db.active.iter :: ((tablesOnWay front stale last back (db.mergeOut front stale last)
      m).map Prod.snd).reverse, SortedRun l := by
  intro l hl
  rcases List.mem_cons.mp hl with rfl | hl
  · exact sortedRun_iter _
  · obtain ⟨t, ht, rfl⟩ := List.mem_map.mp (List.mem_reverse.mp hl)
    rcases mem_tablesOnWay hat ht with rfl | ⟨ht, -⟩
    · exact sortedRun_compactRecords _ _ (h.stands.carries.sorted_run hat)
    · exact h.stands.carries.sorted t ht

/-- A lookup after the crash finds what it found before, unless a value resurfaces. -/
theorem Engine.lookup_onWay_iff (h : Engine env w db held now pinned)
    (hat : RunAt held front stale last back) (m : Nat) (key : Bytes) :
    ((db.active.iter :: ((tablesOnWay front stale last back (db.mergeOut front stale last)
        m).map Prod.snd).reverse).findSome? (fun l => lookupAt l key u64Max)).bind Record.value =
      now.find? key ↔
    ¬ recordVersions.Resurfaces key u64Max (pool (db.active.iter :: (back.map Prod.snd).reverse))
      (ofList (db.mergeOut front stale last)) (pool ((stale.drop m).map Prod.snd).reverse) := by
  have hcarries := h.stands.carries
  have hs := hcarries.serving
  rw [hcarries.sources_run hat] at hs
  have hsorted := h.sorted_onWay hat m
  rw [sources_onWay] at hsorted ⊢
  refine hs.stacked.search_beside_iff _ (hcarries.condenses_run hat (Or.inr h.standing.seq)) ?_ ?_
    (fun l hl => finds_lookupAt (hsorted l hl)) (hs.now key u64Max h.standing.seq)
  · intro hfirst
    rw [of_decide_eq_true hfirst]
    rfl
  · rw [List.reverse_sublist]
    exact ((List.drop_sublist m stale).trans (List.sublist_append_left _ _)).map _

/-- The sources of the run without its newest. -/
theorem Engine.stacked_stale (h : Engine env w db held now pinned)
    (hat : RunAt held front stale last back) :
    recordVersions.Stacked (stale.map Prod.snd).reverse := by
  have hs := h.stands.carries.serving.stacked
  rw [h.stands.carries.sources_run hat] at hs
  refine hs.sublist (((List.reverse_sublist.mpr ?_).trans (List.sublist_append_right _ _)).trans
    (List.sublist_append_left _ _))
  exact (List.sublist_append_left stale [last]).map _

/-- What resurfaces beside some of the inputs resurfaces beside all of them. -/
theorem Engine.resurfaces_all (h : Engine env w db held now pinned)
    (hat : RunAt held front stale last back) {m : Nat} {key : Bytes} {newer merged : Set Record}
    (hr : recordVersions.Resurfaces key u64Max newer merged
      (pool ((stale.drop m).map Prod.snd).reverse)) :
    recordVersions.Resurfaces key u64Max newer merged (pool (stale.map Prod.snd).reverse) := by
  have hst := h.stacked_stale hat
  rw [← List.take_append_drop m stale, List.map_append, List.reverse_append] at hst ⊢
  rw [pool_append]
  exact hr.beside (hst.above key u64Max)

end Reads

/-- A key that neither the merge nor anything newer holds, while the newest of the other inputs
that holds it has a value for it: what covered the value was a tombstone, and the merge has
dropped it. -/
def Uncovered (newer : List (List Record)) (merge : List Record) (inputs : List (List Record))
    (key : Bytes) : Prop :=
  (∀ l ∈ newer, ∀ r ∈ l, r.key ≠ key) ∧ (∀ r ∈ merge, r.key ≠ key) ∧
    newestHolding inputs key ≠ none

section Covering

variable {env : Env} {w : World} {db : DbInner} {held : Held} {now : SortedMap Bytes Bytes}
variable {pinned : List (Nat × SortedMap Bytes Bytes)}
variable {front stale back : List (Nat × List Record)} {last : Nat × List Record}

/-- Below a bound that no record reaches, a key is hidden where no record has it. -/
theorem hidden_iff {S : Set Record} {bound : Nat} (hbelow : ∀ r ∈ S, r.seq < bound)
    (key : Bytes) : recordVersions.Hidden S key bound ↔ ∀ r ∈ S, r.key ≠ key :=
  ⟨fun h r hr hkey => h r ⟨hr, hkey, hbelow r hr⟩, fun h r hr => h r hr.1 hr.2.1⟩

/-- The keys that resurface are the uncovered ones. -/
theorem Engine.resurfaces_iff (h : Engine env w db held now pinned)
    (hat : RunAt held front stale last back) (key : Bytes) :
    recordVersions.Resurfaces key u64Max (pool (db.active.iter :: (back.map Prod.snd).reverse))
      (ofList (db.mergeOut front stale last)) (pool (stale.map Prod.snd).reverse) ↔
    Uncovered (db.active.iter :: back.map Prod.snd) (db.mergeOut front stale last)
      (stale.map Prod.snd).reverse key := by
  have hcarries := h.stands.carries
  have hs := hcarries.serving
  rw [hcarries.sources_run hat] at hs
  have hbelow : ∀ l ∈ (db.active.iter :: (back.map Prod.snd).reverse) ++
      ((stale ++ [last]).map Prod.snd).reverse ++ (front.map Prod.snd).reverse,
      ∀ r ∈ l, r.seq < u64Max :=
    fun l hl r hr => lt_of_lt_of_le (hs.below r ⟨l, hl, hr⟩) h.standing.seq
  have hmerge := (hcarries.condenses_run hat (Or.inr h.standing.seq) (k := key)).subset
  have hread : recordVersions.Reads (pool (stale.map Prod.snd).reverse) key u64Max
      (newestHolding (stale.map Prod.snd).reverse key) := by
    refine reads_newestHolding key (h.stacked_stale hat) (fun l hl => ?_) fun l hl => ?_
    · refine hcarries.sorted_run hat l ?_
      simp only [List.mem_reverse, List.map_append, List.mem_append] at hl ⊢
      exact Or.inl hl
    · refine hbelow l ?_
      simp only [List.mem_reverse, List.map_append, List.mem_append] at hl ⊢
      exact Or.inl (Or.inr (Or.inl hl))
  have hnewer : recordVersions.Hidden (pool (db.active.iter :: (back.map Prod.snd).reverse)) key
      u64Max ↔ ∀ l ∈ db.active.iter :: back.map Prod.snd, ∀ r ∈ l, r.key ≠ key := by
    rw [← pool_reverse]
    refine (hidden_iff (fun r hr => ?_) key).trans ?_
    · rw [pool_reverse] at hr
      obtain ⟨l, hl, hr⟩ := hr
      exact hbelow l (List.mem_append_left _ (List.mem_append_left _ hl)) r hr
    · refine ⟨fun hall l hl r hr => hall r ⟨l, ?_, hr⟩, ?_⟩
      · simpa [or_comm] using hl
      · rintro hall r ⟨l, hl, hr⟩
        exact hall l (by simpa [or_comm] using hl) r hr
  have hmerged : recordVersions.Hidden (ofList (db.mergeOut front stale last)) key u64Max ↔
      ∀ r ∈ db.mergeOut front stale last, r.key ≠ key := by
    refine hidden_iff (fun r hr => ?_) key
    obtain ⟨l, hl, hr⟩ := hmerge hr
    exact hbelow l (List.mem_append_left _ (List.mem_append_right _ hl)) r hr
  constructor
  · rintro ⟨hnew, hout, t, ht, hval⟩
    refine ⟨hnewer.mp hnew, hmerged.mp hout, ?_⟩
    rw [Reads.unique (h.stacked_stale hat).onePerSeq hread (Or.inl ⟨t, ht, rfl⟩)]
    exact hval
  · rintro ⟨hnew, hout, hval⟩
    refine ⟨hnewer.mpr hnew, hmerged.mpr hout, ?_⟩
    rcases hread with ⟨t, ht, heq⟩ | ⟨-, hnone⟩
    · exact ⟨t, ht, heq ▸ hval⟩
    · exact absurd hnone hval

end Covering

section Kept

variable {v : Volume Path} {p : Path} {i n : Nat} {b : Bytes}

/-- A crash that loses no byte. -/
def keepAll (v : Volume Path) : Nat → Nat := fun i => (v.inodes i).bytes.length

theorem walBytes_keepAll {dir : String} (h : v.Bound (walPath dir) i b n) :
    walBytes (v.crash (keepAll v)) dir = some b := by
  have hcrash : (v.crash (keepAll v)).Bound (walPath dir) i b b.length := by
    refine ⟨h.name, ?_⟩
    have hb : b.take (max n b.length) = b := List.take_of_length_le (le_max_right _ _)
    simp [Volume.crash, keepAll, h.inode, hb]
  rw [walBytes, hcrash.file]
  rfl

end Kept

section Crash

variable {env : Env} {w : World} {db : DbInner} {held : Held} {now : SortedMap Bytes Bytes}
variable {pinned : List (Nat × SortedMap Bytes Bytes)}
variable {front stale back : List (Nat × List Record)} {last : Nat × List Record}

/-- The search of the sources finds what the map has. -/
theorem Engine.lookup_tables (h : Engine env w db held now pinned) (key : Bytes) :
    ((db.active.iter :: (held.tables.map Prod.snd).reverse).findSome?
      (fun l => lookupAt l key u64Max)).bind Record.value = now.find? key := by
  have hget : DbInner.getAt env key u64Max db w = _ := getAt_serves h.standing.quiet h.serves
  rw [h.stands.sources_eq] at hget
  exact Except.ok.inj (congrArg Prod.fst (hget.symm.trans (h.get key)))

/-- A stop right behind the rename: the merge is searched, and behind it all other inputs. -/
theorem Engine.stop_behind_rename (h : Engine env w db held now pinned) {a b : Nat}
    (hpick : pickHeld env held.tables db.opts.compactionThreshold = some (a, b))
    (hat : RunAt held front stale last back) (ha : a = front.length)
    (hb : b = front.length + (stale.length + 1))
    (hfits : TableFits env (db.mergeOut front stale last)) :
    ∃ v, w.Passes (DbInner.compactStep env db w).2.2 v ∧
      walBytes (v.crash (keepAll v)) db.dir = walBytes w.vol db.dir ∧
      ∀ opts, ∃ db' w', (assemble env db.dir opts : M Unit DbInner) ()
          (World.start (v.crash (keepAll v))) = (.ok db', (), w') ∧
        ∀ key, (DbInner.get env key).result db' w' =
          .ok (((db.active.iter :: ((tablesOnWay front stale last back
            (db.mergeOut front stale last) 0).map Prod.snd).reverse).findSome?
              (fun l => lookupAt l key u64Max)).bind Record.value) := by
  have hl := h.standing.layout
  obtain ⟨g, j, hman⟩ := hl.manifest
  obtain ⟨w', sstables, hrun, -, ⟨v, i, hpass, hsame, hmerged⟩, -⟩ :=
    compactStepImpl_quiet h.standing.quiet hl hpick hat ha hb hfits hman
  rw [compactStep_ok h.standing.healthy hrun]
  obtain ⟨iw, nw, hopen⟩ := hl.log
  have hlog : walBytes (v.crash (keepAll v)) db.dir = walBytes w.vol db.dir := by
    rw [walBytes_keepAll (hopen.bound.same hsame (by simp)), walBytes, hopen.bound.file]
    rfl
  refine ⟨v, hpass, hlog, fun opts => ?_⟩
  obtain ⟨n, db', w', -, hopened, hget⟩ := h.reads_wreck
    (hl.wreck_named hat h.stands.kind h.stands.fits hman hfits
      (sortedRun_compactRecords _ _ (h.stands.carries.sorted_run hat)) hsame hmerged)
    (fun n _ => by rw [List.take_nil, List.append_nil]) (keepAll v) hlog opts
  exact ⟨db', w', hopened, fun key => congrArg Prod.fst (hget key)⟩

/-- Every crash of the compaction leaves every lookup as it was, exactly when no key is
uncovered. -/
theorem Engine.crash_iff (h : Engine env w db held now pinned) {a b : Nat}
    (hpick : pickHeld env held.tables db.opts.compactionThreshold = some (a, b))
    (hat : RunAt held front stale last back) (ha : a = front.length)
    (hb : b = front.length + (stale.length + 1))
    (hfits : TableFits env (db.mergeOut front stale last)) :
    (∀ v keep opts, w.Passes (DbInner.compactStep env db w).2.2 v →
      walBytes (v.crash keep) db.dir = walBytes w.vol db.dir →
      ∃ db' w', (assemble env db.dir opts : M Unit DbInner) () (World.start (v.crash keep)) =
          (.ok db', (), w') ∧
        ∀ key, (DbInner.get env key).result db' w' = .ok (now.find? key)) ↔
    ∀ key, ¬ Uncovered (db.active.iter :: back.map Prod.snd) (db.mergeOut front stale last)
      (stale.map Prod.snd).reverse key := by
  constructor
  · intro hall key hkey
    obtain ⟨v, hpass, hlog, hstop⟩ := h.stop_behind_rename hpick hat ha hb hfits
    obtain ⟨db₁, w₁, hrun₁, hget₁⟩ := hall v (keepAll v) db.opts hpass hlog
    obtain ⟨db₂, w₂, hrun₂, hget₂⟩ := hstop db.opts
    cases hrun₁.symm.trans hrun₂
    have hsame := Except.ok.inj ((hget₂ key).symm.trans (hget₁ key))
    exact (h.lookup_onWay_iff hat 0 key).mp hsame ((h.resurfaces_iff hat key).mpr hkey)
  · intro hno v keep opts hpass hlog
    have hl := h.standing.layout
    obtain ⟨g, j, hman⟩ := hl.manifest
    obtain ⟨w', sstables, hrun, -, -, hgrew⟩ :=
      compactStepImpl_quiet h.standing.quiet hl hpick hat ha hb hfits hman
    rw [compactStep_ok h.standing.healthy hrun] at hpass
    obtain ⟨edits, batch, tables, hwreck, hway⟩ := (hgrew.of_passes hpass).wreck hl hat
      h.stands.kind h.stands.fits hman hfits
      (sortedRun_compactRecords _ _ (h.stands.carries.sorted_run hat))
    obtain ⟨n, db', w', hn, hopen, hget⟩ := h.reads_wreck hwreck (fun n hn => (hway n hn).1)
      keep hlog opts
    refine ⟨db', w', hopen, fun key => ?_⟩
    rw [M.result, hget key]
    refine congrArg Except.ok ?_
    rcases (hway n hn).2 with heq | ⟨m, heq⟩
    · rw [heq]
      exact h.lookup_tables key
    · rw [heq]
      refine (h.lookup_onWay_iff hat m key).mpr fun hr => hno key ?_
      exact (h.resurfaces_iff hat key).mp (h.resurfaces_all hat hr)

/-- A picked run in the tables as they are read. -/
theorem Engine.run_of_picked (h : Engine env w db held now pinned) {a b : Nat}
    (hpick : (pickCompaction db.sstables db.opts.compactionThreshold : M DbInner _).result db w =
      .ok (some (a, b)))
    {contents : List (List Record)}
    (hcontents : (M.collect (fun r : SsTableReader => r.iterAll env)
      (db.sstables.map SsTable.reader)).result db w = .ok contents) :
    ∃ front stale last back, RunAt held front stale last back ∧ a = front.length ∧
      b = front.length + (stale.length + 1) ∧
      pickHeld env held.tables db.opts.compactionThreshold = some (a, b) ∧
      contents.take a = front.map Prod.snd ∧ contents.drop b = back.map Prod.snd ∧
      (contents.take (b - 1)).drop a = stale.map Prod.snd ∧
      compactRecords ((contents.take b).drop a) (decide (a = 0)) db.minSnapshotSeq =
        db.mergeOut front stale last := by
  have hl := h.standing.layout
  have hheld : pickHeld env held.tables db.opts.compactionThreshold = some (a, b) := by
    rw [M.result, pickCompaction_quiet _ hl.opened] at hpick
    exact Except.ok.inj hpick
  obtain ⟨front, stale, last, back, htables, rfl, rfl, -⟩ := pickHeld_split hheld
  have hall : contents = (front ++ (stale ++ [last]) ++ back).map Prod.snd := by
    rw [M.result, collect_iterAll h.standing.quiet (hl.opened.read hl.sound) hl.fit] at hcontents
    rw [← htables]
    exact (Except.ok.inj hcontents).symm
  have hstale : contents = (front.map Prod.snd ++ stale.map Prod.snd) ++
      (last.2 :: back.map Prod.snd) := by
    rw [hall]
    simp
  rw [List.map_append, List.map_append] at hall
  have hzero : decide (front.length = 0) = decide (front = []) :=
    decide_eq_decide.mpr List.length_eq_zero_iff
  refine ⟨front, stale, last, back, ⟨htables, hl.ids⟩, rfl, rfl, hheld, ?_, ?_, ?_, ?_⟩
  · rw [hall, List.append_assoc, List.take_left' (by simp)]
  · rw [hall, List.drop_left' (by simp)]
  · rw [hstale, List.take_left' (by simp), List.drop_left' (by simp)]
  · rw [hall, List.take_left' (by simp), List.drop_left' (by simp), hzero]
    rfl

end Crash

/-- A crash at any point of a compaction, with the log intact, leaves every lookup as it was
exactly when no key is uncovered. -/
theorem compaction_crash_iff (env : Env) (dir : String) {db : DbInner} {w : World} {spec : Spec}
    (hreach : Reaches env dir db w spec) (hfits : CompactionFits env db w) {a b : Nat}
    (hpick : (pickCompaction db.sstables db.opts.compactionThreshold : M DbInner _).result db w =
      .ok (some (a, b)))
    {contents : List (List Record)}
    (hcontents : (M.collect (fun r : SsTableReader => r.iterAll env)
      (db.sstables.map SsTable.reader)).result db w = .ok contents) :
    (∀ v keep opts, w.Passes (DbInner.compactStep env db w).2.2 v →
      walBytes (v.crash keep) dir = walBytes w.vol dir →
      ∃ db' w', (assemble env dir opts : M Unit DbInner) () (World.start (v.crash keep)) =
          (.ok db', (), w') ∧
        ∀ key, (DbInner.get env key).result db' w' = (DbInner.get env key).result db w) ↔
    ∀ key, ¬ Uncovered (db.active.iter :: contents.drop b)
      (compactRecords ((contents.take b).drop a) (decide (a = 0)) db.minSnapshotSeq)
      ((contents.take (b - 1)).drop a).reverse key := by
  obtain ⟨held, heng, rfl, -⟩ := sequenced_of_reaches hreach
  obtain ⟨front, stale, last, back, hat, ha, hb, hheld, -, hdrop, hstale, hmerge⟩ :=
    heng.run_of_picked hpick hcontents
  have hget : ∀ key, (DbInner.get env key).result db w = .ok (spec.now.find? key) :=
    fun key => congrArg Prod.fst (heng.get key)
  rw [hdrop, hstale, hmerge]
  simp only [hget]
  exact heng.crash_iff hheld hat ha hb (heng.standing.fits_mergeOut hfits hheld hat ha hb)

section Pairs

/-- Options under which two tables are a run. -/
def pairwise : Options := { Options.default with compactionThreshold := 2 }

/-- A put and another write of its key, each flushed to a table of its own. -/
def twoTables (second : Option Bytes) (db : DbInner) (w : World) :
    Except Error Unit × DbInner × World :=
  let one := DbInner.writeBatch Stock.env [([1], some [2])] db w
  let two := DbInner.flushInner Stock.env one.2.1 one.2.2
  let three := DbInner.writeBatch Stock.env [([1], second)] two.2.1 two.2.2
  DbInner.flushInner Stock.env three.2.1 three.2.2

/-- Everything that `twoTables` writes fits. -/
def twoTablesFit (second : Option Bytes) (db : DbInner) (w : World) : Bool :=
  let one := DbInner.writeBatch Stock.env [([1], some [2])] db w
  let two := DbInner.flushInner Stock.env one.2.1 one.2.2
  let three := DbInner.writeBatch Stock.env [([1], second)] two.2.1 two.2.2
  decide (WriteFits db [([1], some [2])]) && decide (FlushFits Stock.env one.2.1) &&
    decide (WriteFits two.2.1 [([1], second)]) && decide (FlushFits Stock.env three.2.1)

/-- What a compaction of two tables goes by: the run, all tables, the inputs, the active records
and the lowest snapshot. -/
structure Pair where
  run : Option (Option (Nat × Nat))
  contents : Option (List (List Record))
  inputs : Option (List (List Record))
  active : List Record
  snapshot : Nat
  deriving DecidableEq

def pairIn (db : DbInner) (w : World) : Pair :=
  let read := fun tables : List SsTable => ((M.collect (fun r : SsTableReader =>
    r.iterAll Stock.env) (tables.map SsTable.reader)).result db w).toOption
  ⟨((pickCompaction db.sstables db.opts.compactionThreshold : M DbInner _).result db w).toOption,
    read db.sstables, read ((db.sstables.take 2).drop 0), db.active.iter, db.minSnapshotSeq⟩

/-- The pair that two writes of a key leave, on a fresh directory. -/
def pairOf (second : Option Bytes) : Option (Bool × Pair) :=
  let opened := (assemble Stock.env "db" pairwise : M Unit DbInner) () (World.start Volume.empty)
  opened.1.toOption.map fun db =>
    (twoTablesFit second db opened.2.2,
      pairIn (twoTables second db opened.2.2).2.1 (twoTables second db opened.2.2).2.2)

variable {db : DbInner} {w : World}

theorem reaches_twoTables {second : Option Bytes}
    (hopen : (assemble Stock.env "db" pairwise : M Unit DbInner) () (World.start Volume.empty) =
      (.ok db, (), w)) (hfit : twoTablesFit second db w = true) :
    Reaches Stock.env "db" (twoTables second db w).2.1 (twoTables second db w).2.2
      ⟨applyBatch (SortedMap.empty.insert [1] [2]) [([1], second)], []⟩ := by
  have hfresh : FreshDir "db" Volume.empty := ⟨sound_empty, fun _ _ => rfl⟩
  have h₀ : Reaches Stock.env "db" db w ⟨SortedMap.empty, []⟩ := .opened hfresh (by decide) hopen
  simp only [twoTablesFit, Bool.and_eq_true, decide_eq_true_eq] at hfit
  obtain ⟨⟨⟨hfit₁, hfit₂⟩, hfit₃⟩, hfit₄⟩ := hfit
  obtain ⟨db₁, w₁, hrun₁⟩ :=
    (succeeds_of_sequenced (sequenced_of_reaches h₀)).writeBatch _ hfit₁
  have h₁ := Reaches.writeBatch _ h₀ hfit₁ hrun₁
  rw [hrun₁] at hfit₂ hfit₃ hfit₄
  obtain ⟨db₂, w₂, hrun₂⟩ := (succeeds_of_sequenced (sequenced_of_reaches h₁)).flushOnly hfit₂
  have h₂ := Reaches.flushOnly h₁ hfit₂ hrun₂
  rw [hrun₂] at hfit₃ hfit₄
  obtain ⟨db₃, w₃, hrun₃⟩ :=
    (succeeds_of_sequenced (sequenced_of_reaches h₂)).writeBatch _ hfit₃
  have h₃ := Reaches.writeBatch _ h₂ hfit₃ hrun₃
  rw [hrun₃] at hfit₄
  obtain ⟨db₄, w₄, hrun₄⟩ := (succeeds_of_sequenced (sequenced_of_reaches h₃)).flushOnly hfit₄
  have hall : twoTables second db w = (.ok (), db₄, w₄) := by
    rw [twoTables, hrun₁, hrun₂, hrun₃, hrun₄]
  rw [hall]
  exact Reaches.flushOnly h₃ hfit₄ hrun₄

theorem exists_pair (second : Option Bytes) (pair : Pair)
    (hpair : pairOf second = some (true, pair)) :
    ∃ db w, Reaches Stock.env "db" db w
        ⟨applyBatch (SortedMap.empty.insert [1] [2]) [([1], second)], []⟩ ∧
      pairIn db w = pair := by
  have hfresh : FreshDir "db" Volume.empty := ⟨sound_empty, fun _ _ => rfl⟩
  obtain ⟨db, w, held, hopen, -⟩ := engine_fresh Stock.env pairwise
    (World.quiet_start Volume.empty) (by decide) hfresh
  rw [pairOf, hopen] at hpair
  obtain ⟨hfit, hin⟩ := Prod.ext_iff.mp (Option.some.inj hpair)
  exact ⟨_, _, reaches_twoTables hopen hfit, hin⟩

theorem eq_ok_of_toOption {α : Type} {r : Except Error α} {a : α} (h : r.toOption = some a) :
    r = .ok a := by
  cases r with
  | error e => cases h
  | ok b => exact congrArg _ (Option.some.inj h)

/-- The merge of the two tables fits the format. -/
theorem compactionFits_pair {pair : Pair} {inputs : List (List Record)} (h : pairIn db w = pair)
    (hrun : pair.run = some (some (0, 2))) (hinputs : pair.inputs = some inputs)
    (hfits : TableFits Stock.env (compactRecords inputs true pair.snapshot)) :
    CompactionFits Stock.env db w := by
  subst h
  intro start stop hpick inputs' hread
  cases (eq_ok_of_toOption hrun).symm.trans hpick
  cases (eq_ok_of_toOption hinputs).symm.trans hread
  exact hfits

end Pairs

/-- Two values of one key: whatever crash there is inside their merge, the newer one is read. -/
theorem compaction_crash_iff_puts :
    ∃ db w spec, Reaches Stock.env "db" db w spec ∧
      (pickCompaction db.sstables db.opts.compactionThreshold : M DbInner _).result db w =
        .ok (some (0, 2)) ∧
      ∀ v keep opts, w.Passes (DbInner.compactStep Stock.env db w).2.2 v →
        walBytes (v.crash keep) "db" = walBytes w.vol "db" →
        ∃ db' w', (assemble Stock.env "db" opts : M Unit DbInner) () (World.start (v.crash keep)) =
            (.ok db', (), w') ∧
          ∀ key, (DbInner.get Stock.env key).result db' w' =
            (DbInner.get Stock.env key).result db w := by
  obtain ⟨db, w, hreach, hpair⟩ := exists_pair (some [3])
    ⟨some (some (0, 2)), some [[Record.put [1] [2] 0], [Record.put [1] [3] 1]],
      some [[Record.put [1] [2] 0], [Record.put [1] [3] 1]], [], u64Max⟩ (by decide +kernel)
  have hfits := compactionFits_pair hpair rfl rfl (by decide +kernel)
  simp only [pairIn, Pair.mk.injEq] at hpair
  obtain ⟨hrun, hcontents, -, -, hsnap⟩ := hpair
  refine ⟨db, w, _, hreach, eq_ok_of_toOption hrun, ?_⟩
  refine (compaction_crash_iff Stock.env "db" hreach hfits (eq_ok_of_toOption hrun)
    (eq_ok_of_toOption hcontents)).mpr ?_
  rintro key ⟨-, hmerge, hheld⟩
  rw [hsnap] at hmerge
  have hkey : ¬ ([1] : Bytes) = key := hmerge (Record.put [1] [3] 1) (by decide +kernel)
  exact hheld (by simp [newestHolding, Record.put, hkey])

/-- A put and a delete of one key, each in a table of its own: the merge of the two is empty,
and after a stop right behind its rename the key has its value again. -/
theorem compaction_crash_revives_key :
    ∃ db w spec v db' w', Reaches Stock.env "db" db w spec ∧
      w.Passes (DbInner.compactStep Stock.env db w).2.2 v ∧
      walBytes (v.crash (keepAll v)) "db" = walBytes w.vol "db" ∧
      (DbInner.get Stock.env [1]).result db w = .ok none ∧
      (assemble Stock.env "db" pairwise : M Unit DbInner) ()
        (World.start (v.crash (keepAll v))) = (.ok db', (), w') ∧
      (DbInner.get Stock.env [1]).result db' w' = .ok (some [2]) := by
  obtain ⟨db, w, hreach, hpair⟩ := exists_pair none
    ⟨some (some (0, 2)), some [[Record.put [1] [2] 0], [Record.tombstone [1] 1]],
      some [[Record.put [1] [2] 0], [Record.tombstone [1] 1]], [], u64Max⟩ (by decide +kernel)
  have hfits := compactionFits_pair hpair rfl rfl (by decide +kernel)
  simp only [pairIn, Pair.mk.injEq] at hpair
  obtain ⟨hrun, hcontents, -, hactive, hsnap⟩ := hpair
  obtain ⟨held, heng, hdir, -⟩ := sequenced_of_reaches hreach
  obtain ⟨front, stale, last, back, hat, ha, hb, hheld, hfront, hback, hstale, hmerge⟩ :=
    heng.run_of_picked (eq_ok_of_toOption hrun) (eq_ok_of_toOption hcontents)
  obtain ⟨v, hpass, hlog, hstop⟩ := heng.stop_behind_rename hheld hat ha hb
    (heng.standing.fits_mergeOut hfits hheld hat ha hb)
  obtain ⟨db', w', hopen, hget⟩ := hstop pairwise
  rw [hdir] at hlog hopen
  refine ⟨db, w, _, v, db', w', hreach, hpass, hlog, congrArg Prod.fst (heng.get [1]), hopen,
    (hget [1]).trans (congrArg Except.ok ?_)⟩
  rw [sources_onWay, List.drop_zero, ← hstale, ← hmerge, ← hfront, ← hback, hactive, hsnap]
  decide +kernel

end LsmKv
