import LsmKv.Cuts
import LsmKv.Stock

/-!
# Snapshots among writers and compactions

A snapshot takes two steps: it loads the next sequence number, and it registers
that number as its horizon.  A compaction reads the lowest registered horizon
before it merges.  Between the two steps of a snapshot its horizon is known to
nobody but itself.

**Results.**
* `Pinned.step`: while no compaction reads the lowest horizon above one that is
  loaded and not registered yet, what the tables keep stands for the history in
  every read through a snapshot.
* `snapshot_sees_newest`: so such a read returns the newest write below the horizon.
* `snapshot_repeatable_iff`: reads through a snapshot do not change under writers, if
  no write below its horizon was on its way into the MemTable when it returned.
-/

namespace LsmKv

open Foundation Volume Versioning

/-- The merge under way keeps what a read below `h` needs. -/
def Compactor.Spares (tables : List (Nat × List Record)) (h : Nat) : Compactor → Prop
  | .bounded c minSeq | .merged c minSeq | .named c minSeq =>
      minSeq ≤ h ∨ ∀ t ∈ tables, t.1 ≤ c.maxId → ∀ r ∈ t.2, r.seq < h
  | .free | .listed _ | .chosen _ => True

/-- No compaction reads the lowest horizon above one that is loaded only. -/
def Heeding : Label → System → Prop
  | .bound, s => ∀ h ∈ s.loading, s.db.minSnapshotSeq ≤ h
  | _, _ => True

/-- What holds of the horizons. -/
structure Pinned (s : System) (held : Held) : Prop where
  counted : ∀ h, (s.db.snapshots.find? h).getD 0 = s.live.count h
  kept : ∀ h ∈ s.loading ++ s.live, recordVersions.StandsFor (pool (held.tables.map Prod.snd))
    (ofList (span s.written 0 s.publishedAt)) Set.univ h
  spared : ∀ h ∈ s.loading ++ s.live, s.compactor.Spares held.tables h

namespace Pinned

variable {env : Env} {s s' : System} {held held' : Held} {l : Label}

/-- The lowest horizon is not above a live one. -/
theorem minSnapshotSeq_le (h : Pinned s held) {horizon : Nat} (hlive : horizon ∈ s.live) :
    s.db.minSnapshotSeq ≤ horizon := by
  have hcount : 0 < s.live.count horizon := List.count_pos_iff.mpr hlive
  rw [← h.counted horizon] at hcount
  cases hfind : s.db.snapshots.find? horizon with
  | none =>
      rw [hfind] at hcount
      cases hcount
  | some n =>
      have hmem := (s.db.snapshots.find?_eq_some_iff).mp hfind
      have hkey : horizon ∈ s.db.snapshots.keys := List.mem_map.mpr ⟨_, hmem, rfl⟩
      have hinc : s.db.snapshots.keys.Pairwise (· < ·) :=
        List.pairwise_map.mpr s.db.snapshots.increasing
      unfold DbInner.minSnapshotSeq
      cases hkeys : s.db.snapshots.keys with
      | nil =>
          rw [hkeys] at hkey
          cases hkey
      | cons a l =>
          rw [hkeys] at hkey hinc
          rcases List.mem_cons.mp hkey with rfl | hkey
          · exact le_rfl
          · exact le_of_lt ((List.pairwise_cons.mp hinc).1 horizon hkey)

theorem afterRegister (h : Pinned s held) {horizon : Nat} (hloaded : horizon ∈ s.loading) :
    Pinned
      { s with
        db :=
          { s.db with
            snapshots := s.db.snapshots.insert horizon
              ((s.db.snapshots.find? horizon).getD 0 + 1) }
        loading := s.loading.erase horizon
        live := horizon :: s.live } held := by
  have hsub : ∀ x ∈ s.loading.erase horizon ++ horizon :: s.live, x ∈ s.loading ++ s.live := by
    intro x hx
    rcases List.mem_append.mp hx with hx | hx
    · exact List.mem_append_left _ (List.mem_of_mem_erase hx)
    · rcases List.mem_cons.mp hx with rfl | hx
      · exact List.mem_append_left _ hloaded
      · exact List.mem_append_right _ hx
  refine ⟨fun x => ?_, fun x hx => h.kept x (hsub x hx), fun x hx => h.spared x (hsub x hx)⟩
  dsimp only
  rw [SortedMap.find?_insert, List.count_cons]
  by_cases hx : x = horizon
  · subst hx
    simp [h.counted]
  · simp [hx, Ne.symm hx, h.counted]

theorem afterDrop (h : Pinned s held) {horizon : Nat} {snapshots : SortedMap Nat Nat}
    (halive : horizon ∈ s.live)
    (hrun : DbInner.dropSnapshot horizon s.db s.w =
      (.ok (), { s.db with snapshots := snapshots }, s.w)) :
    Pinned
      { s with
        db := { s.db with snapshots := snapshots }
        live := s.live.erase horizon } held := by
  have hsub : ∀ x ∈ s.loading ++ s.live.erase horizon, x ∈ s.loading ++ s.live := by
    intro x hx
    rcases List.mem_append.mp hx with hx | hx
    · exact List.mem_append_left _ hx
    · exact List.mem_append_right _ (List.mem_of_mem_erase hx)
  refine ⟨fun x => ?_, fun x hx => h.kept x (hsub x hx), fun x hx => h.spared x (hsub x hx)⟩
  have hcount : 0 < s.live.count horizon := List.count_pos_iff.mpr halive
  rw [← h.counted horizon] at hcount
  have hold := h.counted x
  unfold DbInner.dropSnapshot at hrun
  rw [M.update_apply] at hrun
  cases hfind : s.db.snapshots.find? horizon with
  | none =>
      rw [hfind] at hcount
      cases hcount
  | some n =>
      rw [hfind] at hrun
      dsimp only at hrun ⊢
      rw [List.count_erase]
      split_ifs at hrun with hone
      · cases hrun
        rw [SortedMap.find?_erase]
        by_cases hx : x = horizon
        · subst hx
          rw [hfind] at hold
          simp at hold ⊢
          omega
        · simp [hx, Ne.symm hx, hold]
      · cases hrun
        rw [SortedMap.find?_insert]
        by_cases hx : x = horizon
        · subst hx
          rw [hfind] at hold
          simp at hold ⊢
          omega
        · simp [hx, Ne.symm hx, hold]

/-- A new table has a higher id than the run of a compaction. -/
theorem spares_concat {dir : String} {v : Volume Path} {sstables : List SsTable}
    {tables : List (Nat × List Record)} {k : Compactor} {x : Nat} (h : k.Spares tables x)
    (hback : k.Backed env dir v sstables tables) {entry : Nat × List Record}
    (habove : ∀ t ∈ tables, t.1 < entry.1) : k.Spares (tables ++ [entry]) x := by
  have hgoal : ∀ c : DbInner.Choice, (∃ last ∈ tables, c.maxId = last.1) →
      (∀ t ∈ tables, t.1 ≤ c.maxId → ∀ r ∈ t.2, r.seq < x) →
      ∀ t ∈ tables ++ [entry], t.1 ≤ c.maxId → ∀ r ∈ t.2, r.seq < x := by
    rintro c ⟨last, hlast, hmax⟩ hold t ht hle
    rcases List.mem_append.mp ht with ht | ht
    · exact hold t ht hle
    · rw [List.mem_singleton.mp ht, hmax] at hle
      exact absurd (habove last hlast) (not_lt.mpr hle)
  cases k with
  | free => trivial
  | listed ts => trivial
  | chosen c => trivial
  | bounded c minSeq =>
      obtain ⟨front, stale, last, back, hp⟩ := hback
      exact h.imp id (hgoal c ⟨last, hp.mem, hp.maxId⟩)
  | merged c minSeq =>
      obtain ⟨front, stale, last, back, hp, _⟩ := hback
      exact h.imp id (hgoal c ⟨last, hp.mem, hp.maxId⟩)
  | named c minSeq =>
      obtain ⟨front, stale, last, back, hp, _⟩ := hback
      exact h.imp id (hgoal c ⟨last, hp.mem, hp.maxId⟩)

theorem afterPublish (hfiles : Files env s held) (hledger : Ledger s held) (h : Pinned s held)
    {m : MemTable} {id : Nat} {table : SsTable} (hstage : s.flusher = .recorded m id table) :
    Pinned
      { s with
        db := { s.db with sstables := s.db.sstables ++ [table] }
        flusher := .published m
        publishedAt := s.frozenAt }
      { held with tables := held.tables ++ [(id, m.iter)] } := by
  have hback := hfiles.flusher
  rw [hstage] at hback
  refine ⟨h.counted, fun x hx => ?_, fun x hx => ?_⟩
  · exact hledger.standsFor_publish (by rw [hstage]; rfl) (by rw [hstage]; rfl) id (h.kept x hx)
  · exact spares_concat (h.spared x hx) hfiles.compactor hback.1.above

theorem afterFinish (hfiles : Files env s held) (hledger : Ledger s held) (h : Pinned s held)
    {w : World} {c : DbInner.Choice} {minSeq : Nat} {front stale back : List (Nat × List Record)}
    {last : Nat × List Record} (sstables : List SsTable)
    (hstage : s.compactor = .named c minSeq)
    (hp : Picked s.db.sstables held.tables c front stale last back) :
    Pinned
      { s with
        db := { s.db with sstables := sstables }
        w := w
        compactor := .free
        droppedAt := if c.dropTombstones then s.publishedAt else s.droppedAt }
      (held.compacted front stale last back (c.out minSeq stale last)) := by
  refine ⟨h.counted, fun x hx => ?_, fun x hx => trivial⟩
  have hspared := h.spared x hx
  rw [hstage] at hspared
  refine hledger.standsFor_finish hfiles.fit hp (h.kept x hx) ?_ subset_rfl
    fun _ => Set.subset_univ _
  refine hspared.imp id fun hall t ht => hall t ?_ ?_
  · rw [hp.tables]
    exact List.mem_append_left _ (List.mem_append_right _ ht)
  · rw [hp.maxId]
    rcases List.mem_append.mp ht with ht | ht
    · have hids := hfiles.ids
      rw [hp.tables, List.pairwise_map] at hids
      have hrun := (List.pairwise_append.mp (List.pairwise_append.mp hids).1).2.1
      exact le_of_lt ((List.pairwise_append.mp hrun).2.2 t ht last (by simp))
    · rw [List.mem_singleton.mp ht]

/-- A horizon that is loaded now is above everything. -/
theorem afterLoad (hledger : Ledger s held) (h : Pinned s held) :
    Pinned { s with loading := s.db.nextSeq :: s.loading } held := by
  have hbelow : ∀ r ∈ span s.written 0 s.publishedAt, r.seq < s.db.nextSeq := fun r hr =>
    hledger.below r (List.mem_append_left _ (mem_span hr))
  refine ⟨h.counted, fun x hx => ?_, fun x hx => ?_⟩
  · rcases List.mem_cons.mp hx with rfl | hx
    · exact (hledger.kept _ hbelow).mono (Set.subset_univ _)
    · exact h.kept x hx
  · rcases List.mem_cons.mp hx with rfl | hx
    · have hall : ∀ t ∈ held.tables, ∀ r ∈ t.2, r.seq < s.db.nextSeq := fun t ht r hr =>
        hbelow r (hledger.tables_subset ⟨t.2, List.mem_map.mpr ⟨t, ht, rfl⟩, hr⟩)
      show s.compactor.Spares held.tables _
      cases s.compactor with
      | bounded c minSeq | merged c minSeq | named c minSeq =>
          exact Or.inr fun t ht _ => hall t ht
      | _ => trivial
    · exact h.spared x hx

/-- Every step that heeds the horizons keeps them pinned. -/
theorem step (hfiles : Files env s held) (hledger : Ledger s held) (h : Pinned s held)
    (hheed : Heeding l s) (heff : Effect env l s held s' held') : Pinned s' held' := by
  cases heff with
  | insert stage =>
      refine { h with kept := fun x hx => ?_ }
      dsimp only
      rw [span_concat_of_le (hledger.publishedAt_le.trans hledger.frozenAt)]
      exact h.kept x hx
  | publish stage => exact h.afterPublish hfiles hledger stage
  | list free | choose c stage | abandon stage => exact { h with spared := fun _ _ => trivial }
  | bound stage =>
      refine { h with spared := fun x hx => Or.inl ?_ }
      rcases List.mem_append.mp hx with hx | hx
      · exact hheed x hx
      · exact h.minSnapshotSeq_le hx
  | merge stage same grew | name stage free same grew =>
      refine { h with spared := fun x hx => ?_ }
      have hspared := h.spared x hx
      rw [stage] at hspared
      exact hspared
  | finish sstables stage picked covered manifest same grew =>
      exact h.afterFinish hfiles hledger sstables stage picked
  | load => exact h.afterLoad hledger
  | register loaded => exact h.afterRegister loaded
  | drop snapshots alive run => exact h.afterDrop alive run
  | reopen opts idle loading live opened =>
      refine ⟨fun x => ?_, fun x hx => ?_, fun x hx => ?_⟩
      · dsimp only
        rw [opened.snapshots, live]
        rfl
      · rw [show s.loading ++ s.live = [] by rw [loading, live]; rfl] at hx
        cases hx
      · rw [show s.loading ++ s.live = [] by rw [loading, live]; rfl] at hx
        cases hx
  | _ => exact { h with }

end Pinned

section Reads

variable {env : Env} {s : System}

/-- The horizons are pinned in every state a heeding run reaches. -/
theorem Reached.pinned {dir : String} {ok : Label → System → Prop}
    (hok : ∀ l s, ok l s → Fits env l s ∧ Heeding l s) (h : Reached env dir ok s) :
    ∃ held, Files env s held ∧ Ledger s held ∧ Pinned s held := by
  obtain ⟨opts, v, db, w, hfresh, hopen, hrun⟩ := h
  obtain ⟨db', w', hopen', hopened, hfiles⟩ := Files.fresh (w := World.start v) env opts
    (World.quiet_start v) (by simp [World.start]) hfresh
  cases hopen'.symm.trans hopen
  refine hrun.keeps (P := fun s => ∃ held, Files env s held ∧ Ledger s held ∧ Pinned s held)
    ?_ ⟨_, hfiles, Ledger.opened ?_, ?_⟩
  · rintro l s s' ⟨held, hf, hl, hp⟩ hls hstep
    obtain ⟨held', heff, hf'⟩ := hf.step (hok l s hls).1 hstep
    exact ⟨held', hf', hl.step hf.toStored heff, hp.step hf hl (hok l s hls).2 heff⟩
  · rw [show db.active = _ from (Prod.ext_iff.mp hopened.memory).1]
    rfl
  · refine ⟨fun x => ?_, by simp [System.opened], by simp [System.opened]⟩
    show (db.snapshots.find? x).getD 0 = _
    rw [hopened.snapshots]
    rfl

/-- In every interleaving in which no compaction reads the lowest horizon above one that
is loaded and not registered yet, a lookup through a live snapshot returns the newest
write below its horizon. -/
theorem snapshot_sees_newest (env : Env) (dir : String) {s : System}
    (h : Reached env dir (fun l s => Fits env l s ∧ Heeding l s) s) {horizon : Nat}
    (hlive : horizon ∈ s.live) (key : Bytes) :
    ∃ v, DbInner.getAt env key horizon s.db s.w = (.ok v, s.db, s.w) ∧
      recordVersions.Reads (ofList s.written.flatten) key horizon v := by
  obtain ⟨held, hfiles, hledger, hpinned⟩ := h.pinned fun _ _ h => h
  have hserves := serves_seen hfiles hledger hfiles hledger hfiles hfiles.read
  obtain ⟨n, v, hn, hn', hget, hreads⟩ := get_seen key hledger hfiles hledger hledger
    (.refl s) (.refl s) hfiles.quiet hserves
    (hpinned.kept horizon (List.mem_append_right _ hlive))
  refine ⟨v, hget, ?_⟩
  rwa [le_antisymm hn' hn, span_zero_length] at hreads

/-- Two tables are merged under a live snapshot that sees the older one. -/
theorem snapshot_sees_newest_merged :
    ∃ s, Reached Stock.env "db" (fun l s => Fits Stock.env l s ∧ Heeding l s) s ∧
      (1 ∈ s.live ∧ s.db.sstables.length = 1) ∧
      ∃ v, DbInner.getAt Stock.env [1] 1 s.db s.w = (.ok v, s.db, s.w) ∧
        recordVersions.Reads (ofList s.written.flatten) [1] 1 v := by
  have hrun : ((System.start Stock.env "db" ⟨100, .durable, 2, true⟩).bind
      (System.execAll Stock.env
        (fun l s => l != .bound || s.loading.all (fun h => decide (s.db.minSnapshotSeq ≤ h)))
        (System.writeSteps [([1], some [2])] ++ System.flushSteps ++ [.load, .register 1] ++
          System.writeSteps [([1], some [3])] ++ System.flushSteps ++ System.mergeSteps ++
          [.name, .finish]))).any
      (fun s => decide (1 ∈ s.live ∧ s.db.sstables.length = 1)) = true := by
    decide +kernel
  obtain ⟨s, hreached, htest⟩ := System.execAll_any hrun
  have hheeds : Reached Stock.env "db" (fun l s => Fits Stock.env l s ∧ Heeding l s) s := by
    refine hreached.weaken fun l s h => ⟨h.1, ?_⟩
    cases l with
    | bound => simpa [Heeding] using h.2
    | _ => trivial
  obtain ⟨hlive, hone⟩ := of_decide_eq_true htest
  exact ⟨s, hheeds, ⟨hlive, hone⟩, snapshot_sees_newest Stock.env "db" hheeds hlive [1]⟩

/-- A snapshot loads its horizon; the key is overwritten, and a compaction that knows of no
horizon merges both versions; then the snapshot is registered.  A lookup through it
finds nothing, although the first write is below its horizon. -/
theorem snapshot_loses_version :
    ∃ s, Reached Stock.env "db" (Fits Stock.env) s ∧ 1 ∈ s.live ∧ s.writer.pending = [] ∧
      (DbInner.getAt Stock.env [1] 1 s.db s.w).1.toOption = some none ∧
      recordVersions.Reads (ofList s.written.flatten) [1] 1 (some [2]) := by
  have hrun : ((System.start Stock.env "db" ⟨100, .durable, 2, true⟩).bind
      (System.execAll Stock.env (fun _ _ => true)
        (System.writeSteps [([1], some [2])] ++ System.flushSteps ++ [.load] ++
          System.writeSteps [([1], some [3])] ++ System.flushSteps ++ System.mergeSteps ++
          [.name, .finish, .register 1]))).any
      (fun s => decide (1 ∈ s.live ∧ s.writer.pending = [] ∧
        (DbInner.getAt Stock.env [1] 1 s.db s.w).1.toOption = some none ∧
        s.written.flatten = [Record.put [1] [2] 0, Record.put [1] [3] 1])) = true := by
    decide +kernel
  obtain ⟨s, hreached, htest⟩ := System.execAll_any hrun
  obtain ⟨hlive, hfree, hget, hwritten⟩ := of_decide_eq_true htest
  refine ⟨s, hreached.weaken fun _ _ h => h.1, hlive, hfree, hget, Or.inl ?_⟩
  rw [hwritten]
  refine ⟨Record.put [1] [2] 0, ⟨⟨by simp, rfl, by decide⟩, fun r hr => ?_⟩, rfl⟩
  have := hr.2.2
  exact Nat.le_of_lt_succ this

end Reads

section Repeat

/-- The steps of writers and of snapshots. -/
def Label.writes : Label → Bool
  | .number _ | .log | .insert | .load | .register _ | .drop _ => true
  | _ => false

/-- Steps of writers and of snapshots only. -/
def Writing (env : Env) (l : Label) (s : System) : Prop := Fits env l s ∧ l.writes = true

/-- The batch that has its numbers and is not inserted yet. -/
def Writer.batches : Writer → List (List Record)
  | .free => []
  | .numbered records => [records]
  | .logged records => [records]

/-- The map the writes below a horizon leave behind. -/
def mapBelow (h : Nat) (W : List (List Record)) : SortedMap Bytes Bytes :=
  mapAfter (W.map (fun b => b.filter (fun r => decide (r.seq < h))))

/-- Reads below `h` on a handle return what the map has. -/
def ShowsMap (env : Env) (h : Nat) (m : SortedMap Bytes Bytes) (db : DbInner) (w : World) :
    Prop :=
  (∀ key, (DbInner.getAt env key h db w).1 = .ok (m.find? key)) ∧
    ∀ start stop limit, (DbInner.scanAt env start stop limit h db w).1 =
      .ok ((entriesWithin m start stop).take limit)

variable {env : Env} {s s' : System} {held held' : Held} {l : Label} {h : Nat}

theorem Writer.flatten_batches (w : Writer) : w.batches.flatten = w.pending := by
  cases w <;> simp [Writer.batches, Writer.pending]

/-- Writes at or above the horizon are not in the map. -/
theorem mapBelow_append {W rest : List (List Record)} (hrest : ∀ r ∈ rest.flatten, h ≤ r.seq) :
    mapBelow h (W ++ rest) = mapBelow h W := by
  have hnil : (rest.map (fun b => b.filter (fun r => decide (r.seq < h)))).flatten = [] := by
    rw [List.flatten_eq_nil_iff]
    intro b' hb'
    obtain ⟨b, hb, rfl⟩ := List.mem_map.mp hb'
    rw [List.filter_eq_nil_iff]
    intro r hr
    have := hrest r (List.mem_flatten.mpr ⟨b, hb, hr⟩)
    simpa using this
  unfold mapBelow mapAfter
  rw [List.map_append, List.flatten_append, hnil, List.append_nil]

theorem reads_mapBelow {W : List (List Record)} (hW : recordVersions.Rising W.flatten) (n : Nat)
    (k : Bytes) :
    recordVersions.Reads (ofList (span W 0 n)) k h ((mapBelow h (W.take n)).find? k) := by
  have hflat : ((W.take n).map (fun b => b.filter (fun r => decide (r.seq < h)))).flatten =
      (span W 0 n).filter (fun r => decide (r.seq < h)) := by
    rw [span, List.drop_zero, List.filter_flatten]
  have hrising : recordVersions.Rising (span W 0 n) := by
    rw [span, List.drop_zero]
    exact hW.sublist (List.take_sublist n W).flatten
  unfold mapBelow
  rw [find?_mapAfter, hflat]
  refine (reads_valueAfter (hrising.sublist List.filter_sublist) ?_ k).congr fun r => ?_
  · exact fun r hr => of_decide_eq_true (List.mem_filter.mp hr).2
  · constructor
    · exact fun hr => hr.mono fun x hx => (List.mem_filter.mp hx).1
    · exact fun hr => ⟨List.mem_filter.mpr ⟨hr.1, decide_eq_true hr.2.2⟩, hr.2⟩

/-- The tables keep what reads below `h` need, and numbers below `h` are given away. -/
structure Watched (h : Nat) (s : System) (held : Held) : Prop where
  kept : recordVersions.StandsFor (pool (held.tables.map Prod.snd))
    (ofList (span s.written 0 s.publishedAt)) (ofList (span s.written 0 s.droppedAt)) h
  given : h ≤ s.db.nextSeq

/-- Writers change no table. -/
theorem Watched.step (hledger : Ledger s held) (hw : Watched h s held) (hl : l.writes = true)
    (heff : Effect env l s held s' held') : Watched h s' held' := by
  cases heff with
  | number batch hne hfree hseqs => exact ⟨hw.kept, hw.given.trans (Nat.le_add_right _ _)⟩
  | insert stage =>
      have hpub := hledger.publishedAt_le.trans hledger.frozenAt
      refine ⟨?_, hw.given⟩
      dsimp only
      rw [span_concat_of_le hpub, span_concat_of_le (hledger.droppedAt_le.trans hpub)]
      exact hw.kept
  | log stage fits synced same grew => exact ⟨hw.kept, hw.given⟩
  | load => exact ⟨hw.kept, hw.given⟩
  | register loaded => exact ⟨hw.kept, hw.given⟩
  | drop snapshots alive run => exact ⟨hw.kept, hw.given⟩
  | _ => cases hl

theorem Watched.run (hrun : Steps env (Writing env) s s')
    (hs : ∃ held, Files env s held ∧ Ledger s held ∧ Watched h s held) :
    ∃ held, Files env s' held ∧ Ledger s' held ∧ Watched h s' held := by
  refine hrun.keeps
    (P := fun s => ∃ held, Files env s held ∧ Ledger s held ∧ Watched h s held) ?_ hs
  rintro l s s' ⟨held, hf, hl, hw⟩ hls hstep
  obtain ⟨held', heff, hf'⟩ := hf.step hls.1 hstep
  exact ⟨held', hf', hl.step hf.toStored heff, hw.step hl hls.2 heff⟩

/-- What has become of the batch that was on its way in `s`. -/
def Since (h : Nat) (s t : System) : Prop :=
  (t.written = s.written ∧ t.writer.batches = s.writer.batches) ∨
    ∃ rest, t.written = s.written ++ s.writer.batches ++ rest ∧
      ∀ r ∈ rest.flatten ++ t.writer.pending, h ≤ r.seq

theorem Since.step {t t' : System} {heldt heldt' : Held} (hw : Watched h t heldt)
    (hsince : Since h s t) (hl : l.writes = true) (heff : Effect env l t heldt t' heldt') :
    Since h s t' := by
  cases heff with
  | number batch hne hfree hseqs =>
      have hnew : ∀ r ∈ DbInner.numberRecords t.db.nextSeq batch, h ≤ r.seq := fun r hr =>
        hw.given.trans (seq_numberRecords hr).1
      right
      rcases hsince with ⟨hwritten, hbatch⟩ | ⟨rest, hwritten, hrest⟩
      · rw [hfree] at hbatch
        exact ⟨[], by rw [hwritten, ← hbatch]; simp [Writer.batches], hnew⟩
      · rw [hfree] at hrest
        refine ⟨rest, hwritten, fun r hr => ?_⟩
        rcases List.mem_append.mp hr with hr | hr
        · exact hrest r (List.mem_append_left _ hr)
        · exact hnew r hr
  | log stage fits synced same grew =>
      rcases hsince with ⟨hwritten, hbatch⟩ | ⟨rest, hwritten, hrest⟩
      · rw [stage] at hbatch
        exact Or.inl ⟨hwritten, hbatch⟩
      · rw [stage] at hrest
        exact Or.inr ⟨rest, hwritten, hrest⟩
  | insert stage =>
      right
      rcases hsince with ⟨hwritten, hbatch⟩ | ⟨rest, hwritten, hrest⟩
      · rw [stage] at hbatch
        exact ⟨[], by rw [hwritten, ← hbatch]; simp [Writer.batches], by simp [Writer.pending]⟩
      · rw [stage] at hrest
        refine ⟨rest ++ [_], by rw [hwritten, List.append_assoc], fun r hr => hrest r ?_⟩
        simpa [Writer.pending] using hr
  | load => exact hsince
  | register loaded => exact hsince
  | drop snapshots alive run => exact hsince
  | _ => cases hl

theorem Since.run {t : System} (hrun : Steps env (Writing env) s t)
    (hs : ∃ held, Files env s held ∧ Ledger s held ∧ Watched h s held) : Since h s t := by
  induction hrun with
  | refl => exact Or.inl ⟨rfl, rfl⟩
  | tail hrun hlast ih =>
      obtain ⟨held, hf, hl, hw⟩ := Watched.run hrun hs
      obtain ⟨l, hls, hstep⟩ := hlast
      obtain ⟨held', heff, _⟩ := hf.step hls.1 hstep
      exact Since.step hw ih hls.2 heff

/-- A beginning of a later history shows the map of `s`, or that with the batch that was on
its way. -/
theorem Since.mapBelow_take {t : System} (hsince : Since h s t) {n : Nat}
    (hn : s.written.length ≤ n) :
    mapBelow h (t.written.take n) = mapBelow h s.written ∨
      mapBelow h (t.written.take n) = mapBelow h (s.written ++ s.writer.batches) := by
  rcases hsince with ⟨hwritten, _⟩ | ⟨rest, hwritten, hrest⟩
  · left
    rw [hwritten, List.take_of_length_le hn]
  · have hrest' : ∀ k, ∀ r ∈ (rest.take k).flatten, h ≤ r.seq := fun k r hr =>
      hrest r (List.mem_append_left _ ((List.take_sublist k rest).flatten.mem hr))
    by_cases hlen : n < (s.written ++ s.writer.batches).length
    · -- the batch is the one write that the beginning is short of
      left
      have hn' : n = s.written.length := by
        have : s.writer.batches.length ≤ 1 := by cases s.writer <;> simp [Writer.batches]
        rw [List.length_append] at hlen
        omega
      rw [hwritten, List.append_assoc, hn', List.take_left]
    · right
      rw [hwritten, List.take_append, List.take_of_length_le (not_lt.mp hlen)]
      exact mapBelow_append (hrest' _)

variable {a b c d : System}

theorem Writing.onHandle (h : Writing env l s) : Fits env l s ∧ l.onHandle = true := by
  refine ⟨h.1, ?_⟩
  have hl := h.2
  cases l <;> first | rfl | cases hl

theorem Writing.keeping (h : Writing env l s) : Keeping l s := by
  have hl := h.2
  cases l <;> trivial

/-- What a lookup and a scan below `h` show that writers overtake. -/
theorem Watched.shows (hs : ∃ held, Files env a held ∧ Ledger a held ∧ Watched h a held)
    (hab : Steps env (Writing env) a b) (hbc : Steps env (Writing env) b c)
    (hcd : Steps env (Writing env) c d) :
    (∀ key, ∃ n, a.written.length ≤ n ∧ n ≤ c.written.length ∧
      (DbInner.getAt env key h (System.seen a b c) d.w).1 =
        .ok ((mapBelow h (c.written.take n)).find? key)) ∧
    ∃ n, a.written.length ≤ n ∧ n ≤ c.written.length ∧ ∀ start stop limit,
      (DbInner.scanAt env start stop limit h (System.seen a b c) d.w).1 =
        .ok ((entriesWithin (mapBelow h (c.written.take n)) start stop).take limit) := by
  obtain ⟨helda, hfa, hla, hwa⟩ := hs
  obtain ⟨heldb, hfb, hlb, hwb⟩ := Watched.run hab ⟨helda, hfa, hla, hwa⟩
  obtain ⟨heldc, hfc, hlc, hwc⟩ := Watched.run hbc ⟨heldb, hfb, hlb, hwb⟩
  have hb₁ := hab.before (fun _ _ h => h.1) ⟨helda, hfa, hla⟩
  have hb₂ := hbc.before (fun _ _ h => h.1) ⟨heldb, hfb, hlb⟩
  obtain ⟨hq, hread⟩ := hcd.tablesRead (fun _ _ h => h.onHandle) ⟨heldc, hfc⟩ hfc.read
  have hserves := serves_seen hfa hla hfb hlb hfc hread
  have hrising := hlc.written_rising
  refine ⟨fun key => ?_, ?_⟩
  · obtain ⟨n, v, hn, hn', hget, hreads⟩ :=
      get_seen key hla hfb hlb hlc hb₁ hb₂ hq hserves hwc.kept
    have hone : recordVersions.OnePerSeq (ofList (span c.written 0 n)) :=
      hrising.onePerSeq.mono fun r hr => mem_span hr
    refine ⟨n, hn, hn', ?_⟩
    rw [hget, hreads.unique hone (reads_mapBelow hrising n key)]
  · have hdropped : c.droppedAt ≤ a.frozenAt := by
      rw [hbc.droppedAt (fun _ _ h => h.keeping), hab.droppedAt (fun _ _ h => h.keeping)]
      exact hla.droppedAt_le.trans hla.publishedAt_le
    obtain ⟨n, hn, hn', hholds⟩ := holds_seen hla hfb hlb hlc hb₁ hb₂ hdropped hwc.kept
    refine ⟨n, hn, hn', fun start stop limit => ?_⟩
    rw [scanAt_holds hq hserves (hholds _ (reads_mapBelow hrising n)) start stop limit]

/-- The batch on its way can always be inserted. -/
theorem Files.insertPending (hfiles : Files env s held) (hfits : BatchFits s.writer.pending) :
    ∃ t, Steps env (Writing env) s t ∧ t.written = s.written ++ s.writer.batches := by
  have hinsert : ∀ (u : System) (records : List Record), u.writer = .logged records →
      ∃ t, Steps env (Writing env) u t ∧ t.written = u.written ++ [records] := by
    intro u records hstage
    exact ⟨_, .single ⟨.insert, ⟨trivial, rfl⟩, .insert hstage rfl⟩, rfl⟩
  cases hwriter : s.writer with
  | free => exact ⟨s, .refl, (List.append_nil _).symm⟩
  | numbered records =>
      have hfits' := hfits
      rw [hwriter] at hfits'
      obtain ⟨w', hrun, _⟩ := hfiles.afterLog (hfiles.numbered _ hwriter) hfits'
      obtain ⟨t, ht, hwritten⟩ :=
        hinsert { s with w := w', writer := .logged records } records rfl
      exact ⟨t, .head ⟨.log, ⟨hfits, rfl⟩, .log hwriter hrun⟩ ht, hwritten⟩
  | logged records => exact hinsert s records hwriter

/-- Take a snapshot among writers.  Lookups and scans through it, whose reads of the
active MemTable, the frozen slot and the live set fall anywhere between writers' steps,
all show the writes below its horizon that were inserted when it returned, if and only
if the batch that was on its way into the MemTable then changes nothing below the
horizon. -/
theorem snapshot_repeatable_iff (env : Env) (dir : String) {s₀ s₀' s₁ s : System}
    (h₀ : Reached env dir (Fits env) s₀) (hload : Step env .load s₀ s₀')
    (h₁ : Steps env (Writing env) s₀' s₁) (hregister : Step env (.register s₀.db.nextSeq) s₁ s)
    (hfits : BatchFits s.writer.pending) :
    (∀ a b c d, Steps env (Writing env) s a → Steps env (Writing env) a b →
      Steps env (Writing env) b c → Steps env (Writing env) c d →
      ShowsMap env s₀.db.nextSeq (mapBelow s₀.db.nextSeq s.written) (System.seen a b c) d.w) ↔
    mapBelow s₀.db.nextSeq (s.written ++ s.writer.batches) =
      mapBelow s₀.db.nextSeq s.written := by
  obtain ⟨held₀, hf₀, hl₀⟩ := h₀.ledger fun _ _ h => h
  have hw₀ : Watched s₀.db.nextSeq s₀ held₀ :=
    ⟨hl₀.kept _ fun r hr => hl₀.below r (List.mem_append_left _ (mem_span hr)), le_rfl⟩
  have hrun : Steps env (Writing env) s₀ s :=
    .head ⟨.load, ⟨trivial, rfl⟩, hload⟩ (.tail h₁ ⟨.register _, ⟨trivial, rfl⟩, hregister⟩)
  have hs := Watched.run hrun ⟨held₀, hf₀, hl₀, hw₀⟩
  constructor
  · intro hall
    obtain ⟨held, hf, hl, hw⟩ := hs
    obtain ⟨t, ht, hwritten⟩ := hf.insertPending hfits
    have hshows := hall t t t t ht .refl .refl .refl
    obtain ⟨hget, _⟩ := Watched.shows (Watched.run ht ⟨held, hf, hl, hw⟩) .refl .refl
      (.refl : Steps env (Writing env) t t)
    refine SortedMap.ext_find? fun key => ?_
    obtain ⟨n, hn, hn', heq⟩ := hget key
    rw [List.take_of_length_le hn, hwritten] at heq
    exact Except.ok.inj (heq.symm.trans (hshows.1 key))
  · intro hmap a b c d hsa hab hbc hcd
    have hlen : s.written.length ≤ a.written.length :=
      (hsa.before (fun _ _ h => h.1) (by obtain ⟨held, hf, hl, _⟩ := hs; exact ⟨held, hf, hl⟩)
        ).written.length_le
    have hsince := Since.run ((hsa.trans hab).trans hbc) hs
    have hsame : ∀ n, a.written.length ≤ n →
        mapBelow s₀.db.nextSeq (c.written.take n) = mapBelow s₀.db.nextSeq s.written := by
      intro n hn
      rcases hsince.mapBelow_take (hlen.trans hn) with h | h
      · exact h
      · exact h.trans hmap
    obtain ⟨hget, n, hn, _, hscan⟩ := Watched.shows (Watched.run hsa hs) hab hbc hcd
    refine ⟨fun key => ?_, fun start stop limit => ?_⟩
    · obtain ⟨n, hn, _, heq⟩ := hget key
      rw [heq, hsame n hn]
    · rw [hscan start stop limit, hsame n hn]

/-- A snapshot while the next write has its number already, but nothing is written. -/
theorem snapshot_repeatable_iff_numbered :
    ∃ s, s.writer.batches = [[Record.put [1] [3] 1]] ∧
      ∀ a b c d, Steps Stock.env (Writing Stock.env) s a →
        Steps Stock.env (Writing Stock.env) a b → Steps Stock.env (Writing Stock.env) b c →
        Steps Stock.env (Writing Stock.env) c d →
        ShowsMap Stock.env 1 (mapBelow 1 s.written) (System.seen a b c) d.w := by
  have hrun : ((System.start Stock.env "db" Options.default).bind
      (System.execAll Stock.env (fun _ _ => true) (System.writeSteps [([1], some [2])]))).any
      (fun s₀ => decide (s₀.db.nextSeq = 1) && (System.exec Stock.env .load s₀).any
        (fun s₀' => (System.execAll Stock.env (fun l _ => l.writes)
          [.number [([1], some [3])]] s₀').any
          (fun s₁ => (System.exec Stock.env (.register 1) s₁).any
            (fun s => decide (s.writer.batches = [[Record.put [1] [3] 1]] ∧
              BatchFits s.writer.pending))))) = true := by
    decide +kernel
  obtain ⟨s₀, h₀, hs₀⟩ := System.execAll_any hrun
  obtain ⟨hseq, hs₀⟩ := Bool.and_eq_true_iff.mp hs₀
  obtain ⟨s₀', hload, hs₀'⟩ := exists_of_any hs₀
  obtain ⟨s₁, hs₁, htest⟩ := exists_of_any hs₀'
  obtain ⟨s, hregister, htest⟩ := exists_of_any htest
  obtain ⟨hbatch, hfits⟩ := of_decide_eq_true htest
  replace hseq : s₀.db.nextSeq = 1 := of_decide_eq_true hseq
  rw [← hseq] at hregister
  have hiff := snapshot_repeatable_iff Stock.env "db" (h₀.weaken fun _ _ h => h.1)
    (System.exec_step hload) (System.execAll_steps hs₁) (System.exec_step hregister) hfits
  rw [hseq] at hiff
  refine ⟨s, hbatch, hiff.mpr ?_⟩
  rw [hbatch]
  exact mapBelow_append (by decide)

/-- A writer has taken its number when the snapshot loads its horizon, and inserts after
the snapshot is registered: the first lookup through the snapshot finds nothing, the
second finds the write. -/
theorem snapshot_shows_later_insert :
    ∃ s s', Reached Stock.env "db" (Fits Stock.env) s ∧
      Steps Stock.env (Writing Stock.env) s s' ∧ 1 ∈ s.live ∧ s.written = [] ∧
      (DbInner.getAt Stock.env [1] 1 s.db s.w).1.toOption = some none ∧
      (DbInner.getAt Stock.env [1] 1 s'.db s'.w).1.toOption = some (some [2]) := by
  have hrun : ((System.start Stock.env "db" Options.default).bind
      (System.execAll Stock.env (fun _ _ => true)
        [.number [([1], some [2])], .load, .register 1])).any
      (fun s => (System.execAll Stock.env (fun l _ => l.writes) [.log, .insert] s).any
        (fun s' => decide (1 ∈ s.live ∧ s.written = [] ∧
          (DbInner.getAt Stock.env [1] 1 s.db s.w).1.toOption = some none ∧
          (DbInner.getAt Stock.env [1] 1 s'.db s'.w).1.toOption = some (some [2])))) = true := by
    decide +kernel
  obtain ⟨s, s', hreached, hsteps, htest⟩ := System.execAll_any_later hrun
  exact ⟨s, s', hreached.weaken fun _ _ h => h.1, hsteps, of_decide_eq_true htest⟩

end Repeat

end LsmKv
