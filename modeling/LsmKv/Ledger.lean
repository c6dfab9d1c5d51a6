import LsmKv.Effects
import LsmKv.Foundation.Histories

/-!
# The records behind a system

Every record a system ever accepted stands in `written`, batch by batch, and the
sequence numbers rise along it.  `Ledger` says where each part of that history is
to be found: the newest part in the active MemTable, the part before in the frozen
slot, and what the tables hold stands for the rest.

**Results.**
* `Ledger.step`, `Ledger.run`: every interleaving keeps the ledger.
* `Reached.ledger`: so it holds in every state of a database opened on a fresh
  directory.
-/

namespace LsmKv

open Foundation Volume Versioning

/-- Whether the manifest has the counters of the last freeze. -/
def Flusher.secured : Flusher → Bool
  | .frozen _ | .written _ _ | .placed _ _ _ | .counted _ _ _ _ _ => false
  | _ => true

/-- How far the records of the last freeze have come. -/
structure Traced (f : Flusher) (W : List (List Record))
    (frozenFrom frozenAt publishedAt loggedFrom nextSeq : Nat) : Prop where
  slot : ∀ m, f.slot = some m → ofList m.iter = ofList (span W frozenFrom frozenAt)
  published : publishedAt = if f.unpublished then frozenFrom else frozenAt
  logged : loggedFrom = if f.unlogged then frozenFrom else frozenAt
  secured : ∀ r ∈ span W 0 (if f.secured then frozenAt else frozenFrom), r.seq < nextSeq
  counted : ∀ m id table a b, f = .counted m id table a b →
    ∀ r ∈ span W 0 frozenAt, r.seq < b

/-- Where the history of a system is to be found. -/
structure Ledger (s : System) (held : Held) : Prop where
  rising : recordVersions.Rising (s.written.flatten ++ s.writer.pending)
  below : ∀ r ∈ s.written.flatten ++ s.writer.pending, r.seq < s.db.nextSeq
  frozenFrom : s.frozenFrom ≤ s.frozenAt
  frozenAt : s.frozenAt ≤ s.written.length
  active : ofList s.db.active.iter = ofList (span s.written s.frozenAt s.written.length)
  traced : Traced s.flusher s.written s.frozenFrom s.frozenAt s.publishedAt s.loggedFrom
    (applyAll held.edits).nextSeq
  levels : held.tables.Pairwise (fun a b => ∀ r ∈ a.2, ∀ r' ∈ b.2, r.seq < r'.seq)
  dropped : s.droppedAt ≤ s.loggedFrom
  kept : ∀ h, (∀ r ∈ span s.written 0 s.publishedAt, r.seq < h) →
    recordVersions.StandsFor (pool (held.tables.map Prod.snd))
      (ofList (span s.written 0 s.publishedAt)) (ofList (span s.written 0 s.droppedAt)) h
  logged : ofList held.log.flatten =
    ofList (span s.written s.loggedFrom s.written.length) ∪ ofList s.writer.ahead.flatten

section Records

/-- The numbers of a batch rise from the first. -/
theorem seq_numberRecords {n : Nat} {batch : WriteBatch} {r : Record}
    (h : r ∈ DbInner.numberRecords n batch) : n ≤ r.seq ∧ r.seq < n + batch.length := by
  induction batch generalizing n with
  | nil => cases h
  | cons op ops ih =>
      rw [List.length_cons]
      rcases List.mem_cons.mp h with rfl | h
      · rw [seq_recordOf]
        omega
      · have := ih h
        omega

theorem rising_numberRecords (n : Nat) (batch : WriteBatch) :
    recordVersions.Rising (DbInner.numberRecords n batch) := by
  induction batch generalizing n with
  | nil => exact List.Pairwise.nil
  | cons op ops ih =>
      refine List.pairwise_cons.mpr ⟨fun r hr => ?_, ih (n + 1)⟩
      have := (seq_numberRecords hr).1
      show (DbInner.recordOf op.1 op.2 n).seq < r.seq
      rw [seq_recordOf]
      omega

/-- Inserts add their records where a version determines the record. -/
theorem ofList_iter_foldl {m : MemTable} {records : List Record}
    (h : ∀ a ∈ m.iter ++ records, ∀ b ∈ records, a.version = b.version → a = b) :
    ofList (records.foldl MemTable.insert m).iter = ofList m.iter ∪ ofList records := by
  induction records generalizing m with
  | nil =>
      ext r
      simp
  | cons x l ih =>
      have hx : ∀ a, a ∈ (m.insert x).iter ↔ a ∈ m.iter ∨ a = x := by
        intro a
        rw [MemTable.mem_iter_insert]
        constructor
        · rintro (rfl | ⟨ha, _⟩)
          · exact Or.inr rfl
          · exact Or.inl ha
        · rintro (ha | rfl)
          · by_cases hv : a.version = x.version
            · exact Or.inl (h a (by simp [ha]) x (by simp) hv)
            · exact Or.inr ⟨ha, hv⟩
          · exact Or.inl rfl
      have hrest := ih (m := m.insert x) (by
        intro a ha b hb
        refine h a ?_ b (List.mem_cons_of_mem _ hb)
        rcases List.mem_append.mp ha with ha | ha
        · rcases (hx a).mp ha with ha | rfl
          · simp [ha]
          · simp
        · simp [ha])
      rw [List.foldl_cons, hrest]
      ext a
      simp only [Set.mem_union, mem_ofList, hx, List.mem_cons, or_assoc]

theorem OnePerSeq.version {S : Set Record} (h : recordVersions.OnePerSeq S) {a b : Record}
    (ha : a ∈ S) (hb : b ∈ S) (hv : a.version = b.version) : a = b :=
  h a ha b hb (versionKey_inj.mp hv).1 (versionKey_inj.mp hv).2

/-- Behind a replay the next number is above all the numbers seen. -/
theorem replayInto_snd_gt {records : List Record} (m : MemTable) (n : Nat)
    (h : ∀ r ∈ records, r.seq < u64Max) :
    n ≤ (replayInto records m n).2 ∧ ∀ r ∈ records, r.seq < (replayInto records m n).2 := by
  induction records generalizing m n with
  | nil => exact ⟨le_rfl, by simp⟩
  | cons a l ih =>
      have ha := h a (by simp)
      have hmod : (a.seq + 1) % 2 ^ 64 = a.seq + 1 := Nat.mod_eq_of_lt (by
        unfold u64Max at ha
        omega)
      obtain ⟨hle, hrest⟩ := ih (m.insert a) (max n ((a.seq + 1) % 2 ^ 64))
        fun r hr => h r (List.mem_cons_of_mem _ hr)
      rw [hmod] at hle hrest
      have hcons : replayInto (a :: l) m n =
          replayInto l (m.insert a) (max n (a.seq + 1)) := by
        rw [← hmod]
        rfl
      rw [hcons]
      refine ⟨by omega, fun r hr => ?_⟩
      rcases List.mem_cons.mp hr with rfl | hr
      · omega
      · exact hrest r hr

end Records

namespace Ledger

variable {env : Env} {s s' : System} {held held' : Held} {l : Label}

theorem publishedAt_le (h : Ledger s held) : s.publishedAt ≤ s.frozenAt := by
  have := h.frozenFrom
  rw [h.traced.published]
  split_ifs
  · exact this
  · exact le_rfl

theorem loggedFrom_le (h : Ledger s held) : s.loggedFrom ≤ s.written.length := by
  have h₁ := h.frozenFrom
  have h₂ := h.frozenAt
  rw [h.traced.logged]
  split_ifs <;> omega

theorem loggedFrom_le_publishedAt (h : Ledger s held) : s.loggedFrom ≤ s.publishedAt := by
  have := h.frozenFrom
  rw [h.traced.logged, h.traced.published]
  cases s.flusher <;> simp [Flusher.unlogged, Flusher.unpublished, this]

theorem droppedAt_le (h : Ledger s held) : s.droppedAt ≤ s.publishedAt :=
  h.dropped.trans h.loggedFrom_le_publishedAt

theorem written_rising (h : Ledger s held) : recordVersions.Rising s.written.flatten :=
  h.rising.sublist (List.sublist_append_left _ _)

/-- The tables hold records of the published part only. -/
theorem tables_subset (h : Ledger s held) :
    pool (held.tables.map Prod.snd) ⊆ ofList (span s.written 0 s.publishedAt) :=
  (h.kept s.db.nextSeq fun _ hr => h.below _ (List.mem_append_left _ (mem_span hr))).subset

/-- A version of the history determines its record. -/
theorem version_eq (h : Ledger s held) {a b : Record}
    (ha : a ∈ s.written.flatten ++ s.writer.pending)
    (hb : b ∈ s.written.flatten ++ s.writer.pending) (hv : a.version = b.version) : a = b :=
  OnePerSeq.version h.rising.onePerSeq ha hb hv

theorem afterNumber (h : Ledger s held) (hfree : s.writer = .free) (batch : WriteBatch) :
    Ledger
      { s with
        db := { s.db with nextSeq := s.db.nextSeq + batch.length }
        writer := .numbered (DbInner.numberRecords s.db.nextSeq batch) } held := by
  have hbelow : ∀ r ∈ s.written.flatten, r.seq < s.db.nextSeq := fun r hr =>
    h.below r (List.mem_append_left _ hr)
  exact
    { h with
      rising := List.pairwise_append.mpr ⟨h.written_rising, rising_numberRecords _ _,
        fun a ha b hb => lt_of_lt_of_le (hbelow a ha) (seq_numberRecords hb).1⟩
      below := by
        intro r hr
        show r.seq < s.db.nextSeq + batch.length
        rcases List.mem_append.mp hr with hr | hr
        · have := hbelow r hr
          omega
        · exact (seq_numberRecords hr).2
      logged := by
        have := h.logged
        rw [hfree] at this
        exact this }

theorem afterLog (h : Ledger s held) {w : World} {records : List Record}
    (hstage : s.writer = .numbered records) :
    Ledger { s with w := w, writer := .logged records }
      { held with log := held.log ++ [records] } := by
  have hrising := h.rising
  have hbelow := h.below
  have hlogged := h.logged
  rw [hstage] at hrising hbelow hlogged
  exact
    { h with
      rising := hrising
      below := hbelow
      logged := by
        show ofList (held.log ++ [records]).flatten = _ ∪ ofList [records].flatten
        rw [List.flatten_append, ofList_append, hlogged]
        simp [Writer.ahead, ofList] }

theorem afterInsert (h : Ledger s held) {records : List Record}
    (hstage : s.writer = .logged records) :
    Ledger
      { s with
        db := { s.db with active := records.foldl MemTable.insert s.db.active }
        writer := .free
        written := s.written ++ [records] } held := by
  have hrising := h.rising
  have hbelow := h.below
  have hlogged := h.logged
  have hversion := @version_eq s held h
  rw [hstage] at hrising hbelow hlogged hversion
  have hflat : (s.written ++ [records]).flatten ++ Writer.free.pending =
      s.written.flatten ++ (Writer.logged records).pending := by
    rw [List.flatten_append, List.flatten_singleton]
    exact List.append_nil _
  have hlen : s.frozenAt ≤ s.written.length := h.frozenAt
  have hpub : s.publishedAt ≤ s.written.length := le_trans h.publishedAt_le hlen
  have hdrop : s.droppedAt ≤ s.written.length := le_trans h.droppedAt_le hpub
  have hfrom : s.frozenFrom ≤ s.written.length := le_trans h.frozenFrom hlen
  have hactive : ∀ r ∈ s.db.active.iter, r ∈ s.written.flatten := by
    intro r hr
    have hmem : r ∈ ofList s.db.active.iter := hr
    rw [h.active] at hmem
    exact mem_span hmem
  exact
    { h with
      rising := by
        rw [hflat]
        exact hrising
      below := by
        rw [hflat]
        exact hbelow
      frozenAt := by
        show s.frozenAt ≤ (s.written ++ [records]).length
        rw [List.length_append]
        omega
      active := by
        show ofList (records.foldl MemTable.insert s.db.active).iter =
          ofList (span (s.written ++ [records]) s.frozenAt (s.written ++ [records]).length)
        rw [span_concat hlen, ofList_append, ← h.active]
        refine ofList_iter_foldl fun a ha b hb => hversion ?_ (List.mem_append_right _ hb)
        rcases List.mem_append.mp ha with ha | ha
        · exact List.mem_append_left _ (hactive a ha)
        · exact List.mem_append_right _ ha
      traced :=
        { h.traced with
          slot := by
            intro m hm
            rw [span_concat_of_le hlen]
            exact h.traced.slot m hm
          secured := by
            rw [span_concat_of_le (by split_ifs <;> assumption)]
            exact h.traced.secured
          counted := by
            rw [span_concat_of_le hlen]
            exact h.traced.counted }
      kept := by
        show ∀ h, (∀ r ∈ span (s.written ++ [records]) 0 s.publishedAt, r.seq < h) →
          recordVersions.StandsFor _ (ofList (span (s.written ++ [records]) 0 s.publishedAt))
            (ofList (span (s.written ++ [records]) 0 s.droppedAt)) h
        rw [span_concat_of_le hpub, span_concat_of_le hdrop]
        exact h.kept
      logged := by
        show ofList held.log.flatten = ofList (span (s.written ++ [records]) s.loggedFrom
          (s.written ++ [records]).length) ∪ ofList ([] : List Record)
        rw [hlogged, span_concat h.loggedFrom_le, ofList_append]
        simp [Writer.ahead, ofList] }

theorem afterFreeze (h : Ledger s held) (hfree : s.flusher = .free) :
    Ledger
      { s with
        db :=
          { s.db with
            active := MemTable.new s.db.opts.memtableThreshold
            frozen := some s.db.active }
        flusher := .frozen s.db.active
        frozenFrom := s.frozenAt
        frozenAt := s.written.length } held := by
  have htraced := h.traced
  rw [hfree] at htraced
  exact
    { h with
      frozenFrom := h.frozenAt
      frozenAt := le_rfl
      active := by
        show ofList (MemTable.new s.db.opts.memtableThreshold).iter =
          ofList (span s.written s.written.length s.written.length)
        rw [span_self, MemTable.iter_new]
      traced :=
        { slot := by
            intro m hm
            cases hm
            exact h.active
          published := htraced.published
          logged := htraced.logged
          secured := htraced.secured
          counted := by simp } }

/-- The frozen records are newer than what the tables hold. -/
theorem frozen_newer (h : Ledger s held) {m : MemTable} (hslot : s.flusher.slot = some m)
    (hunpub : s.flusher.unpublished = true) {a r : Record} (ha : a ∈ m.iter)
    (hr : r ∈ span s.written 0 s.publishedAt) : r.seq < a.seq := by
  have hpub := h.traced.published
  rw [if_pos hunpub] at hpub
  have hmem : a ∈ ofList m.iter := ha
  rw [h.traced.slot m hslot] at hmem
  exact h.written_rising.spans (le_of_eq hpub) hr hmem

/-- A table of the frozen records goes with the others. -/
theorem standsFor_publish (h : Ledger s held) {m : MemTable} (hslot : s.flusher.slot = some m)
    (hunpub : s.flusher.unpublished = true) (id : Nat) {D : Set Record} {x : Nat}
    (hst : recordVersions.StandsFor (pool (held.tables.map Prod.snd))
      (ofList (span s.written 0 s.publishedAt)) D x) :
    recordVersions.StandsFor (pool ((held.tables ++ [(id, m.iter)]).map Prod.snd))
      (ofList (span s.written 0 s.frozenAt)) D x := by
  have hpub := h.traced.published
  rw [if_pos hunpub] at hpub
  have hpool : pool ((held.tables ++ [(id, m.iter)]).map Prod.snd) =
      pool (held.tables.map Prod.snd) ∪ ofList m.iter := by
    rw [List.map_append, pool_append, List.map_singleton, pool_cons, pool_nil, Set.union_empty]
  have hspan : ofList (span s.written 0 s.frozenAt) =
      ofList (span s.written 0 s.publishedAt) ∪ ofList m.iter := by
    rw [span_split (Nat.zero_le _) h.publishedAt_le, ofList_append, h.traced.slot m hslot, hpub]
  rw [hpool, hspan]
  exact hst.extend fun a ha r hr => h.frozen_newer hslot hunpub ha hr

theorem afterPublish (h : Ledger s held) {m : MemTable} {id : Nat} {table : SsTable}
    (hstage : s.flusher = .recorded m id table) :
    Ledger
      { s with
        db := { s.db with sstables := s.db.sstables ++ [table] }
        flusher := .published m
        publishedAt := s.frozenAt }
      { held with tables := held.tables ++ [(id, m.iter)] } := by
  have htraced := h.traced
  have hslot : s.flusher.slot = some m := by rw [hstage]; rfl
  have hunpub : s.flusher.unpublished = true := by rw [hstage]; rfl
  rw [hstage] at htraced
  exact
    { h with
      traced := ⟨htraced.slot, rfl, htraced.logged, htraced.secured, by simp⟩
      levels := by
        refine List.pairwise_append.mpr ⟨h.levels, List.pairwise_singleton _ _, ?_⟩
        intro a ha b hb r hr r' hr'
        rw [List.mem_singleton.mp hb] at hr'
        exact h.frozen_newer hslot hunpub hr'
          (h.tables_subset ⟨a.2, List.mem_map.mpr ⟨a, ha, rfl⟩, hr⟩)
      kept := fun x hx => h.standsFor_publish hslot hunpub id
        (h.kept x fun r hr => hx r (span_mono le_rfl h.publishedAt_le hr)) }

theorem afterRelog (h : Ledger s held) {m : MemTable} (hstage : s.flusher = .published m)
    (hfree : s.writer = .free) {w : World} (wal : Wal) :
    Ledger
      { s with
        db := { s.db with wal := wal }
        w := w
        flusher := .relogged m
        loggedFrom := s.frozenAt }
      { held with log := s.db.active.iter.map (fun r => [r]) } := by
  have htraced := h.traced
  rw [hstage] at htraced
  exact
    { h with
      traced := ⟨htraced.slot, htraced.published, rfl, htraced.secured, by simp⟩
      dropped := h.droppedAt_le.trans h.publishedAt_le
      logged := by
        have hflat : (s.db.active.iter.map (fun r => [r])).flatten = s.db.active.iter := by
          rw [← List.flatMap_def, List.flatMap_singleton']
        show ofList (s.db.active.iter.map (fun r => [r])).flatten =
          ofList (span s.written s.frozenAt s.written.length) ∪ ofList s.writer.ahead.flatten
        rw [hflat, h.active, hfree]
        simp [Writer.ahead, ofList] }

section Merge

variable {c : DbInner.Choice} {minSeq : Nat} {front stale back : List (Nat × List Record)}
variable {last : Nat × List Record}

/-- What a merge writes stands for the run. -/
theorem condenses_out (h : Ledger s held) (hfit : TablesFit env held.tables)
    (hp : Picked s.db.sstables held.tables c front stale last back) {k : Bytes} {x : Nat}
    (hx : minSeq ≤ x ∨ ∀ t ∈ stale ++ [last], ∀ r ∈ t.2, r.seq < x) :
    recordVersions.Condenses k x (c.dropTombstones = true)
      (pool ((stale ++ [last]).map Prod.snd)) (ofList (c.out minSeq stale last)) := by
  have hmem : ∀ t ∈ stale ++ [last], t ∈ held.tables := by
    intro t ht
    rw [hp.tables]
    exact List.mem_append_left _ (List.mem_append_right _ ht)
  refine condenses_compactRecords c.dropTombstones ?_ ?_ (hx.imp id fun hx => ?_)
  · intro l hl
    obtain ⟨t, ht, rfl⟩ := List.mem_map.mp hl
    exact hfit.sorted t (hmem t ht)
  · refine h.written_rising.onePerSeq.mono fun r hr => mem_span (h.tables_subset ?_)
    obtain ⟨l, hl, hrl⟩ := hr
    obtain ⟨t, ht, rfl⟩ := List.mem_map.mp hl
    exact ⟨t.2, List.mem_map.mpr ⟨t, hmem t ht, rfl⟩, hrl⟩
  · rintro r ⟨l, hl, hrl⟩
    obtain ⟨t, ht, rfl⟩ := List.mem_map.mp hl
    exact hx t ht r hrl

/-- The tables with the merge in the place of its run stand for the same history, in
every read the merge was made for. -/
theorem standsFor_finish (h : Ledger s held) (hfit : TablesFit env held.tables)
    (hp : Picked s.db.sstables held.tables c front stale last back) {D D' : Set Record} {x : Nat}
    (hst : recordVersions.StandsFor (pool (held.tables.map Prod.snd))
      (ofList (span s.written 0 s.publishedAt)) D x)
    (hx : minSeq ≤ x ∨ ∀ t ∈ stale ++ [last], ∀ r ∈ t.2, r.seq < x) (hD : D ⊆ D')
    (hrun : c.dropTombstones = true → ofList (span s.written 0 s.publishedAt) ⊆ D') :
    recordVersions.StandsFor
      (pool ((front ++ [(last.1, c.out minSeq stale last)] ++ back).map Prod.snd))
      (ofList (span s.written 0 s.publishedAt)) D' x := by
  have hpool : ∀ run : List (Nat × List Record), pool ((front ++ run ++ back).map Prod.snd) =
      pool (back.map Prod.snd) ∪ pool (run.map Prod.snd) ∪ pool (front.map Prod.snd) := by
    intro run
    simp only [List.map_append, pool_append]
    rw [Set.union_comm (pool (front.map Prod.snd)), Set.union_comm, Set.union_assoc]
  have hlevels := h.levels
  have hsub := h.tables_subset
  rw [hp.tables, hpool] at hst hsub
  rw [hp.tables] at hlevels
  rw [hpool, List.map_singleton, pool_cons, pool_nil, Set.union_empty]
  refine hst.condense ?_ (fun k => h.condenses_out hfit hp hx) ?_ hD ?_
  · rintro n ⟨l, hl, hn⟩ r ⟨l', hl', hr⟩
    obtain ⟨b, hb, rfl⟩ := List.mem_map.mp hl
    obtain ⟨a, ha, rfl⟩ := List.mem_map.mp hl'
    exact (List.pairwise_append.mp hlevels).2.2 a (List.mem_append_right _ ha) b hb r hr n hn
  · intro hdrop
    rw [hp.drop, decide_eq_true_eq] at hdrop
    rw [hdrop, List.map_nil, pool_nil]
  · exact fun hdrop r hr => hrun hdrop (hsub (Or.inl (Or.inr hr)))

/-- A merge of neighbouring tables stands for them. -/
theorem afterFinish (h : Ledger s held) (hfit : TablesFit env held.tables)
    (hfree : s.flusher = .free) {w : World}
    (sstables : List SsTable) (hp : Picked s.db.sstables held.tables c front stale last back) :
    Ledger
      { s with
        db := { s.db with sstables := sstables }
        w := w
        compactor := .free
        droppedAt := if c.dropTombstones then s.publishedAt else s.droppedAt }
      (held.compacted front stale last back (c.out minSeq stale last)) := by
  have hlevels := h.levels
  rw [hp.tables] at hlevels
  obtain ⟨hfr, hback, hacross⟩ := List.pairwise_append.mp hlevels
  obtain ⟨hfront, _, hfrontrun⟩ := List.pairwise_append.mp hfr
  have hout : ∀ r ∈ c.out minSeq stale last, ∃ t ∈ stale ++ [last], r ∈ t.2 := by
    intro r hr
    have hcond : recordVersions.Condenses r.key minSeq (c.dropTombstones = true)
        (pool ((stale ++ [last]).map Prod.snd)) (ofList (c.out minSeq stale last)) :=
      h.condenses_out hfit hp (Or.inl le_rfl)
    obtain ⟨l, hl, hrl⟩ := hcond.subset hr
    obtain ⟨t, ht, rfl⟩ := List.mem_map.mp hl
    exact ⟨t, ht, hrl⟩
  exact
    { h with
      traced := by
        show Traced _ _ _ _ _ _ (applyAll (held.edits ++ deleteEdits stale)).nextSeq
        rw [(Standing.applyAll_deleteEdits held.edits stale).2]
        exact h.traced
      levels := by
        refine List.pairwise_append.mpr ⟨List.pairwise_append.mpr ⟨hfront,
          List.pairwise_singleton _ _, ?_⟩, hback, ?_⟩
        · intro a ha b hb r hr r' hr'
          rw [List.mem_singleton.mp hb] at hr'
          obtain ⟨t, ht, hrt⟩ := hout r' hr'
          exact hfrontrun a ha t ht r hr r' hrt
        · intro a ha b hb r hr r' hr'
          rcases List.mem_append.mp ha with ha | ha
          · exact hacross a (List.mem_append_left _ ha) b hb r hr r' hr'
          · rw [List.mem_singleton.mp ha] at hr
            obtain ⟨t, ht, hrt⟩ := hout r hr
            exact hacross t (List.mem_append_right _ ht) b hb r hrt r' hr'
      dropped := by
        show (if c.dropTombstones then s.publishedAt else s.droppedAt) ≤ s.loggedFrom
        split_ifs
        · have htraced := h.traced
          rw [hfree] at htraced
          exact le_of_eq (htraced.published.trans htraced.logged.symm)
        · exact h.dropped
      kept := by
        intro x hx
        refine h.standsFor_finish hfit hp (h.kept x hx) (Or.inr fun t ht r hr => hx r ?_) ?_ ?_
        · refine h.tables_subset ⟨t.2, List.mem_map.mpr ⟨t, ?_, rfl⟩, hr⟩
          rw [hp.tables]
          exact List.mem_append_left _ (List.mem_append_right _ ht)
        · dsimp only
          split_ifs
          · exact fun r hr => span_mono le_rfl h.droppedAt_le hr
          · exact subset_rfl
        · intro hdrop
          dsimp only
          rw [if_pos hdrop] }

end Merge

/-- What an open replays is the part of the history the log backs. -/
theorem afterReopen (hfiles : Stored env s held) (h : Ledger s held) (hidle : s.Idle)
    {opts : Options} {db : DbInner} {w : World}
    (hopen : Opened env s.db.dir opts w.vol db (applyAll held.edits) held.tables
      held.log.flatten (logBytes env newestLog held.log)) :
    Ledger { s with db := db, w := w }
      { held with edits := (applyAll held.edits).snapshotEdits } := by
  have htraced := h.traced
  have hlogged := h.logged
  have hrising := h.rising
  have hbelow := h.below
  rw [hidle.flusher] at htraced
  rw [hidle.writer] at hlogged hrising hbelow
  have hfrom : s.loggedFrom = s.frozenAt := htraced.logged
  have hlog : ofList held.log.flatten =
      ofList (span s.written s.frozenAt s.written.length) := by
    rw [hlogged, hfrom]
    simp [Writer.ahead, ofList]
  have hmem : ∀ r ∈ held.log.flatten, r ∈ s.written.flatten := by
    intro r hr
    have : r ∈ ofList held.log.flatten := hr
    rw [hlog] at this
    exact mem_span this
  have hmemory := Prod.ext_iff.mp hopen.memory
  have hseqs : ∀ r ∈ held.log.flatten, r.seq < u64Max := fun r hr =>
    lt_of_lt_of_le (hbelow r (List.mem_append_left _ (hmem r hr))) hfiles.seq
  obtain ⟨hle, hgt⟩ := replayInto_snd_gt (MemTable.new opts.memtableThreshold)
    (applyAll held.edits).nextSeq hseqs
  rw [← show db.nextSeq = _ from hmemory.2] at hle hgt
  exact
    { h with
      below := by
        rw [hidle.writer]
        intro r hr
        show r.seq < db.nextSeq
        rw [show s.written.flatten ++ Writer.free.pending = s.written.flatten from
          List.append_nil _, ← span_zero_length, span_split (Nat.zero_le _) h.frozenAt] at hr
        rcases List.mem_append.mp hr with hr | hr
        · exact lt_of_lt_of_le (htraced.secured r hr) hle
        · refine hgt r ?_
          show r ∈ ofList held.log.flatten
          rw [hlog]
          exact hr
      active := by
        show ofList db.active.iter = _
        rw [show db.active = _ from hmemory.1, replayInto_fst, ofList_iter_foldl, hlog]
        · simp [ofList]
        · intro a ha b hb hv
          rw [MemTable.iter_new, List.nil_append] at ha
          exact h.version_eq (List.mem_append_left _ (hmem a ha))
            (List.mem_append_left _ (hmem b hb)) hv
      traced := by
        show Traced _ _ _ _ _ _ (applyAll (applyAll held.edits).snapshotEdits).nextSeq
        rw [applyAll_snapshotEdits]
        exact h.traced }

/-- Every step keeps the ledger. -/
theorem step (hfiles : Stored env s held) (h : Ledger s held)
    (heff : Effect env l s held s' held') : Ledger s' held' := by
  have htraced := h.traced
  cases heff with
  | number batch hne hfree hseqs => exact h.afterNumber hfree batch
  | log stage fits synced same grew => exact h.afterLog stage
  | insert stage => exact h.afterInsert stage
  | freeze free full => exact h.afterFreeze free.1
  | write stage same grew =>
      rw [stage] at htraced
      exact { h with
        traced := ⟨htraced.slot, htraced.published, htraced.logged, htraced.secured, by simp⟩ }
  | place table stage covered same grew =>
      rw [stage] at htraced
      exact { h with
        traced := ⟨htraced.slot, htraced.published, htraced.logged, htraced.secured, by simp⟩ }
  | count stage =>
      rw [stage] at htraced
      refine { h with
        traced := ⟨htraced.slot, htraced.published, htraced.logged, htraced.secured, ?_⟩ }
      intro m id table a b heq r hr
      cases heq
      exact h.below r (List.mem_append_left _ (mem_span hr))
  | record stage manifest same grew =>
      rw [stage] at htraced
      refine { h with
        traced := ⟨htraced.slot, htraced.published, htraced.logged, ?_, by simp⟩ }
      rw [applyAll_append]
      exact htraced.counted _ _ _ _ _ rfl
  | publish stage => exact h.afterPublish stage
  | relog wal stage free synced covered same grew => exact h.afterRelog stage free wal
  | clear stage =>
      rw [stage] at htraced
      exact { h with
        traced := ⟨by simp [Flusher.slot], htraced.published, htraced.logged, htraced.secured,
          by simp⟩ }
  | list free => exact { h with }
  | choose c stage => exact { h with }
  | abandon stage => exact { h with }
  | bound stage => exact { h with }
  | merge stage same grew => exact { h with }
  | name stage free same grew => exact { h with }
  | finish sstables stage picked covered manifest same grew =>
      exact h.afterFinish hfiles.fit (hfiles.exclusive (by rw [stage]; rfl)) sstables picked
  | load => exact { h with }
  | register loaded => exact { h with }
  | drop snapshots alive run => exact { h with }
  | reopen opts idle loading live opened => exact h.afterReopen hfiles idle opened

/-- The ledger of a handle that has nothing yet. -/
theorem opened {db : DbInner} {w : World} {edits : List VersionEdit}
    (hactive : db.active.iter = []) :
    Ledger (System.opened db w) ⟨[], edits, newestLog, []⟩ where
  rising := List.Pairwise.nil
  below := by simp [System.opened, Writer.pending]
  frozenFrom := le_rfl
  frozenAt := le_rfl
  active := by
    show ofList db.active.iter = ofList (span [] 0 0)
    rw [hactive, span_self]
  traced := by
    refine ⟨by simp [System.opened, Flusher.slot], rfl, rfl, ?_, by simp [System.opened]⟩
    show ∀ r ∈ span ([] : List (List Record)) 0 0, r.seq < (applyAll edits).nextSeq
    simp
  levels := List.Pairwise.nil
  dropped := le_rfl
  kept := by
    intro x _
    show recordVersions.StandsFor (pool []) (ofList (span [] 0 0)) (ofList (span [] 0 0)) x
    rw [span_self, pool_nil, show ofList ([] : List Record) = ∅ by ext r; simp]
    exact StandsFor.refl _ _ _
  logged := by simp [System.opened, Writer.ahead, ofList]

/-- Every run keeps the files and the ledger. -/
theorem run {ok : Label → System → Prop} (hok : ∀ l s, ok l s → Fits env l s)
    (hrun : Steps env ok s s') (hs : ∃ held, Files env s held ∧ Ledger s held) :
    ∃ held, Files env s' held ∧ Ledger s' held := by
  refine hrun.keeps (P := fun s => ∃ held, Files env s held ∧ Ledger s held) ?_ hs
  rintro l s s' ⟨held, hfiles, h⟩ hl hstep
  obtain ⟨held', heff, hfiles'⟩ := hfiles.step (hok l s hl) hstep
  exact ⟨held', hfiles', h.step hfiles.toStored heff⟩

end Ledger

/-- So it holds in every state of a database opened on a fresh directory. -/
theorem Reached.ledger {env : Env} {dir : String} {ok : Label → System → Prop} {s : System}
    (hok : ∀ l s, ok l s → Fits env l s) (h : Reached env dir ok s) :
    ∃ held, Files env s held ∧ Ledger s held := by
  obtain ⟨opts, v, db, w, hfresh, hopen, hrun⟩ := h
  obtain ⟨db', w', hopen', hopened, hfiles⟩ := Files.fresh (w := World.start v) env opts
    (World.quiet_start v) (by simp [World.start]) hfresh
  cases hopen'.symm.trans hopen
  refine Ledger.run hok hrun ⟨_, hfiles, Ledger.opened ?_⟩
  rw [show db.active = _ from (Prod.ext_iff.mp hopened.memory).1]
  rfl

end LsmKv
