import LsmKv.Crash
import LsmKv.Foundation.Piles

/-!
# Where the history is after a crash

A crash between the record of a flush and the cut of its log leaves the flushed batches twice:
the manifest names their table, and the log brings them back into the active MemTable.  The next
flush writes them again.  `Strata` says where a system that may have come up like this has its
history: every table holds a span of it, and spans may overlap.  Merges are not considered.

**Results.**
* `Strata.step`: writers, snapshots and flushes keep it.
* `Strata.shows`: reads return what the whole history leaves.
* `Strata.remnant`: what the next crash leaves of the history, with every inserted batch.
* `Remnant.opened`: what an open makes of it.
-/

namespace LsmKv

open Foundation Volume Versioning

/-- Where a system has the history `W`: from batch `a` on in the active MemTable, from `f` up to
`a` in the frozen slot, and up to `e` in the tables. -/
structure Strata (W : List (List Record)) (s : System) (held : Held) (f a e : Nat) : Prop where
  rising : recordVersions.Rising (W.flatten ++ s.writer.pending)
  below : ∀ r ∈ W.flatten ++ s.writer.pending, r.seq < s.db.nextSeq
  frozenFrom : f ≤ a
  frozenAt : a ≤ W.length
  active : ofList s.db.active.iter = ofList (span W a W.length)
  slot : ∀ m, s.flusher.slot = some m → ofList m.iter = ofList (span W f a)
  piled : Piled W (held.tables.map Prod.snd).reverse e
  meets : (if s.flusher.unpublished then f else a) ≤ e
  reaches : e ≤ if s.flusher.slot.isSome then a else W.length
  logged : ofList held.log.flatten =
    ofList (span W (if s.flusher.unlogged then f else a) W.length) ∪
      ofList s.writer.ahead.flatten
  secured : ∀ r ∈ span W 0 (if s.flusher.secured then a else f),
    r.seq < (applyAll held.edits).nextSeq
  counted : ∀ m id table x y, s.flusher = .counted m id table x y →
    ∀ r ∈ span W 0 a, r.seq < y

/-- What a crash leaves of the history `W`: from batch `a` on in the log, and up to `p` in the
tables. -/
structure Remnant (W : List (List Record)) (st : ManifestState)
    (tables : List (Nat × List Record)) (log : List Record) (a p : Nat) : Prop where
  rising : recordVersions.Rising W.flatten
  below : ∀ r ∈ W.flatten, r.seq < u64Max
  piled : Piled W (tables.map Prod.snd).reverse p
  meets : a ≤ p
  reaches : p ≤ W.length
  logged : ofList log = ofList (span W a W.length)
  secured : ∀ r ∈ span W 0 a, r.seq < st.nextSeq

namespace Strata

variable {env : Env} {W H : List (List Record)} {s s' : System} {held held' : Held}
variable {f a e : Nat} {l : Label}

theorem history_rising (h : Strata W s held f a e) : recordVersions.Rising W.flatten :=
  h.rising.sublist (List.sublist_append_left _ _)

theorem ends_le (h : Strata W s held f a e) : e ≤ W.length := by
  have h₁ := h.reaches
  have h₂ := h.frozenAt
  split_ifs at h₁ <;> omega

/-- The tables reach from the frozen records into them. -/
theorem slot_meets (h : Strata W s held f a e) (hslot : s.flusher.slot.isSome = true) :
    f ≤ e ∧ e ≤ a := by
  have h₁ := h.meets
  have h₂ := h.frozenFrom
  have h₃ := h.reaches
  rw [if_pos hslot] at h₃
  split_ifs at h₁ <;> omega

section Steps

theorem afterNumber (h : Strata W s held f a e) (hfree : s.writer = .free) (batch : WriteBatch) :
    Strata W
      { s with
        db := { s.db with nextSeq := s.db.nextSeq + batch.length }
        writer := .numbered (DbInner.numberRecords s.db.nextSeq batch) } held f a e := by
  have hbelow : ∀ r ∈ W.flatten, r.seq < s.db.nextSeq := fun r hr =>
    h.below r (List.mem_append_left _ hr)
  have hlogged := h.logged
  rw [hfree] at hlogged
  exact
    { h with
      rising := List.pairwise_append.mpr ⟨h.history_rising, rising_numberRecords _ _,
        fun a ha b hb => lt_of_lt_of_le (hbelow a ha) (seq_numberRecords hb).1⟩
      below := fun r hr => by
        rcases List.mem_append.mp hr with hr | hr
        · exact Nat.lt_add_right _ (hbelow r hr)
        · exact (seq_numberRecords hr).2
      logged := hlogged }

theorem afterLog (h : Strata W s held f a e) {w : World} {records : List Record}
    (hstage : s.writer = .numbered records) :
    Strata W { s with w := w, writer := .logged records }
      { held with log := held.log ++ [records] } f a e := by
  have hrising := h.rising
  have hbelow := h.below
  have hlogged := h.logged
  rw [hstage] at hrising hbelow hlogged
  exact
    { h with
      rising := hrising
      below := hbelow
      logged := by
        show ofList (held.log ++ [records]).flatten = _ ∪ ofList [records].flatten
        rw [List.flatten_append, ofList_append, hlogged]
        simp [Writer.ahead, ofList] }

/-- An insert adds its batch to the history. -/
theorem afterInsert (h : Strata W s held f a e) {records : List Record}
    (hstage : s.writer = .logged records) :
    Strata (W ++ [records])
      { s with
        db := { s.db with active := records.foldl MemTable.insert s.db.active }
        writer := .free
        written := s.written ++ [records] } held f a e := by
  have hrising := h.rising
  have hbelow := h.below
  have hlogged := h.logged
  rw [hstage] at hrising hbelow hlogged
  have hflat : (W ++ [records]).flatten ++ Writer.free.pending =
      W.flatten ++ (Writer.logged records).pending := by
    rw [List.flatten_append, List.flatten_singleton]
    exact List.append_nil _
  have ha := h.frozenAt
  have hf := h.frozenFrom
  have hlen : (W ++ [records]).length = W.length + 1 := by simp
  have hfrom : ∀ b : Bool, (if b then f else a) ≤ W.length := fun b => by split_ifs <;> omega
  refine
    { h with
      rising := by rw [hflat]; exact hrising
      below := by rw [hflat]; exact hbelow
      frozenAt := by omega
      active := ?_
      slot := fun m hm => by rw [span_concat_of_le ha]; exact h.slot m hm
      piled := h.piled.begins (List.prefix_append _ _) h.ends_le
      reaches := ?_
      logged := ?_
      secured := ?_
      counted := by rw [span_concat_of_le ha]; exact h.counted }
  · show ofList (records.foldl MemTable.insert s.db.active).iter = _
    rw [span_concat ha, ofList_append, ← h.active]
    refine ofList_iter_foldl fun x hx y hy => OnePerSeq.version hrising.onePerSeq ?_
      (List.mem_append_right _ hy)
    rcases List.mem_append.mp hx with hx | hx
    · have hmem : x ∈ ofList s.db.active.iter := hx
      rw [h.active] at hmem
      exact List.mem_append_left _ (mem_span hmem)
    · exact List.mem_append_right _ hx
  · have := h.reaches
    rw [hlen]
    show e ≤ if s.flusher.slot.isSome then a else W.length + 1
    split_ifs at this ⊢ <;> omega
  · show ofList held.log.flatten = ofList (span (W ++ [records]) _ _) ∪ ofList ([] : List Record)
    rw [hlogged, span_concat (hfrom _), ofList_append]
    simp [Writer.ahead, ofList]
  · show ∀ r ∈ span (W ++ [records]) 0 (if s.flusher.secured then a else f), _
    rw [span_concat_of_le (by split_ifs <;> omega)]
    exact h.secured

theorem afterFreeze (h : Strata W s held f a e) (hfree : s.flusher = .free) :
    Strata W
      { s with
        db :=
          { s.db with
            active := MemTable.new s.db.opts.memtableThreshold
            frozen := some s.db.active }
        flusher := .frozen s.db.active
        frozenFrom := s.frozenAt
        frozenAt := s.written.length } held a W.length e := by
  have hmeets := h.meets
  have hlogged := h.logged
  have hsecured := h.secured
  rw [hfree] at hmeets hlogged hsecured
  exact
    { h with
      frozenFrom := h.frozenAt
      frozenAt := le_rfl
      active := by
        show ofList (MemTable.new s.db.opts.memtableThreshold).iter = _
        rw [span_self, MemTable.iter_new]
      slot := fun m hm => by
        cases hm
        exact h.active
      meets := hmeets
      reaches := h.ends_le
      logged := hlogged
      secured := hsecured
      counted := by simp }

/-- A table of the frozen records goes with the others. -/
theorem piled_slot (h : Strata W s held f a e) {m : MemTable} (hslot : s.flusher.slot = some m)
    (id : Nat) : Piled W ((held.tables ++ [(id, m.iter)]).map Prod.snd).reverse a := by
  obtain ⟨hf, ha⟩ := h.slot_meets (by rw [hslot]; rfl)
  rw [List.map_append, List.map_singleton, List.reverse_append]
  exact .cons h.piled hf ha (h.slot m hslot)

theorem afterPublish (h : Strata W s held f a e) {m : MemTable} {id : Nat} {table : SsTable}
    (hstage : s.flusher = .recorded m id table) :
    Strata W
      { s with
        db := { s.db with sstables := s.db.sstables ++ [table] }
        flusher := .published m
        publishedAt := s.frozenAt }
      { held with tables := held.tables ++ [(id, m.iter)] } f a a := by
  have hslot := h.slot
  have hlogged := h.logged
  have hsecured := h.secured
  have hpiled := h.piled_slot (m := m) (by rw [hstage]; rfl) id
  rw [hstage] at hslot hlogged hsecured
  exact
    { h with
      slot := hslot
      piled := hpiled
      meets := le_rfl
      reaches := le_rfl
      logged := hlogged
      secured := hsecured
      counted := by simp }

theorem afterRelog (h : Strata W s held f a e) {m : MemTable} (hstage : s.flusher = .published m)
    (hfree : s.writer = .free) {w : World} (wal : Wal) :
    Strata W
      { s with
        db := { s.db with wal := wal }
        w := w
        flusher := .relogged m
        loggedFrom := s.frozenAt }
      { held with log := s.db.active.iter.map (fun r => [r]) } f a e := by
  have hslot := h.slot
  have hmeets := h.meets
  have hreaches := h.reaches
  have hsecured := h.secured
  rw [hstage] at hslot hmeets hreaches hsecured
  exact
    { h with
      slot := hslot
      meets := hmeets
      reaches := hreaches
      logged := by
        have hflat : (s.db.active.iter.map (fun r => [r])).flatten = s.db.active.iter := by
          rw [← List.flatMap_def, List.flatMap_singleton']
        show ofList (s.db.active.iter.map (fun r => [r])).flatten =
          ofList (span W a W.length) ∪ ofList s.writer.ahead.flatten
        rw [hflat, h.active, hfree]
        simp [Writer.ahead, ofList]
      secured := hsecured
      counted := by simp }

/-- Writers, snapshots and flushes keep the strata of a history that begins with `H`. -/
theorem step (h : Strata (H ++ s.written) s held f a e) (hl : l.plain = true)
    (heff : Effect env l s held s' held') :
    ∃ f' a' e', Strata (H ++ s'.written) s' held' f' a' e' := by
  have hslot := h.slot
  have hmeets := h.meets
  have hreaches := h.reaches
  have hlogged := h.logged
  have hsecured := h.secured
  cases heff with
  | number batch hne hfree hseqs => exact ⟨_, _, _, h.afterNumber hfree batch⟩
  | log stage fits synced same grew => exact ⟨_, _, _, h.afterLog stage⟩
  | insert stage =>
      rw [← List.append_assoc]
      exact ⟨_, _, _, h.afterInsert stage⟩
  | freeze free full => exact ⟨_, _, _, h.afterFreeze free.1⟩
  | write stage same grew | place table stage covered same grew =>
      rw [stage] at hslot hmeets hreaches hlogged hsecured
      exact ⟨f, a, e,
        { h with
          slot := hslot
          meets := hmeets
          reaches := hreaches
          logged := hlogged
          secured := hsecured
          counted := by simp }⟩
  | count stage =>
      rw [stage] at hslot hmeets hreaches hlogged hsecured
      refine ⟨f, a, e,
        { h with
          slot := hslot
          meets := hmeets
          reaches := hreaches
          logged := hlogged
          secured := hsecured
          counted := ?_ }⟩
      intro m id table x y heq r hr
      cases heq
      exact h.below r (List.mem_append_left _ (mem_span hr))
  | record stage manifest same grew =>
      have hcounted := h.counted
      rw [stage] at hslot hmeets hreaches hlogged hcounted
      refine ⟨f, a, e,
        { h with
          slot := hslot
          meets := hmeets
          reaches := hreaches
          logged := hlogged
          secured := ?_
          counted := by simp }⟩
      rw [applyAll_append]
      exact hcounted _ _ _ _ _ rfl
  | publish stage => exact ⟨_, _, _, h.afterPublish stage⟩
  | relog wal stage free synced covered same grew => exact ⟨_, _, _, h.afterRelog stage free wal⟩
  | clear stage =>
      have hle := h.ends_le
      rw [stage] at hmeets hlogged hsecured
      exact ⟨f, a, e,
        { h with
          slot := by simp [Flusher.slot]
          meets := hmeets
          reaches := hle
          logged := hlogged
          secured := hsecured
          counted := by simp }⟩
  | load => exact ⟨_, _, _, { h with }⟩
  | register loaded => exact ⟨_, _, _, { h with }⟩
  | drop snapshots alive run => exact ⟨_, _, _, { h with }⟩
  | list | choose | abandon | bound | merge | name | finish | reopen => cases hl

end Steps

section Reads

/-- The sources of a read make up the history. -/
theorem sources (h : Strata W s held f a e) (hf : Files env s held) :
    Piled W (s.db.sources held.tables) W.length := by
  have hslot := h.slot
  have hmeet := h.slot_meets
  unfold DbInner.sources
  rw [hf.slot]
  cases hcase : s.flusher.slot with
  | none =>
      have hfree : s.flusher = .free := by
        cases hflush : s.flusher with
        | free => rfl
        | _ =>
            rw [hflush] at hcase
            cases hcase
      have hmeets := h.meets
      rw [hfree] at hmeets
      exact .cons h.piled hmeets h.ends_le h.active
  | some m =>
      obtain ⟨hfe, hea⟩ := hmeet (by rw [hcase]; rfl)
      exact .cons (.cons h.piled hfe hea (hslot m hcase)) le_rfl h.frozenAt h.active

theorem serves (h : Strata W s held f a e) (hf : Files env s held) :
    Serves env s.w.vol s.db held.tables := by
  have hfit : ∀ {m : MemTable} {i j : Nat}, ofList m.iter = ofList (span W i j) →
      SeqsFit m.iter := by
    intro m i j hm r hr
    have hmem : r ∈ ofList m.iter := hr
    rw [hm] at hmem
    have := h.below r (List.mem_append_left _ (mem_span hmem))
    have := hf.seq
    omega
  exact
    { healthy := hf.healthy
      opened := hf.read
      fit := hf.fit
      active := hfit h.active
      frozen := fun m hm => hfit (h.slot m (hf.slot.symm.trans hm)) }

/-- Reads return what the whole history leaves. -/
theorem shows (h : Strata W s held f a e) (hf : Files env s held) :
    ShowsMap env u64Max (mapAfter W) s.db s.w := by
  have hserves := h.serves hf
  have hpiled := h.sources hf
  have hbelow : ∀ r ∈ W.flatten, r.seq < u64Max := fun r hr =>
    lt_of_lt_of_le (h.below r (List.mem_append_left _ hr)) hf.seq
  have hone : recordVersions.OnePerSeq (ofList (span W 0 W.length)) :=
    h.history_rising.onePerSeq.mono fun r hr => mem_span hr
  have hreads := reads_mapAfter h.history_rising hbelow W.length
  rw [List.take_length] at hreads
  refine ⟨fun key => ?_, fun start stop limit => ?_⟩
  · have hfind := hpiled.reads h.history_rising (k := key) (x := u64Max)
      (fun l => lookupAt l key u64Max)
      (fun l hl => finds_lookupAt (sorted_sources hserves l hl))
    rw [getAt_serves hf.quiet hserves]
    exact congrArg Except.ok (hfind.unique hone (hreads key))
  · have hholds : Holds (s.db.sources held.tables) u64Max (mapAfter W) := by
      constructor
      · rw [hpiled.pool_eq]
        exact hone
      · rw [hpiled.pool_eq]
        exact hreads
    rw [scanAt_holds hf.quiet hserves hholds start stop limit]

end Reads

section Crash

/-- The tables that may be live after a crash are piled up, too. -/
theorem piledAt (h : Strata W s held f a e) (j : Nat) :
    ∃ p, e ≤ p ∧ p ≤ W.length ∧
      Piled W ((s.flusher.tablesAt held.tables j).map Prod.snd).reverse p := by
  have hnow : ∃ p, e ≤ p ∧ p ≤ W.length ∧ Piled W (held.tables.map Prod.snd).reverse p :=
    ⟨e, le_rfl, h.ends_le, h.piled⟩
  have hsoon : ∀ m id, s.flusher.slot = some m → ∃ p, e ≤ p ∧ p ≤ W.length ∧
      Piled W ((held.tables ++ [(id, m.iter)]).map Prod.snd).reverse p := fun m id hslot =>
    ⟨a, (h.slot_meets (by rw [hslot]; rfl)).2, h.frozenAt, h.piled_slot hslot id⟩
  cases hflush : s.flusher with
  | counted m id table x y =>
      rw [hflush] at hsoon
      by_cases hj : j = 0
      · simpa [Flusher.tablesAt, hj] using hnow
      · simpa [Flusher.tablesAt, hj] using hsoon m id rfl
  | recorded m id table =>
      rw [hflush] at hsoon
      exact hsoon m id rfl
  | _ => exact hnow

/-- The next sequence number of the manifest after a crash is above what the log does not have. -/
theorem securedAt (h : Strata W s held f a e) (j : Nat) :
    ∀ r ∈ span W 0 (if s.flusher.secured then a else f),
      r.seq < (applyAll (held.edits ++ s.flusher.coming.take j)).nextSeq := by
  have hsecured := h.secured
  cases hflush : s.flusher with
  | counted m id table x y =>
      rw [hflush] at hsecured
      intro r hr
      rw [applyAll_append]
      rcases j with _ | _ | _ | j
      · exact hsecured r hr
      · exact hsecured r hr
      · exact hsecured r hr
      · rw [List.take_of_length_le (by simp [Flusher.coming, flushEdits])]
        exact h.counted m id table x y hflush r (span_mono le_rfl h.frozenFrom hr)
  | _ =>
      rw [hflush] at hsecured
      simpa [Flusher.coming] using hsecured

/-- A log of which nothing durable is lost holds the history from some batch in the tables on,
with every inserted batch. -/
theorem logSpan {v : Volume Path} {B : List (List Record)} {q k : Nat}
    (h : Strata W s held f a e) (hway : LogOnWay env s held v held.log.length B q) (hk : q ≤ k) :
    ∃ i n, i ≤ e ∧ i ≤ (if s.flusher.secured then a else f) ∧ W.length ≤ n ∧
      n ≤ (W ++ s.writer.batches).length ∧
      ofList (B.take k).flatten = ofList (span (W ++ s.writer.batches) i n) := by
  have hf := h.frozenFrom
  have ha := h.frozenAt
  have hmeets := h.meets
  have hlogged := h.logged
  set i := if s.flusher.unlogged then f else a with hi
  have hie : i ≤ e ∧ i ≤ (if s.flusher.secured then a else f) ∧ i ≤ W.length := by
    rw [hi]
    cases hflush : s.flusher <;> rw [hflush] at hmeets <;>
      simp [Flusher.unlogged, Flusher.secured, Flusher.unpublished] at hmeets ⊢ <;> omega
  rcases hway.2 with ⟨rfl, hold⟩ | ⟨rfl, hB, hfree, m, hstage⟩
  · -- the log is what it was, with or without the batch that is being logged
    have hcase : ofList (B.take k).flatten = ofList (span W i W.length) ∨
        ∃ records, s.writer.batches = [records] ∧
          ofList (B.take k).flatten = ofList (span W i W.length) ∪ ofList records := by
      rcases hold with hB | ⟨records, hstage, rfl⟩
      · rw [hB, List.take_of_length_le hk, hlogged]
        cases s.writer with
        | free | numbered records => exact Or.inl (by simp [Writer.ahead, ofList])
        | logged records => exact Or.inr ⟨records, rfl, by simp [Writer.ahead]⟩
      · rw [hstage] at hlogged ⊢
        rcases Nat.lt_or_ge held.log.length k with hlt | hge
        · refine Or.inr ⟨records, rfl, ?_⟩
          rw [List.take_of_length_le (by rw [List.length_append]; exact hlt), List.flatten_append,
            ofList_append, hlogged]
          simp [Writer.ahead, ofList]
        · refine Or.inl ?_
          rw [le_antisymm hge hk, List.take_left, hlogged]
          simp [Writer.ahead, ofList]
    rcases hcase with heq | ⟨records, hbatch, heq⟩
    · refine ⟨i, W.length, hie.1, hie.2.1, le_rfl, by simp, ?_⟩
      rw [heq, span_begins (List.prefix_append _ _) le_rfl]
    · refine ⟨i, _, hie.1, hie.2.1, by simp, le_rfl, ?_⟩
      rw [heq, hbatch, span_concat hie.2.2, ofList_append]
  · -- the log is rewritten
    rw [hstage] at hmeets ⊢
    have hflat : (s.db.active.iter.map (fun r => [r])).flatten = s.db.active.iter := by
      rw [← List.flatMap_def, List.flatMap_singleton']
    refine ⟨a, W.length, hmeets, le_rfl, le_rfl, by simp, ?_⟩
    rw [List.take_of_length_le hk, hB, hflat, h.active,
      span_begins (List.prefix_append _ _) le_rfl]

/-- A crash leaves a beginning of the history with every inserted batch. -/
theorem remnant {v : Volume Path} {B : List (List Record)} {q k : Nat}
    (h : Strata W s held f a e) (hf : Files env s held)
    (hway : LogOnWay env s held v held.log.length B q) (hk : q ≤ k) (j : Nat) :
    ∃ n i p, W.length ≤ n ∧ n ≤ (W ++ s.writer.batches).length ∧
      Remnant ((W ++ s.writer.batches).take n)
        (applyAll (held.edits ++ s.flusher.coming.take j)) (s.flusher.tablesAt held.tables j)
        (B.take k).flatten i p := by
  obtain ⟨i, n, hie, hisec, hn, hn', hlog⟩ := h.logSpan hway hk
  obtain ⟨p, hep, hp, hpiled⟩ := h.piledAt j
  have hlen : ((W ++ s.writer.batches).take n).length = n := by
    rw [List.length_take, min_eq_left hn']
  have hbegins : W <+: W ++ s.writer.batches := List.prefix_append _ _
  have hsub : ((W ++ s.writer.batches).take n).flatten.Sublist
      (W.flatten ++ s.writer.pending) := by
    rw [← Writer.flatten_batches, ← List.flatten_append]
    exact (List.take_sublist n _).flatten
  have hi : i ≤ W.length := hie.trans h.ends_le
  refine ⟨n, i, p, hn, hn', ?_⟩
  exact
    { rising := h.rising.sublist hsub
      below := fun r hr => lt_of_lt_of_le (h.below r (hsub.mem hr)) hf.seq
      piled := (hpiled.begins hbegins hp).cut (hp.trans hn)
      meets := hie.trans hep
      reaches := by rw [hlen]; exact hp.trans hn
      logged := by rw [hlog, hlen, span_take le_rfl]
      secured := by
        rw [span_take (hi.trans hn), span_begins hbegins hi]
        exact fun r hr => h.securedAt j r (span_mono le_rfl hisec hr) }

end Crash

end Strata

/-- An open brings back what a crash has left. -/
theorem Remnant.opened {env : Env} {dir : String} {opts : Options} {db : DbInner} {w : World}
    {W B : List (List Record)} {st : ManifestState} {tables : List (Nat × List Record)}
    {a p : Nat} {wal : Bytes} (h : Remnant W st tables B.flatten a p)
    (hopen : Opened env dir opts w.vol db st tables B.flatten wal) {edits : List VersionEdit}
    (hst : applyAll edits = st) :
    Strata W (System.opened db w) ⟨tables, edits, newestLog, B⟩ a a p := by
  have hstart : a ≤ W.length := h.meets.trans h.reaches
  have hmem : ∀ r, r ∈ B.flatten ↔ r ∈ span W a W.length := Set.ext_iff.mp h.logged
  have hone : recordVersions.OnePerSeq (ofList B.flatten) := by
    rw [h.logged]
    exact h.rising.onePerSeq.mono fun r hr => mem_span hr
  obtain ⟨hle, hgt⟩ := replayInto_snd_gt (MemTable.new opts.memtableThreshold) st.nextSeq
    fun r hr => h.below r (mem_span ((hmem r).mp hr))
  rw [← show db.nextSeq = _ from (Prod.ext_iff.mp hopen.memory).2] at hle hgt
  have hpending : W.flatten ++ (System.opened db w).writer.pending = W.flatten :=
    List.append_nil _
  exact
    { rising := by rw [hpending]; exact h.rising
      below := by
        intro r hr
        rw [hpending, ← span_zero_length, span_split (Nat.zero_le _) hstart] at hr
        rcases List.mem_append.mp hr with hr | hr
        · exact lt_of_lt_of_le (h.secured r hr) hle
        · exact hgt r ((hmem r).mpr hr)
      frozenFrom := le_rfl
      frozenAt := hstart
      active := (hopen.active hone).trans h.logged
      slot := by simp [System.opened, Flusher.slot]
      piled := h.piled
      meets := h.meets
      reaches := h.reaches
      logged := by
        show ofList B.flatten = ofList (span W a W.length) ∪ ofList ([] : List Record)
        rw [h.logged]
        simp [ofList]
      secured := by rw [hst]; exact h.secured
      counted := by simp [System.opened] }

end LsmKv
