import LsmKv.Ledger
import LsmKv.Schedules
import LsmKv.Serving
import LsmKv.Stock

/-!
# Reads among writers

A read takes the active MemTable, the frozen slot and the live set one after
another, and in between everything may move: records from one to the next, and
out of the tables where a merge makes them superfluous.

**Results.**
* `Steps.before`: how far a system has come never goes back.
* `get_seen`: a lookup that reads its sources at three moments returns the answer
  of one beginning of the history.
* `reads_show_cut`: so does a scan, unless a merge drops tombstones while it is
  under way.
-/

namespace LsmKv

open Foundation Volume Versioning

/-- The map the batches leave behind. -/
def mapAfter (W : List (List Record)) : SortedMap Bytes Bytes :=
  W.flatten.foldl (fun m r => applyOp m (r.key, r.value)) SortedMap.empty

theorem find?_mapAfter (W : List (List Record)) (k : Bytes) :
    (mapAfter W).find? k = recordVersions.valueAfter W.flatten k := by
  have hfold : ∀ (l : List Record) (m : SortedMap Bytes Bytes),
      (l.foldl (fun m r => applyOp m (r.key, r.value)) m).find? k =
        l.foldl (fun v r => if r.key = k then r.value else v) (m.find? k) := by
    intro l
    induction l with
    | nil => exact fun m => rfl
    | cons r l ih =>
        intro m
        rw [List.foldl_cons, List.foldl_cons, ih, find?_applyOp]
  exact hfold _ _

/-- The handle as a read sees it that looks at the active MemTable, the frozen slot and
the live set at three moments. -/
def System.seen (s₁ s₂ s₃ : System) : DbInner :=
  { s₃.db with active := s₁.db.active, frozen := s₂.db.frozen }

/-- Steps that leave the handle open. -/
def Label.onHandle : Label → Bool
  | .reopen _ => false
  | _ => true

/-- A publish that keeps the tombstones of its run. -/
def Keeping : Label → System → Prop
  | .finish, s => ∀ c minSeq, s.compactor = .named c minSeq → c.dropTombstones = false
  | _, _ => True

/-- How far a system has come. -/
structure System.Before (s s' : System) : Prop where
  written : s.written <+: s'.written
  frozenAt : s.frozenAt ≤ s'.frozenAt
  publishedAt : s.publishedAt ≤ s'.publishedAt

section Moving

variable {env : Env} {s s' s'' : System} {held held' : Held} {l : Label}
variable {ok : Label → System → Prop}

theorem System.Before.refl (s : System) : s.Before s :=
  ⟨List.prefix_rfl, le_rfl, le_rfl⟩

theorem System.Before.trans (h : s.Before s') (h' : s'.Before s'') : s.Before s'' :=
  ⟨h.written.trans h'.written, h.frozenAt.trans h'.frozenAt, h.publishedAt.trans h'.publishedAt⟩

/-- No step goes back. -/
theorem Ledger.before (h : Ledger s held) (hstep : Step env l s s') : s.Before s' := by
  cases hstep with
  | insert stage run => exact ⟨List.prefix_append _ _, le_rfl, le_rfl⟩
  | freeze free run => exact ⟨List.prefix_rfl, h.frozenAt, le_rfl⟩
  | publish stage run => exact ⟨List.prefix_rfl, le_rfl, h.publishedAt_le⟩
  | _ => exact ⟨List.prefix_rfl, le_rfl, le_rfl⟩

/-- No run goes back. -/
theorem Steps.before (hok : ∀ l s, ok l s → Fits env l s) (hrun : Steps env ok s s')
    (hs : ∃ held, Files env s held ∧ Ledger s held) : s.Before s' := by
  induction hrun with
  | refl => exact .refl s
  | tail hrun hlast ih =>
      obtain ⟨held, _, hledger⟩ := Ledger.run hok hrun hs
      obtain ⟨l, _, hstep⟩ := hlast
      exact ih.trans (hledger.before hstep)

/-- While every publish keeps its tombstones, none go. -/
theorem Steps.droppedAt (hok : ∀ l s, ok l s → Keeping l s) (hrun : Steps env ok s s') :
    s'.droppedAt = s.droppedAt := by
  refine hrun.keeps (P := fun t => t.droppedAt = s.droppedAt) ?_ rfl
  intro l a b ha hl hstep
  cases hstep with
  | finish stage run =>
      rw [← ha]
      show (if _ then _ else _) = _
      rw [hok _ _ hl _ _ stage]
      rfl
  | _ => exact ha

/-- A step on the handle leaves files alone that are not written through any name. -/
theorem Effect.same (h : Effect env l s held s' held') (hl : l.onHandle = true) :
    ∃ ps, SameExcept ps s.w.vol s'.w.vol := by
  cases h with
  | log stage fits synced same grew => exact ⟨_, same⟩
  | write stage same grew => exact ⟨_, same⟩
  | place table stage covered same grew => exact ⟨_, same⟩
  | record stage manifest same grew => exact ⟨_, same⟩
  | relog wal stage free synced covered same grew => exact ⟨_, same⟩
  | merge stage same grew => exact ⟨_, same⟩
  | name stage free same grew => exact ⟨_, same⟩
  | finish sstables stage picked covered manifest same grew => exact ⟨_, same⟩
  | reopen opts idle loading live opened => cases hl
  | _ => exact ⟨[], .refl _ _⟩

/-- Readers that were copied from the live set go on reading. -/
theorem Steps.tablesRead {dir : String} {bloomEnabled : Bool} {sstables : List SsTable}
    {tables : List (Nat × List Record)} (hok : ∀ l s, ok l s → Fits env l s ∧ l.onHandle = true)
    (hrun : Steps env ok s s') (hs : ∃ held, Files env s held)
    (hread : TablesRead env dir bloomEnabled s.w.vol sstables tables) :
    s'.w.Quiet ∧ TablesRead env dir bloomEnabled s'.w.vol sstables tables := by
  have hkeep := hrun.keeps (P := fun t => (∃ held, Files env t held) ∧
    TablesRead env dir bloomEnabled t.w.vol sstables tables) ?_ ⟨hs, hread⟩
  · obtain ⟨⟨held, hfiles⟩, hread'⟩ := hkeep
    exact ⟨hfiles.quiet, hread'⟩
  · rintro l a b ⟨⟨held, hfiles⟩, hread'⟩ hl hstep
    obtain ⟨held', heff, hfiles'⟩ := hfiles.step (hok l a hl).1 hstep
    obtain ⟨ps, hsame⟩ := heff.same (hok l a hl).2
    exact ⟨⟨held', hfiles'⟩, hread'.same hsame⟩

end Moving

section Seen

variable {env : Env} {s₁ s₂ s₃ : System} {held₁ held₂ held₃ : Held} {w : World}
variable {h : Nat}

/-- Numbers in memory fit their field. -/
theorem Ledger.seqsFit {s : System} {held : Held} (hfiles : Files env s held)
    (hl : Ledger s held) {i j : Nat} {m : MemTable}
    (hm : ofList m.iter = ofList (span s.written i j)) : SeqsFit m.iter := by
  intro r hr
  have hmem : r ∈ ofList m.iter := hr
  rw [hm] at hmem
  have := hl.below r (List.mem_append_left _ (mem_span hmem))
  have := hfiles.seq
  omega

/-- What a read that looks at three moments has to read. -/
theorem serves_seen (hf₁ : Files env s₁ held₁) (hl₁ : Ledger s₁ held₁)
    (hf₂ : Files env s₂ held₂) (hl₂ : Ledger s₂ held₂) (hf₃ : Files env s₃ held₃)
    (hread : TablesRead env s₃.db.dir s₃.db.opts.bloomEnabled w.vol s₃.db.sstables
      held₃.tables) :
    Serves env w.vol (System.seen s₁ s₂ s₃) held₃.tables where
  healthy := hf₃.healthy
  opened := hread
  fit := hf₃.fit
  active := hl₁.seqsFit hf₁ hl₁.active
  frozen := fun m hm => hl₂.seqsFit hf₂ (hl₂.traced.slot m (hf₂.slot.symm.trans hm))

/-- The frozen slot is a span of the history that begins in what the tables show. -/
theorem Ledger.slot_span (hf₂ : Files env s₂ held₂) (hl₂ : Ledger s₂ held₂) :
    ∃ f b, pool (s₂.db.frozen.map MemTable.iter).toList = ofList (span s₂.written f b) ∧
      f ≤ b ∧ f ≤ s₂.publishedAt ∧ b = s₂.frozenAt := by
  have htraced := hl₂.traced
  have hle := hl₂.frozenFrom
  cases hslot : s₂.db.frozen with
  | none =>
      have hfree : s₂.flusher = .free := by
        have := hf₂.slot.symm.trans hslot
        cases hflush : s₂.flusher with
        | free => rfl
        | _ =>
            rw [hflush] at this
            cases this
      rw [hfree] at htraced
      refine ⟨s₂.frozenAt, s₂.frozenAt, ?_, le_rfl, le_of_eq htraced.published.symm, rfl⟩
      rw [span_self]
      simp [ofList]
  | some m =>
      refine ⟨s₂.frozenFrom, s₂.frozenAt, ?_, hle, ?_, rfl⟩
      · rw [← htraced.slot m (hf₂.slot.symm.trans hslot)]
        simp
      · rw [htraced.published]
        split_ifs
        · exact le_rfl
        · exact hle

/-- Where a handle finds a history: the newest part in the active MemTable, a part in the
frozen slot that meets it, and what the tables keep of a beginning that meets both. -/
structure Spread (W : List (List Record)) (db : DbInner) (tables : List (Nat × List Record))
    (a n f b p : Nat) : Prop where
  rising : recordVersions.Rising W.flatten
  active : ofList db.active.iter = ofList (span W a n)
  frozen : pool (db.frozen.map MemTable.iter).toList = ofList (span W f b)
  levels : tables.Pairwise (fun a b => ∀ r ∈ a.2, ∀ r' ∈ b.2, r.seq < r'.seq)
  activeFrom : a ≤ n
  frozenFrom : f ≤ b
  meets : f ≤ p
  joins : a ≤ b

section Spread

variable {env : Env} {w : World} {W : List (List Record)} {db : DbInner}
variable {tables : List (Nat × List Record)} {a n f b p h : Nat}

/-- Tables whose later ones are newer may be searched from the last. -/
theorem layered_of_levels
    (h : tables.Pairwise (fun a b => ∀ r ∈ a.2, ∀ r' ∈ b.2, r.seq < r'.seq)) (key : Bytes)
    (x : Nat) : recordVersions.Layered key x (tables.map Prod.snd).reverse := by
  refine List.pairwise_reverse.mpr (List.pairwise_map.mpr (h.imp ?_))
  exact fun hab a ha b hb => ⟨a, ha, le_of_lt (hab b hb.1 a ha.1)⟩

/-- A lookup returns the answer of one beginning of the history. -/
theorem Spread.get (key : Bytes) (hsp : Spread W db tables a n f b p) (hq : w.Quiet)
    (hs : Serves env w.vol db tables) {D : Set Record}
    (hkept : recordVersions.StandsFor (pool (tables.map Prod.snd)) (ofList (span W 0 p)) D h) :
    ∃ m v, n ≤ m ∧ m ≤ max (max p b) n ∧
      DbInner.getAt env key h db w = (.ok v, db, w) ∧
      recordVersions.Reads (ofList (span W 0 m)) key h v := by
  have hone : recordVersions.OnePerSeq (ofList (span W 0 p)) :=
    hsp.rising.onePerSeq.mono fun r hr => mem_span hr
  have hT : ∀ v, recordVersions.Reads (pool (tables.map Prod.snd).reverse) key h v →
      recordVersions.Reads (ofList (span W 0 p)) key h v := by
    intro v hv
    refine hkept.reads_of hone (hv.congr fun r => ?_)
    simp [Visible, mem_pool]
  obtain ⟨m, hm, hle, hreads⟩ := reads_first_answer hsp.rising (fun l => lookupAt l key h)
    (fun l hl => finds_lookupAt (sorted_sources hs l hl)) hsp.active hsp.frozen hT
    (layered_of_levels hsp.levels key h)
    hsp.activeFrom hsp.frozenFrom hsp.meets hsp.joins
  exact ⟨m, _, hm, hle, getAt_serves hq hs, hreads⟩

/-- The sources hold the map of one beginning of the history, if no tombstone has gone that
the active MemTable may need. -/
theorem Spread.holds (hsp : Spread W db tables a n f b p) {d : Nat} (hda : d ≤ a)
    (hkept : recordVersions.StandsFor (pool (tables.map Prod.snd)) (ofList (span W 0 p))
      (ofList (span W 0 d)) h) {m : SortedMap Bytes Bytes}
    (hm : ∀ k, recordVersions.Reads (ofList (span W 0 (max (max p b) n))) k h (m.find? k)) :
    Holds (db.sources tables) h m := by
  have hpool : pool (db.sources tables) =
      pool (tables.map Prod.snd) ∪ (ofList (span W f b) ∪ ofList (span W a n)) := by
    have hrev : pool (tables.map Prod.snd).reverse = pool (tables.map Prod.snd) := by
      ext r
      simp [mem_pool]
    unfold DbInner.sources
    rw [← hsp.active, ← hsp.frozen, ← hrev, pool_cons, pool_append, Set.union_comm,
      Set.union_comm (pool _) (pool _), Set.union_assoc]
  constructor
  · rw [hpool]
    refine hsp.rising.onePerSeq.mono ?_
    rintro r (hr | hr | hr)
    · exact mem_span (hkept.subset hr)
    · exact mem_span hr
    · exact mem_span hr
  · intro k
    rw [hpool]
    exact hkept.reads_cut hsp.rising hsp.meets hsp.joins hda (hm k)

end Spread

/-- Where a read that looks at three moments finds the history. -/
theorem spread_seen (hl₁ : Ledger s₁ held₁) (hf₂ : Files env s₂ held₂) (hl₂ : Ledger s₂ held₂)
    (hl₃ : Ledger s₃ held₃) (hb₁₂ : s₁.Before s₂) (hb₂₃ : s₂.Before s₃) :
    ∃ f b, Spread s₃.written (System.seen s₁ s₂ s₃) held₃.tables s₁.frozenAt s₁.written.length
      f b s₃.publishedAt ∧ max (max s₃.publishedAt b) s₁.written.length ≤ s₃.written.length := by
  obtain ⟨f, b, hpool, hfb, hfp, rfl⟩ := hl₂.slot_span hf₂
  have hpub := hl₃.publishedAt_le.trans hl₃.frozenAt
  have hlen := (hb₁₂.trans hb₂₃).written.length_le
  have hlen₂ := hl₂.frozenAt.trans hb₂₃.written.length_le
  refine ⟨f, s₂.frozenAt, ?_, by omega⟩
  refine
    { rising := hl₃.written_rising
      active := ?_
      frozen := ?_
      levels := hl₃.levels
      activeFrom := hl₁.frozenAt
      frozenFrom := hfb
      meets := hfp.trans hb₂₃.publishedAt
      joins := hb₁₂.frozenAt }
  · rw [span_begins (hb₁₂.trans hb₂₃).written le_rfl]
    exact hl₁.active
  · rw [span_begins hb₂₃.written hl₂.frozenAt]
    exact hpool

/-- A lookup that reads its sources at three moments returns the answer of one beginning
of the history. -/
theorem get_seen (key : Bytes) (hl₁ : Ledger s₁ held₁) (hf₂ : Files env s₂ held₂)
    (hl₂ : Ledger s₂ held₂) (hl₃ : Ledger s₃ held₃) (hb₁₂ : s₁.Before s₂) (hb₂₃ : s₂.Before s₃)
    (hq : w.Quiet) (hs : Serves env w.vol (System.seen s₁ s₂ s₃) held₃.tables) {D : Set Record}
    (hkept : recordVersions.StandsFor (pool (held₃.tables.map Prod.snd))
      (ofList (span s₃.written 0 s₃.publishedAt)) D h) :
    ∃ n v, s₁.written.length ≤ n ∧ n ≤ s₃.written.length ∧
      DbInner.getAt env key h (System.seen s₁ s₂ s₃) w = (.ok v, System.seen s₁ s₂ s₃, w) ∧
      recordVersions.Reads (ofList (span s₃.written 0 n)) key h v := by
  obtain ⟨f, b, hsp, hle⟩ := spread_seen hl₁ hf₂ hl₂ hl₃ hb₁₂ hb₂₃
  obtain ⟨n, v, hn, hn', hget, hreads⟩ := hsp.get key hq hs hkept
  exact ⟨n, v, hn, hn'.trans hle, hget, hreads⟩

/-- The sources of a scan that reads them at three moments hold the map of one beginning
of the history, if no tombstone has gone that was not frozen when it began. -/
theorem holds_seen (hl₁ : Ledger s₁ held₁) (hf₂ : Files env s₂ held₂) (hl₂ : Ledger s₂ held₂)
    (hl₃ : Ledger s₃ held₃) (hb₁₂ : s₁.Before s₂) (hb₂₃ : s₂.Before s₃)
    (hdropped : s₃.droppedAt ≤ s₁.frozenAt)
    (hkept : recordVersions.StandsFor (pool (held₃.tables.map Prod.snd))
      (ofList (span s₃.written 0 s₃.publishedAt)) (ofList (span s₃.written 0 s₃.droppedAt)) h) :
    ∃ n, s₁.written.length ≤ n ∧ n ≤ s₃.written.length ∧
      ∀ m : SortedMap Bytes Bytes,
        (∀ k, recordVersions.Reads (ofList (span s₃.written 0 n)) k h (m.find? k)) →
        Holds ((System.seen s₁ s₂ s₃).sources held₃.tables) h m := by
  obtain ⟨f, b, hsp, hle⟩ := spread_seen hl₁ hf₂ hl₂ hl₃ hb₁₂ hb₂₃
  exact ⟨_, le_max_right _ _, hle, fun m hm => hsp.holds hdropped hkept hm⟩

end Seen

section Reads

variable {ok : Label → System → Prop} {s₁ s₂ s₃ s₄ : System}

/-- Reads of a beginning of the history are lookups in its map. -/
theorem reads_mapAfter {W : List (List Record)} (hW : recordVersions.Rising W.flatten)
    {h : Nat} (hh : ∀ r ∈ W.flatten, r.seq < h) (n : Nat) (k : Bytes) :
    recordVersions.Reads (ofList (span W 0 n)) k h ((mapAfter (W.take n)).find? k) := by
  have hsub : (W.take n).flatten.Sublist W.flatten := (List.take_sublist n W).flatten
  rw [find?_mapAfter, span, List.drop_zero]
  exact reads_valueAfter (hW.sublist hsub) (fun r hr => hh r (hsub.mem hr)) k

/-- A lookup of the latest value whose reads of the active MemTable, the frozen slot and
the live set fall anywhere between other threads' steps returns what the map held after
the first `n` writes, for some `n` between its beginning and its end; and a scan does,
provided no compaction that drops tombstones publishes while it is between its first
and its last read. -/
theorem reads_show_cut (env : Env) (dir : String) (h₁ : Reached env dir (Fits env) s₁)
    (hok : ∀ l s, ok l s → Fits env l s ∧ l.onHandle = true) (h₁₂ : Steps env ok s₁ s₂)
    (h₂₃ : Steps env ok s₂ s₃)
    (h₃₄ : Steps env (fun l s => Fits env l s ∧ l.onHandle = true) s₃ s₄) :
    (∀ key, ∃ n, s₁.written.length ≤ n ∧ n ≤ s₄.written.length ∧
      (DbInner.get env key (System.seen s₁ s₂ s₃) s₄.w).1 =
        .ok ((mapAfter (s₄.written.take n)).find? key)) ∧
    ((∀ l s, ok l s → Keeping l s) →
      ∃ n, s₁.written.length ≤ n ∧ n ≤ s₄.written.length ∧ ∀ start stop limit,
        (DbInner.scan env start stop limit (System.seen s₁ s₂ s₃) s₄.w).1 =
          .ok ((entriesWithin (mapAfter (s₄.written.take n)) start stop).take limit)) := by
  have hfits : ∀ l s, ok l s → Fits env l s := fun l s hl => (hok l s hl).1
  have hinv₁ := h₁.ledger fun _ _ h => h
  have hinv₂ := Ledger.run hfits h₁₂ hinv₁
  have hinv₃ := Ledger.run hfits h₂₃ hinv₂
  have hb₁₂ := h₁₂.before hfits hinv₁
  have hb₂₃ := h₂₃.before hfits hinv₂
  have hb₃₄ := h₃₄.before (fun _ _ h => h.1) hinv₃
  obtain ⟨held₁, hf₁, hl₁⟩ := hinv₁
  obtain ⟨held₂, hf₂, hl₂⟩ := hinv₂
  obtain ⟨held₃, hf₃, hl₃⟩ := hinv₃
  obtain ⟨hq, hread⟩ := h₃₄.tablesRead (fun _ _ h => h) ⟨held₃, hf₃⟩ hf₃.read
  have hserves := serves_seen hf₁ hl₁ hf₂ hl₂ hf₃ hread
  have hbelow : ∀ r ∈ s₃.written.flatten, r.seq < u64Max := fun r hr =>
    lt_of_lt_of_le (hl₃.below r (List.mem_append_left _ hr)) hf₃.seq
  have hkept := hl₃.kept u64Max fun r hr => hbelow r (mem_span hr)
  have hlen := hb₃₄.written.length_le
  have hmap : ∀ n ≤ s₃.written.length, ∀ k, recordVersions.Reads
      (ofList (span s₃.written 0 n)) k u64Max ((mapAfter (s₄.written.take n)).find? k) := by
    intro n hn k
    obtain ⟨rest, hrest⟩ := hb₃₄.written
    rw [← hrest, List.take_append_of_le_length hn]
    exact reads_mapAfter hl₃.written_rising hbelow n k
  refine ⟨fun key => ?_, fun hkeeping => ?_⟩
  · obtain ⟨n, v, hn, hn', hget, hreads⟩ :=
      get_seen key hl₁ hf₂ hl₂ hl₃ hb₁₂ hb₂₃ hq hserves hkept
    refine ⟨n, hn, hn'.trans hlen, ?_⟩
    have hone : recordVersions.OnePerSeq (ofList (span s₃.written 0 n)) :=
      hl₃.written_rising.onePerSeq.mono fun r hr => mem_span hr
    unfold DbInner.get
    rw [hget, hreads.unique hone (hmap n hn' key)]
  · have hdropped : s₃.droppedAt ≤ s₁.frozenAt := by
      rw [h₂₃.droppedAt hkeeping, h₁₂.droppedAt hkeeping]
      exact hl₁.droppedAt_le.trans hl₁.publishedAt_le
    obtain ⟨n, hn, hn', hholds⟩ := holds_seen hl₁ hf₂ hl₂ hl₃ hb₁₂ hb₂₃ hdropped hkept
    refine ⟨n, hn, hn'.trans hlen, fun start stop limit => ?_⟩
    unfold DbInner.scan
    rw [scanAt_holds hq hserves (hholds _ (hmap n hn')) start stop limit]

/-- The map of a scan that a write overtakes. -/
theorem reads_show_cut_overtaken :
    ∃ s₁ s₂, Reached Stock.env "db" (Fits Stock.env) s₁ ∧
      Steps Stock.env (fun l s => Fits Stock.env l s ∧ l.onHandle = true) s₁ s₂ ∧
      (s₁.written.length = 1 ∧ s₂.written.length = 2 ∧ s₂.db.frozen.isSome) ∧
      ∃ n, 1 ≤ n ∧ n ≤ 2 ∧ ∀ start stop limit,
        (DbInner.scan Stock.env start stop limit (System.seen s₁ s₂ s₂) s₂.w).1 =
          .ok ((entriesWithin (mapAfter (s₂.written.take n)) start stop).take limit) := by
  have hrun : ((System.start Stock.env "db" Options.default).bind
      (System.execAll Stock.env (fun _ _ => true) (System.writeSteps [([1], some [2])]))).any
      (fun s => (System.execAll Stock.env (fun l _ => l.onHandle && l != .finish)
        (System.writeSteps [([3], some [4])] ++ [.freeze]) s).any
        (fun s' => decide (s.written.length = 1 ∧ s'.written.length = 2 ∧
          s'.db.frozen.isSome))) = true := by
    decide +kernel
  obtain ⟨s₁, s₂, hreached, hsteps, htest⟩ := System.execAll_any_later hrun
  replace hreached := hreached.weaken fun _ _ h => h.1
  obtain ⟨hone, htwo, hfrozen⟩ := of_decide_eq_true htest
  have honly : ∀ l s, Fits Stock.env l s ∧ (l.onHandle && l != .finish) = true →
      Fits Stock.env l s ∧ l.onHandle = true := fun l s h =>
    ⟨h.1, (Bool.and_eq_true_iff.mp h.2).1⟩
  obtain ⟨_, hscan⟩ := reads_show_cut Stock.env "db" hreached honly hsteps .refl .refl
  obtain ⟨n, hn, hn', hmap⟩ := hscan fun l s h => by
    cases l with
    | finish => exact absurd h.2 (by simp)
    | _ => trivial
  exact ⟨s₁, s₂, hreached, hsteps.weaken honly, ⟨hone, htwo, hfrozen⟩, n, hone ▸ hn,
    htwo ▸ hn', hmap⟩

/-- A scan copies the active MemTable with a key in it; one batch deletes the key and
writes another, and is flushed and merged into the oldest table, which drops the
tombstone; then the scan reads the live set.  It returns both keys, which were never
there together. -/
theorem scan_shows_deleted_key :
    ∃ s₁ s₂, Reached Stock.env "db" (Fits Stock.env) s₁ ∧
      Steps Stock.env (fun l s => Fits Stock.env l s ∧ l.onHandle = true) s₁ s₂ ∧
      (DbInner.scan Stock.env none (some [5]) 9 (System.seen s₁ s₂ s₂) s₂.w).1.toOption =
        some [([1], [2]), ([3], [4])] ∧
      ∀ n ≤ s₂.written.length,
        (entriesWithin (mapAfter (s₂.written.take n)) none (some [5])).take 9 ≠
          [([1], [2]), ([3], [4])] := by
  have hrun : ((System.start Stock.env "db" ⟨100, .durable, 2, true⟩).bind
      (System.execAll Stock.env (fun _ _ => true)
        (System.writeSteps [([5], some [6]), ([7], some [8]), ([9], some [0])] ++
          System.flushSteps ++ System.writeSteps [([1], some [2])]))).any
      (fun s => (System.execAll Stock.env (fun l _ => l.onHandle)
        (System.writeSteps [([1], none), ([3], some [4])] ++ System.flushSteps ++
          System.mergeSteps ++ [.name, .finish]) s).any
        (fun s' => decide (
          (DbInner.scan Stock.env none (some [5]) 9 (System.seen s s' s') s'.w).1.toOption =
            some [([1], [2]), ([3], [4])] ∧
          ∀ n ≤ s'.written.length,
            (entriesWithin (mapAfter (s'.written.take n)) none (some [5])).take 9 ≠
              [([1], [2]), ([3], [4])]))) = true := by
    decide +kernel
  obtain ⟨s₁, s₂, hreached, hsteps, htest⟩ := System.execAll_any_later hrun
  exact ⟨s₁, s₂, hreached.weaken fun _ _ h => h.1, hsteps, of_decide_eq_true htest⟩

end Reads

end LsmKv
