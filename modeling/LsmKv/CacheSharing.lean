import LsmKv.BlockCache

/-!
# Callers that share a block cache

`load_block` holds the lock of the cache while it looks a block up and again while it puts
one in, and reads the file in between without it.  So callers overlap: two that miss on one
block both read it and both put it.  `Loads` are the states such callers lead to, in any
number and any interleaving.

**Results.**
* `BlockCache.Queued.put`: the map holds exactly the offsets of the queue, each once, and no
  more than the cap.
* `Loads.load`: a call that nobody comes between is a run of `load_block`.
* `cache_transparent`: whatever the interleaving, every call returns the block of the file.
-/

namespace LsmKv

open Foundation

namespace BlockCache

/-- The map holds exactly the offsets of the queue, each once, and no more than the cap. -/
structure Queued (cache : BlockCache) : Prop where
  keys : ∀ offset, (cache.get offset).isSome ↔ offset ∈ cache.order
  nodup : cache.order.Nodup
  bounded : cache.order.length ≤ blockCacheCap

theorem queued_new : new.Queued where
  keys offset := by simp [new, get]
  nodup := List.nodup_nil
  bounded := Nat.zero_le _

/-- Making room leaves a place in the queue, and takes out of the map what it takes out of
the queue. -/
theorem Queued.evict {self : BlockCache} (h : self.Queued) :
    self.evict.Queued ∧ self.evict.order.length < blockCacheCap ∧
      self.evict.order ⊆ self.order := by
  unfold BlockCache.evict
  split_ifs with hfull
  · obtain ⟨keys, nodup, bounded⟩ := h
    cases horder : self.order with
    | nil =>
        rw [horder] at hfull
        exact absurd hfull (by decide)
    | cons evicted rest =>
        rw [horder] at keys nodup bounded
        obtain ⟨hfresh, hrest⟩ := List.nodup_cons.mp nodup
        rw [List.length_cons] at bounded
        refine ⟨⟨fun offset => ?_, hrest, by dsimp only; omega⟩, bounded,
          List.subset_cons_self evicted rest⟩
        show (BlockCache.get ⟨self.map.erase evicted, rest⟩ offset).isSome ↔ offset ∈ rest
        rw [get, SortedMap.find?_erase]
        split_ifs with heq
        · simp [heq, hfresh]
        · have := keys offset
          rw [get, List.mem_cons] at this
          simpa [heq] using this
  · exact ⟨h, not_le.mp hfull, List.Subset.refl _⟩

/-- An offset that is there is not queued a second time. -/
theorem Queued.put {self : BlockCache} (h : self.Queued) (offset : Nat) (block : List Record) :
    (self.put offset block).Queued := by
  unfold BlockCache.put
  split_ifs with hheld
  · exact h
  · obtain ⟨⟨keys, nodup, -⟩, hroom, hsub⟩ := h.evict
    have hnew : offset ∉ self.evict.order := fun hin => hheld ((h.keys offset).mpr (hsub hin))
    refine ⟨fun at_ => ?_, ?_, ?_⟩
    · rw [get, SortedMap.find?_insert, List.mem_append, List.mem_singleton]
      split_ifs with heq
      · simp [heq]
      · simpa [heq, get] using keys at_
    · rw [List.nodup_append]
      refine ⟨nodup, List.nodup_singleton _, ?_⟩
      rintro a ha b hb rfl
      exact hnew (List.mem_singleton.mp hb ▸ ha)
    · rw [List.length_append, List.length_singleton]
      exact hroom

end BlockCache

/-- A call of `load_block` that has left its first critical section: it is to read the file,
or is to put what it has read. -/
inductive Caller where
  | missed (e : IndexEntry)
  | loaded (e : IndexEntry) (block : List Record)

/-- The cache, the callers under way and what the other callers were returned, as the steps
of calls on one reader lead to them. -/
inductive Loads (env : Env) (reader : SsTableReader) (w : World) :
    BlockCache → List Caller → List (IndexEntry × Except Error (List Record)) → Prop
  | opened : Loads env reader w BlockCache.new [] []
  | hit {cache : BlockCache} {callers : List Caller}
      {returned : List (IndexEntry × Except Error (List Record))} {e : IndexEntry}
      {block : List Record} (h : Loads env reader w cache callers returned)
      (he : e ∈ reader.index) (hget : cache.get e.offset = some block) :
      Loads env reader w cache callers ((e, .ok block) :: returned)
  | miss {cache : BlockCache} {callers : List Caller}
      {returned : List (IndexEntry × Except Error (List Record))} {e : IndexEntry}
      (h : Loads env reader w cache callers returned)
      (he : e ∈ reader.index) (hget : cache.get e.offset = none) :
      Loads env reader w cache (.missed e :: callers) returned
  | read {cache : BlockCache} {before behind : List Caller}
      {returned : List (IndexEntry × Except Error (List Record))} {e : IndexEntry}
      {block : List Record}
      (h : Loads env reader w cache (before ++ .missed e :: behind) returned)
      (hread : (reader.loadBlock env e).result cache w = .ok block) :
      Loads env reader w cache (before ++ .loaded e block :: behind) returned
  | fail {cache : BlockCache} {before behind : List Caller}
      {returned : List (IndexEntry × Except Error (List Record))} {e : IndexEntry} {err : Error}
      (h : Loads env reader w cache (before ++ .missed e :: behind) returned)
      (hread : (reader.loadBlock env e).result cache w = .error err) :
      Loads env reader w cache (before ++ behind) ((e, .error err) :: returned)
  | put {cache : BlockCache} {before behind : List Caller}
      {returned : List (IndexEntry × Except Error (List Record))} {e : IndexEntry}
      {block : List Record}
      (h : Loads env reader w cache (before ++ .loaded e block :: behind) returned) :
      Loads env reader w (cache.put e.offset block) (before ++ behind)
        ((e, .ok block) :: returned)

section Shared

variable {env : Env} {reader : SsTableReader} {w : World} {cache : BlockCache}
variable {callers : List Caller} {returned : List (IndexEntry × Except Error (List Record))}

/-- The file holds this block for the entry. -/
def InFile (env : Env) (reader : SsTableReader) (w : World) (e : IndexEntry)
    (block : List Record) : Prop :=
  e ∈ reader.index ∧ ∀ c : BlockCache, reader.loadBlock env e c w = (.ok block, c, w)

/-- What a caller under way asks for is in the index, and what it has read is in the file. -/
def Caller.Sound (env : Env) (reader : SsTableReader) (w : World) : Caller → Prop
  | .missed e => e ∈ reader.index
  | .loaded e block => InFile env reader w e block

/-- What holds between any two steps of callers. -/
structure Transparent (env : Env) (reader : SsTableReader) (w : World) (cache : BlockCache)
    (callers : List Caller) (returned : List (IndexEntry × Except Error (List Record))) :
    Prop where
  queued : cache.Queued
  sure : Sure env reader w cache
  callers : ∀ c ∈ callers, c.Sound env reader w
  returned : ∀ r ∈ returned, ∃ block, r.2 = .ok block ∧ InFile env reader w r.1 block

theorem Loads.transparent (hr : Readable env reader w)
    (h : Loads env reader w cache callers returned) :
    Transparent env reader w cache callers returned := by
  induction h with
  | opened => exact ⟨BlockCache.queued_new, sure_new, by simp, by simp⟩
  | @hit cache callers returned e block _ he hget ih =>
      refine { ih with returned := fun r hr' => ?_ }
      rcases List.mem_cons.mp hr' with rfl | hr'
      · exact ⟨block, rfl, he, ih.sure e he block hget⟩
      · exact ih.returned r hr'
  | miss _ he _ ih =>
      refine { ih with callers := fun c hc => ?_ }
      rcases List.mem_cons.mp hc with rfl | hc
      · exact he
      · exact ih.callers c hc
  | @read cache before behind returned e block _ hread ih =>
      have he : e ∈ reader.index := ih.callers (.missed e) (by simp)
      obtain ⟨b, hb⟩ := hr.loads e he
      have hsame : (Except.ok b : Except Error (List Record)) = .ok block :=
        (congrArg Prod.fst (hb cache)).symm.trans hread
      cases hsame
      refine { ih with callers := fun c hc => ?_ }
      simp only [List.mem_append, List.mem_cons] at hc
      rcases hc with hc | rfl | hc
      · exact ih.callers c (by simp [hc])
      · exact ⟨he, hb⟩
      · exact ih.callers c (by simp [hc])
  | @fail cache before behind returned e err _ hread ih =>
      obtain ⟨b, hb⟩ := hr.loads e (ih.callers (.missed e) (by simp))
      cases (congrArg Prod.fst (hb cache)).symm.trans hread
  | @put cache before behind returned e block _ ih =>
      have hholds : InFile env reader w e block := ih.callers (.loaded e block) (by simp)
      refine ⟨ih.queued.put _ _, ih.sure.put hr hholds.1 hholds.2, fun c hc => ?_,
        fun r hr' => ?_⟩
      · refine ih.callers c ?_
        rcases List.mem_append.mp hc with hc | hc <;> simp [hc]
      · rcases List.mem_cons.mp hr' with rfl | hr'
        · exact ⟨block, rfl, hholds⟩
        · exact ih.returned r hr'

/-- A call that nobody comes between is a run of `load_block`. -/
theorem Loads.load (hr : Readable env reader w) (h : Loads env reader w cache callers returned)
    {e : IndexEntry} (he : e ∈ reader.index) :
    ∃ block cache', reader.loadCached env e cache w = (.ok block, cache', w) ∧
      Loads env reader w cache' callers ((e, .ok block) :: returned) := by
  obtain ⟨block, cache', hrun, -, -⟩ := (h.transparent hr).sure.load hr he
  refine ⟨block, cache', hrun, ?_⟩
  unfold SsTableReader.loadCached at hrun
  rw [M.bind_ok (M.self_apply cache w)] at hrun
  cases hget : cache.get e.offset with
  | some b =>
      rw [hget] at hrun
      cases hrun
      exact h.hit he hget
  | none =>
      obtain ⟨b, hb⟩ := hr.loads e he
      rw [hget] at hrun
      dsimp only at hrun
      rw [M.bind_ok (hb cache)] at hrun
      cases hrun
      have hmiss : Loads env reader w cache ([] ++ .missed e :: callers) returned :=
        h.miss he hget
      have hread : Loads env reader w cache ([] ++ .loaded e block :: callers) returned :=
        hmiss.read (congrArg Prod.fst (hb cache))
      exact hread.put

end Shared

/-- Callers on a reader of a written table: in every interleaving each call returns the block
that reading and decoding without a cache returns, and at every point the keys of the map are
the offsets of the queue, each once, and at most `blockCacheCap` of them. -/
theorem cache_transparent (env : Env) (path : Path) (records : List Record)
    (hfits : TableFits env records) (hcompress : ∀ raw, env.compress raw ≠ []) (w : World)
    (hq : w.Quiet) (bloomEnabled : Bool) :
    ∃ w' reader, (SsTableWriter.write env path records : M Unit Nat) () w =
        (.ok records.length, (), w') ∧
      (SsTableReader.openTable path bloomEnabled : M Unit SsTableReader) () w' =
        (.ok reader, (), w') ∧
      ∀ cache callers returned, Loads env reader w' cache callers returned →
        (∀ e r, (e, r) ∈ returned → ∃ block, r = .ok block ∧
          ∀ c : BlockCache, reader.loadBlock env e c w' = (.ok block, c, w')) ∧
        (∀ offset, (cache.map.find? offset).isSome ↔ offset ∈ cache.order) ∧
        cache.order.Nodup ∧ cache.order.length ≤ blockCacheCap := by
  obtain ⟨w', i, hwrite, hopen, hq', hbytes⟩ := write_open path bloomEnabled hq hfits
  refine ⟨w', readerOf env path i bloomEnabled records, hwrite, hopen, ?_⟩
  intro cache callers returned hcalls
  have h := hcalls.transparent (readable_readerOf path bloomEnabled hq' hbytes hfits hcompress)
  refine ⟨fun e r her => ?_, h.queued.keys, h.queued.nodup, h.queued.bounded⟩
  obtain ⟨block, hok, -, hblock⟩ := h.returned (e, r) her
  exact ⟨block, hok, hblock⟩

/-- Two callers that miss on the only block of a table and both put it. -/
theorem cache_transparent_twice :
    ∃ w' reader, (SsTableWriter.write Stock.env ⟨"db", .sst 0⟩
        [Record.put [1] [2] 5, Record.put [4] [5] 0] : M Unit Nat) ()
        (World.start Volume.empty) = (.ok 2, (), w') ∧
      (SsTableReader.openTable ⟨"db", .sst 0⟩ true : M Unit SsTableReader) () w' =
        (.ok reader, (), w') ∧
      reader.index.length = 1 ∧
      ∀ e ∈ reader.index, ∃ block cache,
        Loads Stock.env reader w' cache [] [(e, .ok block), (e, .ok block)] ∧
        cache.order.Nodup ∧ e.offset ∈ cache.order := by
  obtain ⟨w', reader, hwrite, hopen, hall⟩ := cache_transparent Stock.env ⟨"db", .sst 0⟩
    [Record.put [1] [2] 5, Record.put [4] [5] 0] (by decide +kernel) Stock.store_ne_nil
    (World.start Volume.empty) (World.quiet_start Volume.empty) true
  refine ⟨w', reader, hwrite, hopen, ?_, fun e he => ?_⟩
  · have hlen : ((SsTableWriter.write Stock.env ⟨"db", .sst 0⟩
        [Record.put [1] [2] 5, Record.put [4] [5] 0] >>= fun _ =>
          SsTableReader.openTable ⟨"db", .sst 0⟩ true : M Unit SsTableReader).result ()
        (World.start Volume.empty)).toOption.map (fun r => r.index.length) = some 1 := by
      decide +kernel
    rw [M.result, M.bind_ok hwrite, hopen] at hlen
    exact Option.some.inj hlen
  · have htwo : Loads Stock.env reader w' BlockCache.new [.missed e, .missed e] [] :=
      (Loads.opened.miss he rfl).miss he rfl
    cases hread : (reader.loadBlock Stock.env e).result BlockCache.new w' with
    | error err =>
        have hfail : Loads Stock.env reader w' BlockCache.new ([] ++ [.missed e])
            [(e, .error err)] := Loads.fail (show Loads _ _ _ _ ([] ++ _ :: _) _ from htwo) hread
        obtain ⟨block, hne, -⟩ := (hall _ _ _ hfail).1 e (.error err) (by simp)
        cases hne
    | ok block =>
        have hone : Loads Stock.env reader w' BlockCache.new
            ([.loaded e block] ++ .missed e :: []) [] :=
          Loads.read (show Loads _ _ _ _ ([] ++ _ :: _) _ from htwo) hread
        have hput : Loads Stock.env reader w' _ ([] ++ [.loaded e block]) [(e, .ok block)] :=
          Loads.put (show Loads _ _ _ _ ([] ++ _ :: _) _ from hone.read hread)
        have hlast : Loads Stock.env reader w' _ ([] ++ []) [(e, .ok block), (e, .ok block)] :=
          hput.put
        obtain ⟨-, hkeys, hnodup, -⟩ := hall _ _ _ hlast
        refine ⟨block, _, hlast, hnodup, (hkeys e.offset).mp ?_⟩
        simp [BlockCache.put, BlockCache.new, BlockCache.evict, blockCacheCap]

end LsmKv
