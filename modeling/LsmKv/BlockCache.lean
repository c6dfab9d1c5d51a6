import LsmKv.SsTableRead
import LsmKv.Stock

/-!
# Lookups through the block cache

A reader keeps the blocks it has decompressed in a bounded first-in-first-out cache, under
the offset they start at.  The lookups of `SsTable` load every block from the file; here they
load it through the cache, and a walk is taken record by record, so that other lookups of
the same reader come in between.

**Results.**
* `Sure.load`: a cache that holds only blocks of the file answers a load as the file does,
  and stays so.
* `TableScan.next_eq`: one call of `TableScan::next` yields the next item of the walk.
* `table_answers_like_list`: whatever lookups came before, a written table answers as the
  run it was written from.
-/

namespace LsmKv

open Foundation

/-- `BLOCK_CACHE_CAP`. -/
def blockCacheCap : Nat := 64

/-- `sstable::BlockCache`: the blocks by offset, and the offsets in the order they came in. -/
structure BlockCache where
  map : SortedMap Nat (List Record)
  order : List Nat

namespace BlockCache

/-- `BlockCache::new`. -/
def new : BlockCache := ⟨SortedMap.empty, []⟩

/-- `BlockCache::get`. -/
def get (self : BlockCache) (offset : Nat) : Option (List Record) := self.map.find? offset

/-- The step of `put` that makes room. -/
def evict (self : BlockCache) : BlockCache :=
  if self.order.length ≥ blockCacheCap then
    match self.order with
    | evicted :: rest => ⟨self.map.erase evicted, rest⟩
    | [] => self
  else self

/-- `BlockCache::put`. -/
def put (self : BlockCache) (offset : Nat) (block : List Record) : BlockCache :=
  if (self.map.find? offset).isSome then self
  else
    let self := self.evict
    ⟨self.map.insert offset block, self.order ++ [offset]⟩

/-- Making room takes blocks away and brings none in. -/
theorem get_evict {self : BlockCache} {offset : Nat} {b : List Record}
    (h : self.evict.get offset = some b) : self.get offset = some b := by
  unfold evict at h
  split at h
  · split at h
    · rw [get, SortedMap.find?_erase] at h
      split at h
      · cases h
      · exact h
    · exact h
  · exact h

/-- What a cache holds after a `put` is the new block or was there before. -/
theorem get_put {self : BlockCache} {offset at_ : Nat} {block b : List Record}
    (h : (self.put offset block).get at_ = some b) :
    (at_ = offset ∧ b = block) ∨ self.get at_ = some b := by
  unfold put at h
  split at h
  · exact Or.inr h
  · rw [get, SortedMap.find?_insert] at h
    split at h
    · next heq => exact Or.inl ⟨heq, (Option.some.inj h).symm⟩
    · exact Or.inr (get_evict h)

end BlockCache

namespace SsTableReader

variable {σ : Type}

/-- `load_block`. -/
def loadCached (env : Env) (self : SsTableReader) (e : IndexEntry) :
    M BlockCache (List Record) := do
  let cache ← M.self
  match cache.get e.offset with
  | some block => return block
  | none =>
      let block ← self.loadBlock env e
      M.update (fun cache => cache.put e.offset block)
      return block

/-- `get_at`, with the way it loads its block. -/
def getAtBy (env : Env) (load : IndexEntry → M σ (List Record)) (self : SsTableReader)
    (key : Bytes) (seqBound : Nat) : M σ (Option Record) :=
  if self.index = [] then pure none
  else if self.bloomEnabled ∧ self.bloom.contains env key = false then pure none
  else
    let found :=
      match binarySearch self.index key with
      | .ok i => some i
      | .error 0 => none
      | .error (i + 1) => some i
    match found.bind (fun i => self.index[i]?) with
    | none => pure none
    | some e => do
        let block ← load e
        return scanBlock key seqBound block

/-- `iter_all`, with the way it loads its blocks. -/
def iterAllBy (load : IndexEntry → M σ (List Record)) (self : SsTableReader) :
    M σ (List Record) := do
  let blocks ← M.collect load self.index
  return blocks.flatten

theorem getAt_eq_getAtBy (env : Env) (self : SsTableReader) (key : Bytes) (seqBound : Nat) :
    (self.getAt env key seqBound : M σ (Option Record)) =
      self.getAtBy env (self.loadBlock env) key seqBound := rfl

theorem iterAll_eq_iterAllBy (env : Env) (self : SsTableReader) :
    (self.iterAll env : M σ (List Record)) = self.iterAllBy (self.loadBlock env) := rfl

end SsTableReader

/-- `sstable::TableScan`: the entries of the blocks it has not loaded, what it has not read
of the block it has loaded, and the key it skips to. -/
structure TableScan where
  ahead : List IndexEntry
  loaded : Option (List Record)
  start : Option Bytes

/-- `SsTableReader::scan`. -/
def SsTableReader.walk (self : SsTableReader) (start : Option Bytes) : TableScan :=
  let first :=
    match start with
    | some key => self.blockBracketing key
    | none => if self.index = [] then none else some 0
  ⟨self.index.drop (first.getD self.index.length), none, start⟩

theorem SsTableReader.scan_eq_walk {σ : Type} (env : Env) (self : SsTableReader)
    (start : Option Bytes) :
    (self.scan env start : M σ (List (Except Error Record))) =
      self.scanBlocks env start (self.walk start).ahead := rfl

namespace TableScan

variable {σ : Type}

/-- The turns of the loop of `next` inside the loaded block: the first record not below the
start, and what is left behind it. -/
def nextIn (start : Option Bytes) : List Record → Option (Record × List Record)
  | [] => none
  | r :: rs =>
      if start.any (fun k => decide (r.key < k)) then nextIn start rs else some (r, rs)

/-- The turns of the loop of `next` from a block that is not loaded. -/
def nextBlock (load : IndexEntry → M σ (List Record)) :
    List IndexEntry → Option Bytes → M σ (Option (Except Error Record) × TableScan)
  | [], start => pure (none, ⟨[], none, start⟩)
  | e :: rest, start => do
      match ← M.attempt (load e) with
      | .error err => return (some (.error err), ⟨[], none, start⟩)
      | .ok block =>
          match nextIn start block with
          | some (r, left) => return (some (.ok r), ⟨rest, some left, start⟩)
          | none => nextBlock load rest none

/-- `TableScan::next`: the item, and the walk behind it. -/
def next (load : IndexEntry → M σ (List Record)) (self : TableScan) :
    M σ (Option (Except Error Record) × TableScan) :=
  match self.loaded with
  | none => nextBlock load self.ahead self.start
  | some left =>
      match nextIn self.start left with
      | some (r, left) => pure (some (.ok r), { self with loaded := some left })
      | none => nextBlock load self.ahead none

theorem nextIn_eq (start : Option Bytes) (l : List Record) :
    (nextIn start l = none ∧ fromStart start l = []) ∨
      ∃ r left, nextIn start l = some (r, left) ∧
        fromStart start l = r :: fromStart start left := by
  induction l with
  | nil => exact Or.inl ⟨rfl, rfl⟩
  | cons r rs ih =>
      cases start with
      | none => exact Or.inr ⟨r, rs, rfl, rfl⟩
      | some k =>
          by_cases hk : r.key < k
          · have hskip : nextIn (some k) (r :: rs) = nextIn (some k) rs := by
              rw [nextIn, if_pos (by simpa using hk)]
            have hfrom : fromStart (some k) (r :: rs) = fromStart (some k) rs :=
              List.filter_cons_of_neg (by simpa using hk)
            rw [hskip, hfrom]
            exact ih
          · refine Or.inr ⟨r, rs, by rw [nextIn, if_neg (by simpa using hk)], ?_⟩
            exact List.filter_cons_of_pos (by simpa using hk)

end TableScan

section Cached

variable {env : Env} {reader : SsTableReader} {w : World} {cache : BlockCache}

/-- A reader whose blocks can all be loaded, each from an offset of its own. -/
structure Readable (env : Env) (reader : SsTableReader) (w : World) : Prop where
  loads : ∀ e ∈ reader.index, ∃ b, ∀ c : BlockCache,
    reader.loadBlock env e c w = (.ok b, c, w)
  apart : ∀ e ∈ reader.index, ∀ e' ∈ reader.index, e.offset = e'.offset → e = e'

/-- What the cache holds for an entry of the index is what the file holds. -/
def Sure (env : Env) (reader : SsTableReader) (w : World) (cache : BlockCache) : Prop :=
  ∀ e ∈ reader.index, ∀ b, cache.get e.offset = some b →
    ∀ c : BlockCache, reader.loadBlock env e c w = (.ok b, c, w)

theorem sure_new : Sure env reader w BlockCache.new := by
  intro e _ b hb
  cases hb

theorem Sure.put (hr : Readable env reader w) (hs : Sure env reader w cache) {e : IndexEntry}
    (he : e ∈ reader.index) {b : List Record}
    (hb : ∀ c : BlockCache, reader.loadBlock env e c w = (.ok b, c, w)) :
    Sure env reader w (cache.put e.offset b) := by
  intro e' he' b' hb'
  rcases BlockCache.get_put hb' with ⟨hoff, rfl⟩ | hold
  · rw [hr.apart e' he' e he hoff]
    exact hb
  · exact hs e' he' b' hold

/-- A load through the cache returns the block of the file. -/
theorem Sure.load (hr : Readable env reader w) (hs : Sure env reader w cache) {e : IndexEntry}
    (he : e ∈ reader.index) :
    ∃ b cache', reader.loadCached env e cache w = (.ok b, cache', w) ∧
      Sure env reader w cache' ∧
      ∀ c : BlockCache, reader.loadBlock env e c w = (.ok b, c, w) := by
  unfold SsTableReader.loadCached
  rw [M.bind_ok (M.self_apply cache w)]
  cases hget : cache.get e.offset with
  | some b => exact ⟨b, cache, rfl, hs, hs e he b hget⟩
  | none =>
      obtain ⟨b, hb⟩ := hr.loads e he
      refine ⟨b, cache.put e.offset b, ?_, hs.put hr he hb, hb⟩
      dsimp only
      rw [M.bind_ok (hb cache)]
      rfl

theorem scanBlocks_cons {e : IndexEntry} {es : List IndexEntry} {b : List Record}
    {start : Option Bytes} {later : List (Except Error Record)}
    (hb : ∀ c : BlockCache, reader.loadBlock env e c w = (.ok b, c, w))
    (hlater : ∀ c : BlockCache, reader.scanBlocks env none es c w = (.ok later, c, w))
    (c : BlockCache) :
    reader.scanBlocks env start (e :: es) c w =
      (.ok ((fromStart start b).map .ok ++ later), c, w) := by
  unfold SsTableReader.scanBlocks
  rw [M.bind_ok (M.attempt_eq (hb c))]
  dsimp only
  rw [M.bind_ok (hlater c)]
  rfl

/-- A walk over blocks that can be loaded comes to its end. -/
theorem scanBlocks_ok (hr : Readable env reader w) {es : List IndexEntry}
    (hes : ∀ e ∈ es, e ∈ reader.index) (start : Option Bytes) :
    ∃ items, ∀ c : BlockCache, reader.scanBlocks env start es c w = (.ok items, c, w) := by
  induction es generalizing start with
  | nil => exact ⟨[], fun c => rfl⟩
  | cons e es ih =>
      obtain ⟨b, hb⟩ := hr.loads e (hes e (by simp))
      obtain ⟨later, hlater⟩ := ih (fun e' h => hes e' (by simp [h])) none
      exact ⟨_, scanBlocks_cons hb hlater⟩

/-- A lookup through the cache returns what it returns without one. -/
theorem Sure.getAt (hr : Readable env reader w) (hs : Sure env reader w cache) (key : Bytes)
    (seqBound : Nat) :
    ∃ r cache', reader.getAtBy env (reader.loadCached env) key seqBound cache w =
        (.ok r, cache', w) ∧ Sure env reader w cache' ∧
      ∀ c : BlockCache, reader.getAt env key seqBound c w = (.ok r, c, w) := by
  simp only [SsTableReader.getAt_eq_getAtBy]
  unfold SsTableReader.getAtBy
  split_ifs with hnil hbloom
  · exact ⟨none, cache, rfl, hs, fun c => rfl⟩
  · exact ⟨none, cache, rfl, hs, fun c => rfl⟩
  · dsimp only
    split
    · exact ⟨none, cache, rfl, hs, fun c => rfl⟩
    · next e hfound =>
        have he : e ∈ reader.index := by
          obtain ⟨i, -, hi⟩ := Option.bind_eq_some_iff.mp hfound
          exact List.mem_of_getElem? hi
        obtain ⟨b, cache', hload, hs', hb⟩ := hs.load hr he
        refine ⟨scanBlock key seqBound b, cache', ?_, hs', fun c => ?_⟩
        · rw [M.bind_ok hload]
          rfl
        · rw [M.bind_ok (hb c)]
          rfl

theorem Sure.collect (hr : Readable env reader w) (hs : Sure env reader w cache)
    {es : List IndexEntry} (hes : ∀ e ∈ es, e ∈ reader.index) :
    ∃ bs cache', M.collect (reader.loadCached env) es cache w = (.ok bs, cache', w) ∧
      Sure env reader w cache' ∧
      ∀ c : BlockCache, M.collect (reader.loadBlock env) es c w = (.ok bs, c, w) := by
  induction es generalizing cache with
  | nil => exact ⟨[], cache, rfl, hs, fun c => rfl⟩
  | cons e es ih =>
      obtain ⟨b, cache₁, hload, hs₁, hb⟩ := hs.load hr (hes e (by simp))
      obtain ⟨bs, cache₂, hcoll, hs₂, hbs⟩ := ih hs₁ (fun e' h => hes e' (by simp [h]))
      refine ⟨b :: bs, cache₂, ?_, hs₂, fun c => ?_⟩
      · rw [M.collect_cons, M.bind_ok hload, M.bind_ok hcoll]
        rfl
      · rw [M.collect_cons, M.bind_ok (hb c), M.bind_ok (hbs c)]
        rfl

/-- Reading a whole table through the cache returns what it returns without one. -/
theorem Sure.iterAll (hr : Readable env reader w) (hs : Sure env reader w cache) :
    ∃ rs cache', reader.iterAllBy (reader.loadCached env) cache w = (.ok rs, cache', w) ∧
      Sure env reader w cache' ∧
      ∀ c : BlockCache, reader.iterAll env c w = (.ok rs, c, w) := by
  obtain ⟨bs, cache', hcoll, hs', hbs⟩ := hs.collect hr (fun e he => he)
  refine ⟨bs.flatten, cache', ?_, hs', fun c => ?_⟩
  · unfold SsTableReader.iterAllBy
    rw [M.bind_ok hcoll]
    rfl
  · unfold SsTableReader.iterAll
    rw [M.bind_ok (hbs c)]
    rfl

/-- The items a walk has still to yield: those of the block it is in, and those the walk
over the blocks ahead yields without a cache. -/
structure Remains (env : Env) (reader : SsTableReader) (w : World) (walk : TableScan)
    (items : List (Except Error Record)) : Prop where
  ahead : ∀ e ∈ walk.ahead, e ∈ reader.index
  items : ∃ later,
    (∀ c : BlockCache, reader.scanBlocks env (if walk.loaded.isSome then none else walk.start)
      walk.ahead c w = (.ok later, c, w)) ∧
    items = (fromStart walk.start (walk.loaded.getD [])).map .ok ++ later

theorem Sure.nextBlock (hr : Readable env reader w) (hs : Sure env reader w cache)
    {ahead : List IndexEntry} (hahead : ∀ e ∈ ahead, e ∈ reader.index) {start : Option Bytes}
    {items : List (Except Error Record)}
    (hitems : ∀ c : BlockCache, reader.scanBlocks env start ahead c w = (.ok items, c, w)) :
    ∃ walk cache', TableScan.nextBlock (reader.loadCached env) ahead start cache w =
        (.ok (items.head?, walk), cache', w) ∧ Sure env reader w cache' ∧
      Remains env reader w walk items.tail := by
  induction ahead generalizing cache start items with
  | nil =>
      have hnil : [] = items := Except.ok.inj (Prod.ext_iff.mp (hitems cache)).1
      subst hnil
      exact ⟨⟨[], none, start⟩, cache, rfl, hs, hahead, [], fun c => rfl, rfl⟩
  | cons e rest ih =>
      have hrest : ∀ e' ∈ rest, e' ∈ reader.index := fun e' h => hahead e' (by simp [h])
      obtain ⟨b, cache₁, hload, hs₁, hb⟩ := hs.load hr (hahead e (by simp))
      obtain ⟨later, hlater⟩ := scanBlocks_ok hr hrest none
      have hsplit : items = (fromStart start b).map .ok ++ later := by
        have h := (hitems cache).symm.trans (scanBlocks_cons hb hlater cache)
        exact Except.ok.inj (Prod.ext_iff.mp h).1
      unfold TableScan.nextBlock
      rw [M.bind_ok (M.attempt_eq hload)]
      dsimp only
      rcases TableScan.nextIn_eq start b with ⟨hnone, hnil⟩ | ⟨r, left, hsome, hcons⟩
      · rw [hnone, hsplit, hnil]
        exact ih hs₁ hrest hlater
      · rw [hsome, hsplit, hcons]
        exact ⟨⟨rest, some left, start⟩, cache₁, rfl, hs₁, hrest, later, hlater, rfl⟩

/-- One call of `TableScan::next`, whatever the cache holds, yields the next item. -/
theorem TableScan.next_eq (hr : Readable env reader w) (hs : Sure env reader w cache)
    {walk : TableScan} {items : List (Except Error Record)}
    (h : Remains env reader w walk items) :
    ∃ walk' cache', walk.next (reader.loadCached env) cache w =
        (.ok (items.head?, walk'), cache', w) ∧ Sure env reader w cache' ∧
      Remains env reader w walk' items.tail := by
  obtain ⟨ahead, loaded, start⟩ := walk
  obtain ⟨hahead, later, hlater, hitems⟩ := h
  cases loaded with
  | none =>
      rw [hitems]
      exact hs.nextBlock hr hahead hlater
  | some left =>
      simp only [Option.getD_some] at hitems
      unfold TableScan.next
      dsimp only
      rcases TableScan.nextIn_eq start left with ⟨hnone, hnil⟩ | ⟨r, left', hsome, hcons⟩
      · rw [hnone, hitems, hnil]
        exact hs.nextBlock hr hahead hlater
      · rw [hsome, hitems, hcons]
        exact ⟨⟨ahead, some left', start⟩, cache, rfl, hs, hahead, later, hlater, rfl⟩

/-- A walk that has begun: where it started, what it has yielded, and where it is. -/
structure OpenScan where
  start : Option Bytes
  pulled : List (Except Error Record)
  walk : TableScan

/-- The caches and walks that lookups on one reader lead to: in any number and order, with
the calls of `next` of several walks among them. -/
inductive Lookups (env : Env) (reader : SsTableReader) (w : World) :
    BlockCache → List OpenScan → Prop
  | opened : Lookups env reader w BlockCache.new []
  | get {cache cache' : BlockCache} {scans : List OpenScan} {key : Bytes} {seqBound : Nat}
      {r : Except Error (Option Record)} {w' : World} (h : Lookups env reader w cache scans)
      (hget : reader.getAtBy env (reader.loadCached env) key seqBound cache w = (r, cache', w')) :
      Lookups env reader w cache' scans
  | all {cache cache' : BlockCache} {scans : List OpenScan} {r : Except Error (List Record)}
      {w' : World} (h : Lookups env reader w cache scans)
      (hall : reader.iterAllBy (reader.loadCached env) cache w = (r, cache', w')) :
      Lookups env reader w cache' scans
  | scan {cache : BlockCache} {scans : List OpenScan} (start : Option Bytes)
      (h : Lookups env reader w cache scans) :
      Lookups env reader w cache (⟨start, [], reader.walk start⟩ :: scans)
  | next {cache cache' : BlockCache} {scans before behind : List OpenScan} {sc : OpenScan}
      {item : Option (Except Error Record)} {walk : TableScan} {w' : World}
      (h : Lookups env reader w cache scans) (hscans : scans = before ++ sc :: behind)
      (hnext : sc.walk.next (reader.loadCached env) cache w = (.ok (item, walk), cache', w')) :
      Lookups env reader w cache'
        (before ++ ⟨sc.start, sc.pulled ++ item.toList, walk⟩ :: behind)

/-- Every walk yields the run from its start, and the cache stays sure. -/
theorem Lookups.kept {records : List Record} {scans : List OpenScan}
    (hr : Readable env reader w)
    (hscan : ∀ start (c : BlockCache), reader.scan env start c w =
      (.ok ((fromStart start records).map .ok), c, w))
    (h : Lookups env reader w cache scans) :
    Sure env reader w cache ∧ ∀ sc ∈ scans, ∃ left, Remains env reader w sc.walk left ∧
      (fromStart sc.start records).map .ok = sc.pulled ++ left := by
  induction h with
  | opened => exact ⟨sure_new, by simp⟩
  | get _ hget ih =>
      obtain ⟨_, _, hrun, hs, _⟩ := ih.1.getAt hr _ _
      cases hget.symm.trans hrun
      exact ⟨hs, ih.2⟩
  | all _ hall ih =>
      obtain ⟨_, _, hrun, hs, _⟩ := ih.1.iterAll hr
      cases hall.symm.trans hrun
      exact ⟨hs, ih.2⟩
  | scan start _ ih =>
      refine ⟨ih.1, fun sc hsc => ?_⟩
      rcases List.mem_cons.mp hsc with rfl | hsc
      · refine ⟨_, ⟨fun e he => List.mem_of_mem_drop he, _, hscan start, ?_⟩, rfl⟩
        rfl
      · exact ih.2 sc hsc
  | @next _ _ _ before behind sc _ _ _ _ hscans hnext ih =>
      obtain ⟨hs, hall⟩ := ih
      subst hscans
      obtain ⟨left, hleft, hrun⟩ := hall sc (by simp)
      obtain ⟨walk', cache', heq, hs', hleft'⟩ := TableScan.next_eq hr hs hleft
      cases hnext.symm.trans heq
      refine ⟨hs', fun sc' hsc' => ?_⟩
      rcases List.mem_append.mp hsc' with h | h
      · exact hall sc' (by simp [h])
      · rcases List.mem_cons.mp h with rfl | h
        · refine ⟨left.tail, hleft', ?_⟩
          rw [hrun, List.append_assoc]
          cases left with
          | nil => rfl
          | cons a l => rfl
        · exact hall sc' (by simp [h])

end Cached

section Written

variable {env : Env} {path : Path} {i : Nat} {bloomEnabled : Bool} {records : List Record}
variable {w : World}

/-- Blocks of a positive length start at different offsets. -/
theorem indexFrom_apart (env : Env) (hcompress : ∀ raw, env.compress raw ≠ []) (base : Nat)
    (bs : List (List Record)) :
    (indexFrom env base bs).Pairwise (fun e e' => e.offset < e'.offset) ∧
      ∀ e ∈ indexFrom env base bs, base ≤ e.offset := by
  induction bs generalizing base with
  | nil => exact ⟨List.Pairwise.nil, by simp [indexFrom]⟩
  | cons b bs ih =>
      obtain ⟨hpair, hle⟩ := ih (base + (compBlock env b).length)
      have hpos : 0 < (compBlock env b).length := List.length_pos_iff.mpr (hcompress _)
      refine ⟨List.pairwise_cons.mpr ⟨fun e he => ?_, hpair⟩, fun e he => ?_⟩
      · have := hle e he
        show base < e.offset
        omega
      · rcases List.mem_cons.mp he with rfl | he
        · exact le_rfl
        · have := hle e he
          omega

theorem loads_indexFrom (hq : w.Quiet) (reader : SsTableReader) {base : Nat}
    {bs : List (List Record)} (h : BlocksAt env (w.vol.inodes reader.file).bytes base bs) :
    ∀ e ∈ indexFrom env base bs, ∃ b, ∀ c : BlockCache,
      reader.loadBlock env e c w = (.ok b, c, w) := by
  induction bs generalizing base with
  | nil => simp [indexFrom]
  | cons b bs ih =>
      intro e he
      rcases List.mem_cons.mp he with rfl | he
      · exact ⟨b, fun c => h.load hq reader⟩
      · exact ih h.tail e he

/-- The blocks of a written table can be loaded. -/
theorem readable_readerOf (path : Path) (bloomEnabled : Bool) (hq : w.Quiet)
    (hbytes : (w.vol.inodes i).bytes = tableBytes env records) (hfits : TableFits env records)
    (hcompress : ∀ raw, env.compress raw ≠ []) :
    Readable env (readerOf env path i bloomEnabled records) w := by
  have hat := blocksAt_drop hfits 0
  rw [List.take_zero, List.drop_zero, ← hbytes] at hat
  refine ⟨loads_indexFrom hq (readerOf env path i bloomEnabled records) hat, ?_⟩
  intro e he e' he' hoff
  by_contra hne
  have hpair := (indexFrom_apart env hcompress 0 (tableBlocks records)).1
  have hapart : (indexFrom env 0 (tableBlocks records)).Pairwise
      (fun a b => a.offset ≠ b.offset) := hpair.imp fun h => h.ne
  have : Std.Symm (fun a b : IndexEntry => a.offset ≠ b.offset) := ⟨fun _ _ h => h.symm⟩
  exact hapart.forall he he' hne hoff

/-- A written table is opened. -/
theorem write_open (path : Path) (bloomEnabled : Bool) (hq : w.Quiet)
    (hfits : TableFits env records) :
    ∃ w' i, (SsTableWriter.write env path records : M Unit Nat) () w =
        (.ok records.length, (), w') ∧
      (SsTableReader.openTable path bloomEnabled : M Unit SsTableReader) () w' =
        (.ok (readerOf env path i bloomEnabled records), (), w') ∧
      w'.Quiet ∧ (w'.vol.inodes i).bytes = tableBytes env records := by
  obtain ⟨w', hwrite, hvol, hgrew⟩ := SsTableWriter.write_volume (s := ()) env path records hq
  have hbound := ((Volume.bound_truncateAt w.vol path).append (tableBytes env records)).sync
  rw [← hvol, List.nil_append] at hbound
  have hbytes : (w'.vol.inodes (w.vol.inodeAt path)).bytes = tableBytes env records := by
    rw [hbound.inode]
  exact ⟨w', _, hwrite, openTable_eq bloomEnabled hgrew.quiet ⟨hbound.name, hbytes⟩ hfits,
    hgrew.quiet, hbytes⟩

/-- Whatever lookups came before, a written table answers as the run it was written from:
reading it whole, every lookup, and every walk at every call of `next`. -/
theorem table_answers_like_list (env : Env) (path : Path) (records : List Record)
    (hfits : TableFits env records) (hsorted : SortedRun records)
    (hcompress : ∀ raw, env.compress raw ≠ []) (hq : w.Quiet) (bloomEnabled : Bool) :
    ∃ w' reader, (SsTableWriter.write env path records : M Unit Nat) () w =
        (.ok records.length, (), w') ∧
      (SsTableReader.openTable path bloomEnabled : M Unit SsTableReader) () w' =
        (.ok reader, (), w') ∧
      ∀ cache scans, Lookups env reader w' cache scans →
        (∃ cache', reader.iterAllBy (reader.loadCached env) cache w' =
          (.ok records, cache', w')) ∧
        (∀ key seqBound, ∃ cache',
          reader.getAtBy env (reader.loadCached env) key seqBound cache w' =
            (.ok (records.find? (fun r => r.key = key ∧ r.seq < seqBound)), cache', w')) ∧
        ∀ sc ∈ scans, ∃ left,
          (records.filter (fun r => sc.start.all (fun k => decide (k ≤ r.key)))).map .ok =
            sc.pulled ++ left ∧
          ∃ walk cache', sc.walk.next (reader.loadCached env) cache w' =
            (.ok (left.head?, walk), cache', w') := by
  obtain ⟨w', i, hwrite, hopen, hq', hbytes⟩ := write_open path bloomEnabled hq hfits
  refine ⟨w', readerOf env path i bloomEnabled records, hwrite, hopen, ?_⟩
  intro cache scans hlookups
  have hr := readable_readerOf path bloomEnabled hq' hbytes hfits hcompress
  obtain ⟨hs, hscans⟩ := hlookups.kept hr
    (fun start c => scan_eq path bloomEnabled hq' hbytes hfits hsorted start)
  refine ⟨?_, fun key seqBound => ?_, fun sc hsc => ?_⟩
  · obtain ⟨rs, cache', hrun, -, hfile⟩ := hs.iterAll hr
    have h := (hfile cache).symm.trans
      (iterAll_eq path bloomEnabled hq' hbytes hfits)
    rw [Except.ok.inj (Prod.ext_iff.mp h).1] at hrun
    exact ⟨cache', hrun⟩
  · obtain ⟨r, cache', hrun, -, hfile⟩ := hs.getAt hr key seqBound
    have h := (hfile cache).symm.trans
      (getAt_eq path bloomEnabled hq' hbytes hfits hsorted key seqBound)
    rw [Except.ok.inj (Prod.ext_iff.mp h).1] at hrun
    exact ⟨cache', hrun⟩
  · obtain ⟨left, hleft, heq⟩ := hscans sc hsc
    obtain ⟨walk, cache', hnext, -, -⟩ := TableScan.next_eq hr hs hleft
    refine ⟨left, ?_, walk, cache', hnext⟩
    rw [← heq]
    cases sc.start <;> rfl

/-- A table with two versions of a key, looked up between them. -/
theorem table_answers_like_list_between :
    ∃ w' reader, (SsTableWriter.write Stock.env ⟨"db", .sst 0⟩
        [Record.put [1] [2] 5, Record.tombstone [1] 3, Record.put [4] [5] 0] : M Unit Nat) ()
        (World.start Volume.empty) = (.ok 3, (), w') ∧
      (SsTableReader.openTable ⟨"db", .sst 0⟩ true : M Unit SsTableReader) () w' =
        (.ok reader, (), w') ∧
      ∃ cache, reader.getAtBy Stock.env (reader.loadCached Stock.env) [1] 4 BlockCache.new w' =
        (.ok (some (Record.tombstone [1] 3)), cache, w') := by
  obtain ⟨w', reader, hwrite, hopen, hall⟩ := table_answers_like_list Stock.env ⟨"db", .sst 0⟩
    [Record.put [1] [2] 5, Record.tombstone [1] 3, Record.put [4] [5] 0] (by decide +kernel)
    (by unfold SortedRun; decide) Stock.store_ne_nil (World.quiet_start Volume.empty) true
  exact ⟨w', reader, hwrite, hopen, (hall BlockCache.new [] .opened).2.1 [1] 4⟩

end Written

end LsmKv
