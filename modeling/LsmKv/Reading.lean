import LsmKv.Db
import LsmKv.ScanMerge
import LsmKv.SsTableRead
import Mathlib.Data.List.TakeWhile

/-!
# What a handle reads

A handle serves the records of its MemTables and of the tables it has open
(`Serves`).  Its lookup searches the sources from newest to oldest and its scan
merges them; if the sources hold a map, in the sense of the versioned reads,
both answer from that map.

**Results.**
* `getAt_serves`: the lookup is the first answer of the sources.
* `getAt_holds`, `scanAt_holds`: over sources that hold a map, lookup and scan
  return what the map has.
-/

namespace LsmKv

open Foundation Versioning

/-- The entries of a map with `start ≤ key < stop`. -/
def entriesWithin (m : SortedMap Bytes Bytes) (start stop : Option Bytes) :
    List (Bytes × Bytes) :=
  m.entries.filter (fun e =>
    (match start with
      | some k => decide (k ≤ e.1)
      | none => true) &&
    (match stop with
      | some e' => decide (e.1 < e')
      | none => true))

/-- The tables of a handle are open on files that hold `tables`. -/
def TablesOpen (env : Env) (dir : String) (bloomEnabled : Bool) (v : Volume Path)
    (sstables : List SsTable) (tables : List (Nat × List Record)) : Prop :=
  List.Forall₂ (fun (t : SsTable) (h : Nat × List Record) => ∃ i,
    t = ⟨h.1, readerOf env (sstPath dir h.1) i bloomEnabled h.2⟩ ∧
      v.Bound (sstPath dir h.1) i (tableBytes env h.2) (tableBytes env h.2).length)
    sstables tables

/-- The readers of a handle are open on files that hold `tables`, whatever names
those files have by now. -/
def TablesRead (env : Env) (dir : String) (bloomEnabled : Bool) (v : Volume Path)
    (sstables : List SsTable) (tables : List (Nat × List Record)) : Prop :=
  List.Forall₂ (fun (t : SsTable) (h : Nat × List Record) => ∃ i,
    t = ⟨h.1, readerOf env (sstPath dir h.1) i bloomEnabled h.2⟩ ∧ v.Still i ∧
      v.inodes i = ⟨tableBytes env h.2, (tableBytes env h.2).length⟩)
    sstables tables

/-- Tables that can be read back. -/
structure TablesFit (env : Env) (tables : List (Nat × List Record)) : Prop where
  fits : ∀ t ∈ tables, TableFits env t.2
  sorted : ∀ t ∈ tables, SortedRun t.2

/-- The records a handle has in memory and in its tables, newest source first. -/
def DbInner.sources (db : DbInner) (tables : List (Nat × List Record)) : List (List Record) :=
  db.active.iter :: ((db.frozen.map MemTable.iter).toList ++ (tables.map Prod.snd).reverse)

/-- A handle that serves `tables` and its MemTables. -/
structure Serves (env : Env) (v : Volume Path) (db : DbInner)
    (tables : List (Nat × List Record)) : Prop where
  healthy : db.failed = none
  opened : TablesRead env db.dir db.opts.bloomEnabled v db.sstables tables
  fit : TablesFit env tables
  active : SeqsFit db.active.iter
  frozen : ∀ f, db.frozen = some f → SeqsFit f.iter

section Serves

variable {env : Env} {w : World} {db : DbInner} {tables : List (Nat × List Record)}
variable {key : Bytes} {seqBound : Nat}

theorem TablesFit.tail {t : Nat × List Record} (h : TablesFit env (t :: tables)) :
    TablesFit env tables :=
  ⟨fun x hx => h.fits x (List.mem_cons_of_mem _ hx),
    fun x hx => h.sorted x (List.mem_cons_of_mem _ hx)⟩

/-- A file a table is open on by its name has no name that is written through. -/
theorem TablesOpen.read {dir : String} {bloomEnabled : Bool} {v : Volume Path}
    {sstables : List SsTable} (h : TablesOpen env dir bloomEnabled v sstables tables)
    (hs : v.Sound) : TablesRead env dir bloomEnabled v sstables tables := by
  refine List.Forall₂.imp ?_ h
  rintro t h ⟨i, ht, hb⟩
  refine ⟨i, ht, ⟨hs.below hb.name, fun {r} hr => ?_⟩, hb.inode⟩
  rcases hs.apart hr hb.name with rfl | hmay
  · exact ⟨h.1, rfl⟩
  · exact hmay.1

/-- The walk over the tables is a search of their runs. -/
theorem searchTables_eq (db : DbInner) (key : Bytes) (seqBound : Nat) {dir : String}
    {bloomEnabled : Bool} {sstables : List SsTable} (hq : w.Quiet)
    (hopen : TablesRead env dir bloomEnabled w.vol sstables tables)
    (hfit : TablesFit env tables) :
    DbInner.searchTables env key seqBound sstables db w =
      (.ok (((tables.map Prod.snd).findSome? (fun l => lookupAt l key seqBound)).bind
        Record.value), db, w) := by
  induction hopen with
  | nil => rfl
  | @cons t h ts hs hth _ ih =>
      obtain ⟨i, rfl, _, hb⟩ := hth
      have hget := getAt_eq (s := db) (sstPath dir h.1) bloomEnabled hq
        (by rw [hb]) (hfit.fits h (by simp)) (hfit.sorted h (by simp)) key seqBound
      unfold DbInner.searchTables
      rw [M.bind_ok hget, List.map_cons, List.findSome?_cons]
      cases lookupAt h.2 key seqBound with
      | none => exact ih hfit.tail
      | some r => rfl

theorem health_ok (h : db.failed = none) : DbInner.health db w = (.ok (), db, w) := by
  unfold DbInner.health
  rw [M.bind_ok (M.self_apply _ _), h]
  rfl

theorem TablesFit.reverse (h : TablesFit env tables) : TablesFit env tables.reverse :=
  ⟨fun t ht => h.fits t (List.mem_reverse.mp ht), fun t ht => h.sorted t (List.mem_reverse.mp ht)⟩

/-- The lookup of a handle is the first answer of its sources. -/
theorem getAt_serves (hq : w.Quiet) (hs : Serves env w.vol db tables) :
    DbInner.getAt env key seqBound db w =
      (.ok (((db.sources tables).findSome? (fun l => lookupAt l key seqBound)).bind Record.value),
        db, w) := by
  have htables := searchTables_eq db key seqBound hq
    (List.rel_reverse hs.opened) hs.fit.reverse
  rw [List.map_reverse] at htables
  unfold DbInner.getAt DbInner.sources
  rw [M.bind_ok (health_ok hs.healthy), M.bind_ok (M.self_apply _ _),
    MemTable.getAt_eq hs.active, List.findSome?_cons]
  cases lookupAt db.active.iter key seqBound with
  | some r => rfl
  | none =>
      dsimp only
      cases hf : db.frozen with
      | none => exact htables
      | some f =>
          simp only [Option.bind_some, Option.map_some, Option.toList_some, List.singleton_append]
          rw [MemTable.getAt_eq (hs.frozen f hf), List.findSome?_cons]
          cases lookupAt f.iter key seqBound with
          | some r => rfl
          | none => exact htables

/-- Sources that hold the map `m` below the horizon `h`. -/
structure Holds (sources : List (List Record)) (h : Nat) (m : SortedMap Bytes Bytes) : Prop where
  onePerSeq : recordVersions.OnePerSeq (pool sources)
  reads : ∀ k, recordVersions.Reads (pool sources) k h (m.find? k)

theorem sorted_sources (hs : Serves env w.vol db tables) :
    ∀ l ∈ db.sources tables, SortedRun l := by
  intro l hl
  unfold DbInner.sources at hl
  rcases List.mem_cons.mp hl with rfl | hl
  · exact sortedRun_iter _
  rcases List.mem_append.mp hl with hl | hl
  · rw [Option.mem_toList, Option.map_eq_some_iff] at hl
    obtain ⟨f, _, rfl⟩ := hl
    exact sortedRun_iter f
  · obtain ⟨t, ht, rfl⟩ := List.mem_map.mp (List.mem_reverse.mp hl)
    exact hs.fit.sorted t ht

/-- Over layered sources that hold a map, a lookup returns what the map has. -/
theorem getAt_holds (hq : w.Quiet) (hs : Serves env w.vol db tables) {h : Nat}
    {m : SortedMap Bytes Bytes} (hm : Holds (db.sources tables) h m)
    (hlay : recordVersions.Layered key h (db.sources tables)) :
    DbInner.getAt env key h db w = (.ok (m.find? key), db, w) := by
  have hfind := reads_findSome (fun l => lookupAt l key h) hlay
    (fun l hl => finds_lookupAt (sorted_sources hs l hl))
  have hval : ((db.sources tables).findSome? fun l => lookupAt l key h).bind
      recordVersions.value = m.find? key := hfind.unique hm.onePerSeq (hm.reads key)
  rw [getAt_serves hq hs]
  exact congrArg (fun x => (Except.ok x, db, w)) hval

end Serves

section Scan

variable {env : Env} {w : World} {db : DbInner} {tables : List (Nat × List Record)}

/-- The runs a scan merges. -/
def DbInner.scanRuns (db : DbInner) (tables : List (Nat × List Record))
    (start stop : Option Bytes) : List (List Record) :=
  untilStop stop (fromStart start db.active.iter) ::
    ((db.frozen.map (fun f => untilStop stop (fromStart start f.iter))).toList ++
      tables.map (fun t => fromStart start t.2))

theorem collect_scan {dir : String} {bloomEnabled : Bool} {sstables : List SsTable}
    (hq : w.Quiet) (hopen : TablesRead env dir bloomEnabled w.vol sstables tables)
    (hfit : TablesFit env tables) (start : Option Bytes) :
    M.collect (fun t : SsTable => t.reader.scan env start) sstables db w =
      (.ok (tables.map (fun t => (fromStart start t.2).map .ok)), db, w) := by
  induction hopen with
  | nil => rfl
  | @cons t h ts hs hth _ ih =>
      obtain ⟨i, rfl, _, hb⟩ := hth
      have hscan := scan_eq (s := db) (sstPath dir h.1) bloomEnabled hq
        (by rw [hb]) (hfit.fits h (by simp)) (hfit.sorted h (by simp)) start
      rw [M.collect_cons, M.bind_ok hscan, M.bind_ok (ih hfit.tail)]
      rfl

/-- A scan merges the runs of its sources. -/
theorem scanAt_serves (hq : w.Quiet) (hs : Serves env w.vol db tables)
    (start stop : Option Bytes) (limit seqBound : Nat) (hlimit : limit ≠ 0) :
    DbInner.scanAt env start stop limit seqBound db w =
      (Merge.collect limit
        ((Merge.ofRuns (db.scanRuns tables start stop) seqBound stop none).remaining + 1)
        (Merge.ofRuns (db.scanRuns tables start stop) seqBound stop none), db, w) := by
  have hruns : (db.scanRuns tables start stop).map
      (fun l => l.map (Except.ok : Record → Except Error Record)) =
      (db.active.range start stop).map Except.ok ::
        db.frozen.toList.map (fun f => (f.range start stop).map Except.ok) ++
          tables.map (fun t => (fromStart start t.2).map Except.ok) := by
    unfold DbInner.scanRuns
    rw [MemTable.range_eq hs.active]
    cases hf : db.frozen with
    | none => simp
    | some f => simp [MemTable.range_eq (hs.frozen f hf)]
  have hnew := Merge.new_eq_over (db.scanRuns tables start stop) seqBound stop
  rw [hruns] at hnew
  unfold DbInner.scanAt
  rw [M.bind_ok (health_ok hs.healthy), if_neg hlimit, M.bind_ok (M.self_apply _ _)]
  dsimp only
  rewrite [M.bind_ok (collect_scan hq hs.opened hs.fit start), M.ofExcept_apply]
  cases hf : db.frozen with
  | none =>
      rw [hf] at hnew
      rewrite [← hnew]
      rfl
  | some f =>
      rw [hf] at hnew
      rewrite [← hnew]
      rfl

/-- A key at or behind the start of a range. -/
def From (start : Option Bytes) (k : Bytes) : Prop :=
  match start with
  | some s => s ≤ k
  | none => True

theorem mem_fromStart {start : Option Bytes} {l : List Record} {r : Record} :
    r ∈ fromStart start l ↔ r ∈ l ∧ From start r.key := by
  unfold fromStart From
  rw [List.mem_filter]
  cases start <;> simp

theorem mem_untilStop {stop : Option Bytes} {l : List Record} (hl : SortedRun l) {r : Record} :
    r ∈ untilStop stop l ↔ r ∈ l ∧ Before stop r.key := by
  unfold untilStop Before
  cases stop with
  | none =>
      have hall : l.takeWhile (fun _ => true) = l :=
        List.takeWhile_eq_self_iff.mpr (fun _ _ => rfl)
      rw [hall]
      simp
  | some e =>
      induction l with
      | nil => simp
      | cons a l ih =>
          have hcons := List.pairwise_cons.mp hl
          rw [List.takeWhile_cons]
          by_cases ha : a.key < e
          · simp only [ha, decide_true, if_true, List.mem_cons, ih hcons.2]
            constructor
            · rintro (rfl | h)
              · exact ⟨Or.inl rfl, ha⟩
              · exact ⟨Or.inr h.1, h.2⟩
            · rintro ⟨rfl | h, hlt⟩
              · exact Or.inl rfl
              · exact Or.inr ⟨h, hlt⟩
          · simp only [ha, decide_false, Bool.false_eq_true, if_false, List.not_mem_nil, false_iff]
            rintro ⟨hr, hlt⟩
            rcases List.mem_cons.mp hr with rfl | hr
            · exact ha hlt
            · exact ha (lt_of_le_of_lt (key_le_of_version_le (hcons.1 r hr)) hlt)

/-- What the runs of a scan hold: the part of the sources from `start` on, and
all of it up to `stop`. -/
theorem mem_pool_scanRuns {start stop : Option Bytes} {r : Record} :
    (r ∈ pool (db.scanRuns tables start stop) →
      r ∈ pool (db.sources tables) ∧ From start r.key) ∧
    (r ∈ pool (db.sources tables) → From start r.key → Before stop r.key →
      r ∈ pool (db.scanRuns tables start stop)) := by
  have hmem : ∀ m : MemTable, r ∈ untilStop stop (fromStart start m.iter) ↔
      (r ∈ m.iter ∧ From start r.key) ∧ Before stop r.key := by
    intro m
    have hsorted : SortedRun (fromStart start m.iter) :=
      (sortedRun_iter m).sublist List.filter_sublist
    rw [mem_untilStop hsorted, mem_fromStart]
  constructor
  · rintro ⟨l, hl, hr⟩
    unfold DbInner.scanRuns at hl
    rcases List.mem_cons.mp hl with rfl | hl
    · have h := ((hmem _).mp hr).1
      exact ⟨⟨_, List.mem_cons_self, h.1⟩, h.2⟩
    rcases List.mem_append.mp hl with hl | hl
    · rw [Option.mem_toList, Option.map_eq_some_iff] at hl
      obtain ⟨f, hf, rfl⟩ := hl
      have h := ((hmem _).mp hr).1
      exact ⟨⟨f.iter, by simp [DbInner.sources, hf], h.1⟩, h.2⟩
    · obtain ⟨t, ht, rfl⟩ := List.mem_map.mp hl
      have h := mem_fromStart.mp hr
      refine ⟨⟨t.2, ?_, h.1⟩, h.2⟩
      simp only [DbInner.sources, List.mem_cons, List.mem_append, List.mem_reverse, List.mem_map]
      exact Or.inr (Or.inr ⟨t, ht, rfl⟩)
  · rintro ⟨l, hl, hr⟩ hfrom hbefore
    unfold DbInner.sources at hl
    rcases List.mem_cons.mp hl with rfl | hl
    · exact ⟨_, List.mem_cons_self, (hmem _).mpr ⟨⟨hr, hfrom⟩, hbefore⟩⟩
    rcases List.mem_append.mp hl with hl | hl
    · rw [Option.mem_toList, Option.map_eq_some_iff] at hl
      obtain ⟨f, hf, rfl⟩ := hl
      exact ⟨_, by simp [DbInner.scanRuns, hf], (hmem f).mpr ⟨⟨hr, hfrom⟩, hbefore⟩⟩
    · obtain ⟨t, ht, rfl⟩ := List.mem_map.mp (List.mem_reverse.mp hl)
      refine ⟨fromStart start t.2, ?_, mem_fromStart.mpr ⟨hr, hfrom⟩⟩
      simp only [DbInner.scanRuns, List.mem_cons, List.mem_append, List.mem_map]
      exact Or.inr (Or.inr ⟨t, ht, rfl⟩)

theorem sorted_scanRuns (hs : Serves env w.vol db tables) (start stop : Option Bytes) :
    ∀ l ∈ db.scanRuns tables start stop, SortedRun l := by
  have hmem : ∀ m : MemTable, SortedRun (untilStop stop (fromStart start m.iter)) := fun m =>
    (sortedRun_iter m).sublist ((List.takeWhile_sublist _).trans List.filter_sublist)
  intro l hl
  unfold DbInner.scanRuns at hl
  rcases List.mem_cons.mp hl with rfl | hl
  · exact hmem _
  rcases List.mem_append.mp hl with hl | hl
  · rw [Option.mem_toList, Option.map_eq_some_iff] at hl
    obtain ⟨f, _, rfl⟩ := hl
    exact hmem f
  · obtain ⟨t, ht, rfl⟩ := List.mem_map.mp hl
    exact (hs.fit.sorted t ht).sublist List.filter_sublist

theorem mem_entriesWithin {m : SortedMap Bytes Bytes} {start stop : Option Bytes} {k v : Bytes} :
    (k, v) ∈ entriesWithin m start stop ↔
      m.find? k = some v ∧ From start k ∧ Before stop k := by
  unfold entriesWithin From Before
  rw [List.mem_filter, m.find?_eq_some_iff]
  cases start <;> cases stop <;> simp

/-- Over sources that hold a map, a scan returns its entries in the range. -/
theorem scanAt_holds (hq : w.Quiet) (hs : Serves env w.vol db tables) {h : Nat}
    {m : SortedMap Bytes Bytes} (hm : Holds (db.sources tables) h m)
    (start stop : Option Bytes) (limit : Nat) :
    DbInner.scanAt env start stop limit h db w =
      (.ok ((entriesWithin m start stop).take limit), db, w) := by
  by_cases hlimit : limit = 0
  · subst hlimit
    unfold DbInner.scanAt
    rw [M.bind_ok (health_ok hs.healthy), if_pos rfl, List.take_zero]
    rfl
  have hone : recordVersions.OnePerSeq (pool (db.scanRuns tables start stop)) :=
    hm.onePerSeq.mono fun r hr => (mem_pool_scanRuns.1 hr).1
  obtain ⟨all, ⟨hinc, hall⟩, hrun⟩ := Merge.collect_over h stop
    ((Merge.ofRuns (db.scanRuns tables start stop) h stop none).remaining + 1)
    (db.scanRuns tables start stop) none ⟨sorted_scanRuns hs start stop, hone, by simp⟩
    (by rw [Merge.remaining_over]; omega)
  -- for a key of the range the runs show what the sources show
  have hvis : ∀ k, From start k → Before stop k → ∀ r,
      recordVersions.Visible (pool (db.scanRuns tables start stop)) k h r ↔
        recordVersions.Visible (pool (db.sources tables)) k h r := by
    intro k hfrom hbefore r
    constructor
    · exact fun hr => ⟨(mem_pool_scanRuns.1 hr.1).1, hr.2⟩
    · rintro ⟨hr, rfl, hq⟩
      exact ⟨mem_pool_scanRuns.2 hr hfrom hbefore, rfl, hq⟩
  have heq : all = entriesWithin m start stop := by
    refine SortedMap.keysIncrease_ext hinc (m.increasing.filter _) ?_
    rintro ⟨k, v⟩
    rw [hall, mem_entriesWithin]
    constructor
    · rintro ⟨hreads, hbefore, _⟩
      rcases id hreads with ⟨r, hr, _⟩ | ⟨_, hv⟩
      · have hfrom : From start k := by
          have := (mem_pool_scanRuns.1 hr.1.1).2
          rwa [show r.key = k from hr.1.2.1] at this
        refine ⟨?_, hfrom, hbefore⟩
        exact (hm.reads k).unique hm.onePerSeq (Reads.congr (hvis k hfrom hbefore) hreads)
      · cases hv
    · rintro ⟨hfind, hfrom, hbefore⟩
      refine ⟨?_, hbefore, by simp⟩
      rw [← hfind]
      exact (hm.reads k).congr fun r => (hvis k hfrom hbefore r).symm
  rw [scanAt_serves hq hs start stop limit h hlimit, hrun limit, heq]

end Scan

end LsmKv
