import Mathlib.Data.List.Find
import LsmKv.LogFiles
import LsmKv.MigrateCrash
import LsmKv.Sequential

/-!
# Writing to a migrated directory

A directory without a manifest is opened with the tables it holds, and with a sequence
counter that starts behind the log alone.  Lookups take the newest source that has the key;
walks and merges take the highest sequence number.  The two agree when the sequence numbers
of the old records do: a newer source has the higher number, and all of them are below the
counter.

**Results.**
* `OldDirectory.carries`: what the migrating open returns stands for the map of the newest
  sources, if the sequence numbers are in order.
* `migrated_reads`: in every run from such an open, lookups and walks return the last value
  written, and the value of the newest source where none was.
-/

namespace LsmKv

open Foundation Volume Versioning

/-- A closed directory of the older layout: one version of each key in a table, and a log of
one of the formats, whole or not there. -/
structure OldDirectory (env : Env) (dir : String) (v : Volume Path)
    (tables : List (Nat × List Record)) (kind : Kind) (batches : List (List Record)) : Prop where
  phase2 : Phase2 env dir v tables batches.flatten
  single : ∀ t ∈ tables, t.2.Pairwise (fun a b => a.key ≠ b.key)
  ids : ∀ t ∈ tables, t.1 + 1 < 2 ^ 64
  wal : walOpened (walBytes v dir) = logBytes env kind batches
  told : classify (logBytes env kind batches) walMagic walVersion "the write-ahead log" = .ok kind

/-- The records of the log as a MemTable, and the counter behind them. -/
def replayed (log : List Record) : MemTable × Nat := replayInto log (MemTable.new 0) 0

/-- The sources of a migrated directory, newest first. -/
def oldSources (tables : List (Nat × List Record)) (log : List Record) : List (List Record) :=
  (replayed log).1.iter :: (tables.map Prod.snd).reverse

/-- The sequence numbers of the old records agree with the age of their sources, and the
counter is above them. -/
structure SeqsInOrder (tables : List (Nat × List Record)) (log : List Record) : Prop where
  across : (oldSources tables log).Pairwise (fun newer older =>
    ∀ a ∈ newer, ∀ b ∈ older, a.key = b.key → b.seq < a.seq)
  below : ∀ s ∈ oldSources tables log, ∀ r ∈ s, r.seq < (replayed log).2

/-- Runs of a migrated directory, one call after another, and the map a caller would keep. -/
inductive Migrated (env : Env) (dir : String) :
    DbInner → World → SortedMap Bytes Bytes → Prop
  | opened {opts : Options} {v : Volume Path} {tables : List (Nat × List Record)} {kind : Kind}
      {batches : List (List Record)} {db : DbInner} {w : World} {now : SortedMap Bytes Bytes}
      (old : OldDirectory env dir v tables kind batches)
      (ordered : SeqsInOrder tables batches.flatten)
      (newest : ∀ key, now.find? key = newestHolding (oldSources tables batches.flatten) key)
      (run : (assemble env dir opts : M Unit DbInner) () (World.start v) = (.ok db, (), w)) :
      Migrated env dir db w now
  | put {db db' : DbInner} {w w' : World} {now : SortedMap Bytes Bytes} (key value : Bytes)
      (earlier : Migrated env dir db w now) (room : db.nextSeq + 1 ≤ u64Max)
      (run : DbInner.write env key (some value) db w = (.ok (), db', w')) :
      Migrated env dir db' w' (now.insert key value)
  | delete {db db' : DbInner} {w w' : World} {now : SortedMap Bytes Bytes} (key : Bytes)
      (earlier : Migrated env dir db w now) (room : db.nextSeq + 1 ≤ u64Max)
      (run : DbInner.write env key none db w = (.ok (), db', w')) :
      Migrated env dir db' w' (now.erase key)
  | writeBatch {db db' : DbInner} {w w' : World} {now : SortedMap Bytes Bytes}
      (batch : WriteBatch) (earlier : Migrated env dir db w now)
      (room : db.nextSeq + batch.length ≤ u64Max)
      (run : DbInner.writeBatch env batch db w = (.ok (), db', w')) :
      Migrated env dir db' w' (applyBatch now batch)
  | refused {db db' : DbInner} {w w' : World} {now : SortedMap Bytes Bytes} {e : Error}
      (batch : WriteBatch) (earlier : Migrated env dir db w now)
      (room : db.nextSeq + batch.length ≤ u64Max)
      (run : DbInner.writeBatch env batch db w = (.error e, db', w')) :
      Migrated env dir db' w' now
  | flush {db db' : DbInner} {w w' : World} {now : SortedMap Bytes Bytes} (fuel : Nat)
      (earlier : Migrated env dir db w now) (fits : FlushAllFits env fuel db w)
      (run : DbInner.flush env fuel db w = (.ok true, db', w')) : Migrated env dir db' w' now
  | flushOnly {db db' : DbInner} {w w' : World} {now : SortedMap Bytes Bytes}
      (earlier : Migrated env dir db w now) (fits : FlushFits env db)
      (run : DbInner.flushInner env db w = (.ok (), db', w')) : Migrated env dir db' w' now
  | compact {db db' : DbInner} {w w' : World} {now : SortedMap Bytes Bytes} {worked : Bool}
      (earlier : Migrated env dir db w now) (fits : CompactionFits env db w)
      (run : DbInner.compactStep env db w = (.ok worked, db', w')) : Migrated env dir db' w' now
  | maintain {db db' : DbInner} {w w' : World} {now : SortedMap Bytes Bytes} {worked : Bool}
      (earlier : Migrated env dir db w now) (fits : MaintainFits env db w)
      (run : DbInner.maintain env db w = (.ok worked, db', w')) : Migrated env dir db' w' now

section NewestMap

theorem find?_foldr_applyOp (s : List Record) (now : SortedMap Bytes Bytes) (key : Bytes) :
    (s.foldr (fun r m => applyOp m (r.key, r.value)) now).find? key =
      match s.find? (fun r => decide (r.key = key)) with
      | some r => r.value
      | none => now.find? key := by
  induction s with
  | nil => rfl
  | cons r s ih =>
      rw [List.foldr_cons, find?_applyOp, List.find?_cons, ih]
      by_cases hkey : r.key = key <;> simp [hkey]

/-- There is a map of what the newest sources hold. -/
theorem exists_newestMap (sources : List (List Record)) :
    ∃ now : SortedMap Bytes Bytes, ∀ key, now.find? key = newestHolding sources key := by
  induction sources with
  | nil => exact ⟨SortedMap.empty, fun key => rfl⟩
  | cons s rest ih =>
      obtain ⟨now, hnow⟩ := ih
      refine ⟨s.foldr (fun r m => applyOp m (r.key, r.value)) now, fun key => ?_⟩
      rw [find?_foldr_applyOp, newestHolding, List.findSome?_cons, hnow]
      cases s.find? (fun r => decide (r.key = key)) <;> rfl

end NewestMap

section Opened

variable {env : Env} {dir : String} {v : Volume Path} {tables : List (Nat × List Record)}
variable {kind : Kind} {batches : List (List Record)} {now : SortedMap Bytes Bytes}

theorem onePerSeq_iter (m : MemTable) : recordVersions.OnePerSeq (ofList m.iter) := by
  intro a ha b hb hk hq
  have hfind : ∀ r ∈ m.iter, m.map.find? r.version = some r := fun r hr =>
    (SortedMap.find?_eq_some_iff _).mpr (MemTable.mem_iter_iff.mp hr)
  have hversion : a.version = b.version := versionKey_inj.mpr ⟨hk, hq⟩
  have hsame := (hfind a ha).symm.trans (hversion ▸ hfind b hb)
  exact Option.some.inj hsame

theorem onePerSeq_of_single {l : List Record} (h : l.Pairwise (fun a b => a.key ≠ b.key)) :
    recordVersions.OnePerSeq (ofList l) := by
  intro a ha b hb hk _
  by_contra hne
  have : Std.Symm (fun a b : Record => a.key ≠ b.key) := ⟨fun _ _ h => h.symm⟩
  exact h.forall ha hb hne hk

/-- The sources of an old directory, if their sequence numbers are in order. -/
theorem OldDirectory.stacked (h : OldDirectory env dir v tables kind batches)
    (ho : SeqsInOrder tables batches.flatten) :
    recordVersions.Stacked (oldSources tables batches.flatten) := by
  refine ⟨fun s hs => ?_, ho.across⟩
  rcases List.mem_cons.mp hs with rfl | hs
  · exact onePerSeq_iter _
  · obtain ⟨t, ht, rfl⟩ := List.mem_map.mp (List.mem_reverse.mp hs)
    exact onePerSeq_of_single (h.single t ht)

theorem OldDirectory.sorted (h : OldDirectory env dir v tables kind batches) :
    ∀ s ∈ oldSources tables batches.flatten, SortedRun s := by
  intro s hs
  rcases List.mem_cons.mp hs with rfl | hs
  · exact sortedRun_iter _
  · obtain ⟨t, ht, rfl⟩ := List.mem_map.mp (List.mem_reverse.mp hs)
    exact h.phase2.fit.sorted t ht

/-- The newest source that holds a key has its newest version. -/
theorem OldDirectory.serving (h : OldDirectory env dir v tables kind batches)
    (ho : SeqsInOrder tables batches.flatten)
    (hnow : ∀ key, now.find? key = newestHolding (oldSources tables batches.flatten) key) :
    Serving (oldSources tables batches.flatten) (replayed batches.flatten).2 now [] := by
  have hst := h.stacked ho
  refine ⟨hst, ?_, fun k bound hbound => ?_, by simp⟩
  · rintro r ⟨s, hs, hr⟩
    exact ho.below s hs r hr
  · rw [hnow]
    exact reads_newestHolding k hst h.sorted fun s hs r hr =>
      lt_of_lt_of_le (ho.below s hs r hr) hbound

/-- The first free id of a migration is behind every table. -/
theorem OldDirectory.lt_idBehind (h : OldDirectory env dir v tables kind batches) :
    ∀ t ∈ tables, t.1 < idBehind (tables.map Prod.fst) := by
  intro t ht
  have hmem : t.1 ∈ tables.map Prod.fst := List.mem_map_of_mem ht
  have hne := List.ne_nil_of_mem hmem
  obtain ⟨last, hin, hlast⟩ := List.mem_map.mp (List.getLast_mem hne)
  have hle : t.1 ≤ last.1 := hlast ▸ (h.phase2.ids.imp le_of_lt).rel_getLast hmem
  rw [idBehind, List.getLast?_eq_some_getLast hne, ← hlast]
  show t.1 < (last.1 + 1) % 2 ^ 64
  rw [Nat.mod_eq_of_lt (h.ids last hin)]
  omega

/-- What the migrating open returns stands for the map of the newest sources. -/
theorem OldDirectory.carries (h : OldDirectory env dir v tables kind batches) (opts : Options)
    {db : DbInner} {w : World}
    (hrun : (assemble env dir opts : M Unit DbInner) () (World.start v) = (.ok db, (), w))
    (ho : SeqsInOrder tables batches.flatten)
    (hnow : ∀ key, now.find? key = newestHolding (oldSources tables batches.flatten) key) :
    ∃ held, Standing env w db held ∧ Carries db held now [] := by
  obtain ⟨w', db', i, hrun', hopen, hman, hs, hgrew⟩ := assemble_migrating (s := ()) opts
    (World.quiet_start v) (by simp [World.start]) h.phase2
  cases hrun.symm.trans hrun'
  have hlog : ∃ i n, LogOpen env dir opts.syncWal w.vol db.wal kind batches i n := by
    obtain ⟨i, n, kind', hwal, hb, hkind, -⟩ := hopen.wal
    have hbytes : walOpened (walBytes (World.start v).vol dir) = logBytes env kind batches :=
      h.wal
    rw [hbytes] at hb hkind
    cases hkind.symm.trans h.told
    exact ⟨i, n, hwal, hb⟩
  have hmem := hopen.memory
  rw [applyAll_migrationEdits] at hmem
  obtain ⟨hmap, hseq⟩ := replayInto_threshold batches.flatten
    (MemTable.new opts.memtableThreshold) (MemTable.new 0) 0 rfl
  rw [← hmem] at hmap hseq
  have hactive : db.active.iter = (replayed batches.flatten).1.iter :=
    congrArg SortedMap.values hmap
  have hnext : db.nextSeq = (replayed batches.flatten).2 := hseq
  refine ⟨_, standing_opened hgrew.quiet hs hopen hlog ⟨0, i, hman⟩ rfl
    (keys_migrationEdits h.phase2.ids) h.phase2.ids h.phase2.fit ?_ ?_ ?_⟩
  · rw [applyAll_migrationEdits]
    exact h.lt_idBehind
  · rw [hnext]
    exact replayInto_snd_le _ _ (by simp [u64Max])
  · rw [hactive, hnext]
    exact h.serving ho hnow

end Opened

/-- The handle is in good standing and stands for `now`. -/
def Serviceable (env : Env) (db : DbInner) (w : World) (now : SortedMap Bytes Bytes) : Prop :=
  ∃ held, Standing env w db held ∧ Carries db held now []

namespace Serviceable

variable {env : Env} {db db' : DbInner} {w w' : World} {now : SortedMap Bytes Bytes}

theorem written (h : Serviceable env db w now) (batch : WriteBatch)
    (hroom : db.nextSeq + batch.length ≤ u64Max)
    (hrun : DbInner.writeBatch env batch db w = (.ok (), db', w')) :
    Serviceable env db' w' (applyBatch now batch) := by
  obtain ⟨held, hst, hc⟩ := h
  by_cases hne : batch = []
  · subst hne
    cases hrun.symm.trans (writeBatch_nil hst.healthy)
    exact ⟨held, hst, hc⟩
  · obtain ⟨w₁, hrun₁, hst₁, -⟩ :=
      hst.writeBatch hne (hst.takes_of_writeBatch_ok hne hrun) hroom
    cases hrun.symm.trans hrun₁
    exact ⟨_, hst₁, hc.written hroom _⟩

/-- A refused batch uses its numbers up and changes nothing else. -/
theorem refused (h : Serviceable env db w now) {batch : WriteBatch} {e : Error}
    (hroom : db.nextSeq + batch.length ≤ u64Max)
    (hrun : DbInner.writeBatch env batch db w = (.error e, db', w')) :
    Serviceable env db' w' now := by
  obtain ⟨held, hst, hc⟩ := h
  have hne : batch ≠ [] := by
    rintro rfl
    cases hrun.symm.trans (writeBatch_nil hst.healthy)
  have hno : ¬ held.kind.Takes (DbInner.numberRecords db.nextSeq batch) := by
    intro htake
    obtain ⟨w₁, hrun₁, -⟩ := hst.writeBatch hne htake hroom
    cases hrun.symm.trans hrun₁
  obtain ⟨e', hrefused⟩ := hst.writeBatch_refused hne hno
  cases hrun.symm.trans hrefused
  have hmod : (db.nextSeq + batch.length) % 2 ^ 64 = db.nextSeq + batch.length :=
    Nat.mod_eq_of_lt (by
      unfold u64Max at hroom
      omega)
  refine ⟨held, ⟨hst.quiet, ?_, hst.healthy, hst.frozen, le_trans (Nat.mod_le _ _) hroom,
    hst.nextId, hst.above⟩, hc.frozen, hc.sorted, ?_, hc.snapshots⟩
  · obtain ⟨hs, ho, hf, hi, hm, hl, hlog⟩ := hst.layout
    exact ⟨hs, ho, hf, hi, hm, hl, hlog⟩
  · show Serving _ ((db.nextSeq + batch.length) % 2 ^ 64) now []
    rw [hmod]
    exact hc.serving.skip (Nat.le_add_right _ _)

theorem moved {held held' : Held} (hc : Carries db held now [])
    (hmoves : ManyMoves (db, held) (db', held')) (hst : Standing env w' db' held') :
    Serviceable env db' w' now :=
  ⟨held', hst, hc.manyMoves hmoves⟩

end Serviceable

section Runs

variable {env : Env} {dir : String} {db : DbInner} {w : World} {now : SortedMap Bytes Bytes}

/-- Every state of a run is serviceable. -/
theorem serviceable_of_migrated (h : Migrated env dir db w now) : Serviceable env db w now := by
  induction h with
  | opened old ordered newest run => exact old.carries _ run ordered newest
  | put key value _ room run ih => exact ih.written [(key, some value)] room run
  | delete key _ room run ih => exact ih.written [(key, none)] room run
  | writeBatch batch _ room run ih => exact ih.written batch room run
  | refused batch _ room run ih => exact ih.refused room run
  | flush fuel _ fits run ih =>
      obtain ⟨held, hst, hc⟩ := ih
      obtain ⟨r, db₁, held₁, w₁, hrun₁, hmoves, hst₁, -⟩ := hst.flush fits.1 fits.2
      cases run.symm.trans hrun₁
      exact .moved hc hmoves hst₁
  | flushOnly _ fits run ih =>
      obtain ⟨held, hst, hc⟩ := ih
      obtain ⟨db₁, held₁, w₁, hrun₁, hmoves, hst₁, -⟩ := hst.flushInner fits
      cases run.symm.trans hrun₁
      exact .moved hc hmoves hst₁
  | compact _ fits run ih =>
      obtain ⟨held, hst, hc⟩ := ih
      obtain ⟨r, db₁, held₁, w₁, hrun₁, hmoves, hst₁, -⟩ := hst.compactStep fits
      cases run.symm.trans hrun₁
      exact .moved hc hmoves hst₁
  | maintain _ fits run ih =>
      obtain ⟨held, hst, hc⟩ := ih
      obtain ⟨r, db₁, held₁, w₁, hrun₁, hmoves, hst₁, -⟩ := hst.maintain fits.1 fits.2
      cases run.symm.trans hrun₁
      exact .moved hc hmoves hst₁

end Runs

/-- Every directory of the older layout is opened; and if the sequence numbers in it are in
order, then in every state of every run from there a lookup returns the last value written,
or that of the newest source if none was, and a walk reports the same for every key. -/
theorem migrated_reads (env : Env) (dir : String) :
    (∀ opts v tables kind batches, OldDirectory env dir v tables kind batches →
      ∃ db w now, (assemble env dir opts : M Unit DbInner) () (World.start v) = (.ok db, (), w) ∧
        ∀ key, SortedMap.find? now key =
          newestHolding (oldSources tables batches.flatten) key) ∧
    ∀ db w now, Migrated env dir db w now →
      (∀ key, DbInner.get env key db w = (.ok (now.find? key), db, w)) ∧
      ∀ start stop limit, DbInner.scan env start stop limit db w =
        (.ok ((entriesWithin now start stop).take limit), db, w) := by
  constructor
  · intro opts v tables kind batches old
    obtain ⟨w, db, -, hrun, -⟩ := assemble_migrating (s := ()) opts (World.quiet_start v)
      (by simp [World.start]) old.phase2
    obtain ⟨now, hnow⟩ := exists_newestMap (oldSources tables batches.flatten)
    exact ⟨db, w, now, hrun, hnow⟩
  · intro db w now h
    obtain ⟨held, hst, hc⟩ := serviceable_of_migrated h
    exact ⟨(hst.legible hc).get, (hst.legible hc).scan⟩

section Instance

/-- A table with the given records, and a log with one record of number one. -/
def oldVolume (table : List Record) : Volume Path :=
  ((((Volume.empty.create (sstPath "db" 0)).append 0 (tableBytes Stock.env table)).sync
    0).create (walPath "db")).append 1
      (logBytes Stock.env newestLog [[Record.put [3] [4] 1]]) |>.sync 1

theorem oldDirectory_oldVolume {table : List Record} (hfits : TableFits Stock.env table)
    (hsorted : SortedRun table) (hsingle : table.Pairwise (fun a b => a.key ≠ b.key)) :
    OldDirectory Stock.env "db" (oldVolume table) [(0, table)] newestLog
      [[Record.put [3] [4] 1]] where
  phase2 :=
    { sound := (((((sound_empty.create).append _).sync).create).append _).sync
      unnamed := rfl
      ids := by simp
      small := by simp
      fit := ⟨by simpa using hfits, by simpa using hsorted⟩
      files := by
        intro t ht
        rw [List.mem_singleton.mp ht]
        exact ⟨0, rfl, rfl⟩
      listed := by
        intro p i id hdir hl hid
        by_cases hwal : p = walPath "db"
        · subst hwal
          cases hid
        · by_cases hsst : p = sstPath "db" 0
          · subst hsst
            cases hid
            exact ⟨rfl, by simp⟩
          · have hnone : (oldVolume table).lookup p = none := by
              simp only [oldVolume, lookup_sync, lookup_append, lookup_create, if_neg hwal,
                if_neg hsst]
              rfl
            cases hl.symm.trans hnone
      log := by
        show replayBytes Stock.env (logBytes Stock.env newestLog [[Record.put [3] [4] 1]]) = _
        decide +kernel
      rest := by
        rintro x ⟨⟩
        rfl }
  single := by simpa using hsingle
  ids := by simp
  wal := walOpened_logBytes Stock.env _
  told := by decide +kernel

/-- A table whose one record has number zero, opened, and its key written again. -/
theorem migrated_reads_put :
    ∃ db w db' w', (assemble Stock.env "db" Options.default : M Unit DbInner) ()
        (World.start (oldVolume [Record.put [1] [2] 0])) = (.ok db, (), w) ∧
      DbInner.get Stock.env [1] db w = (.ok (some [2]), db, w) ∧
      DbInner.write Stock.env [1] (some [9]) db w = (.ok (), db', w') ∧
      DbInner.get Stock.env [1] db' w' = (.ok (some [9]), db', w') := by
  have hold := oldDirectory_oldVolume
    (show TableFits Stock.env [Record.put [1] [2] 0] by decide +kernel) (by simp [SortedRun])
    (by simp)
  obtain ⟨hopens, hruns⟩ := migrated_reads Stock.env "db"
  obtain ⟨db, w, now, hrun, hnow⟩ := hopens Options.default _ _ _ _ hold
  have hordered : SeqsInOrder [(0, [Record.put [1] [2] 0])] [Record.put [3] [4] 1] := by
    refine ⟨by decide +kernel, by decide +kernel⟩
  have h₀ : Migrated Stock.env "db" db w now := .opened hold hordered hnow hrun
  have hget := (hruns db w now h₀).1 [1]
  rw [hnow] at hget
  have hseq : db.nextSeq = 2 := by
    have := congrArg (fun r => r.1.toOption.map DbInner.nextSeq) hrun
    exact Option.some.inj (this.symm.trans (by decide +kernel))
  have hroom : db.nextSeq + 1 ≤ u64Max := by
    rw [hseq]
    decide
  obtain ⟨held, hst, -⟩ := serviceable_of_migrated h₀
  obtain ⟨w', hwrite, -⟩ := hst.writeBatch (List.cons_ne_nil ([1], some [9]) []) (Or.inr rfl) hroom
  have h₁ := Migrated.put [1] [9] h₀ hroom hwrite
  have hget' := (hruns _ _ _ h₁).1 [1]
  rw [SortedMap.find?_insert, if_pos rfl] at hget'
  exact ⟨db, w, _, w', hrun, hget, hwrite, hget'⟩

/-- The key of a table is written, read, walked over, and read again behind a flush. -/
def writeOver : M DbInner (Option Bytes × List (Bytes × Bytes) × Bool × Option Bytes) := do
  DbInner.write Stock.env [1] (some [9])
  let found ← DbInner.get Stock.env [1]
  let walked ← DbInner.scan Stock.env none none 2
  let merged ← DbInner.flush Stock.env 3
  let later ← DbInner.get Stock.env [1]
  return (found, walked, merged, later)

/-- A table whose one record has number five, behind a log that ends at number one: a write
to its key gets number two.  The lookup returns the new value and the walk the old one; once
the flush has merged the two tables the lookup returns the old one too. -/
theorem migrated_value_overtakes_write :
    OldDirectory Stock.env "db" (oldVolume [Record.put [1] [2] 5]) [(0, [Record.put [1] [2] 5])]
        newestLog [[Record.put [3] [4] 1]] ∧
      ∃ db w, (assemble Stock.env "db" { Options.default with compactionThreshold := 2 } :
          M Unit DbInner) () (World.start (oldVolume [Record.put [1] [2] 5])) = (.ok db, (), w) ∧
        writeOver.result db w = .ok (some [9], [([1], [2]), ([3], [4])], true, some [2]) := by
  have hold := oldDirectory_oldVolume
    (show TableFits Stock.env [Record.put [1] [2] 5] by decide +kernel) (by simp [SortedRun])
    (by simp)
  obtain ⟨w, db, -, hrun, -⟩ := assemble_migrating (s := ())
    { Options.default with compactionThreshold := 2 } (World.quiet_start _)
    (by simp [World.start]) hold.phase2
  refine ⟨hold, db, w, hrun, ?_⟩
  have hresult := congrArg (fun r => r.1.bind fun db => writeOver.result db r.2.2) hrun
  exact hresult.symm.trans (by decide +kernel)

end Instance

end LsmKv
