import LsmKv.Migrate
import LsmKv.Standing

/-!
# An engine and the maps it stands for

`Engine` joins the two sides: a handle in good standing, and the maps its records
stand for.  The log replays to the active MemTable, so that a reopened directory
stands for what the handle stood for.

**Results.**
* `Engine.write`, `Engine.moves`, `Engine.snapshot`, `Engine.dropSnapshot`: every
  call keeps the relation.
* `Engine.get`, `Engine.scan` and their snapshot forms: reads answer from the maps.
* `Engine.reopen`, `engine_fresh`: so does what an open returns.
-/

namespace LsmKv

open Foundation Volume Versioning

/-- How many live snapshots have the horizon `h`. -/
def liveAt (pinned : List (Nat × SortedMap Bytes Bytes)) (h : Nat) : Nat :=
  (pinned.map Prod.fst).count h

/-- The records of a handle and of its tables stand for the map `now`, and for those its
snapshots pin. -/
structure Carries (db : DbInner) (held : Held) (now : SortedMap Bytes Bytes)
    (pinned : List (Nat × SortedMap Bytes Bytes)) : Prop where
  frozen : db.frozen = none
  sorted : ∀ t ∈ held.tables, SortedRun t.2
  serving : Serving (db.sources held.tables) db.nextSeq now pinned
  snapshots : ∀ h, db.snapshots.find? h =
    if liveAt pinned h = 0 then none else some (liveAt pinned h)

/-- The records of a handle and of its files stand for the map `now`, and for
those its snapshots pin. -/
structure Stands (db : DbInner) (held : Held) (now : SortedMap Bytes Bytes)
    (pinned : List (Nat × SortedMap Bytes Bytes)) : Prop where
  frozen : db.frozen = none
  sorted : ∀ t ∈ held.tables, SortedRun t.2
  serving : Serving (db.sources held.tables) db.nextSeq now pinned
  memory : (db.active, db.nextSeq) = replayInto held.log.flatten
    (MemTable.new db.opts.memtableThreshold) (applyAll held.edits).nextSeq
  kind : held.kind = newestLog
  fits : ∀ b ∈ held.log, BatchFits b
  snapshots : ∀ h, db.snapshots.find? h =
    if liveAt pinned h = 0 then none else some (liveAt pinned h)

/-- A handle in good standing whose records stand for these maps. -/
structure Engine (env : Env) (w : World) (db : DbInner) (held : Held)
    (now : SortedMap Bytes Bytes) (pinned : List (Nat × SortedMap Bytes Bytes)) : Prop where
  standing : Standing env w db held
  stands : Stands db held now pinned

section Replay

theorem replayInto_append (a b : List Record) (m : MemTable) (n : Nat) :
    replayInto (a ++ b) m n = replayInto b (replayInto a m n).1 (replayInto a m n).2 := by
  unfold replayInto
  rw [List.foldl_append]

/-- Replaying a batch repeats its inserts and its count. -/
theorem replayInto_numberRecords (batch : WriteBatch) (m : MemTable) (n : Nat)
    (h : n + batch.length ≤ u64Max) :
    replayInto (DbInner.numberRecords n batch) m n =
      ((DbInner.numberRecords n batch).foldl MemTable.insert m, n + batch.length) := by
  induction batch generalizing m n with
  | nil => rfl
  | cons op ops ih =>
      rw [List.length_cons] at h
      have hmod : (n + 1) % 2 ^ 64 = n + 1 := Nat.mod_eq_of_lt (by
        unfold u64Max at h
        omega)
      have hmax : max n ((n + 1) % 2 ^ 64) = n + 1 := by
        rw [hmod]
        omega
      have := ih (m.insert (DbInner.recordOf op.1 op.2 n)) (n + 1) (by omega)
      unfold replayInto at this ⊢
      rw [DbInner.numberRecords, List.foldl_cons, List.foldl_cons, seq_recordOf, hmax, this,
        List.length_cons]
      congr 1
      omega

theorem replayInto_snd_le (records : List Record) (m : MemTable) {n : Nat} (h : n ≤ u64Max) :
    (replayInto records m n).2 ≤ u64Max := by
  induction records generalizing m n with
  | nil => exact h
  | cons a l ih =>
      refine ih (m.insert a) ?_
      have : (a.seq + 1) % 2 ^ 64 ≤ u64Max := by
        unfold u64Max
        omega
      exact max_le h this

/-- The threshold of the MemTable does not matter to a replay. -/
theorem replayInto_threshold (records : List Record) (m m' : MemTable) (n : Nat)
    (h : m.map = m'.map) :
    (replayInto records m n).1.map = (replayInto records m' n).1.map ∧
      (replayInto records m n).2 = (replayInto records m' n).2 := by
  induction records generalizing m m' n with
  | nil => exact ⟨h, rfl⟩
  | cons r rs ih =>
      exact ih (m.insert r) (m'.insert r) _ (by
        show m.map.insert r.version r = m'.map.insert r.version r
        rw [h])

theorem pool_reverse (sources : List (List Record)) : pool sources.reverse = pool sources := by
  ext r
  simp [pool]

end Replay

namespace Carries

variable {db db' : DbInner} {held held' : Held} {now : SortedMap Bytes Bytes}
variable {pinned : List (Nat × SortedMap Bytes Bytes)}

theorem sources_eq (h : Carries db held now pinned) :
    db.sources held.tables = db.active.iter :: (held.tables.map Prod.snd).reverse := by
  simp [DbInner.sources, h.frozen]

/-- A write applies its mutations to the current map. -/
theorem written (h : Carries db held now pinned) {batch : WriteBatch}
    (hseqs : db.nextSeq + batch.length ≤ u64Max) (records : List Record) :
    Carries (db.written batch) (held.written records) (applyBatch now batch) pinned := by
  have hmod : (db.nextSeq + batch.length) % 2 ^ 64 = db.nextSeq + batch.length :=
    Nat.mod_eq_of_lt (by
      unfold u64Max at hseqs
      omega)
  refine ⟨h.frozen, h.sorted, ?_, h.snapshots⟩
  have hs := h.serving
  rw [h.sources_eq] at hs
  have hsrc : (db.written batch).sources held.tables =
      ((DbInner.numberRecords db.nextSeq batch).foldl MemTable.insert db.active).iter ::
        (held.tables.map Prod.snd).reverse := by
    simp [DbInner.sources, DbInner.written, h.frozen]
  show Serving ((db.written batch).sources held.tables)
    ((db.nextSeq + batch.length) % 2 ^ 64) _ _
  rw [hsrc, hmod]
  exact hs.insertAll batch

/-- The lowest snapshot is at or below every live one. -/
theorem minSnapshotSeq_le (h : Carries db held now pinned)
    {p : Nat × SortedMap Bytes Bytes} (hp : p ∈ pinned) : db.minSnapshotSeq ≤ p.1 := by
  have hcount : liveAt pinned p.1 ≠ 0 := by
    have : 0 < liveAt pinned p.1 := List.count_pos_iff.mpr (List.mem_map.mpr ⟨p, hp, rfl⟩)
    omega
  have hfind := h.snapshots p.1
  rw [if_neg hcount, SortedMap.find?_eq_some_iff] at hfind
  unfold DbInner.minSnapshotSeq SortedMap.keys
  have hinc := db.snapshots.increasing
  cases hentries : db.snapshots.entries with
  | nil =>
      rw [hentries] at hfind
      cases hfind
  | cons e es =>
      rw [hentries] at hfind hinc
      rcases List.mem_cons.mp hfind with he | he
      · rw [← he]
        rfl
      · exact le_of_lt ((List.pairwise_cons.mp hinc).1 _ he)

section Moves

variable {front stale back : List (Nat × List Record)} {last : Nat × List Record}

theorem sorted_run (h : Carries db held now pinned) (run : RunAt held front stale last back) :
    ∀ l ∈ (stale ++ [last]).map Prod.snd, SortedRun l := by
  intro l hl
  obtain ⟨t, ht, rfl⟩ := List.mem_map.mp hl
  refine h.sorted t ?_
  rw [run.tables]
  exact List.mem_append_left _ (List.mem_append_right _ ht)

/-- The sources around a run of tables. -/
theorem sources_run (h : Carries db held now pinned) (run : RunAt held front stale last back) :
    db.sources held.tables = (db.active.iter :: (back.map Prod.snd).reverse) ++
      ((stale ++ [last]).map Prod.snd).reverse ++ (front.map Prod.snd).reverse := by
  rw [h.sources_eq, run.tables]
  simp

/-- The merge of a run stands for it in every read that is not below the lowest snapshot. -/
theorem condenses_run (h : Carries db held now pinned) (run : RunAt held front stale last back)
    {k : Bytes} {bound : Nat} (hbound : db.minSnapshotSeq ≤ bound ∨ db.nextSeq ≤ bound) :
    recordVersions.Condenses k bound (decide (front = []) = true)
      (pool ((stale ++ [last]).map Prod.snd).reverse) (ofList (db.mergeOut front stale last)) := by
  have hs := h.serving
  rw [h.sources_run run] at hs
  have hsub : pool ((stale ++ [last]).map Prod.snd) ⊆
      pool ((db.active.iter :: (back.map Prod.snd).reverse) ++
        ((stale ++ [last]).map Prod.snd).reverse ++ (front.map Prod.snd).reverse) := by
    rw [pool_append, pool_append, pool_reverse ((stale ++ [last]).map Prod.snd)]
    exact fun r hr => Or.inl (Or.inr hr)
  rw [pool_reverse]
  refine condenses_compactRecords _ (h.sorted_run run) (hs.stacked.onePerSeq.mono hsub) ?_
  exact hbound.imp_right fun hnext x hx => lt_of_lt_of_le (hs.below x (hsub hx)) hnext

/-- A merge of neighbouring tables changes no map. -/
theorem serving_compacted (h : Carries db held now pinned) (sstables : List SsTable)
    (run : RunAt held front stale last back) :
    Serving (DbInner.sources { db with sstables := sstables }
      (held.compacted front stale last back (db.mergeOut front stale last)).tables)
      db.nextSeq now pinned := by
  have hs := h.serving
  have hafter : DbInner.sources { db with sstables := sstables }
      (held.compacted front stale last back (db.mergeOut front stale last)).tables =
        (db.active.iter :: (back.map Prod.snd).reverse) ++ [db.mergeOut front stale last] ++
          (front.map Prod.snd).reverse := by
    simp [DbInner.sources, Held.compacted, h.frozen]
  rw [h.sources_run run] at hs
  rw [hafter]
  refine hs.condense (decide (front = []) = true) (fun k h' hh => h.condenses_run run (Or.inr hh))
    (fun p hp k => h.condenses_run run (Or.inl (h.minSnapshotSeq_le hp))) fun hd => ?_
  rw [of_decide_eq_true hd]
  rfl

theorem moves (h : Carries db held now pinned) (hmove : Moves db held db' held') :
    Carries db' held' now pinned := by
  cases hmove with
  | flushed table wal full =>
      refine ⟨rfl, ?_, ?_, h.snapshots⟩
      · intro t ht
        rcases List.mem_append.mp ht with ht | ht
        · exact h.sorted t ht
        · rw [List.mem_singleton.mp ht]
          exact sortedRun_iter _
      · have hs := h.serving
        rw [h.sources_eq] at hs
        have := hs.freeze db.opts.memtableThreshold
        simpa [DbInner.sources, DbInner.flushed, Held.flushed] using this
  | @compacted front stale back last sstables run =>
      refine ⟨h.frozen, ?_, h.serving_compacted sstables run, h.snapshots⟩
      intro t ht
      rcases List.mem_append.mp ht with ht | ht
      · rcases List.mem_append.mp ht with ht | ht
        · exact h.sorted t (by rw [run.tables]; simp [ht])
        · rw [List.mem_singleton.mp ht]
          exact sortedRun_compactRecords _ _ (h.sorted_run run)
      · exact h.sorted t (by rw [run.tables]; simp [ht])

theorem manyMoves (h : Carries db held now pinned) (hmoves : ManyMoves (db, held) (db', held')) :
    Carries db' held' now pinned := by
  have hall : ∀ b : DbInner × Held, ManyMoves (db, held) b → Carries b.1 b.2 now pinned := by
    intro b hb
    induction hb with
    | refl => exact h
    | tail _ hstep ih => exact ih.moves hstep
  exact hall (db', held') hmoves

end Moves

end Carries

namespace Stands

variable {db db' : DbInner} {held held' : Held} {now : SortedMap Bytes Bytes}
variable {pinned : List (Nat × SortedMap Bytes Bytes)}

theorem carries (h : Stands db held now pinned) : Carries db held now pinned :=
  ⟨h.frozen, h.sorted, h.serving, h.snapshots⟩

theorem sources_eq (h : Stands db held now pinned) :
    db.sources held.tables = db.active.iter :: (held.tables.map Prod.snd).reverse :=
  h.carries.sources_eq

/-- A write applies its mutations to the current map. -/
theorem written (h : Stands db held now pinned) {batch : WriteBatch}
    (hfits : WriteFits db batch) :
    Stands (db.written batch) (held.written (DbInner.numberRecords db.nextSeq batch))
      (applyBatch now batch) pinned := by
  have hseqs := hfits.seqs
  have hmod : (db.nextSeq + batch.length) % 2 ^ 64 = db.nextSeq + batch.length :=
    Nat.mod_eq_of_lt (by
      unfold u64Max at hseqs
      omega)
  obtain ⟨hfrozen, hsorted, hserving, hsnapshots⟩ :=
    h.carries.written hseqs (DbInner.numberRecords db.nextSeq batch)
  refine ⟨hfrozen, hsorted, hserving, ?_, h.kind, ?_, hsnapshots⟩
  · have hrep := replayInto_numberRecords batch db.active db.nextSeq hseqs
    show (_, (db.nextSeq + batch.length) % 2 ^ 64) =
      replayInto (held.log ++ [DbInner.numberRecords db.nextSeq batch]).flatten _ _
    rw [List.flatten_append, List.flatten_singleton, replayInto_append,
      show (db.written batch).opts = db.opts from rfl,
      show (held.written (DbInner.numberRecords db.nextSeq batch)).edits = held.edits from rfl,
      ← h.memory, hrep, hmod]
    rfl
  · intro b hb
    rcases List.mem_append.mp hb with hb | hb
    · exact h.fits b hb
    · rw [List.mem_singleton.mp hb]
      exact hfits.fits

theorem moves (h : Stands db held now pinned) (hmove : Moves db held db' held') :
    Stands db' held' now pinned := by
  obtain ⟨hfrozen, hsorted, hserving, hsnapshots⟩ := h.carries.moves hmove
  cases hmove with
  | flushed table wal full =>
      refine ⟨hfrozen, hsorted, hserving, ?_, rfl, by simp [Held.flushed], hsnapshots⟩
      show (MemTable.new _, db.nextSeq) = (MemTable.new _, (applyAll (held.edits ++ _)).nextSeq)
      rw [applyAll_append]
      rfl
  | @compacted front stale back last sstables run =>
      refine ⟨hfrozen, hsorted, hserving, ?_, h.kind, h.fits, hsnapshots⟩
      show _ = replayInto held.log.flatten _ (applyAll (held.edits ++ deleteEdits stale)).nextSeq
      rw [(Standing.applyAll_deleteEdits held.edits stale).2]
      exact h.memory

theorem manyMoves (h : Stands db held now pinned) (hmoves : ManyMoves (db, held) (db', held')) :
    Stands db' held' now pinned := by
  have hall : ∀ b : DbInner × Held, ManyMoves (db, held) b → Stands b.1 b.2 now pinned := by
    intro b hb
    induction hb with
    | refl => exact h
    | tail _ hstep ih => exact ih.moves hstep
  exact hall (db', held') hmoves

/-- A snapshot pins the current map. -/
theorem snapshot (h : Stands db held now pinned) :
    Stands
      { db with
        snapshots :=
          db.snapshots.insert db.nextSeq ((db.snapshots.find? db.nextSeq).getD 0 + 1) }
      held now ((db.nextSeq, now) :: pinned) := by
  refine ⟨h.frozen, h.sorted, h.serving.pin, h.memory, h.kind, h.fits, ?_⟩
  intro x
  have hx := h.snapshots db.nextSeq
  rw [SortedMap.find?_insert]
  unfold liveAt at hx ⊢
  rw [List.map_cons, List.count_cons]
  by_cases heq : x = db.nextSeq
  · subst heq
    rw [hx]
    by_cases h0 : (pinned.map Prod.fst).count db.nextSeq = 0
    · simp [h0]
    · simp [h0]
  · have hne : (db.nextSeq == x) = false := by simpa using Ne.symm heq
    have := h.snapshots x
    unfold liveAt at this
    simp only [if_neg heq, hne, Bool.false_eq_true, if_false, Nat.add_zero]
    exact this

/-- Dropping a snapshot unpins its map. -/
theorem dropSnapshot (h : Stands db held now pinned)
    {earlier later : List (Nat × SortedMap Bytes Bytes)} {p : Nat × SortedMap Bytes Bytes}
    (hp : pinned = earlier ++ p :: later) {w : World} :
    ∃ db', DbInner.dropSnapshot p.1 db w = (.ok (), db', w) ∧
      Stands db' held now (earlier ++ later) ∧
      (∃ snapshots, db' = { db with snapshots := snapshots }) := by
  have hcount : ∀ x, liveAt pinned x = liveAt (earlier ++ later) x + if p.1 = x then 1 else 0 := by
    intro x
    unfold liveAt
    rw [hp, List.map_append, List.map_append, List.count_append, List.count_append, List.map_cons,
      List.count_cons]
    simp only [beq_iff_eq]
    omega
  have hfind := h.snapshots p.1
  have hpos := hcount p.1
  rw [if_pos rfl] at hpos
  rw [if_neg (by omega)] at hfind
  have hserving : Serving (db.sources held.tables) db.nextSeq now (earlier ++ later) :=
    h.serving.unpin fun q hq => by
      rw [hp]
      rcases List.mem_append.mp hq with hq | hq
      · simp [hq]
      · simp [hq]
  have hother : ∀ x, x ≠ p.1 → db.snapshots.find? x =
      if liveAt (earlier ++ later) x = 0 then none else some (liveAt (earlier ++ later) x) := by
    intro x hx
    have := hcount x
    rw [if_neg (Ne.symm hx), Nat.add_zero] at this
    rw [← this]
    exact h.snapshots x
  unfold DbInner.dropSnapshot
  rw [M.update_apply, hfind]
  simp only
  split_ifs with hlast
  · refine ⟨_, rfl, ⟨h.frozen, h.sorted, hserving, h.memory, h.kind, h.fits, ?_⟩, _, rfl⟩
    intro x
    rw [SortedMap.find?_erase]
    split_ifs with hx h0 h0
    · rfl
    · rw [hx] at h0
      omega
    · rw [hother x hx, if_pos h0]
    · rw [hother x hx, if_neg h0]
  · refine ⟨_, rfl, ⟨h.frozen, h.sorted, hserving, h.memory, h.kind, h.fits, ?_⟩, _, rfl⟩
    intro x
    rw [SortedMap.find?_insert]
    split_ifs with hx h0 h0
    · rw [hx] at h0
      omega
    · rw [hx]
      congr 1
      omega
    · rw [hother x hx, if_pos h0]
    · rw [hother x hx, if_neg h0]

end Stands

/-- A handle that can be read, whatever its log is like. -/
structure Legible (env : Env) (w : World) (db : DbInner) (held : Held)
    (now : SortedMap Bytes Bytes) (pinned : List (Nat × SortedMap Bytes Bytes)) : Prop where
  quiet : w.Quiet
  sound : w.vol.Sound
  log : w.vol.lookup (walPath db.dir) = some db.wal.file.file
  healthy : db.failed = none
  opened : TablesOpen env db.dir db.opts.bloomEnabled w.vol db.sstables held.tables
  fit : TablesFit env held.tables
  carries : Carries db held now pinned
  seq : db.nextSeq ≤ u64Max

namespace Legible

variable {env : Env} {w : World} {db : DbInner} {held : Held}
variable {now : SortedMap Bytes Bytes} {pinned : List (Nat × SortedMap Bytes Bytes)}

theorem serves (h : Legible env w db held now pinned) : Serves env w.vol db held.tables where
  healthy := h.healthy
  opened := h.opened.read h.sound
  fit := h.fit
  active := by
    intro r hr
    have := h.carries.serving.below r ⟨db.active.iter, by simp [DbInner.sources], hr⟩
    exact le_of_lt (lt_of_lt_of_le this h.seq)
  frozen := by
    intro f hf
    rw [h.carries.frozen] at hf
    cases hf

theorem get (h : Legible env w db held now pinned) (key : Bytes) :
    DbInner.get env key db w = (.ok (now.find? key), db, w) :=
  getAt_holds h.quiet h.serves (h.carries.serving.holds h.seq)
    (h.carries.serving.stacked.layered key u64Max)

theorem scan (h : Legible env w db held now pinned) (start stop : Option Bytes) (limit : Nat) :
    DbInner.scan env start stop limit db w =
      (.ok ((entriesWithin now start stop).take limit), db, w) :=
  scanAt_holds h.quiet h.serves (h.carries.serving.holds h.seq) start stop limit

end Legible

theorem Standing.legible {env : Env} {w : World} {db : DbInner} {held : Held}
    {now : SortedMap Bytes Bytes} {pinned : List (Nat × SortedMap Bytes Bytes)}
    (h : Standing env w db held) (hc : Carries db held now pinned) :
    Legible env w db held now pinned := by
  obtain ⟨i, n, hlog⟩ := h.layout.log
  refine ⟨h.quiet, h.layout.sound, ?_, h.healthy, h.layout.opened, h.layout.fit, hc, h.seq⟩
  rw [hlog.handle]
  exact hlog.bound.name

namespace Engine

variable {env : Env} {w : World} {db : DbInner} {held : Held}
variable {now : SortedMap Bytes Bytes} {pinned : List (Nat × SortedMap Bytes Bytes)}

section Reads

theorem legible (h : Engine env w db held now pinned) : Legible env w db held now pinned :=
  h.standing.legible h.stands.carries

theorem serves (h : Engine env w db held now pinned) : Serves env w.vol db held.tables :=
  h.legible.serves

theorem get (h : Engine env w db held now pinned) (key : Bytes) :
    DbInner.get env key db w = (.ok (now.find? key), db, w) :=
  h.legible.get key

theorem getAt (h : Engine env w db held now pinned) {p : Nat × SortedMap Bytes Bytes}
    (hp : p ∈ pinned) (key : Bytes) :
    DbInner.getAt env key p.1 db w = (.ok (p.2.find? key), db, w) :=
  getAt_holds h.standing.quiet h.serves (h.stands.serving.holdsAt hp)
    (h.stands.serving.stacked.layered key p.1)

theorem scan (h : Engine env w db held now pinned) (start stop : Option Bytes) (limit : Nat) :
    DbInner.scan env start stop limit db w =
      (.ok ((entriesWithin now start stop).take limit), db, w) :=
  h.legible.scan start stop limit

theorem scanAt (h : Engine env w db held now pinned) {p : Nat × SortedMap Bytes Bytes}
    (hp : p ∈ pinned) (start stop : Option Bytes) (limit : Nat) :
    DbInner.scanAt env start stop limit p.1 db w =
      (.ok ((entriesWithin p.2 start stop).take limit), db, w) :=
  scanAt_holds h.standing.quiet h.serves (h.stands.serving.holdsAt hp) start stop limit

end Reads

section Calls

/-- A write applies its mutations to the current map. -/
theorem write (h : Engine env w db held now pinned) {batch : WriteBatch}
    (hfits : WriteFits db batch) :
    ∃ db' held' w', DbInner.writeBatch env batch db w = (.ok (), db', w') ∧
      Engine env w' db' held' (applyBatch now batch) pinned ∧
      db'.dir = db.dir ∧ db'.opts = db.opts := by
  by_cases hne : batch = []
  · subst hne
    exact ⟨db, held, w, writeBatch_nil h.standing.healthy, h, rfl, rfl⟩
  · have htake : held.kind.Takes (DbInner.numberRecords db.nextSeq batch) := by
      rw [h.stands.kind]
      exact takes_newestLog _
    obtain ⟨w', hrun, hst, _⟩ := h.standing.writeBatch hne htake hfits.seqs
    exact ⟨_, _, w', hrun, ⟨hst, h.stands.written hfits⟩, rfl, rfl⟩

/-- A snapshot pins the current map. -/
theorem snapshot (h : Engine env w db held now pinned) :
    ∃ db', DbInner.snapshot db w = (.ok db.nextSeq, db', w) ∧
      Engine env w db' held now ((db.nextSeq, now) :: pinned) ∧
      db'.dir = db.dir ∧ db'.opts = db.opts := by
  obtain ⟨hq, hl, hf, hz, hseq, hid, habove⟩ := h.standing
  exact ⟨_, rfl, ⟨⟨hq, ⟨hl.sound, hl.opened, hl.fit, hl.ids, hl.manifest, hl.live, hl.log⟩, hf, hz,
    hseq, hid, habove⟩, h.stands.snapshot⟩, rfl, rfl⟩

/-- Dropping a snapshot unpins its map. -/
theorem dropSnapshot (h : Engine env w db held now pinned)
    {earlier later : List (Nat × SortedMap Bytes Bytes)} {p : Nat × SortedMap Bytes Bytes}
    (hp : pinned = earlier ++ p :: later) :
    ∃ db', DbInner.dropSnapshot p.1 db w = (.ok (), db', w) ∧
      Engine env w db' held now (earlier ++ later) ∧ db'.dir = db.dir ∧ db'.opts = db.opts := by
  obtain ⟨db', hrun, hst, snapshots, rfl⟩ := h.stands.dropSnapshot hp (w := w)
  obtain ⟨hq, hl, hf, hz, hseq, hid, habove⟩ := h.standing
  exact ⟨_, hrun, ⟨⟨hq, ⟨hl.sound, hl.opened, hl.fit, hl.ids, hl.manifest, hl.live, hl.log⟩, hf, hz,
    hseq, hid, habove⟩, hst⟩, rfl, rfl⟩

end Calls

end Engine

section Open

variable {env : Env} {w : World} {db : DbInner} {held : Held} {dir : String} {opts : Options}
variable {now : SortedMap Bytes Bytes} {pinned : List (Nat × SortedMap Bytes Bytes)}

/-- The files of a layout are an image of what they hold. -/
theorem Layout.image {v : Volume Path} (hl : Layout env v db held) (hkind : held.kind = newestLog)
    (hfits : ∀ b ∈ held.log, BatchFits b) :
    Image env db.dir v (applyAll held.edits) held.tables held.log.flatten ∧
      walBytes v db.dir = some (logBytes env newestLog held.log) := by
  obtain ⟨g, i, hman⟩ := hl.manifest
  obtain ⟨c, hc⟩ := hman.live.named.current
  obtain ⟨k, n, hlog⟩ := hl.log
  have hwal : walBytes v db.dir = some (logBytes env newestLog held.log) := by
    unfold walBytes
    rw [hlog.bound.file, hkind]
    rfl
  refine ⟨⟨hl.sound, ⟨g, c, _, i, _, _, hman.generation, hc, hman.live.holds,
    replayManifest_manifestBytes hman.fits⟩, hl.live, hl.fit, ?_, ?_⟩, hwal⟩
  · exact TablesOpen.bound (w := World.start v) hl.opened
  · rw [hwal]
    exact replayBytes_logBytes newestLog_ne (classify_newestLog _ _) hfits
      (fun b _ => takes_newestLog b)

/-- The log of an open, where it has the newest format. -/
theorem Opened.logOpen {v : Volume Path} {st : ManifestState} {tables : List (Nat × List Record)}
    {records : List Record} {log : List (List Record)}
    (h : Opened env dir opts v db st tables records (logBytes env newestLog log)) :
    ∃ i n, LogOpen env dir opts.syncWal v db.wal newestLog log i n := by
  obtain ⟨i, n, kind, hwal, hb, hkind, _⟩ := h.wal
  have hnewest := classify_newestLog (frames ((walChecksum newestLog).hash env)
    (logPayloads newestLog log)) "the write-ahead log"
  rw [show logFront newestLog ++ frames ((walChecksum newestLog).hash env)
    (logPayloads newestLog log) = logBytes env newestLog log from rfl, hkind] at hnewest
  rw [Except.ok.inj hnewest] at hwal
  exact ⟨i, n, hwal, hb⟩

/-- A log with a header is opened as it is. -/
theorem walOpened_logBytes (env : Env) (log : List (List Record)) :
    walOpened (some (logBytes env newestLog log)) = logBytes env newestLog log := by
  rw [walOpened, if_neg]
  intro hnil
  have := congrArg List.length hnil
  rw [length_logBytes_newest] at this
  simp [headerLen] at this

/-- What an open returns serves the tables it opened. -/
theorem Opened.serves_tables {v : Volume Path} {st : ManifestState}
    {tables : List (Nat × List Record)} {records : List Record} {wal : Bytes}
    (hopen : Opened env dir opts v db st tables records wal) (hs : v.Sound)
    (hfit : TablesFit env tables) (hactive : SeqsFit db.active.iter) :
    Serves env v db tables where
  healthy := hopen.healthy
  opened := by
    rw [hopen.inDir, hopen.withOpts]
    exact hopen.opened.read hs
  fit := hfit
  active := hactive
  frozen := by simp [hopen.frozen]

/-- What an open returns stands for what the tables and the log hold. -/
theorem Opened.carries {v : Volume Path} {st : ManifestState} {records : List Record}
    {wal : Bytes} (hopen : Opened env dir opts v db st held.tables records wal)
    (hfit : TablesFit env held.tables)
    (hserving : Serving (db.active.iter :: (held.tables.map Prod.snd).reverse) db.nextSeq now []) :
    Carries db held now [] := by
  refine ⟨hopen.frozen, hfit.sorted, ?_, fun h => ?_⟩
  · rw [show db.sources held.tables = db.active.iter :: (held.tables.map Prod.snd).reverse by
      simp [DbInner.sources, hopen.frozen]]
    exact hserving
  · rw [hopen.snapshots]
    rfl

/-- So it can be read, whatever the log is like behind the records that were replayed. -/
theorem Opened.legible {st : ManifestState} {records : List Record} {wal : Bytes} (hq : w.Quiet)
    (hs : w.vol.Sound) (hopen : Opened env dir opts w.vol db st held.tables records wal)
    (hfit : TablesFit env held.tables) (hseq : db.nextSeq ≤ u64Max)
    (hserving : Serving (db.active.iter :: (held.tables.map Prod.snd).reverse) db.nextSeq now []) :
    Legible env w db held now [] := by
  obtain ⟨i, n, kind, hwal, hb, -⟩ := hopen.wal
  refine ⟨hq, hs, ?_, hopen.healthy, ?_, hfit, hopen.carries hfit hserving, hseq⟩
  · rw [hopen.inDir, hwal]
    exact hb.name
  · rw [hopen.inDir, hopen.withOpts]
    exact hopen.opened

/-- What an open returns is in good standing, if the log is whole. -/
theorem standing_opened {st : ManifestState} {tables : List (Nat × List Record)} {kind : Kind}
    {log : List (List Record)} {records : List Record} {wal : Bytes} {edits : List VersionEdit}
    (hq : w.Quiet) (hs : w.vol.Sound)
    (hopen : Opened env dir opts w.vol db st tables records wal)
    (hlog : ∃ i n, LogOpen env dir opts.syncWal w.vol db.wal kind log i n)
    (hman : ∃ g i, ManifestOpen env dir w.vol db.manifest edits g i) (hst : applyAll edits = st)
    (hkeys : st.liveTables.keys = tables.map Prod.fst)
    (hids : (tables.map Prod.fst).Pairwise (· < ·)) (hfit : TablesFit env tables)
    (habove : ∀ t ∈ tables, t.1 < st.nextSstId) (hseq : db.nextSeq ≤ u64Max)
    (hserving : Serving (db.active.iter :: (tables.map Prod.snd).reverse) db.nextSeq now []) :
    Standing env w db ⟨tables, edits, kind, log⟩ ∧
      Carries db ⟨tables, edits, kind, log⟩ now [] := by
  have hcarries : Carries db ⟨tables, edits, kind, log⟩ now [] := hopen.carries hfit hserving
  refine ⟨⟨hq, ?_, hopen.healthy, hopen.frozen, hseq, ?_, ?_⟩, hcarries⟩
  · refine
      { sound := hs
        opened := ?_
        fit := hfit
        ids := hids
        manifest := ?_
        live := by rw [hst]; exact hkeys
        log := ?_ }
    · rw [hopen.inDir, hopen.withOpts]
      exact hopen.opened
    · rw [hopen.inDir]
      exact hman
    · rw [hopen.inDir, hopen.withOpts]
      exact hlog
  · rw [hst]
    exact hopen.nextSstId.symm
  · intro t ht
    rw [hopen.nextSstId]
    exact habove t ht

/-- An open of a whole log of the newest format returns an engine. -/
theorem engine_opened {st : ManifestState} {tables : List (Nat × List Record)}
    {log : List (List Record)} {edits : List VersionEdit} (hq : w.Quiet) (hs : w.vol.Sound)
    (hopen : Opened env dir opts w.vol db st tables log.flatten (logBytes env newestLog log))
    (hman : ∃ g i, ManifestOpen env dir w.vol db.manifest edits g i) (hst : applyAll edits = st)
    (hkeys : st.liveTables.keys = tables.map Prod.fst)
    (hids : (tables.map Prod.fst).Pairwise (· < ·)) (hfit : TablesFit env tables)
    (hbatches : ∀ b ∈ log, BatchFits b) (habove : ∀ t ∈ tables, t.1 < st.nextSstId)
    (hseq : db.nextSeq ≤ u64Max)
    (hserving : Serving (db.active.iter :: (tables.map Prod.snd).reverse) db.nextSeq now []) :
    Engine env w db ⟨tables, edits, newestLog, log⟩ now [] := by
  obtain ⟨hstanding, hcarries⟩ := standing_opened hq hs hopen hopen.logOpen hman hst hkeys hids
    hfit habove hseq hserving
  refine ⟨hstanding, hcarries.frozen, hcarries.sorted, hcarries.serving, ?_, rfl, hbatches,
    hcarries.snapshots⟩
  rw [hst, hopen.withOpts]
  exact hopen.memory

/-- An open that replays the records of a handle has its memory again. -/
theorem Engine.memory_again {db' : DbInner} {v : Volume Path} {st : ManifestState}
    {tables : List (Nat × List Record)} {wal : Bytes} (h : Engine env w db held now pinned)
    (hopen : Opened env dir opts v db' st tables held.log.flatten wal)
    (hst : st.nextSeq = (applyAll held.edits).nextSeq) :
    db'.active.iter = db.active.iter ∧ db'.nextSeq = db.nextSeq := by
  obtain ⟨hmap, hseq⟩ := replayInto_threshold held.log.flatten
    (MemTable.new opts.memtableThreshold) (MemTable.new db.opts.memtableThreshold)
    (applyAll held.edits).nextSeq rfl
  rw [← hst, ← hopen.memory, hst, ← h.stands.memory] at hmap hseq
  exact ⟨congrArg SortedMap.values hmap, hseq⟩

/-- So it stands for the same map, over the same tables. -/
theorem Engine.serving_again {db' : DbInner} {v : Volume Path} {wal : Bytes}
    (h : Engine env w db held now [])
    (hopen : Opened env dir opts v db' (applyAll held.edits) held.tables held.log.flatten wal) :
    db'.nextSeq = db.nextSeq ∧
      Serving (db'.active.iter :: (held.tables.map Prod.snd).reverse) db'.nextSeq now [] := by
  obtain ⟨hactive, hnext⟩ := h.memory_again hopen rfl
  have hserving := h.stands.serving
  rw [h.stands.sources_eq] at hserving
  rw [hactive, hnext]
  exact ⟨rfl, hserving⟩

/-- A directory closed without snapshots and opened again stands for the same map. -/
theorem Engine.reopen (h : Engine env w db held now []) (opts : Options) :
    ∃ w₁ db' w' held', DbInner.close db w = (.ok (), db, w₁) ∧
      (assemble env db.dir opts : M Unit DbInner) () w₁ = (.ok db', (), w') ∧
      Engine env w' db' held' now [] ∧ db'.dir = db.dir ∧ db'.opts = opts := by
  set w₁ : World := { w with locks := w.locks.filter (fun q => q ≠ lockPath db.dir) } with hw₁
  obtain ⟨himg, hwal⟩ := h.standing.layout.image h.stands.kind h.stands.fits
  have hq₁ : w₁.Quiet := ⟨h.standing.quiet.accepts, h.standing.quiet.reads⟩
  obtain ⟨w', db', hrun, hs', hopen, hman, hgrew⟩ := assemble_quiet (s := ()) (w := w₁)
    opts hq₁ (by simp [hw₁]) himg
  have hwal₁ : walOpened (walBytes w₁.vol db.dir) = logBytes env newestLog held.log := by
    show walOpened (walBytes w.vol db.dir) = _
    rw [hwal, walOpened_logBytes]
  rw [hwal₁] at hopen
  obtain ⟨hnext, hserving⟩ := h.serving_again hopen
  refine ⟨w₁, db', w', _, rfl, hrun, engine_opened hgrew.quiet hs' hopen hman
    (applyAll_snapshotEdits _) himg.ids h.standing.layout.ids himg.fit h.stands.fits ?_ ?_ hserving,
    hopen.inDir, hopen.withOpts⟩
  · intro t ht
    rw [h.standing.nextId]
    exact h.standing.above t ht
  · rw [hnext]
    exact h.standing.seq

/-- A directory nothing is in. -/
structure FreshDir (dir : String) (v : Volume Path) : Prop where
  sound : v.Sound
  empty : ∀ p : Path, p.dir = dir → v.lookup p = none

theorem FreshDir.phase2 (env : Env) {v : Volume Path} (h : FreshDir dir v) :
    Phase2 env dir v [] [] where
  sound := h.sound
  unnamed := h.empty _ rfl
  ids := by simp
  small := by simp
  fit := ⟨by simp, by simp⟩
  files := by simp
  listed := by
    intro p i id hdir hl _
    rw [h.empty p hdir] at hl
    cases hl
  log := by
    unfold walBytes
    rw [file_eq_none_iff.mpr (h.empty _ rfl)]
    rfl
  rest := by
    intro x hx
    rw [file_eq_none_iff.mpr (h.empty _ rfl)] at hx
    cases hx

/-- A fresh directory is opened as the empty map. -/
theorem engine_fresh (env : Env) (opts : Options) (hq : w.Quiet)
    (hfree : lockPath dir ∉ w.locks) (hfresh : FreshDir dir w.vol) :
    ∃ db w' held, (assemble env dir opts : M Unit DbInner) () w = (.ok db, (), w') ∧
      Engine env w' db held SortedMap.empty [] ∧ db.dir = dir ∧ db.opts = opts := by
  obtain ⟨w', db, i, hrun, hopen, hman, hs, hgrew⟩ := assemble_migrating (s := ())
    opts hq hfree (hfresh.phase2 env)
  have hwal : walOpened (walBytes w.vol dir) = logBytes env newestLog [] := by
    unfold walBytes
    rw [file_eq_none_iff.mpr (hfresh.empty _ rfl), logBytes_nil]
    rfl
  rw [hwal] at hopen
  have hmem := hopen.memory
  have hactive : db.active = MemTable.new opts.memtableThreshold := (Prod.ext_iff.mp hmem).1
  have hnext : db.nextSeq = 0 := (Prod.ext_iff.mp hmem).2
  have hopen' : Opened env dir opts w'.vol db (applyAll (migrationEdits [])) []
      ([] : List (List Record)).flatten (logBytes env newestLog []) := hopen
  refine ⟨db, w', _, hrun, engine_opened hgrew.quiet hs hopen' ⟨0, i, hman⟩ rfl rfl (by simp)
    ⟨by simp, by simp⟩ (by simp) (by simp) ?_ ?_, hopen.inDir, hopen.withOpts⟩
  · rw [hnext]
    exact Nat.zero_le _
  · rw [hactive]
    exact Serving.fresh _ _

end Open

end LsmKv
