import LsmKv.CompactionCrash
import LsmKv.MigrateCrash
import LsmKv.Names
import LsmKv.Steady

/-!
# Table ids through crashes

A flush takes the next table id, and records three edits in one batch: the table, the next id
behind it, the next sequence number.  The edits have frames of their own, so a crash may leave
the table in the manifest and lose the next id, and the open that follows hands out the id of a
live table.  This is the only way in which it can happen.

**Results.**
* `Site`, `Course`: the life of a directory through opens, steps of threads, and crashes inside
  steps and inside opens.
* `Catalogue.step`: a step keeps tables and manifest in order, and a crash on its way leaves
  ids below the next one exactly when it does not split the batch of a flush.
* `table_ids_never_reused`: so ids are never reused while no crash splits such a batch.
-/

namespace LsmKv

open Foundation Volume

/-- How long the manifest of a handle is in a volume. -/
def System.manifestLength (s : System) (v : Volume Path) : Nat :=
  ((v.file (manifestPath s.db.dir s.db.manifest.generation)).map fun x => x.bytes.length).getD 0

/-- Of the edits a flush is recording, `v` has the first whole and no other: the table is
there, the next id is not. -/
def SplitsFlush (env : Env) (s : System) (v : Volume Path) : Prop :=
  wholeEdits env s.flusher.coming (s.manifestLength v - s.manifestLength s.w.vol) = 1
deriving Decidable

/-- A directory that is open, or that nobody has open. -/
inductive Site
  | up (s : System)
  | down (v : Volume Path)

/-- The life of a fresh directory.  `ok` says which crashes of a running system are admitted,
from its state and from what the crash leaves. -/
inductive Course (env : Env) (dir : String) (ok : System → Volume Path → Prop) : Site → Prop
  | fresh {v : Volume Path} (fresh : FreshDir dir v) : Course env dir ok (.down v)
  | opened {v : Volume Path} {opts : Options} {db : DbInner} {w : World}
      (earlier : Course env dir ok (.down v))
      (run : (assemble env dir opts : M Unit DbInner) () (World.start v) = (.ok db, (), w)) :
      Course env dir ok (.up (System.opened db w))
  | failed {v : Volume Path} {opts : Options} {e : Error} {w : World}
      (earlier : Course env dir ok (.down v))
      (run : (assemble env dir opts : M Unit DbInner) () (World.start v) = (.error e, (), w)) :
      Course env dir ok (.down w.vol)
  | step {l : Label} {s s' : System} (earlier : Course env dir ok (.up s)) (fits : Fits env l s)
      (step : Step env l s s') : Course env dir ok (.up s')
  /-- The log refuses a batch, and the write returns the error. -/
  | refused {s : System} {records : List Record} {e : Error} {db : DbInner} {w : World}
      (earlier : Course env dir ok (.up s)) (stage : s.writer = .numbered records)
      (run : DbInner.logRecords env records s.db s.w = (.error e, db, w)) :
      Course env dir ok (.up { s with db := db, w := w, writer := .free })
  | closed {s : System} (earlier : Course env dir ok (.up s)) (idle : s.Idle) :
      Course env dir ok (.down s.w.vol)
  | crashed {s : System} {v : Volume Path} (earlier : Course env dir ok (.up s))
      (passing : Passing env (Fits env) s v) (keep : Nat → Nat) (cut : ok s (v.crash keep)) :
      Course env dir ok (.down (v.crash keep))
  | crashedOpening {v u : Volume Path} {opts : Options} {r : Except Error DbInner} {w : World}
      (earlier : Course env dir ok (.down v))
      (run : (assemble env dir opts : M Unit DbInner) () (World.start v) = (r, (), w))
      (passed : u ∈ w.visited) (keep : Nat → Nat) : Course env dir ok (.down (u.crash keep))

/-- A shelf whose ids are below the next one. -/
structure Ordered (env : Env) (dir : String) (v : Volume Path) (st : ManifestState)
    (tables : List (Nat × List Record)) : Prop where
  shelf : Shelf env dir v st tables
  above : ∀ t ∈ tables, t.1 < st.nextSstId

/-- What there is in a directory nobody has open: no manifest yet, a manifest with ids below
the next one, or one that an open refuses. -/
inductive Sunk (env : Env) (dir : String) (v : Volume Path) : Prop
  | unnamed (fresh : Phase2 env dir v [] [])
  | named {st : ManifestState} {tables : List (Nat × List Record)}
      (ordered : Ordered env dir v st tables)
  | torn {c i : Nat} {b : Bytes} {e : Error} (sound : v.Sound)
      (current : v.Bound (currentPath dir) c (currentBytes 0) (currentBytes 0).length)
      (manifest : v.Bound (manifestPath dir 0) i b b.length)
      (bad : replayManifestBytes env (manifestPath dir 0) b = .error e)

section Opening

variable {σ : Type} {s : σ} {env : Env} {dir : String} {v : Volume Path} {w : World}
variable {st : ManifestState} {tables : List (Nat × List Record)}

theorem Shelf.crash (h : Shelf env dir v st tables) (keep : Nat → Nat) :
    Shelf env dir (v.crash keep) st tables where
  rests := h.rests.crash keep
  ids := h.ids
  fit := h.fit
  files := fun t ht => by
    obtain ⟨i, hb⟩ := h.files t ht
    exact ⟨i, hb.crash_synced le_rfl keep⟩

/-- A shelf is kept where neither its manifest nor its tables are written. -/
theorem Shelf.same {v' : Volume Path} {ps : List Path} (h : Shelf env dir v st tables)
    (hsame : SameExcept ps v v') (hcur : currentPath dir ∉ ps)
    (hman : ∀ g, manifestPath dir g ∉ ps) (hsst : ∀ t ∈ tables, sstPath dir t.1 ∉ ps) :
    Shelf env dir v' st tables := by
  obtain ⟨g, c, i, b, hg, hc, hm, hst⟩ := h.rests.named
  refine ⟨⟨hsame.sound h.rests.sound, g, c, i, b, hg, hc.same hsame hcur, hm.same hsame (hman g),
    hst⟩, h.ids, h.fit, fun t ht => ?_⟩
  obtain ⟨i, hb⟩ := h.files t ht
  exact ⟨i, hb.same hsame (hsst t ht)⟩

/-- The ids of a shelf increase. -/
theorem Shelf.rising (h : Shelf env dir v st tables) :
    (tables.map Prod.fst).Pairwise (· < ·) := by
  rw [← h.ids]
  exact List.pairwise_map.mpr st.liveTables.increasing

/-- An open of a shelf leaves the same shelf behind on its way, whatever the log holds; and if
it goes through, the handle has the shelf open. -/
theorem Shelf.opens (opts : Options) (h : Shelf env dir w.vol st tables) (hq : w.Quiet)
    (hfree : lockPath dir ∉ w.locks) :
    ∃ r w', (assemble env dir opts : M σ DbInner) s w = (r, s, w') ∧
      (∃ vs, w'.visited = vs ++ w.visited ∧ ∀ u ∈ vs, Shelf env dir u st tables) ∧
      ∀ db, r = .ok db → w'.Quiet ∧ w'.vol.Sound ∧
        (∃ log wal, Opened env dir opts w'.vol db st tables log wal) ∧
        ∃ g i, ManifestOpen env dir w'.vol db.manifest st.snapshotEdits g i := by
  obtain ⟨g, c, i, b, hg, hcur, hman, hst⟩ := h.rests.named
  obtain ⟨w₁, w₂, j, hroll, hok, herror⟩ :=
    assemble_parts (s := s) opts hq h.rests.sound hfree hg hcur hman hst
  have h₁ := h.same hroll.lock (by simp) (by simp) (by simp)
  -- on the way of the rollover no table is touched
  have hrolling : ∀ u, Manifest.Rolling env dir g (Manifest.nextGen g) j st w₁.vol u →
      Shelf env dir u st tables := by
    intro u hu
    refine ⟨rests_of_rolling h₁.rests.sound hg (hcur.same hroll.lock (by simp))
      (hman.same hroll.lock (by simp)) hst hu, h.ids, h.fit, fun t ht => ?_⟩
    obtain ⟨k, hk⟩ := h₁.files t ht
    rcases hu with hsame | ⟨hsame, _⟩
    · exact ⟨k, hk.same hsame (by simp)⟩
    · exact ⟨k, hk.same hsame (by simp)⟩
  have h₂ : Shelf env dir w₂.vol st tables := hrolling _ (Or.inr ⟨hroll.same, hroll.live⟩)
  have hkeep : ∀ u, SameExcept (walPath dir :: reclaimed w₂.vol dir st) w₂.vol u →
      Shelf env dir u st tables := by
    intro u hu
    refine h₂.same hu ?_ (fun g => ?_) fun t ht => ?_
    all_goals simp only [List.mem_cons, not_or]
    · exact ⟨by simp, not_mem_reclaimed _ (by simp)⟩
    · exact ⟨by simp, not_mem_reclaimed _ (by simp)⟩
    · refine ⟨by simp, not_mem_reclaimed _ (reclaimable_live ?_)⟩
      rw [h.ids]
      exact List.mem_map.mpr ⟨t, ht, rfl⟩
  have hvisited : ∀ w', w₂.Grew w' (Shelf env dir · st tables) →
      ∃ vs, w'.visited = vs ++ w.visited ∧ ∀ u ∈ vs, Shelf env dir u st tables := fun w' hgrew =>
    (((hroll.lockGrew.mono fun u hu => h.same hu (by simp) (by simp) (by simp)).trans
      (hroll.grew.mono hrolling)).trans hgrew).visited
  cases hlog : replayOption env (walBytes w₂.vol dir) with
  | error e =>
      obtain ⟨w₃, hrun₃, hgrew₃⟩ := recoverFrom_corrupt (s := s) opts
        (Manifest.handle dir (Manifest.nextGen g) j) hroll.grew.quiet h.ids h.fit h₂.files hlog
      exact ⟨.error e, _, herror e w₃ hrun₃,
        hvisited w₃ (hgrew₃.mono fun u hu => hkeep u (hu.mono (by simp))), by simp⟩
  | ok log =>
      obtain ⟨w₃, db, hrun₃, hmandb, hopened, hsame₃, _, hgrew₃⟩ := recoverFrom_quiet (s := s) opts
        (Manifest.handle dir (Manifest.nextGen g) j) hroll.grew.quiet h₂.rests.sound h.ids h.fit
        h₂.files hlog
      refine ⟨.ok db, w₃, hok db w₃ hrun₃, hvisited w₃ (hgrew₃.mono fun u hu => hkeep u hu.1), ?_⟩
      intro db' hdb
      cases hdb
      exact ⟨hgrew₃.quiet, hsame₃.sound h₂.rests.sound, ⟨log, _, hopened⟩, _, _,
        hroll.manifestOpen hst hmandb hsame₃⟩

/-- What is in a directory whose first open is under way. -/
theorem FirstOpen.sunk {u : Volume Path} (hfresh : Phase2 env dir v [] [])
    (h : FirstOpen env dir [] v u) (keep : Nat → Nat) : Sunk env dir (u.crash keep) := by
  have hfit : ∀ e ∈ migrationEdits [], e.Fits := migrationEdits_fit (by simp)
  have hempty : ∀ j, (applyAll ((migrationEdits []).take j)).liveTables.keys = [] := by
    intro j
    cases j with
    | zero => rfl
    | succ j =>
        rw [List.take_of_length_le (by simp [migrationEdits])]
        rfl
  cases h with
  | unnamed same =>
      exact .unnamed ((hfresh.same same (by simp [FileName.parseSstId]) (by simp) (by simp)).crash
        keep)
  | @naming i k n same named durable part =>
      obtain ⟨c, hc⟩ := named.current
      obtain ⟨m, hm, hb⟩ := part.crash keep
      rw [List.take_append, List.take_of_length_le (durable.trans hm), List.take_take] at hb
      have hsound := (same.sound hfresh.sound).crash keep
      have hcur := hc.crash_synced le_rfl keep
      rcases replayManifest_take_or (manifestPath dir 0) hfit (min (m - manifestFront.length) k)
        with ⟨j, hj⟩ | ⟨e, he⟩
      · exact .named (show Ordered env dir _ _ [] from
          ⟨⟨⟨hsound, 0, c, i, _, by decide, hcur, hb, hj⟩, hempty j, ⟨by simp, by simp⟩, by simp⟩,
            by simp⟩)
      · exact .torn hsound hcur hb he
  | named sound live files log =>
      have hrests := rests_of_live sound (by decide) live hfit
      exact .named (show Ordered env dir _ _ [] from
        ⟨⟨hrests.crash keep, hempty 1, ⟨by simp, by simp⟩, by simp⟩, by simp⟩)

/-- What an open makes of a directory, and what a crash inside it leaves. -/
theorem Sunk.opens (h : Sunk env dir v) {opts : Options} {r : Except Error DbInner}
    (hrun : (assemble env dir opts : M Unit DbInner) () (World.start v) = (r, (), w)) :
    (∀ u ∈ w.visited, ∀ keep, Sunk env dir (u.crash keep)) ∧
      (∀ e, r = .error e → Sunk env dir w.vol) ∧
      ∀ db, r = .ok db → db.dir = dir ∧ ∃ held, Catalogue env (System.opened db w) held := by
  have hfree : lockPath dir ∉ (World.start v).locks := by simp [World.start]
  cases h with
  | unnamed hfresh =>
      obtain ⟨w', db, i, hrun', hopen, hman, hs, hgrew⟩ := assemble_migrating (s := ()) opts
        (World.quiet_start v) hfree hfresh
      cases hrun'.symm.trans hrun
      refine ⟨fun u hu keep => ?_, by simp, fun db' hdb => ?_⟩
      · rcases hgrew.mem_visited hu with hu | hu
        · rw [List.mem_singleton.mp (show u ∈ [v] from hu)]
          exact .unnamed (hfresh.crash keep)
        · exact hu.sunk hfresh keep
      · cases hdb
        exact ⟨hopen.inDir, _, Catalogue.opened (s := System.opened db w) ⟨rfl, rfl, rfl⟩
          hgrew.quiet hs hopen ⟨0, i, hman⟩ (by simp [migrationEdits]) rfl rfl (by simp)
          ⟨by simp, by simp⟩ (by simp) newestLog []⟩
  | @named st tables hordered =>
      obtain ⟨hshelf, habove⟩ := hordered
      obtain ⟨r', w', hrun', hway, hok⟩ := Shelf.opens (s := ()) (w := World.start v) opts hshelf
        (World.quiet_start v) hfree
      cases hrun'.symm.trans hrun
      obtain ⟨vs, hvs, hall⟩ := hway
      have hvisited : ∀ u ∈ w.visited, Shelf env dir u st tables := by
        intro u hu
        rw [hvs] at hu
        rcases List.mem_append.mp hu with hu | hu
        · exact hall u hu
        · rw [List.mem_singleton.mp (show u ∈ [v] from hu)]
          exact hshelf
      refine ⟨fun u hu keep => .named ⟨(hvisited u hu).crash keep, habove⟩,
        fun e _ => .named ⟨hvisited _ List.mem_cons_self, habove⟩, fun db hdb => ?_⟩
      obtain ⟨hq, hs, ⟨log, wal, hopen⟩, hman⟩ := hok db hdb
      exact ⟨hopen.inDir, _, Catalogue.opened (s := System.opened db w) ⟨rfl, rfl, rfl⟩ hq hs hopen
        hman (snapshotEdits_ne_nil _) (applyAll_snapshotEdits _) hshelf.ids hshelf.rising
        hshelf.fit habove newestLog []⟩
  | torn hs hcur hman hbad =>
      obtain ⟨w', hrun', hway⟩ := assemble_torn opts hs hcur hman hbad
      cases hrun'.symm.trans hrun
      refine ⟨fun u hu keep => ?_, fun e _ => ?_, by simp⟩
      · have hsame := hway u hu
        exact .torn ((hsame.sound hs).crash keep)
          ((hcur.same hsame (by simp)).crash_synced le_rfl keep)
          ((hman.same hsame (by simp)).crash_synced le_rfl keep) hbad
      · have hsame := hway w.vol List.mem_cons_self
        exact .torn (hsame.sound hs) (hcur.same hsame (by simp)) (hman.same hsame (by simp)) hbad

end Opening

section Leaves

variable {env : Env} {s : System} {held : Held} {v : Volume Path}

/-- A crash leaves a shelf, and ids below the next one exactly if the batch of a flush is not
split. -/
def Leaves (env : Env) (s : System) (v : Volume Path) : Prop :=
  ∀ keep, ∃ st tables, Shelf env s.db.dir (v.crash keep) st tables ∧
    ((∀ t ∈ tables, t.1 < st.nextSstId) ↔ ¬ SplitsFlush env s (v.crash keep))

/-- A flush that records nothing is not split. -/
theorem not_splitsFlush (hidle : s.flusher.coming = []) : ¬ SplitsFlush env s v := by
  unfold SplitsFlush
  rw [hidle]
  have := wholeEdits_le env [] (s.manifestLength v - s.manifestLength s.w.vol)
  simp only [List.length_nil] at this
  omega

theorem Leaves.of_shelf {st : ManifestState} {tables : List (Nat × List Record)}
    (hidle : s.flusher.coming = []) (h : Shelf env s.db.dir v st tables)
    (habove : ∀ t ∈ tables, t.1 < st.nextSstId) : Leaves env s v :=
  fun keep => ⟨st, tables, h.crash keep, iff_of_true habove (not_splitsFlush hidle)⟩

theorem Leaves.of_salvage {g : Nat} {edits batch : List VersionEdit}
    (tables : Nat → List (Nat × List Record)) (hidle : s.flusher.coming = [])
    (h : Salvage env s.db.dir g v edits batch tables)
    (habove : ∀ j ≤ batch.length, ∀ t ∈ tables j,
      t.1 < (applyAll (edits ++ batch.take j)).nextSstId) : Leaves env s v := by
  intro keep
  obtain ⟨j, hj, hshelf, _⟩ := h.crash keep
  exact ⟨_, _, hshelf, iff_of_true (habove j hj) (not_splitsFlush hidle)⟩

/-- Where no flush records anything, all that matters is the directory. -/
theorem Leaves.moved {s' : System} (h : Leaves env s' v) (hdir : s'.db.dir = s.db.dir)
    (hidle' : s'.flusher.coming = []) (hidle : s.flusher.coming = []) : Leaves env s v := by
  intro keep
  obtain ⟨st, tables, hshelf, habove⟩ := h keep
  rw [hdir] at hshelf
  exact ⟨st, tables, hshelf,
    iff_of_true (habove.mpr (not_splitsFlush hidle')) (not_splitsFlush hidle)⟩

/-- How long the manifest is. -/
theorem Catalogue.manifestLength_eq (h : Catalogue env s held) :
    s.manifestLength s.w.vol = (manifestBytes env held.edits).length := by
  obtain ⟨g, i, hopen⟩ := h.manifest
  obtain rfl : s.db.manifest.generation = g := by rw [hopen.handle]; rfl
  unfold System.manifestLength
  rw [hopen.live.holds.file]
  rfl

/-- Where no table has changed, only the first edit of a flush without the second puts an id
at the next one. -/
theorem Catalogue.leaves (h : Catalogue env s held)
    (hsalvage : Salvage env s.db.dir s.db.manifest.generation v held.edits s.flusher.coming
      (fun j => s.flusher.tablesAt held.tables j)) : Leaves env s v := by
  intro keep
  obtain ⟨j, hj, hshelf, x, hx, hwhole⟩ := hsalvage.crash keep
  refine ⟨_, _, hshelf, ?_⟩
  have hsplit : SplitsFlush env s (v.crash keep) ↔ j = 1 := by
    unfold SplitsFlush
    rw [h.manifestLength_eq, show s.manifestLength (v.crash keep) = x.bytes.length by
      unfold System.manifestLength; rw [hx]; rfl, ← hwhole]
  rw [hsplit]
  have hback := h.flusher
  cases hflush : s.flusher with
  | counted m id table a b =>
      rw [hflush] at hback hj
      obtain ⟨hf, hst, _, ha, _⟩ := hback
      have habove := hf.above
      simp only [Flusher.coming, flushEdits, Flusher.tablesAt, applyAll_append]
      rcases j with _ | _ | j
      · refine iff_of_true (fun t ht => ?_) (by simp)
        show t.1 < (applyAll held.edits).nextSstId
        rw [hst]
        exact habove t ht
      · refine iff_of_false (fun hall => ?_) (by simp)
        have := hall (id, m.iter) (by simp)
        change id < (applyAll held.edits).nextSstId at this
        omega
      · refine iff_of_true (fun t ht => ?_) (by omega)
        have hnext : ((([VersionEdit.addTable id, .setNextSstId a, .setNextSeq b].take
            (j + 1 + 1)).foldl ManifestState.apply (applyAll held.edits))).nextSstId = a := by
          cases j with
          | zero => rfl
          | succ j =>
              rw [List.take_of_length_le (by simp)]
              rfl
        rw [hnext, ha]
        rcases (show t ∈ held.tables ∨ t = (id, m.iter) by simpa using ht) with ht | rfl
        · exact Nat.lt_succ_of_lt (habove t ht)
        · exact Nat.lt_succ_self _
  | recorded m id table =>
      rw [hflush] at hback hj
      obtain rfl : j = 0 := Nat.le_zero.mp hj
      obtain ⟨hf, hst, _⟩ := hback
      have habove := hf.above
      refine iff_of_true (fun t ht => ?_) (by simp)
      simp only [Flusher.coming, List.take_nil, List.append_nil, hst]
      rcases List.mem_append.mp ht with ht | ht
      · exact Nat.lt_succ_of_lt (habove t ht)
      · rw [List.mem_singleton.mp ht]
        exact Nat.lt_succ_self _
  | written m id | placed m id table =>
      rw [hflush] at hback hj
      obtain rfl : j = 0 := Nat.le_zero.mp hj
      obtain ⟨hf, hst, _⟩ := hback
      refine iff_of_true (fun t ht => ?_) (by simp)
      simp only [Flusher.coming, List.take_nil, List.append_nil, hst]
      exact hf.above t ht
  | free | frozen m | published m | relogged m =>
      rw [hflush] at hback hj
      obtain rfl : j = 0 := Nat.le_zero.mp hj
      obtain ⟨hst, habove⟩ := hback
      refine iff_of_true (fun t ht => ?_) (by simp)
      simp only [Flusher.coming, List.take_nil, List.append_nil, hst]
      exact habove t ht

/-- The same where neither the manifest nor a table is written. -/
theorem Catalogue.leaves_beside (h : Catalogue env s held) (hold : s.compactor.replaced = none)
    {ps : List Path} (hsame : SameExcept ps s.w.vol v) (hcur : currentPath s.db.dir ∉ ps)
    (hman : ∀ g, manifestPath s.db.dir g ∉ ps)
    (hps : ∀ j ≤ s.flusher.coming.length, ∀ t ∈ s.flusher.tablesAt held.tables j,
      sstPath s.db.dir t.1 ∉ ps) : Leaves env s v :=
  h.leaves (h.salvage hold hsame hcur hps (h.manifestPart hsame hman _))

section Merged

variable {c : DbInner.Choice} {minSeq : Nat} {front stale back : List (Nat × List Record)}
variable {last : Nat × List Record}

/-- Once the merge has its name, with `m j` of the other inputs deleted by `j` more edits. -/
theorem Catalogue.leaves_merged (h : Catalogue env s held) (hstage : s.compactor = .named c minSeq)
    (hp : Picked s.db.sstables held.tables c front stale last back)
    (hfile : TableFile env s.w.vol (sstPath s.db.dir c.maxId) (c.out minSeq stale last))
    {ps : List Path} (hsame : SameExcept ps s.w.vol v) (hcur : currentPath s.db.dir ∉ ps)
    (edits batch : List VersionEdit) (m : Nat → Nat)
    (hfit : ∀ e ∈ edits ++ batch, e.Fits)
    (hman : ∃ i k n, v.Bound (manifestPath s.db.dir s.db.manifest.generation) i
        (manifestBytes env edits ++ (editFrames env batch).take k) n ∧
      (manifestBytes env edits).length ≤ n)
    (hdeleted : ∀ j ≤ batch.length,
      edits ++ batch.take j = held.edits ++ deleteEdits (stale.take (m j)))
    (hps : ∀ j ≤ batch.length, ∀ id, sstPath s.db.dir id ∈ ps → ∃ u ∈ stale.take (m j), id = u.1) :
    Leaves env s v := by
  obtain ⟨g, i, hopen⟩ := h.manifest
  obtain rfl : s.db.manifest.generation = g := by rw [hopen.handle]; rfl
  obtain ⟨cur, hc⟩ := hopen.live.named.current
  have hfree : s.flusher = .free := h.exclusive (by simp [hstage, Compactor.publishing])
  obtain ⟨⟨hst, habove⟩, hlive, _⟩ := h.stage hfree
  have hlive' : (applyAll held.edits).liveTables.keys = held.tables.map Prod.fst :=
    hlive.trans (List.append_nil _)
  have hat : RunAt held front stale last back := ⟨hp.tables, h.ids⟩
  have hlast : ∀ u ∈ stale, u.1 ≠ last.1 := fun u hu => ne_of_lt (hat.parts.2.1 u hu)
  have hsorted := hat.sorted_merged h.fit c.dropTombstones minSeq
  obtain ⟨k, hk⟩ := hfile.bound
  have hedits : edits ≠ [] := by
    intro hnil
    have := hdeleted 0 (Nat.zero_le _)
    rw [hnil, List.take_zero, List.append_nil] at this
    exact h.recorded (List.append_eq_nil_iff.mp this.symm).1
  refine Leaves.of_salvage
    (fun j => tablesOnWay front stale last back (c.out minSeq stale last) (m j))
    (by rw [hfree]; rfl)
    { sound := hsame.sound h.sound
      recorded := hedits
      editsFit := fun e he => hfit e (List.mem_append_left _ he)
      batchFit := fun e he => hfit e (List.mem_append_right _ he)
      generation := hopen.generation
      current := ⟨cur, hc.same hsame hcur⟩
      manifest := hman
      live := fun j hj => by
        rw [hdeleted j hj, applyAll_append]
        exact live_tablesOnWay hat hlive' _ _
      fit := fun j _ => fit_tablesOnWay hat h.fit hfile.fits hsorted
      files := ?_ } ?_
  · intro j hj t ht
    rcases mem_tablesOnWay hat ht with rfl | ⟨hmem, hne, hgone⟩
    · refine ⟨k, ?_⟩
      have hb := hk.same hsame fun hin => by
        obtain ⟨u, hu, heq⟩ := hps j hj _ hin
        exact hlast u (List.mem_of_mem_take hu) (heq.symm.trans hp.maxId)
      rwa [hp.maxId] at hb
    · obtain ⟨i, hb⟩ := h.files t hmem (by
        simp only [hstage, Compactor.replaced, hp.maxId, ne_eq, Option.some.injEq]
        exact Ne.symm hne)
      refine ⟨i, hb.same hsame fun hin => ?_⟩
      obtain ⟨u, hu, heq⟩ := hps j hj _ hin
      exact hgone u hu heq
  · intro j hj t ht
    rw [hdeleted j hj, (Standing.applyAll_deleteEdits held.edits _).1, hst]
    rcases mem_tablesOnWay hat ht with rfl | ⟨hmem, -⟩
    · exact habove last hp.mem
    · exact habove t hmem

end Merged

/-- A crash that comes while nothing but the log is written. -/
theorem Catalogue.leaves_log (h : Catalogue env s held)
    (hsame : SameExcept [walPath s.db.dir] s.w.vol v) : Leaves env s v := by
  have hback := h.compactor
  cases hstage : s.compactor with
  | named c minSeq =>
      rw [hstage] at hback
      obtain ⟨front, stale, last, back, hp, hfile⟩ := hback
      obtain ⟨g, i, hopen⟩ := h.manifest
      exact h.leaves_merged hstage hp hfile hsame (by simp) held.edits [] (fun _ => 0)
        (by simpa using hopen.fits) (h.manifestPart hsame (by simp) []) (by simp [deleteEdits])
        (by simp)
  | _ => exact h.leaves_beside (by rw [hstage]; rfl) hsame (by simp) (by simp) (by simp)

end Leaves

section Step

variable {env : Env} {s s' : System} {held : Held} {v : Volume Path} {l : Label}

/-- Tables and manifest of a handle nobody is inside. -/
theorem Catalogue.shelf (h : Catalogue env s held) (hidle : s.Idle) :
    Shelf env s.db.dir s.w.vol (applyAll held.edits) held.tables ∧
      ∀ t ∈ held.tables, t.1 < (applyAll held.edits).nextSstId := by
  obtain ⟨⟨hst, habove⟩, hlive, _⟩ := h.stage hidle.flusher
  obtain ⟨g, i, hopen⟩ := h.manifest
  refine ⟨⟨rests_of_live h.sound hopen.generation hopen.live hopen.fits,
    hlive.trans (List.append_nil _), h.fit, fun t ht => h.files t ht ?_⟩, ?_⟩
  · rw [hidle.compactor]
    simp [Compactor.replaced]
  · rw [hst]
    exact habove

/-- A section that writes no file passes no volume. -/
theorem leaves_unwritten : ∀ u, s.w.Passes s.w u → Leaves env s u :=
  fun _ hu => (World.not_passes_self hu).elim

/-- A step stays in the directory, keeps tables and manifest in order, and leaves on its way
what a crash may find. -/
theorem Catalogue.step (h : Catalogue env s held) (hfits : Fits env l s)
    (hstep : Step env l s s') :
    s'.db.dir = s.db.dir ∧
      (∃ held', Catalogue env s' held' ∧
        (l ≠ .publish → l ≠ .finish → held'.tables = held.tables)) ∧
      ∀ u, s.w.Passes s'.w u → Leaves env s u := by
  cases hstep with
  | number batch hne hfree run =>
      cases (takeNumbers_eq hfits).symm.trans run
      exact ⟨rfl, ⟨held, { h with seq := hfits }, fun _ _ => rfl⟩, leaves_unwritten⟩
  | log stage run =>
      obtain ⟨wal, rfl, hgrew, hcat⟩ := h.logs run
      exact ⟨rfl, ⟨held, hcat _, fun _ _ => rfl⟩, fun u hu => h.leaves_log (hgrew.of_passes hu)⟩
  | insert stage run =>
      cases run
      exact ⟨rfl, ⟨held, { h with }, fun _ _ => rfl⟩, leaves_unwritten⟩
  | freeze free run =>
      obtain ⟨hfull, rfl, rfl, rfl⟩ := freeze_some run
      exact ⟨rfl, ⟨held, h.afterFreeze free, fun _ _ => rfl⟩, leaves_unwritten⟩
  | write stage run =>
      obtain ⟨w', hrun, hcat, hsame, hgrew⟩ := h.afterWrite stage hfits.1 (hfits.2 _ stage)
      cases hrun.symm.trans run
      exact ⟨rfl, ⟨held, hcat, fun _ _ => rfl⟩,
        fun u hu => h.leaves_beside (h.unreplaced (by simp [stage])) (hgrew.of_passes hu)
          (by simp) (by simp) (by simp)⟩
  | place stage run =>
      obtain ⟨w', table, hrun, hcat, _, hsame, hgrew⟩ := h.afterPlace stage
      cases hrun.symm.trans run
      obtain ⟨⟨hf, _⟩, _⟩ := h.stage stage
      have hpaths := above_paths s.db.dir hf.above
      refine ⟨rfl, ⟨held, hcat, fun _ _ => rfl⟩,
        fun u hu => h.leaves_beside (h.unreplaced (by simp [stage])) (hgrew.of_passes hu)
          (by simp) (by simp) ?_⟩
      rw [stage]
      exact fun j _ t ht => (hpaths t ht).2
  | count stage run =>
      cases run
      exact ⟨rfl, ⟨held, h.afterCount stage, fun _ _ => rfl⟩, leaves_unwritten⟩
  | record stage run =>
      obtain ⟨w', hrun, hcat, g, j, hman, hsame, hgrew⟩ := h.afterRecord stage
      cases hrun.symm.trans run
      obtain rfl : s.db.manifest.generation = g := by rw [hman.handle]; rfl
      refine ⟨rfl, ⟨_, hcat, fun _ _ => rfl⟩, fun u hu => ?_⟩
      have happ := hgrew.of_passes hu
      obtain ⟨k, n, hn, hb⟩ := happ.part
      refine h.leaves (h.salvage (h.unreplaced (by simp [stage])) happ.same (by simp) (by simp) ?_)
      rw [stage]
      exact ⟨j, k, n, hb, hn⟩
  | publish stage run =>
      cases run
      exact ⟨rfl, ⟨_, h.afterPublish stage, fun hl => absurd rfl hl⟩, leaves_unwritten⟩
  | relog stage free run =>
      obtain ⟨w', i, hrun, hcat, _, _, _, hgrew⟩ := h.afterRelog stage
      cases hrun.symm.trans run
      refine ⟨rfl, ⟨held, hcat, fun _ _ => rfl⟩, fun u hu => ?_⟩
      have hold := h.unreplaced (by simp [stage])
      rcases hgrew.of_passes hu with hsame | ⟨hsame, _⟩
      · exact h.leaves_beside hold hsame (by simp) (by simp) (by simp)
      · exact h.leaves_beside hold hsame (by simp) (by simp) (by simp)
  | clear stage run =>
      cases run
      exact ⟨rfl, ⟨held, h.afterClear stage, fun _ _ => rfl⟩, leaves_unwritten⟩
  | list free run =>
      cases run
      exact ⟨rfl, ⟨held, h.afterPick (by simp [free, Compactor.replaced]) rfl ⟨[], by simp⟩,
        fun _ _ => rfl⟩, leaves_unwritten⟩
  | choose stage run =>
      have hback := h.compactor
      rw [stage] at hback
      have hpicked := picked_of_listed h.read h.ids hback run
      obtain ⟨r, hsame⟩ := DbInner.chooseRun_same _ s.db s.w
      cases hsame.symm.trans run
      exact ⟨rfl, ⟨held, h.afterPick (by simp [stage, Compactor.replaced]) rfl hpicked,
        fun _ _ => rfl⟩, leaves_unwritten⟩
  | abandon stage run =>
      obtain ⟨r, hsame⟩ := DbInner.chooseRun_same _ s.db s.w
      cases hsame.symm.trans run
      exact ⟨rfl, ⟨held, h.afterPick (by simp [stage, Compactor.replaced]) rfl trivial,
        fun _ _ => rfl⟩, leaves_unwritten⟩
  | bound stage run =>
      cases run
      have hback := h.compactor
      rw [stage] at hback
      exact ⟨rfl, ⟨held, h.afterPick (by simp [stage, Compactor.replaced]) rfl hback,
        fun _ _ => rfl⟩, leaves_unwritten⟩
  | merge stage run =>
      obtain ⟨w', hrun, hcat, hsame, hgrew⟩ :=
        h.afterMerge stage fun inputs => hfits _ _ inputs stage
      cases hrun.symm.trans run
      exact ⟨rfl, ⟨held, hcat, fun _ _ => rfl⟩, fun u hu => h.leaves_beside (by rw [stage]; rfl)
        (hgrew.of_passes hu) (by simp) (by simp) (by simp)⟩
  | name stage free run =>
      obtain ⟨w', hrun, hcat, hsame, hgrew⟩ := h.afterName stage free
      cases hrun.symm.trans run
      refine ⟨rfl, ⟨held, hcat, fun _ _ => rfl⟩, fun u hu => ?_⟩
      -- the rename is all there is: a crash behind it is a crash of the next state
      have hidle : s.flusher.coming = [] := by rw [free]; rfl
      rw [hgrew.of_passes hu]
      exact (hcat.leaves_log (.refl _ _)).moved rfl hidle hidle
  | finish stage run =>
      obtain ⟨w', sstables, front, stale, last, back, hrun, hpicked, hfile, _, hcat, _, g, j, hman,
        _, hgrew⟩ := h.afterFinish stage
      cases hrun.symm.trans run
      obtain rfl : s.db.manifest.generation = g := by rw [hman.handle]; rfl
      have hlive := h.live
      rw [h.exclusive (by rw [stage]; rfl)] at hlive
      have hdelete := deleteEdits_fit hman.fits (hlive.trans (List.append_nil _)) fun t ht => by
        rw [hpicked.tables]
        exact List.mem_append_left _ (List.mem_append_right _ (List.mem_append_left _ ht))
      have hfit : ∀ e ∈ held.edits ++ deleteEdits stale, e.Fits := fun e he =>
        (List.mem_append.mp he).elim (hman.fits e) (hdelete e)
      refine ⟨rfl, ⟨_, hcat, fun _ hl => absurd rfl hl⟩, fun u hu => ?_⟩
      cases hgrew.of_passes hu with
      | @recording k n same manifest durable =>
          refine h.leaves_merged stage hpicked hfile same (by simp) held.edits (deleteEdits stale)
            (fun j => j) hfit ⟨j, k, n, manifest, durable⟩ (fun j _ => ?_) (by simp)
          simp [deleteEdits, List.map_take]
      | removing gone part same manifest =>
          refine h.leaves_merged stage hpicked hfile same (by simp)
            (held.edits ++ deleteEdits stale) [] (fun _ => stale.length) (by simpa using hfit)
            ⟨j, 0, _, by simpa using manifest, le_rfl⟩ (by simp) fun _ _ id hid => ?_
          simp only [List.mem_cons, List.mem_map, Path.mk.injEq, true_and, reduceCtorEq,
            FileName.sst.injEq, false_or] at hid
          obtain ⟨t, ht, rfl⟩ := hid
          exact ⟨t, by rw [List.take_length]; exact part t ht, rfl⟩
  | load run =>
      cases run
      exact ⟨rfl, ⟨held, { h with }, fun _ _ => rfl⟩, leaves_unwritten⟩
  | register loaded run =>
      cases run
      exact ⟨rfl, ⟨held, { h with }, fun _ _ => rfl⟩, leaves_unwritten⟩
  | @drop _ db w horizon alive run =>
      obtain ⟨snapshots, hrun⟩ := dropSnapshot_same horizon s.db s.w
      cases hrun.symm.trans run
      exact ⟨rfl, ⟨held, { h with }, fun _ _ => rfl⟩, leaves_unwritten⟩
  | @reopen _ db db' w w' opts writer flusher compactor loading live closed run =>
      have hidle : s.Idle := ⟨writer, flusher, compactor⟩
      obtain ⟨hshelf, habove⟩ := h.shelf hidle
      have hw : w = { s.w with locks := s.w.locks.filter (fun q => q ≠ lockPath s.db.dir) } :=
        (congrArg (fun r => r.2.2) closed).symm
      have hvol : w.vol = s.w.vol := by rw [hw]
      have hvisited : w.visited = s.w.visited := by rw [hw]; rfl
      rw [← hvol] at hshelf
      obtain ⟨r, w₁, hrun, ⟨vs, hvs, hall⟩, hok⟩ := hshelf.opens (s := ()) opts
        (by rw [hw]; exact ⟨h.quiet.accepts, h.quiet.reads⟩) (by simp [hw])
      cases hrun.symm.trans run
      obtain ⟨hq, hs, ⟨log, wal, hopen⟩, hman⟩ := hok db' rfl
      refine ⟨hopen.inDir, ⟨_, Catalogue.opened hidle hq hs hopen hman (snapshotEdits_ne_nil _)
        (applyAll_snapshotEdits _) hshelf.ids hshelf.rising hshelf.fit habove newestLog [],
        fun _ _ => rfl⟩,
        fun u hu => ?_⟩
      obtain ⟨us, hus, hmem⟩ := hu
      have heq : us = vs := List.append_cancel_right
        (hus.symm.trans (by rw [← hvisited]; exact hvs))
      exact .of_shelf (by rw [flusher]; rfl) (hall u (heq ▸ hmem)) habove

end Step

/-- The id of a table that is written and not named yet. -/
def Flusher.writtenId : Flusher → Option Nat
  | .written _ id => some id
  | _ => none

/-- The run a compaction has chosen. -/
def Compactor.choice : Compactor → Option DbInner.Choice
  | .chosen c | .bounded c _ | .merged c _ | .named c _ => some c
  | .free | .listed _ => none

section Ids

variable {env : Env} {s : System} {held : Held} {v : Volume Path}

/-- A crash at any volume on the way to the next state. -/
theorem Catalogue.leaves_passing (h : Catalogue env s held)
    (hv : Passing env (Fits env) s v) : Leaves env s v := by
  rcases hv with rfl | ⟨l, s', vs, hfits, hstep, hvs, hmem⟩
  · exact h.leaves_log (.refl _ _)
  · exact (h.step hfits hstep).2.2 v ⟨vs, hvs, hmem⟩

/-- The live ids increase. -/
theorem Catalogue.rising (h : Catalogue env s held) :
    (s.db.sstables.map SsTable.id).Pairwise (· < ·) := by
  rw [h.read.ids]
  exact h.ids

/-- They are below the next one. -/
theorem Catalogue.below (h : Catalogue env s held) :
    ∀ t ∈ s.db.sstables, t.id < s.db.nextSstId := by
  have hall : ∀ u ∈ held.tables, u.1 < s.db.nextSstId := by
    have hback := h.flusher
    cases hflush : s.flusher with
    | free | frozen m | published m | relogged m =>
        rw [hflush] at hback
        exact hback.2
    | written m id | placed m id table | counted m id table a b | recorded m id table =>
        rw [hflush] at hback
        have hf := hback.1
        intro u hu
        rw [hf.next]
        exact Nat.lt_succ_of_lt (hf.above u hu)
  intro t ht
  have hid : t.id ∈ held.tables.map Prod.fst := by
    rw [← h.read.ids]
    exact List.mem_map.mpr ⟨t, ht, rfl⟩
  obtain ⟨u, hu, heq⟩ := List.mem_map.mp hid
  rw [← heq]
  exact hall u hu

/-- The table of a flush gets a name no live table has, in memory or in the manifest. -/
theorem Catalogue.written_apart (h : Catalogue env s held) {id : Nat}
    (hid : s.flusher.writtenId = some id) :
    (∀ t ∈ s.db.sstables, t.id ≠ id) ∧
      ∀ names, recoveryNames env s.db.dir s.w.vol = some names → sstPath s.db.dir id ∉ names := by
  obtain ⟨m, hstage⟩ : ∃ m, s.flusher = .written m id := by
    cases hflush : s.flusher with
    | written m id' =>
        rw [hflush] at hid
        cases hid
        exact ⟨m, rfl⟩
    | _ =>
        rw [hflush] at hid
        cases hid
  obtain ⟨⟨hf, _⟩, hlive, _⟩ := h.stage hstage
  have hnot : id ∉ held.tables.map Prod.fst := by
    intro hid
    obtain ⟨u, hu, heq⟩ := List.mem_map.mp hid
    exact absurd heq (ne_of_lt (hf.above u hu))
  refine ⟨fun t ht heq => hnot ?_, fun names hnames hmem => hnot ?_⟩
  · rw [← h.read.ids, ← heq]
    exact List.mem_map.mpr ⟨t, ht, rfl⟩
  · cases h.recoveryNames_eq.symm.trans hnames
    simpa [vitalNames, hlive, Flusher.recordedId] using hmem

/-- A compaction deletes none of its own output. -/
theorem Catalogue.choice_apart (h : Catalogue env s held) {c : DbInner.Choice}
    (hc : s.compactor.choice = some c) : c.maxId ∉ c.run.dropLast.map SsTable.id := by
  have hpicked : ∃ front stale last back,
      Picked s.db.sstables held.tables c front stale last back := by
    have hback := h.compactor
    cases hstage : s.compactor with
    | free | listed ts =>
        rw [hstage] at hc
        cases hc
    | chosen c' | bounded c' minSeq =>
        rw [hstage] at hback hc
        cases hc
        exact hback
    | merged c' minSeq | named c' minSeq =>
        rw [hstage] at hback hc
        cases hc
        obtain ⟨front, stale, last, back, hp, _⟩ := hback
        exact ⟨front, stale, last, back, hp⟩
  obtain ⟨front, stale, last, back, hp⟩ := hpicked
  obtain ⟨F, S, L, B, _, hrun, _, _, hS, _⟩ := hp.read h.read
  have hat : RunAt held front stale last back := ⟨hp.tables, h.ids⟩
  rw [hrun, List.dropLast_concat, hS.ids, hp.maxId]
  intro hmem
  obtain ⟨u, hu, heq⟩ := List.mem_map.mp hmem
  exact absurd heq (ne_of_lt (hat.parts.2.1 u hu))

end Ids

section Course

variable {env : Env} {dir : String} {ok : System → Volume Path → Prop} {s s' : System}

/-- What every site of a course has. -/
def Site.Holds (env : Env) (dir : String) : Site → Prop
  | .up s => s.db.dir = dir ∧ ∃ held, Catalogue env s held
  | .down v => Sunk env dir v

/-- As long as no crash splits the batch of a flush. -/
theorem Course.holds {site : Site} (h : Course env dir (fun s v => ¬ SplitsFlush env s v) site) :
    site.Holds env dir := by
  induction h with
  | fresh fresh => exact .unnamed (fresh.phase2 env)
  | opened _ run ih => exact (Sunk.opens ih run).2.2 _ rfl
  | failed _ run ih => exact (Sunk.opens ih run).2.1 _ rfl
  | step _ fits step ih =>
      obtain ⟨hdir, held, hcat⟩ := ih
      obtain ⟨hdir', ⟨held', hcat', _⟩, _⟩ := hcat.step fits step
      exact ⟨hdir'.trans hdir, held', hcat'⟩
  | refused _ stage run ih =>
      obtain ⟨hdir, held, hcat⟩ := ih
      obtain ⟨wal, rfl, _, hcat'⟩ := hcat.logs run
      exact ⟨hdir, held, hcat' _⟩
  | closed _ idle ih =>
      obtain ⟨rfl, held, hcat⟩ := ih
      obtain ⟨hshelf, habove⟩ := hcat.shelf idle
      exact .named ⟨hshelf, habove⟩
  | crashed _ passing keep cut ih =>
      obtain ⟨rfl, held, hcat⟩ := ih
      obtain ⟨st, tables, hshelf, habove⟩ := hcat.leaves_passing passing keep
      exact .named ⟨hshelf, habove.mpr cut⟩
  | crashedOpening _ run passed keep ih => exact (Sunk.opens ih run).1 _ passed keep

/-- In every course in which no crash leaves of a flush's edits the table without the next id:
live ids increase and are below the next one, at every open and in every other state; a flush
gives its table a name that no live table has; a compaction deletes none of its own output.  And
the next crash keeps ids below the next one exactly if it does not split such edits. -/
theorem table_ids_never_reused (env : Env) (dir : String) {s : System}
    (h : Course env dir (fun s v => ¬ SplitsFlush env s v) (.up s)) :
    (s.db.sstables.map SsTable.id).Pairwise (· < ·) ∧
      (∀ t ∈ s.db.sstables, t.id < s.db.nextSstId) ∧
      (∀ id, s.flusher.writtenId = some id → (∀ t ∈ s.db.sstables, t.id ≠ id) ∧
        ∀ names, recoveryNames env dir s.w.vol = some names → sstPath dir id ∉ names) ∧
      (∀ c, s.compactor.choice = some c → c.maxId ∉ c.run.dropLast.map SsTable.id) ∧
      ∀ v, Passing env (Fits env) s v → ∀ keep opts db w,
        (assemble env dir opts : M Unit DbInner) () (World.start (v.crash keep)) = (.ok db, (), w) →
        ((∀ t ∈ db.sstables, t.id < db.nextSstId) ↔ ¬ SplitsFlush env s (v.crash keep)) := by
  obtain ⟨rfl, held, hcat⟩ := h.holds
  refine ⟨hcat.rising, hcat.below, fun id hid => hcat.written_apart hid,
    fun c hc => hcat.choice_apart hc, fun v hv keep opts db w hrun => ?_⟩
  obtain ⟨st, tables, hshelf, habove⟩ := hcat.leaves_passing hv keep
  obtain ⟨r, w', hrun', _, hok⟩ := Shelf.opens (s := ()) (w := World.start (v.crash keep)) opts
    hshelf (World.quiet_start _) (by simp [World.start])
  cases hrun'.symm.trans hrun
  obtain ⟨_, _, ⟨log, wal, hopen⟩, _⟩ := hok db rfl
  have hids : db.sstables.map SsTable.id = tables.map Prod.fst := hopen.opened.ids
  rw [← habove, hopen.nextSstId]
  have hmap : ∀ {α : Type} (l : List α) (f : α → Nat),
      (∀ t ∈ l, f t < st.nextSstId) ↔ ∀ x ∈ l.map f, x < st.nextSstId := by simp
  rw [hmap db.sstables SsTable.id, hids, ← hmap]

/-- A database that never crashed. -/
theorem Course.of_reached (h : Reached env dir (Fits env) s) : Course env dir ok (.up s) := by
  obtain ⟨opts, v, db, w, hfresh, hopen, hrun⟩ := h
  exact hrun.keeps (P := fun s => Course env dir ok (.up s))
    (fun _ _ _ earlier fits step => earlier.step fits step) ((Course.fresh hfresh).opened hopen)

end Course

/-- A handle on a volume. -/
def System.startOn (env : Env) (dir : String) (opts : Options) (v : Volume Path) :
    Option System :=
  match (assemble env dir opts : M Unit DbInner) () (World.start v) with
  | (.ok db, _, w) => some (opened db w)
  | _ => none

theorem System.startOn_eq_some {env : Env} {dir : String} {opts : Options} {v : Volume Path}
    {s : System} (h : startOn env dir opts v = some s) :
    ∃ db w, (assemble env dir opts : M Unit DbInner) () (World.start v) = (.ok db, (), w) ∧
      s = opened db w := by
  unfold startOn at h
  rcases hopen : (assemble env dir opts : M Unit DbInner) () (World.start v) with ⟨_ | db, ⟨⟩, w⟩
  · rw [hopen] at h
    cases h
  · rw [hopen] at h
    cases h
    exact ⟨db, w, rfl, rfl⟩

/-- A volume that recording a table has passed. -/
theorem Catalogue.passing_record {env : Env} {s s' : System} {held : Held} {v : Volume Path}
    {n : Nat} (h : Catalogue env s held) (hstep : Step env .record s s')
    (hn : n + s.w.visited.length < s'.w.visited.length) (hv : s'.w.visited[n]? = some v) :
    Passing env (Fits env) s v := by
  obtain ⟨vs, hvs⟩ : ∃ vs, s'.w.visited = vs ++ s.w.visited := by
    cases hstep with
    | record stage run =>
        obtain ⟨w', hrun, _, g, j, _, _, hgrew⟩ := h.afterRecord stage
        cases hrun.symm.trans run
        obtain ⟨vs, hvs, _⟩ := hgrew.visited
        exact ⟨vs, hvs⟩
  refine Or.inr ⟨.record, s', vs, trivial, hstep, hvs, ?_⟩
  rw [hvs, List.length_append] at hn
  rw [hvs, List.getElem?_append_left (by omega)] at hv
  exact List.mem_of_getElem? hv

/-- A crash cuts the edits of a second flush in the middle of the last one.  The open behind it
has both tables live, and hands out the next id. -/
theorem table_ids_never_reused_cut :
    ∃ s, Course Stock.env "db" (fun s v => ¬ SplitsFlush Stock.env s v) (.up s) ∧
      (s.db.nextSstId = 2 ∧ s.db.sstables.map SsTable.id = [0, 1]) ∧
      ∀ t ∈ s.db.sstables, t.id < s.db.nextSstId := by
  have hrun : ((System.start Stock.env "db" Options.default).bind
      (System.execAll Stock.env (fun _ _ => true) (System.writeSteps [([1], some [2])] ++
        System.flushSteps ++ System.writeSteps [([3], some [4])] ++
        System.flushSteps.take 4))).any
      (fun s => (System.exec Stock.env .record s).any fun s' =>
        decide (1 + s.w.visited.length < s'.w.visited.length) && s'.w.visited[1]?.any fun v =>
          decide (¬ SplitsFlush Stock.env s (v.crash fun _ => 115)) &&
          (System.startOn Stock.env "db" Options.default (v.crash fun _ => 115)).any fun s₁ =>
            decide (s₁.db.nextSstId = 2 ∧ s₁.db.sstables.map SsTable.id = [0, 1])) = true := by
    decide +kernel
  obtain ⟨s, hreached, htest⟩ := System.execAll_any hrun
  obtain ⟨s', hrecord, htest⟩ := exists_of_any htest
  obtain ⟨hlen, htest⟩ := Bool.and_eq_true_iff.mp htest
  obtain ⟨v, hv, htest⟩ := exists_of_any htest
  obtain ⟨hwhole, hopen⟩ := Bool.and_eq_true_iff.mp htest
  obtain ⟨s₁, hs₁, hids⟩ := exists_of_any hopen
  obtain ⟨db, w, hassemble, rfl⟩ := System.startOn_eq_some hs₁
  have h₀ : Reached Stock.env "db" (Fits Stock.env) s := hreached.weaken fun _ _ h => h.1
  obtain ⟨held, hfiles, _⟩ := h₀.files
  have hpassing := hfiles.catalogue.passing_record (System.exec_step hrecord)
    (of_decide_eq_true hlen) hv
  have hcut : ¬ SplitsFlush Stock.env s (v.crash fun _ => 115) := of_decide_eq_true hwhole
  have hup : Course Stock.env "db" (fun s v => ¬ SplitsFlush Stock.env s v) (.up s) :=
    .of_reached h₀
  have hcourse := (hup.crashed hpassing (fun _ => 115) hcut).opened hassemble
  exact ⟨_, hcourse, of_decide_eq_true hids, (table_ids_never_reused Stock.env "db" hcourse).2.1⟩

/-- A crash leaves of a flush's edits the table and not the next id.  The open behind it has
table 0 live and hands out id 0; the next flush renames its table over the live one, and the
live set has the id twice. -/
theorem crash_reuses_table_id :
    ∃ s₁ s₂ s₃, Course Stock.env "db" (fun _ _ => True) (.up s₁) ∧
      (s₁.db.sstables.map SsTable.id = [0] ∧ s₁.db.nextSstId = 0) ∧
      Steps Stock.env (Fits Stock.env) s₁ s₂ ∧
      (s₂.db.sstables.map SsTable.id = [0] ∧ s₂.flusher.writtenId = some 0) ∧
      Steps Stock.env (Fits Stock.env) s₂ s₃ ∧ s₃.db.sstables.map SsTable.id = [0, 0] := by
  have hrun : ((System.start Stock.env "db" Options.default).bind
      (System.execAll Stock.env (fun _ _ => true) (System.writeSteps [([1], some [2])] ++
        [.freeze, .write, .place, .count]))).any
      (fun s => (System.exec Stock.env .record s).any fun s' =>
        decide (1 + s.w.visited.length < s'.w.visited.length) && s'.w.visited[1]?.any fun v =>
          (System.startOn Stock.env "db" Options.default (v.crash fun _ => 42)).any fun s₁ =>
            decide (s₁.db.sstables.map SsTable.id = [0] ∧ s₁.db.nextSstId = 0) &&
            (System.execAll Stock.env (fun _ _ => true) (System.writeSteps [([3], some [4])] ++
              [.freeze, .write]) s₁).any fun s₂ =>
                decide (s₂.db.sstables.map SsTable.id = [0] ∧ s₂.flusher.writtenId = some 0) &&
                (System.execAll Stock.env (fun _ _ => true) [.place, .count, .record, .publish]
                  s₂).any fun s₃ => decide (s₃.db.sstables.map SsTable.id = [0, 0])) = true := by
    decide +kernel
  obtain ⟨s, hreached, hrun⟩ := System.execAll_any hrun
  obtain ⟨s', hrecord, hrun⟩ := exists_of_any hrun
  obtain ⟨hlen, hrun⟩ := Bool.and_eq_true_iff.mp hrun
  obtain ⟨v, hv, hrun⟩ := exists_of_any hrun
  obtain ⟨s₁, hopen, hrun⟩ := exists_of_any hrun
  obtain ⟨hids₁, hrun⟩ := Bool.and_eq_true_iff.mp hrun
  obtain ⟨s₂, hsteps₂, hrun⟩ := exists_of_any hrun
  obtain ⟨hids₂, hrun⟩ := Bool.and_eq_true_iff.mp hrun
  obtain ⟨s₃, hsteps₃, hids₃⟩ := exists_of_any hrun
  have h₀ : Reached Stock.env "db" (Fits Stock.env) s := hreached.weaken fun _ _ h => h.1
  obtain ⟨held, hfiles, _⟩ := h₀.files
  have hpassing := hfiles.catalogue.passing_record (System.exec_step hrecord)
    (of_decide_eq_true hlen) hv
  obtain ⟨db, w, hassemble, rfl⟩ := System.startOn_eq_some hopen
  have hup : Course Stock.env "db" (fun _ _ => True) (.up s) := .of_reached h₀
  exact ⟨_, s₂, s₃, (hup.crashed hpassing (fun _ => 42) trivial).opened hassemble,
    of_decide_eq_true hids₁, (System.execAll_steps hsteps₂).weaken fun _ _ h => h.1,
    of_decide_eq_true hids₂, (System.execAll_steps hsteps₃).weaken fun _ _ h => h.1,
    of_decide_eq_true hids₃⟩

end LsmKv
