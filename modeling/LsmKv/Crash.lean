import LsmKv.Cuts
import LsmKv.ManifestCrash
import LsmKv.Snapshots

/-!
# A crash among writers and flushes

A crash may come inside a section: `Passing` are the volumes a system passes
through on its way to the next state.  Whatever of their unsynced bytes is lost,
the next open finds tables, a manifest and a log it can read.

**Results.**
* `Files.wreck`: what there is to recover at every volume on the way.
* `Wreck.image`: what is left of it, however the unsynced bytes are cut.
* `crash_recovers_beginning`: with a durable log the next open recovers the map after
  some beginning of the writes, with every write that had returned in it.
-/

namespace LsmKv

open Foundation Volume Versioning

/-- The steps of writers, snapshots and flushes. -/
def Label.plain : Label → Bool
  | .list | .choose | .abandon | .bound | .merge | .name | .finish | .reopen _ => false
  | _ => true

/-- Steps of writers, snapshots and flushes only. -/
def Plain (env : Env) (l : Label) (s : System) : Prop := Fits env l s ∧ l.plain = true

/-- The volumes of a system between this state and the next. -/
def Passing (env : Env) (ok : Label → System → Prop) (s : System) (v : Volume Path) : Prop :=
  v = s.w.vol ∨ ∃ l s' vs, ok l s ∧ Step env l s s' ∧ s'.w.visited = vs ++ s.w.visited ∧ v ∈ vs

/-- The edits a flush is about to record. -/
def Flusher.coming : Flusher → List VersionEdit
  | .counted _ id _ a b => flushEdits id a b
  | _ => []

/-- The live tables once `j` of these edits are recorded. -/
def Flusher.tablesAt (tables : List (Nat × List Record)) (j : Nat) :
    Flusher → List (Nat × List Record)
  | .counted m id _ _ _ => if j = 0 then tables else tables ++ [(id, m.iter)]
  | .recorded m id _ => tables ++ [(id, m.iter)]
  | _ => tables

/-- A log that holds a beginning of the bytes of `B`, at least `q` batches of it durably. -/
structure LogCut (env : Env) (dir : String) (v : Volume Path) (B : List (List Record)) (q : Nat) :
    Prop where
  fits : ∀ b ∈ B, BatchFits b
  bound : ∃ i cut n, v.Bound (walPath dir) i ((logBytes env newestLog B).take cut) n ∧
    ∀ m, n ≤ m → q ≤ wholeBatches env B (min m cut)

/-- What there is to recover in a volume: the manifest has `edits` and is getting `batch`,
with `tables j` live once `j` edits of it are there. -/
structure Wreck (env : Env) (dir : String) (v : Volume Path) (edits batch : List VersionEdit)
    (tables : Nat → List (Nat × List Record)) (B : List (List Record)) (q : Nat) : Prop where
  sound : v.Sound
  recorded : edits ≠ []
  editsFit : ∀ e ∈ edits, e.Fits
  batchFit : ∀ e ∈ batch, e.Fits
  manifest : ∃ g c i k n, g ≤ u64Max ∧
    v.Bound (currentPath dir) c (currentBytes g) (currentBytes g).length ∧
    v.Bound (manifestPath dir g) i (manifestBytes env edits ++ (editFrames env batch).take k) n ∧
    (manifestBytes env edits).length ≤ n
  live : ∀ j ≤ batch.length,
    (applyAll (edits ++ batch.take j)).liveTables.keys = (tables j).map Prod.fst
  fit : ∀ j ≤ batch.length, TablesFit env (tables j)
  files : ∀ j ≤ batch.length, ∀ t ∈ tables j, ∃ i,
    v.Bound (sstPath dir t.1) i (tableBytes env t.2) (tableBytes env t.2).length
  log : LogCut env dir v B q

/-- The same without a word about the log, for generation `g` of the manifest. -/
structure Salvage (env : Env) (dir : String) (g : Nat) (v : Volume Path)
    (edits batch : List VersionEdit) (tables : Nat → List (Nat × List Record)) : Prop where
  sound : v.Sound
  recorded : edits ≠ []
  editsFit : ∀ e ∈ edits, e.Fits
  batchFit : ∀ e ∈ batch, e.Fits
  generation : g ≤ u64Max
  current : ∃ c, v.Bound (currentPath dir) c (currentBytes g) (currentBytes g).length
  manifest : ∃ i k n,
    v.Bound (manifestPath dir g) i (manifestBytes env edits ++ (editFrames env batch).take k) n ∧
    (manifestBytes env edits).length ≤ n
  live : ∀ j ≤ batch.length,
    (applyAll (edits ++ batch.take j)).liveTables.keys = (tables j).map Prod.fst
  fit : ∀ j ≤ batch.length, TablesFit env (tables j)
  files : ∀ j ≤ batch.length, ∀ t ∈ tables j, ∃ i,
    v.Bound (sstPath dir t.1) i (tableBytes env t.2) (tableBytes env t.2).length

/-- Tables and manifest as an open finds them, all of them durable. -/
structure Shelf (env : Env) (dir : String) (v : Volume Path) (st : ManifestState)
    (tables : List (Nat × List Record)) : Prop where
  rests : Rests env dir v st
  ids : st.liveTables.keys = tables.map Prod.fst
  fit : TablesFit env tables
  files : ∀ t ∈ tables, ∃ i,
    v.Bound (sstPath dir t.1) i (tableBytes env t.2) (tableBytes env t.2).length

section Cut

variable {env : Env} {dir : String} {v : Volume Path} {B : List (List Record)} {q : Nat}
variable {edits batch : List VersionEdit} {tables : Nat → List (Nat × List Record)} {g : Nat}

theorem Wreck.salvage (h : Wreck env dir v edits batch tables B q) :
    ∃ g, Salvage env dir g v edits batch tables := by
  obtain ⟨g, c, i, k, n, hg, hcur, hman, hn⟩ := h.manifest
  exact ⟨g, h.sound, h.recorded, h.editsFit, h.batchFit, hg, ⟨c, hcur⟩, ⟨i, k, n, hman, hn⟩,
    h.live, h.fit, h.files⟩

theorem Salvage.wreck (h : Salvage env dir g v edits batch tables) (hlog : LogCut env dir v B q) :
    Wreck env dir v edits batch tables B q := by
  obtain ⟨c, hcur⟩ := h.current
  obtain ⟨i, k, n, hman, hn⟩ := h.manifest
  exact ⟨h.sound, h.recorded, h.editsFit, h.batchFit, ⟨g, c, i, k, n, h.generation, hcur, hman, hn⟩,
    h.live, h.fit, h.files, hlog⟩

/-- However the unsynced bytes are cut, an open finds the edits whose frames are whole. -/
theorem Salvage.crash (h : Salvage env dir g v edits batch tables) (keep : Nat → Nat) :
    ∃ j ≤ batch.length,
      Shelf env dir (v.crash keep) (applyAll (edits ++ batch.take j)) (tables j) ∧
      ∃ x, (v.crash keep).file (manifestPath dir g) = some x ∧
        j = wholeEdits env batch (x.bytes.length - (manifestBytes env edits).length) := by
  obtain ⟨c, hcur⟩ := h.current
  obtain ⟨i, e, n, hman, hn⟩ := h.manifest
  obtain ⟨m, hm, hman'⟩ := hman.crash keep
  set part := (editFrames env batch).take (min (m - (manifestBytes env edits).length) e) with hpart
  have hcut : (manifestBytes env edits ++ (editFrames env batch).take e).take m =
      manifestBytes env edits ++ part := by
    rw [List.take_append, List.take_of_length_le (hn.trans hm), List.take_take]
  have hframes : part = (editFrames env batch).take part.length := by
    rw [hpart, List.length_take, List.take_eq_take_iff]
    omega
  rw [hcut] at hman'
  have hle := wholeEdits_le env batch part.length
  have hreplay : replayManifestBytes env (manifestPath dir g) (manifestBytes env edits ++ part) =
      .ok (applyAll (edits ++ batch.take (wholeEdits env batch part.length))) := by
    have hcut : replayManifestBytes env (manifestPath dir g)
        (manifestBytes env edits ++ (editFrames env batch).take part.length) = _ :=
      replayManifest_cut h.recorded h.editsFit h.batchFit part.length
    rwa [← hframes] at hcut
  refine ⟨wholeEdits env batch part.length, hle, ?_, _, hman'.file, ?_⟩
  · exact
      { rests := ⟨h.sound.crash keep, g, c, i, _, h.generation, hcur.crash_synced le_rfl keep,
          hman', hreplay⟩
        ids := h.live _ hle
        fit := h.fit _ hle
        files := fun t ht => by
          obtain ⟨i, hb⟩ := h.files _ hle t ht
          exact ⟨i, hb.crash_synced le_rfl keep⟩ }
  · rw [List.length_append, Nat.add_sub_cancel_left]

/-- Tables and manifest beside a log that replays. -/
theorem Shelf.image {st : ManifestState} {tables : List (Nat × List Record)} {log : List Record}
    (h : Shelf env dir v st tables) (hlog : replayOption env (walBytes v dir) = .ok log) :
    Image env dir v st tables log := by
  obtain ⟨g, c, i, b, hg, hcur, hman, hst⟩ := h.rests.named
  exact ⟨h.rests.sound, ⟨g, c, _, i, b, _, hg, hcur, hman, hst⟩, h.ids, h.fit, h.files, hlog⟩

/-- A log cut by a crash replays to a beginning of its batches. -/
theorem LogCut.crash (h : LogCut env dir v B q) (keep : Nat → Nat) :
    ∃ k, q ≤ k ∧ replayOption env (walBytes (v.crash keep) dir) = .ok (B.take k).flatten := by
  obtain ⟨i, cut, n, hb, hq⟩ := h.bound
  obtain ⟨m, hm, hb'⟩ := hb.crash keep
  refine ⟨wholeBatches env B (min m cut), hq m hm, ?_⟩
  unfold walBytes
  rw [hb'.file]
  show replayBytes env (((logBytes env newestLog B).take cut).take m) = _
  rw [List.take_take, replayBytes_take h.fits]

/-- However the unsynced bytes are cut, an open finds some of the edits and some of the
batches. -/
theorem Wreck.image (h : Wreck env dir v edits batch tables B q) (keep : Nat → Nat) :
    ∃ j k, j ≤ batch.length ∧ q ≤ k ∧
      Image env dir (v.crash keep) (applyAll (edits ++ batch.take j)) (tables j)
        (B.take k).flatten := by
  obtain ⟨g, hsalvage⟩ := h.salvage
  obtain ⟨j, hj, hshelf, _⟩ := hsalvage.crash keep
  obtain ⟨k, hk, hlog⟩ := h.log.crash keep
  exact ⟨j, k, hj, hk, hshelf.image hlog⟩

end Cut

section Passing

variable {env : Env} {s : System} {held : Held} {v : Volume Path}

/-- How far a log of `log` is durable. -/
def Durably (env : Env) (dir : String) (v : Volume Path) (log : List (List Record)) (q : Nat) :
    Prop :=
  q = 0 ∨ q ≤ log.length ∧
    ∀ i n, v.Bound (walPath dir) i (logBytes env newestLog log) n →
      (logBytes env newestLog log).length ≤ n

theorem length_logBytes_take (env : Env) (log : List (List Record)) (q : Nat) :
    (logBytes env newestLog (log.take q)).length ≤ (logBytes env newestLog log).length := by
  conv_rhs => rw [← List.take_append_drop q log, logBytes_append, List.length_append]
  omega

/-- A log with some part of one more batch behind it. -/
theorem logCut_append {dir : String} {v₀ : Volume Path} {log : List (List Record)}
    (more : List (List Record)) {i n n' k q : Nat} (hfits : ∀ b ∈ log ++ more, BatchFits b)
    (hb : v₀.Bound (walPath dir) i (logBytes env newestLog log) n)
    (hq : Durably env dir v₀ log q) (hn : n ≤ n')
    (hb' : v.Bound (walPath dir) i (logBytes env newestLog log ++
      (frames ((walChecksum newestLog).hash env) (logPayloads newestLog more)).take k) n') :
    LogCut env dir v (log ++ more) q := by
  refine ⟨hfits, i, (logBytes env newestLog log).length + k, n', ?_, fun m hm => ?_⟩
  · rw [logBytes_append, List.take_append, List.take_of_length_le (Nat.le_add_right _ _),
      Nat.add_sub_cancel_left]
    exact hb'
  · rcases hq with rfl | ⟨hle, hdur⟩
    · exact Nat.zero_le _
    · have hlen := length_logBytes_take env log q
      have := hdur i n hb
      refine le_wholeBatches (by rw [List.length_append]; omega) ?_
      rw [List.take_append_of_le_length hle]
      omega

/-- The log as it is. -/
theorem logCut_self {dir : String} {log : List (List Record)} {i n q : Nat}
    (hfits : ∀ b ∈ log, BatchFits b)
    (hb : v.Bound (walPath dir) i (logBytes env newestLog log) n)
    (hq : Durably env dir v log q) : LogCut env dir v log q := by
  have := logCut_append [] (k := 0) (by simpa using hfits) hb hq le_rfl (by simpa using hb)
  simpa using this

/-- The tables that may be live after a crash, and their files. -/
theorem Catalogue.tablesAt (h : Catalogue env s held) (hold : s.compactor.replaced = none)
    {j : Nat}
    (hj : j ≤ s.flusher.coming.length) :
    (applyAll (held.edits ++ s.flusher.coming.take j)).liveTables.keys =
        (s.flusher.tablesAt held.tables j).map Prod.fst ∧
      TablesFit env (s.flusher.tablesAt held.tables j) ∧
      ∀ t ∈ s.flusher.tablesAt held.tables j, ∃ i, s.w.vol.Bound (sstPath s.db.dir t.1) i
        (tableBytes env t.2) (tableBytes env t.2).length := by
  have hfiles : ∀ t ∈ held.tables, ∃ i, s.w.vol.Bound (sstPath s.db.dir t.1) i
      (tableBytes env t.2) (tableBytes env t.2).length := fun t ht =>
    h.files t ht (by simp [hold])
  have hbehind : ∀ {m : MemTable} {id : Nat}, (∃ i, s.w.vol.Bound (sstPath s.db.dir id) i
      (tableBytes env m.iter) (tableBytes env m.iter).length) →
      ∀ t ∈ held.tables ++ [(id, m.iter)], ∃ i, s.w.vol.Bound (sstPath s.db.dir t.1) i
        (tableBytes env t.2) (tableBytes env t.2).length := by
    intro m id hplaced t ht
    rcases List.mem_append.mp ht with ht | ht
    · exact hfiles t ht
    · rw [List.mem_singleton.mp ht]
      exact hplaced
  have hback := h.flusher
  have hlive := h.live
  cases hflush : s.flusher with
  | counted m id table a b =>
      rw [hflush] at hback hlive hj
      obtain ⟨hf, _, ⟨i, _, hb⟩, _⟩ := hback
      have hold : (applyAll held.edits).liveTables.keys = held.tables.map Prod.fst :=
        hlive.trans (List.append_nil _)
      have hkeys : ∀ x ∈ (applyAll held.edits).liveTables.keys, x < id := by
        rw [hold]
        intro x hx
        obtain ⟨t, ht, rfl⟩ := List.mem_map.mp hx
        exact hf.above t ht
      cases j with
      | zero => exact ⟨by rw [List.take_zero, List.append_nil]; exact hold, h.fit, hfiles⟩
      | succ j =>
          refine ⟨?_, h.fit.concat hf.fits (sortedRun_iter m), hbehind ⟨i, hb⟩⟩
          have hinsert : (applyAll (held.edits ++ (flushEdits id a b).take (j + 1))).liveTables =
              (applyAll held.edits).liveTables.insert id () := by
            rw [applyAll_append]
            rcases j with _ | _ | j
            · rfl
            · rfl
            · rw [List.take_of_length_le (by simp [flushEdits])]
              rfl
          show (applyAll (held.edits ++ (flushEdits id a b).take (j + 1))).liveTables.keys =
            (held.tables ++ [(id, m.iter)]).map Prod.fst
          rw [hinsert, keys_insert_last hkeys, hold, List.map_append, List.map_singleton]
  | recorded m id table =>
      rw [hflush] at hback hlive
      obtain ⟨hf, _, ⟨i, _, hb⟩⟩ := hback
      refine ⟨?_, h.fit.concat hf.fits (sortedRun_iter m), hbehind ⟨i, hb⟩⟩
      show (applyAll (held.edits ++ List.take j [])).liveTables.keys =
        (held.tables ++ [(id, m.iter)]).map Prod.fst
      rw [List.take_nil, List.append_nil, hlive, List.map_append]
      rfl
  | free | frozen m | written m id | placed m id table | published m | relogged m =>
      rw [hflush] at hlive
      refine ⟨?_, h.fit, hfiles⟩
      show (applyAll (held.edits ++ List.take j [])).liveTables.keys = held.tables.map Prod.fst
      rw [List.take_nil, List.append_nil]
      exact hlive.trans (List.append_nil _)

theorem Catalogue.coming_fit (h : Catalogue env s held) : ∀ e ∈ s.flusher.coming, e.Fits := by
  have hback := h.flusher
  cases hflush : s.flusher with
  | counted m id table a b =>
      rw [hflush] at hback
      obtain ⟨hf, _, _, ha, hb⟩ := hback
      exact hf.edits_fit ha hb
  | _ => simp [Flusher.coming]

/-- What there is to recover where no table has changed. -/
theorem Catalogue.salvage (h : Catalogue env s held) (hold : s.compactor.replaced = none)
    {ps : List Path} (hsame : SameExcept ps s.w.vol v) (hcur : currentPath s.db.dir ∉ ps)
    (hps : ∀ j ≤ s.flusher.coming.length, ∀ t ∈ s.flusher.tablesAt held.tables j,
      sstPath s.db.dir t.1 ∉ ps)
    (hman : ∃ i k n, v.Bound (manifestPath s.db.dir s.db.manifest.generation) i
        (manifestBytes env held.edits ++ (editFrames env s.flusher.coming).take k) n ∧
      (manifestBytes env held.edits).length ≤ n) :
    Salvage env s.db.dir s.db.manifest.generation v held.edits s.flusher.coming
      (fun j => s.flusher.tablesAt held.tables j) := by
  obtain ⟨g, i, hopen⟩ := h.manifest
  obtain rfl : s.db.manifest.generation = g := by rw [hopen.handle]; rfl
  obtain ⟨c, hc⟩ := hopen.live.named.current
  exact
    { sound := hsame.sound h.sound
      recorded := h.recorded
      editsFit := hopen.fits
      batchFit := h.coming_fit
      generation := hopen.generation
      current := ⟨c, hc.same hsame hcur⟩
      manifest := hman
      live := fun j hj => (h.tablesAt hold hj).1
      fit := fun j hj => (h.tablesAt hold hj).2.1
      files := fun j hj t ht => by
        obtain ⟨i, hb⟩ := (h.tablesAt hold hj).2.2 t ht
        exact ⟨i, hb.same hsame (hps j hj t ht)⟩ }

/-- The manifest as it is. -/
theorem Catalogue.manifestPart (h : Catalogue env s held) {ps : List Path}
    (hsame : SameExcept ps s.w.vol v) (hman : ∀ g, manifestPath s.db.dir g ∉ ps)
    (batch : List VersionEdit) :
    ∃ i k n, v.Bound (manifestPath s.db.dir s.db.manifest.generation) i
        (manifestBytes env held.edits ++ (editFrames env batch).take k) n ∧
      (manifestBytes env held.edits).length ≤ n := by
  obtain ⟨g, i, hopen⟩ := h.manifest
  obtain rfl : s.db.manifest.generation = g := by rw [hopen.handle]; rfl
  refine ⟨i, 0, _, ?_, le_rfl⟩
  rw [List.take_zero, List.append_nil]
  exact hopen.live.holds.same hsame (hman _)

/-- Records that are numbered and not in the log yet. -/
def Writer.unlogged : Writer → List (List Record)
  | .numbered records => [records]
  | _ => []

/-- What the log of a volume may be on the way to the next state: what it was, with some
part of the batch a writer is logging, or rewritten. -/
def LogOnWay (env : Env) (s : System) (held : Held) (v : Volume Path) (q : Nat)
    (B : List (List Record)) (q' : Nat) : Prop :=
  LogCut env s.db.dir v B q' ∧
    ((q' = q ∧ (B = held.log ∨ ∃ records, s.writer = .numbered records ∧
      B = held.log ++ [records])) ∨
    (q' = B.length ∧ B = s.db.active.iter.map (fun r => [r]) ∧ s.writer = .free ∧
      ∃ m, s.flusher = .published m))

/-- Where the log is on the way to the next state: the file it was, with some part of the
batch a writer is logging behind it, or the one a flush has replaced it by. -/
inductive LogWay (env : Env) (s : System) (held : Held) (v : Volume Path) : Prop
  | kept (more : List (List Record)) (k : Nat) {i n₀ n : Nat} (begins : more <+: s.writer.unlogged)
      (fits : ∀ b ∈ held.log ++ more, BatchFits b)
      (was : s.w.vol.Bound (walPath s.db.dir) i (logBytes env newestLog held.log) n₀)
      (bound : v.Bound (walPath s.db.dir) i (logBytes env newestLog held.log ++
        (frames ((walChecksum newestLog).hash env) (logPayloads newestLog more)).take k) n)
      (durable : n₀ ≤ n)
  | replaced {i : Nat} {m : MemTable} (free : s.writer = .free) (stage : s.flusher = .published m)
      (name : s.w.vol.lookup (walPath s.db.dir) ≠ some i)
      (fits : ∀ b ∈ s.db.active.iter.map (fun r => [r]), BatchFits b)
      (bound : v.Bound (walPath s.db.dir) i
        (logBytes env newestLog (s.db.active.iter.map (fun r => [r])))
        (logBytes env newestLog (s.db.active.iter.map (fun r => [r]))).length)

theorem LogWay.onWay (h : LogWay env s held v) {q : Nat}
    (hq : Durably env s.db.dir s.w.vol held.log q) : ∃ B q', LogOnWay env s held v q B q' := by
  cases h with
  | @kept more k i n₀ n begins fits was bound durable =>
      refine ⟨_, q, logCut_append more fits was hq durable bound, Or.inl ⟨rfl, ?_⟩⟩
      cases hw : s.writer with
      | numbered records =>
          rw [hw, Writer.unlogged, List.prefix_cons_iff] at begins
          rcases begins with rfl | ⟨rest, rfl, hrest⟩
          · exact Or.inl (List.append_nil _)
          · rw [List.prefix_nil.mp hrest]
            exact Or.inr ⟨records, rfl, rfl⟩
      | _ =>
          rw [hw] at begins
          rw [List.prefix_nil.mp begins]
          exact Or.inl (List.append_nil _)
  | @replaced i m free stage name fits bound =>
      refine ⟨_, _, logCut_self fits bound (Or.inr ⟨le_rfl, fun i n hb => ?_⟩),
        Or.inr ⟨rfl, rfl, free, m, stage⟩⟩
      exact le_of_eq (bound.unique hb).2.2

/-- Where neither the log nor its name is touched. -/
theorem Files.logWay_same (h : Files env s held) {ps : List Path} (hsame : SameExcept ps s.w.vol v)
    (hwal : walPath s.db.dir ∉ ps) : LogWay env s held v := by
  obtain ⟨i, n, hlog⟩ := h.log
  refine .kept [] 0 List.nil_prefix (by simpa using h.batches) hlog.bound ?_
    le_rfl
  simpa using hlog.bound.same hsame hwal

/-- Where the log is while it is replaced. -/
theorem Files.logWay_relog (h : Files env s held) {s' : System} (hstep : Step env .relog s s')
    (hv : s.w.Passes s'.w v) : LogWay env s held v := by
  obtain ⟨w₁, i, u, hrun₁, hbound, hsame, hvol, hgrew⟩ :=
    replaceWal_quiet env s.db h.quiet h.sound
  -- the fresh file is another one than the log it replaces
  have hname : s.w.vol.lookup (walPath s.db.dir) ≠ some i := by
    intro heq
    rw [← hsame.names _ (by simp)] at heq
    have := (hsame.sound h.sound).alone (by simp) hbound.name heq
    simp at this
  have hfits : ∀ b ∈ s.db.active.iter.map (fun r => [r]), BatchFits b := by
    intro b hb
    obtain ⟨r, hr, rfl⟩ := List.mem_map.mp hb
    exact h.memory r hr
  have hrenamed := hbound.rename (q := walPath s.db.dir)
  rw [← hvol] at hrenamed
  cases hstep with
  | relog stage free run =>
      cases (rewriteWal_of_replaceWal hrun₁).symm.trans run
      rcases hgrew.passes_before hv with rfl | hv
      · exact .replaced free stage hname hfits (hrenamed.syncNames _)
      · rcases hgrew.of_passes hv with hsame | rfl
        · exact h.logWay_same hsame (by simp)
        · exact .replaced free stage hname hfits hrenamed

/-- Where the log is at every volume on the way to the next state. -/
theorem Files.logWay (h : Files env s held) (hv : Passing env (Plain env) s v) :
    LogWay env s held v := by
  rcases hv with rfl | ⟨l, s', vs, ⟨hfits, hplain⟩, hstep, hvs, hmem⟩
  · exact h.logWay_same (.refl [] _) (by simp)
  have hpass : s.w.Passes s'.w v := ⟨vs, hvs, hmem⟩
  obtain ⟨held', heff, _⟩ := h.step hfits hstep
  cases heff with
  | @log _ _ w records stage fits synced same grew =>
      obtain ⟨i, n, hb, happ⟩ := grew.of_passes hpass
      obtain ⟨k, m, hm, hb'⟩ := happ.part
      have hun : s.writer.unlogged = [records] := by rw [stage]; rfl
      refine .kept [records] k (hun ▸ List.prefix_rfl) (fun b hb => ?_) hb
        (by simpa [logPayloads] using hb') hm
      rcases List.mem_append.mp hb with hb | hb
      · exact h.batches b hb
      · rw [List.mem_singleton.mp hb]
        exact fits
  | relog => exact h.logWay_relog hstep hpass
  | write stage same grew => exact h.logWay_same (grew.of_passes hpass) (by simp)
  | place table stage covered same grew => exact h.logWay_same (grew.of_passes hpass) (by simp)
  | record stage manifest same grew => exact h.logWay_same (grew.of_passes hpass).same (by simp)
  | number | insert | freeze | count | publish | clear | load | register | drop =>
      exact (World.not_passes_self hpass).elim
  | list | choose | abandon | bound | merge | name | finish | reopen => cases hplain

/-- The tables and the manifest there are to recover at every volume on the way to the next
state. -/
theorem Files.salvage (h : Files env s held) (hfree : s.compactor = .free)
    (hv : Passing env (Plain env) s v) :
    Salvage env s.db.dir s.db.manifest.generation v held.edits s.flusher.coming
      (fun j => s.flusher.tablesAt held.tables j) := by
  have hcat := h.catalogue
  have hold : s.compactor.replaced = none := by rw [hfree]; rfl
  -- where neither the manifest nor a table is touched
  have haside : ∀ {ps : List Path} {v : Volume Path}, SameExcept ps s.w.vol v →
      currentPath s.db.dir ∉ ps → (∀ g, manifestPath s.db.dir g ∉ ps) →
      (∀ j ≤ s.flusher.coming.length, ∀ t ∈ s.flusher.tablesAt held.tables j,
        sstPath s.db.dir t.1 ∉ ps) →
      Salvage env s.db.dir s.db.manifest.generation v held.edits s.flusher.coming
        (fun j => s.flusher.tablesAt held.tables j) := fun hsame hcur hman hps =>
    hcat.salvage hold hsame hcur hps (hcat.manifestPart hsame hman _)
  rcases hv with rfl | ⟨l, s', vs, ⟨hfits, hplain⟩, hstep, hvs, hmem⟩
  · exact haside (.refl [] _) (by simp) (by simp) (by simp)
  have hpass : s.w.Passes s'.w v := ⟨vs, hvs, hmem⟩
  obtain ⟨held', heff, _⟩ := h.step hfits hstep
  cases heff with
  | log stage fits synced same grew =>
      obtain ⟨i', n', hb, happ⟩ := grew.of_passes hpass
      exact haside happ.same (by simp) (by simp) (by simp)
  | write stage same grew => exact haside (grew.of_passes hpass) (by simp) (by simp) (by simp)
  | place table stage covered same grew =>
      have hback := h.flusher
      rw [stage] at hback
      have hpaths := above_paths s.db.dir hback.1.above
      refine haside (grew.of_passes hpass) (by simp) (by simp) ?_
      rw [stage]
      exact fun j _ t ht => (hpaths t ht).2
  | @record _ _ w m id table a b g j stage manifest same grew =>
      have happ := grew.of_passes hpass
      obtain ⟨k, n', hn', hb'⟩ := happ.part
      obtain rfl : s.db.manifest.generation = g := by rw [manifest.handle]; rfl
      refine hcat.salvage hold happ.same (by simp) (by simp) ?_
      rw [stage]
      exact ⟨j, k, n', hb', hn'⟩
  | relog wal stage free synced covered same grew =>
      rcases grew.of_passes hpass with hsame | ⟨hsame, _⟩
      · exact haside hsame (by simp) (by simp) (by simp)
      · exact haside hsame (by simp) (by simp) (by simp)
  | number | insert | freeze | count | publish | clear | load | register | drop =>
      exact (World.not_passes_self hpass).elim
  | list | choose | abandon | bound | merge | name | finish | reopen => cases hplain

/-- What there is to recover at every volume on the way to the next state. -/
theorem Files.wreck (h : Files env s held) (hfree : s.compactor = .free) {q : Nat}
    (hq : Durably env s.db.dir s.w.vol held.log q) (hv : Passing env (Plain env) s v) :
    ∃ B q', LogOnWay env s held v q B q' ∧
      Wreck env s.db.dir v held.edits s.flusher.coming
        (fun j => s.flusher.tablesAt held.tables j) B q' := by
  obtain ⟨B, q', hway⟩ := (h.logWay hv).onWay hq
  exact ⟨B, q', hway, (h.salvage hfree hv).wreck hway.1⟩

end Passing

section Runs

variable {env : Env} {dir : String} {s s' : System} {held held' : Held} {l : Label}

/-- A durable log is durable once it has a batch. -/
def Logged (s : System) (held : Held) : Prop :=
  s.db.opts.syncWal = .durable → held.log ≠ [] → Files.LogSynced s.db.dir s.w.vol

theorem Files.LogSynced.same {v v' : Volume Path} {ps : List Path} (h : Files.LogSynced dir v)
    (hsame : SameExcept ps v v') (hwal : walPath dir ∉ ps) : Files.LogSynced dir v' := by
  intro x hx
  rw [hsame.files _ hwal] at hx
  exact h x hx

theorem Logged.step (h : Logged s held) (hl : l.plain = true)
    (heff : Effect env l s held s' held') : Logged s' held' := by
  cases heff with
  | log stage fits synced same grew => exact fun hsync _ => synced hsync
  | write stage same grew => exact fun hsync hne => (h hsync hne).same same (by simp)
  | place table stage covered same grew =>
      exact fun hsync hne => (h hsync hne).same same (by simp)
  | record stage manifest same grew => exact fun hsync hne => (h hsync hne).same same (by simp)
  | relog wal stage free synced covered same grew => exact fun _ _ => synced
  | list | choose | abandon | bound | merge | name | finish | reopen => cases hl
  | _ => exact h

theorem Logged.durably (env : Env) (h : Logged s held)
    (hsync : s.db.opts.syncWal = .durable) :
    Durably env s.db.dir s.w.vol held.log held.log.length := by
  by_cases hne : held.log = []
  · exact Or.inl (by rw [hne]; rfl)
  · refine Or.inr ⟨le_rfl, fun i n hb => ?_⟩
    exact le_of_eq (h hsync hne _ hb.file).symm

/-- What holds along runs of writers and flushes, with whatever else their steps keep. -/
theorem Reached.plain_with (h : Reached env dir (Plain env) s) {Q : System → Held → Prop}
    (hstart : ∀ s held, s.written = [] → s.writer = .free → s.loggedFrom = 0 → held.log = [] →
      Q s held)
    (hkeep : ∀ l s s' held held', Files env s' held' → Ledger s held → l.plain = true →
      Effect env l s held s' held' → Q s held → Q s' held') :
    s.compactor = .free ∧ s.droppedAt = 0 ∧
      ∃ held, Files env s held ∧ Ledger s held ∧ Logged s held ∧ Q s held := by
  obtain ⟨opts, v, db, w, hfresh, hopen, hrun⟩ := h
  obtain ⟨db', w', hopen', hopened, hfiles⟩ := Files.fresh (w := World.start v) env opts
    (World.quiet_start v) (by simp [World.start]) hfresh
  cases hopen'.symm.trans hopen
  have hactive : db.active.iter = [] := by
    rw [show db.active = _ from (Prod.ext_iff.mp hopened.memory).1]
    rfl
  refine hrun.keeps (P := fun s => s.compactor = .free ∧ s.droppedAt = 0 ∧
    ∃ held, Files env s held ∧ Ledger s held ∧ Logged s held ∧ Q s held) ?_
    ⟨rfl, rfl, _, hfiles, Ledger.opened hactive, fun _ hne => absurd rfl hne,
      hstart _ _ rfl rfl rfl rfl⟩
  rintro l a b ⟨hcomp, hdropped, held, hf, hl, hsync, hQ⟩ ⟨hfits, hplain⟩ hstep
  obtain ⟨held', heff, hf'⟩ := hf.step hfits hstep
  have hside : b.compactor = .free ∧ b.droppedAt = 0 := by
    cases hstep with
    | list | choose | abandon | bound | merge | name | finish | reopen => cases hplain
    | _ => exact ⟨hcomp, hdropped⟩
  exact ⟨hside.1, hside.2, held', hf', hl.step hf.toStored heff, hsync.step hplain heff,
    hkeep l a b held held' hf' hl hplain heff hQ⟩

theorem Reached.plain (h : Reached env dir (Plain env) s) :
    s.compactor = .free ∧ s.droppedAt = 0 ∧
      ∃ held, Files env s held ∧ Ledger s held ∧ Logged s held := by
  obtain ⟨hfree, hdropped, held, hf, hl, hsync, -⟩ := h.plain_with (Q := fun _ _ => True)
    (fun _ _ _ _ _ _ => trivial) (fun _ _ _ _ _ _ _ _ _ _ => trivial)
  exact ⟨hfree, hdropped, held, hf, hl, hsync⟩

end Runs

section Recovered

variable {env : Env} {dir : String} {s : System} {held : Held}

/-- How many batches the tables hold once `j` of the coming edits are recorded. -/
def System.tabledAt (s : System) (j : Nat) : Nat :=
  match s.flusher with
  | .counted .. => if j = 0 then s.publishedAt else s.frozenAt
  | .recorded .. => s.frozenAt
  | _ => s.publishedAt

/-- The tables that may be live after a crash keep a beginning of the history. -/
theorem Ledger.tablesAt (h : Ledger s held) (j : Nat) :
    s.publishedAt ≤ s.tabledAt j ∧ s.tabledAt j ≤ s.written.length ∧
      (s.flusher.tablesAt held.tables j).Pairwise
        (fun a b => ∀ r ∈ a.2, ∀ r' ∈ b.2, r.seq < r'.seq) ∧
      ∀ x, (∀ r ∈ s.written.flatten, r.seq < x) →
        recordVersions.StandsFor (pool ((s.flusher.tablesAt held.tables j).map Prod.snd))
          (ofList (span s.written 0 (s.tabledAt j))) (ofList (span s.written 0 s.droppedAt)) x := by
  have hnow : s.publishedAt ≤ s.publishedAt ∧ s.publishedAt ≤ s.written.length ∧
      held.tables.Pairwise (fun a b => ∀ r ∈ a.2, ∀ r' ∈ b.2, r.seq < r'.seq) ∧
      ∀ x, (∀ r ∈ s.written.flatten, r.seq < x) →
        recordVersions.StandsFor (pool (held.tables.map Prod.snd))
          (ofList (span s.written 0 s.publishedAt)) (ofList (span s.written 0 s.droppedAt)) x :=
    ⟨le_rfl, h.publishedAt_le.trans h.frozenAt, h.levels,
      fun x hx => h.kept x fun r hr => hx r (mem_span hr)⟩
  have hsoon : ∀ (m : MemTable) (id : Nat), s.flusher.slot = some m →
      s.flusher.unpublished = true → s.publishedAt ≤ s.frozenAt ∧ s.frozenAt ≤ s.written.length ∧
      (held.tables ++ [(id, m.iter)]).Pairwise
        (fun a b => ∀ r ∈ a.2, ∀ r' ∈ b.2, r.seq < r'.seq) ∧
      ∀ x, (∀ r ∈ s.written.flatten, r.seq < x) →
        recordVersions.StandsFor (pool ((held.tables ++ [(id, m.iter)]).map Prod.snd))
          (ofList (span s.written 0 s.frozenAt)) (ofList (span s.written 0 s.droppedAt)) x := by
    intro m id hslot hunpub
    refine ⟨h.publishedAt_le, h.frozenAt, ?_, fun x hx =>
      h.standsFor_publish hslot hunpub id (h.kept x fun r hr => hx r (mem_span hr))⟩
    refine List.pairwise_append.mpr ⟨h.levels, List.pairwise_singleton _ _, ?_⟩
    intro a ha b hb r hr r' hr'
    rw [List.mem_singleton.mp hb] at hr'
    exact h.frozen_newer hslot hunpub hr'
      (h.tables_subset ⟨a.2, List.mem_map.mpr ⟨a, ha, rfl⟩, hr⟩)
  unfold System.tabledAt
  cases hflush : s.flusher with
  | counted m id table a b =>
      rw [hflush] at hsoon
      by_cases hj : j = 0
      · simpa [Flusher.tablesAt, hj] using hnow
      · simpa [Flusher.tablesAt, hj] using hsoon m id rfl rfl
  | recorded m id table =>
      rw [hflush] at hsoon
      exact hsoon m id rfl rfl
  | _ => exact hnow

/-- Everything that was ever numbered, batch by batch. -/
def System.history (s : System) : List (List Record) := s.written ++ s.writer.batches

theorem Ledger.history_rising (h : Ledger s held) : recordVersions.Rising s.history.flatten := by
  unfold System.history
  rw [List.flatten_append, Writer.flatten_batches]
  exact h.rising

theorem System.written_subset_history (s : System) {r : Record} (hr : r ∈ s.written.flatten) :
    r ∈ s.history.flatten := by
  unfold System.history
  rw [List.flatten_append]
  exact List.mem_append_left _ hr

theorem Ledger.history_below (h : Ledger s held) (hseq : s.db.nextSeq ≤ u64Max) :
    ∀ r ∈ s.history.flatten, r.seq < u64Max := by
  intro r hr
  unfold System.history at hr
  rw [List.flatten_append, Writer.flatten_batches] at hr
  exact lt_of_lt_of_le (h.below r hr) hseq

/-- A log of which nothing durable is lost holds the history from some published batch
on, with every inserted batch. -/
theorem Ledger.log_span {v : Volume Path} {B : List (List Record)} {q' k : Nat}
    (h : Ledger s held) (hway : LogOnWay env s held v held.log.length B q') (hk : q' ≤ k) :
    ∃ a n, s.loggedFrom ≤ a ∧ a ≤ s.publishedAt ∧ s.written.length ≤ n ∧
      n ≤ s.history.length ∧ ofList (B.take k).flatten = ofList (span s.history a n) := by
  have hlen := h.loggedFrom_le
  have hpub := h.loggedFrom_le_publishedAt
  have hbegin : ∀ i, span s.history i s.written.length = span s.written i s.written.length :=
    fun i => span_begins (List.prefix_append _ _) le_rfl
  have hmore : ∀ records, s.writer.batches = [records] →
      ofList (span s.history s.loggedFrom s.history.length) =
        ofList (span s.written s.loggedFrom s.written.length) ∪ ofList records := by
    intro records hbatch
    unfold System.history
    rw [hbatch, span_concat hlen, ofList_append]
  have hlogged := h.logged
  rcases hway.2 with ⟨rfl, hB | ⟨records, hstage, rfl⟩⟩ | ⟨rfl, hB, hfree, m, hstage⟩
  · rw [hB, List.take_of_length_le hk]
    cases hw : s.writer with
    | free =>
        refine ⟨s.loggedFrom, s.written.length, le_rfl, hpub, le_rfl, by simp [System.history], ?_⟩
        rw [hbegin, hlogged, hw]
        simp [Writer.ahead, ofList]
    | numbered records =>
        refine ⟨s.loggedFrom, s.written.length, le_rfl, hpub, le_rfl, by simp [System.history], ?_⟩
        rw [hbegin, hlogged, hw]
        simp [Writer.ahead, ofList]
    | logged records =>
        refine ⟨s.loggedFrom, s.history.length, le_rfl, hpub, by simp [System.history], le_rfl, ?_⟩
        rw [hmore records (by rw [hw]; rfl), hlogged, hw]
        simp [Writer.ahead]
  · rw [hstage] at hlogged
    rcases Nat.lt_or_ge held.log.length k with hlt | hge
    · refine ⟨s.loggedFrom, s.history.length, le_rfl, hpub, by simp [System.history], le_rfl, ?_⟩
      rw [List.take_of_length_le (by rw [List.length_append]; exact hlt),
        hmore records (by rw [hstage]; rfl), List.flatten_append, ofList_append, hlogged]
      simp [Writer.ahead, ofList]
    · refine ⟨s.loggedFrom, s.written.length, le_rfl, hpub, le_rfl, by simp [System.history], ?_⟩
      rw [le_antisymm hge hk, List.take_left, hbegin, hlogged]
      simp [Writer.ahead, ofList]
  · have hpublished := h.traced.published
    rw [hstage] at hpublished
    have hflat : (s.db.active.iter.map (fun r => [r])).flatten = s.db.active.iter := by
      rw [← List.flatMap_def, List.flatMap_singleton']
    have hat : s.publishedAt = s.frozenAt := hpublished
    refine ⟨s.frozenAt, s.written.length, hpub.trans (le_of_eq hat), le_of_eq hat.symm, le_rfl,
      by simp [System.history], ?_⟩
    rw [List.take_of_length_le hk, hB, hflat, h.active, hbegin]

section Opened

variable {w : World} {opts : Options} {db : DbInner} {st : ManifestState}
variable {tables : List (Nat × List Record)} {log : List Record} {wal : Bytes}

/-- A handle after an open has the replayed records in memory. -/
theorem Opened.active (h : Opened env dir opts w.vol db st tables log wal)
    (hone : recordVersions.OnePerSeq (ofList log)) : ofList db.active.iter = ofList log := by
  rw [show db.active = _ from (Prod.ext_iff.mp h.memory).1, replayInto_fst, ofList_iter_foldl]
  · simp [ofList]
  · intro a ha b hb hv
    rw [MemTable.iter_new, List.nil_append] at ha
    exact OnePerSeq.version hone ha hb hv

/-- It serves the replayed records and the live tables. -/
theorem Opened.serves (h : Opened env dir opts w.vol db st tables log wal) (hs : w.vol.Sound)
    (hfit : TablesFit env tables) (hone : recordVersions.OnePerSeq (ofList log))
    (hseq : ∀ r ∈ log, r.seq ≤ u64Max) : Serves env w.vol db tables := by
  refine h.serves_tables hs hfit fun r hr => ?_
  have hmem : r ∈ ofList db.active.iter := hr
  rw [h.active hone] at hmem
  exact hseq r hmem

end Opened

/-- The next open after a crash succeeds with what is left. -/
theorem Wreck.opened {v : Volume Path} {edits batch : List VersionEdit}
    {tables : Nat → List (Nat × List Record)} {B : List (List Record)} {q : Nat}
    (h : Wreck env dir v edits batch tables B q) (keep : Nat → Nat) (opts : Options) :
    ∃ j k db w' wal, q ≤ k ∧
      replayOption env (walBytes (v.crash keep) dir) = .ok (B.take k).flatten ∧
      (assemble env dir opts : M Unit DbInner) () (World.start (v.crash keep)) =
        (.ok db, (), w') ∧
      w'.Quiet ∧ w'.vol.Sound ∧ TablesFit env (tables j) ∧
      Opened env dir opts w'.vol db (applyAll (edits ++ batch.take j)) (tables j)
        (B.take k).flatten wal := by
  obtain ⟨j, k, _, hk, himg⟩ := h.image keep
  obtain ⟨w', db, hrun, hs', hopen, _, hgrew⟩ := assemble_quiet (s := ())
    (w := World.start (v.crash keep)) opts (World.quiet_start _) (by simp [World.start]) himg
  exact ⟨j, k, db, w', _, hk, himg.log, hrun, hgrew.quiet, hs', himg.fit, hopen⟩

/-- What a handle shows, if the tables have lost no tombstone that the active MemTable may
need. -/
theorem Spread.shows {W : List (List Record)} {w : World} {db : DbInner}
    {tables : List (Nat × List Record)} {a n f b p d : Nat} (hsp : Spread W db tables a n f b p)
    (hn : max (max p b) n = n) (hd : d ≤ a) (hq : w.Quiet) (hs : Serves env w.vol db tables)
    (hkept : recordVersions.StandsFor (pool (tables.map Prod.snd)) (ofList (span W 0 p))
      (ofList (span W 0 d)) u64Max) (hbelow : ∀ r ∈ W.flatten, r.seq < u64Max) :
    ShowsMap env u64Max (mapAfter (W.take n)) db w := by
  have hreads := reads_mapAfter hsp.rising hbelow n
  refine ⟨fun key => ?_, fun start stop limit => ?_⟩
  · obtain ⟨m, v, hm, hm', hget, hv⟩ := hsp.get key hq hs hkept
    rw [hn] at hm'
    rw [le_antisymm hm' hm] at hv
    have hone : recordVersions.OnePerSeq (ofList (span W 0 n)) :=
      hsp.rising.onePerSeq.mono fun r hr => mem_span hr
    rw [hget, hv.unique hone (hreads key)]
  · have hholds := hsp.holds hd hkept (m := mapAfter (W.take n)) (by
      rw [hn]
      exact hreads)
    rw [scanAt_holds hq hs hholds start stop limit]

/-- What an open shows that finds tables as a ledger has them and replays the history from some
published batch on. -/
theorem Ledger.opened_shows (h : Ledger s held) (hseq : s.db.nextSeq ≤ u64Max) {j a n : Nat}
    {w : World} {opts : Options} {db : DbInner} {st : ManifestState} {log : List Record}
    {wal : Bytes} (hq : w.Quiet) (hs : w.vol.Sound)
    (hfit : TablesFit env (s.flusher.tablesAt held.tables j))
    (hopen : Opened env dir opts w.vol db st (s.flusher.tablesAt held.tables j) log wal)
    (hfrom : s.loggedFrom ≤ a) (hap : a ≤ s.publishedAt) (hn : s.written.length ≤ n)
    (hlog : ofList log = ofList (span s.history a n)) :
    ShowsMap env u64Max (mapAfter (s.history.take n)) db w := by
  obtain ⟨hpp, hpn, hlevels, hkept⟩ := h.tablesAt j
  have hrising := h.history_rising
  have hbelow := h.history_below hseq
  have hone : recordVersions.OnePerSeq (ofList log) := by
    rw [hlog]
    exact hrising.onePerSeq.mono fun r hr => mem_span hr
  have hserves := hopen.serves hs hfit hone fun r hr => by
    have hmem : r ∈ ofList log := hr
    rw [hlog] at hmem
    exact le_of_lt (hbelow r (mem_span hmem))
  have hkept' := hkept u64Max fun r hr => hbelow r (s.written_subset_history hr)
  have hdropped : s.droppedAt ≤ s.written.length := h.dropped.trans h.loggedFrom_le
  rw [← span_begins (List.prefix_append s.written s.writer.batches) hpn,
    ← span_begins (List.prefix_append s.written s.writer.batches) hdropped] at hkept'
  have hsp : Spread s.history db (s.flusher.tablesAt held.tables j) a n (s.tabledAt j)
      (s.tabledAt j) (s.tabledAt j) :=
    { rising := hrising
      active := (hopen.active hone).trans hlog
      frozen := by
        rw [hopen.frozen, span_self]
        simp [ofList]
      levels := hlevels
      activeFrom := by omega
      frozenFrom := le_rfl
      meets := le_rfl
      joins := hap.trans hpp }
  exact hsp.shows (by omega) (h.dropped.trans hfrom) hq hserves hkept' hbelow

/-- Let a database on a fresh directory be written to and flushed with a durable log, and
crash at any moment, inside a section or between two.  Whatever unsynced bytes are lost,
the next open succeeds, and what it serves is the map after some beginning of the writes
in the order of the log that has every inserted write in it. -/
theorem crash_recovers_beginning (env : Env) (dir : String) {v : Volume Path}
    (h : Reached env dir (Plain env) s) (hsync : s.db.opts.syncWal = .durable)
    (hv : Passing env (Plain env) s v) (keep : Nat → Nat) (opts : Options) :
    ∃ n db w', s.written.length ≤ n ∧ n ≤ s.history.length ∧
      (assemble env s.db.dir opts : M Unit DbInner) () (World.start (v.crash keep)) =
        (.ok db, (), w') ∧
      ShowsMap env u64Max (mapAfter (s.history.take n)) db w' := by
  obtain ⟨hfree, _, held, hfiles, hledger, hlogged⟩ := h.plain
  obtain ⟨B, q, hway, hwreck⟩ := hfiles.wreck hfree (hlogged.durably env hsync) hv
  obtain ⟨j, k, db, w', _, hk, _, hrun, hq, hs', hfit, hopen⟩ := hwreck.opened keep opts
  obtain ⟨a, n, hfrom, hap, hn, hn', hlog⟩ := hledger.log_span hway hk
  exact ⟨n, db, w', hn, hn', hrun,
    hledger.opened_shows hfiles.seq hq hs' hfit hopen hfrom hap hn hlog⟩

/-- What is recovered when a flush has recorded its table and its log is still the old one. -/
theorem crash_recovers_beginning_recorded :
    ∃ s, Reached Stock.env "db" (Plain Stock.env) s ∧ s.db.opts.syncWal = .durable ∧
      Passing Stock.env (Plain Stock.env) s s.w.vol ∧
      (s.history.length = 2 ∧ s.written.length = 1 ∧ s.flusher.slot.isSome) ∧
      ∃ n db w', 1 ≤ n ∧ n ≤ 2 ∧
        (assemble Stock.env s.db.dir Options.default : M Unit DbInner) ()
          (World.start (s.w.vol.crash fun _ => 0)) = (.ok db, (), w') ∧
        ShowsMap Stock.env u64Max (mapAfter (s.history.take n)) db w' := by
  have hrun : ((System.start Stock.env "db" Options.default).bind
      (System.execAll Stock.env (fun l _ => l.plain) (System.writeSteps [([1], some [2])] ++
        [.freeze, .write, .place, .count, .record, .number [([1], none)], .log]))).any
      (fun s => decide (s.db.opts.syncWal = .durable ∧ s.history.length = 2 ∧
        s.written.length = 1 ∧ s.flusher.slot.isSome)) = true := by
    decide +kernel
  obtain ⟨s, hreached, htest⟩ := System.execAll_any hrun
  obtain ⟨hsync, htwo, hone, hslot⟩ := of_decide_eq_true htest
  obtain ⟨n, db, w', hn, hn', hopen, hshows⟩ := crash_recovers_beginning Stock.env "db" hreached
    hsync (Or.inl rfl) (fun _ => 0) Options.default
  exact ⟨s, hreached, hsync, Or.inl rfl, ⟨htwo, hone, hslot⟩, n, db, w', hone ▸ hn, htwo ▸ hn',
    hopen, hshows⟩

end Recovered

end LsmKv
