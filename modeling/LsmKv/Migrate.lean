import LsmKv.Recover
import Mathlib.Data.List.Sort

/-!
# The first open of a directory

A directory without `CURRENT` is migrated: the open names every table it finds
in a new manifest.  `Phase2` is what such a directory holds, with nothing in it
at all as the least case.

**Results.**
* `migrateDir_quiet`: every table is named, and the volumes on the way.
* `assemble_migrating`: the directory is opened with all its tables.
-/

namespace LsmKv

open Foundation Volume

/-- A directory without a manifest, at rest. -/
structure Phase2 (env : Env) (dir : String) (v : Volume Path)
    (tables : List (Nat × List Record)) (log : List Record) : Prop where
  sound : v.Sound
  unnamed : v.lookup (currentPath dir) = none
  ids : (tables.map Prod.fst).Pairwise (· < ·)
  small : ∀ t ∈ tables, t.1 < 2 ^ 64
  fit : TablesFit env tables
  files : ∀ t ∈ tables, ∃ i,
    v.Bound (sstPath dir t.1) i (tableBytes env t.2) (tableBytes env t.2).length
  listed : ∀ p i id, p.dir = dir → v.lookup p = some i → p.name.parseSstId = some id →
    p = sstPath dir id ∧ id ∈ tables.map Prod.fst
  log : replayOption env (walBytes v dir) = .ok log
  rest : ∀ x, v.file (walPath dir) = some x → x.synced = x.bytes.length

/-- The first id behind those of `ids`. -/
def idBehind (ids : List Nat) : Nat :=
  match ids.getLast? with
  | some id => (id + 1) % 2 ^ 64
  | none => 0

/-- The edits a migration appends. -/
def migrationEdits (ids : List Nat) : List VersionEdit :=
  .setNextSstId (idBehind ids) :: ids.map .addTable

section Edits

theorem foldl_addTables (ids : List Nat) (st : ManifestState) :
    (ids.map VersionEdit.addTable).foldl ManifestState.apply st =
      { st with liveTables := ids.foldl (fun s id => s.insert id ()) st.liveTables } := by
  induction ids generalizing st with
  | nil => rfl
  | cons id ids ih =>
      rw [List.map_cons, List.foldl_cons, ih]
      rfl

theorem applyAll_migrationEdits (ids : List Nat) :
    applyAll (migrationEdits ids) =
      ⟨ids.foldl (fun s id => s.insert id ()) SortedMap.empty, 0, idBehind ids⟩ := by
  unfold applyAll migrationEdits
  rw [List.foldl_cons, foldl_addTables]
  rfl

theorem keys_foldl_insert {ids : List Nat} {m : IdSet} (h : (m.keys ++ ids).Pairwise (· < ·)) :
    (ids.foldl (fun s id => s.insert id ()) m).keys = m.keys ++ ids := by
  induction ids generalizing m with
  | nil => simp
  | cons id ids ih =>
      have hm : ∀ x ∈ m.keys, x < id := fun x hx =>
        (List.pairwise_append.mp h).2.2 x hx id (by simp)
      have hstep := keys_insert_last hm
      rw [List.foldl_cons, ih (by rw [hstep]; simpa using h), hstep]
      simp

/-- The live tables after some of the edits of a migration. -/
theorem keys_migrationEdits_take {ids : List Nat} (h : ids.Pairwise (· < ·)) (k : Nat) :
    (applyAll ((migrationEdits ids).take k)).liveTables.keys = ids.take (k - 1) := by
  cases k with
  | zero => rfl
  | succ k =>
      have hrest : (migrationEdits ids).take (k + 1) =
          .setNextSstId (idBehind ids) :: (ids.take k).map .addTable := by
        rw [migrationEdits, List.take_succ_cons, List.map_take]
      have hsorted : ((SortedMap.empty : IdSet).keys ++ ids.take k).Pairwise (· < ·) :=
        h.sublist (List.take_sublist k ids)
      have hkeys := keys_foldl_insert hsorted
      rw [hrest, applyAll, List.foldl_cons, foldl_addTables]
      exact hkeys

theorem keys_migrationEdits {ids : List Nat} (h : ids.Pairwise (· < ·)) :
    (applyAll (migrationEdits ids)).liveTables.keys = ids := by
  have := keys_migrationEdits_take h (ids.length + 1)
  rwa [Nat.add_sub_cancel, List.take_length, List.take_of_length_le (by simp [migrationEdits])]
    at this

theorem idBehind_lt (ids : List Nat) : idBehind ids < 2 ^ 64 := by
  unfold idBehind
  cases ids.getLast? with
  | none => decide
  | some id => exact Nat.mod_lt _ (by decide)

theorem migrationEdits_fit {ids : List Nat} (h : ∀ id ∈ ids, id < 2 ^ 64) :
    ∀ e ∈ migrationEdits ids, e.Fits := by
  intro e he
  rcases List.mem_cons.mp he with rfl | he
  · exact idBehind_lt ids
  · obtain ⟨id, hid, rfl⟩ := List.mem_map.mp he
    exact h id hid

end Edits

section Migrate

variable {σ : Type} {s : σ} {env : Env} {w : World} {dir : String} {opts : Options}
variable {tables : List (Nat × List Record)} {log : List Record} {v v' : Volume Path}

/-- The ids a migration finds are those of the tables. -/
theorem Phase2.found (h : Phase2 env dir v tables log) :
    ((v.names.filter (fun p => p.dir = dir)).filterMap
      (fun p => p.name.parseSstId)).insertionSort (· ≤ ·) = tables.map Prod.fst := by
  obtain ⟨hnd, hmem⟩ := list_spec v dir
  set paths := v.names.filter (fun p => p.dir = dir)
  have hin : ∀ id, id ∈ paths.filterMap (fun p => p.name.parseSstId) ↔
      id ∈ tables.map Prod.fst := by
    intro id
    rw [List.mem_filterMap]
    constructor
    · rintro ⟨p, hp, hid⟩
      obtain ⟨hdir, i, hi⟩ := (hmem p).mp hp
      exact (h.listed p i id hdir hi hid).2
    · intro hid
      obtain ⟨t, ht, rfl⟩ := List.mem_map.mp hid
      obtain ⟨i, hb⟩ := h.files t ht
      exact ⟨sstPath dir t.1, (hmem _).mpr ⟨rfl, i, hb.name⟩, rfl⟩
  have hnodup : (paths.filterMap (fun p => p.name.parseSstId)).Nodup := by
    refine List.pairwise_filterMap.mpr (hnd.imp_of_mem ?_)
    rintro p q hp hq hne id hid id' hid' rfl
    obtain ⟨hpd, i, hi⟩ := (hmem p).mp hp
    obtain ⟨hqd, j, hj⟩ := (hmem q).mp hq
    exact hne ((h.listed p i id hpd hi hid).1.trans (h.listed q j id hqd hj hid').1.symm)
  have hperm := (List.perm_ext_iff_of_nodup hnodup (h.ids.imp ne_of_lt)).mpr hin
  exact List.Perm.eq_of_pairwise' (r := (· ≤ ·)) (List.pairwise_insertionSort _ _)
    (h.ids.imp le_of_lt) ((List.perm_insertionSort _ _).trans hperm)

/-- The volumes of a migration on the way: `CURRENT` is not there yet, or it
names a manifest with some part of the edits. -/
def Migrating (env : Env) (dir : String) (ids : List Nat) (v₀ v : Volume Path) : Prop :=
  SameExcept [manifestPath dir 0, currentTmpPath dir] v₀ v ∨
    (SameExcept [manifestPath dir 0, currentTmpPath dir, currentPath dir] v₀ v ∧
      Manifest.Named dir 0 v ∧
      ∃ i k n, manifestFront.length ≤ n ∧
        v.Bound (manifestPath dir 0) i
          (manifestFront ++ (editFrames env (migrationEdits ids)).take k) n)

/-- A migration names every table. -/
theorem migrateDir_quiet (hq : w.Quiet) (h : Phase2 env dir w.vol tables log) :
    ∃ w' i, (migrateDir env dir : M σ (Manifest × ManifestState)) s w =
        (.ok (Manifest.handle dir 0 i, applyAll (migrationEdits (tables.map Prod.fst))), s, w') ∧
      Manifest.Live env dir 0 i (migrationEdits (tables.map Prod.fst)) w'.vol ∧
      SameExcept [manifestPath dir 0, currentTmpPath dir, currentPath dir] w.vol w'.vol ∧
      w.Grew w' (Migrating env dir (tables.map Prod.fst) w.vol) := by
  set ids := tables.map Prod.fst with hids
  obtain ⟨w₁, i, hrun₁, hlive₁, hsame₁, hgrew₁⟩ :=
    Manifest.create_quiet (s := s) env dir hq h.sound
  obtain ⟨w₂, hrun₂, hb₂, hsame₂, hgrew₂⟩ := Manifest.appendBatch_quiet env dir 0 []
    (migrationEdits ids) hgrew₁.quiet (hsame₁.sound h.sound) (by simp) hlive₁.holds
  rw [List.nil_append, ← manifestBytes_append, List.nil_append] at hb₂
  have hnamed : ∀ v, SameExcept [manifestPath dir 0] w₁.vol v → Manifest.Named dir 0 v := by
    intro v hv
    obtain ⟨c, hc⟩ := hlive₁.named.current
    exact ⟨⟨c, hc.same hv (by simp)⟩, (hv.names _ (by simp)).trans hlive₁.named.scratch⟩
  refine ⟨w₂, i, ?_, ⟨hnamed _ hsame₂, hb₂⟩, hsame₁.trans (hsame₂.mono (by simp)), ?_⟩
  · unfold migrateDir
    rw [M.bind_ok (Fs.list_apply dir), h.found, M.bind_ok hrun₁]
    dsimp only
    rw [← hids]
    rw [show Manifest.handleWith dir 0 i [] = Manifest.handle dir 0 i from rfl] at hrun₂
    have hon := M.on_ok (s := s) hrun₂
    refine (M.bind_ok hon).trans ?_
    rw [applyAll_migrationEdits]
    rfl
  · refine World.Grew.trans (hgrew₁.mono ?_) (hgrew₂.mono ?_)
    · rintro v (hv | ⟨hv, hlive⟩)
      · exact Or.inl hv
      · refine Or.inr ⟨hv, hlive.named, i, 0, _, ?_, hlive.holds⟩
        simp [manifestBytes]
    · intro v hv
      obtain ⟨k, n, hn, hb⟩ := hv.part
      refine Or.inr ⟨hsame₁.trans (hv.same.mono (by simp)), hnamed v hv.same, i, k, n, ?_, hb⟩
      refine le_trans ?_ hn
      simp [manifestBytes]

/-- The volumes of a first open on the way. -/
inductive FirstOpen (env : Env) (dir : String) (tables : List (Nat × List Record))
    (v₀ : Volume Path) : Volume Path → Prop
  | unnamed {v : Volume Path}
      (same : SameExcept [lockPath dir, manifestPath dir 0, currentTmpPath dir] v₀ v) :
      FirstOpen env dir tables v₀ v
  | naming {v : Volume Path} {i k n : Nat}
      (same : SameExcept [lockPath dir, manifestPath dir 0, currentTmpPath dir,
        currentPath dir] v₀ v)
      (named : Manifest.Named dir 0 v) (durable : manifestFront.length ≤ n)
      (part : v.Bound (manifestPath dir 0) i (manifestFront ++
        (editFrames env (migrationEdits (tables.map Prod.fst))).take k) n) :
      FirstOpen env dir tables v₀ v
  | named {v : Volume Path} {i : Nat} (sound : v.Sound)
      (live : Manifest.Live env dir 0 i (migrationEdits (tables.map Prod.fst)) v)
      (files : ∀ t ∈ tables, v.file (sstPath dir t.1) = v₀.file (sstPath dir t.1))
      (log : LogKept dir v₀ v) :
      FirstOpen env dir tables v₀ v

/-- A directory without a manifest is opened with all its tables. -/
theorem recover_migrating (opts : Options) (hq : w.Quiet) (h : Phase2 env dir w.vol tables log) :
    ∃ w' db i, (recover env dir opts : M σ DbInner) s w = (.ok db, s, w') ∧
      Opened env dir opts w'.vol db (applyAll (migrationEdits (tables.map Prod.fst))) tables log
        (walOpened (walBytes w.vol dir)) ∧
      ManifestOpen env dir w'.vol db.manifest (migrationEdits (tables.map Prod.fst)) 0 i ∧
      w'.vol.Sound ∧ w.Grew w' (FirstOpen env dir tables w.vol) := by
  set st := applyAll (migrationEdits (tables.map Prod.fst)) with hst
  have hkeys : st.liveTables.keys = tables.map Prod.fst := keys_migrationEdits h.ids
  obtain ⟨w₁, i, hrun₁, hlive₁, hsame₁, hgrew₁⟩ := migrateDir_quiet (s := s) hq h
  have hfiles : ∀ v, SameExcept [manifestPath dir 0, currentTmpPath dir, currentPath dir]
      w.vol v → ∀ t ∈ tables, ∃ i,
        v.Bound (sstPath dir t.1) i (tableBytes env t.2) (tableBytes env t.2).length := by
    intro v hv t ht
    obtain ⟨k, hk⟩ := h.files t ht
    exact ⟨k, hk.same hv (by simp)⟩
  have hwalfile := hsame₁.files (walPath dir) (by simp)
  have hwal₁ : walBytes w₁.vol dir = walBytes w.vol dir := by
    unfold walBytes
    rw [hwalfile]
  obtain ⟨w₂, db, hrun₂, hman, hopened, hsame₂, _, hgrew₂⟩ := recoverFrom_quiet (s := s)
    opts (Manifest.handle dir 0 i) hgrew₁.quiet (hsame₁.sound h.sound) hkeys h.fit
    (hfiles _ hsame₁) (by rw [hwal₁]; exact h.log)
  rw [hwal₁] at hopened
  set others := walPath dir :: reclaimed w₁.vol dir st with hothers
  have hkeep : ∀ p : Path, p ≠ walPath dir → reclaimable dir st p = false → p ∉ others := by
    intro p hp hr hin
    rcases List.mem_cons.mp hin with hin | hin
    · exact hp hin
    · exact not_mem_reclaimed _ hr hin
  have hlive : ∀ v, SameExcept others w₁.vol v →
      Manifest.Live env dir 0 i (migrationEdits (tables.map Prod.fst)) v := fun v hv =>
    hlive₁.same hv (hkeep _ (by simp) (by simp)) (hkeep _ (by simp) (by simp))
      (hkeep _ (by simp) (by simp))
  refine ⟨w₂, db, i, ?_, hopened, ⟨hman, by decide, hlive _ hsame₂, ?_⟩,
    hsame₂.sound (hsame₁.sound h.sound), World.Grew.trans (hgrew₁.mono ?_) (hgrew₂.mono ?_)⟩
  · have hpresent : (Manifest.isPresent dir : M σ Bool) s w = (.ok false, s, w) := by
      unfold Manifest.isPresent
      rw [Fs.fileExists_apply, h.unnamed]
      rfl
    unfold recover
    rw [M.bind_ok hpresent]
    simp only [Bool.false_eq_true, if_false]
    rw [M.bind_ok hrun₁]
    exact hrun₂
  · refine migrationEdits_fit fun id hid => ?_
    obtain ⟨t, ht, rfl⟩ := List.mem_map.mp hid
    exact h.small t ht
  · rintro v (hv | ⟨hv, hnamed, j, k, n, hn, hb⟩)
    · exact .unnamed (hv.mono (by simp))
    · exact .naming (hv.mono (by simp)) hnamed hn hb
  · rintro v ⟨hv, hkept⟩
    refine .named (hv.sound (hsame₁.sound h.sound)) (hlive v hv) ?_ ?_
    · intro t ht
      have hlivet : t.1 ∈ st.liveTables.keys := by
        rw [hkeys]
        exact List.mem_map.mpr ⟨t, ht, rfl⟩
      rw [hv.files _ (hkeep _ (by simp) (reclaimable_live hlivet)), hsame₁.files _ (by simp)]
    · unfold LogKept at hkept ⊢
      rwa [hwalfile, hwal₁] at hkept

theorem Phase2.same {ps : List Path} (h : Phase2 env dir v tables log)
    (hsame : SameExcept ps v v') (hsst : ∀ p ∈ ps, p.name.parseSstId = none)
    (hcur : currentPath dir ∉ ps) (hwal : walPath dir ∉ ps) :
    Phase2 env dir v' tables log := by
  have hnot : ∀ p id, p.name.parseSstId = some id → p ∉ ps := by
    intro p id hid hp
    rw [hsst p hp] at hid
    cases hid
  refine
    { sound := hsame.sound h.sound
      unnamed := (hsame.names _ hcur).trans h.unnamed
      ids := h.ids
      small := h.small
      fit := h.fit
      files := ?_
      listed := ?_
      log := ?_
      rest := ?_ }
  · intro t ht
    obtain ⟨i, hb⟩ := h.files t ht
    exact ⟨i, hb.same hsame (hnot _ t.1 rfl)⟩
  · intro p i id hdir hl hid
    rw [hsame.names p (hnot p id hid)] at hl
    exact h.listed p i id hdir hl hid
  · unfold walBytes
    rw [hsame.files _ hwal]
    exact h.log
  · intro x hx
    rw [hsame.files _ hwal] at hx
    exact h.rest x hx

/-- A directory without a manifest, whose lock is free, is opened. -/
theorem assemble_migrating (opts : Options) (hq : w.Quiet) (hfree : lockPath dir ∉ w.locks)
    (h : Phase2 env dir w.vol tables log) :
    ∃ w' db i, (assemble env dir opts : M σ DbInner) s w = (.ok db, s, w') ∧
      Opened env dir opts w'.vol db (applyAll (migrationEdits (tables.map Prod.fst))) tables log
        (walOpened (walBytes w.vol dir)) ∧
      ManifestOpen env dir w'.vol db.manifest (migrationEdits (tables.map Prod.fst)) 0 i ∧
      w'.vol.Sound ∧
      World.Grew { w with locks := lockPath dir :: w.locks } w'
        (FirstOpen env dir tables w.vol) := by
  obtain ⟨w₁, hrun₁, hsame₁, hgrew₁⟩ := acquireDirLock_quiet (s := s) dir hq h.sound hfree
  have h₁ : Phase2 env dir w₁.vol tables log := h.same hsame₁
    (by simp [FileName.parseSstId]) (by simp) (by simp)
  obtain ⟨w₂, db, i, hrun₂, hopened, hman, hs₂, hgrew₂⟩ :=
    recover_migrating (s := s) opts hgrew₁.quiet h₁
  have hwalfile := hsame₁.files (walPath dir) (by simp)
  have hwal₁ : walBytes w₁.vol dir = walBytes w.vol dir := by
    unfold walBytes
    rw [hwalfile]
  rw [hwal₁] at hopened
  refine ⟨w₂, db, i, assemble_ok hrun₁ hrun₂, hopened, hman, hs₂, World.Grew.trans
    (hgrew₁.mono fun v hv => .unnamed (hv.mono (by simp))) (hgrew₂.mono fun v hv => ?_)⟩
  cases hv with
  | unnamed same => exact .unnamed ((hsame₁.mono (by simp)).trans (same.mono (by simp)))
  | naming same named durable part =>
      exact .naming ((hsame₁.mono (by simp)).trans (same.mono (by simp))) named durable part
  | named sound live files log =>
      refine .named sound live (fun t ht => (files t ht).trans (hsame₁.files _ (by simp))) ?_
      unfold LogKept at log ⊢
      rwa [hwalfile, hwal₁] at log

end Migrate

end LsmKv
