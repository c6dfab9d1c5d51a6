import LsmKv.Crash
import LsmKv.Foundation.Links

/-!
# Checkpoints

`checkpoint` flushes, hard-links the live tables into an empty directory and writes a manifest
that names them.  Its sections are what the flush lock makes of it: the flush, the look at the
directory, the list of the tables, one link after the other, the counters, the manifest.

**Results.**
* `checkpoint_sections`: the checkpoint is its sections one after another.
* `writeFresh_live`: the manifest is written as a whole, and the volumes on the way.
* `Files.shows`: what a handle with threads inside it shows.
-/

namespace LsmKv

open Foundation Volume Versioning

section Model

variable {σ : Type}

/-- `Fs::create_dir_all`: a volume has no directories apart from its names. -/
def Fs.createDirAll (_dir : String) : M σ Unit := pure ()

/-- `Fs::hard_link`. -/
def Fs.hardLink (original link : Path) : M σ Unit := do
  let _ ← existing original
  let v ← volume
  match v.lookup link with
  | some _ => M.fail (.io .other)
  | none => touch (fun v => v.link original link)

/-- `Manifest::write_fresh`. -/
def Manifest.writeFresh (env : Env) (dir : String) (state : ManifestState) : M σ Unit := do
  if ← isPresent dir then
    M.fail (.corrupt (dir ++ " already holds a manifest; refusing to write a second one over it"))
  else
    let manifest ← create dir
    let (_, manifest) ← M.on manifest (appendBatch env state.snapshotEdits)
    let (_, _) ← M.on manifest (onFile BufAppend.sync)
    Fs.syncDir dir

end Model

namespace DbInner

/-- The directory of a checkpoint has to be empty. -/
def findEmpty (dir : String) : M DbInner Unit := do
  Fs.createDirAll dir
  let paths ← Fs.list dir
  if paths.isEmpty then return ()
  else M.fail (.corrupt (dir ++ " is not empty; refusing to write a checkpoint over it"))

/-- A second name for the file of a table. -/
def linkTable (source dir : String) (table : SsTable) : M DbInner Unit :=
  Fs.hardLink (sstPath source table.id) (sstPath dir table.id)

/-- What the manifest of a checkpoint says. -/
def checkpointState (tables : List SsTable) : M DbInner ManifestState := do
  let self ← M.self
  return ⟨(tables.map SsTable.id).foldl (fun s id => s.insert id ()) SortedMap.empty,
    self.nextSeq, self.nextSstId⟩

/-- `DbInner::checkpoint`. -/
def checkpoint (env : Env) (dir : String) : M DbInner Unit := do
  health
  flushInner env
  Fs.createDirAll dir
  let paths ← Fs.list dir
  if paths.isEmpty then
    let self ← M.self
    let tables := self.sstables
    M.each (fun t : SsTable => Fs.hardLink (sstPath self.dir t.id) (sstPath dir t.id)) tables
    let self ← M.self
    let state : ManifestState :=
      ⟨(tables.map SsTable.id).foldl (fun s id => s.insert id ()) SortedMap.empty, self.nextSeq,
        self.nextSstId⟩
    Manifest.writeFresh env dir state
    Fs.syncDir dir
  else M.fail (.corrupt (dir ++ " is not empty; refusing to write a checkpoint over it"))

/-- The sections of a checkpoint. -/
theorem checkpoint_sections (env : Env) (dir : String) :
    checkpoint env dir = (do
      health
      flushInner env
      findEmpty dir
      let self ← M.self
      let tables ← listTables
      M.each (linkTable self.dir dir) tables
      let state ← checkpointState tables
      Manifest.writeFresh env dir state
      Fs.syncDir dir) := by
  unfold checkpoint findEmpty
  simp only [bind_assoc]
  congr 1
  funext _
  congr 1
  funext _
  congr 1
  funext _
  congr 1
  funext paths
  cases paths with
  | nil => rfl
  | cons p l => rfl

end DbInner

section Quiet

variable {σ : Type} {s : σ} {env : Env} {w : World} {p q : Path} {i : Nat} {dir : String}

theorem Fs.hardLink_some (hp : w.vol.lookup p = some i) (hq : w.vol.lookup q = none) :
    (Fs.hardLink p q : M σ Unit) s w = (.ok (), s, w.touch (fun v => v.link p q)) := by
  simp only [Fs.hardLink, M.bind_apply, Fs.existing_some hp, Fs.volume, hq, Fs.touch_apply]

/-- An empty directory. -/
theorem findEmpty_ok {db db' : DbInner} {w' : World}
    (h : DbInner.findEmpty dir db w = (.ok (), db', w')) :
    db' = db ∧ w' = w ∧ ∀ p : Path, p.dir = dir → w.vol.lookup p = none := by
  unfold DbInner.findEmpty Fs.createDirAll at h
  rw [M.bind_ok (M.pure_apply _ _ _), M.bind_ok (Fs.list_apply dir)] at h
  split_ifs at h with hempty
  · cases h
    refine ⟨rfl, rfl, fun p hp => ?_⟩
    obtain ⟨_, hmem⟩ := list_spec w.vol dir
    rw [List.isEmpty_iff] at hempty
    cases hl : w.vol.lookup p with
    | none => rfl
    | some i =>
        have := (hmem p).mpr ⟨hp, i, hl⟩
        rw [hempty] at this
        cases this
  · cases h

/-- The volumes of a fresh manifest on the way: `CURRENT` is not there yet, or it names a
manifest with some part of the edits. -/
def FreshManifest (env : Env) (dir : String) (edits : List VersionEdit) (v₀ v : Volume Path) :
    Prop :=
  SameExcept [manifestPath dir 0, currentTmpPath dir] v₀ v ∨
    (SameExcept [manifestPath dir 0, currentTmpPath dir, currentPath dir] v₀ v ∧
      Manifest.Named dir 0 v ∧
      ∃ i k n, manifestFront.length ≤ n ∧
        v.Bound (manifestPath dir 0) i (manifestFront ++ (editFrames env edits).take k) n)

/-- A manifest is written into a directory that has none. -/
theorem Manifest.writeFresh_live (env : Env) (dir : String) (st : ManifestState) (hq : w.Quiet)
    (hs : w.vol.Sound) (habsent : w.vol.lookup (currentPath dir) = none) :
    ∃ w' i, (Manifest.writeFresh env dir st : M σ Unit) s w = (.ok (), s, w') ∧
      Manifest.Live env dir 0 i st.snapshotEdits w'.vol ∧
      SameExcept [manifestPath dir 0, currentTmpPath dir, currentPath dir] w.vol w'.vol ∧
      w.Grew w' (FreshManifest env dir st.snapshotEdits w.vol) := by
  obtain ⟨w₁, i, hrun₁, hlive₁, hsame₁, hgrew₁⟩ := Manifest.create_quiet (s := s) env dir hq hs
  obtain ⟨w₂, hrun₂, hb₂, hsame₂, hgrew₂⟩ := Manifest.appendBatch_quiet env dir 0 []
    st.snapshotEdits hgrew₁.quiet (hsame₁.sound hs) (by simp) hlive₁.holds
  rw [List.nil_append, ← manifestBytes_append, List.nil_append] at hb₂
  have hnamed : ∀ v, SameExcept [manifestPath dir 0] w₁.vol v → Manifest.Named dir 0 v := by
    intro v hv
    obtain ⟨c, hc⟩ := hlive₁.named.current
    exact ⟨⟨c, hc.same hv (by simp)⟩, (hv.names _ (by simp)).trans hlive₁.named.scratch⟩
  -- the last sync finds an empty buffer and a file that is durable already
  obtain ⟨w₃, hrun₃, hvol₃, hgrew₃⟩ := BufAppend.sync_quiet (b := BufAppend.new i) hgrew₂.quiet
  have hs₂ := hsame₂.sound (hsame₁.sound hs)
  have happend : w₂.vol.append (BufAppend.new i).file (BufAppend.new i).buf = w₂.vol :=
    append_nil _ _
  rw [happend] at hvol₃ hgrew₃
  have hsame₃ : SameExcept [manifestPath dir 0] w₂.vol w₃.vol := by
    rw [hvol₃]
    exact sameExcept_sync hs₂ (by simp) hb₂.name
  have hb₃ : w₃.vol.Bound (manifestPath dir 0) i (manifestBytes env st.snapshotEdits)
      (manifestBytes env st.snapshotEdits).length := by
    rw [hvol₃]
    exact hb₂.sync
  set w₄ := w₃.touch (fun v => v.syncNames (fun p => p.dir = dir)) with hw₄
  have hsame₄ : SameExcept [manifestPath dir 0] w₃.vol w₄.vol := sameExcept_syncNames _ _
  have htail : SameExcept [manifestPath dir 0] w₁.vol w₄.vol :=
    hsame₂.trans (hsame₃.trans hsame₄)
  have hwhole : ∀ v, SameExcept [manifestPath dir 0] w₁.vol v →
      v.Bound (manifestPath dir 0) i (manifestBytes env st.snapshotEdits)
        (manifestBytes env st.snapshotEdits).length →
      FreshManifest env dir st.snapshotEdits w.vol v := by
    intro v hv hb
    refine Or.inr ⟨hsame₁.trans (hv.mono (by simp)), hnamed v hv, i,
      (editFrames env st.snapshotEdits).length, _, ?_, by rw [List.take_length]; exact hb⟩
    simp [manifestBytes]
  refine ⟨w₄, i, ?_, ⟨hnamed _ htail, hb₃.syncNames _⟩, hsame₁.trans (htail.mono (by simp)), ?_⟩
  · have hpresent : (Manifest.isPresent dir : M σ Bool) s w = (.ok false, s, w) := by
      unfold Manifest.isPresent
      rw [Fs.fileExists_apply, habsent]
      rfl
    have hsync : Manifest.onFile BufAppend.sync (Manifest.handle dir 0 i) w₂ =
        (.ok (), Manifest.handle dir 0 i, w₃) :=
      M.zoom_eq Manifest.file (fun self file => { self with file := file })
        (s := Manifest.handle dir 0 i) hrun₃
    unfold Manifest.writeFresh
    rw [M.bind_ok hpresent]
    simp only [Bool.false_eq_true, if_false]
    rw [M.bind_ok hrun₁]
    rw [show Manifest.handleWith dir 0 i [] = Manifest.handle dir 0 i from rfl] at hrun₂
    refine (M.bind_ok (M.on_ok (s := s) hrun₂)).trans ?_
    exact M.bind_ok (M.on_ok (s := s) hsync)
  · refine World.Grew.trans (hgrew₁.mono ?_) (World.Grew.trans (hgrew₂.mono ?_)
      (World.Grew.trans (hgrew₃.mono ?_) (World.Grew.touch hgrew₃.quiet ?_)))
    · rintro v (hv | ⟨hv, hlive⟩)
      · exact Or.inl hv
      · exact Or.inr ⟨hv, hlive.named, i, 0, _, by simp [manifestBytes], hlive.holds⟩
    · intro v hv
      obtain ⟨k, n, hn, hb⟩ := hv.part
      refine Or.inr ⟨hsame₁.trans (hv.same.mono (by simp)), hnamed v hv.same, i, k, n, ?_, hb⟩
      exact le_trans (by simp [manifestBytes]) hn
    · rintro v (rfl | rfl)
      · exact hwhole _ hsame₂ hb₂
      · exact hwhole _ (hsame₂.trans (sameExcept_sync hs₂ (by simp) hb₂.name)) hb₂.sync
    · exact hwhole _ htail (hb₃.syncNames _)

end Quiet

section Shows

variable {env : Env} {s : System} {held : Held}

/-- A handle shows the map of all that was inserted, wherever its threads are. -/
theorem Files.shows (hfiles : Files env s held) (h : Ledger s held) :
    ShowsMap env u64Max (mapAfter s.written) s.db s.w := by
  obtain ⟨f, b, hsp, hle⟩ := spread_seen h hfiles h h (.refl s) (.refl s)
  have hbelow : ∀ r ∈ s.written.flatten, r.seq < u64Max := fun r hr =>
    lt_of_lt_of_le (h.below r (List.mem_append_left _ hr)) hfiles.seq
  have hshows := hsp.shows (le_antisymm hle (le_max_right _ _))
    (h.droppedAt_le.trans h.publishedAt_le) hfiles.quiet
    (serves_seen hfiles h hfiles h hfiles hfiles.read)
    (h.kept u64Max fun r hr => hbelow r (mem_span hr)) hbelow
  rwa [List.take_length] at hshows

end Shows

end LsmKv
