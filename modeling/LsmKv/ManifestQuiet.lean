import LsmKv.FsQuiet
import LsmKv.ManifestLog

/-!
# The manifest's methods when nothing fails

**Results.**
* `Manifest.appendBatch_quiet`: an append puts the frames of its edits behind
  the file; on the way the file has some initial part of them.
* `Manifest.writeCurrent_quiet`: `CURRENT` changes in one step.
* `Manifest.create_quiet`, `Manifest.openManifest_quiet`: what a new manifest
  and a rolled-over one leave, and through which volumes.
* `applyAll_snapshotEdits`: the edits of a rollover rebuild the state.
-/

namespace LsmKv

open Foundation Volume

/-- A state whose numbers fit the fields of an edit. -/
structure ManifestState.Fits (st : ManifestState) : Prop where
  ids : ∀ id ∈ st.liveTables.keys, id < 2 ^ 64
  seq : st.nextSeq < 2 ^ 64
  sst : st.nextSstId < 2 ^ 64

section State

variable {st : ManifestState}

theorem snapshotEdits_fit (h : st.Fits) : ∀ e ∈ st.snapshotEdits, e.Fits := by
  intro e he
  rcases List.mem_cons.mp he with rfl | he
  · exact h.seq
  rcases List.mem_cons.mp he with rfl | he
  · exact h.sst
  obtain ⟨id, hid, rfl⟩ := List.mem_map.mp he
  exact h.ids id hid

/-- Inserting increasing ids one after another lists them. -/
theorem insertEntry_append {l : List (Nat × Unit)} {id : Nat} (h : ∀ e ∈ l, e.1 < id) :
    SortedMap.insertEntry id () l = l ++ [(id, ())] := by
  induction l with
  | nil => rfl
  | cons a l ih =>
      have ha := h a (by simp)
      unfold SortedMap.insertEntry
      rw [if_neg (by omega), if_neg (by omega), ih (fun e he => h e (List.mem_cons_of_mem _ he))]
      rfl

theorem foldl_addTable (l : List (Nat × Unit)) (st : ManifestState)
    (h : KeysIncrease (st.liveTables.entries ++ l)) :
    ∃ ids : IdSet, ids.entries = st.liveTables.entries ++ l ∧
      (l.map (fun e => VersionEdit.addTable e.1)).foldl ManifestState.apply st =
        { st with liveTables := ids } := by
  induction l generalizing st with
  | nil => exact ⟨st.liveTables, by simp, rfl⟩
  | cons a l ih =>
      have hlast : ∀ e ∈ st.liveTables.entries, e.1 < a.1 := fun e he =>
        (List.pairwise_append.mp h).2.2 e he a (by simp)
      have hins : (st.liveTables.insert a.1 ()).entries = st.liveTables.entries ++ [a] :=
        insertEntry_append hlast
      have h' : KeysIncrease ((st.apply (.addTable a.1)).liveTables.entries ++ l) := by
        show KeysIncrease ((st.liveTables.insert a.1 ()).entries ++ l)
        rw [hins, List.append_assoc]
        exact h
      obtain ⟨ids, hids, hfold⟩ := ih (st.apply (.addTable a.1)) h'
      refine ⟨ids, ?_, ?_⟩
      · rw [hids]
        show (st.liveTables.insert a.1 ()).entries ++ l = _
        rw [hins, List.append_assoc]
        rfl
      · rw [List.map_cons, List.foldl_cons, hfold]
        rfl

/-- The edits of a rollover rebuild the state. -/
theorem applyAll_snapshotEdits (st : ManifestState) : applyAll st.snapshotEdits = st := by
  obtain ⟨ids, hids, hfold⟩ := foldl_addTable st.liveTables.entries
    ⟨SortedMap.empty, st.nextSeq, st.nextSstId⟩ (by simpa [SortedMap.empty] using
      st.liveTables.increasing)
  have hkeys : st.liveTables.keys.map VersionEdit.addTable =
      st.liveTables.entries.map (fun e => VersionEdit.addTable e.1) := by
    simp [SortedMap.keys]
  have heq : ids = st.liveTables := by
    apply SortedMap.ext_entries
    simpa [SortedMap.empty] using hids
  show (st.liveTables.keys.map VersionEdit.addTable).foldl ManifestState.apply
    ⟨SortedMap.empty, st.nextSeq, st.nextSstId⟩ = st
  rw [hkeys, hfold, heq]

theorem VersionEdit.fits_of_decode {payload : Bytes} {e : VersionEdit}
    (h : VersionEdit.decode payload = .ok e) : e.Fits := by
  have hlt : ofLe ((payload.drop 1).take 8) < 2 ^ 64 := by
    have := ofLe_lt ((payload.drop 1).take 8)
    refine lt_of_lt_of_le this ?_
    calc 256 ^ ((payload.drop 1).take 8).length ≤ 256 ^ 8 :=
          Nat.pow_le_pow_right (by norm_num) (List.length_take_le _ _)
      _ = 2 ^ 64 := by norm_num
  unfold VersionEdit.decode at h
  split_ifs at h
  dsimp only at h
  split at h
  all_goals first
    | (cases h; exact hlt)
    | cases h

theorem fits_apply (h : st.Fits) {e : VersionEdit} (he : e.Fits) : (st.apply e).Fits := by
  cases e with
  | addTable id =>
      refine ⟨?_, h.seq, h.sst⟩
      intro x hx
      obtain ⟨a, ha, rfl⟩ := List.mem_map.mp hx
      rcases SortedMap.mem_insertEntry ha with rfl | ha
      · exact he
      · exact h.ids _ (List.mem_map.mpr ⟨a, ha, rfl⟩)
  | deleteTable id =>
      refine ⟨?_, h.seq, h.sst⟩
      intro x hx
      obtain ⟨a, ha, rfl⟩ := List.mem_map.mp hx
      exact h.ids _ (List.mem_map.mpr ⟨a, (List.mem_filter.mp ha).1, rfl⟩)
  | setNextSeq seq => exact ⟨h.ids, he, h.sst⟩
  | setNextSstId id => exact ⟨h.ids, h.seq, he⟩

theorem fits_default : ManifestState.default.Fits :=
  ⟨by simp [ManifestState.default, SortedMap.keys, SortedMap.empty],
    by norm_num [ManifestState.default],
    by norm_num [ManifestState.default]⟩

theorem fits_applyAll {edits : List VersionEdit} (h : ∀ e ∈ edits, e.Fits) :
    (applyAll edits).Fits := by
  have hfold : ∀ (l : List VersionEdit) (st : ManifestState), st.Fits → (∀ e ∈ l, e.Fits) →
      (l.foldl ManifestState.apply st).Fits := by
    intro l
    induction l with
    | nil => exact fun st hst _ => hst
    | cons e l ih =>
        intro st hst hl
        exact ih _ (fits_apply hst (hl e (by simp))) (fun x hx => hl x (List.mem_cons_of_mem _ hx))
  exact hfold edits _ fits_default h

/-- Whatever the bytes of a manifest, the state they replay to fits. -/
theorem fits_of_replay {env : Env} {path : Path} {bytes : Bytes}
    (h : replayManifestBytes env path bytes = .ok st) : st.Fits := by
  have hloop : ∀ (hash : Bytes → UInt32) (fuel : Nat) (b : Bytes) (acc res : ManifestState × Nat),
      acc.1.Fits → replayFrames hash applyFrame fuel b acc = .ok res → res.1.Fits := by
    intro hash fuel
    induction fuel with
    | zero =>
        intro b acc res hacc hrun
        cases hrun
        exact hacc
    | succ fuel ih =>
        intro b acc res hacc hrun
        unfold replayFrames at hrun
        cases hn : nextFrame hash b with
        | none =>
            rw [hn] at hrun
            cases hrun
            exact hacc
        | some p =>
            rw [hn] at hrun
            dsimp only at hrun
            cases hap : applyFrame acc p.1 with
            | error e => rw [hap] at hrun; cases hrun
            | ok acc' =>
                rw [hap] at hrun
                obtain ⟨edit, hdec, hret⟩ := bind_eq_ok hap
                cases hret
                exact ih p.2 _ res (fits_apply hacc (VersionEdit.fits_of_decode hdec)) hrun
  unfold replayManifestBytes at h
  obtain ⟨kind, _, h⟩ := bind_eq_ok h
  split_ifs at h with hempty
  · cases h
    exact fits_default
  · obtain ⟨⟨st', n⟩, hrun, h⟩ := bind_eq_ok h
    dsimp only at h
    split_ifs at h
    cases h
    exact hloop _ _ _ _ _ fits_default hrun

end State

namespace Manifest

variable {env : Env} {w : World} {m : Manifest}

/-- A handle on inode `i` for the manifest of a generation, with `buf` buffered. -/
def handleWith (dir : String) (generation i : Nat) (buf : Bytes) : Manifest :=
  { dir := dir
    generation := generation
    file := { BufAppend.new i with buf := buf }
    checksum := manifestChecksum (.versioned manifestVersion) }

/-- A handle with nothing buffered. -/
def handle (dir : String) (generation i : Nat) : Manifest := handleWith dir generation i []

/-- The writes of one edit. -/
def editParts (env : Env) (c : Checksum) (e : VersionEdit) : List Bytes :=
  [le 4 (c.hash env e.encode).toNat, le 4 e.encode.length, e.encode]

theorem onFile_bind (a : M BufAppend Unit) (f : Unit → M BufAppend Unit) :
    (onFile a >>= fun x => onFile (f x)) = onFile (a >>= f) :=
  M.zoom_bind Manifest.file (fun self file => { self with file := file })
    (fun _ _ => rfl) (fun _ _ _ => rfl) a f

theorem each_append {α : Type} (f : α → M BufAppend Unit) (a b : List α) :
    M.each f (a ++ b) = M.each f a >>= fun _ => M.each f b := by
  induction a with
  | nil => rfl
  | cons x a ih =>
      rw [List.cons_append, M.each_cons, M.each_cons, ih, bind_assoc]

theorem appendEdit_eq (e : VersionEdit) :
    appendEdit env e m w =
      onFile (M.each BufAppend.write (editParts env m.checksum e)) m w := by
  have hnil : M.each BufAppend.write [] = pure () := rfl
  have hparts : M.each BufAppend.write (editParts env m.checksum e) =
      (BufAppend.write (le 4 (m.checksum.hash env e.encode).toNat) >>= fun _ =>
        BufAppend.write (le 4 e.encode.length) >>= fun _ => BufAppend.write e.encode) := by
    simp only [editParts, M.each_cons, hnil, bind_pure_unit]
  rw [hparts, ← onFile_bind]
  simp only [← onFile_bind]
  rfl

theorem checksum_onFile {α : Type} (a : M BufAppend α) : (onFile a m w).2.1.checksum = m.checksum :=
  rfl

/-- The loop over the edits as writes to the file. -/
theorem each_appendEdit (edits : List VersionEdit) :
    M.each (appendEdit env) edits m w =
      onFile (M.each BufAppend.write (edits.flatMap (editParts env m.checksum))) m w := by
  induction edits generalizing m w with
  | nil => rfl
  | cons e es ih =>
      rw [M.each_cons, List.flatMap_cons, each_append, ← onFile_bind, M.bind_apply, M.bind_apply,
        appendEdit_eq]
      have hc := checksum_onFile (m := m) (w := w)
        (M.each BufAppend.write (editParts env m.checksum e))
      rcases hrun : onFile (M.each BufAppend.write (editParts env m.checksum e)) m w with
        ⟨r, m', w'⟩
      rw [hrun] at hc
      dsimp only at hc
      cases r with
      | error err => rfl
      | ok a =>
          dsimp only
          rw [ih, hc]

theorem flatten_editParts (c : Checksum) (edits : List VersionEdit) :
    (edits.flatMap (editParts env c)).flatten =
      frames (c.hash env) (edits.map VersionEdit.encode) := by
  induction edits with
  | nil => rfl
  | cons e es ih =>
      rw [List.flatMap_cons, List.flatten_append, ih, List.map_cons, frames_cons]
      simp [editParts, frame]

variable {dir : String} {g i : Nat} {path : Path} {b : Bytes} {n : Nat}

/-- An append puts what was buffered and the frames of the edits behind the file. -/
theorem appendBatch_quiet (env : Env) (dir : String) (g : Nat) (buf : Bytes)
    (edits : List VersionEdit) (hq : w.Quiet) (hs : w.vol.Sound) (hne : ¬ Shares.may path)
    (hb : w.vol.Bound path i b n) :
    ∃ w', appendBatch env edits (handleWith dir g i buf) w = (.ok (), handle dir g i, w') ∧
      w'.vol.Bound path i (b ++ (buf ++ editFrames env edits))
        (b ++ (buf ++ editFrames env edits)).length ∧
      SameExcept [path] w.vol w'.vol ∧
      w.Grew w' (Appending w.vol path i b n (buf ++ editFrames env edits)) := by
  set parts := edits.flatMap (editParts env (handle dir g i).checksum)
  set more := buf ++ editFrames env edits
  obtain ⟨w', hrun, hvol, hgrew⟩ :=
    BufAppend.writeSync_quiet (b := { BufAppend.new i with buf := buf }) hq parts
  have hbytes : buf ++ parts.flatten = more := by
    rw [flatten_editParts]
    rfl
  simp only [hbytes] at hvol hgrew
  rw [show (BufAppend.new i).file = i from rfl] at hvol hgrew
  have hpart := fun b' => sameExcept_append hs hne hb.name b'
  have hlast := (hpart more).trans (sameExcept_sync ((hpart _).sound hs) hne (hb.append more).name)
  refine ⟨w', ?_, ?_, by rw [hvol]; exact hlast, hgrew.mono ?_⟩
  · have hzoom : onFile (M.each BufAppend.write parts >>= fun _ => BufAppend.sync)
        (handleWith dir g i buf) w = (.ok (), handle dir g i, w') :=
      M.zoom_eq Manifest.file (fun self file => { self with file := file })
        (s := handleWith dir g i buf) hrun
    rw [← onFile_bind, M.bind_apply] at hzoom
    unfold appendBatch
    rw [M.bind_apply, each_appendEdit]
    exact hzoom
  · rw [hvol]
    exact (hb.append _).sync
  · have hdur : n ≤ (b ++ more).length := by
      have := hs.durable i
      rw [hb.inode] at this
      simp only [List.length_append] at this ⊢
      omega
    rintro v (⟨k, rfl⟩ | rfl)
    · exact ⟨hpart _, k, n, le_rfl, hb.append _⟩
    · refine ⟨hlast, more.length, _, hdur, ?_⟩
      rw [List.take_length]
      exact (hb.append _).sync

/-- `CURRENT` names generation `g`, durably, and its scratch file is gone. -/
structure Named (dir : String) (g : Nat) (v : Volume Path) : Prop where
  current : ∃ c, v.Bound (currentPath dir) c (currentBytes g) (currentBytes g).length
  scratch : v.lookup (currentTmpPath dir) = none

/-- The volumes of a switch of `CURRENT` on the way: as before, or switched. -/
def Switching (dir : String) (g : Nat) (v₀ v : Volume Path) : Prop :=
  SameExcept [currentTmpPath dir] v₀ v ∨
    (SameExcept [currentTmpPath dir, currentPath dir] v₀ v ∧ Named dir g v)

variable {σ : Type} {s : σ}

/-- `CURRENT` is switched by a rename. -/
theorem writeCurrent_quiet (dir : String) (g : Nat) (hq : w.Quiet) (hs : w.vol.Sound) :
    ∃ w', (writeCurrent dir g : M σ Unit) s w = (.ok (), s, w') ∧
      SameExcept [currentTmpPath dir, currentPath dir] w.vol w'.vol ∧ Named dir g w'.vol ∧
      (∀ p : Path, p.dir = dir → w'.vol.Covered p) ∧ w.Grew w' (Switching dir g w.vol) := by
  set tmp := currentTmpPath dir with htmp
  have hne : ¬ Shares.may tmp := by simp [htmp]
  set i := w.vol.inodeAt tmp
  set v₁ := w.vol.truncateAt tmp with hv₁
  set v₂ := v₁.append i (currentBytes g) with hv₂
  set v₃ := v₂.sync i with hv₃
  set v₄ := v₃.rename tmp (currentPath dir) with hv₄
  set v₅ := v₄.syncNames (fun p => p.dir = dir) with hv₅
  have hb₁ : v₁.Bound tmp i [] 0 := bound_truncateAt w.vol tmp
  have hb₂ : v₂.Bound tmp i (currentBytes g) 0 := hb₁.append _
  have hb₃ : v₃.Bound tmp i (currentBytes g) (currentBytes g).length := hb₂.sync
  have hb₄ : v₄.Bound (currentPath dir) i (currentBytes g) (currentBytes g).length := hb₃.rename
  have h₁ : SameExcept [tmp] w.vol v₁ := sameExcept_truncateAt hs hne
  have h₂ : SameExcept [tmp] w.vol v₂ := h₁.trans (sameExcept_append (h₁.sound hs) hne hb₁.name _)
  have h₃ : SameExcept [tmp] w.vol v₃ := h₂.trans (sameExcept_sync (h₂.sound hs) hne hb₂.name)
  have h₄ : SameExcept [tmp, currentPath dir] w.vol v₄ :=
    (h₃.mono (by simp)).trans (sameExcept_rename hne hb₃.name)
  have h₅ : SameExcept [tmp, currentPath dir] w.vol v₅ :=
    h₄.trans (sameExcept_syncNames _ _)
  have hgone : v₄.lookup tmp = none := by
    rw [hv₄, lookup_rename v₃ tmp (currentPath dir) tmp i hb₃.name,
      if_neg (by simp [tmp, currentTmpPath, currentPath]), if_pos rfl]
  have hn₄ : Named dir g v₄ := ⟨⟨i, hb₄⟩, hgone⟩
  have hn₅ : Named dir g v₅ := ⟨⟨i, hb₄.syncNames _⟩, hgone⟩
  set w₁ := w.touch (fun v => v.truncateAt tmp)
  set w₂ := w₁.touch (fun v => v.append i (currentBytes g))
  set w₃ := w₂.touch (fun v => v.sync i)
  set w₄ := w₃.touch (fun v => v.rename tmp (currentPath dir))
  set w₅ := w₄.touch (fun v => v.syncNames (fun p => p.dir = dir))
  have hq₁ : w₁.Quiet := hq.touch _
  have hq₂ : w₂.Quiet := hq₁.touch _
  have hq₃ : w₃.Quiet := hq₂.touch _
  have hq₄ : w₄.Quiet := hq₃.touch _
  refine ⟨w₅, ?_, h₅, hn₅, fun p hp => covered_syncNames (by simpa using hp), ?_⟩
  · unfold writeCurrent
    rw [M.bind_ok (Fs.openTruncate_apply tmp), M.bind_ok (File.append_quiet hq₁ _)]
    have hsync : (File.syncAs i .durable : M σ Unit) s w₂ = (.ok (), s, w₃) := rfl
    rw [M.bind_ok hsync, M.bind_ok (Fs.rename_some (w := w₃) hb₃.name)]
    rfl
  · exact (World.Grew.touch hq (Or.inl h₁)).trans ((World.Grew.touch hq₁ (Or.inl h₂)).trans
      ((World.Grew.touch hq₂ (Or.inl h₃)).trans ((World.Grew.touch hq₃ (Or.inr ⟨h₄, hn₄⟩)).trans
        (World.Grew.touch hq₄ (Or.inr ⟨h₅, hn₅⟩)))))

/-- Reading `CURRENT`. -/
theorem readCurrent_quiet (hq : w.Quiet) (hg : g ≤ u64Max)
    (hb : w.vol.Bound (currentPath dir) i (currentBytes g) n) :
    (readCurrent dir : M σ Nat) s w = (.ok g, s, w) := by
  unfold readCurrent
  rw [M.bind_ok (Fs.openRead_some hb.name), M.bind_ok (File.readAll_quiet hq), hb.inode,
    parseCurrent_currentBytes hg]
  rfl

/-- Replaying a manifest that is there. -/
theorem replay_quiet (env : Env) (hq : w.Quiet) (hb : w.vol.Bound path i b n) :
    (replay env path : M σ ManifestState) s w = (replayManifestBytes env path b, s, w) := by
  unfold replay
  rw [M.bind_ok (M.attempt_eq (Fs.openRead_some hb.name))]
  dsimp only
  rw [M.bind_ok (File.readAll_quiet hq), hb.inode]
  rfl

/-- The header of a new manifest goes into the buffer. -/
theorem writeFront_apply (dir : String) (g i : Nat) :
    (M.on (handle dir g i) (onFile (BufAppend.write manifestFront)) :
      M σ (Unit × Manifest)) s w = (.ok ((), handleWith dir g i manifestFront), s, w) := by
  have hsmall : ¬ (BufAppend.new i).cap ≤ manifestFront.length := by
    show ¬ max appendBufferBytes 1 ≤ 8
    decide
  have hwrite : BufAppend.write manifestFront (BufAppend.new i) w =
      (.ok (), { BufAppend.new i with buf := manifestFront }, w) := by
    have hbuf : (BufAppend.new i).buf = [] := rfl
    simp only [BufAppend.write, M.bind_apply, M.update_apply, M.self_apply, hbuf, List.nil_append]
    rw [if_neg hsmall]
    rfl
  exact M.on_ok (show onFile _ (handle dir g i) w = _ from
    M.zoom_eq Manifest.file (fun self file => { self with file := file }) hwrite)

/-- A new manifest with some first edits, before `CURRENT` names it: what is
there, and what the volumes on the way differ in. -/
theorem writeFresh_quiet (env : Env) (dir : String) (g : Nat) (edits : List VersionEdit)
    (hq : w.Quiet) (hs : w.vol.Sound) :
    ∃ w' i, (do
        let file ← Fs.openFile (manifestPath dir g) .truncate
        let (_, m) ← M.on (handle dir g file) (onFile (BufAppend.write manifestFront))
        let (_, m) ← M.on m (appendBatch env edits)
        return m : M σ Manifest) s w = (.ok (handle dir g i), s, w') ∧
      w'.vol.Bound (manifestPath dir g) i (manifestBytes env edits)
        (manifestBytes env edits).length ∧
      SameExcept [manifestPath dir g] w.vol w'.vol ∧
      w.Grew w' (SameExcept [manifestPath dir g] w.vol) := by
  have h₁ := sameExcept_truncateAt (p := manifestPath dir g) hs (by simp)
  have hq₁ := hq.touch (fun v => v.truncateAt (manifestPath dir g))
  obtain ⟨w₂, hrun₂, hb₂, hsame₂, hgrew₂⟩ := appendBatch_quiet env dir g
    manifestFront edits hq₁ (h₁.sound hs) (by simp)
    (bound_truncateAt w.vol (manifestPath dir g))
  rw [List.nil_append] at hb₂
  refine ⟨w₂, _, ?_, hb₂, h₁.trans hsame₂, ?_⟩
  · rw [M.bind_ok (Fs.openTruncate_apply _), M.bind_ok (writeFront_apply dir g _)]
    dsimp only
    rw [M.bind_ok (M.on_ok hrun₂)]
    rfl
  · exact (World.Grew.touch hq h₁).trans (hgrew₂.mono fun v hv => h₁.trans hv.same)

/-- A generation `CURRENT` names, with the edits its manifest holds. -/
structure Live (env : Env) (dir : String) (g i : Nat) (edits : List VersionEdit)
    (v : Volume Path) : Prop where
  named : Named dir g v
  holds : v.Bound (manifestPath dir g) i (manifestBytes env edits) (manifestBytes env edits).length

/-- The volumes of a first open on the way: `CURRENT` is not there yet, or it
names a manifest that holds nothing. -/
theorem create_quiet (env : Env) (dir : String) (hq : w.Quiet) (hs : w.vol.Sound) :
    ∃ w' i, (create dir : M σ Manifest) s w = (.ok (handle dir 0 i), s, w') ∧
      Live env dir 0 i [] w'.vol ∧
      SameExcept [manifestPath dir 0, currentTmpPath dir, currentPath dir] w.vol w'.vol ∧
      w.Grew w' (fun v =>
        SameExcept [manifestPath dir 0, currentTmpPath dir] w.vol v ∨
          (SameExcept [manifestPath dir 0, currentTmpPath dir, currentPath dir] w.vol v ∧
            Live env dir 0 i [] v)) := by
  obtain ⟨w₁, i, hrun₁, hb₁, hsame₁, hgrew₁⟩ := writeFresh_quiet (s := s) env dir 0 [] hq hs
  obtain ⟨w₂, hrun₂, hsame₂, hnamed₂, -, hgrew₂⟩ :=
    writeCurrent_quiet (s := s) dir 0 hgrew₁.quiet (hsame₁.sound hs)
  have hall : SameExcept [manifestPath dir 0, currentTmpPath dir, currentPath dir] w.vol w₂.vol :=
    (hsame₁.mono (by simp)).trans (hsame₂.mono (by simp))
  have hnot : manifestPath dir 0 ∉ [currentTmpPath dir, currentPath dir] := by
    simp [manifestPath, currentTmpPath, currentPath]
  refine ⟨w₂, i, ?_, ⟨hnamed₂, hb₁.same hsame₂ hnot⟩, hall, ?_⟩
  · -- the source syncs the header where a rollover appends the first edits
    have hcreate : (create dir : M σ Manifest) = (do
        let m ← (do
          let file ← Fs.openFile (manifestPath dir 0) .truncate
          let (_, m) ← M.on (handle dir 0 file) (onFile (BufAppend.write manifestFront))
          let (_, m) ← M.on m (appendBatch env [])
          return m)
        writeCurrent dir 0
        return m) := by
      simp only [bind_assoc, pure_bind]
      rfl
    rw [hcreate, M.bind_ok hrun₁, M.bind_ok hrun₂]
    rfl
  · refine World.Grew.trans (hgrew₁.mono fun v hv => Or.inl (hv.mono (by simp)))
      (hgrew₂.mono ?_)
    rintro v (hv | ⟨hv, hnamed⟩)
    · exact Or.inl ((hsame₁.mono (by simp)).trans (hv.mono (by simp)))
    · exact Or.inr ⟨(hsame₁.mono (by simp)).trans (hv.mono (by simp)), hnamed, hb₁.same hv hnot⟩

/-- The volumes of a rollover on the way: `CURRENT` is as before, or it names
the new generation, which holds the whole state. -/
def Rolling (env : Env) (dir : String) (g newGen i : Nat) (st : ManifestState)
    (v₀ v : Volume Path) : Prop :=
  SameExcept [manifestPath dir newGen, currentTmpPath dir] v₀ v ∨
    (SameExcept [manifestPath dir newGen, currentTmpPath dir, currentPath dir,
        manifestPath dir g] v₀ v ∧ Live env dir newGen i st.snapshotEdits v)

theorem manifestPath_inj {dir : String} {g g' : Nat} :
    manifestPath dir g = manifestPath dir g' ↔ g = g' := by
  simp [manifestPath]

/-- The generation after `g`. -/
def nextGen (g : Nat) : Nat := (g + 1) % 2 ^ 64

theorem nextGen_ne (g : Nat) : nextGen g ≠ g := by
  unfold nextGen
  omega

theorem nextGen_le (g : Nat) : nextGen g ≤ u64Max := by
  unfold nextGen u64Max
  omega

/-- A rollover. -/
theorem rollover_quiet (env : Env) (st : ManifestState) (hq : w.Quiet) (hs : w.vol.Sound)
    (hdir : m.dir = dir) (hgen : m.generation = g) (hb : w.vol.Bound (manifestPath dir g) i b n) :
    ∃ w' j, rollover env st m w = (.ok (), handle dir (nextGen g) j, w') ∧
      Live env dir (nextGen g) j st.snapshotEdits w'.vol ∧
      w'.vol.lookup (manifestPath dir g) = none ∧
      (∀ p : Path, p.dir = dir → p ≠ manifestPath dir g → w'.vol.Covered p) ∧
      SameExcept [manifestPath dir (nextGen g), currentTmpPath dir, currentPath dir,
        manifestPath dir g] w.vol w'.vol ∧
      w.Grew w' (Rolling env dir g (nextGen g) j st w.vol) := by
  subst hdir hgen
  have hne := nextGen_ne m.generation
  obtain ⟨w₁, j, hrun₁, hb₁, hsame₁, hgrew₁⟩ :=
    writeFresh_quiet (s := m) env m.dir (nextGen m.generation) st.snapshotEdits hq hs
  obtain ⟨w₂, hrun₂, hsame₂, hnamed₂, hcovered₂, hgrew₂⟩ :=
    writeCurrent_quiet (s := m) m.dir (nextGen m.generation) hgrew₁.quiet (hsame₁.sound hs)
  have hnew : ∀ k, manifestPath m.dir k ∉ [currentTmpPath m.dir, currentPath m.dir] := by
    simp [manifestPath, currentTmpPath, currentPath]
  have hold : manifestPath m.dir m.generation ∉ [manifestPath m.dir (nextGen m.generation)] := by
    rw [List.mem_singleton, manifestPath_inj]
    exact Ne.symm hne
  have hthree : SameExcept [manifestPath m.dir (nextGen m.generation), currentTmpPath m.dir,
      currentPath m.dir, manifestPath m.dir m.generation] w.vol w₂.vol :=
    (hsame₁.mono (by simp)).trans (hsame₂.mono (by simp))
  have hlive₂ : Live env m.dir (nextGen m.generation) j st.snapshotEdits w₂.vol :=
    ⟨hnamed₂, hb₁.same hsame₂ (hnew _)⟩
  -- the old generation is still there to be removed
  have hb₂ := (hb.same hsame₁ hold).same hsame₂ (hnew _)
  set w₃ := w₂.touch (fun v => v.remove (manifestPath m.dir m.generation))
  have hrem : SameExcept [manifestPath m.dir m.generation] w₂.vol w₃.vol := sameExcept_remove
  have hlive₃ : Live env m.dir (nextGen m.generation) j st.snapshotEdits w₃.vol := by
    have hcur : currentPath m.dir ∉ [manifestPath m.dir m.generation] := by
      simp [manifestPath, currentPath]
    have htmp : currentTmpPath m.dir ∉ [manifestPath m.dir m.generation] := by
      simp [manifestPath, currentTmpPath]
    obtain ⟨c, hc⟩ := hlive₂.named.current
    refine ⟨⟨⟨c, hc.same hrem hcur⟩, (hrem.names _ htmp).trans hlive₂.named.scratch⟩, ?_⟩
    refine hlive₂.holds.same hrem ?_
    rw [List.mem_singleton, manifestPath_inj]
    exact hne
  have hfour : SameExcept [manifestPath m.dir (nextGen m.generation), currentTmpPath m.dir,
      currentPath m.dir, manifestPath m.dir m.generation] w.vol w₃.vol :=
    hthree.trans (hrem.mono (by simp))
  refine ⟨w₃, j, ?_, hlive₃, ?_,
    fun p hp hne => hrem.covered p (by simpa using hne) (hcovered₂ p hp), hfour, ?_⟩
  · have hroll : rollover env st m w = (do
        let writer ← (do
          let file ← Fs.openFile (manifestPath m.dir (nextGen m.generation)) .truncate
          let (_, writer) ← M.on (handle m.dir (nextGen m.generation) file)
            (onFile (BufAppend.write manifestFront))
          let (_, writer) ← M.on writer (appendBatch env st.snapshotEdits)
          return writer)
        writeCurrent m.dir (nextGen m.generation)
        M.update (fun self =>
          { self with
            generation := nextGen m.generation
            file := writer.file
            checksum := writer.checksum })
        let _ ← M.attempt (Fs.remove (manifestPath m.dir m.generation))
        return () : M Manifest Unit) m w := by
      simp only [bind_assoc, pure_bind]
      rfl
    rw [hroll, M.bind_ok hrun₁, M.bind_ok hrun₂, M.bind_ok (M.update_apply _ _ _),
      M.bind_ok (M.attempt_eq (Fs.remove_some hb₂.name))]
    rfl
  · show (w₂.vol.remove _).lookup _ = none
    rw [lookup_remove, if_pos rfl]
  · refine World.Grew.trans (hgrew₁.mono fun v hv => Or.inl (hv.mono (by simp)))
      (World.Grew.trans (hgrew₂.mono ?_) (World.Grew.touch hgrew₂.quiet (Or.inr ⟨hfour, hlive₃⟩)))
    rintro v (hv | ⟨hv, hnamed⟩)
    · exact Or.inl ((hsame₁.mono (by simp)).trans (hv.mono (by simp)))
    · exact Or.inr ⟨(hsame₁.mono (by simp)).trans (hv.mono (by simp)), hnamed,
        hb₁.same hv (hnew _)⟩

/-- The format of a manifest that can be replayed is known. -/
theorem classify_of_replay {st : ManifestState}
    (h : replayManifestBytes env path b = .ok st) :
    ∃ kind, classify b manifestMagic manifestVersion "the manifest" = .ok kind := by
  obtain ⟨kind, hk, _⟩ := bind_eq_ok h
  exact ⟨kind, hk⟩

/-- Opening a manifest that can be replayed rolls it over. -/
theorem openManifest_quiet (env : Env) {st : ManifestState} {c m : Nat} (hq : w.Quiet)
    (hs : w.vol.Sound) (hg : g ≤ u64Max)
    (hcur : w.vol.Bound (currentPath dir) c (currentBytes g) m)
    (hb : w.vol.Bound (manifestPath dir g) i b n)
    (hst : replayManifestBytes env (manifestPath dir g) b = .ok st) :
    ∃ w' j, (openManifest env dir : M σ (Manifest × ManifestState)) s w =
        (.ok (handle dir (nextGen g) j, st), s, w') ∧
      Live env dir (nextGen g) j st.snapshotEdits w'.vol ∧
      w'.vol.lookup (manifestPath dir g) = none ∧
      (∀ p : Path, p.dir = dir → p ≠ manifestPath dir g → w'.vol.Covered p) ∧
      SameExcept [manifestPath dir (nextGen g), currentTmpPath dir, currentPath dir,
        manifestPath dir g] w.vol w'.vol ∧
      w.Grew w' (Rolling env dir g (nextGen g) j st w.vol) := by
  obtain ⟨kind, hkind⟩ := classify_of_replay hst
  have hclass : (classifyManifest dir g : M σ Kind) s w = (.ok kind, s, w) := by
    unfold classifyManifest
    rw [M.bind_ok (M.attempt_eq (Fs.openRead_some hb.name))]
    dsimp only
    rw [M.bind_ok (File.readAt_quiet hq 0 headerLen), hb.inode, List.drop_zero, classify_take,
      hkind]
    rfl
  obtain ⟨w', j, hrun, hrest⟩ := rollover_quiet (m :=
    { dir := dir, generation := g, file := BufAppend.new i, checksum := manifestChecksum kind })
    env st hq hs rfl rfl hb
  refine ⟨w', j, ?_, hrest⟩
  have hreplay := replay_quiet env (s := s) hq hb
  rw [hst] at hreplay
  unfold openManifest
  rw [M.bind_ok (readCurrent_quiet hq hg hcur), M.bind_ok hreplay,
    M.bind_ok (Fs.openAppend_some hb.name), M.bind_ok hclass]
  dsimp only
  rw [M.bind_ok (M.on_ok hrun)]
  rfl

end Manifest

end LsmKv
