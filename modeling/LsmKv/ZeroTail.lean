import LsmKv.LogFiles
import LsmKv.ManifestCrash

/-!
# Logs with zeros behind them

A crash can leave a file longer than what was written to it, with zeros in the blocks that
never reached the disk.  The replays end at the first frame that does not verify, but eight
zero bytes do verify: they are the frame of the empty payload, whose checksum is zero.  Such
a payload has neither a batch count nor an edit in it, and the replays refuse the file.

**Results.**
* `replayBytes_zeros`, `replayManifest_zeros`: eight zeros or more are an error.
* `zero_tail_iff`: the logs and manifests that are written are read back with `n` zeros
  behind them exactly for `n < 8`.
-/

namespace LsmKv

open Foundation Volume

/-- The world with `n` zero bytes behind the file at `path`. -/
def zeroFilled (path : Path) (n : Nat) (w : World) : World :=
  w.touch (fun v => v.append (v.inodeAt path) (List.replicate n 0))

section ZeroTail

variable {env : Env} {w : World} {path : Path} {i n : Nat}

theorem bound_zeroFilled {b : Bytes} {k : Nat} (h : w.vol.Bound path i b k) (n : Nat) :
    (zeroFilled path n w).vol.Bound path i (b ++ List.replicate n 0) k := by
  have hi : w.vol.inodeAt path = i := by
    rw [inodeAt, h.name]
    rfl
  rw [zeroFilled, World.vol_touch, hi]
  exact h.append _

theorem quiet_zeroFilled (hq : w.Quiet) : (zeroFilled path n w).Quiet := hq.touch _

/-- A payload without a batch count is refused. -/
theorem addBatch_nil (records : List Record) :
    addBatch true records [] = .error (.corrupt "WAL frame too short for a batch count") := rfl

/-- A payload without an edit is refused. -/
theorem applyFrame_nil (st : ManifestState × Nat) :
    applyFrame st [] = .error (.corrupt "bad manifest payload length") := rfl

theorem replayBytes_zeros {batches : List (List Record)} (hempty : env.crc32c [] = 0)
    (hfit : ∀ b ∈ batches, BatchFits b) (hn : frameHeader ≤ n) :
    replayBytes env (logBytes env newestLog batches ++ List.replicate n 0) =
      .error (.corrupt "WAL frame too short for a batch count") := by
  have hfuel := length_le_length_frames ((walChecksum newestLog).hash env)
    (logPayloads newestLog batches)
  rw [replayBytes_of_classify newestLog_ne (classify_logBytes_newest _ _), logBytes,
    List.append_assoc, drop_framesStart newestLog_ne]
  refine replayFrames_refused (logPayloads_lt hfit) (nextFrame_zeros hempty hn)
    (foldlM_addBatch hfit (fun b _ => takes_newestLog b) []) (addBatch_nil _) _ ?_
  simp only [List.length_append]
  omega

theorem replayManifest_zeros {edits : List VersionEdit} (hempty : env.crc32c [] = 0)
    (hfit : ∀ e ∈ edits, e.Fits) (hn : frameHeader ≤ n) :
    replayManifestBytes env path (manifestBytes env edits ++ List.replicate n 0) =
      .error (.corrupt "bad manifest payload length") := by
  have hfuel := length_le_length_frames (manifestHash env) (edits.map VersionEdit.encode)
  have hzeros : nextFrame (manifestHash env) (List.replicate n 0) =
      some ([], List.replicate (n - frameHeader) 0) := nextFrame_zeros hempty hn
  have hrun := replayFrames_refused (editPayloads_lt edits) hzeros
    (foldlM_applyFrame hfit ManifestState.default 0) (applyFrame_nil _)
    ((manifestBytes env edits ++ List.replicate n 0).length + 1)
    (by simp only [manifestBytes, editFrames, List.length_append]; omega)
  have hdrop : (manifestBytes env edits ++ List.replicate n 0).drop
      (framesStart (.versioned manifestVersion)) =
        frames (manifestHash env) (edits.map VersionEdit.encode) ++ List.replicate n 0 := by
    rw [manifestBytes, List.append_assoc]
    exact List.drop_left' rfl
  unfold replayManifestBytes
  rw [manifestBytes, List.append_assoc, classify_manifestFront, ← List.append_assoc,
    ← manifestBytes]
  simp only [bind, Except.bind, reduceCtorEq, if_false, hdrop]
  rw [show (manifestChecksum (.versioned manifestVersion)).hash env = manifestHash env from rfl,
    hrun]

theorem replayManifest_few_zeros {edits : List VersionEdit} (hne : edits ≠ [])
    (hfit : ∀ e ∈ edits, e.Fits) (hn : n < frameHeader) :
    replayManifestBytes env path (manifestBytes env edits ++ List.replicate n 0) =
      .ok (applyAll edits) := by
  have hfuel := length_le_length_frames (manifestHash env) (edits.map VersionEdit.encode)
  rw [manifestBytes, List.append_assoc]
  refine replayManifest_of_front (n := edits.length) ?_
    (Or.inl (fun h => hne (List.length_eq_zero_iff.mp h)))
  rw [editFrames, replayFrames_frames_append applyFrame (editPayloads_lt edits)
    (nextFrame_short (manifestHash env) (by rw [List.length_replicate]; exact hn)) _ _
    (by simp only [List.length_append]; omega), foldlM_applyFrame hfit]
  simp [applyAll]

/-- A log of every sequence of appends, and the manifest of every run of opens and appends,
is read back with `n` zero bytes behind it exactly when these are too few for the header of
a frame. -/
theorem zero_tail_iff (env : Env) (hempty : env.crc32c [] = 0) (n : Nat) :
    (∀ path sync batches w w', w.Quiet → (∀ b ∈ batches, BatchFits b) →
      writeLog env path sync batches () w = (.ok (), (), w') →
      ((Wal.replay env path : M Unit _).result () (zeroFilled path n w') = .ok batches.flatten ↔
        n < frameHeader)) ∧
    ∀ dir s m, ManifestRuns env dir s → s.handle = some m →
      ((Manifest.replay env (manifestPath dir m.generation) : M Unit _).result ()
          (zeroFilled (manifestPath dir m.generation) n (World.start s.vol)) =
          .ok (s.appended.foldl ManifestState.apply s.base) ↔
        n < frameHeader) := by
  refine ⟨?_, ?_⟩
  · intro path sync batches w w' hq hfit hrun
    obtain ⟨w₁, i, hrun₁, hq₁, hl, hb⟩ := writeLog_quiet env path sync batches hq
    cases hrun.symm.trans hrun₁
    have hlog : w'.vol.Bound path i (logBytes env newestLog (framed batches))
        (w'.vol.inodes i).synced := ⟨hl, by rw [← hb]⟩
    have hbound := bound_zeroFilled hlog n
    rw [M.result, Wal.replay_some (quiet_zeroFilled hq₁) hbound.name, hbound.inode]
    dsimp only
    rcases lt_or_ge n frameHeader with hn | hn
    · rw [replayBytes_newest_append (framed_fits hfit)
        (nextFrame_short _ (by rw [List.length_replicate]; exact hn)), flatten_framed]
      exact iff_of_true rfl hn
    · rw [replayBytes_zeros hempty (framed_fits hfit) hn]
      exact iff_of_false (by simp) (not_lt.mpr hn)
  · intro dir s m hruns hm
    obtain ⟨g, i, edits, rfl, -, hne, hfit, hlive, hst⟩ := (siteHolds_of_runs hruns).handle m hm
    have hbound := bound_zeroFilled (w := World.start s.vol) hlive.holds n
    rw [M.result, show (Manifest.handle dir g i).generation = g from rfl,
      Manifest.replay_quiet env (quiet_zeroFilled (World.quiet_start _)) hbound, ← hst]
    rcases lt_or_ge n frameHeader with hn | hn
    · rw [replayManifest_few_zeros hne hfit hn]
      exact iff_of_true rfl hn
    · rw [replayManifest_zeros hempty hfit hn]
      exact iff_of_false (by simp) (not_lt.mpr hn)

end ZeroTail

/-- A log of one record and a manifest of one edit, with seven zeros behind each. -/
theorem zero_tail_iff_seven :
    (Wal.replay Stock.env someLog : M Unit _).result () (zeroFilled someLog 7
        (writeLog Stock.env someLog .durable [[Record.put [1] [2] 0]] ()
          (World.start Volume.empty)).2.2) = .ok [Record.put [1] [2] 0] ∧
      ∃ s m, ManifestRuns Stock.env "db" s ∧ s.handle = some m ∧
        (Manifest.replay Stock.env (manifestPath "db" m.generation) : M Unit _).result ()
          (zeroFilled (manifestPath "db" m.generation) 7 (World.start s.vol)) =
            .ok (applyAll [.setNextSstId 1]) := by
  obtain ⟨hlog, hmanifest⟩ := zero_tail_iff Stock.env (by decide +kernel) 7
  refine ⟨(hlog someLog .durable [[Record.put [1] [2] 0]] (World.start Volume.empty) _
    (World.quiet_start _) (by decide) rfl).mpr (by decide), ?_⟩
  obtain ⟨w, i, hrun, hlive, hsame, hgrew⟩ := Manifest.create_quiet (s := ()) Stock.env "db"
    (World.quiet_start Volume.empty) sound_empty
  obtain ⟨w', hfirst, _⟩ := Manifest.appendBatch_quiet Stock.env "db" 0 [] [.setNextSstId 1]
    hgrew.quiet (hsame.sound sound_empty) (by simp) hlive.holds
  have hruns := ManifestRuns.created sound_empty hrun hfirst (by simp) (by decide)
  exact ⟨_, _, hruns, rfl, (hmanifest "db" _ _ hruns rfl).mpr (by decide)⟩

/-- The same log and a manifest of the same edit with eight zeros behind each are refused. -/
theorem zeros_read_as_corruption :
    let log := writeLog Stock.env someLog .durable [[Record.put [1] [2] 0]] ()
      (World.start Volume.empty)
    let manifest := (Manifest.create "db" >>= fun m =>
      M.on m (Manifest.appendBatch Stock.env [.setNextSstId 1])) () (World.start Volume.empty)
    Stock.env.crc32c [] = 0 ∧ log.1 = .ok () ∧ manifest.1.isOk = true ∧
      (Wal.replay Stock.env someLog : M Unit _).result () (zeroFilled someLog 8 log.2.2) =
        .error (.corrupt "WAL frame too short for a batch count") ∧
      (Manifest.replay Stock.env (manifestPath "db" 0) : M Unit _).result ()
          (zeroFilled (manifestPath "db" 0) 8 manifest.2.2) =
        .error (.corrupt "bad manifest payload length") := by
  decide +kernel

end LsmKv
