import LsmKv.ManifestQuiet
import LsmKv.WalResume

/-!
# Log files as a reader finds them

A reader derives the start of the frames, their checksum and their shape from the
front of a file; the writer of the file may have been an older build, or may have
lost power on the way.

**Results.**
* `replay_writeLog_take`: of a log cut at any byte, replay returns the batches
  whose frames end within the cut, in order and nothing else.
* `formats_read_and_extended`: logs and manifests of every accepted format are
  read back whole, and appends to an older log are read back behind it.
-/

namespace LsmKv

open Foundation

section Cut

/-- The batches of a log beside the offsets their frames end at, when the first
frame starts at `start`: checksum, length, and a counted payload. -/
def frameEnds : Nat → List (List Record) → List (Nat × List Record)
  | _, [] => []
  | start, b :: bs =>
      (start + frameHeader + (batchPayload true b).length, b) ::
        frameEnds (start + frameHeader + (batchPayload true b).length) bs

/-- The records of the batches whose frames end within the first `n` bytes of a
log. -/
def recordsWithin (n : Nat) (batches : List (List Record)) : List Record :=
  ((frameEnds headerLen batches).filter (fun e => e.1 ≤ n)).flatMap Prod.snd

variable {batches : List (List Record)} {start n : Nat}

theorem lt_frameEnds {e : Nat × List Record} (he : e ∈ frameEnds start batches) : start < e.1 := by
  induction batches generalizing start with
  | nil => cases he
  | cons b bs ih =>
      have hpos : 0 < frameHeader := by decide
      rcases List.mem_cons.mp he with rfl | he
      · show start < start + frameHeader + _
        omega
      · have := ih he
        omega

/-- Frames end one behind the other, so those within a cut come first. -/
theorem filter_frameEnds (hash : Bytes → UInt32) (hn : start ≤ n) :
    ((frameEnds start batches).filter (fun e => e.1 ≤ n)).map Prod.snd =
      batches.take (wholeFrames hash (batches.map (batchPayload true)) (n - start)) := by
  induction batches generalizing start with
  | nil => rfl
  | cons b bs ih =>
      have hlen : (frame hash (batchPayload true b)).length =
          frameHeader + (batchPayload true b).length := by
        rw [length_frame, frameHeader]
        omega
      rw [frameEnds, List.map_cons, wholeFrames, hlen]
      by_cases hb : start + frameHeader + (batchPayload true b).length ≤ n
      · rw [List.filter_cons_of_pos (by simpa using hb), List.map_cons, ih hb,
          if_pos (by omega), List.take_succ_cons, Nat.sub_sub, Nat.add_assoc]
      · have hnone : (frameEnds (start + frameHeader + (batchPayload true b).length) bs).filter
            (fun e => e.1 ≤ n) = [] := by
          rw [List.filter_eq_nil_iff]
          intro e he
          have := lt_frameEnds he
          simp only [decide_eq_true_eq]
          omega
        rw [List.filter_cons_of_neg (by simpa using hb), hnone, if_neg (by omega)]
        rfl

theorem recordsWithin_eq (env : Env) (n : Nat) (batches : List (List Record)) :
    recordsWithin n batches = (batches.take (wholeBatches env batches n)).flatten := by
  unfold recordsWithin wholeBatches
  rw [List.flatMap_def]
  by_cases hn : headerLen ≤ n
  · rw [filter_frameEnds ((walChecksum newestLog).hash env) hn]
    rfl
  · have hnone : (frameEnds headerLen batches).filter (fun e => e.1 ≤ n) = [] := by
      rw [List.filter_eq_nil_iff]
      intro e he
      have := lt_frameEnds he
      simp only [decide_eq_true_eq]
      omega
    have hzero : n - headerLen = 0 := by omega
    rw [hnone, hzero]
    cases batches with
    | nil => rfl
    | cons b bs => simp [logPayloads, wholeFrames]

theorem framed_eq_self (hne : ∀ b ∈ batches, b ≠ []) : framed batches = batches := by
  unfold framed
  rw [List.filter_eq_self]
  intro b hb
  simpa using hne b hb

/-- A log is created and non-empty batches are appended to it; the file is then
cut to its first `n` bytes.  Replay returns the records of the batches whose
frames lie within the cut, and all of them when nothing is cut off. -/
theorem replay_writeLog_take (env : Env) (path : Path) (sync : SyncMode)
    (hne : ∀ b ∈ batches, b ≠ []) (hfit : ∀ b ∈ batches, BatchFits b) {w : World}
    (hq : w.Quiet) :
    ∃ w' i, writeLog env path sync batches () w = (.ok (), (), w') ∧
      w'.vol.lookup path = some i ∧
      ∀ (n : Nat) (copy : Path) (r : World) (j : Nat), r.Quiet → r.vol.lookup copy = some j →
        (r.vol.inodes j).bytes = (w'.vol.inodes i).bytes.take n →
        (Wal.replay env copy : M Unit (List Record)) () r = (.ok (recordsWithin n batches), (), r) ∧
          ((w'.vol.inodes i).bytes.length ≤ n → recordsWithin n batches = batches.flatten) := by
  obtain ⟨w', i, hrun, _, hl, hb⟩ := writeLog_quiet env path sync batches hq
  rw [framed_eq_self hne] at hb
  refine ⟨w', i, hrun, hl, ?_⟩
  intro n copy r j hr hlr hbr
  rw [hb] at hbr
  refine ⟨?_, fun hn => ?_⟩
  · rw [Wal.replay_some hr hlr, hbr, replayBytes_take hfit, recordsWithin_eq env]
  · rw [hb] at hn
    have hall : batches.length ≤ wholeBatches env batches n :=
      le_wholeBatches le_rfl (by rwa [List.take_length])
    rw [recordsWithin_eq env, List.take_of_length_le hall]

/-- A log of two batches, cut inside the second frame. -/
theorem replay_writeLog_take_torn :
    ∃ p : Bytes, (∃ w', writeLog Stock.env someLog .durable
        [[Record.put [1] [2] 0], [Record.tombstone [1] 1]] () (World.start Volume.empty) =
          (.ok (), (), w') ∧ (w'.vol.file someLog).map Inode.bytes = some p) ∧
      (Wal.replay Stock.env someLog : M Unit (List Record)) () (holding (p.take 60)) =
        (.ok [Record.put [1] [2] 0], (), holding (p.take 60)) := by
  have hne : ∀ b ∈ [[Record.put [1] [2] 0], [Record.tombstone [1] 1]], b ≠ [] := by decide
  obtain ⟨w', i, hrun, hl, hcut⟩ := replay_writeLog_take Stock.env someLog .durable hne
    (by decide) (World.quiet_start Volume.empty)
  refine ⟨(w'.vol.inodes i).bytes, ⟨w', hrun, ?_⟩, ?_⟩
  · rw [Volume.file, hl]
    rfl
  · exact (hcut 60 someLog _ 0 (quiet_holding _) (lookup_holding _) (bytes_holding _)).1

end Cut

section Formats

/-- The log formats older builds wrote, and this one's. -/
def walFormats : List Kind := [.legacy, .versioned 1, .versioned 2, .versioned 3]

/-- The manifest formats older builds wrote, and this one's. -/
def manifestFormats : List Kind := [.legacy, .versioned 1, .versioned 2]

/-- A file without a header begins with the checksum of its first frame, which
must not read as the magic of a header. -/
def Told (magic bytes : Bytes) (kind : Kind) : Prop := kind = .legacy → bytes.take 4 ≠ magic

instance (magic bytes : Bytes) (kind : Kind) : Decidable (Told magic bytes kind) :=
  inferInstanceAs (Decidable (_ → _))

/-- The front of a manifest of a given format. -/
def manifestFrontOf : Kind → Bytes
  | .versioned v => encodeHeader manifestMagic v
  | _ => []

/-- The file of a manifest of a given format. -/
def manifestBytesOf (env : Env) (kind : Kind) (edits : List VersionEdit) : Bytes :=
  manifestFrontOf kind ++
    frames ((manifestChecksum kind).hash env) (edits.map VersionEdit.encode)

variable {env : Env} {kind : Kind} {batches : List (List Record)} {edits : List VersionEdit}

/-- A file without a header whose front is not the magic is taken for one. -/
theorem classify_legacy {bytes magic : Bytes} {newest : Nat} {what : String} (hne : bytes ≠ [])
    (htold : bytes.take 4 ≠ magic) : classify bytes magic newest what = .ok .legacy := by
  unfold classify
  rw [if_neg hne, if_neg (by tauto)]

theorem ne_empty_of_walFormats (hk : kind ∈ walFormats) : kind ≠ .empty := by
  rintro rfl
  exact absurd hk (by decide)

theorem ne_empty_of_manifestFormats (hk : kind ∈ manifestFormats) : kind ≠ .empty := by
  rintro rfl
  exact absurd hk (by decide)

/-- The format of a log shows in its front, whatever is appended. -/
theorem classify_logBytes (hk : kind ∈ walFormats) (hne : logBytes env kind batches ≠ [])
    (htold : Told walMagic (logBytes env kind batches) kind) (rest : Bytes) (what : String) :
    classify (logBytes env kind batches ++ rest) walMagic walVersion what = .ok kind := by
  cases kind with
  | empty => exact absurd hk (by decide)
  | legacy =>
      refine classify_legacy (by simp [hne]) ?_
      have hlen : 4 ≤ (logBytes env .legacy batches).length := by
        cases batches with
        | nil => exact absurd rfl hne
        | cons b bs =>
            simp only [logBytes, logFront, logPayloads, List.map_cons, frames_cons,
              List.nil_append, List.length_append, length_frame]
            omega
      rw [List.take_append_of_le_length hlen]
      exact htold rfl
  | versioned v =>
      have hv : v ≤ walVersion := by
        simp only [walFormats, List.mem_cons, reduceCtorEq, Kind.versioned.injEq,
          List.not_mem_nil, or_false, false_or] at hk
        unfold walVersion
        omega
      unfold logBytes logFront
      rw [List.append_assoc]
      exact classify_encodeHeader rfl hv (by decide) what _

/-- Only a log without a header and without frames is an empty file. -/
theorem logBytes_eq_nil (h : logBytes env kind batches = []) : batches = [] := by
  cases batches with
  | nil => rfl
  | cons b bs =>
      have := congrArg List.length h
      simp only [logBytes, logPayloads, List.map_cons, frames_cons, List.length_append,
        length_frame, List.length_nil] at this
      omega

/-- Appends that succeed were of batches the format takes. -/
theorem takes_of_each_ok {path : Path} {sync : SyncMode} {i : Nat} {w : World} {wal' : Wal}
    {w' : World} (hq : w.Quiet)
    (h : M.each (Wal.appendBatch env) batches (Wal.handle i path sync kind) w =
      (.ok (), wal', w')) :
    ∀ b ∈ batches, kind.counted = true ∨ b.length ≤ 1 := by
  induction batches generalizing w with
  | nil => simp
  | cons b bs ih =>
      have hb : kind.counted = true ∨ b.length ≤ 1 := by
        by_contra hno
        obtain ⟨hc, hlong⟩ := not_or.mp hno
        have hne : b ≠ [] := by
          rintro rfl
          simp at hlong
        rw [M.each_cons, M.bind_apply] at h
        unfold Wal.appendBatch at h
        rw [M.bind_ok (M.self_apply _ _), if_neg hne,
          if_pos ⟨by simpa [Wal.handle] using hc, by omega⟩] at h
        cases h
      have htake : ∀ x ∈ [b], kind.counted = true ∨ x.length ≤ 1 := by simpa using hb
      obtain ⟨w₁, hrun, hq₁, _⟩ := handle_appends env path sync i hq htake
      rw [M.each_cons, M.bind_apply] at hrun
      intro x hx
      rcases List.mem_cons.mp hx with rfl | hx
      · exact hb
      · refine ih hq₁ ?_ x hx
        rw [M.each_cons, M.bind_apply] at h
        cases hfirst : Wal.appendBatch env b (Wal.handle i path sync kind) w with
        | mk r rest =>
            rw [hfirst] at hrun h
            cases r with
            | error e => cases hrun
            | ok u =>
                simp only [M.each_nil, Prod.mk.injEq, true_and] at hrun
                obtain ⟨h1, h2⟩ := hrun
                rw [← h1, ← h2]
                exact h

/-- A log of any format is read back. -/
theorem replayBytes_format (hk : kind ∈ walFormats)
    (htold : Told walMagic (logBytes env kind batches) kind)
    (hfit : ∀ b ∈ batches, BatchFits b) (htake : ∀ b ∈ batches, kind.Takes b) :
    replayBytes env (logBytes env kind batches) = .ok batches.flatten := by
  by_cases hne : logBytes env kind batches = []
  · rw [hne, logBytes_eq_nil hne]
    rfl
  · have hclass := classify_logBytes hk hne htold [] "the write-ahead log"
    rw [List.append_nil] at hclass
    exact replayBytes_logBytes (ne_empty_of_walFormats hk) hclass hfit htake

theorem takes_framed {more : List (List Record)}
    (htake : ∀ b ∈ more, kind.counted = true ∨ b.length ≤ 1) :
    ∀ b ∈ framed more, kind.Takes b := by
  intro b hb
  obtain ⟨hmem, hne⟩ := List.mem_filter.mp hb
  rcases htake b hmem with hc | hlen
  · exact Or.inl hc
  · have : 0 < b.length := List.length_pos_iff.mpr (by simpa using hne)
    exact Or.inr (by omega)

/-- The bytes behind an older log are those of its own format. -/
theorem logBytes_extended (more : List (List Record)) :
    logBytes env kind batches ++
        frames ((walChecksum kind).hash env) (logPayloads kind (framed more)) =
      logBytes env kind (batches ++ framed more) := (logBytes_append _).symm

section Append

variable {path : Path} {sync : SyncMode} {w w' : World} {i : Nat} {more : List (List Record)}

/-- Appends of batches the format takes succeed, and are read back behind what
was there. -/
theorem appendLog_format (sync : SyncMode) (hk : kind ∈ walFormats) (hq : w.Quiet)
    (hl : w.vol.lookup path = some i) (hb : (w.vol.inodes i).bytes = logBytes env kind batches)
    (htold : Told walMagic (logBytes env kind batches) kind)
    (hfit : ∀ b ∈ batches, BatchFits b) (htake : ∀ b ∈ batches, kind.Takes b)
    (hmore : ∀ b ∈ more, BatchFits b)
    (hmoretake : logBytes env kind batches = [] ∨
      ∀ b ∈ more, kind.counted = true ∨ b.length ≤ 1) :
    ∃ w', appendLog env path sync more () w = (.ok (), (), w') ∧
      (Wal.replay env path : M Unit (List Record)) () w' =
        (.ok (batches.flatten ++ more.flatten), (), w') := by
  by_cases hne : logBytes env kind batches = []
  · obtain ⟨w', hrun, hq', hl', hb'⟩ := appendLog_empty env sync more hq hl (hb.trans hne)
    refine ⟨w', hrun, ?_⟩
    rw [Wal.replay_some hq' hl', hb', replayBytes_newest (framed_fits hmore), flatten_framed,
      logBytes_eq_nil hne]
    rfl
  · have hmt := hmoretake.resolve_left hne
    have hclass := classify_logBytes hk hne htold
    have hclass₀ := hclass [] "the write-ahead log"
    rw [List.append_nil] at hclass₀
    obtain ⟨w', hrun, hq', hl', hb'⟩ := appendLog_nonempty env sync hq hl hb hne hclass₀ hmt
    refine ⟨w', hrun, ?_⟩
    have hclass₁ := hclass (frames ((walChecksum kind).hash env) (logPayloads kind (framed more)))
      "the write-ahead log"
    rw [logBytes_extended] at hb' hclass₁
    have hreplay : replayBytes env (logBytes env kind (batches ++ framed more)) =
        .ok (batches ++ framed more).flatten := replayBytes_logBytes
      (ne_empty_of_walFormats hk) hclass₁
      (fun b hb => (List.mem_append.mp hb).elim (hfit b) (framed_fits hmore b))
      (fun b hb => (List.mem_append.mp hb).elim (htake b) (takes_framed hmt b))
    rw [Wal.replay_some hq' hl', hb', hreplay, List.flatten_append, flatten_framed]

/-- Appends that succeed were of batches the format takes. -/
theorem takes_of_appendLog_ok (hq : w.Quiet) (hl : w.vol.lookup path = some i)
    (hb : (w.vol.inodes i).bytes = logBytes env kind batches) (hk : kind ∈ walFormats)
    (htold : Told walMagic (logBytes env kind batches) kind)
    (h : appendLog env path sync more () w = (.ok (), (), w')) :
    logBytes env kind batches = [] ∨ ∀ b ∈ more, kind.counted = true ∨ b.length ≤ 1 := by
  by_cases hne : logBytes env kind batches = []
  · exact Or.inl hne
  · right
    have hclass := classify_logBytes hk hne htold [] "the write-ahead log"
    rw [List.append_nil, ← hb] at hclass
    have hopen := Wal.openAppend_nonempty (s := ()) sync hq hl (hb ▸ hne) hclass
    unfold appendLog at h
    rw [M.bind_ok hopen, M.bind_apply] at h
    unfold M.on at h
    cases heach : M.each (Wal.appendBatch env) more (Wal.handle i path sync kind) w with
    | mk r rest =>
        cases r with
        | error e =>
            rw [heach] at h
            cases h
        | ok u => exact takes_of_each_ok hq heach

end Append

/-- The format of a manifest shows in its front. -/
theorem classify_manifestBytesOf (hk : kind ∈ manifestFormats)
    (hne : manifestBytesOf env kind edits ≠ [])
    (htold : Told manifestMagic (manifestBytesOf env kind edits) kind) (what : String) :
    classify (manifestBytesOf env kind edits) manifestMagic manifestVersion what = .ok kind := by
  cases kind with
  | empty => exact absurd hk (by decide)
  | legacy => exact classify_legacy hne (htold rfl)
  | versioned v =>
      have hv : v ≤ manifestVersion := by
        simp only [manifestFormats, List.mem_cons, reduceCtorEq, Kind.versioned.injEq,
          List.not_mem_nil, or_false, false_or] at hk
        unfold manifestVersion
        omega
      exact classify_encodeHeader rfl hv (by decide) what _

/-- A manifest of any format replays to the state its edits build. -/
theorem replayManifest_format (path : Path) (hk : kind ∈ manifestFormats)
    (htold : Told manifestMagic (manifestBytesOf env kind edits) kind)
    (hfit : ∀ e ∈ edits, e.Fits) :
    replayManifestBytes env path (manifestBytesOf env kind edits) = .ok (applyAll edits) := by
  have hlen : (manifestFrontOf kind).length = framesStart kind := by
    cases kind with
    | empty => exact absurd hk (by decide)
    | legacy => rfl
    | versioned v => simp [manifestFrontOf, encodeHeader, manifestMagic, framesStart, headerLen]
  by_cases hne : manifestBytesOf env kind edits = []
  · have hnil : edits = [] := by
      cases edits with
      | nil => rfl
      | cons e es =>
          have := congrArg List.length hne
          simp only [manifestBytesOf, List.map_cons, frames_cons, List.length_append,
            length_frame, List.length_nil] at this
          omega
    rw [hne, hnil]
    rfl
  · have hclass := classify_manifestBytesOf hk hne htold "the manifest"
    have hdrop : (manifestBytesOf env kind edits).drop (framesStart kind) =
        frames ((manifestChecksum kind).hash env) (edits.map VersionEdit.encode) :=
      List.drop_left' hlen
    have hrun := replayFrames_frames_append applyFrame (t := []) (editPayloads_lt edits)
      (nextFrame_short ((manifestChecksum kind).hash env) (by simp)) (ManifestState.default, 0)
      ((manifestBytesOf env kind edits).length + 1) (by
        have := length_le_length_frames ((manifestChecksum kind).hash env)
          (edits.map VersionEdit.encode)
        simp only [manifestBytesOf, List.length_append]
        omega)
    rw [List.append_nil, foldlM_applyFrame hfit, Nat.zero_add] at hrun
    -- a file without edits ends where its frames would start
    have hcond : ¬ (edits.length = 0 ∧
        (manifestBytesOf env kind edits).length > framesStart kind) := by
      rintro ⟨h0, hlt⟩
      rw [List.length_eq_zero_iff.mp h0] at hlt
      simp [manifestBytesOf, hlen] at hlt
    unfold replayManifestBytes
    rw [hclass]
    simp only [bind, Except.bind, ne_empty_of_manifestFormats hk, if_false, hdrop, hrun]
    rw [if_neg hcond]
    rfl

/-- Files of every format are read back whole.  An older log can be appended to:
single records always, batches when its frames are counted, and what was
appended is read back behind what was there. -/
theorem formats_read_and_extended (env : Env) (path : Path) {w : World} {i : Nat} (hq : w.Quiet)
    (hl : w.vol.lookup path = some i) :
    (∀ kind ∈ walFormats, ∀ batches : List (List Record),
      (w.vol.inodes i).bytes = logBytes env kind batches →
      Told walMagic (logBytes env kind batches) kind →
      (∀ b ∈ batches, BatchFits b) → (∀ b ∈ batches, kind.Takes b) →
        (Wal.replay env path : M Unit (List Record)) () w = (.ok batches.flatten, (), w) ∧
        ∀ (sync : SyncMode) (more : List (List Record)), (∀ b ∈ more, BatchFits b) →
          ((∀ b ∈ more, kind.Takes b) →
            ∃ w', appendLog env path sync more () w = (.ok (), (), w')) ∧
          ∀ w', appendLog env path sync more () w = (.ok (), (), w') →
            (Wal.replay env path : M Unit (List Record)) () w' =
              (.ok (batches.flatten ++ more.flatten), (), w')) ∧
    (∀ kind ∈ manifestFormats, ∀ edits : List VersionEdit,
      (w.vol.inodes i).bytes = manifestBytesOf env kind edits →
      Told manifestMagic (manifestBytesOf env kind edits) kind → (∀ e ∈ edits, e.Fits) →
        (Manifest.replay env path : M Unit ManifestState) () w =
          (.ok (applyAll edits), (), w)) := by
  refine ⟨?_, ?_⟩
  · intro kind hk batches hb htold hfit htake
    refine ⟨?_, fun sync more hmore => ⟨fun hmt => ?_, fun w' hrun => ?_⟩⟩
    · rw [Wal.replay_some hq hl, hb, replayBytes_format hk htold hfit htake]
    · obtain ⟨w', hrun, _⟩ := appendLog_format sync hk hq hl hb htold hfit htake hmore
        (Or.inr fun b hb => (hmt b hb).imp id le_of_eq)
      exact ⟨w', hrun⟩
    · have hmt := takes_of_appendLog_ok hq hl hb hk htold hrun
      obtain ⟨w₁, hrun₁, hreplay⟩ := appendLog_format sync hk hq hl hb htold hfit htake hmore hmt
      rw [hrun] at hrun₁
      cases hrun₁
      exact hreplay
  · intro kind hk edits hb htold hfit
    have hbound : w.vol.Bound path i (manifestBytesOf env kind edits) (w.vol.inodes i).synced :=
      ⟨hl, by rw [← hb]⟩
    rw [Manifest.replay_quiet env hq hbound, replayManifest_format path hk htold hfit]

/-- A log without a header, of two records, is read back and extended by a third. -/
theorem formats_read_and_extended_legacy :
    let old := [[Record.put [1] [2] 0], [Record.tombstone [3] 1]]
    let w := holding (logBytes Stock.env .legacy old)
    ∃ w', appendLog Stock.env someLog .durable [[Record.put [4] [5] 2]] () w = (.ok (), (), w') ∧
      (Wal.replay Stock.env someLog : M Unit (List Record)) () w' =
        (.ok (old.flatten ++ [Record.put [4] [5] 2]), (), w') := by
  intro old w
  obtain ⟨hlog, _⟩ := formats_read_and_extended Stock.env someLog (quiet_holding _)
    (lookup_holding (logBytes Stock.env .legacy old))
  obtain ⟨_, hmore⟩ := hlog .legacy (by decide) old (bytes_holding _) (by decide +kernel)
    (by decide) (fun b hb => Or.inr (by revert b; decide))
  obtain ⟨htakes, hread⟩ := hmore .durable [[Record.put [4] [5] 2]] (by decide)
  obtain ⟨w', hrun⟩ := htakes fun b hb => Or.inr (by revert b; decide)
  exact ⟨w', hrun, hread w' hrun⟩

end Formats

end LsmKv
