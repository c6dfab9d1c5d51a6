import LsmKv.Stock
import LsmKv.WalQuiet

/-!
# Appending to a log after a crash

`Wal::open_append` writes behind whatever the file holds, in the format the
first eight bytes show.  After a crash the file may end in the beginning of a
frame, or of the header.

**Results.**
* `resumes_whole`: behind the end of a frame, appends are recovered.
* `not_resumes_torn`, `not_resumes_short`: behind a part of a frame, and behind
  a part of the header, some append that succeeds is not recovered as written.
* `resumes_take_iff`: so a cut log can be appended to exactly when it is empty or
  ends with a frame.
-/

namespace LsmKv

open Foundation

/-- Write a log from the start. -/
def writeLog (env : Env) (path : Path) (sync : SyncMode) (batches : List (List Record)) :
    M Unit Unit := do
  let wal ← Wal.create path sync
  let _ ← M.on wal (M.each (Wal.appendBatch env) batches)
  return ()

/-- Open a log and append to it. -/
def appendLog (env : Env) (path : Path) (sync : SyncMode) (batches : List (List Record)) :
    M Unit Unit := do
  let wal ← Wal.openAppend path sync
  let _ ← M.on wal (M.each (Wal.appendBatch env) batches)
  return ()

/-- Appends to a file with the bytes `p` that all succeed are replayed behind
what `p` replays to. -/
def Resumes (env : Env) (p : Bytes) : Prop :=
  ∀ (path : Path) (sync : SyncMode) (more : List (List Record)) (w w' : World) (i : Nat),
    w.Quiet → w.vol.lookup path = some i → (w.vol.inodes i).bytes = p →
    (∀ b ∈ more, BatchFits b) →
    appendLog env path sync more () w = (.ok (), (), w') →
    (Wal.replay env path : M Unit (List Record)) () w' =
      ((replayBytes env p).map (· ++ more.flatten), (), w')

/-- The batches that make a frame. -/
def framed (batches : List (List Record)) : List (List Record) := batches.filter (· ≠ [])

theorem flatten_framed (batches : List (List Record)) :
    (framed batches).flatten = batches.flatten := by
  induction batches with
  | nil => rfl
  | cons b bs ih =>
      unfold framed at ih ⊢
      by_cases hb : b = []
      · simpa [hb] using ih
      · rw [List.filter_cons_of_pos (by simpa using hb), List.flatten_cons, List.flatten_cons, ih]

section Runs

variable {env : Env} {path : Path} {sync : SyncMode} {w w' : World} {i : Nat}
variable {batches : List (List Record)}

/-- Appends through a fresh handle put the frames of its format behind the file. -/
theorem handle_appends (env : Env) (path : Path) (sync : SyncMode) (i : Nat) {kind : Kind}
    (hq : w.Quiet) (htake : ∀ b ∈ batches, kind.counted = true ∨ b.length ≤ 1) :
    ∃ w', M.each (Wal.appendBatch env) batches (Wal.handle i path sync kind) w =
        (.ok (), Wal.handle i path sync kind, w') ∧
      w'.Quiet ∧ w'.vol.lookup = w.vol.lookup ∧
      (w'.vol.inodes i).bytes = (w.vol.inodes i).bytes ++
        frames ((walChecksum kind).hash env) (logPayloads kind (framed batches)) := by
  obtain ⟨w', hrun, hq', hl, hb⟩ :=
    Wal.appendEach_quiet env hq (Wal.drained_handle i sync kind) htake
  rw [Wal.flatMap_frameOf_handle] at hb
  exact ⟨w', hrun, hq', hl, hb⟩

/-- A log written from the start has the bytes `logBytes` says. -/
theorem writeLog_quiet (env : Env) (path : Path) (sync : SyncMode)
    (batches : List (List Record)) (hq : w.Quiet) :
    ∃ w' i, writeLog env path sync batches () w = (.ok (), (), w') ∧ w'.Quiet ∧
      w'.vol.lookup path = some i ∧
      (w'.vol.inodes i).bytes = logBytes env newestLog (framed batches) := by
  obtain ⟨i, w₁, hc, hq₁, hl₁, hb₁⟩ := Wal.create_quiet path sync () hq
  have htake : ∀ b ∈ batches, newestLog.counted = true ∨ b.length ≤ 1 := fun b _ => Or.inl rfl
  obtain ⟨w₂, ha, hq₂, hl₂, hb₂⟩ := handle_appends env path sync i hq₁ htake
  refine ⟨w₂, i, ?_, hq₂, by rw [hl₂, hl₁], by rw [hb₂, hb₁, logBytes]⟩
  unfold writeLog
  rw [M.bind_ok hc, M.bind_ok (M.on_ok ha)]
  rfl

/-- Appends to a file that has bytes in it. -/
theorem appendLog_nonempty (env : Env) (sync : SyncMode) {p : Bytes} {kind : Kind} (hq : w.Quiet)
    (hl : w.vol.lookup path = some i) (hp : (w.vol.inodes i).bytes = p) (hne : p ≠ [])
    (hk : classify p walMagic walVersion "the write-ahead log" = .ok kind)
    (htake : ∀ b ∈ batches, kind.counted = true ∨ b.length ≤ 1) :
    ∃ w', appendLog env path sync batches () w = (.ok (), (), w') ∧ w'.Quiet ∧
      w'.vol.lookup path = some i ∧
      (w'.vol.inodes i).bytes =
        p ++ frames ((walChecksum kind).hash env) (logPayloads kind (framed batches)) := by
  subst hp
  obtain ⟨w', ha, hq', hl', hb'⟩ := handle_appends env path sync i hq htake
  refine ⟨w', ?_, hq', by rw [hl', hl], hb'⟩
  unfold appendLog
  rw [M.bind_ok (Wal.openAppend_nonempty sync hq hl hne hk), M.bind_ok (M.on_ok ha)]
  rfl

/-- Appends to an empty file. -/
theorem appendLog_empty (env : Env) (sync : SyncMode) (batches : List (List Record))
    (hq : w.Quiet) (hl : w.vol.lookup path = some i)
    (hp : (w.vol.inodes i).bytes = []) :
    ∃ w', appendLog env path sync batches () w = (.ok (), (), w') ∧ w'.Quiet ∧
      w'.vol.lookup path = some i ∧
      (w'.vol.inodes i).bytes = logBytes env newestLog (framed batches) := by
  obtain ⟨w₁, ho, hvol₁, hgrew₁⟩ := Wal.openAppend_empty sync () hq hl hp
  have htake : ∀ b ∈ batches, newestLog.counted = true ∨ b.length ≤ 1 := fun b _ => Or.inl rfl
  obtain ⟨w', ha, hq', hl', hb'⟩ := handle_appends env path sync i hgrew₁.quiet htake
  refine ⟨w', ?_, hq', ?_, ?_⟩
  · unfold appendLog
    rw [M.bind_ok ho, M.bind_ok (M.on_ok ha)]
    rfl
  · rw [hl', hvol₁, Volume.lookup_append, hl]
  · rw [hb', hvol₁, logBytes]
    simp [hp]

end Runs

section Inversion

variable {hash : Bytes → UInt32} {bytes payload rest : Bytes} {batch : List Record}

theorem nextFrame_eq_some (h : nextFrame hash bytes = some (payload, rest)) :
    payload = (bytes.drop 8).take (ofLe ((bytes.drop 4).take 4)) ∧
      rest = (bytes.drop 8).drop (ofLe ((bytes.drop 4).take 4)) ∧
      payload.length = ofLe ((bytes.drop 4).take 4) := by
  unfold nextFrame at h
  dsimp only at h
  split_ifs at h with h8 hlen hcrc
  cases h
  refine ⟨rfl, rfl, ?_⟩
  rw [List.length_take]
  exact Nat.min_eq_left hlen

theorem decodeRecords_cons {n pos p : Nat} {r : Record} {rs : List Record}
    (h : decodeRecords n payload pos = .ok (r :: rs, p)) :
    ∃ q, Record.decodeAt payload pos = .ok (r, q) := by
  cases n with
  | zero => cases h
  | succ n =>
      obtain ⟨⟨a, q⟩, ha, h⟩ := bind_eq_ok h
      obtain ⟨⟨as, q'⟩, _, h⟩ := bind_eq_ok h
      cases h
      exact ⟨q, ha⟩

theorem decodeRecords_nil {n pos p : Nat} (h : decodeRecords n payload pos = .ok ([], p)) :
    n = 0 ∧ p = pos := by
  cases n with
  | zero =>
      cases h
      exact ⟨rfl, rfl⟩
  | succ n =>
      obtain ⟨⟨a, q⟩, _, h⟩ := bind_eq_ok h
      obtain ⟨⟨as, q'⟩, _, h⟩ := bind_eq_ok h
      cases h

/-- The records of a payload, behind its batch count if it has one. -/
theorem decodeBatch_eq_ok {counted : Bool} (h : decodeBatch counted payload = .ok batch) :
    ∃ n, decodeRecords n payload (if counted then 4 else 0) = .ok (batch, payload.length) ∧
      (counted = false → n = 1) := by
  unfold decodeBatch at h
  cases counted with
  | false =>
      simp only [Bool.false_eq_true, if_false, pure_bind] at h
      obtain ⟨⟨rs, p⟩, hrs, h⟩ := bind_eq_ok h
      simp only at h
      split_ifs at h with hp
      cases h
      rw [not_ne_iff] at hp
      exact ⟨1, by rw [← hp]; exact hrs, fun _ => rfl⟩
  | true =>
      simp only [if_true, pure_bind] at h
      split_ifs at h with h4
      · cases h
      · obtain ⟨⟨rs, p⟩, hrs, h⟩ := bind_eq_ok h
        simp only at h
        split_ifs at h with hp
        cases h
        rw [not_ne_iff] at hp
        exact ⟨_, by rw [← hp]; exact hrs, fun h0 => by cases h0⟩

/-- A replay only adds to what it has. -/
theorem prefix_of_replayFrames {counted : Bool} {fuel : Nat} {s out : List Record}
    (h : replayFrames hash (addBatch counted) fuel bytes s = .ok out) : s <+: out := by
  induction fuel generalizing bytes s with
  | zero =>
      cases h
      exact List.prefix_rfl
  | succ fuel ih =>
      unfold replayFrames at h
      split at h
      · cases h
        exact List.prefix_rfl
      · split at h
        · cases h
        · rename_i happ
          obtain ⟨batch, _, hs'⟩ := bind_eq_ok happ
          cases hs'
          exact (List.prefix_append _ _).trans (ih h)

theorem first_of_prefix {s rs : List Record} {a r : Record} (h : s ++ a :: rs <+: s ++ [r]) :
    a = r := by
  have h := (List.prefix_append_right_inj s).mp h
  rw [List.cons_prefix_cons] at h
  exact h.1

/-- A replay that adds one put found it in some frame, with only empty batches
of twelve bytes before that frame. -/
theorem encode_prefix_of_replay_counted {key value : Bytes} {seq fuel : Nat}
    {s : List Record}
    (h : replayFrames hash (addBatch true) fuel bytes s =
      .ok (s ++ [Record.put key value seq])) :
    ∃ k, (Record.put key value seq).encode <+: bytes.drop (12 * k + 12) ∧
      (k ≠ 0 → ofLe ((bytes.drop 4).take 4) = 4) := by
  induction fuel generalizing bytes with
  | zero => simp [replayFrames] at h
  | succ fuel ih =>
      unfold replayFrames at h
      split at h
      · simp at h
      · rename_i payload rest hnext
        obtain ⟨hpayload, hrest, hlen⟩ := nextFrame_eq_some hnext
        split at h
        · cases h
        · rename_i s' happ
          obtain ⟨batch, hbatch, hs'⟩ := bind_eq_ok happ
          cases hs'
          obtain ⟨n, hrecords, _⟩ := decodeBatch_eq_ok hbatch
          cases batch with
          | nil =>
              rw [List.append_nil] at h
              obtain ⟨k, hk, _⟩ := ih h
              have hfour := (decodeRecords_nil hrecords).2
              rw [hlen, if_pos rfl] at hfour
              refine ⟨k + 1, ?_, fun _ => hfour⟩
              rw [hrest, hfour, List.drop_drop, List.drop_drop] at hk
              have : 8 + (4 + (12 * k + 12)) = 12 * (k + 1) + 12 := by omega
              rwa [this] at hk
          | cons r rs =>
              obtain ⟨q, hr⟩ := decodeRecords_cons hrecords
              obtain rfl := first_of_prefix (prefix_of_replayFrames h)
              refine ⟨0, ?_, fun h0 => absurd rfl h0⟩
              have henc := Record.encode_prefix_of_decodeAt hr
              rw [hpayload, if_pos rfl, List.drop_take, List.drop_drop] at henc
              exact henc.trans (List.take_prefix _ _)

/-- In a log without batch counts the put is in the first frame. -/
theorem encode_prefix_of_replay_single {key value : Bytes} {seq fuel : Nat}
    {s : List Record}
    (h : replayFrames hash (addBatch false) fuel bytes s =
      .ok (s ++ [Record.put key value seq])) :
    (Record.put key value seq).encode <+: bytes.drop 8 := by
  cases fuel with
  | zero => simp [replayFrames] at h
  | succ fuel =>
      unfold replayFrames at h
      split at h
      · simp at h
      · rename_i payload rest hnext
        obtain ⟨hpayload, _, _⟩ := nextFrame_eq_some hnext
        split at h
        · cases h
        · rename_i s' happ
          obtain ⟨batch, hbatch, hs'⟩ := bind_eq_ok happ
          cases hs'
          obtain ⟨n, hrecords, hn⟩ := decodeBatch_eq_ok hbatch
          cases batch with
          | nil =>
              have h0 := (decodeRecords_nil hrecords).1
              rw [hn rfl] at h0
              cases h0
          | cons r rs =>
              obtain ⟨q, hr⟩ := decodeRecords_cons hrecords
              obtain rfl := first_of_prefix (prefix_of_replayFrames h)
              have henc := Record.encode_prefix_of_decodeAt hr
              rw [hpayload, if_neg (by simp), List.drop_zero] at henc
              exact henc.trans (List.take_prefix _ _)

end Inversion

section Whole

variable {env : Env} {batches : List (List Record)}

theorem framed_fits (hfit : ∀ b ∈ batches, BatchFits b) : ∀ b ∈ framed batches, BatchFits b :=
  fun b hb => hfit b (List.mem_filter.mp hb).1

theorem logBytes_newest_ne_nil : logBytes env newestLog batches ≠ [] := by
  intro h
  have := congrArg List.length h
  rw [length_logBytes_newest, headerLen, List.length_nil] at this
  omega

theorem classify_logBytes_newest (t : Bytes) (what : String) :
    classify (logBytes env newestLog batches ++ t) walMagic walVersion what =
      .ok newestLog := by
  rw [logBytes, List.append_assoc]
  exact classify_newestLog _ _

theorem replayBytes_newest_append (hfit : ∀ b ∈ batches, BatchFits b) {t : Bytes}
    (ht : nextFrame ((walChecksum newestLog).hash env) t = none) :
    replayBytes env (logBytes env newestLog batches ++ t) = .ok batches.flatten :=
  replayBytes_logBytes_append newestLog_ne (classify_logBytes_newest _ _) ht hfit
    (fun b _ => takes_newestLog b)

theorem replayBytes_newest (hfit : ∀ b ∈ batches, BatchFits b) :
    replayBytes env (logBytes env newestLog batches) = .ok batches.flatten := by
  rw [← List.append_nil (logBytes env newestLog batches)]
  exact replayBytes_newest_append hfit (nextFrame_short _ (by simp))

/-- An empty log can be appended to. -/
theorem resumes_nil : Resumes env [] := by
  intro path sync more w w' i hq hl hp hfit hrun
  obtain ⟨w₁, hrun₁, hq₁, hl₁, hb₁⟩ :=
    appendLog_empty env sync more hq hl hp
  rw [hrun₁] at hrun
  cases hrun
  rw [Wal.replay_some hq₁ hl₁, hb₁, replayBytes_newest (framed_fits hfit), flatten_framed]
  rfl

/-- A log that ends with a frame can be appended to. -/
theorem resumes_whole (hfit : ∀ b ∈ batches, BatchFits b) :
    Resumes env (logBytes env newestLog batches) := by
  intro path sync more w w' i hq hl hp hmore hrun
  have hk : classify (logBytes env newestLog batches) walMagic walVersion
      "the write-ahead log" = .ok newestLog := by
    rw [← List.append_nil (logBytes env newestLog batches)]
    exact classify_logBytes_newest _ _
  have htake : ∀ b ∈ more, newestLog.counted = true ∨ b.length ≤ 1 := fun b _ => Or.inl rfl
  obtain ⟨w₁, hrun₁, hq₁, hl₁, hb₁⟩ :=
    appendLog_nonempty env sync hq hl hp logBytes_newest_ne_nil hk htake
  rw [hrun₁] at hrun
  cases hrun
  have hboth : ∀ b ∈ batches ++ framed more, BatchFits b := by
    intro b hb
    rcases List.mem_append.mp hb with hb | hb
    · exact hfit b hb
    · exact framed_fits hmore b hb
  rw [Wal.replay_some hq₁ hl₁, hb₁, ← logBytes_append, replayBytes_newest hboth,
    replayBytes_newest hfit, List.flatten_append, flatten_framed]
  rfl

end Whole

/-- A path, and a world in which it has the bytes `p`. -/
def someLog : Path := ⟨"", .wal⟩

/-- A world whose only file has the bytes `p`. -/
def holding (p : Bytes) : World := World.start ((Volume.empty.create someLog).append 0 p)

theorem lookup_holding (p : Bytes) : (holding p).vol.lookup someLog = some 0 := by
  simp [holding, World.start, Volume.empty]

theorem bytes_holding (p : Bytes) : ((holding p).vol.inodes 0).bytes = p := by
  simp [holding, World.start, Volume.empty]

theorem quiet_holding (p : Bytes) : (holding p).Quiet := World.quiet_start _

/-- What `Resumes` says of the append of one record, on the bytes. -/
theorem Resumes.append_one {env : Env} {p : Bytes} (h : Resumes env p) (hne : p ≠ [])
    {kind : Kind} (hk : classify p walMagic walVersion "the write-ahead log" = .ok kind)
    {r : Record} (hr : BatchFits [r]) :
    replayBytes env
        (p ++ frame ((walChecksum kind).hash env) (batchPayload kind.counted [r])) =
      (replayBytes env p).map (· ++ [r]) := by
  have htake : ∀ b ∈ [[r]], kind.counted = true ∨ b.length ≤ 1 := by simp
  obtain ⟨w', hrun, hq', hl', hb'⟩ := appendLog_nonempty env .none
    (quiet_holding p) (lookup_holding p) (bytes_holding p) hne hk htake
  have hres := h someLog .none [[r]] (holding p) w' 0 (quiet_holding p) (lookup_holding p)
    (bytes_holding p) (by simpa using hr) hrun
  rw [Wal.replay_some hq' hl', hb'] at hres
  simpa [framed, logPayloads, frames] using congrArg Prod.fst hres

section Torn

variable {env : Env}

/-- The record that shows the loss: `k` zero bytes under a key of their own. -/
def probe (k : Nat) : Record := Record.put (List.replicate k 0) [] 255

theorem batchFits_probe {k : Nat} (hk : k = 40 ∨ k = 41) : BatchFits [probe k] := by
  rcases hk with rfl | rfl <;> decide

/-- The first byte of the probe occurs nowhere else in it. -/
theorem encode_probe {k : Nat} (hk : k = 40 ∨ k = 41) :
    (probe k).encode[0]? = some 255 ∧
      ∀ d, 0 < d → d < (probe k).encode.length → (probe k).encode[d]? ≠ some 255 := by
  have htail : (probe k).encode[0]? = some 255 ∧ ∀ b ∈ (probe k).encode.tail, b ≠ 255 := by
    rcases hk with rfl | rfl <;> decide +kernel
  refine ⟨htail.1, ?_⟩
  intro d h0 hd heq
  obtain ⟨d, rfl⟩ := Nat.exists_eq_succ_of_ne_zero (Nat.pos_iff_ne_zero.mp h0)
  rw [Nat.succ_eq_add_one, ← List.getElem?_tail] at heq
  exact htail.2 255 (List.mem_of_getElem? heq) rfl

theorem length_encode_probe (k : Nat) : (probe k).encode.length = 17 + k := by
  simp [probe, Record.put, Record.encodedLen, Record.valueLen]
  omega

/-- Behind `front`, the probe is only found where it was put, or so far ahead
that it ends within `front`. -/
theorem probe_position {k : Nat} (hk : k = 40 ∨ k = 41) {front : Bytes} {o : Nat}
    (h : (probe k).encode <+: (front ++ (probe k).encode).drop o) :
    o = front.length ∨ o + (probe k).encode.length ≤ front.length := by
  obtain ⟨hhead, htail⟩ := encode_probe hk
  rcases Nat.lt_trichotomy o front.length with ho | ho | ho
  · right
    by_contra hlt
    obtain ⟨u, hu⟩ := h
    rw [List.drop_append_of_le_length (by omega)] at hu
    have hd : (front.drop o).length = front.length - o := List.length_drop
    have hat : ((probe k).encode ++ u)[front.length - o]? =
        (front.drop o ++ (probe k).encode)[front.length - o]? := by rw [hu]
    rw [List.getElem?_append_left (by omega), List.getElem?_append_right (by omega), hd,
      Nat.sub_self, hhead] at hat
    exact htail _ (by omega) (by omega) hat
  · exact Or.inl ho
  · have hlen := h.length_le
    rw [List.length_drop, List.length_append] at hlen
    have := length_encode_probe k
    omega

/-- The frame of one record, up to the record. -/
theorem frame_single (hash : Bytes → UInt32) (counted : Bool) (r : Record) :
    ∃ front : Bytes, frame hash (batchPayload counted [r]) = front ++ r.encode ∧
      front.length = if counted then 12 else 8 := by
  refine ⟨le 4 (hash (batchPayload counted [r])).toNat ++
    le 4 (batchPayload counted [r]).length ++ (if counted then le 4 1 else []), ?_, ?_⟩
  · cases counted <;> simp [frame, batchPayload]
  · cases counted <;> simp

/-- The replay of a log goes on behind its whole frames. -/
theorem replayFrames_of_replayBytes {batches : List (List Record)}
    (hfit : ∀ b ∈ batches, BatchFits b) {x : Bytes} {out : List Record}
    (h : replayBytes env (logBytes env newestLog batches ++ x) = .ok out) :
    ∃ fuel, replayFrames ((walChecksum newestLog).hash env) (addBatch true) fuel x
      batches.flatten = .ok out := by
  rw [replayBytes_of_classify newestLog_ne (classify_logBytes_newest _ _), logBytes,
    List.append_assoc, drop_framesStart newestLog_ne] at h
  obtain ⟨fuel, hfuel⟩ : ∃ fuel, (logFront newestLog ++
      (frames ((walChecksum newestLog).hash env) (logPayloads newestLog batches) ++ x)).length +
        1 = (logPayloads newestLog batches).length + fuel := by
    have := length_le_length_frames ((walChecksum newestLog).hash env)
      (logPayloads newestLog batches)
    refine Nat.exists_eq_add_of_le ?_
    simp only [List.length_append]
    omega
  rw [hfuel, replayFrames_frames (logPayloads_lt hfit),
    foldlM_addBatch hfit (fun b _ => takes_newestLog b)] at h
  exact ⟨fuel, h⟩

/-- The length field of a frame whose first eight bytes are there. -/
theorem lengthField_of_torn {hash : Bytes → UInt32} {payload t : Bytes}
    (ht : t <+: frame hash payload) (h8 : 8 ≤ t.length) (x : Bytes) :
    ((t ++ x).drop 4).take 4 = le 4 payload.length := by
  obtain ⟨u, hu⟩ := ht
  have hF := (frame_fields hash payload []).2.1
  rw [List.append_nil, ← hu] at hF
  rw [← hF, List.drop_append_of_le_length (by omega), List.drop_append_of_le_length (by omega),
    List.take_append_of_le_length (by simp; omega),
    List.take_append_of_le_length (by simp; omega)]

/-- The key length of the first record of a frame whose first twenty-five bytes
are there. -/
theorem keyField_of_torn {hash : Bytes → UInt32} {r : Record} {rs : List Record} {t : Bytes}
    (ht : t <+: frame hash (batchPayload true (r :: rs))) (h25 : 25 ≤ t.length) (x : Bytes) :
    (((t ++ x).drop 12).drop 9).take 4 = le 4 r.key.length := by
  obtain ⟨u, hu⟩ := ht
  have hF : (t ++ u).drop 12 = r.encode ++ rs.flatMap Record.encode := by
    have hsplit : t ++ u = (le 4 (hash (batchPayload true (r :: rs))).toNat ++
        le 4 (batchPayload true (r :: rs)).length ++ le 4 (r :: rs).length) ++
          (r.encode ++ rs.flatMap Record.encode) := by
      rw [hu]
      simp [frame, batchPayload]
    rw [hsplit, List.drop_left' (by simp)]
  have hkey := r.keyField (rs.flatMap Record.encode)
  rw [← hF] at hkey
  rw [← hkey, List.drop_drop, List.drop_drop, List.drop_append_of_le_length (by omega),
    List.drop_append_of_le_length (by omega), List.take_append_of_le_length (by simp; omega),
    List.take_append_of_le_length (by simp; omega)]

/-- Behind a part of a frame, the append of a probe is not recovered. -/
theorem not_resumes_torn {batches : List (List Record)} (hfit : ∀ b ∈ batches, BatchFits b)
    {b : List Record} (hb : BatchFits b) (hbne : b ≠ []) {t : Bytes} (ht0 : t ≠ [])
    (ht : t <+: frame ((walChecksum newestLog).hash env) (batchPayload true b))
    (hlt : t.length < (frame ((walChecksum newestLog).hash env) (batchPayload true b)).length) :
    ¬ Resumes env (logBytes env newestLog batches ++ t) := by
  intro h
  obtain ⟨r, rs, rfl⟩ := List.exists_cons_of_ne_nil hbne
  -- a probe whose key length differs from that of the torn frame's first record
  obtain ⟨k, hk, hkr⟩ : ∃ k, (k = 40 ∨ k = 41) ∧ k ≠ r.key.length := by
    by_cases h40 : r.key.length = 40
    · exact ⟨41, Or.inr rfl, by omega⟩
    · exact ⟨40, Or.inl rfl, by omega⟩
  have hone := h.append_one (by simp [logBytes_newest_ne_nil]) (classify_logBytes_newest _ _)
    (batchFits_probe hk)
  rw [replayBytes_newest_append hfit (nextFrame_torn (hb.length true) ht hlt),
    List.append_assoc] at hone
  obtain ⟨front, hframe, hfront⟩ :=
    frame_single ((walChecksum newestLog).hash env) newestLog.counted (probe k)
  rw [if_pos (show newestLog.counted = true from rfl)] at hfront
  obtain ⟨fuel, hreplay⟩ := replayFrames_of_replayBytes hfit hone
  rw [hframe, ← List.append_assoc] at hreplay
  obtain ⟨n, hpre, hn⟩ := encode_prefix_of_replay_counted hreplay
  change (probe k).encode <+: _ at hpre
  have hpos := probe_position hk hpre
  rw [List.length_append, hfront, length_encode_probe] at hpos
  have htlen := List.length_pos_iff.mpr ht0
  -- so the length field of the torn frame is there, and the put is in that frame
  have hn0 : n = 0 := by
    by_contra hne
    have h4 := hn hne
    have hp := hb.payload
    rw [List.append_assoc, lengthField_of_torn ht (by omega),
      ofLe_le (by norm_num at hp ⊢; omega), length_batchPayload_counted, List.flatMap_cons,
      List.length_append, Record.length_encode] at h4
    simp only [Record.encodedLen] at h4
    omega
  subst hn0
  -- where the key length of the torn frame's first record stands
  obtain ⟨x, hx⟩ := hpre
  have hkey := (probe k).keyField x
  rw [hx, List.append_assoc, keyField_of_torn ht (by omega)] at hkey
  have hlen : (probe k).key.length = k := List.length_replicate
  have hr := (hb.record (List.mem_cons_self : r ∈ r :: rs)).key
  have heq := congrArg ofLe hkey
  rw [hlen, ofLe_le (by norm_num at hr ⊢; omega),
    ofLe_le (by rcases hk with rfl | rfl <;> norm_num)] at heq
  exact hkr heq.symm

/-- Behind a part of the header, the append of a probe is not recovered. -/
theorem not_resumes_short {p : Bytes} (hne : p ≠ []) (hlen : p.length < headerLen) :
    ¬ Resumes env p := by
  intro h
  have hk : (40 : Nat) = 40 ∨ (40 : Nat) = 41 := Or.inl rfl
  have hlegacy : classify p walMagic walVersion "the write-ahead log" = .ok .legacy := by
    unfold classify
    rw [if_neg hne, if_neg (by omega)]
  have hone := h.append_one hne hlegacy (batchFits_probe hk)
  rw [replayBytes_short hlen] at hone
  obtain ⟨front, hframe, hfront⟩ :=
    frame_single ((walChecksum .legacy).hash env) Kind.legacy.counted (probe 40)
  have h8 : front.length = 8 := by
    rw [hfront]
    rfl
  rw [hframe, ← List.append_assoc] at hone
  have hfile : p ++ front ++ (probe 40).encode ≠ [] := by simp [hne]
  have hplen := List.length_pos_iff.mpr hne
  simp only [headerLen] at hlen
  -- whichever format the front of the file now shows, the probe is elsewhere
  have hwhere : ∃ o, (probe 40).encode <+: (p ++ front ++ (probe 40).encode).drop o ∧
      o ≠ (p ++ front).length ∧ 8 ≤ o := by
    unfold replayBytes at hone
    obtain ⟨kind, hkind, hone⟩ := bind_eq_ok hone
    have hkne := classify_ne_empty hfile hkind
    rw [if_neg hkne] at hone
    change replayFrames _ (addBatch kind.counted) _ _ [] = .ok ([] ++ [probe 40]) at hone
    cases hc : kind.counted with
    | false =>
        rw [hc] at hone
        have hpre := encode_prefix_of_replay_single hone
        rw [List.drop_drop] at hpre
        refine ⟨framesStart kind + 8, hpre, ?_, by omega⟩
        rw [List.length_append, h8]
        cases kind with
        | empty => exact absurd rfl hkne
        | legacy =>
            simp only [framesStart]
            omega
        | versioned v =>
            simp only [framesStart, headerLen]
            omega
    | true =>
        rw [hc] at hone
        obtain ⟨n, hpre, _⟩ := encode_prefix_of_replay_counted hone
        rw [List.drop_drop] at hpre
        refine ⟨framesStart kind + (12 * n + 12), hpre, ?_, by omega⟩
        rw [List.length_append, h8]
        cases kind with
        | empty => exact absurd rfl hkne
        | legacy => cases hc
        | versioned v =>
            simp only [framesStart, headerLen]
            omega
  obtain ⟨o, hpre, ho, hge⟩ := hwhere
  rcases probe_position hk hpre with hpos | hpos
  · exact ho hpos
  · rw [length_encode_probe, List.length_append, h8] at hpos
    omega

/-- A cut log can be appended to exactly when it is empty or ends with a frame. -/
theorem resumes_take_iff {batches : List (List Record)} (hfit : ∀ b ∈ batches, BatchFits b)
    (hne : ∀ b ∈ batches, b ≠ []) (n : Nat) :
    Resumes env ((logBytes env newestLog batches).take n) ↔
      (logBytes env newestLog batches).take n = [] ∨
        ∃ j, (logBytes env newestLog batches).take n =
          logBytes env newestLog (batches.take j) := by
  constructor
  · intro h
    by_contra hcut
    rw [not_or, not_exists] at hcut
    obtain ⟨hcut0, hcut⟩ := hcut
    by_cases hn : n < headerLen
    · exact not_resumes_short hcut0 (by rw [List.length_take]; omega) h
    · have hfront : (logBytes env newestLog batches).take n = logFront newestLog ++
          (frames ((walChecksum newestLog).hash env) (logPayloads newestLog batches)).take
            (n - headerLen) := by
        rw [logBytes, List.take_append, List.take_of_length_le, length_logFront_newest]
        rw [length_logFront_newest]
        omega
      obtain ⟨t, ht, hc⟩ := take_frames ((walChecksum newestLog).hash env)
        (logPayloads newestLog batches) (n - headerLen)
      have hp : (logBytes env newestLog batches).take n = logBytes env newestLog
          (batches.take (wholeFrames ((walChecksum newestLog).hash env)
            (logPayloads newestLog batches) (n - headerLen))) ++ t := by
        rw [hfront, ht, logBytes, List.append_assoc, logPayloads, logPayloads, List.map_take]
      rw [hp] at h
      rcases hc with rfl | ⟨payload, hpayload, hpre, hlt⟩
      · exact hcut _ (by rw [hp, List.append_nil])
      · obtain ⟨b, hb, rfl⟩ := List.mem_map.mp (List.mem_of_getElem? hpayload)
        have ht0 : t ≠ [] := by
          rintro rfl
          exact hcut _ (by rw [hp, List.append_nil])
        exact not_resumes_torn (fun b hb => hfit b (List.mem_of_mem_take hb)) (hfit b hb)
          (hne b hb) ht0 hpre hlt h
  · rintro (h | ⟨j, h⟩)
    · rw [h]
      exact resumes_nil
    · rw [h]
      exact resumes_whole (fun b hb => hfit b (List.mem_of_mem_take hb))

end Torn

/-- Appends to a log that was written from the start and then cut are recovered
exactly when the cut leaves nothing or ends with a frame. -/
theorem resumes_written_iff (env : Env) (path : Path) (sync : SyncMode)
    (batches : List (List Record)) (w w' : World) (i : Nat) (hq : w.Quiet)
    (hrun : writeLog env path sync batches () w = (.ok (), (), w'))
    (hl : w'.vol.lookup path = some i) (hfit : ∀ b ∈ batches, BatchFits b) (n : Nat) :
    Resumes env ((w'.vol.inodes i).bytes.take n) ↔
      (w'.vol.inodes i).bytes.take n = [] ∨
        ∃ j, (w'.vol.inodes i).bytes.take n =
          logBytes env newestLog ((framed batches).take j) := by
  obtain ⟨w₁, j, hrun₁, _, hl₁, hb₁⟩ := writeLog_quiet env path sync batches hq
  rw [hrun₁] at hrun
  cases hrun
  rw [hl₁] at hl
  cases hl
  rw [hb₁]
  exact resumes_take_iff (framed_fits hfit) (fun b hb => by simpa using (List.mem_filter.mp hb).2)
    n

/-- A log of one record, cut behind the whole frame. -/
theorem resumes_written_iff_whole :
    Resumes Stock.env
        (((writeLog Stock.env someLog .durable [[Record.put [1] [2] 0]] ()
          (World.start Volume.empty)).2.2.vol.inodes 0).bytes.take 39) ↔
      ((writeLog Stock.env someLog .durable [[Record.put [1] [2] 0]] ()
          (World.start Volume.empty)).2.2.vol.inodes 0).bytes.take 39 = [] ∨
        ∃ j, ((writeLog Stock.env someLog .durable [[Record.put [1] [2] 0]] ()
          (World.start Volume.empty)).2.2.vol.inodes 0).bytes.take 39 =
            logBytes Stock.env newestLog ((framed [[Record.put [1] [2] 0]]).take j) :=
  resumes_written_iff Stock.env someLog .durable [[Record.put [1] [2] 0]]
    (World.start Volume.empty) _ 0 (World.quiet_start _) rfl rfl (by decide) 39

/-- A log of one record, cut inside its frame: the next append succeeds, and the
replay after it returns nothing. -/
theorem append_behind_torn_frame_lost :
    let p := (logBytes Stock.env newestLog [[Record.put [1] [2] 0]]).take 20
    let run := appendLog Stock.env someLog .durable [[Record.put [3] [4] 1]] () (holding p)
    replayBytes Stock.env p = .ok [] ∧ run.1 = .ok () ∧
      ((Wal.replay Stock.env someLog : M Unit (List Record)) () run.2.2).1 = .ok [] ∧
      ¬ Resumes Stock.env p := by
  refine ⟨by decide +kernel, by decide +kernel, by decide +kernel, ?_⟩
  intro h
  have hrun : appendLog Stock.env someLog .durable [[Record.put [3] [4] 1]] ()
      (holding ((logBytes Stock.env newestLog [[Record.put [1] [2] 0]]).take 20)) =
        (.ok (), (), (appendLog Stock.env someLog .durable [[Record.put [3] [4] 1]] ()
          (holding ((logBytes Stock.env newestLog [[Record.put [1] [2] 0]]).take 20))).2.2) :=
    rfl
  have hres := congrArg Prod.fst (h someLog .durable [[Record.put [3] [4] 1]] _ _ 0
    (quiet_holding _) (lookup_holding _) (bytes_holding _) (by decide) hrun)
  revert hres
  decide +kernel

end LsmKv
