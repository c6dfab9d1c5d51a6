import LsmKv.Wal

/-!
# What a log replays to

`logBytes env kind batches` is the file of a log of a given format after the
appends of `batches`.

**Results.**
* `replayBytes_logBytes`: a whole log replays to its records in order.
* `replayBytes_take`: the log of the newest format, cut anywhere, replays to the
  records of the batches whose frames are complete.
-/

namespace LsmKv

open Foundation

/-- A batch whose records and frame fit their fields. -/
structure BatchFits (records : List Record) : Prop where
  seqs : ∀ r ∈ records, r.seq < 2 ^ 64
  payload : (batchPayload true records).length < 2 ^ 32

instance (records : List Record) : Decidable (BatchFits records) :=
  decidable_of_iff
    ((∀ r ∈ records, r.seq < 2 ^ 64) ∧ (batchPayload true records).length < 2 ^ 32)
    ⟨fun h => ⟨h.1, h.2⟩, fun h => ⟨h.seqs, h.payload⟩⟩

section Payload

variable {records : List Record}

theorem encodedLen_le_of_mem {r : Record} (hr : r ∈ records) :
    r.encodedLen ≤ (records.flatMap Record.encode).length := by
  induction records with
  | nil => simp at hr
  | cons a l ih =>
      rw [List.flatMap_cons, List.length_append, Record.length_encode]
      rcases List.mem_cons.mp hr with rfl | hr
      · omega
      · have := ih hr
        omega

theorem length_le_flatMap_encode (records : List Record) :
    17 * records.length ≤ (records.flatMap Record.encode).length := by
  induction records with
  | nil => simp
  | cons a l ih =>
      rw [List.flatMap_cons, List.length_append, Record.length_encode, List.length_cons]
      simp only [Record.encodedLen]
      omega

@[simp] theorem length_batchPayload_counted (records : List Record) :
    (batchPayload true records).length = 4 + (records.flatMap Record.encode).length := by
  simp [batchPayload]

theorem BatchFits.record (h : BatchFits records) {r : Record} (hr : r ∈ records) : r.Fits := by
  have hp := h.payload
  have hlen := encodedLen_le_of_mem hr
  rw [length_batchPayload_counted] at hp
  simp only [Record.encodedLen] at hlen
  exact ⟨by omega, by omega, h.seqs r hr⟩

theorem BatchFits.length (h : BatchFits records) (counted : Bool) :
    (batchPayload counted records).length < 2 ^ 32 := by
  have hp := h.payload
  cases counted with
  | true => exact hp
  | false =>
      rw [length_batchPayload_counted] at hp
      simp only [batchPayload, Bool.false_eq_true, if_false, List.nil_append]
      omega

theorem BatchFits.count (h : BatchFits records) : records.length < 2 ^ 32 := by
  have hp := h.payload
  have := length_le_flatMap_encode records
  rw [length_batchPayload_counted] at hp
  omega

/-- Records in front of the cursor are read back in order. -/
theorem decodeRecords_of_drop (hfit : ∀ r ∈ records, r.Fits) {buf rest : Bytes} {pos : Nat}
    (hpos : pos ≤ buf.length) (hd : buf.drop pos = records.flatMap Record.encode ++ rest) :
    decodeRecords records.length buf pos =
      .ok (records, pos + (records.flatMap Record.encode).length) := by
  induction records generalizing pos with
  | nil => simp [decodeRecords]
  | cons r rs ih =>
      rw [List.flatMap_cons, List.append_assoc] at hd
      have hr := Record.decodeAt_of_drop (hfit r (by simp)) hpos hd
      have hd' := drop_behind hd
      have hpos' := behind_le hpos hd
      rw [Record.length_encode] at hd' hpos'
      have hrest := ih (fun x hx => hfit x (by simp [hx])) hpos' hd'
      rw [List.length_cons, decodeRecords, hr]
      simp only [bind, Except.bind]
      rw [hrest]
      simp only [pure, Except.pure, List.flatMap_cons, List.length_append, Record.length_encode]
      rw [Nat.add_assoc]

/-- A payload is read back as the records it was built from. -/
theorem decodeBatch_of_fits {counted : Bool} (hrec : ∀ r ∈ records, r.Fits)
    (hlt : records.length < 2 ^ 32) (hc : counted = true ∨ records.length = 1) :
    decodeBatch counted (batchPayload counted records) = .ok records := by
  unfold decodeBatch
  cases counted with
  | true =>
      have hd : (batchPayload true records).drop 4 = records.flatMap Record.encode ++ [] := by
        rw [batchPayload, if_pos rfl, List.drop_left' (length_le _ _), List.append_nil]
      have hlen := length_batchPayload_counted records
      have hrs := decodeRecords_of_drop hrec (by omega) hd
      have hcount : ofLe ((batchPayload true records).take 4) = records.length := by
        rw [batchPayload, if_pos rfl, List.take_left' (length_le _ _)]
        exact ofLe_le (by norm_num at hlt ⊢; omega)
      have h4 : ¬ (batchPayload true records).length < 4 := by omega
      rw [if_pos rfl, if_neg h4]
      simp only [bind, Except.bind, pure, Except.pure, hcount, hrs, hlen]
      simp
  | false =>
      have hone : records.length = 1 := by simpa using hc
      have hp : batchPayload false records = records.flatMap Record.encode := by
        simp [batchPayload]
      have hd : (batchPayload false records).drop 0 = records.flatMap Record.encode ++ [] := by
        simp [hp]
      have hrs := decodeRecords_of_drop hrec (by omega) hd
      rw [hone, hp] at hrs
      simp only [Bool.false_eq_true, if_false, bind, Except.bind, pure, Except.pure, hp, hrs]
      simp

theorem decodeBatch_batchPayload {counted : Bool} (hfit : BatchFits records)
    (hc : counted = true ∨ records.length = 1) :
    decodeBatch counted (batchPayload counted records) = .ok records :=
  decodeBatch_of_fits (fun _ hr => hfit.record hr) hfit.count hc

end Payload

/-- The front of a log of a given format. -/
def logFront : Kind → Bytes
  | .versioned v => encodeHeader walMagic v
  | _ => []

/-- The payloads of a log. -/
def logPayloads (kind : Kind) (batches : List (List Record)) : List Bytes :=
  batches.map (batchPayload kind.counted)

/-- The file of a log. -/
def logBytes (env : Env) (kind : Kind) (batches : List (List Record)) : Bytes :=
  logFront kind ++ frames ((walChecksum kind).hash env) (logPayloads kind batches)

/-- The format every new log is written in. -/
def newestLog : Kind := .versioned walVersion

/-- The step function of a replay. -/
def addBatch (counted : Bool) (records : List Record) (payload : Bytes) :
    Except Error (List Record) := do
  let batch ← decodeBatch counted payload
  return records ++ batch

/-- A batch a log of this format takes. -/
def Kind.Takes (kind : Kind) (records : List Record) : Prop :=
  kind.counted = true ∨ records.length = 1

section Replay

variable {env : Env} {kind : Kind} {batches : List (List Record)}

theorem length_encodeHeader (version : Nat) : (encodeHeader walMagic version).length = 8 := by
  simp [encodeHeader, walMagic]

theorem foldlM_addBatch (hfit : ∀ b ∈ batches, BatchFits b) (htake : ∀ b ∈ batches, kind.Takes b)
    (s : List Record) :
    (logPayloads kind batches).foldlM (addBatch kind.counted) s = .ok (s ++ batches.flatten) := by
  induction batches generalizing s with
  | nil => simp [logPayloads, pure, Except.pure]
  | cons b bs ih =>
      have hb := decodeBatch_batchPayload (hfit b (by simp)) (htake b (by simp))
      have hrest := ih (fun x hx => hfit x (by simp [hx])) (fun x hx => htake x (by simp [hx]))
        (s ++ b)
      rw [logPayloads, List.map_cons, List.foldlM_cons, addBatch, hb]
      simp only [bind, Except.bind, pure, Except.pure]
      rw [logPayloads] at hrest
      simpa using hrest

theorem logPayloads_lt (hfit : ∀ b ∈ batches, BatchFits b) :
    ∀ p ∈ logPayloads kind batches, p.length < 2 ^ 32 := by
  intro p hp
  obtain ⟨b, hb, rfl⟩ := List.mem_map.mp hp
  exact (hfit b hb).length _

/-- The replay of a file whose format is known. -/
theorem replayBytes_of_classify {bytes : Bytes} (hne : kind ≠ .empty)
    (hk : classify bytes walMagic walVersion "the write-ahead log" = .ok kind) :
    replayBytes env bytes =
      replayFrames ((walChecksum kind).hash env) (addBatch kind.counted) (bytes.length + 1)
        (bytes.drop (framesStart kind)) [] := by
  unfold replayBytes
  rw [hk]
  simp only [bind, Except.bind, hne, if_false]
  rfl

theorem drop_framesStart (hne : kind ≠ .empty) (rest : Bytes) :
    (logFront kind ++ rest).drop (framesStart kind) = rest := by
  cases kind with
  | empty => exact absurd rfl hne
  | legacy => rfl
  | versioned v => exact List.drop_left' (length_encodeHeader v)

/-- A whole log, and whatever reads as the end behind it, replays to the log's
records. -/
theorem replayBytes_logBytes_append (hne : kind ≠ .empty) {t : Bytes}
    (hk : classify (logBytes env kind batches ++ t) walMagic walVersion "the write-ahead log" =
      .ok kind)
    (ht : nextFrame ((walChecksum kind).hash env) t = none)
    (hfit : ∀ b ∈ batches, BatchFits b) (htake : ∀ b ∈ batches, kind.Takes b) :
    replayBytes env (logBytes env kind batches ++ t) = .ok batches.flatten := by
  rw [replayBytes_of_classify hne hk]
  unfold logBytes
  rw [List.append_assoc, drop_framesStart hne,
    replayFrames_frames_append _ (logPayloads_lt hfit) ht, foldlM_addBatch hfit htake]
  · rfl
  · have := length_le_length_frames ((walChecksum kind).hash env)
      (logPayloads kind batches)
    simp only [List.length_append]
    omega

/-- A whole log replays to its records. -/
theorem replayBytes_logBytes (hne : kind ≠ .empty)
    (hk : classify (logBytes env kind batches) walMagic walVersion "the write-ahead log" =
      .ok kind)
    (hfit : ∀ b ∈ batches, BatchFits b) (htake : ∀ b ∈ batches, kind.Takes b) :
    replayBytes env (logBytes env kind batches) = .ok batches.flatten := by
  rw [← List.append_nil (logBytes env kind batches)] at hk ⊢
  exact replayBytes_logBytes_append hne hk (nextFrame_short _ (by simp)) hfit htake

@[simp] theorem logBytes_nil : logBytes env kind [] = logFront kind := by
  simp [logBytes, logPayloads]

theorem logBytes_append (more : List (List Record)) :
    logBytes env kind (batches ++ more) =
      logBytes env kind batches ++
        frames ((walChecksum kind).hash env) (logPayloads kind more) := by
  simp [logBytes, logPayloads]

theorem takes_newestLog (b : List Record) : newestLog.Takes b := Or.inl rfl

theorem newestLog_ne : newestLog ≠ .empty := by decide

theorem classify_newestLog (rest : Bytes) (what : String) :
    classify (logFront newestLog ++ rest) walMagic walVersion what = .ok newestLog :=
  classify_encodeHeader rfl (le_refl walVersion) (by decide) what rest

/-- The number of batches that are whole in the first `n` bytes of a log. -/
def wholeBatches (env : Env) (batches : List (List Record)) (n : Nat) : Nat :=
  wholeFrames ((walChecksum newestLog).hash env) (logPayloads newestLog batches) (n - headerLen)

theorem length_logFront_newest : (logFront newestLog).length = headerLen :=
  length_encodeHeader walVersion

theorem length_logBytes_newest :
    (logBytes env newestLog batches).length =
      headerLen +
        (frames ((walChecksum newestLog).hash env) (logPayloads newestLog batches)).length := by
  rw [logBytes, List.length_append, length_logFront_newest]

theorem wholeBatches_le (n : Nat) : wholeBatches env batches n ≤ batches.length := by
  have := wholeFrames_le ((walChecksum newestLog).hash env)
    (logPayloads newestLog batches) (n - headerLen)
  simpa [wholeBatches, logPayloads] using this

/-- Batches that end within the cut are whole. -/
theorem le_wholeBatches {n j : Nat} (hj : j ≤ batches.length)
    (hn : (logBytes env newestLog (batches.take j)).length ≤ n) :
    j ≤ wholeBatches env batches n := by
  rw [length_logBytes_newest] at hn
  apply (le_wholeFrames_iff _ _ (by simpa [logPayloads] using hj)).mpr
  simp only [logPayloads, List.map_take] at hn ⊢
  omega

/-- Only batches that end within the cut are whole. -/
theorem length_le_of_wholeBatches {n j : Nat} (hj : j ≠ 0) (h : j ≤ wholeBatches env batches n) :
    (logBytes env newestLog (batches.take j)).length ≤ n := by
  have hle := h.trans (wholeBatches_le n)
  have hn := (le_wholeFrames_iff _ _ (by simpa [logPayloads] using hle)).mp h
  have hpos := length_le_length_frames ((walChecksum newestLog).hash env)
    ((logPayloads newestLog batches).take j)
  rw [List.length_take, logPayloads, List.length_map, min_eq_left hle] at hpos
  rw [length_logBytes_newest]
  simp only [logPayloads, List.map_take] at hn hpos ⊢
  omega

/-- Fewer bytes than a header replay to nothing. -/
theorem replayBytes_short {bytes : Bytes} (h : bytes.length < headerLen) :
    replayBytes env bytes = .ok [] := by
  by_cases h0 : bytes = []
  · subst h0
    rfl
  · have hk : classify bytes walMagic walVersion "the write-ahead log" = .ok .legacy := by
      unfold classify
      rw [if_neg h0, if_neg (by omega)]
    rw [replayBytes_of_classify (by decide) hk]
    simp only [framesStart, List.drop_zero]
    unfold replayFrames
    rw [nextFrame_short _ (by simpa [headerLen] using h)]

/-- A log of the newest format, cut anywhere, replays to its whole batches. -/
theorem replayBytes_take (hfit : ∀ b ∈ batches, BatchFits b) (n : Nat) :
    replayBytes env ((logBytes env newestLog batches).take n) =
      .ok (batches.take (wholeBatches env batches n)).flatten := by
  by_cases hn : n < headerLen
  · have hw : wholeBatches env batches n = 0 := by
      unfold wholeBatches
      have h0 : n - headerLen = 0 := by omega
      rw [h0]
      cases batches with
      | nil => rfl
      | cons b bs => simp [logPayloads, wholeFrames]
    rw [hw, replayBytes_short (by rw [List.length_take]; omega)]
    simp
  · have hcut : (logBytes env newestLog batches).take n = logFront newestLog ++
        (frames ((walChecksum newestLog).hash env) (logPayloads newestLog batches)).take
          (n - headerLen) := by
      rw [logBytes, List.take_append, List.take_of_length_le, length_logFront_newest]
      rw [length_logFront_newest]
      omega
    rw [hcut, replayBytes_of_classify newestLog_ne (classify_newestLog _ _),
      drop_framesStart newestLog_ne, replayFrames_take (logPayloads_lt hfit)]
    · have hmap : (logPayloads newestLog batches).take (wholeBatches env batches n) =
          logPayloads newestLog (batches.take (wholeBatches env batches n)) := by
        simp [logPayloads]
      have hfit' : ∀ b ∈ batches.take (wholeBatches env batches n), BatchFits b :=
        fun b hb => hfit b (List.mem_of_mem_take hb)
      have hfold := foldlM_addBatch hfit' (fun b _ => takes_newestLog b) []
      rw [← hmap] at hfold
      simpa [wholeBatches] using hfold
    · rw [List.length_append]
      omega

end Replay

end LsmKv
