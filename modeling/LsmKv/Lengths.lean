import LsmKv.Engine
import LsmKv.RecordCodec
import LsmKv.WalResume

/-!
# The length fields of the log

`append_batch` writes the length of a payload and the number of its records as 32 bits, and
`encode_into` those of a key and a value.  None of the calls that lead there refuses what is
too long for them.

**Results.**
* `replayFrames_bounds`: records that a replay returns stand in frames, and no frame is
  longer than its length field can say.
* `write_lengths_iff`: what a write appends is read back, and its fields are right, exactly
  when the payload is shorter than `2 ^ 32` bytes.
-/

namespace LsmKv

open Foundation Volume

section Counting

variable {hash : Bytes → UInt32} {counted : Bool} {bytes payload rest : Bytes}
variable {batch : List Record}

theorem nextFrame_length (h : nextFrame hash bytes = some (payload, rest)) :
    8 + payload.length + rest.length = bytes.length ∧ payload.length < 2 ^ 32 := by
  have hlong : frameHeader ≤ bytes.length := by
    by_contra hshort
    rw [nextFrame_short hash (not_le.mp hshort)] at h
    cases h
  obtain ⟨hpayload, hrest, hlen⟩ := nextFrame_eq_some h
  have hbody : payload ++ rest = bytes.drop 8 := by
    rw [hpayload, hrest, List.take_append_drop]
  have htotal := congrArg List.length hbody
  rw [List.length_append, List.length_drop] at htotal
  have hfield := ofLe_lt ((bytes.drop 4).take 4)
  rw [← hlen, List.length_take, List.length_drop] at hfield
  unfold frameHeader at hlong
  rw [show min 4 (bytes.length - 4) = 4 by omega] at hfield
  exact ⟨by omega, by simpa using hfield⟩

theorem decodeRecords_bounds {n pos p : Nat} (h : decodeRecords n payload pos = .ok (batch, p)) :
    pos + (batch.flatMap Record.encode).length ≤ p := by
  induction n generalizing pos batch with
  | zero =>
      cases h
      simp
  | succ n ih =>
      obtain ⟨⟨r, q⟩, hr, h⟩ := bind_eq_ok h
      obtain ⟨⟨rs, q'⟩, hrs, h⟩ := bind_eq_ok h
      cases h
      have hbounds := (Record.decodeAt_bounds hr).1
      have hrest := ih hrs
      rw [List.flatMap_cons, List.length_append, Record.length_encode]
      omega

/-- A payload is no shorter than what its records encode to. -/
theorem decodeBatch_bounds (h : decodeBatch counted payload = .ok batch) :
    (batchPayload counted batch).length ≤ payload.length := by
  obtain ⟨n, hrs, -⟩ := decodeBatch_eq_ok h
  have hbounds := decodeRecords_bounds hrs
  cases counted with
  | true =>
      rw [length_batchPayload_counted]
      exact hbounds
  | false =>
      rw [if_neg (by decide), Nat.zero_add] at hbounds
      simpa [batchPayload] using hbounds

theorem length_batchPayload_append (counted : Bool) (a b : List Record) :
    (batchPayload counted (a ++ b)).length =
      (batchPayload counted a).length + (b.flatMap Record.encode).length := by
  cases counted with
  | true =>
      simp only [length_batchPayload_counted, List.flatMap_append, List.length_append]
      omega
  | false => simp [batchPayload]

/-- Records that a replay returns fill frames: either one, whose length a field of 32 bits
says, or several, each with a header of its own. -/
theorem replayFrames_bounds {fuel : Nat} {s parsed : List Record} (hne : parsed ≠ [])
    (h : replayFrames hash (addBatch counted) fuel bytes s = .ok (s ++ parsed)) :
    8 + (batchPayload counted parsed).length ≤ bytes.length ∧
      ((batchPayload counted parsed).length < 2 ^ 32 ∨
        8 + (batchPayload counted parsed).length < bytes.length) := by
  induction fuel generalizing bytes s parsed with
  | zero =>
      have hnil : parsed = [] := by simpa [replayFrames] using h
      exact absurd hnil hne
  | succ fuel ih =>
      unfold replayFrames at h
      split at h
      · have hnil : parsed = [] := by simpa using h
        exact absurd hnil hne
      · next payload rest hframe =>
          split at h
          · cases h
          · next s' happ =>
              obtain ⟨batch, hbatch, hs'⟩ := bind_eq_ok happ
              cases hs'
              obtain ⟨htotal, hsmall⟩ := nextFrame_length hframe
              have hfirst := decodeBatch_bounds hbatch
              obtain ⟨more, rfl⟩ : batch <+: parsed := by
                have hpre := prefix_of_replayFrames h
                rwa [List.prefix_append_right_inj] at hpre
              rw [← List.append_assoc] at h
              rw [length_batchPayload_append]
              by_cases hmore : more = []
              · subst hmore
                rw [List.flatMap_nil, List.length_nil, Nat.add_zero]
                exact ⟨by omega, Or.inl (by omega)⟩
              · have hrest := (ih hmore h).1
                have hone := length_batchPayload_append counted [] more
                rw [List.nil_append] at hone
                omega

end Counting

/-- The fields that are lengths or counts in the frame of a batch hold what they are the
length or the count of. -/
structure LengthsHeld (counted : Bool) (records : List Record) : Prop where
  payload : ofLe (le 4 (batchPayload counted records).length) =
    (batchPayload counted records).length
  count : counted = true → ofLe (le 4 records.length) = records.length
  keys : ∀ r ∈ records, ofLe (le 4 r.key.length) = r.key.length
  values : ∀ r ∈ records, ∀ v, r.value = some v → ofLe (le 4 v.length) = v.length

/-- The log of a directory is whole, and its front shows its format. -/
structure LogIntact (env : Env) (held : Held) : Prop where
  front : ∀ rest, classify (logBytes env held.kind held.log ++ rest) walMagic walVersion
    "the write-ahead log" = .ok held.kind
  fits : ∀ b ∈ held.log, BatchFits b
  takes : ∀ b ∈ held.log, held.kind.Takes b

section Fields

variable {counted : Bool} {records : List Record}

theorem length_flatMap_le (counted : Bool) (records : List Record) :
    (records.flatMap Record.encode).length ≤ (batchPayload counted records).length := by
  rw [batchPayload, List.length_append]
  omega

theorem parts_lt_of_payload (hsmall : (batchPayload counted records).length < 2 ^ 32) {r : Record}
    (hr : r ∈ records) : r.key.length < 2 ^ 32 ∧ r.valueLen < 2 ^ 32 := by
  have hlen := encodedLen_le_of_mem hr
  have hall := length_flatMap_le counted records
  simp only [Record.encodedLen] at hlen
  omega

theorem count_lt_of_payload (hsmall : (batchPayload counted records).length < 2 ^ 32) :
    records.length < 2 ^ 32 := by
  have hlen := length_le_flatMap_encode records
  have hall := length_flatMap_le counted records
  omega

/-- All the fields of a frame are right when its length field is. -/
theorem lengthsHeld_of_payload (hsmall : (batchPayload counted records).length < 2 ^ 32) :
    LengthsHeld counted records := by
  have hfield : ∀ {n : Nat}, n < 2 ^ 32 → ofLe (le 4 n) = n := fun h => ofLe_le (by omega)
  refine ⟨hfield hsmall, fun _ => hfield (count_lt_of_payload hsmall),
    fun r hr => hfield (parts_lt_of_payload hsmall hr).1, fun r hr v hv => hfield ?_⟩
  have hvalue := (parts_lt_of_payload hsmall hr).2
  rwa [Record.valueLen, hv] at hvalue

theorem seq_lt_of_numberRecords {seq : Nat} {batch : WriteBatch}
    (hseq : seq + batch.length ≤ u64Max) :
    ∀ r ∈ DbInner.numberRecords seq batch, r.seq < 2 ^ 64 := by
  induction batch generalizing seq with
  | nil => simp [DbInner.numberRecords]
  | cons op ops ih =>
      rw [List.length_cons] at hseq
      intro r hr
      rcases List.mem_cons.mp hr with rfl | hr
      · rw [seq_recordOf]
        unfold u64Max at hseq
        omega
      · exact ih (by omega) r hr

end Fields

section Writes

variable {env : Env} {w : World} {db : DbInner} {held : Held}

theorem LogIntact.ne_empty (h : LogIntact env held) : held.kind ≠ .empty :=
  classify_ne_empty (by simp) (h.front [0])

/-- The log of every handle that a run of calls leads to is whole. -/
theorem Engine.logIntact {now : SortedMap Bytes Bytes} {pinned : List (Nat × SortedMap Bytes Bytes)}
    (h : Engine env w db held now pinned) : LogIntact env held where
  front rest := by
    rw [h.stands.kind]
    exact classify_logBytes_newest rest _
  fits := h.stands.fits
  takes b _ := by
    rw [h.stands.kind]
    exact takes_newestLog b

theorem LogIntact.replay (h : LogIntact env held) :
    replayBytes env (logBytes env held.kind held.log) = .ok held.log.flatten := by
  have hfront := h.front []
  rw [List.append_nil] at hfront
  exact replayBytes_logBytes h.ne_empty hfront h.fits h.takes

/-- A log is read back with one more batch behind it exactly when the payload of that batch
is shorter than its length field can say. -/
theorem LogIntact.replay_iff (h : LogIntact env held) {records : List Record} (hne : records ≠ [])
    (hseq : ∀ r ∈ records, r.seq < 2 ^ 64) (htake : held.kind.Takes records) :
    replayBytes env (logBytes env held.kind (held.log ++ [records])) =
        .ok (held.log.flatten ++ records) ↔
      (batchPayload held.kind.counted records).length < 2 ^ 32 := by
  have hold := foldlM_addBatch h.fits h.takes []
  rw [List.nil_append] at hold
  have hbytes : logBytes env held.kind (held.log ++ [records]) =
      logBytes env held.kind held.log ++ frame ((walChecksum held.kind).hash env)
        (batchPayload held.kind.counted records) := by
    rw [logBytes_append, logPayloads, List.map_singleton, frames_cons, frames_nil, List.append_nil]
  have hfuel : (logPayloads held.kind held.log).length + 1 ≤
      (logBytes env held.kind held.log ++ frame ((walChecksum held.kind).hash env)
        (batchPayload held.kind.counted records)).length := by
    have := length_le_length_frames ((walChecksum held.kind).hash env)
      (logPayloads held.kind held.log)
    rw [logBytes, List.length_append, List.length_append, length_frame]
    omega
  obtain ⟨extra, hextra⟩ := Nat.exists_eq_add_of_le hfuel
  -- behind the frames that are whole, the replay comes to the last one
  have hrun : replayBytes env (logBytes env held.kind (held.log ++ [records])) =
      replayFrames ((walChecksum held.kind).hash env) (addBatch held.kind.counted) (extra + 1 + 1)
        (frame ((walChecksum held.kind).hash env) (batchPayload held.kind.counted records))
        held.log.flatten := by
    rw [hbytes, replayBytes_of_classify h.ne_empty (h.front _), hextra, logBytes,
      List.append_assoc, drop_framesStart h.ne_empty,
      show (logPayloads held.kind held.log).length + 1 + extra + 1 =
        (logPayloads held.kind held.log).length + (extra + 1 + 1) by omega,
      replayFrames_frames (logPayloads_lt h.fits), hold]
    rfl
  rw [hrun]
  constructor
  · intro hexact
    rcases (replayFrames_bounds hne hexact).2 with hlt | hlt
    · exact hlt
    · rw [length_frame] at hlt
      omega
  · intro hsmall
    have hdec := decodeBatch_of_fits (fun r hr => ⟨(parts_lt_of_payload hsmall hr).1,
      (parts_lt_of_payload hsmall hr).2, hseq r hr⟩) (count_lt_of_payload hsmall) htake
    have hnext : nextFrame ((walChecksum held.kind).hash env)
        (frame ((walChecksum held.kind).hash env) (batchPayload held.kind.counted records) ++ []) =
          some (batchPayload held.kind.counted records, []) := nextFrame_frame_append hsmall []
    have hend := nextFrame_short ((walChecksum held.kind).hash env)
      (show ([] : Bytes).length < 8 by decide)
    have hadd : addBatch held.kind.counted held.log.flatten
        (batchPayload held.kind.counted records) = .ok (held.log.flatten ++ records) := by
      rw [addBatch, hdec]
      rfl
    rw [List.append_nil] at hnext
    simp only [replayFrames, hnext, hadd, hend]

/-- What a write that returned Ok appended to the log is read back exactly when the payload
of its frame is shorter than `2 ^ 32`. -/
theorem replay_written_iff (h : Standing env w db held) (hlog : LogIntact env held)
    (batch : WriteBatch) (hseq : db.nextSeq + batch.length ≤ u64Max) {db' : DbInner} {w' : World}
    (hrun : DbInner.writeBatch env batch db w = (.ok (), db', w')) :
    (Wal.replay env (walPath db.dir) : M Unit (List Record)).result () w' =
        .ok (held.log.flatten ++ DbInner.numberRecords db.nextSeq batch) ↔
      (batchPayload held.kind.counted (DbInner.numberRecords db.nextSeq batch)).length <
        2 ^ 32 := by
  unfold M.result
  by_cases hne : batch = []
  · subst hne
    have hnil : DbInner.writeBatch env [] db w = (.ok (), db, w) := writeBatch_nil h.healthy
    cases hnil.symm.trans hrun
    obtain ⟨i, n, hopen⟩ := h.layout.log
    have hsmall : ∀ counted, (batchPayload counted []).length < 2 ^ 32 := by decide
    rw [Wal.replay_some h.quiet hopen.bound.name, hopen.bound.inode]
    exact iff_of_true (hlog.replay.trans (by simp [DbInner.numberRecords])) (hsmall _)
  · have htake := h.takes_of_writeBatch_ok hne hrun
    obtain ⟨w₁, hrun₁, hstanding, -⟩ := h.writeBatch hne htake hseq
    cases hrun.symm.trans hrun₁
    obtain ⟨i, n, hopen⟩ := hstanding.layout.log
    rw [show walPath db.dir = walPath (db.written batch).dir from rfl,
      Wal.replay_some hstanding.quiet hopen.bound.name, hopen.bound.inode]
    exact hlog.replay_iff (numberRecords_ne_nil db.nextSeq hne) (seq_lt_of_numberRecords hseq)
      htake

/-- A write of any size that returned Ok is read back from the log, with every length and
count in its frame right, exactly when the payload of the frame is shorter than `2 ^ 32`. -/
theorem write_lengths_iff (h : Standing env w db held) (hlog : LogIntact env held)
    (batch : WriteBatch) (hseq : db.nextSeq + batch.length ≤ u64Max) {db' : DbInner} {w' : World}
    (hrun : DbInner.writeBatch env batch db w = (.ok (), db', w')) :
    LengthsHeld held.kind.counted (DbInner.numberRecords db.nextSeq batch) ∧
        (Wal.replay env (walPath db.dir) : M Unit (List Record)).result () w' =
          .ok (held.log.flatten ++ DbInner.numberRecords db.nextSeq batch) ↔
      (batchPayload held.kind.counted (DbInner.numberRecords db.nextSeq batch)).length <
        2 ^ 32 := by
  have hback := replay_written_iff h hlog batch hseq hrun
  exact ⟨fun hboth => hback.mp hboth.2, fun hsmall =>
    ⟨lengthsHeld_of_payload hsmall, hback.mpr hsmall⟩⟩

end Writes

/-- A fresh directory, opened. -/
theorem opened_fresh :
    ∃ db w held, (assemble Stock.env "db" Options.default : M Unit DbInner) ()
        (World.start Volume.empty) = (.ok db, (), w) ∧
      Standing Stock.env w db held ∧ LogIntact Stock.env held ∧ db.dir = "db" ∧
      db.nextSeq = 0 ∧ held.log.flatten = [] := by
  have hfresh : FreshDir "db" Volume.empty := ⟨sound_empty, fun _ _ => rfl⟩
  obtain ⟨db, w, held, hrun, hengine, hdir, -⟩ := engine_fresh Stock.env Options.default
    (World.quiet_start Volume.empty) (by decide) hfresh
  refine ⟨db, w, held, hrun, hengine.standing, hengine.logIntact, hdir, ?_, ?_⟩
  · have := congrArg (fun r => r.1.toOption.map DbInner.nextSeq) hrun
    exact Option.some.inj (this.symm.trans (by decide +kernel))
  · obtain ⟨i, n, hopen⟩ := hengine.standing.layout.log
    have hread : (Wal.replay Stock.env (walPath db.dir) : M Unit (List Record)) () w = _ :=
      Wal.replay_some hengine.standing.quiet hopen.bound.name
    rw [hopen.bound.inode, hengine.logIntact.replay, hdir] at hread
    have hnone : (Wal.replay Stock.env (walPath "db") : M Unit (List Record)).result () w =
        .ok [] := by
      have := congrArg (fun r => (Wal.replay Stock.env (walPath "db") :
        M Unit (List Record)).result () r.2.2) hrun
      exact this.symm.trans (by decide +kernel)
    exact Except.ok.inj ((congrArg Prod.fst hread).symm.trans hnone)

/-- A put of a short key and value. -/
theorem write_lengths_iff_short :
    ∃ db w db' w', (assemble Stock.env "db" Options.default : M Unit DbInner) ()
        (World.start Volume.empty) = (.ok db, (), w) ∧
      DbInner.write Stock.env [1] (some [2]) db w = (.ok (), db', w') ∧
      (Wal.replay Stock.env (walPath "db") : M Unit (List Record)).result () w' =
        .ok [Record.put [1] [2] 0] := by
  obtain ⟨db, w, held, hopen, hstanding, hlog, hdir, hseq, hflat⟩ := opened_fresh
  have hroom : db.nextSeq + [(([1], some [2]) : Bytes × Option Bytes)].length ≤ u64Max := by
    rw [hseq]
    decide
  obtain ⟨w', hrun, -⟩ := hstanding.writeBatch
    (List.cons_ne_nil ([1], some [2]) []) (Or.inr rfl) hroom
  have hsmall : ∀ counted, (batchPayload counted (DbInner.numberRecords 0
      [([1], some [2])])).length < 2 ^ 32 := by decide
  have hback := ((write_lengths_iff hstanding hlog [([1], some [2])] hroom hrun).mpr (by
    rw [hseq]
    exact hsmall _)).2
  rw [hseq, hflat, hdir] at hback
  exact ⟨db, w, _, w', hopen, hrun, hback⟩

/-- A put of a key of `2 ^ 32` bytes returns Ok, and the log does not hold it. -/
theorem oversized_key_not_read_back :
    ∃ db w db' w', (assemble Stock.env "db" Options.default : M Unit DbInner) ()
        (World.start Volume.empty) = (.ok db, (), w) ∧
      DbInner.write Stock.env (List.replicate (2 ^ 32) 0) (some []) db w = (.ok (), db', w') ∧
      (Wal.replay Stock.env (walPath "db") : M Unit (List Record)).result () w' ≠
        .ok [Record.put (List.replicate (2 ^ 32) 0) [] 0] := by
  obtain ⟨db, w, held, hopen, hstanding, hlog, hdir, hseq, hflat⟩ := opened_fresh
  -- the key is not looked into, only its length is used
  obtain ⟨key, hkey⟩ : ∃ key : Bytes, key = List.replicate (2 ^ 32) 0 := ⟨_, rfl⟩
  have hlen : key.length = 2 ^ 32 := by rw [hkey, List.length_replicate]
  rw [← hkey]
  have hroom : db.nextSeq + [((key, some []) : Bytes × Option Bytes)].length ≤ u64Max := by
    rw [hseq, List.length_singleton]
    decide
  obtain ⟨w', hrun, -⟩ := hstanding.writeBatch (List.cons_ne_nil (key, some []) [])
    (Or.inr rfl) hroom
  refine ⟨db, w, _, w', hopen, hrun, fun hback => ?_⟩
  have hsmall := (replay_written_iff hstanding hlog [(key, some [])] hroom hrun).mp (by
    rw [hseq, hflat, hdir]
    exact hback)
  have hpart := (parts_lt_of_payload hsmall (r := Record.put key [] db.nextSeq) (by
    simp [DbInner.numberRecords, DbInner.recordOf])).1
  rw [show (Record.put key [] db.nextSeq).key = key from rfl, hlen] at hpart
  exact lt_irrefl _ hpart

end LsmKv
