import LsmKv.Foundation.Bytes

/-!
# Logs of checksummed frames

A frame is `[checksum:4][length:4][payload]`.  A reader walks the frames from
the front, hands each verified payload to a step function and stops without an
error at the first frame that is incomplete or does not verify; only the step
function can fail.

**Results.**
* `nextFrame_frame_append`: a complete frame is read back and consumed.
* `nextFrame_torn`: a proper initial part of a frame reads as the end.
* `replayFrames_frames_append`: over complete frames followed by bytes that read
  as the end, the reader runs the step function over the payloads.
* `replayFrames_take`: over a log cut anywhere, it runs over the payloads of the
  frames that are complete; `le_wholeFrames_iff` says which those are.

No property of the checksum is used.
-/

namespace LsmKv
namespace Foundation

/-- Bytes in front of a payload: checksum and length. -/
def frameHeader : Nat := 8

section Frames

variable (hash : Bytes → UInt32)

/-- One frame. -/
def frame (payload : Bytes) : Bytes :=
  le 4 (hash payload).toNat ++ le 4 payload.length ++ payload

/-- A log of frames. -/
def frames (payloads : List Bytes) : Bytes :=
  payloads.flatMap (frame hash)

/-- The number of frames that are complete within the first `n` bytes. -/
def wholeFrames : List Bytes → Nat → Nat
  | [], _ => 0
  | p :: ps, n =>
      if (frame hash p).length ≤ n then wholeFrames ps (n - (frame hash p).length) + 1
      else 0

/-- The first frame's payload and what follows it, if the frame is complete
and verifies. -/
def nextFrame (bytes : Bytes) : Option (Bytes × Bytes) :=
  if frameHeader ≤ bytes.length then
    let crc := ofLe (bytes.take 4)
    let len := ofLe ((bytes.drop 4).take 4)
    let body := bytes.drop frameHeader
    if len ≤ body.length then
      if (hash (body.take len)).toNat = crc then
        some (body.take len, body.drop len)
      else none
    else none
  else none

/-- Run `apply` over the verified payloads, at most `fuel` of them. -/
def replayFrames {σ ε : Type} (apply : σ → Bytes → Except ε σ) :
    Nat → Bytes → σ → Except ε σ
  | 0, _, s => .ok s
  | fuel + 1, bytes, s =>
      match nextFrame hash bytes with
      | none => .ok s
      | some (payload, rest) =>
          match apply s payload with
          | .error e => .error e
          | .ok s' => replayFrames apply fuel rest s'

variable {hash}

@[simp] theorem length_frame (payload : Bytes) :
    (frame hash payload).length = payload.length + 8 := by
  simp only [frame, List.length_append, length_le]
  omega

@[simp] theorem frames_nil : frames hash [] = [] := rfl

@[simp] theorem frames_cons (p : Bytes) (ps : List Bytes) :
    frames hash (p :: ps) = frame hash p ++ frames hash ps := rfl

@[simp] theorem frames_append (ps qs : List Bytes) :
    frames hash (ps ++ qs) = frames hash ps ++ frames hash qs := by
  simp [frames]

theorem length_le_length_frames (hash : Bytes → UInt32) (ps : List Bytes) :
    ps.length ≤ (frames hash ps).length := by
  induction ps with
  | nil => simp
  | cons p ps ih =>
      rw [frames_cons, List.length_append, length_frame, List.length_cons]
      omega

/-- The three fields of a frame in front of any bytes. -/
theorem frame_fields (hash : Bytes → UInt32) (p rest : Bytes) :
    (frame hash p ++ rest).take 4 = le 4 (hash p).toNat ∧
      ((frame hash p ++ rest).drop 4).take 4 = le 4 p.length ∧
      (frame hash p ++ rest).drop frameHeader = p ++ rest := by
  have e : frame hash p ++ rest =
      le 4 (hash p).toNat ++ (le 4 p.length ++ (p ++ rest)) := by
    simp [frame]
  have h4 : (le 4 (hash p).toNat).length = 4 := length_le _ _
  have h4' : (le 4 p.length).length = 4 := length_le _ _
  rw [e]
  refine ⟨?_, ?_, ?_⟩
  · rw [List.take_append_of_le_length (by omega), List.take_of_length_le (by omega)]
  · rw [List.drop_left' h4, List.take_left' h4']
  · show List.drop (4 + 4) _ = _
    rw [← List.drop_drop, List.drop_left' h4, List.drop_left' h4']

/-- A complete frame is consumed by a reader whose checksum agrees with the writer's on its
payload, and reads as the end otherwise. -/
theorem nextFrame_frame (hash' : Bytes → UInt32) {p : Bytes} (hp : p.length < 2 ^ 32)
    (rest : Bytes) :
    nextFrame hash (frame hash' p ++ rest) =
      if hash p = hash' p then some (p, rest) else none := by
  obtain ⟨hc, hl, hb⟩ := frame_fields hash' p rest
  have hcrc : ofLe (le 4 (hash' p).toNat) = (hash' p).toNat :=
    ofLe_le (by have := (hash' p).toNat_lt; norm_num at this ⊢; omega)
  have hlen : ofLe (le 4 p.length) = p.length := ofLe_le (by norm_num at hp ⊢; omega)
  have h8 : frameHeader ≤ (frame hash' p ++ rest).length := by
    simp only [List.length_append, length_frame, frameHeader]
    omega
  unfold nextFrame
  rw [if_pos h8]
  simp only [hc, hl, hb, hcrc, hlen, UInt32.toNat_inj]
  rw [if_pos (by simp), List.take_left, List.drop_left]

/-- A complete frame is read back and consumed. -/
theorem nextFrame_frame_append {p : Bytes} (hp : p.length < 2 ^ 32) (rest : Bytes) :
    nextFrame hash (frame hash p ++ rest) = some (p, rest) := by
  rw [nextFrame_frame hash hp, if_pos rfl]

/-- A proper initial part of a frame reads as the end of the log. -/
theorem nextFrame_torn {p t : Bytes} (hp : p.length < 2 ^ 32)
    (ht : t <+: frame hash p) (hlt : t.length < (frame hash p).length) :
    nextFrame hash t = none := by
  obtain ⟨u, hu⟩ := ht
  unfold nextFrame
  split_ifs with h8
  · have hfields := frame_fields hash p []
    rw [List.append_nil, ← hu] at hfields
    obtain ⟨_, hl, _⟩ := hfields
    have h4 : frameHeader ≤ t.length := h8
    simp only [frameHeader] at h4
    have hdrop : (List.drop 4 t).take 4 = le 4 p.length := by
      rw [← hl, List.drop_append_of_le_length (by omega),
        List.take_append_of_le_length (by simp; omega)]
    have hlen : ofLe (le 4 p.length) = p.length := ofLe_le (by norm_num at hp ⊢; omega)
    simp only [hdrop, hlen]
    rw [if_neg]
    rw [length_frame] at hlt
    simp only [List.length_drop, frameHeader]
    omega
  · rfl

/-- Over complete frames followed by any bytes, the reader runs the step
function over the payloads and goes on with the bytes. -/
theorem replayFrames_frames {σ ε : Type} {apply : σ → Bytes → Except ε σ}
    {ps : List Bytes} (hps : ∀ p ∈ ps, p.length < 2 ^ 32) (t : Bytes) (s : σ) (fuel : Nat) :
    replayFrames hash apply (ps.length + fuel) (frames hash ps ++ t) s =
      ps.foldlM apply s >>= fun s' => replayFrames hash apply fuel t s' := by
  induction ps generalizing s with
  | nil => simp
  | cons p ps ih =>
      have hp : p.length < 2 ^ 32 := hps p (by simp)
      have hfuel : (p :: ps).length + fuel = (ps.length + fuel) + 1 := by
        rw [List.length_cons]
        omega
      rw [hfuel, frames_cons, List.append_assoc, replayFrames, nextFrame_frame_append hp,
        List.foldlM_cons]
      cases happ : apply s p with
      | error e => simp [happ, bind, Except.bind]
      | ok s' =>
          simp only [happ]
          exact ih (fun q hq => hps q (by simp [hq])) s'

/-- Over complete frames followed by bytes that read as the end. -/
theorem replayFrames_frames_append {σ ε : Type} (apply : σ → Bytes → Except ε σ)
    {ps : List Bytes} (hps : ∀ p ∈ ps, p.length < 2 ^ 32) {t : Bytes}
    (ht : nextFrame hash t = none) (s : σ) (fuel : Nat) (hfuel : ps.length < fuel) :
    replayFrames hash apply fuel (frames hash ps ++ t) s = ps.foldlM apply s := by
  obtain ⟨extra, rfl⟩ : ∃ extra, fuel = ps.length + (extra + 1) :=
    ⟨fuel - ps.length - 1, by omega⟩
  have hend : ∀ s', replayFrames hash apply (extra + 1) t s' = .ok s' := by
    intro s'
    simp [replayFrames, ht]
  rw [replayFrames_frames hps]
  simp only [hend]
  cases ps.foldlM apply s <;> rfl

/-- Over complete frames followed by one whose payload the step function refuses. -/
theorem replayFrames_refused {σ ε : Type} {apply : σ → Bytes → Except ε σ} {ps : List Bytes}
    (hps : ∀ p ∈ ps, p.length < 2 ^ 32) {t p rest : Bytes} (ht : nextFrame hash t = some (p, rest))
    {s s' : σ} (hs : ps.foldlM apply s = .ok s') {e : ε} (hp : apply s' p = .error e)
    (fuel : Nat) (hfuel : ps.length < fuel) :
    replayFrames hash apply fuel (frames hash ps ++ t) s = .error e := by
  obtain ⟨extra, rfl⟩ : ∃ extra, fuel = ps.length + (extra + 1) :=
    ⟨fuel - ps.length - 1, by omega⟩
  rw [replayFrames_frames hps, hs]
  show replayFrames hash apply (extra + 1) t s' = .error e
  simp only [replayFrames, ht, hp]

/-- Where the empty payload hashes to zero, eight zero bytes are a complete frame. -/
theorem nextFrame_zeros (h : hash [] = 0) {n : Nat} (hn : frameHeader ≤ n) :
    nextFrame hash (List.replicate n 0) = some ([], List.replicate (n - frameHeader) 0) := by
  have hframe : List.replicate n (0 : UInt8) =
      frame hash [] ++ List.replicate (n - frameHeader) 0 := by
    have hzero : frame hash [] = List.replicate frameHeader 0 := by
      rw [frame, h]
      decide
    rw [hzero, List.replicate_append_replicate, Nat.add_sub_cancel' hn]
  rw [hframe]
  exact nextFrame_frame_append (by simp) _

theorem wholeFrames_le (hash : Bytes → UInt32) (ps : List Bytes) (n : Nat) :
    wholeFrames hash ps n ≤ ps.length := by
  induction ps generalizing n with
  | nil => simp [wholeFrames]
  | cons p ps ih =>
      unfold wholeFrames
      split_ifs
      · simpa using ih _
      · simp

theorem wholeFrames_append (hash : Bytes → UInt32) (ps qs : List Bytes) (n : Nat) :
    wholeFrames hash (ps ++ qs) ((frames hash ps).length + n) =
      ps.length + wholeFrames hash qs n := by
  induction ps with
  | nil => simp
  | cons p ps ih =>
      rw [List.cons_append, wholeFrames, frames_cons, List.length_append, if_pos (by omega),
        Nat.add_assoc, Nat.add_sub_cancel_left, ih, List.length_cons]
      omega

/-- The complete frames of a cut are those that end within it. -/
theorem le_wholeFrames_iff (hash : Bytes → UInt32) (ps : List Bytes) {n j : Nat}
    (hj : j ≤ ps.length) :
    j ≤ wholeFrames hash ps n ↔ (frames hash (ps.take j)).length ≤ n := by
  induction ps generalizing n j with
  | nil =>
      have : j = 0 := by simpa using hj
      simp [this]
  | cons p ps ih =>
      cases j with
      | zero => simp
      | succ j =>
          have hj' : j ≤ ps.length := by simpa using hj
          rw [List.take_succ_cons, frames_cons, List.length_append]
          unfold wholeFrames
          split_ifs with hn
          · rw [Nat.succ_le_succ_iff, ih hj']
            omega
          · simp only [nonpos_iff_eq_zero, Nat.add_one_ne_zero, false_iff]
            omega

/-- Every cut of a log leaves its complete frames and a proper initial part of
the next one. -/
theorem take_frames (hash : Bytes → UInt32) (ps : List Bytes) (n : Nat) :
    ∃ t, (frames hash ps).take n = frames hash (ps.take (wholeFrames hash ps n)) ++ t ∧
      (t = [] ∨ ∃ p, ps[wholeFrames hash ps n]? = some p ∧ t <+: frame hash p ∧
        t.length < (frame hash p).length) := by
  induction ps generalizing n with
  | nil => exact ⟨[], by simp⟩
  | cons p ps ih =>
      unfold wholeFrames
      split_ifs with hn
      · obtain ⟨t, ht, hc⟩ := ih (n - (frame hash p).length)
        refine ⟨t, ?_, by simpa using hc⟩
        rw [frames_cons, List.take_append, List.take_of_length_le hn, ht]
        simp
      · refine ⟨(frame hash p).take n, ?_, ?_⟩
        · rw [frames_cons, List.take_append_of_le_length (by omega)]
          simp
        · right
          refine ⟨p, by simp, List.take_prefix _ _, ?_⟩
          rw [List.length_take]
          omega

/-- Nothing can be read from fewer bytes than a frame header. -/
theorem nextFrame_short (hash : Bytes → UInt32) {t : Bytes} (ht : t.length < 8) :
    nextFrame hash t = none := by
  unfold nextFrame
  rw [if_neg]
  simp only [frameHeader]
  omega

/-- What the reader does over a cut log: it runs over the complete frames. -/
theorem replayFrames_take {σ ε : Type} {apply : σ → Bytes → Except ε σ}
    {ps : List Bytes} (hps : ∀ p ∈ ps, p.length < 2 ^ 32) (n : Nat) (s : σ) (fuel : Nat)
    (hfuel : ((frames hash ps).take n).length < fuel) :
    replayFrames hash apply fuel ((frames hash ps).take n) s =
      (ps.take (wholeFrames hash ps n)).foldlM apply s := by
  obtain ⟨t, ht, hc⟩ := take_frames hash ps n
  rw [ht] at hfuel ⊢
  have hnone : nextFrame hash t = none := by
    rcases hc with rfl | ⟨p, hp, hpre, hlt⟩
    · exact nextFrame_short hash (by simp)
    · exact nextFrame_torn (hps p (List.mem_of_getElem? hp)) hpre hlt
  apply replayFrames_frames_append _ (fun p hp => hps p (List.mem_of_mem_take hp)) hnone
  have := length_le_length_frames hash (ps.take (wholeFrames hash ps n))
  rw [List.length_append] at hfuel
  omega

end Frames

end Foundation
end LsmKv
