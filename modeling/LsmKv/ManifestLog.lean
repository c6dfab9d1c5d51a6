import LsmKv.Manifest
import LsmKv.Record
import Mathlib.Data.Nat.Digits.Lemmas
import Mathlib.Tactic.IntervalCases

/-!
# The bytes of a manifest

**Results.**
* `VersionEdit.decode_encode`: an edit is read back.
* `replayManifest_append`: a manifest replays to the state its edits build.
* `replayManifest_take`: a manifest cut behind its header replays to the edits
  that are whole, unless there is something behind the header and no whole edit.
* `parseCurrent_currentBytes`: the contents of `CURRENT` name the generation.
-/

namespace LsmKv

open Foundation

namespace VersionEdit

/-- An edit whose number fits its field. -/
def Fits (e : VersionEdit) : Prop := e.body < 2 ^ 64

instance (e : VersionEdit) : Decidable e.Fits := inferInstanceAs (Decidable (_ < _))

@[simp] theorem length_encode (e : VersionEdit) : e.encode.length = editPayloadLen := by
  simp [encode, editPayloadLen]

/-- An edit is read back. -/
theorem decode_encode {e : VersionEdit} (h : e.Fits) : decode e.encode = .ok e := by
  have hb : ofLe (le 8 e.body) = e.body := ofLe_le (by unfold Fits at h; norm_num at h ⊢; omega)
  have hlen : ¬ e.encode.length ≠ editPayloadLen := by simp
  have hbody : ofLe ((e.encode.drop 1).take 8) = e.body := by
    simp only [encode, List.drop_succ_cons, List.drop_zero]
    rw [List.take_of_length_le (by simp), hb]
  have htag : ofLe (e.encode.take 1) = e.tag.toNat := by simp [encode]
  unfold decode
  rw [if_neg hlen, htag, hbody]
  cases e <;> rfl

end VersionEdit

/-- The state a list of edits builds. -/
def applyAll (edits : List VersionEdit) : ManifestState :=
  edits.foldl ManifestState.apply ManifestState.default

@[simp] theorem applyAll_nil : applyAll [] = ManifestState.default := rfl

theorem applyAll_append (a b : List VersionEdit) :
    applyAll (a ++ b) = b.foldl ManifestState.apply (applyAll a) := List.foldl_append

/-- The checksum of every manifest this build writes. -/
def manifestHash (env : Env) : Bytes → UInt32 :=
  (manifestChecksum (.versioned manifestVersion)).hash env

/-- The header of a manifest. -/
def manifestFront : Bytes := encodeHeader manifestMagic manifestVersion

/-- The frames of edits. -/
def editFrames (env : Env) (edits : List VersionEdit) : Bytes :=
  frames (manifestHash env) (edits.map VersionEdit.encode)

/-- The file of a manifest. -/
def manifestBytes (env : Env) (edits : List VersionEdit) : Bytes :=
  manifestFront ++ editFrames env edits

/-- Length of the frame of an edit. -/
def editFrameLen : Nat := 17

/-- The number of edits whose frame is whole in the first `n` bytes. -/
def wholeEdits (env : Env) (edits : List VersionEdit) (n : Nat) : Nat :=
  wholeFrames (manifestHash env) (edits.map VersionEdit.encode) n

section Replay

variable {env : Env} {edits : List VersionEdit} {path : Path}

@[simp] theorem length_manifestFront : manifestFront.length = headerLen := rfl

theorem editFrames_append (a b : List VersionEdit) :
    editFrames env (a ++ b) = editFrames env a ++ editFrames env b := by
  simp [editFrames]

theorem manifestBytes_append (a b : List VersionEdit) :
    manifestBytes env (a ++ b) = manifestBytes env a ++ editFrames env b := by
  simp [manifestBytes, editFrames_append]

theorem length_editFrames (env : Env) (edits : List VersionEdit) :
    (editFrames env edits).length = editFrameLen * edits.length := by
  induction edits with
  | nil => rfl
  | cons e es ih =>
      have hcons : editFrames env (e :: es) =
          frame (manifestHash env) e.encode ++ editFrames env es := rfl
      rw [hcons, List.length_append, ih, length_frame, VersionEdit.length_encode, List.length_cons]
      simp only [editFrameLen, editPayloadLen]
      ring

theorem wholeEdits_le (env : Env) (edits : List VersionEdit) (n : Nat) :
    wholeEdits env edits n ≤ edits.length := by
  have := wholeFrames_le (manifestHash env) (edits.map VersionEdit.encode) n
  simpa [wholeEdits] using this

/-- An edit is whole when its frame ends within the cut. -/
theorem le_wholeEdits_iff (env : Env) {n j : Nat} (hj : j ≤ edits.length) :
    j ≤ wholeEdits env edits n ↔ editFrameLen * j ≤ n := by
  have h := le_wholeFrames_iff (manifestHash env)
    (edits.map VersionEdit.encode) (n := n) (j := j) (by simpa using hj)
  have hlen := length_editFrames env (edits.take j)
  rw [List.length_take, min_eq_left hj] at hlen
  unfold wholeEdits
  rw [h, ← List.map_take]
  show (editFrames env (edits.take j)).length ≤ n ↔ _
  rw [hlen]

theorem foldlM_applyFrame (hfit : ∀ e ∈ edits, e.Fits) (st : ManifestState) (n : Nat) :
    (edits.map VersionEdit.encode).foldlM applyFrame (st, n) =
      .ok (edits.foldl ManifestState.apply st, n + edits.length) := by
  induction edits generalizing st n with
  | nil => rfl
  | cons e es ih =>
      have he := VersionEdit.decode_encode (hfit e (by simp))
      rw [List.map_cons, List.foldlM_cons]
      simp only [applyFrame, he, bind, Except.bind, pure, Except.pure]
      have hrest := ih (fun x hx => hfit x (List.mem_cons_of_mem _ hx)) (st.apply e) (n + 1)
      rw [hrest, List.foldl_cons, List.length_cons, Nat.add_right_comm, Nat.add_assoc]

theorem classify_manifestFront (rest : Bytes) (what : String) :
    classify (manifestFront ++ rest) manifestMagic manifestVersion what =
      .ok (.versioned manifestVersion) := by
  have hlen : headerLen ≤ (manifestFront ++ rest).length := by simp
  have hne : manifestFront ++ rest ≠ [] := by
    intro h
    rw [h] at hlen
    simp [headerLen] at hlen
  have h4 : (manifestFront ++ rest).take 4 = manifestMagic := rfl
  have hv : ofLe (((manifestFront ++ rest).drop 4).take 2) = manifestVersion := rfl
  unfold classify
  rw [if_neg hne, if_pos ⟨hlen, h4⟩]
  simp only [hv, gt_iff_lt, lt_irrefl, if_false]

theorem editPayloads_lt (edits : List VersionEdit) :
    ∀ p ∈ edits.map VersionEdit.encode, p.length < 2 ^ 32 := by
  intro p hp
  obtain ⟨e, _, rfl⟩ := List.mem_map.mp hp
  rw [VersionEdit.length_encode]
  norm_num [editPayloadLen]

/-- The replay of a file with a header. -/
theorem replayManifest_of_front {rest : Bytes} {st : ManifestState} {n : Nat}
    (h : replayFrames (manifestHash env) applyFrame ((manifestFront ++ rest).length + 1) rest
      (ManifestState.default, 0) = .ok (st, n)) (hn : n ≠ 0 ∨ rest = []) :
    replayManifestBytes env path (manifestFront ++ rest) = .ok st := by
  have hdrop : (manifestFront ++ rest).drop (framesStart (.versioned manifestVersion)) = rest :=
    List.drop_left' rfl
  have hcond : ¬ (n = 0 ∧ (manifestFront ++ rest).length >
      framesStart (.versioned manifestVersion)) := by
    rintro ⟨h0, hlt⟩
    rcases hn with hn | rfl
    · exact hn h0
    · simp [framesStart] at hlt
  unfold replayManifestBytes
  rw [classify_manifestFront]
  simp only [bind, Except.bind, reduceCtorEq, if_false, hdrop, pure, Except.pure]
  simp only [manifestHash] at h
  rw [h]
  simp only [if_neg hcond]

/-- A manifest replays to the state its edits build. -/
theorem replayManifest_manifestBytes (hfit : ∀ e ∈ edits, e.Fits) :
    replayManifestBytes env path (manifestBytes env edits) = .ok (applyAll edits) := by
  unfold manifestBytes
  refine replayManifest_of_front (n := edits.length) ?_ ?_
  · have hfuel := length_le_length_frames (manifestHash env) (edits.map VersionEdit.encode)
    have h := replayFrames_frames_append applyFrame (t := [])
      (editPayloads_lt edits) (nextFrame_short (manifestHash env) (by simp))
      (ManifestState.default, 0) ((manifestFront ++ editFrames env edits).length + 1)
      (by simp only [editFrames, List.length_append]; omega)
    rw [List.append_nil] at h
    rw [editFrames] at h ⊢
    rw [h, foldlM_applyFrame hfit]
    simp [applyAll]
  · cases edits with
    | nil => exact Or.inr rfl
    | cons e es => exact Or.inl (by simp)

/-- A manifest cut behind its header. -/
theorem replayManifest_take (hfit : ∀ e ∈ edits, e.Fits) (n : Nat)
    (hn : wholeEdits env edits n ≠ 0 ∨ n = 0) :
    replayManifestBytes env path (manifestFront ++ (editFrames env edits).take n) =
      .ok (applyAll (edits.take (wholeEdits env edits n))) := by
  have hwhole := wholeEdits_le env edits n
  refine replayManifest_of_front (n := (edits.take (wholeEdits env edits n)).length) ?_ ?_
  · rw [editFrames, replayFrames_take (editPayloads_lt edits) n _ _
      (by simp only [List.length_append]; omega)]
    have hmap : (edits.map VersionEdit.encode).take
        (wholeFrames (manifestHash env) (edits.map VersionEdit.encode) n) =
          (edits.take (wholeEdits env edits n)).map VersionEdit.encode := by
      rw [List.map_take]
      rfl
    rw [hmap, foldlM_applyFrame (fun e he => hfit e (List.mem_of_mem_take he))]
    simp [applyAll]
  · rcases hn with hn | rfl
    · left
      rw [List.length_take]
      omega
    · exact Or.inr (List.take_zero)

/-- A manifest with edits in it, and the part of an append behind them that a cut
leaves: the whole edits of the append count. -/
theorem replayManifest_cut (hne : edits ≠ []) (hfit : ∀ e ∈ edits, e.Fits)
    {batch : List VersionEdit} (hbatch : ∀ e ∈ batch, e.Fits) (k : Nat) :
    replayManifestBytes env path (manifestBytes env edits ++ (editFrames env batch).take k) =
      .ok (applyAll (edits ++ batch.take (wholeEdits env batch k))) := by
  have htotal : manifestBytes env edits ++ (editFrames env batch).take k =
      manifestFront ++ (editFrames env (edits ++ batch)).take
        ((editFrames env edits).length + k) := by
    rw [editFrames_append, List.take_length_add_append, manifestBytes, List.append_assoc]
  have hwhole : wholeEdits env (edits ++ batch) ((editFrames env edits).length + k) =
      edits.length + wholeEdits env batch k := by
    unfold wholeEdits editFrames
    rw [List.map_append, wholeFrames_append, List.length_map]
  have hpos : 0 < edits.length := List.length_pos_iff.mpr hne
  rw [htotal, replayManifest_take
    (fun e he => (List.mem_append.mp he).elim (hfit e) (hbatch e)) _ (Or.inl (by omega)), hwhole,
    List.take_length_add_append]

/-- Bytes behind the header with no whole edit are refused. -/
theorem replayManifest_torn (path : Path) {rest : Bytes}
    (h : nextFrame (manifestHash env) rest = none) (hne : rest ≠ []) :
    ∃ e, replayManifestBytes env path (manifestFront ++ rest) = .error e := by
  have hdrop : (manifestFront ++ rest).drop (framesStart (.versioned manifestVersion)) = rest :=
    List.drop_left' rfl
  have hrun : replayFrames (manifestHash env) applyFrame ((manifestFront ++ rest).length + 1) rest
      (ManifestState.default, 0) = .ok (ManifestState.default, 0) := by
    unfold replayFrames
    rw [h]
  have hcond : (manifestFront ++ rest).length > framesStart (.versioned manifestVersion) := by
    have := List.length_pos_iff.mpr hne
    simp only [List.length_append, length_manifestFront, framesStart]
    omega
  unfold replayManifestBytes
  rw [classify_manifestFront]
  simp only [bind, Except.bind, reduceCtorEq, if_false, hdrop, pure, Except.pure]
  simp only [manifestHash] at hrun
  rw [hrun]
  simp only [true_and, if_pos hcond]
  exact ⟨_, rfl⟩

/-- So is a manifest cut inside its first edit. -/
theorem replayManifest_first_torn (path : Path) {n : Nat} (hwhole : wholeEdits env edits n = 0)
    (hne : (editFrames env edits).take n ≠ []) :
    ∃ e, replayManifestBytes env path (manifestFront ++ (editFrames env edits).take n) =
      .error e := by
  refine replayManifest_torn path ?_ hne
  obtain ⟨t, ht, hcut⟩ := take_frames (manifestHash env) (edits.map VersionEdit.encode) n
  have h0 : wholeFrames (manifestHash env) (edits.map VersionEdit.encode) n = 0 := hwhole
  rw [h0, List.take_zero, frames_nil, List.nil_append] at ht
  rw [editFrames, ht]
  rcases hcut with rfl | ⟨p, hp, hpre, hlt⟩
  · exact nextFrame_short _ (by simp)
  · exact nextFrame_torn (editPayloads_lt edits p (List.mem_of_getElem? hp)) hpre hlt

/-- However a manifest is cut behind its header, it replays to a beginning of its edits or is
refused. -/
theorem replayManifest_take_or (path : Path) (hfit : ∀ e ∈ edits, e.Fits) (n : Nat) :
    (∃ j, replayManifestBytes env path (manifestFront ++ (editFrames env edits).take n) =
        .ok (applyAll (edits.take j))) ∨
      ∃ e, replayManifestBytes env path (manifestFront ++ (editFrames env edits).take n) =
        .error e := by
  by_cases hnil : (editFrames env edits).take n = []
  · have h : replayManifestBytes env path (manifestFront ++ (editFrames env edits).take 0) = _ :=
      replayManifest_take hfit 0 (Or.inr rfl)
    rw [List.take_zero] at h
    rw [hnil]
    exact Or.inl ⟨_, h⟩
  · by_cases hwhole : wholeEdits env edits n = 0
    · exact Or.inr (replayManifest_first_torn path hwhole hnil)
    · exact Or.inl ⟨_, replayManifest_take hfit n (Or.inl hwhole)⟩

end Replay

section Current

theorem decimalValue_append (a b : Bytes) (acc : Nat) :
    (a ++ b).foldl (fun acc d => 10 * acc + (d.toNat - 48)) acc =
      b.foldl (fun acc d => 10 * acc + (d.toNat - 48))
        (a.foldl (fun acc d => 10 * acc + (d.toNat - 48)) acc) := List.foldl_append

theorem digitByte_toNat {d : Nat} (hd : d < 10) : (UInt8.ofNat (48 + d)).toNat = 48 + d := by
  rw [UInt8.toNat_ofNat']
  omega

/-- Digits, most significant first, spell the number they stand for. -/
theorem decimalValue_digits (n : Nat) :
    decimalValue ((Nat.digits 10 n).reverse.map (fun d => UInt8.ofNat (48 + d))) = n := by
  have hspell : ∀ ds : List Nat, (∀ d ∈ ds, d < 10) →
      decimalValue (ds.reverse.map (fun d => UInt8.ofNat (48 + d))) = Nat.ofDigits 10 ds := by
    intro ds hds
    induction ds with
    | nil => rfl
    | cons d ds ih =>
        have hd := hds d (by simp)
        have ih := ih (fun x hx => hds x (List.mem_cons_of_mem _ hx))
        unfold decimalValue at ih ⊢
        rw [List.reverse_cons, List.map_append, decimalValue_append, ih]
        simp only [List.map_cons, List.map_nil, List.foldl_cons, List.foldl_nil,
          digitByte_toNat hd, Nat.ofDigits_cons]
        omega
  rw [hspell _ (fun d hd => Nat.digits_lt_base (by norm_num) hd), Nat.ofDigits_digits]

theorem decimalValue_zeros (k : Nat) (b : Bytes) :
    decimalValue (List.replicate k 48 ++ b) = decimalValue b := by
  have hz : (List.replicate k (48 : UInt8)).foldl (fun acc d => 10 * acc + (d.toNat - 48))
      0 = 0 := by
    induction k with
    | zero => rfl
    | succ k ih => rw [List.replicate_succ, List.foldl_cons]; exact ih
  unfold decimalValue
  rw [decimalValue_append, hz]

theorem decimalBytes_eq (width n : Nat) :
    decimalBytes width n = List.replicate (width - (Nat.digits 10 n).length) 48 ++
      (Nat.digits 10 n).reverse.map (fun d => UInt8.ofNat (48 + d)) := by
  unfold decimalBytes
  simp only [List.length_reverse, List.map_append, List.map_replicate]
  rfl

theorem decimalBytes_digit {width n : Nat} {b : UInt8} (hb : b ∈ decimalBytes width n) :
    48 ≤ b ∧ b ≤ 57 := by
  rw [decimalBytes_eq] at hb
  rcases List.mem_append.mp hb with hb | hb
  · rw [(List.mem_replicate.mp hb).2]
    decide
  · obtain ⟨d, hd, rfl⟩ := List.mem_map.mp hb
    have hlt : d < 10 := Nat.digits_lt_base (by norm_num) (List.mem_reverse.mp hd)
    interval_cases d <;> decide

theorem decimalBytes_ne_nil {width : Nat} (h : 0 < width) (n : Nat) :
    decimalBytes width n ≠ [] := by
  intro hnil
  have := congrArg List.length hnil
  simp only [decimalBytes_eq, List.length_append, List.length_replicate, List.length_map,
    List.length_reverse, List.length_nil] at this
  omega

/-- No white space starts with a digit, read from either end. -/
theorem dropWords_digit {b : UInt8} (h : 48 ≤ b ∧ b ≤ 57) (l : Bytes) (fuel : Nat) :
    dropWords (spaces.map List.reverse) fuel (b :: l) = b :: l := by
  have hheads : ∀ word ∈ spaces.map List.reverse, ∃ c rest, word = c :: rest ∧
      ¬ (48 ≤ c ∧ c ≤ 57) := by
    simp [spaces]
  cases fuel with
  | zero => rfl
  | succ fuel =>
      have hnone : (spaces.map List.reverse).find? (fun word => word.isPrefixOf (b :: l)) =
          none := by
        rw [List.find?_eq_none]
        intro word hword hfront
        obtain ⟨c, rest, rfl, hc⟩ := hheads word hword
        rw [List.isPrefixOf_cons_cons, Bool.and_eq_true, beq_iff_eq] at hfront
        exact hc (hfront.1 ▸ h)
      rw [dropWords, hnone]

/-- Padded decimal digits parse back. -/
theorem parseU64_decimalBytes {width n : Nat} (hw : 0 < width) (hn : n ≤ u64Max) :
    parseU64 (decimalBytes width n) = some n := by
  have hval : decimalValue (decimalBytes width n) = n := by
    rw [decimalBytes_eq, decimalValue_zeros, decimalValue_digits]
  have hall : (decimalBytes width n).all (fun d => 48 ≤ d && d ≤ 57) = true := by
    rw [List.all_eq_true]
    intro d hd
    simpa using decimalBytes_digit hd
  have hplus : (decimalBytes width n).head? ≠ some 43 := by
    intro h
    have := (decimalBytes_digit (List.mem_of_mem_head? h)).1
    exact absurd this (by decide)
  unfold parseU64
  simp only [hplus, if_false, decimalBytes_ne_nil hw n, hall, if_true, hval, hn]

/-- The contents of `CURRENT` name the generation. -/
theorem parseCurrent_currentBytes {g : Nat} (hg : g ≤ u64Max) :
    parseCurrent (currentBytes g) = .ok g := by
  have htrim : trimBytes (currentBytes g) = manifestStem ++ decimalBytes 6 g := by
    have hfront : ∀ fuel, dropWords spaces fuel (currentBytes g) = currentBytes g := by
      intro fuel
      cases fuel <;> rfl
    obtain ⟨b, l, hbl⟩ : ∃ b l, (manifestStem ++ decimalBytes 6 g).reverse = b :: l :=
      List.exists_cons_of_ne_nil (by simp [manifestStem])
    have hb : 48 ≤ b ∧ b ≤ 57 := by
      obtain ⟨d, ds, hds⟩ : ∃ d ds, (decimalBytes 6 g).reverse = d :: ds :=
        List.exists_cons_of_ne_nil (by simpa using decimalBytes_ne_nil (by norm_num) g)
      rw [List.reverse_append, hds] at hbl
      cases hbl
      exact decimalBytes_digit (List.mem_reverse.mp (by rw [hds]; simp))
    have hlen : (currentBytes g).length = (manifestStem ++ decimalBytes 6 g).length + 1 := by
      rw [currentBytes, List.length_append]
      rfl
    have hback : dropWords (spaces.map List.reverse) (currentBytes g).length
        (currentBytes g).reverse = (manifestStem ++ decimalBytes 6 g).reverse := by
      rw [hlen, currentBytes, List.reverse_append, hbl]
      exact dropWords_digit hb l _
    rw [trimBytes, hfront, hback, List.reverse_reverse]
  have hstem : (manifestStem ++ decimalBytes 6 g).take 9 = manifestStem := List.take_left' rfl
  have hdigits : (manifestStem ++ decimalBytes 6 g).drop 9 = decimalBytes 6 g := List.drop_left' rfl
  unfold parseCurrent
  simp only [htrim, hstem, hdigits, if_true, parseU64_decimalBytes (show 0 < 6 by norm_num) hg]

end Current

end LsmKv
