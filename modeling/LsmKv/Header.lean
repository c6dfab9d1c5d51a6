import LsmKv.Error

/-!
# Log headers

The eight bytes at the front of a log: `[magic:4][version:u16][reserved:u16]`.
The front of a file decides the checksum and the shape of its frames.
-/

namespace LsmKv

open Foundation

/-- `HEADER_LEN`. -/
def headerLen : Nat := 8

/-- `WAL_VERSION`. -/
def walVersion : Nat := 3

/-- `MANIFEST_VERSION`. -/
def manifestVersion : Nat := 2

/-- `WAL_MAGIC`, the text `LSMW`. -/
def walMagic : Bytes := [76, 83, 77, 87]

/-- `MANIFEST_MAGIC`, the text `LSMM`. -/
def manifestMagic : Bytes := [76, 83, 77, 77]

/-- Which checksum a file's frames are protected by. -/
inductive Checksum
  | isoHdlc
  | castagnoli
  deriving DecidableEq, Repr

/-- What the first bytes of a file turned out to be. -/
inductive Kind
  | empty
  | versioned (version : Nat)
  | legacy
  deriving DecidableEq, Repr

/-- `header::wal_checksum`. -/
def walChecksum : Kind → Checksum
  | .versioned v => if v ≥ 3 then .castagnoli else .isoHdlc
  | _ => .isoHdlc

/-- `header::manifest_checksum`. -/
def manifestChecksum : Kind → Checksum
  | .versioned v => if v ≥ 2 then .castagnoli else .isoHdlc
  | _ => .isoHdlc

/-- `header::encode`. -/
def encodeHeader (magic : Bytes) (version : Nat) : Bytes :=
  magic ++ le 2 version ++ [0, 0]

/-- `header::classify`. -/
def classify (bytes magic : Bytes) (newest : Nat) (what : String) : Except Error Kind :=
  if bytes = [] then .ok .empty
  else if headerLen ≤ bytes.length ∧ bytes.take 4 = magic then
    let version := ofLe ((bytes.drop 4).take 2)
    if version > newest then
      .error (.badFormat (what ++ " is version " ++ toString version ++
        "; this build understands up to " ++ toString newest))
    else .ok (.versioned version)
  else .ok .legacy

/-- A header in front of any bytes is recognised. -/
theorem classify_encodeHeader {magic : Bytes} {version newest : Nat} (hm : magic.length = 4)
    (hv : version ≤ newest) (hnewest : newest < 2 ^ 16) (what : String) (rest : Bytes) :
    classify (encodeHeader magic version ++ rest) magic newest what = .ok (.versioned version) := by
  have hsplit : encodeHeader magic version ++ rest =
      magic ++ (le 2 version ++ ([0, 0] ++ rest)) := by
    simp [encodeHeader]
  have hlen : headerLen ≤ (encodeHeader magic version ++ rest).length := by
    simp [hsplit, hm, headerLen]
    omega
  have hne : encodeHeader magic version ++ rest ≠ [] := by
    intro h
    simp [h, headerLen] at hlen
  have hver : ofLe (((encodeHeader magic version ++ rest).drop 4).take 2) = version := by
    rw [hsplit, List.drop_left' hm, List.take_left' (length_le _ _)]
    exact ofLe_le (by norm_num at hnewest ⊢; omega)
  have htake : (encodeHeader magic version ++ rest).take 4 = magic := by
    rw [hsplit, List.take_left' hm]
  unfold classify
  rw [if_neg hne, if_pos ⟨hlen, htake⟩]
  simp only [hver]
  rw [if_neg (by omega)]

/-- Only a file without bytes is empty. -/
theorem classify_ne_empty {bytes magic : Bytes} {newest : Nat} {what : String} {kind : Kind}
    (hne : bytes ≠ []) (hk : classify bytes magic newest what = .ok kind) : kind ≠ .empty := by
  rintro rfl
  simp only [classify, if_neg hne] at hk
  split_ifs at hk
  all_goals cases hk

/-- The format of a file shows in its first eight bytes. -/
theorem classify_take (bytes magic : Bytes) (newest : Nat) (what : String) :
    classify (bytes.take headerLen) magic newest what = classify bytes magic newest what := by
  have h0 : (bytes.take headerLen = []) ↔ bytes = [] := by
    cases bytes <;> simp [headerLen]
  have hlen : (headerLen ≤ (bytes.take headerLen).length) ↔ headerLen ≤ bytes.length := by
    rw [List.length_take]
    omega
  have hfour : (bytes.take headerLen).take 4 = bytes.take 4 := by
    rw [List.take_take]
    rfl
  have htwo : ((bytes.take headerLen).drop 4).take 2 = (bytes.drop 4).take 2 := by
    rw [List.drop_take, List.take_take]
    rfl
  simp only [classify, h0, hlen, hfour, htwo]

/-- `header::frames_start`. -/
def framesStart : Kind → Nat
  | .legacy => 0
  | .empty => headerLen
  | .versioned _ => headerLen

end LsmKv
