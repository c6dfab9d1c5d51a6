import LsmKv.Env

/-!
# A concrete environment

An inhabitant of `Env` for evaluating the model: the two CRCs bit by bit, a
block compressor that stores its input as one run of literals, and simple
stand-ins for the filter's hash and sizing.
-/

namespace LsmKv

open Foundation

namespace Stock

/-- One bit of a reflected CRC. -/
def crcBit (poly c : Nat) : Nat := if c % 2 = 1 then (c / 2) ^^^ poly else c / 2

/-- One byte of a reflected CRC. -/
def crcByte (poly c : Nat) (b : UInt8) : Nat :=
  (List.range 8).foldl (fun c _ => crcBit poly c) (c ^^^ b.toNat)

/-- A reflected 32-bit CRC with all bits set before and flipped after. -/
def crc (poly : Nat) (bytes : Bytes) : UInt32 :=
  UInt32.ofNat (bytes.foldl (crcByte poly) 4294967295 ^^^ 4294967295)

/-- The filter's hash. -/
def mix (key : Bytes) (seed : UInt64) : UInt64 :=
  UInt64.ofNat (key.foldl (fun h b => (h * 257 + b.toNat + 1) % 2 ^ 64) (seed.toNat + 17))

/-- The bytes that continue a literal length past fifteen. -/
def moreLength : Nat → Nat → Bytes
  | 0, _ => []
  | fuel + 1, n => if n < 255 then [UInt8.ofNat n] else 255 :: moreLength fuel (n - 255)

/-- The literals of a block: a token, the rest of the length, the bytes. -/
def store (b : Bytes) : Bytes :=
  le 4 b.length ++
    (if b.length < 15 then [UInt8.ofNat (16 * b.length)]
      else 240 :: moreLength b.length (b.length - 15)) ++ b

/-- Undo `store`, from the size in front. -/
def unstore (b : Bytes) : Except String Bytes :=
  let size := ofLe (b.take 4)
  if size ≤ b.length then .ok (b.drop (b.length - size))
  else .error "the given output size does not match"

theorem store_ne_nil (b : Bytes) : store b ≠ [] := by
  have h4 : (le 4 b.length).length = 4 := length_le _ _
  intro h
  have hlen := congrArg List.length h
  rw [store, List.length_append, List.length_append, h4, List.length_nil] at hlen
  omega

theorem unstore_store (b : Bytes) (h : b.length < 2 ^ 32) : unstore (store b) = .ok b := by
  have hsize : ofLe ((store b).take 4) = b.length := by
    have h4 : (le 4 b.length).length = 4 := length_le _ _
    rw [store, List.append_assoc, List.take_left' h4, ofLe_le (by norm_num at h ⊢; omega)]
  have hle : b.length ≤ (store b).length := by
    rw [store, List.length_append]
    omega
  unfold unstore
  simp only [hsize, if_pos hle]
  congr 1
  have hsplit : (store b).length - b.length =
      (le 4 b.length ++ (if b.length < 15 then [UInt8.ofNat (16 * b.length)]
        else 240 :: moreLength b.length (b.length - 15))).length := by
    rw [store, List.length_append]
    omega
  rw [hsplit, store, List.drop_left]

/-- The environment. -/
def env : Env where
  crc32 := crc 3988292384
  crc32c := crc 2197175160
  xxh3 := mix
  compress := store
  decompress := unstore
  bloomBits n := min (10 * n + 8) (2 ^ 32)
  bloomProbes _ := 2
  decompress_compress := unstore_store
  bloomBits_pos n := by omega
  bloomBits_lt n := by omega
  bloomProbes_pos _ := by omega
  bloomProbes_lt _ := by omega

end Stock

end LsmKv
