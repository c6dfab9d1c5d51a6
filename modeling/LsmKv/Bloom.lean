import LsmKv.Env
import LsmKv.Error
import Mathlib.Tactic.IntervalCases

/-!
# The Bloom filter of a table

`k` bit positions per key, by double hashing; encoded as
`[k:4][bit_count:8][bits…]`.

**Results.**
* `BloomFilter.contains_insertAll`: a key that was inserted is never denied.
* `BloomFilter.decode_encode`: a filter is read back.
-/

namespace LsmKv

open Foundation

/-- `bloom::BloomFilter`. -/
structure BloomFilter where
  bits : Bytes
  bitCount : Nat
  k : Nat
  deriving DecidableEq, Repr

namespace BloomFilter

/-- `u64::div_ceil(8)`. -/
def byteLen (bitCount : Nat) : Nat := (bitCount + 7) / 8

/-- `BloomFilter::new`; the floating-point sizing is a parameter. -/
def new (env : Env) (expected : Nat) : BloomFilter :=
  { bits := List.replicate (byteLen (env.bloomBits expected)) 0
    bitCount := env.bloomBits expected
    k := env.bloomProbes expected }

/-- The `i`-th bit position of a key. -/
def position (env : Env) (bitCount : Nat) (key : Bytes) (i : Nat) : Nat :=
  ((env.xxh3 key 0 + UInt64.ofNat i * env.xxh3 key 1).toNat) % bitCount

/-- Set one bit. -/
def setBit (bits : Bytes) (bit : Nat) : Bytes :=
  bits.modify (bit / 8) (fun b => b ||| (1 <<< UInt8.ofNat (bit % 8)))

/-- Whether a bit is set. -/
def testBit (bits : Bytes) (bit : Nat) : Bool :=
  (bits.getD (bit / 8) 0) &&& (1 <<< UInt8.ofNat (bit % 8)) ≠ 0

/-- `BloomFilter::insert`. -/
def insert (env : Env) (f : BloomFilter) (key : Bytes) : BloomFilter :=
  { f with
    bits := (List.range f.k).foldl
      (fun bits i => setBit bits (position env f.bitCount key i)) f.bits }

/-- `BloomFilter::contains`. -/
def contains (env : Env) (f : BloomFilter) (key : Bytes) : Bool :=
  (List.range f.k).all (fun i => testBit f.bits (position env f.bitCount key i))

/-- `BloomFilter::encode`. -/
def encode (f : BloomFilter) : Bytes := le 4 f.k ++ le 8 f.bitCount ++ f.bits

/-- `BloomFilter::decode`. -/
def decode (buf : Bytes) : Except Error BloomFilter :=
  if buf.length < 12 then .error (.corrupt "bloom filter truncated")
  else
    let k := ofLe (buf.take 4)
    let bitCount := ofLe ((buf.drop 4).take 8)
    if buf.length ≠ 12 + byteLen bitCount then
      .error (.corrupt "bloom filter length mismatch")
    else if k = 0 ∨ bitCount = 0 then
      .error (.corrupt "bloom filter has zero parameters")
    else .ok ⟨buf.drop 12, bitCount, k⟩

section Bits

variable {bits : Bytes} {i j : Nat}

theorem mask_ne_zero (n : Nat) : (1 : UInt8) <<< UInt8.ofNat (n % 8) ≠ 0 := by
  have hlt : n % 8 < 8 := Nat.mod_lt _ (by decide)
  generalize n % 8 = m at hlt
  interval_cases m <;> decide

theorem or_and_mask (x m : UInt8) : (x ||| m) &&& m = m := by
  apply UInt8.toBitVec_inj.mp
  simp only [UInt8.toBitVec_and, UInt8.toBitVec_or]
  ext i
  simp only [BitVec.getElem_and, BitVec.getElem_or]
  cases m.toBitVec[i] <;> simp

theorem or_and_ne_zero {x m : UInt8} (m' : UInt8) (h : x &&& m ≠ 0) : (x ||| m') &&& m ≠ 0 := by
  intro h0
  apply h
  have h0 := congrArg UInt8.toBitVec h0
  apply UInt8.toBitVec_inj.mp
  simp only [UInt8.toBitVec_and, UInt8.toBitVec_or] at h0 ⊢
  ext i hi
  have hi := congrArg (fun b : BitVec 8 => b[i]) h0
  simp only [BitVec.getElem_and, BitVec.getElem_or] at hi ⊢
  revert hi
  cases x.toBitVec[i] <;> simp

@[simp] theorem length_setBit (bits : Bytes) (i : Nat) : (setBit bits i).length = bits.length := by
  simp [setBit]

theorem testBit_setBit_self (h : i / 8 < bits.length) : testBit (setBit bits i) i = true := by
  unfold testBit setBit
  rw [List.getD_eq_getElem?_getD, List.getElem?_modify_eq, List.getElem?_eq_getElem h]
  simp only [Option.map_eq_map, Option.map_some, Option.getD_some, or_and_mask,
    ne_eq, decide_eq_true_eq]
  exact mask_ne_zero i

/-- Setting a bit clears none. -/
theorem testBit_setBit (h : testBit bits i = true) : testBit (setBit bits j) i = true := by
  unfold testBit at h ⊢
  unfold setBit
  rw [decide_eq_true_eq] at h ⊢
  rw [List.getD_eq_getElem?_getD] at h ⊢
  rw [List.getElem?_modify]
  cases hb : bits[i / 8]? with
  | none =>
      rw [hb] at h
      exact absurd (by simp) h
  | some b =>
      rw [hb] at h
      by_cases hij : j / 8 = i / 8
      · simp only [hij, if_true]
        exact or_and_ne_zero _ h
      · simp only [hij, if_false]
        exact h

/-- Bits set one after another are all set. -/
theorem testBit_foldl (f : Nat → Nat) (l : List Nat) (bits : Bytes)
    (h : ∀ i ∈ l, f i / 8 < bits.length) (n : Nat)
    (hn : testBit bits n = true ∨ ∃ i ∈ l, f i = n) :
    testBit (l.foldl (fun bits i => setBit bits (f i)) bits) n = true := by
  induction l generalizing bits with
  | nil => simpa using hn
  | cons a l ih =>
      rw [List.foldl_cons]
      apply ih
      · intro i hi
        rw [length_setBit]
        exact h i (List.mem_cons_of_mem _ hi)
      · rcases hn with hn | ⟨i, hi, rfl⟩
        · exact Or.inl (testBit_setBit hn)
        · rcases List.mem_cons.mp hi with rfl | hi
          · exact Or.inl (testBit_setBit_self (h i (by simp)))
          · exact Or.inr ⟨i, hi, rfl⟩

end Bits

/-- A filter whose bits have the length its bit count asks for. -/
structure Sized (f : BloomFilter) : Prop where
  bits : f.bits.length = byteLen f.bitCount
  pos : 0 < f.bitCount

section Keys

variable {env : Env} {f : BloomFilter}

theorem position_lt (env : Env) (key : Bytes) (i : Nat) {bitCount : Nat} (h : 0 < bitCount) :
    position env bitCount key i / 8 < byteLen bitCount := by
  have : position env bitCount key i < bitCount := Nat.mod_lt _ h
  unfold byteLen
  omega

theorem length_foldl_setBit (f : Nat → Nat) (l : List Nat) (bits : Bytes) :
    (l.foldl (fun bits i => setBit bits (f i)) bits).length = bits.length := by
  induction l generalizing bits with
  | nil => rfl
  | cons a l ih => rw [List.foldl_cons, ih, length_setBit]

theorem sized_new (env : Env) (n : Nat) : (new env n).Sized :=
  ⟨by simp [new], env.bloomBits_pos n⟩

theorem Sized.insert (h : f.Sized) (key : Bytes) : (f.insert env key).Sized :=
  ⟨(length_foldl_setBit _ _ _).trans h.bits, h.pos⟩

theorem contains_insert_self (h : f.Sized) (key : Bytes) :
    (f.insert env key).contains env key = true := by
  unfold contains BloomFilter.insert
  rw [List.all_eq_true]
  intro i hi
  apply testBit_foldl
  · intro j _
    rw [h.bits]
    exact position_lt env key j h.pos
  · exact Or.inr ⟨i, hi, rfl⟩

theorem contains_insert (h : f.Sized) {key : Bytes} (other : Bytes)
    (hk : f.contains env key = true) : (f.insert env other).contains env key = true := by
  unfold contains BloomFilter.insert at *
  rw [List.all_eq_true] at hk ⊢
  intro i hi
  apply testBit_foldl
  · intro j _
    rw [h.bits]
    exact position_lt env other j h.pos
  · exact Or.inl (hk i hi)

/-- A key that was inserted is never denied. -/
theorem contains_insertAll {α : Type} (g : α → Bytes) (l : List α) (h : f.Sized) {key : Bytes}
    (hk : f.contains env key = true ∨ ∃ a ∈ l, g a = key) :
    (l.foldl (fun f a => f.insert env (g a)) f).contains env key = true := by
  induction l generalizing f with
  | nil => simpa using hk
  | cons a l ih =>
      rw [List.foldl_cons]
      apply ih (h.insert _)
      rcases hk with hk | ⟨b, hb, rfl⟩
      · exact Or.inl (contains_insert h _ hk)
      · rcases List.mem_cons.mp hb with rfl | hb
        · exact Or.inl (contains_insert_self h _)
        · exact Or.inr ⟨b, hb, rfl⟩

/-- A filter that fits its fields is read back. -/
theorem decode_encode (h : f.Sized) (hk : f.k < 2 ^ 32) (hk0 : f.k ≠ 0)
    (hb : f.bitCount < 2 ^ 64) : decode f.encode = .ok f := by
  have hlen : f.encode.length = 12 + byteLen f.bitCount := by
    simp [encode, h.bits]
    omega
  have h4 : f.encode.take 4 = le 4 f.k := by
    rw [encode, List.append_assoc, List.take_left' (length_le _ _)]
  have h8 : (f.encode.drop 4).take 8 = le 8 f.bitCount := by
    rw [encode, List.append_assoc, List.drop_left' (length_le _ _),
      List.take_left' (length_le _ _)]
  have h12 : f.encode.drop 12 = f.bits := by
    rw [encode, List.drop_left' (by simp)]
  have e4 : ofLe (le 4 f.k) = f.k := ofLe_le (by norm_num at hk ⊢; omega)
  have e8 : ofLe (le 8 f.bitCount) = f.bitCount := ofLe_le (by norm_num at hb ⊢; omega)
  unfold decode
  rw [if_neg (by omega)]
  simp only [h4, h8, h12, e4, e8, hlen]
  rw [if_neg (by simp), if_neg (by rintro (h0 | h0); exacts [hk0 h0, h.pos.ne' h0])]

end Keys

end BloomFilter

end LsmKv
