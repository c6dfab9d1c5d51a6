import LsmKv.ArbitraryBytes

/-!
# Probing a filter with the bounds checked

`bits[…]` panics outside the array and `%` panics at zero, and `Bloom` models neither: it
reads a zero byte there and sets nothing.  Here the two loops of the filter check every
access, and a filter whose array has the length its bit count asks for passes all checks.

**Results.**
* `BloomFilter.Sized.insertChecked`, `BloomFilter.Sized.containsChecked`: no access of
  such a filter is outside.
* `bloom_never_denies`: from a zeroed array, over any inserts and through the bytes of the
  filter, and from whatever `decode` accepts.
-/

namespace LsmKv

open Foundation

namespace BloomFilter

/-- The `i`-th bit position of a key; nothing where the remainder panics. -/
def positionChecked (env : Env) (bitCount : Nat) (key : Bytes) (i : Nat) : Option Nat :=
  if bitCount = 0 then none else some (position env bitCount key i)

/-- Set one bit; nothing where the index panics. -/
def setBitChecked (bits : Bytes) (bit : Nat) : Option Bytes :=
  if bit / 8 < bits.length then some (setBit bits bit) else none

/-- Whether a bit is set; nothing where the index panics. -/
def testBitChecked (bits : Bytes) (bit : Nat) : Option Bool :=
  bits[bit / 8]?.map fun b => b &&& (1 <<< UInt8.ofNat (bit % 8)) ≠ 0

/-- `BloomFilter::insert`, or nothing if it panics. -/
def insertChecked (env : Env) (f : BloomFilter) (key : Bytes) : Option BloomFilter := do
  let bits ← (List.range f.k).foldlM
    (fun bits i => do setBitChecked bits (← positionChecked env f.bitCount key i)) f.bits
  return { f with bits := bits }

/-- The loop of `BloomFilter::contains`: it returns at the first bit that is not set. -/
def probe (env : Env) (f : BloomFilter) (key : Bytes) : List Nat → Option Bool
  | [] => some true
  | i :: l => do
      let bit ← positionChecked env f.bitCount key i
      if ← testBitChecked f.bits bit then probe env f key l else return false

/-- `BloomFilter::contains`, or nothing if it panics. -/
def containsChecked (env : Env) (f : BloomFilter) (key : Bytes) : Option Bool :=
  probe env f key (List.range f.k)

/-- The keys inserted one after another. -/
def insertAll (env : Env) (f : BloomFilter) (keys : List Bytes) : BloomFilter :=
  keys.foldl (fun f key => f.insert env key) f

/-- The keys inserted one after another, or nothing if one of the inserts panics. -/
def insertAllChecked (env : Env) (f : BloomFilter) (keys : List Bytes) : Option BloomFilter :=
  keys.foldlM (fun f key => f.insertChecked env key) f

/-- A filter whose array is zeroed. -/
def zeroed (bitCount k : Nat) : BloomFilter := ⟨List.replicate (byteLen bitCount) 0, bitCount, k⟩

theorem sized_zeroed {bitCount : Nat} (k : Nat) (h : 1 ≤ bitCount) : (zeroed bitCount k).Sized :=
  ⟨List.length_replicate, h⟩

section Checked

variable {env : Env} {f : BloomFilter}

theorem positionChecked_of_pos {bitCount : Nat} (h : 0 < bitCount) (key : Bytes) (i : Nat) :
    positionChecked env bitCount key i = some (position env bitCount key i) :=
  if_neg h.ne'

theorem testBitChecked_of_lt {bits : Bytes} {bit : Nat} (h : bit / 8 < bits.length) :
    testBitChecked bits bit = some (testBit bits bit) := by
  unfold testBitChecked testBit
  rw [List.getD_eq_getElem?_getD, List.getElem?_eq_getElem h]
  rfl

/-- The loop of `insert` stays inside an array of the right length. -/
theorem foldlM_setBitChecked (env : Env) (key : Bytes) {bitCount : Nat} (hpos : 0 < bitCount)
    (l : List Nat) {bits : Bytes} (hlen : bits.length = byteLen bitCount) :
    l.foldlM (fun bits i => do setBitChecked bits (← positionChecked env bitCount key i)) bits =
      some (l.foldl (fun bits i => setBit bits (position env bitCount key i)) bits) := by
  induction l generalizing bits with
  | nil => rfl
  | cons i l ih =>
      have hin : position env bitCount key i / 8 < bits.length := by
        rw [hlen]
        exact position_lt env key i hpos
      rw [List.foldlM_cons, positionChecked_of_pos hpos, List.foldl_cons]
      simp only [Option.bind_eq_bind, Option.bind_some, setBitChecked, if_pos hin]
      exact ih (by rw [length_setBit, hlen])

theorem Sized.insertChecked (h : f.Sized) (key : Bytes) :
    f.insertChecked env key = some (f.insert env key) := by
  unfold BloomFilter.insertChecked
  rw [foldlM_setBitChecked env key h.pos _ h.bits]
  rfl

theorem Sized.probe (h : f.Sized) (key : Bytes) (l : List Nat) :
    f.probe env key l = some (l.all fun i => testBit f.bits (position env f.bitCount key i)) := by
  induction l with
  | nil => rfl
  | cons i l ih =>
      have hin : position env f.bitCount key i / 8 < f.bits.length := by
        rw [h.bits]
        exact position_lt env key i h.pos
      rw [BloomFilter.probe, positionChecked_of_pos h.pos, List.all_cons]
      simp only [Option.bind_eq_bind, Option.bind_some, testBitChecked_of_lt hin]
      cases testBit f.bits (position env f.bitCount key i) with
      | false => rfl
      | true => exact ih

theorem Sized.containsChecked (h : f.Sized) (key : Bytes) :
    f.containsChecked env key = some (f.contains env key) :=
  h.probe key _

theorem Sized.insertAll (h : f.Sized) (keys : List Bytes) : (f.insertAll env keys).Sized := by
  induction keys generalizing f with
  | nil => exact h
  | cons key keys ih => exact ih (h.insert key)

theorem Sized.insertAllChecked (h : f.Sized) (keys : List Bytes) :
    f.insertAllChecked env keys = some (f.insertAll env keys) := by
  induction keys generalizing f with
  | nil => rfl
  | cons key keys ih =>
      unfold BloomFilter.insertAllChecked
      rw [List.foldlM_cons, h.insertChecked key]
      exact ih (h.insert key)

/-- Inserting changes bits only. -/
theorem insertAll_params (env : Env) (f : BloomFilter) (keys : List Bytes) :
    (f.insertAll env keys).bitCount = f.bitCount ∧ (f.insertAll env keys).k = f.k := by
  induction keys generalizing f with
  | nil => exact ⟨rfl, rfl⟩
  | cons key keys ih => exact ih (f.insert env key)

end Checked

end BloomFilter

open BloomFilter

/-- From a zeroed array, whatever the hash, no insert and no probe leaves the array, the
filter is read back from its bytes, and a key that was inserted is never denied, whatever was
inserted after it.  On whatever `decode` accepts, too, no insert and no probe leaves the
array. -/
theorem bloom_never_denies (env : Env) :
    (∀ bitCount k : Nat, 1 ≤ bitCount → bitCount < 2 ^ 64 → 1 ≤ k → k < 2 ^ 32 →
      ∀ keys later : List Bytes, ∃ f,
        (zeroed bitCount k).insertAllChecked env (keys ++ later) = some f ∧
        f = (zeroed bitCount k).insertAll env (keys ++ later) ∧
        decode f.encode = .ok f ∧
        (∀ key, f.containsChecked env key = some (f.contains env key)) ∧
        ∀ key ∈ keys, f.contains env key = true) ∧
    ∀ (buf : Bytes) (f : BloomFilter), decode buf = .ok f → ∀ (keys : List Bytes) (key : Bytes),
      f.insertAllChecked env keys = some (f.insertAll env keys) ∧
      (f.insertAll env keys).containsChecked env key =
        some ((f.insertAll env keys).contains env key) := by
  refine ⟨?_, ?_⟩
  · intro bitCount k hbits hbitsfit hk hkfit keys later
    have hsized : (zeroed bitCount k).Sized := sized_zeroed k hbits
    obtain ⟨hcount, hprobes⟩ := insertAll_params env (zeroed bitCount k) (keys ++ later)
    refine ⟨_, hsized.insertAllChecked _, rfl, ?_, ?_, ?_⟩
    · refine decode_encode (hsized.insertAll _) ?_ ?_ ?_
      · rwa [hprobes]
      · rw [hprobes]
        exact Nat.one_le_iff_ne_zero.mp hk
      · rwa [hcount]
    · exact fun key => (hsized.insertAll _).containsChecked key
    · intro key hkey
      exact contains_insertAll id _ hsized
        (Or.inr ⟨key, List.mem_append_left later hkey, rfl⟩)
  · intro buf f hbuf keys key
    have hsized := sized_of_decode hbuf
    exact ⟨hsized.insertAllChecked keys, (hsized.insertAll keys).containsChecked key⟩

/-- A filter of 13 bits and 3 probes, one key and one after it, and the same filter from its
bytes. -/
theorem bloom_never_denies_thirteen :
    ((zeroed 13 3).insertAll Stock.env [[7], [8]]).contains Stock.env [7] = true ∧
      ∃ f, decode ((zeroed 13 3).insertAll Stock.env [[7], [8]]).encode = .ok f ∧
        f.insertAllChecked Stock.env [[9]] = some (f.insertAll Stock.env [[9]]) := by
  obtain ⟨f, -, rfl, hread, -, hkeys⟩ := (bloom_never_denies Stock.env).1 13 3 (by decide)
    (by decide) (by decide) (by decide) [[7]] [[8]]
  exact ⟨hkeys [7] (by decide), _, hread,
    ((bloom_never_denies Stock.env).2 _ _ hread [[9]] [9]).1⟩

end LsmKv
