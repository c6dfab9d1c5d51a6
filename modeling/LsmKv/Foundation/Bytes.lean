import Mathlib.Order.Lex
import Mathlib.Data.List.Lex
import Mathlib.Tactic.Ring
import Mathlib.Tactic.NormNum

/-!
# Byte strings and little-endian fields

Byte strings are lists of `UInt8`, ordered lexicographically byte by byte.
A fixed-width unsigned field of `w` bytes is written least significant byte
first by `le w` and read back by `ofLe`.

**Results.**
* `ofLe_le`: reading back a written field gives the number modulo `256 ^ w`.
* `le_ofLe`: writing back a read field gives the bytes.
-/

namespace LsmKv
namespace Foundation

/-- Byte strings. -/
abbrev Bytes := List UInt8

/-- Bytes are ordered as the numbers they stand for. -/
instance instLinearOrderUInt8 : LinearOrder UInt8 where
  le_refl := UInt8.le_refl
  le_trans _ _ _ := UInt8.le_trans
  le_antisymm _ _ := UInt8.le_antisymm
  le_total := UInt8.le_total
  lt_iff_le_not_ge a b := by
    simp only [UInt8.lt_iff_toNat_lt, UInt8.le_iff_toNat_le]
    omega
  toDecidableLE := inferInstance
  toDecidableEq := inferInstance
  toDecidableLT := inferInstance

/-- The `w` little-endian bytes of `n`; what does not fit is dropped. -/
def le : Nat → Nat → Bytes
  | 0, _ => []
  | w + 1, n => UInt8.ofNat (n % 256) :: le w (n / 256)

/-- The number with the given little-endian bytes. -/
def ofLe : Bytes → Nat
  | [] => 0
  | b :: bs => b.toNat + 256 * ofLe bs

@[simp] theorem length_le (w n : Nat) : (le w n).length = w := by
  induction w generalizing n with
  | zero => rfl
  | succ w ih => simp [le, ih]

@[simp] theorem ofLe_nil : ofLe [] = 0 := rfl

@[simp] theorem ofLe_cons (b : UInt8) (bs : Bytes) :
    ofLe (b :: bs) = b.toNat + 256 * ofLe bs := rfl

theorem ofLe_le_mod (w n : Nat) : ofLe (le w n) = n % 256 ^ w := by
  induction w generalizing n with
  | zero => simp [le, Nat.mod_one]
  | succ w ih =>
      have hb : (UInt8.ofNat (n % 256)).toNat = n % 256 := by
        rw [UInt8.toNat_ofNat']
        omega
      rw [le, ofLe_cons, ih, hb, pow_succ', Nat.mod_mul]

/-- A number that fits its field is read back unchanged. -/
theorem ofLe_le {w n : Nat} (h : n < 256 ^ w) : ofLe (le w n) = n := by
  rw [ofLe_le_mod, Nat.mod_eq_of_lt h]

theorem ofLe_lt (l : Bytes) : ofLe l < 256 ^ l.length := by
  induction l with
  | nil => simp
  | cons b bs ih =>
      have hb : b.toNat < 256 := b.toNat_lt
      rw [ofLe_cons, List.length_cons, pow_succ]
      omega

/-- Writing back a field that was read gives the bytes it was read from. -/
theorem le_ofLe (l : Bytes) : le l.length (ofLe l) = l := by
  induction l with
  | nil => rfl
  | cons b bs ih =>
      have hb : b.toNat < 256 := b.toNat_lt
      rw [List.length_cons, le, ofLe_cons]
      have h1 : (b.toNat + 256 * ofLe bs) % 256 = b.toNat := by omega
      have h2 : (b.toNat + 256 * ofLe bs) / 256 = ofLe bs := by omega
      rw [h1, h2, UInt8.ofNat_toNat, ih]

end Foundation
end LsmKv
