import Brubeck.Lib.Bytes
import Mathlib.Data.Nat.Bitwise

/-!
# Lib.Bits

A set of bits kept in a list of bytes: bit `x` is bit `x % 8` of byte `x / 8`.

* `setBit_iff`: setting a bit adds that bit and nothing else.
* `getBit_zeros`: a zeroed list of bytes holds no bit.
-/

namespace Lib

def getBit (bs : List Byte) (x : Nat) : Bool := (bs.getD (x / 8) 0).toNat.testBit (x % 8)

def setBit (bs : List Byte) (x : Nat) : List Byte :=
  bs.set (x / 8) (UInt8.ofNat ((bs.getD (x / 8) 0).toNat ||| 2 ^ (x % 8)))

@[simp] theorem setBit_length (bs : List Byte) (x : Nat) : (setBit bs x).length = bs.length := by
  simp [setBit]

theorem and_two_pow_ne_zero (c k : Nat) : c &&& 2 ^ k ≠ 0 ↔ c.testBit k = true := by
  rw [Nat.and_two_pow]
  cases c.testBit k <;> simp

theorem or_two_pow_lt (c : Byte) {k : Nat} (hk : k < 8) : c.toNat ||| 2 ^ k < 2 ^ 8 := by
  apply Nat.or_lt_two_pow
  · exact c.toNat_lt
  · exact Nat.pow_lt_pow_right (by omega) hk

theorem testBit_setByte (c : Byte) (k j : Nat) (hk : k < 8) :
    (UInt8.ofNat (c.toNat ||| 2 ^ k)).toNat.testBit j = (c.toNat.testBit j || decide (k = j)) := by
  rw [UInt8.toNat_ofNat_of_lt' (or_two_pow_lt c hk), Nat.testBit_or, Nat.testBit_two_pow]

theorem setBit_iff {bs : List Byte} {x : Nat} (hx : x / 8 < bs.length) (y : Nat) :
    getBit (setBit bs x) y = true ↔ getBit bs y = true ∨ y = x := by
  by_cases hb : x / 8 = y / 8
  · have hget : (setBit bs x).getD (y / 8) 0 =
        UInt8.ofNat ((bs.getD (y / 8) 0).toNat ||| 2 ^ (x % 8)) := by
      simp [setBit, hb, List.getD_eq_getElem?_getD, show y / 8 < bs.length by omega]
    have hm : x % 8 = y % 8 ↔ y = x := by omega
    rw [getBit, hget, testBit_setByte _ _ _ (Nat.mod_lt _ (by omega))]
    simp [getBit, hm]
  · have hne : y ≠ x := by rintro rfl; exact hb rfl
    simp [getBit, setBit, List.getD_eq_getElem?_getD, List.getElem?_set_ne hb, hne]

theorem getBit_zeros (n y : Nat) : getBit (List.replicate n 0) y = false := by
  have : (List.replicate n (0 : Byte)).getD (y / 8) 0 = 0 := by
    simp [List.getD_eq_getElem?_getD, List.getElem?_replicate]
    split <;> rfl
  rw [getBit, this]
  simp

end Lib
