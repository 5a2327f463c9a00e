import Mathlib.Data.List.Basic
import Mathlib.Data.Nat.ModEq
import Mathlib.Tactic.Ring

/-!
# Lib.Bytes

Bytes, the words they spell, and the integer conversions of C.

* `leNat`, `leBytes`: a word as little-endian bytes, and back (`leNat_leBytes`).
* `beNat`, `beBytes`: the same in network order (`beNat_beBytes`).
* `u32`, `u64`, `i32`: what a C integer becomes when it is converted to a type of that width.
-/

namespace Lib

abbrev Byte := UInt8

def ch (c : Char) : Byte := c.toUInt8

def str (s : List Char) : List Byte := s.map ch

/-! ## Words as bytes -/

def leNat : List Byte → Nat
  | [] => 0
  | b :: bs => b.toNat + 256 * leNat bs

def leBytes : Nat → Nat → List Byte
  | 0, _ => []
  | w + 1, n => UInt8.ofNat (n % 256) :: leBytes w (n / 256)

def beNat (bs : List Byte) : Nat := leNat bs.reverse

def beBytes (w n : Nat) : List Byte := (leBytes w n).reverse

@[simp] theorem leBytes_length (w n : Nat) : (leBytes w n).length = w := by
  induction w generalizing n with
  | zero => rfl
  | succ w ih => simp [leBytes, ih]

@[simp] theorem beBytes_length (w n : Nat) : (beBytes w n).length = w := by
  simp [beBytes]

/-- Reading back `w` little-endian bytes of `n` gives `n` modulo `256 ^ w`. -/
theorem leNat_leBytes (w n : Nat) : leNat (leBytes w n) = n % 256 ^ w := by
  induction w generalizing n with
  | zero => simp [leBytes, leNat, Nat.mod_one]
  | succ w ih =>
    simp only [leBytes, leNat, ih]
    rw [Nat.pow_succ, Nat.mul_comm (256 ^ w) 256, Nat.mod_mul]
    have : (UInt8.ofNat (n % 256)).toNat = n % 256 := by simp
    omega

theorem beNat_beBytes (w n : Nat) : beNat (beBytes w n) = n % 256 ^ w := by
  simp [beNat, beBytes, leNat_leBytes]

/-! ## The byte at a pointer -/

theorem getD_length (l r : List Byte) (b : Byte) : (l ++ b :: r).getD l.length 0 = b := by
  simp

theorem set_length (l r : List Byte) (b c : Byte) : (l ++ b :: r).set l.length c = l ++ c :: r := by
  rw [List.set_append_right _ _ (Nat.le_refl _), Nat.sub_self, List.set_cons_zero]

/-! ## Integer conversions -/

/-- Conversion to a 32-bit unsigned integer. -/
def u32 (x : Int) : Nat := (x % 2 ^ 32).toNat

def u64 (x : Int) : Nat := (x % 2 ^ 64).toNat

def i32 (x : Int) : Int := (x + 2 ^ 31) % 2 ^ 32 - 2 ^ 31

theorem u32_of_lt {x : Int} (h0 : 0 ≤ x) (h : x < 2 ^ 32) : u32 x = x.toNat := by
  rw [u32, Int.emod_eq_of_lt h0 h]

theorem u64_of_lt {x : Int} (h0 : 0 ≤ x) (h : x < 2 ^ 64) : u64 x = x.toNat := by
  rw [u64, Int.emod_eq_of_lt h0 h]

theorem i32_of_lt {x : Int} (h0 : -2 ^ 31 ≤ x) (h : x < 2 ^ 31) : i32 x = x := by
  rw [i32, Int.emod_eq_of_lt (by omega) (by omega)]
  omega

end Lib
