import Mathlib.Algebra.Order.Field.Rat
import Mathlib.Algebra.Order.Field.Power
import Mathlib.Tactic.FieldSimp
import Mathlib.Tactic.Linarith
import Mathlib.Tactic.Positivity

/-!
# Lib.Single

IEEE single-precision numbers, as 32-bit patterns with exact rational values.

A finite number is a quotient by a power of two below the exponent field 150 (`abs_quotient`), and an
integer from there on (`abs_integer`); `abs_lt_iff` says that 150 is where `2 ^ 23` is.
-/

namespace Lib
namespace Single

/-- The sign bit. -/
def Negative (x : Nat) : Prop := 2 ^ 31 ≤ x

instance (x : Nat) : Decidable (Negative x) := inferInstanceAs (Decidable (2 ^ 31 ≤ x))

/-- The exponent field, biased by 127. -/
def exponent (x : Nat) : Nat := x / 2 ^ 23 % 2 ^ 8

def fraction (x : Nat) : Nat := x % 2 ^ 23

/-- Neither an infinity nor a NaN. -/
def Finite (x : Nat) : Prop := exponent x ≠ 255

instance (x : Nat) : Decidable (Finite x) := inferInstanceAs (Decidable (exponent x ≠ 255))

/-- The magnitude of a finite number. With the exponent field zero it is subnormal. -/
def abs (x : Nat) : ℚ :=
  if exponent x = 0 then fraction x / 2 ^ 149
  else (2 ^ 23 + fraction x : Nat) * 2 ^ ((exponent x : Int) - 150)

def value (x : Nat) : ℚ := if Negative x then -abs x else abs x

theorem fraction_lt (x : Nat) : fraction x < 2 ^ 23 := Nat.mod_lt x (by norm_num)

theorem abs_quotient {x : Nat} (h : exponent x ≠ 0) (hlt : exponent x < 150) :
    abs x = (2 ^ 23 + fraction x : Nat) / (2 ^ (150 - exponent x) : Nat) := by
  have hexp : ((exponent x : Int) - 150) = -((150 - exponent x : Nat) : Int) := by omega
  rw [abs, if_neg h, hexp, zpow_neg, zpow_natCast, ← div_eq_mul_inv, Nat.cast_pow, Nat.cast_ofNat]

theorem abs_integer {x : Nat} (h : 150 ≤ exponent x) :
    abs x = ((2 ^ 23 + fraction x) * 2 ^ (exponent x - 150) : Nat) := by
  have hexp : ((exponent x : Int) - 150) = ((exponent x - 150 : Nat) : Int) := by omega
  rw [abs, if_neg (by omega), hexp, zpow_natCast]
  norm_cast

theorem abs_nonneg (x : Nat) : 0 ≤ abs x := by
  unfold abs
  split
  · positivity
  · positivity

/-- What a subnormal number is less than. -/
theorem abs_subnormal {x : Nat} (h : exponent x = 0) : abs x < 1 / 2 ^ 126 := by
  have hfrac : (fraction x : ℚ) < 2 ^ 23 := by exact_mod_cast fraction_lt x
  rw [abs, if_pos h, div_lt_div_iff₀ (by positivity) (by positivity)]
  linarith

/-- A bound by the exponent field. -/
theorem abs_lt_of_exponent {x k : Nat} (hpos : 0 < k) (hk : k ≤ 149) (h : exponent x + k ≤ 150) :
    abs x < 2 ^ 24 / 2 ^ k := by
  by_cases hzero : exponent x = 0
  · have hpow : (2 : ℚ) ^ k ≤ 2 ^ 149 := pow_le_pow_right₀ (by norm_num) hk
    have hle : (1 : ℚ) / 2 ^ 126 ≤ 2 ^ 24 / 2 ^ k := by
      rw [div_le_div_iff₀ (by positivity) (by positivity)]
      linarith
    exact (abs_subnormal hzero).trans_le hle
  · have hsig : ((2 ^ 23 + fraction x : Nat) : ℚ) < 2 ^ 24 := by
      have := fraction_lt x
      exact_mod_cast (by omega : 2 ^ 23 + fraction x < 2 ^ 24)
    have hpow : (2 : ℚ) ^ k ≤ 2 ^ (150 - exponent x) := pow_le_pow_right₀ (by norm_num) (by omega)
    rw [abs_quotient hzero (by omega), Nat.cast_pow, Nat.cast_ofNat]
    calc ((2 ^ 23 + fraction x : Nat) : ℚ) / 2 ^ (150 - exponent x)
        < 2 ^ 24 / 2 ^ (150 - exponent x) := by gcongr
      _ ≤ 2 ^ 24 / 2 ^ k := by gcongr

theorem abs_lt_iff (x : Nat) : abs x < 2 ^ 23 ↔ exponent x < 150 := by
  constructor
  · intro h
    by_contra hge
    rw [abs_integer (by omega)] at h
    have hlt : (2 ^ 23 + fraction x) * 2 ^ (exponent x - 150) < 2 ^ 23 := by exact_mod_cast h
    have hle : 2 ^ 23 + fraction x ≤ (2 ^ 23 + fraction x) * 2 ^ (exponent x - 150) :=
      Nat.le_mul_of_pos_right _ (Nat.two_pow_pos _)
    omega
  · intro h
    have hlt := @abs_lt_of_exponent x 1 (by omega) (by omega) (by omega)
    norm_num at hlt ⊢
    exact hlt

end Single
end Lib
