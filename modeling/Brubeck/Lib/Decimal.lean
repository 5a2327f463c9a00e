import Brubeck.Lib.Numeral
import Mathlib.Data.Nat.Digits.Lemmas
import Mathlib.Data.List.DropRight

/-!
# Lib.Decimal

Natural numbers and binary fractions in decimal.

* `decimal n`: the digits of `n`, without leading zeros (`decimal_canonical`). `decimal_eq` is its
  equation by the last digit, `natVal_decimal` its meaning.
* `fracDigits`: the first digits after the point of `frac / scale`. Together they spell the fraction
  cut off behind the last digit (`natVal_fracDigits`).
* `trimZeros`: digits after a point, without the zeros at their end (`trimZeros_value`).
-/

namespace Lib

/-! ## What digits spell -/

@[simp] theorem natVal_nil : natVal [] = 0 := rfl

theorem natVal_snoc (ds : List (Fin 10)) (d : Fin 10) : natVal (ds ++ [d]) = natVal ds * 10 + d := by
  simp [natVal]

theorem natVal_cons (d : Fin 10) (ds : List (Fin 10)) :
    natVal (d :: ds) = d * 10 ^ ds.length + natVal ds := by
  induction ds using List.reverseRecOn with
  | nil => simp [natVal]
  | append_singleton ds e ih =>
    rw [← List.cons_append, natVal_snoc, natVal_snoc, ih, List.length_append, List.length_singleton,
      Nat.pow_succ, Nat.add_mul, Nat.mul_assoc, Nat.add_assoc]

theorem digitByte_injective : Function.Injective digitByte := by
  intro d e h
  have hnat := congrArg UInt8.toNat h
  rw [digitByte_toNat, digitByte_toNat] at hnat
  exact Fin.ext (by omega)

theorem digitByte_eq_zero (d : Fin 10) : digitByte d = ch '0' ↔ d = 0 :=
  ⟨fun h => digitByte_injective (h.trans rfl), fun h => by rw [h]; rfl⟩

theorem digitText_length (ds : List (Fin 10)) : (digitText ds).length = ds.length := List.length_map ..

/-- Reading the digits back. -/
theorem map_digitOf (ds : List (Fin 10)) : (digitText ds).map digitOf = ds := by
  unfold digitText
  rw [List.map_map]
  exact (List.map_congr_left fun d _ => digitOf_digitByte d).trans (List.map_id ds)

theorem digitText_injective : Function.Injective digitText :=
  List.map_injective_iff.mpr digitByte_injective

/-! ## Natural numbers -/

/-- The digits of a number, the first one first. -/
def decimal (n : Nat) : List (Fin 10) :=
  if n = 0 then [0] else ((Nat.digits 10 n).map (Fin.ofNat 10)).reverse

theorem decimal_eq (n : Nat) :
    decimal n = (if n / 10 ≠ 0 then decimal (n / 10) else []) ++ [Fin.ofNat 10 n] := by
  by_cases hzero : n = 0
  · subst hzero
    rfl
  · have hdigits := Nat.digits_def' (by omega : 1 < 10) (Nat.pos_of_ne_zero hzero)
    have hmod : Fin.ofNat 10 (n % 10) = Fin.ofNat 10 n := Fin.ext (Nat.mod_mod n 10)
    rw [decimal, if_neg hzero, hdigits, List.map_cons, List.reverse_cons, hmod]
    by_cases hlast : n / 10 = 0
    · simp [hlast]
    · simp [hlast, decimal]

theorem decimal_ne_nil (n : Nat) : decimal n ≠ [] := by
  rw [decimal_eq]
  simp

theorem natVal_decimal (n : Nat) : natVal (decimal n) = n := by
  induction n using Nat.strong_induction_on with
  | _ n ih =>
    rw [decimal_eq, natVal_snoc, Fin.val_ofNat]
    split
    · rename_i hne
      rw [ih (n / 10) (by omega)]
      omega
    · simp only [natVal_nil]
      omega

theorem decimal_injective : Function.Injective decimal := by
  intro m n h
  rw [← natVal_decimal m, h, natVal_decimal]

/-- No leading zeros, but for the number zero. -/
theorem decimal_canonical {n : Nat} (h : n ≠ 0) : (decimal n).head? ≠ some 0 := by
  induction n using Nat.strong_induction_on with
  | _ n ih =>
    rw [decimal_eq]
    split
    · rename_i hne
      rw [List.head?_append_of_ne_nil _ (decimal_ne_nil _)]
      exact ih (n / 10) (by omega) hne
    · intro hhead
      have hlast : (Fin.ofNat 10 n).val = 0 := by
        rw [Option.some.inj hhead]
        rfl
      rw [Fin.val_ofNat] at hlast
      omega

theorem decimal_length_le {k : Nat} (hk : 0 < k) : ∀ {n : Nat}, n < 10 ^ k → (decimal n).length ≤ k := by
  induction k with
  | zero => omega
  | succ k ih =>
    intro n hn
    rw [decimal_eq, List.length_append, List.length_singleton]
    split
    · rename_i hne
      have hlt : n / 10 < 10 ^ k := by
        rw [Nat.pow_succ] at hn
        omega
      have hpos : 0 < k := by
        rcases Nat.eq_zero_or_pos k with rfl | hpos
        · simp at hlt
          omega
        · exact hpos
      have := ih hpos hlt
      omega
    · simp

/-! ## Fractions -/

/-- The first `m` digits after the point of `frac / scale`. -/
def fracDigits (scale : Nat) : Nat → Nat → List (Fin 10)
  | 0, _ => []
  | m + 1, frac => Fin.ofNat 10 (frac * 10 / scale) :: fracDigits scale m (frac * 10 % scale)

@[simp] theorem fracDigits_length (scale m frac : Nat) : (fracDigits scale m frac).length = m := by
  induction m generalizing frac with
  | zero => rfl
  | succ m ih => simp [fracDigits, ih]

/-- Scaling a quotient scales its two parts. -/
theorem mul_div_split {scale : Nat} (hscale : 0 < scale) (n k : Nat) :
    n * k / scale = n % scale * k / scale + n / scale * k := by
  rw [← Nat.add_mul_div_right _ _ hscale]
  congr 1
  calc n * k = (n % scale + n / scale * scale) * k := by rw [Nat.mod_add_div']
    _ = n % scale * k + n / scale * k * scale := by ring

theorem natVal_fracDigits {scale : Nat} (m : Nat) {frac : Nat} (h : frac < scale) :
    natVal (fracDigits scale m frac) = frac * 10 ^ m / scale := by
  induction m generalizing frac with
  | zero => simp [fracDigits, Nat.div_eq_of_lt h]
  | succ m ih =>
    have hscale : 0 < scale := by omega
    have hdigit : frac * 10 / scale < 10 := (Nat.div_lt_iff_lt_mul hscale).mpr (by omega)
    rw [fracDigits, natVal_cons, fracDigits_length, ih (Nat.mod_lt _ hscale), Fin.val_ofNat,
      Nat.mod_eq_of_lt hdigit, pow_succ', ← Nat.mul_assoc, mul_div_split hscale (frac * 10), Nat.add_comm]

/-- The digits without the zeros at their end. -/
def trimZeros (ds : List (Fin 10)) : List (Fin 10) := ds.rdropWhile (· = 0)

theorem trimZeros_snoc (ds : List (Fin 10)) (d : Fin 10) :
    trimZeros (ds ++ [d]) = if d = 0 then trimZeros ds else ds ++ [d] := by
  unfold trimZeros
  rw [List.rdropWhile_concat]
  simp

theorem trimZeros_getLast (ds : List (Fin 10)) : (trimZeros ds).getLast? ≠ some 0 := by
  by_cases hnil : trimZeros ds = []
  · simp [hnil]
  · rw [List.getLast?_eq_some_getLast hnil]
    have hlast := List.rdropWhile_last_not (fun d : Fin 10 => decide (d = 0)) ds hnil
    intro hzero
    exact hlast (decide_eq_true (Option.some.inj hzero))

theorem trimZeros_length_le (ds : List (Fin 10)) : (trimZeros ds).length ≤ ds.length :=
  (List.rdropWhile_prefix _ ds).length_le

/-- Behind the point, the zeros at the end say nothing. -/
theorem trimZeros_value (ds : List (Fin 10)) :
    (natVal (trimZeros ds) / 10 ^ (trimZeros ds).length : ℚ) = natVal ds / 10 ^ ds.length := by
  induction ds using List.reverseRecOn with
  | nil => rfl
  | append_singleton ds d ih =>
    rw [trimZeros_snoc]
    by_cases hd : d = 0
    · rw [if_pos hd, ih, natVal_snoc, hd, List.length_append, List.length_singleton, pow_succ]
      simp [mul_div_mul_right]
    · rw [if_neg hd]

end Lib
