import Brubeck.Ftoa.Memory
import Brubeck.Lib.Single
import Mathlib.Data.Rat.Floor
import Mathlib.Algebra.Order.Floor.Semifield

/-!
# Brubeck.Ftoa.Values

What `brubeck_ftoa` prints, against the exact value of the float.

The exponent decides which text it is: the mantissa over a power of two (`fixedText`), or an integer of
which `brubeck_itoa` gets 32 bits (`integerPart`). `ftoa_eq` says so of `ftoa`, and `ftoaMem_prints` that
the code leaves the same text in memory, and a NUL.

* `ftoa_truncates`: below `2 ^ 23` the value is cut off behind the fourth digit, and nothing undefined
  is done.
* `ftoa_integer_iff`: from there on the value is printed exactly when it is below `2 ^ 32`.
-/

namespace Brubeck

open Lib

/-! ## The fields of the pattern -/

theorem mantissa_eq (x : Nat) : (x &&& 0xFFFFFF) ||| 0x800000 = 2 ^ 23 + Single.fraction x := by
  have hlow : x &&& 0xFFFFFF = x % 2 ^ 24 := Nat.and_two_pow_sub_one_eq_mod x 24
  have hfrac : Single.fraction x < 2 ^ 23 := Single.fraction_lt x
  have hor : 2 ^ 23 + Single.fraction x = 2 ^ 23 ||| Single.fraction x := by
    have := Nat.two_pow_add_eq_or_of_lt hfrac 1
    rwa [Nat.mul_one] at this
  have hsplit : x % 2 ^ 24 = Single.fraction x ∨ x % 2 ^ 24 = 2 ^ 23 + Single.fraction x := by
    unfold Single.fraction
    omega
  have htop : (0x800000 : Nat) = 2 ^ 23 := rfl
  rw [hlow, htop]
  rcases hsplit with hbit | hbit
  · rw [hbit, hor, Nat.or_comm]
  · rw [hbit, hor, Nat.or_comm, ← Nat.or_assoc, Nat.or_self]

theorem exponent_eq (x : Nat) :
    ((x >>> 23 : Nat) : Int) % 256 - 127 = (Single.exponent x : Int) - 127 := by
  rw [Nat.shiftRight_eq_div_pow]
  unfold Single.exponent
  omega

def printedSign (x : Nat) : Option Bool := if Single.Negative x then some true else none

/-! ## The text behind the sign -/

/-- `m / 2 ^ s` in decimal, cut off behind the last of `FLOAT_PRECISION` digits. -/
def fixedText (m s : Nat) : List Byte :=
  digitText (decimal (m / 2 ^ s)) ++
    fracText (keptFrac (fracDigits (2 ^ s) FLOAT_PRECISION (m % 2 ^ s)))

/-- The integer part from the exponent field 150 on. -/
def integerPart (m e : Nat) : Nat := if 191 ≤ e then 2 ^ 64 - 1 else m * 2 ^ (e - 150)

/-- What is printed of a number with the exponent field `e` and the mantissa `m`. -/
def magnitudeText (e m : Nat) : List Byte :=
  if e < 91 then [ch '0']
  else if e < 150 then fixedText m (150 - e)
  else digitText (decimal (integerPart m e % 2 ^ 32))

theorem fixedText_whole {m s : Nat} (hm : m < 2 ^ 24) (hpos : 0 < s) : m / 2 ^ s < 2 ^ 23 := by
  have hpow : 2 ^ 1 ≤ 2 ^ s := Nat.pow_le_pow_right (by omega) hpos
  exact (Nat.div_lt_iff_lt_mul (Nat.two_pow_pos s)).mpr (by omega)

/-- The integers that fit are not cut off. -/
theorem integer_lt {m e : Nat} (hm : m < 2 ^ 24) (he : e < 191) : m * 2 ^ (e - 150) < 2 ^ 64 := by
  have hpow : 2 ^ (e - 150) ≤ 2 ^ 40 := Nat.pow_le_pow_right (by omega) (by omega)
  calc m * 2 ^ (e - 150) ≤ m * 2 ^ 40 := Nat.mul_le_mul_left m hpow
    _ < 2 ^ 64 := by omega

theorem itoaText_part (out : List Byte) (n : Nat) :
    (if n = 0 then out ++ [ch '0'] else out ++ itoaText n) = out ++ digitText (decimal (n % 2 ^ 32)) := by
  split
  · rename_i hzero
    subst hzero
    rfl
  · rw [itoaText_eq]

/-- Below the exponent 0 everything is fraction. -/
theorem low_exponent {m s : Nat} (hm : m < 2 ^ 24) (hs : 24 ≤ s) :
    m &&& 0xFFFFFF = m ∧ m / 2 ^ s = 0 ∧ m % 2 ^ s = m := by
  have hlt : m < 2 ^ s := lt_of_lt_of_le hm (Nat.pow_le_pow_right (by omega) hs)
  refine ⟨?_, Nat.div_eq_of_lt hlt, Nat.mod_eq_of_lt hlt⟩
  exact (Nat.and_two_pow_sub_one_eq_mod m 24).trans (Nat.mod_eq_of_lt hm)

theorem ftoaParts_fixed {m e : Nat} (hm : m < 2 ^ 24) (he : e < 150) (hlow : 91 ≤ e) :
    ftoaParts ((e : Int) - 127) m (2 ^ (150 - e) - 1) =
      some (m / 2 ^ (150 - e), m % 2 ^ (150 - e)) := by
  have h64 : ¬ 64 ≤ (e : Int) - 127 := by omega
  have h23 : ¬ 23 ≤ (e : Int) - 127 := by omega
  simp only [ftoaParts, h64, h23, if_false]
  by_cases hzero : 0 ≤ (e : Int) - 127
  · have hshift : 23 - ((e : Int) - 127) = ((150 - e : Nat) : Int) := by omega
    rw [if_pos hzero, hshift, shr64_eq m (by omega), Nat.and_two_pow_sub_one_eq_mod]
    rfl
  · obtain ⟨hall, hdiv, hmod⟩ := low_exponent hm (by omega : 24 ≤ 150 - e)
    rw [if_neg hzero, hdiv, hmod, hall]

theorem ftoaParts_integer {m e : Nat} (hm : m < 2 ^ 24) (he : 150 ≤ e) (mask : Nat) :
    ftoaParts ((e : Int) - 127) m mask = some (integerPart m e, 0) := by
  have h23 : 23 ≤ (e : Int) - 127 := by omega
  unfold ftoaParts integerPart
  by_cases hhuge : 191 ≤ e
  · rw [if_pos (by omega), if_pos hhuge]
  · have hshift : (e : Int) - 127 - 23 = ((e - 150 : Nat) : Int) := by omega
    rw [if_neg (by omega), if_pos h23, if_neg hhuge, hshift,
      shl64_eq _ (by omega) (integer_lt hm (by omega))]
    rfl

/-- The parts as `ftoa` has them: where no shift is out of range, they are those of the code. -/
theorem parts_of_ftoaParts {exp2 : Int} {m mask i f : Nat} (h : ftoaParts exp2 m mask = some (i, f)) :
    (if 64 ≤ exp2 then 2 ^ 64 - 1
      else if 23 ≤ exp2 then m <<< (exp2 - 23).toNat % 2 ^ 64
      else if 0 ≤ exp2 then m >>> (23 - exp2).toNat else 0) = i ∧
    (if 23 ≤ exp2 then 0 else if 0 ≤ exp2 then m &&& mask else m &&& 0xFFFFFF) = f := by
  unfold ftoaParts at h
  by_cases h64 : 64 ≤ exp2
  · rw [if_pos h64] at h
    cases h
    rw [if_pos h64, if_pos (by omega)]
    exact ⟨rfl, rfl⟩
  rw [if_neg h64] at h
  by_cases h23 : 23 ≤ exp2
  · rw [if_pos h23] at h
    obtain ⟨n, hn, heq⟩ := Option.map_eq_some_iff.mp h
    cases heq
    unfold shl64 at hn
    split at hn
    · rename_i hrange
      cases hn
      rw [if_neg h64, if_pos h23, if_pos h23, Nat.shiftLeft_eq, Nat.mod_eq_of_lt (by omega)]
      exact ⟨rfl, rfl⟩
    · cases hn
  rw [if_neg h23] at h
  by_cases h0 : 0 ≤ exp2
  · rw [if_pos h0] at h
    obtain ⟨n, hn, heq⟩ := Option.map_eq_some_iff.mp h
    cases heq
    unfold shr64 at hn
    split at hn
    · cases hn
      rw [if_neg h64, if_neg h23, if_pos h0, if_neg h23, if_pos h0]
      exact ⟨rfl, rfl⟩
    · cases hn
  · rw [if_neg h0] at h
    cases h
    rw [if_neg h64, if_neg h23, if_neg h0, if_neg h23, if_neg h0]
    exact ⟨rfl, rfl⟩

theorem ftoa_eq (x : Nat) :
    ftoa x = signText (printedSign x) ++
      magnitudeText (Single.exponent x) (2 ^ 23 + Single.fraction x) := by
  have hsign : (if 2 ^ 31 ≤ x then [ch '-'] else []) = signText (printedSign x) := by
    unfold printedSign
    by_cases hneg : Single.Negative x
    · rw [if_pos (show 2 ^ 31 ≤ x from hneg), if_pos hneg]
      rfl
    · rw [if_neg (show ¬ 2 ^ 31 ≤ x from hneg), if_neg hneg]
      rfl
  have hm : 2 ^ 23 + Single.fraction x < 2 ^ 24 := by
    have := Single.fraction_lt x
    omega
  simp only [ftoa, exponent_eq, mantissa_eq, hsign]
  generalize signText (printedSign x) = out
  generalize 2 ^ 23 + Single.fraction x = m at hm ⊢
  generalize Single.exponent x = e
  unfold magnitudeText
  by_cases htiny : e < 91
  · rw [if_pos (by omega), if_pos htiny]
  rw [if_neg (by omega), if_neg htiny]
  by_cases hfixed : e < 150
  · have hs : (150 - e) ≤ 59 := by omega
    have hmask : (2 ^ 64 - 1) >>> ((64 - 24 - -((e : Int) - 127 + 1)).toNat % 64) = 2 ^ (150 - e) - 1 := by
      have hshift : (64 - 24 - -((e : Int) - 127 + 1)).toNat % 64 = 64 - (150 - e) := by omega
      rw [hshift, Nat.shiftRight_eq_div_pow, mask_eq (by omega)]
    have hpoint : (24 + -((e : Int) - 127 + 1)).toNat = 150 - e := by omega
    have hlt : m % 2 ^ (150 - e) < 2 ^ (150 - e) := Nat.mod_lt _ (Nat.two_pow_pos _)
    have hwhole := fixedText_whole hm (by omega : 0 < 150 - e)
    obtain ⟨hint, hfrac⟩ := parts_of_ftoaParts (ftoaParts_fixed hm hfixed (by omega))
    rw [if_pos hfixed, hmask, hint, hfrac, hpoint, itoaText_part,
      Nat.mod_eq_of_lt (by omega : m / 2 ^ (150 - e) < 2 ^ 32), ftoaFrac_eq hs _ hlt, ftoaStrip_eq, fixedText,
      ← List.append_assoc]
    split
    · rfl
    · rename_i hzero
      rw [not_not] at hzero
      rw [hzero, keptFrac_zero]
      simp [fracText]
  · obtain ⟨hint, hfrac⟩ := parts_of_ftoaParts (ftoaParts_integer hm (by omega : 150 ≤ e)
      ((2 ^ 64 - 1) >>> ((64 - 24 - -((e : Int) - 127 + 1)).toNat % 64)))
    rw [if_neg hfixed, hint, hfrac, itoaText_part]
    simp

/-! ## The same text in memory -/

theorem Holds.int {pre post out mem : List Byte} {size p : Nat} (h : Holds pre post size out mem p)
    (hroom : out.length + 10 ≤ size) (n : Nat) :
    Holds pre post size (out ++ digitText (decimal (n % 2 ^ 32))) (ftoaInt mem p n).1
      (ftoaInt mem p n).2 := by
  unfold ftoaInt
  split
  · rename_i hzero
    subst hzero
    exact h.put (by omega) (ch '0')
  · exact (h.itoa hroom n).2

theorem fixedText_whole_length {m s : Nat} (hm : m < 2 ^ 24) (hpos : 0 < s) :
    (digitText (decimal (m / 2 ^ s))).length ≤ 7 := by
  have hlt := fixedText_whole hm hpos
  have := decimal_length_le (by omega) (by omega : m / 2 ^ s < 10 ^ 7)
  simpa [digitText] using this

theorem keptFrac_length_le (ds : List (Fin 10)) : (fracText (keptFrac ds)).length ≤ ds.length + 1 := by
  have := trimZeros_length_le ds
  unfold keptFrac
  split
  · simp [fracText]
  · simpa [fracText, digitText] using this

theorem magnitudeText_length_le (e : Nat) {m : Nat} (hm : m < 2 ^ 24) :
    (magnitudeText e m).length ≤ 12 := by
  unfold magnitudeText
  split
  · simp
  · split
    · have hwhole := fixedText_whole_length hm (by omega : 0 < 150 - e)
      have hfrac := keptFrac_length_le
        (fracDigits (2 ^ (150 - e)) FLOAT_PRECISION (m % 2 ^ (150 - e)))
      rw [fracDigits_length, FLOAT_PRECISION] at hfrac
      rw [fixedText, List.length_append]
      simp only [FLOAT_PRECISION]
      omega
    · have hlt : integerPart m e % 2 ^ 32 < 10 ^ 10 := by omega
      have := decimal_length_le (by omega) hlt
      simp only [digitText, List.length_map]
      omega

theorem signText_length_le (x : Nat) : (signText (printedSign x)).length ≤ 1 := by
  unfold printedSign
  split
  · simp [signText]
  · simp [signText]

/-- No float prints to more than 13 bytes: a sign, and either ten digits, or seven digits with a
point and four more. -/
theorem ftoa_length_le (x : Nat) : (ftoa x).length ≤ 13 := by
  have hfrac := Single.fraction_lt x
  have hsign := signText_length_le x
  have hlen := magnitudeText_length_le (Single.exponent x)
    (by omega : 2 ^ 23 + Single.fraction x < 2 ^ 24)
  rw [ftoa_eq, List.length_append]
  omega

theorem ftoaBody_holds {pre post out mem : List Byte} {size p e m : Nat} {undef : Option Nat}
    (hm : m < 2 ^ 24) (hdef : e < 150 ∨ undef ≠ none) (h : Holds pre post size out mem p)
    (hroom : out.length + 12 ≤ size) :
    ∃ r, ftoaBody undef mem p ((e : Int) - 127) m = some r ∧
      Holds pre post size (out ++ magnitudeText e m) r.1 r.2 := by
  unfold magnitudeText ftoaBody
  by_cases htiny : e < 91
  · rw [if_pos (by omega), if_pos htiny]
    exact ⟨_, rfl, h.put (by omega) (ch '0')⟩
  rw [if_neg (by omega), if_neg htiny]
  by_cases hfixed : e < 150
  · have hshift : 64 - 24 - (((150 - e : Nat) : Int) - 24) = ((64 - (150 - e) : Nat) : Int) := by omega
    have hpoint : -((e : Int) - 127 + 1) = ((150 - e : Nat) : Int) - 24 := by omega
    have hlt : m % 2 ^ (150 - e) < 2 ^ (150 - e) := Nat.mod_lt _ (Nat.two_pow_pos _)
    have hwhole := fixedText_whole hm (by omega : 0 < 150 - e)
    have hlen := fixedText_whole_length hm (by omega : 0 < 150 - e)
    have hint := h.int (by omega) (m / 2 ^ (150 - e))
    rw [Nat.mod_eq_of_lt (by omega : m / 2 ^ (150 - e) < 2 ^ 32)] at hint
    obtain ⟨r, hrun, hholds⟩ := ftoaPoint_holds (by omega) (by omega : 150 - e ≤ 59) hint hlt
      (by rw [List.length_append]; omega)
    refine ⟨r, ?_, ?_⟩
    · have hmask : shr64 (2 ^ 64 - 1) (64 - 24 - (((150 - e : Nat) : Int) - 24)) =
          some (2 ^ (150 - e) - 1) := by
        rw [hshift, shr64_eq _ (by omega), mask_eq (by omega)]
      simp only [hpoint, hmask, Option.some_or, Option.bind_eq_bind, Option.bind_some,
        ftoaParts_fixed hm hfixed (by omega), hrun]
    · rw [if_pos hfixed, fixedText, ← List.append_assoc]
      exact hholds
  · obtain ⟨mask, hmask⟩ : ∃ mask,
        (shr64 (2 ^ 64 - 1) (64 - 24 - -((e : Int) - 127 + 1))).or undef = some mask := by
      obtain ⟨junk, rfl⟩ := Option.ne_none_iff_exists'.mp (hdef.resolve_left hfixed)
      exact Option.isSome_iff_exists.mp (by simp)
    refine ⟨ftoaInt mem p (integerPart m e), ?_, ?_⟩
    · simp only [hmask, Option.bind_eq_bind, Option.bind_some,
        ftoaParts_integer hm (by omega : 150 ≤ e), ftoaPoint]
      rfl
    · rw [if_neg hfixed]
      exact h.int (by omega) (integerPart m e)

/-- The NUL at the label `END`. -/
theorem Holds.finish {pre post out mem : List Byte} {size p : Nat} (h : Holds pre post size out mem p)
    (hroom : out.length < size) : Prints pre post size out (some (mem.set p 0, p - pre.length)) := by
  obtain ⟨⟨rest, hmem, hsize⟩, -⟩ := h.put hroom 0
  refine ⟨rest, ?_, by simpa using hsize⟩
  rw [hmem, h.ptr]
  simp

/-- `brubeck_ftoa` leaves its text in the first 14 bytes from its pointer on, and changes no other. -/
theorem ftoaMem_prints (undef : Option Nat) {x : Nat}
    (hdef : Single.exponent x < 150 ∨ undef ≠ none) (pre post : List Byte) {room : List Byte}
    (hroom : room.length = 14) :
    Prints pre post 14 (ftoa x) (ftoaMem undef (pre ++ room ++ post) pre.length x) := by
  have hm : 2 ^ 23 + Single.fraction x < 2 ^ 24 := by
    have := Single.fraction_lt x
    omega
  have hlen := magnitudeText_length_le (Single.exponent x) hm
  have hempty := @Holds.empty pre post room
  rw [hroom] at hempty
  have hsign : Holds pre post 14 (signText (printedSign x))
      (if 2 ^ 31 ≤ x then ((pre ++ room ++ post).set pre.length (ch '-'), pre.length + 1)
        else (pre ++ room ++ post, pre.length)).1
      (if 2 ^ 31 ≤ x then ((pre ++ room ++ post).set pre.length (ch '-'), pre.length + 1)
        else (pre ++ room ++ post, pre.length)).2 := by
    unfold printedSign
    by_cases hneg : Single.Negative x
    · rw [if_pos (show 2 ^ 31 ≤ x from hneg), if_pos hneg]
      exact hempty.put (by simp) (ch '-')
    · rw [if_neg (show ¬ 2 ^ 31 ≤ x from hneg), if_neg hneg]
      exact hempty
  have hsignLen := signText_length_le x
  obtain ⟨r, hrun, hholds⟩ := ftoaBody_holds hm hdef hsign (by omega)
  rw [ftoa_eq]
  simp only [ftoaMem, exponent_eq, mantissa_eq, hrun, Option.bind_eq_bind, Option.bind_some]
  exact hholds.finish (by rw [List.length_append]; omega)

/-! ## Fractions -/

/-- The numeral printed below the exponent field 150. -/
def fixedNumeral (x : Nat) : Mantissa :=
  if Single.exponent x < 91 then ⟨printedSign x, decimal 0, none⟩
  else
    let m := 2 ^ 23 + Single.fraction x
    let s := 150 - Single.exponent x
    ⟨printedSign x, decimal (m / 2 ^ s), keptFrac (fracDigits (2 ^ s) FLOAT_PRECISION (m % 2 ^ s))⟩

theorem fixedNumeral_text {x : Nat} (h : Single.exponent x < 150) : (fixedNumeral x).text = ftoa x := by
  rw [ftoa_eq, fixedNumeral, magnitudeText]
  by_cases htiny : Single.exponent x < 91
  · rw [if_pos htiny, if_pos htiny, Mantissa.text, fracText, List.append_nil]
    rfl
  · rw [if_neg htiny, if_neg htiny, if_pos h, fixedText, Mantissa.text, List.append_assoc]

theorem keptFrac_getD (ds : List (Fin 10)) : (keptFrac ds).getD [] = trimZeros ds := by
  unfold keptFrac
  split
  · rename_i hnil
    rw [hnil]
    rfl
  · rfl

/-- What the digits on the two sides of the point add up to. -/
theorem fixed_value (m s : Nat) :
    (natVal (decimal (m / 2 ^ s)) + natVal (trimZeros (fracDigits (2 ^ s) FLOAT_PRECISION (m % 2 ^ s))) /
      10 ^ (trimZeros (fracDigits (2 ^ s) FLOAT_PRECISION (m % 2 ^ s))).length : ℚ) =
      (m * 10 ^ 4 / 2 ^ s : Nat) / 10 ^ 4 := by
  have hpos : 0 < 2 ^ s := Nat.two_pow_pos s
  have hprec : FLOAT_PRECISION = 4 := rfl
  rw [trimZeros_value, fracDigits_length, natVal_decimal, natVal_fracDigits _ (Nat.mod_lt _ hpos), hprec,
    mul_div_split hpos m, Nat.cast_add, add_div, Nat.cast_mul, Nat.cast_pow, Nat.cast_ofNat,
    mul_div_cancel_right₀ _ (by norm_num : (10 : ℚ) ^ 4 ≠ 0), add_comm]

/-- Below `2 ^ 23` the value is printed up to the fourth digit behind the point: the rest is cut off,
zeros at the end are left out, and so is the point if nothing follows it. The call does nothing
undefined, whatever the machine would make of that. -/
theorem ftoa_truncates (undef : Option Nat) (pre post : List Byte) {room : List Byte}
    (hroom : room.length = 14) {x : UInt32} (hsmall : Single.abs x.toNat < 2 ^ 23) :
    ∃ m : Mantissa, Prints pre post 14 m.text (ftoaMem undef (pre ++ room ++ post) pre.length x.toNat) ∧
      m.text.length ≤ 13 ∧ m.sign = (if Single.Negative x.toNat then some true else none) ∧
      m.whole = decimal ⌊Single.abs x.toNat⌋₊ ∧
      (∀ fs, m.frac = some fs → fs ≠ [] ∧ fs.length ≤ 4 ∧ fs.getLast? ≠ some 0) ∧
      m.abs = ⌊Single.abs x.toNat * 10 ^ 4⌋ / 10 ^ 4 := by
  have hexp := (Single.abs_lt_iff x.toNat).mp hsmall
  have hprints := ftoaMem_prints undef (Or.inl hexp) pre post hroom
  have hlen := ftoa_length_le x.toNat
  rw [← fixedNumeral_text hexp] at hprints hlen
  refine ⟨fixedNumeral x.toNat, hprints, hlen, ?_⟩
  unfold fixedNumeral
  split
  · -- too small for a digit
    rename_i htiny
    have habs := @Single.abs_lt_of_exponent x.toNat 60 (by omega) (by omega) (by omega)
    have hnonneg := Single.abs_nonneg x.toNat
    have hfloor : ⌊Single.abs x.toNat⌋₊ = 0 := Nat.floor_eq_zero.mpr (by norm_num at habs; linarith)
    have hscaled : ⌊Single.abs x.toNat * 10 ^ 4⌋ = 0 :=
      Int.floor_eq_zero_iff.mpr ⟨by positivity, by norm_num at habs ⊢; linarith⟩
    refine ⟨rfl, by rw [hfloor], by simp, ?_⟩
    rw [hscaled]
    simp [Mantissa.abs, natVal_decimal]
  · have hquot := Single.abs_quotient (by omega) hexp
    have hscaled : Single.abs x.toNat * 10 ^ 4 =
        ((2 ^ 23 + Single.fraction x.toNat) * 10 ^ 4 : Nat) /
          (2 ^ (150 - Single.exponent x.toNat) : Nat) := by
      rw [hquot, div_mul_eq_mul_div, Nat.cast_mul, Nat.cast_pow 10, Nat.cast_ofNat]
    refine ⟨rfl, ?_, ?_, ?_⟩
    · rw [hquot, Nat.floor_div_eq_div]
    · intro fs hfs
      simp only [keptFrac] at hfs
      split at hfs
      · cases hfs
      · rename_i hne
        cases hfs
        refine ⟨hne, ?_, trimZeros_getLast _⟩
        exact (trimZeros_length_le _).trans_eq (fracDigits_length ..)
    · rw [hscaled, Rat.floor_natCast_div_natCast]
      simp only [Mantissa.abs, keptFrac_getD]
      exact fixed_value _ _

/-- A tenth, as near as a float gets to it, is a tenth when printed. -/
theorem ftoa_truncates_tenth :
    ∃ m : Mantissa, Prints [] [] 14 m.text (ftoaMem none (List.replicate 14 7) 0 0x3DCCCCCD) ∧
      m.abs = 1 / 10 := by
  have habs : Single.abs (0x3DCCCCCD : UInt32).toNat = 13421773 / 134217728 := by
    show Single.abs 0x3DCCCCCD = _
    norm_num [Single.abs, Single.exponent, Single.fraction]
  have hsmall : Single.abs (0x3DCCCCCD : UInt32).toNat < 2 ^ 23 := by
    rw [habs]
    norm_num
  obtain ⟨m, hprints, -, -, -, -, hvalue⟩ :=
    ftoa_truncates none [] [] (List.length_replicate : (List.replicate 14 (7 : Byte)).length = 14) hsmall
  refine ⟨m, hprints, hvalue.trans ?_⟩
  rw [habs]
  norm_num

/-! ## Integers -/

/-- The number that a text spells. -/
def printedValue (text : List Byte) : ℚ := (scanMantissa text).1.value

theorem integerPart_eq {m e : Nat} (hlow : 2 ^ 23 ≤ m) (hm : m < 2 ^ 24) :
    integerPart m e = min (m * 2 ^ (e - 150)) (2 ^ 64 - 1) := by
  unfold integerPart
  split
  · rename_i hhuge
    have hpow : 2 ^ 41 ≤ 2 ^ (e - 150) := Nat.pow_le_pow_right (by omega) (by omega)
    have hge : 2 ^ 23 * 2 ^ 41 ≤ m * 2 ^ (e - 150) := Nat.mul_le_mul hlow hpow
    rw [Nat.min_eq_right (by omega)]
  · have hlt := integer_lt hm (by omega : e < 191)
    rw [Nat.min_eq_left (by omega)]

theorem ftoa_of_large {x : Nat} (h : 2 ^ 23 ≤ Single.abs x) :
    ftoa x = signText (printedSign x) ++
      digitText (decimal (min ⌊Single.abs x⌋₊ (2 ^ 64 - 1) % 2 ^ 32)) := by
  have hexp : 150 ≤ Single.exponent x := by
    have hnot := (Single.abs_lt_iff x).not.mp (not_lt.mpr h)
    omega
  have hfrac := Single.fraction_lt x
  rw [ftoa_eq, magnitudeText, if_neg (by omega), if_neg (by omega), integerPart_eq (by omega) (by omega),
    Single.abs_integer hexp, Nat.floor_natCast]

theorem printedValue_ftoa {x : Nat} (h : 2 ^ 23 ≤ Single.abs x) (hlt : Single.abs x < 2 ^ 32) :
    printedValue (ftoa x) = Single.value x := by
  have hexp : 150 ≤ Single.exponent x := by
    have hnot := (Single.abs_lt_iff x).not.mp (not_lt.mpr h)
    omega
  have habs := Single.abs_integer hexp
  generalize (2 ^ 23 + Single.fraction x) * 2 ^ (Single.exponent x - 150) = n at habs
  have hn : n < 2 ^ 32 := by
    rw [habs] at hlt
    exact_mod_cast hlt
  have htext : ftoa x = (Mantissa.mk (printedSign x) (decimal n) none).text ++ [] := by
    rw [ftoa_of_large h, habs, Nat.floor_natCast, Nat.min_eq_left (by omega), Nat.mod_eq_of_lt hn]
    simp [Mantissa.text, fracText]
  have hscan := @scanMantissa_text ⟨printedSign x, decimal n, none⟩ []
    ⟨by decide, fun _ => by decide, fun _ _ _ => by decide⟩
  rw [printedValue, htext, hscan, Single.value, Mantissa.value, Mantissa.negative, Mantissa.abs, printedSign,
    habs]
  by_cases hneg : Single.Negative x
  · simp [hneg, natVal_decimal]
  · simp [hneg, natVal_decimal]

/-- From `2 ^ 23` on every float is an integer. It is printed, up to the largest `uint64_t`, exactly
when it is below `2 ^ 32`: `brubeck_itoa` gets no more than 32 bits of it. There the printed values are
in the order of the floats. -/
theorem ftoa_integer_iff (junk : Nat) (pre post : List Byte) {room : List Byte}
    (hroom : room.length = 14) :
    (∀ x : UInt32, Single.Finite x.toNat → 2 ^ 23 ≤ Single.abs x.toNat →
      Prints pre post 14 (ftoa x.toNat)
          (ftoaMem (some junk) (pre ++ room ++ post) pre.length x.toNat) ∧
        (ftoa x.toNat = signText (if Single.Negative x.toNat then some true else none) ++
            digitText (decimal (min ⌊Single.abs x.toNat⌋₊ (2 ^ 64 - 1))) ↔
          Single.abs x.toNat < 2 ^ 32)) ∧
      ∀ x y : UInt32, 2 ^ 23 ≤ Single.abs x.toNat → Single.abs x.toNat < 2 ^ 32 →
        2 ^ 23 ≤ Single.abs y.toNat → Single.abs y.toNat < 2 ^ 32 →
        Single.value x.toNat ≤ Single.value y.toNat →
        printedValue (ftoa x.toNat) ≤ printedValue (ftoa y.toNat) := by
  constructor
  · intro x _ hlarge
    refine ⟨ftoaMem_prints (some junk) (Or.inr (by simp)) pre post hroom, ?_⟩
    have hlt : Single.abs x.toNat < 2 ^ 32 ↔ ⌊Single.abs x.toNat⌋₊ < 2 ^ 32 := by
      rw [Nat.floor_lt (Single.abs_nonneg _)]
      norm_num
    rw [ftoa_of_large hlarge, hlt, printedSign]
    generalize ⌊Single.abs x.toNat⌋₊ = n
    constructor
    · intro htext
      have hn := decimal_injective (digitText_injective (List.append_cancel_left htext))
      omega
    · intro hn
      rw [Nat.mod_eq_of_lt (by omega)]
  · intro x y hx hxlt hy hylt hle
    rw [printedValue_ftoa hx hxlt, printedValue_ftoa hy hylt]
    exact hle

/-- The pattern of `2 ^ 31` is printed. -/
theorem ftoa_integer_iff_half :
    Prints [] [] 14 (ftoa 0x4F000000) (ftoaMem (some 0) (List.replicate 14 7) 0 0x4F000000) ∧
      ftoa 0x4F000000 = digitText (decimal (2 ^ 31)) := by
  have habs : Single.abs (0x4F000000 : UInt32).toNat = (2 ^ 31 : Nat) := by
    show Single.abs 0x4F000000 = _
    norm_num [Single.abs, Single.exponent, Single.fraction]
  have hroom : (List.replicate 14 (7 : Byte)).length = 14 := List.length_replicate
  obtain ⟨hprints, htext⟩ := (ftoa_integer_iff 0 [] [] hroom).1 0x4F000000 (by decide)
    (by rw [habs]; norm_num)
  refine ⟨hprints, (htext.mpr (by rw [habs]; norm_num)).trans ?_⟩
  rw [habs, Nat.floor_natCast]
  rfl

/-- The pattern of `2 ^ 32` is printed as a zero, and the one before it as `4294967040`. -/
theorem ftoa_wraps :
    Single.Finite (0x4F800000 : UInt32).toNat ∧ Single.abs (0x4F800000 : UInt32).toNat = 2 ^ 32 ∧
      ftoa (0x4F800000 : UInt32).toNat = [ch '0'] ∧ [ch '0'] ≠ digitText (decimal (2 ^ 32)) ∧
      Single.value (0x4F7FFFFF : UInt32).toNat = 4294967040 ∧
      printedValue (ftoa (0x4F7FFFFF : UInt32).toNat) = 4294967040 ∧
      printedValue (ftoa (0x4F800000 : UInt32).toNat) = 0 := by
  have habs : Single.abs (0x4F800000 : UInt32).toNat = 2 ^ 32 := by
    show Single.abs 0x4F800000 = _
    norm_num [Single.abs, Single.exponent, Single.fraction]
  have hbelow : Single.abs (0x4F7FFFFF : UInt32).toNat = 4294967040 := by
    show Single.abs 0x4F7FFFFF = _
    norm_num [Single.abs, Single.exponent, Single.fraction]
  have hvalue : Single.value (0x4F7FFFFF : UInt32).toNat = 4294967040 := by
    rw [Single.value, if_neg (by decide), hbelow]
  have htext : ftoa (0x4F800000 : UInt32).toNat = [ch '0'] := by decide +kernel
  refine ⟨by decide, habs, htext, ?_, hvalue, ?_, ?_⟩
  · intro heq
    have hzero : decimal 0 = decimal (2 ^ 32) := digitText_injective heq
    have := decimal_injective hzero
    omega
  · rw [printedValue_ftoa (by rw [hbelow]; norm_num) (by rw [hbelow]; norm_num), hvalue]
  · rw [htext]
    decide +kernel

end Brubeck
