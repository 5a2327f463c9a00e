import Brubeck.Lib.Bytes
import Mathlib.Data.Rat.Defs
import Mathlib.Algebra.Order.Field.Rat
import Mathlib.Tactic.FieldSimp
import Mathlib.Tactic.Linarith

/-!
# Lib.Numeral

Decimal floating-point numerals over bytes, with exact rational values.

* `Mantissa`: `sign? digit* ('.' digit*)?`. `scanMantissa` takes the longest one off the front of
  a string (`scanMantissa_text`, `scanMantissa_spec`).
* `Numeral`: a mantissa and an optional exponent. A value of the type is well formed: an exponent
  has a digit, and needs a digit in the mantissa. `Numeral.value` is its exact value.
* `strtod`: the C library function on decimal subjects. `strtod_eq` says what
  it makes of a mantissa with an exponent mark behind it.
-/

namespace Lib

/-! ## Digits -/

/-- For the literals of `Fin 10`. -/
instance neZero_ten : NeZero 10 := ⟨by decide⟩

def isDigit (b : Byte) : Bool := decide (48 ≤ b.toNat ∧ b.toNat ≤ 57)

def digitByte (d : Fin 10) : Byte := UInt8.ofNat (48 + d.val)

def digitOf (b : Byte) : Fin 10 := Fin.ofNat 10 (b.toNat - 48)

def digitText (ds : List (Fin 10)) : List Byte := ds.map digitByte

/-- The first byte of a string, NUL at its end. -/
def cur : List Byte → Byte
  | [] => 0
  | b :: _ => b

@[simp] theorem cur_cons (b : Byte) (bs : List Byte) : cur (b :: bs) = b := rfl

@[simp] theorem cur_nil : cur [] = 0 := rfl

@[simp] theorem digitText_nil : digitText [] = [] := rfl

@[simp] theorem digitText_cons (d : Fin 10) (ds : List (Fin 10)) :
    digitText (d :: ds) = digitByte d :: digitText ds := rfl

theorem digitByte_toNat (d : Fin 10) : (digitByte d).toNat = 48 + d.val := by
  have := d.isLt
  rw [digitByte, UInt8.toNat_ofNat_of_lt' (by show _ < 2 ^ 8; omega)]

@[simp] theorem isDigit_digitByte (d : Fin 10) : isDigit (digitByte d) = true := by
  have := d.isLt
  simp only [isDigit, digitByte_toNat, decide_eq_true_eq]
  omega

theorem digitByte_digitOf {b : Byte} (h : isDigit b = true) : digitByte (digitOf b) = b := by
  simp only [isDigit, decide_eq_true_eq] at h
  apply UInt8.toNat_inj.mp
  rw [digitByte_toNat, digitOf, Fin.val_ofNat, Nat.mod_eq_of_lt (by omega)]
  omega

theorem digitOf_digitByte (d : Fin 10) : digitOf (digitByte d) = d := by
  have := d.isLt
  apply Fin.ext
  rw [digitOf, digitByte_toNat, Fin.val_ofNat, Nat.mod_eq_of_lt (by omega)]
  omega

/-- The number a run of digits spells. -/
def natVal (ds : List (Fin 10)) : Nat := ds.foldl (fun v d => v * 10 + d.val) 0

/-- The longest run of digits at the front, and what follows it. -/
def spanDigits : List Byte → List (Fin 10) × List Byte
  | [] => ([], [])
  | b :: bs =>
    if isDigit b then
      let r := spanDigits bs
      (digitOf b :: r.1, r.2)
    else ([], b :: bs)

theorem spanDigits_text (ds : List (Fin 10)) {rest : List Byte} (h : isDigit (cur rest) = false) :
    spanDigits (digitText ds ++ rest) = (ds, rest) := by
  induction ds with
  | nil =>
    cases rest with
    | nil => rfl
    | cons b bs => simp only [cur_cons] at h; simp [spanDigits, h]
  | cons d ds ih =>
    simp only [digitText_cons, List.cons_append, spanDigits, isDigit_digitByte, if_true, ih,
      digitOf_digitByte]

theorem spanDigits_spec (l : List Byte) :
    l = digitText (spanDigits l).1 ++ (spanDigits l).2 ∧
      isDigit (cur (spanDigits l).2) = false := by
  induction l with
  | nil => exact ⟨rfl, by decide⟩
  | cons b bs ih =>
    by_cases hb : isDigit b = true
    · simp only [spanDigits, hb, if_true, digitText_cons, digitByte_digitOf hb, List.cons_append]
      exact ⟨by rw [← ih.1], ih.2⟩
    · rw [Bool.not_eq_true] at hb
      simp [spanDigits, hb]

/-! ## Mantissas -/

def signByte (neg : Bool) : Byte := if neg then ch '-' else ch '+'

def signText : Option Bool → List Byte
  | none => []
  | some neg => [signByte neg]

/-- An optional sign at the front. `some true` is a minus. -/
def scanSign (l : List Byte) : Option Bool × List Byte :=
  if cur l = ch '-' then (some true, l.tail)
  else if cur l = ch '+' then (some false, l.tail)
  else (none, l)

def fracText : Option (List (Fin 10)) → List Byte
  | none => []
  | some ds => ch '.' :: digitText ds

/-- An optional `'.' digit*` at the front. -/
def scanFrac (l : List Byte) : Option (List (Fin 10)) × List Byte :=
  if cur l = ch '.' then (some (spanDigits l.tail).1, (spanDigits l.tail).2) else (none, l)

structure Mantissa where
  sign : Option Bool
  whole : List (Fin 10)
  frac : Option (List (Fin 10))
  deriving DecidableEq

namespace Mantissa

def text (m : Mantissa) : List Byte := signText m.sign ++ digitText m.whole ++ fracText m.frac

def negative (m : Mantissa) : Bool := m.sign = some true

def hasDigit (m : Mantissa) : Bool := m.whole ≠ [] ∨ m.frac.getD [] ≠ []

def abs (m : Mantissa) : ℚ :=
  natVal m.whole + natVal (m.frac.getD []) / 10 ^ (m.frac.getD []).length

def value (m : Mantissa) : ℚ := if m.negative then -m.abs else m.abs

/-- `rest` cannot be read as more of `m`. -/
structure Stops (m : Mantissa) (rest : List Byte) : Prop where
  digit : isDigit (cur rest) = false
  dot : m.frac = none → cur rest ≠ ch '.'
  sign : m.sign = none → m.whole = [] → m.frac = none → cur rest ≠ ch '-' ∧ cur rest ≠ ch '+'

end Mantissa

def scanMantissa (l : List Byte) : Mantissa × List Byte :=
  let (sign, l) := scanSign l
  let (whole, l) := spanDigits l
  let (frac, l) := scanFrac l
  (⟨sign, whole, frac⟩, l)

theorem scanSign_text (sign : Option Bool) {rest : List Byte}
    (h : sign = none → cur rest ≠ ch '-' ∧ cur rest ≠ ch '+') :
    scanSign (signText sign ++ rest) = (sign, rest) := by
  rcases sign with _ | _ | _
  · obtain ⟨h1, h2⟩ := h rfl
    simp [scanSign, signText, h1, h2]
  · simp [scanSign, signText, signByte, show ch '+' ≠ ch '-' by decide]
  · simp [scanSign, signText, signByte]

theorem scanSign_spec (l : List Byte) :
    l = signText (scanSign l).1 ++ (scanSign l).2 ∧
      ((scanSign l).1 = none → cur (scanSign l).2 ≠ ch '-' ∧ cur (scanSign l).2 ≠ ch '+') := by
  cases l with
  | nil => exact ⟨rfl, fun _ => by decide⟩
  | cons b bs =>
    by_cases h1 : b = ch '-'
    · simp [scanSign, h1, signText, signByte]
    · by_cases h2 : b = ch '+'
      · simp [scanSign, h2, signText, signByte, show ch '+' ≠ ch '-' by decide]
      · simp [scanSign, h1, h2, signText]

theorem scanFrac_text (frac : Option (List (Fin 10))) {rest : List Byte}
    (hd : isDigit (cur rest) = false) (h : frac = none → cur rest ≠ ch '.') :
    scanFrac (fracText frac ++ rest) = (frac, rest) := by
  cases frac with
  | none => simp [scanFrac, fracText, h rfl]
  | some ds => simp [scanFrac, fracText, spanDigits_text ds hd]

theorem scanFrac_spec (l : List Byte) (hl : isDigit (cur l) = false) :
    l = fracText (scanFrac l).1 ++ (scanFrac l).2 ∧
      isDigit (cur (scanFrac l).2) = false ∧
      ((scanFrac l).1 = none → cur (scanFrac l).2 ≠ ch '.') := by
  cases l with
  | nil => exact ⟨rfl, by decide, fun _ => by decide⟩
  | cons b bs =>
    by_cases hb : b = ch '.'
    · obtain ⟨h1, h2⟩ := spanDigits_spec bs
      simp only [scanFrac, cur_cons, hb, if_true, List.tail_cons]
      exact ⟨by simp only [fracText, List.cons_append, ← h1], h2, fun h => by cases h⟩
    · simp only [scanFrac, cur_cons, hb, if_false]
      exact ⟨rfl, hl, fun _ => hb⟩

theorem cur_fracText (frac : Option (List (Fin 10))) {rest : List Byte}
    (h : isDigit (cur rest) = false) : isDigit (cur (fracText frac ++ rest)) = false := by
  cases frac with
  | none => exact h
  | some ds => show isDigit (ch '.') = false; decide

theorem scanMantissa_text (m : Mantissa) {rest : List Byte} (h : m.Stops rest) :
    scanMantissa (m.text ++ rest) = (m, rest) := by
  obtain ⟨sign, whole, frac⟩ := m
  have hs : sign = none → cur (digitText whole ++ (fracText frac ++ rest)) ≠ ch '-' ∧
      cur (digitText whole ++ (fracText frac ++ rest)) ≠ ch '+' := by
    intro hn
    rcases whole with _ | ⟨d, ds⟩
    · rcases frac with _ | ds
      · exact h.sign hn rfl rfl
      · show ch '.' ≠ ch '-' ∧ ch '.' ≠ ch '+'; decide
    · have := isDigit_digitByte d
      constructor <;> (intro he; simp only [digitText_cons, List.cons_append, cur_cons] at he
                       rw [he] at this; revert this; decide)
  simp only [Mantissa.text, List.append_assoc, scanMantissa, scanSign_text sign hs,
    spanDigits_text whole (cur_fracText frac h.digit), scanFrac_text frac h.digit h.dot]

theorem scanMantissa_spec (l : List Byte) :
    l = (scanMantissa l).1.text ++ (scanMantissa l).2 ∧
      (scanMantissa l).1.Stops (scanMantissa l).2 := by
  obtain ⟨h1, h2⟩ := scanSign_spec l
  obtain ⟨h3, h4⟩ := spanDigits_spec (scanSign l).2
  obtain ⟨h5, h6, h7⟩ := scanFrac_spec (spanDigits (scanSign l).2).2 h4
  refine ⟨?_, h6, h7, ?_⟩
  · simp only [scanMantissa, Mantissa.text, List.append_assoc]
    rw [← h5, ← h3, ← h1]
  · intro hs hw hf
    simp only [scanMantissa] at hs hw hf ⊢
    have := h2 hs
    rw [h3, hw, h5, hf] at this
    simpa [fracText] using this

/-! ## Numerals and `strtod` -/

structure Exponent where
  upper : Bool
  sign : Option Bool
  digits : List (Fin 10)
  digits_ne : digits ≠ []

namespace Exponent

def mark (e : Exponent) : Byte := if e.upper then ch 'E' else ch 'e'

def text (e : Exponent) : List Byte := e.mark :: (signText e.sign ++ digitText e.digits)

def value (e : Exponent) : Int :=
  if e.sign = some true then -(natVal e.digits : Int) else natVal e.digits

end Exponent

structure Numeral where
  mantissa : Mantissa
  exp : Option Exponent
  mantissa_digit : exp.isSome = true → mantissa.hasDigit = true

namespace Numeral

def text (n : Numeral) : List Byte := n.mantissa.text ++ (n.exp.map Exponent.text).getD []

def value (n : Numeral) : ℚ := n.mantissa.value * 10 ^ (n.exp.map Exponent.value).getD 0

def signed (n : Numeral) : Bool := n.mantissa.sign.isSome

end Numeral

def isExpMark (b : Byte) : Bool := b = ch 'e' ∨ b = ch 'E'

def scanExponent (l : List Byte) : Option (Int × List Byte) :=
  if isExpMark (cur l) then
    let (sign, l) := scanSign l.tail
    let (ds, l) := spanDigits l
    if ds = [] then none
    else some (if sign = some true then -(natVal ds : Int) else natVal ds, l)
  else none

def isSpace (b : Byte) : Bool := b.toNat = 32 ∨ (9 ≤ b.toNat ∧ b.toNat ≤ 13)

/-- `strtod` on a decimal subject: the value of the longest numeral after white space, and the
string from its end. Without a digit in the mantissa nothing is taken. Hexadecimal numerals,
infinities and NaNs are not covered. -/
def strtod (l : List Byte) : ℚ × List Byte :=
  let (m, rest) := scanMantissa (l.dropWhile isSpace)
  if m.hasDigit then
    match scanExponent rest with
    | none => (m.value, rest)
    | some (e, rest) => (m.value * 10 ^ e, rest)
  else (0, l)

theorem isExpMark_mark (e : Exponent) : isExpMark e.mark = true := by
  unfold Exponent.mark; split <;> decide

theorem isExpMark_iff {b : Byte} : isExpMark b = true ↔ b = ch 'e' ∨ b = ch 'E' := by
  simp [isExpMark]

theorem scanExponent_text (e : Exponent) {rest : List Byte} (h : isDigit (cur rest) = false) :
    scanExponent (e.text ++ rest) = some (e.value, rest) := by
  have hs : e.sign = none → cur (digitText e.digits ++ rest) ≠ ch '-' ∧
      cur (digitText e.digits ++ rest) ≠ ch '+' := by
    intro _
    obtain ⟨d, ds, hd⟩ := List.exists_cons_of_ne_nil e.digits_ne
    have := isDigit_digitByte d
    rw [hd, digitText_cons, List.cons_append, cur_cons]
    constructor <;> (intro he; rw [he] at this; revert this; decide)
  simp only [scanExponent, Exponent.text, List.cons_append, cur_cons, isExpMark_mark, if_true,
    List.tail_cons, List.append_assoc, scanSign_text e.sign hs, spanDigits_text e.digits h,
    if_neg e.digits_ne, Exponent.value]

theorem scanExponent_spec {l rest : List Byte} {v : Int} (h : scanExponent l = some (v, rest)) :
    ∃ e : Exponent, l = e.text ++ rest ∧ v = e.value ∧ isDigit (cur rest) = false := by
  cases l with
  | nil => simp [scanExponent, isExpMark, show ¬ (0 : Byte) = ch 'e' by decide,
      show ¬ (0 : Byte) = ch 'E' by decide] at h
  | cons b bs =>
    by_cases hb : isExpMark b = true
    · by_cases hne : (spanDigits (scanSign bs).2).1 = []
      · simp [scanExponent, hb, hne] at h
      · simp only [scanExponent, cur_cons, hb, if_true, List.tail_cons, hne, if_false,
          Option.some.injEq, Prod.mk.injEq] at h
        obtain ⟨h1, -⟩ := scanSign_spec bs
        obtain ⟨h2, h3⟩ := spanDigits_spec (scanSign bs).2
        obtain ⟨hv, rfl⟩ := h
        refine ⟨⟨decide (b = ch 'E'), (scanSign bs).1, _, hne⟩, ?_, hv.symm, h3⟩
        have hmark : b = if decide (b = ch 'E') = true then ch 'E' else ch 'e' := by
          rcases isExpMark_iff.mp hb with rfl | rfl <;> decide
        simp only [Exponent.text, Exponent.mark, List.cons_append, List.append_assoc]
        rw [← hmark, ← h2, ← h1]
    · simp [scanExponent, hb] at h

/-- A byte that ends every numeral before it. -/
structure EndsNumeral (b : Byte) : Prop where
  digit : isDigit b = false
  dot : b ≠ ch '.'
  minus : b ≠ ch '-'
  plus : b ≠ ch '+'
  exp : isExpMark b = false

theorem EndsNumeral.stops {rest : List Byte} (h : EndsNumeral (cur rest)) (m : Mantissa) :
    m.Stops rest := ⟨h.digit, fun _ => h.dot, fun _ _ _ => ⟨h.minus, h.plus⟩⟩

theorem stops_of_expMark {rest : List Byte} (h : isExpMark (cur rest) = true) (m : Mantissa) :
    m.Stops rest := by
  rcases isExpMark_iff.mp h with h | h <;> constructor <;> rw [h] <;> intros <;> decide

/-- A mantissa before an exponent mark, and so the whole subject, starts with a sign, a digit, a
dot or that mark. -/
theorem cur_mantissa {m : Mantissa} {rest : List Byte} (h : isExpMark (cur rest) = true) :
    (∃ neg, cur (m.text ++ rest) = signByte neg) ∨
      isDigit (cur (m.text ++ rest)) = true ∨ cur (m.text ++ rest) = ch '.' ∨
      isExpMark (cur (m.text ++ rest)) = true := by
  obtain ⟨sign, whole, frac⟩ := m
  rcases sign with _ | neg
  · rcases whole with _ | ⟨d, ds⟩
    · rcases frac with _ | fs
      · exact .inr (.inr (.inr h))
      · exact .inr (.inr (.inl rfl))
    · exact .inr (.inl (isDigit_digitByte d))
  · exact .inl ⟨neg, rfl⟩

theorem isSpace_of_expMark {m : Mantissa} {rest : List Byte} (h : isExpMark (cur rest) = true) :
    isSpace (cur (m.text ++ rest)) = false := by
  rcases cur_mantissa (m := m) h with ⟨neg, hc⟩ | hc | hc | hc
  · rw [hc]; cases neg <;> decide
  · simp only [isDigit, decide_eq_true_eq] at hc
    simp only [isSpace, decide_eq_false_iff_not]
    omega
  · rw [hc]; decide
  · rcases isExpMark_iff.mp hc with hc | hc <;> rw [hc] <;> decide

theorem dropWhile_isSpace {l : List Byte} (h : isSpace (cur l) = false) :
    l.dropWhile isSpace = l := by
  cases l with
  | nil => rfl
  | cons b bs => simp only [cur_cons] at h; simp [h]

/-- `strtod` on a subject whose mantissa is followed by an exponent mark. -/
theorem strtod_eq {l : List Byte} {m : Mantissa} {rest : List Byte}
    (hm : scanMantissa l = (m, rest)) (h : isExpMark (cur rest) = true) :
    strtod l =
      if m.hasDigit then
        match scanExponent rest with
        | none => (m.value, rest)
        | some (e, rest) => (m.value * 10 ^ e, rest)
      else (0, l) := by
  have hl := (scanMantissa_spec l).1
  rw [hm] at hl
  have hsp : isSpace (cur l) = false := by rw [hl]; exact isSpace_of_expMark h
  simp only [strtod, dropWhile_isSpace hsp, hm]

/-! ## Numerals as C strings -/

theorem digitText_nul (ds : List (Fin 10)) : 0 ∉ digitText ds := by
  intro h
  obtain ⟨d, -, hd⟩ := List.mem_map.mp h
  have := digitByte_toNat d
  rw [hd] at this
  have h0 : (0 : Byte).toNat = 0 := rfl
  omega

theorem signText_nul (sign : Option Bool) : 0 ∉ signText sign := by
  rcases sign with _ | _ | _ <;> decide

theorem fracText_nul (frac : Option (List (Fin 10))) : 0 ∉ fracText frac := by
  cases frac with
  | none => simp [fracText]
  | some ds => simp [fracText, digitText_nul, show ¬ (0 : Byte) = ch '.' by decide]

theorem Exponent.text_nul (e : Exponent) : 0 ∉ e.text := by
  have hmark : ¬ (0 : Byte) = e.mark := by unfold Exponent.mark; split <;> decide
  simp [Exponent.text, hmark, signText_nul, digitText_nul]

theorem Numeral.text_nul (n : Numeral) : 0 ∉ n.text := by
  obtain ⟨m, exp, -⟩ := n
  have hm : 0 ∉ m.text := by simp [Mantissa.text, signText_nul, digitText_nul, fracText_nul]
  cases exp with
  | none => simpa [Numeral.text] using hm
  | some e => simp [Numeral.text, hm, e.text_nul]

end Lib
