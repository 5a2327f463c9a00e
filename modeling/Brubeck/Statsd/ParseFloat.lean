import Brubeck.Basic
import Brubeck.Lib.Numeral
import Mathlib.Tactic.Ring

/-!
# Brubeck.Statsd.ParseFloat

`parse_float` of `samplers/statsd.c`, on the bytes from its pointer on, with exact arithmetic.

The function has two paths: its own digit loops, and a restart with `strtod` from where it began
when it meets an exponent mark. `parseFloat_eq` says what both compute from the longest mantissa.
`parseFloat_text` and `parseFloat_sound` are the two directions the line grammar needs: a numeral
before a byte that ends it is read with its exact value, and whenever the function stops at such
a byte it has read a numeral.
-/

namespace Brubeck
namespace Statsd

open Lib

/-- `while (*buffer >= '0' && *buffer <= '9') value = (value * 10.0) + (*buffer - '0')`. -/
def digitLoop (value : ℚ) : List Byte → ℚ × List Byte
  | [] => (value, [])
  | b :: bs =>
    if isDigit b then digitLoop (value * 10 + (b.toNat - 48 : Nat)) bs else (value, b :: bs)

/-- The loop after the dot; `n` counts its digits. -/
def fracLoop (f : ℚ) (n : Nat) : List Byte → ℚ × Nat × List Byte
  | [] => (f, n, [])
  | b :: bs =>
    if isDigit b then fracLoop (f * 10 + (b.toNat - 48 : Nat)) (n + 1) bs else (f, n, b :: bs)

def parseFloat (buffer : List Byte) (mods : UInt8) : ℚ × UInt8 × List Byte :=
  let start := buffer
  let (negative, mods, buffer) :=
    if cur buffer = ch '-' then (true, mods ||| MOD_RELATIVE_VALUE, buffer.tail)
    else if cur buffer = ch '+' then (false, mods ||| MOD_RELATIVE_VALUE, buffer.tail)
    else (false, mods, buffer)
  let (value, buffer) := digitLoop 0 buffer
  let (value, buffer) :=
    if cur buffer = ch '.' then
      let (f, n, buffer) := fracLoop 0 0 buffer.tail
      (value + f / 10 ^ n, buffer)
    else (value, buffer)
  let value := if negative then -value else value
  if isExpMark (cur buffer) then
    let (value, buffer) := strtod start
    (value, mods, buffer)
  else (value, mods, buffer)

/-! ## The loops -/

theorem digitOf_val {b : Byte} (h : isDigit b = true) : (digitOf b).val = b.toNat - 48 := by
  simp only [isDigit, decide_eq_true_eq] at h
  rw [digitOf, Fin.val_ofNat, Nat.mod_eq_of_lt (by omega)]

theorem digitLoop_eq (v : Nat) (l : List Byte) :
    digitLoop v l =
      (Nat.cast ((spanDigits l).1.foldl (fun v d => v * 10 + d.val) v), (spanDigits l).2) := by
  induction l generalizing v with
  | nil => rfl
  | cons b bs ih =>
    by_cases hb : isDigit b = true
    · have := ih (v * 10 + (b.toNat - 48))
      push_cast at this
      simp only [digitLoop, spanDigits, hb, if_true, List.foldl_cons, digitOf_val hb, this]
    · rw [Bool.not_eq_true] at hb
      simp [digitLoop, spanDigits, hb]

theorem fracLoop_eq (f : ℚ) (n : Nat) (l : List Byte) :
    fracLoop f n l =
      ((digitLoop f l).1, n + (spanDigits l).1.length, (spanDigits l).2) := by
  induction l generalizing f n with
  | nil => rfl
  | cons b bs ih =>
    by_cases hb : isDigit b = true
    · simp only [fracLoop, digitLoop, spanDigits, hb, if_true, ih, List.length_cons]
      congr 2
      omega
    · rw [Bool.not_eq_true] at hb
      simp [fracLoop, digitLoop, spanDigits, hb]

theorem digitLoop_zero (l : List Byte) :
    digitLoop 0 l = ((natVal (spanDigits l).1 : ℚ), (spanDigits l).2) := by
  simpa [natVal] using digitLoop_eq 0 l

theorem fracLoop_zero (l : List Byte) :
    fracLoop 0 0 l =
      ((natVal (spanDigits l).1 : ℚ), (spanDigits l).1.length, (spanDigits l).2) := by
  rw [fracLoop_eq, digitLoop_zero, Nat.zero_add]

def signMods (sign : Option Bool) (mods : UInt8) : UInt8 :=
  if sign.isSome then mods ||| MOD_RELATIVE_VALUE else mods

/-- Both paths in terms of the longest mantissa at the front. -/
theorem parseFloat_eq {l rest : List Byte} {m : Mantissa} (hm : scanMantissa l = (m, rest))
    (mods : UInt8) :
    parseFloat l mods =
      if isExpMark (cur rest) then ((strtod l).1, signMods m.sign mods, (strtod l).2)
      else (m.value, signMods m.sign mods, rest) := by
  have hsign : (if cur l = ch '-' then (true, mods ||| MOD_RELATIVE_VALUE, l.tail)
      else if cur l = ch '+' then (false, mods ||| MOD_RELATIVE_VALUE, l.tail)
      else (false, mods, l)) =
      (decide ((scanSign l).1 = some true), signMods (scanSign l).1 mods, (scanSign l).2) := by
    by_cases h1 : cur l = ch '-'
    · simp [scanSign, h1, signMods]
    · by_cases h2 : cur l = ch '+'
      · simp [scanSign, h2, signMods, show ch '+' ≠ ch '-' by decide]
      · simp [scanSign, h1, h2, signMods]
  simp only [scanMantissa, Prod.mk.injEq] at hm
  obtain ⟨rfl, hrest⟩ := hm
  have hfrac : ∀ v : ℚ, (if cur (spanDigits (scanSign l).2).2 = ch '.' then
      (v + (fracLoop 0 0 (spanDigits (scanSign l).2).2.tail).1 /
          10 ^ (fracLoop 0 0 (spanDigits (scanSign l).2).2.tail).2.1,
        (fracLoop 0 0 (spanDigits (scanSign l).2).2.tail).2.2)
      else (v, (spanDigits (scanSign l).2).2)) =
      (v + natVal ((scanFrac (spanDigits (scanSign l).2).2).1.getD []) /
          10 ^ ((scanFrac (spanDigits (scanSign l).2).2).1.getD []).length, rest) := by
    intro v
    by_cases hd : cur (spanDigits (scanSign l).2).2 = ch '.'
    · simp only [scanFrac, hd, if_true] at hrest ⊢
      simp only [fracLoop_zero, hrest, Option.getD_some]
    · simp only [scanFrac, hd, if_false] at hrest ⊢
      simp [hrest, natVal]
  simp only [parseFloat, hsign, digitLoop_zero, hfrac]
  by_cases he : isExpMark (cur rest) = true
  · simp [he]
  · simp [he, Mantissa.value, Mantissa.abs, Mantissa.negative]

/-! ## Numerals -/

/-- A numeral before a byte that ends it is read whole, with its exact value. -/
theorem parseFloat_text (n : Numeral) {rest : List Byte} (h : EndsNumeral (cur rest))
    (mods : UInt8) :
    parseFloat (n.text ++ rest) mods = (n.value, signMods n.mantissa.sign mods, rest) := by
  obtain ⟨m, exp, hdigit⟩ := n
  cases exp with
  | none =>
    have hm : scanMantissa (m.text ++ rest) = (m, rest) := scanMantissa_text m (h.stops m)
    simp only [Numeral.text, Option.map_none, Option.getD_none, List.append_nil]
    rw [parseFloat_eq hm, h.exp]
    simp [Numeral.value]
  | some e =>
    have hcur : isExpMark (cur (e.text ++ rest)) = true := isExpMark_mark e
    have hm : scanMantissa (m.text ++ (e.text ++ rest)) = (m, e.text ++ rest) :=
      scanMantissa_text m (stops_of_expMark hcur m)
    simp only [Numeral.text, Option.map_some, Option.getD_some, List.append_assoc]
    rw [parseFloat_eq hm, if_pos hcur, strtod_eq hm hcur, scanExponent_text e h.digit,
      if_pos (hdigit rfl)]
    rfl

/-- When `parse_float` stops at a byte that ends numerals, what it took is a numeral. -/
theorem parseFloat_sound {l rest : List Byte} {mods mods' : UInt8} {v : ℚ}
    (hp : parseFloat l mods = (v, mods', rest)) (h : EndsNumeral (cur rest)) :
    ∃ n : Numeral, l = n.text ++ rest ∧ v = n.value ∧ mods' = signMods n.mantissa.sign mods := by
  obtain ⟨hl, -⟩ := scanMantissa_spec l
  generalize hm : scanMantissa l = p at hl
  obtain ⟨m, r⟩ := p
  rw [parseFloat_eq hm] at hp
  by_cases he : isExpMark (cur r) = true
  · rw [if_pos he, strtod_eq hm he] at hp
    by_cases hd : m.hasDigit = true
    · rw [if_pos hd] at hp
      cases hs : scanExponent r with
      | none =>
        -- no exponent after the mark: the parser stops at the mark itself
        rw [hs] at hp
        simp only [Prod.mk.injEq] at hp
        obtain ⟨-, -, rfl⟩ := hp
        rw [h.exp] at he
        cases he
      | some p =>
        obtain ⟨ev, r'⟩ := p
        rw [hs] at hp
        simp only [Prod.mk.injEq] at hp
        obtain ⟨rfl, rfl, rfl⟩ := hp
        obtain ⟨e, hr, rfl, -⟩ := scanExponent_spec hs
        refine ⟨⟨m, some e, fun _ => hd⟩, ?_, rfl, rfl⟩
        rw [hl, hr]
        simp [Numeral.text]
    · -- no digit in the mantissa: `strtod` hands back the start of the subject
      rw [if_neg hd] at hp
      simp only [Prod.mk.injEq] at hp
      obtain ⟨-, -, rfl⟩ := hp
      exfalso
      rw [hl] at h
      rcases cur_mantissa (m := m) he with ⟨neg, hc⟩ | hc | hc | hc
      · cases neg
        · exact h.plus hc
        · exact h.minus hc
      · rw [h.digit] at hc; cases hc
      · exact h.dot hc
      · rw [h.exp] at hc; cases hc
  · rw [if_neg he] at hp
    simp only [Prod.mk.injEq] at hp
    obtain ⟨rfl, rfl, rfl⟩ := hp
    exact ⟨⟨m, none, fun hx => by cases hx⟩, by simpa [Numeral.text] using hl,
      by simp [Numeral.value], rfl⟩

end Statsd
end Brubeck
