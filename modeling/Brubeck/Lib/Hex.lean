import Brubeck.Lib.Bytes

/-!
# Lib.Hex

Bytes as lowercase hexadecimal text, two digits for each.

* `hexText`: the text, of twice the length, and nothing but hexadecimal digits.
* `unhex`: the bytes back from a text (`unhex_hexText`).
-/

namespace Lib

/-- The digit for a value below 16. -/
def hexDigit (n : Nat) : Byte := UInt8.ofNat (if n < 10 then 48 + n else 87 + n)

def hexValue (c : Byte) : Option Nat :=
  if 48 ≤ c.toNat ∧ c.toNat ≤ 57 then some (c.toNat - 48)
  else if 97 ≤ c.toNat ∧ c.toNat ≤ 102 then some (c.toNat - 87)
  else none

def isHexDigit (c : Byte) : Bool := (hexValue c).isSome

def hexText (bytes : List Byte) : List Byte :=
  bytes.flatMap fun b => [hexDigit (b.toNat / 16), hexDigit (b.toNat % 16)]

def unhex : List Byte → Option (List Byte)
  | [] => some []
  | [_] => none
  | high :: low :: text => do
    let high ← hexValue high
    let low ← hexValue low
    let bytes ← unhex text
    some (UInt8.ofNat (16 * high + low) :: bytes)

theorem hexDigit_toNat {n : Nat} (h : n < 16) :
    (hexDigit n).toNat = if n < 10 then 48 + n else 87 + n := by
  unfold hexDigit
  apply UInt8.toNat_ofNat_of_lt'
  show _ < 2 ^ 8
  split <;> omega

theorem hexValue_hexDigit {n : Nat} (h : n < 16) : hexValue (hexDigit n) = some n := by
  unfold hexValue
  rw [hexDigit_toNat h]
  by_cases hlt : n < 10
  · rw [if_pos hlt, if_pos (by omega), Nat.add_sub_cancel_left]
  · rw [if_neg hlt, if_neg (by omega), if_pos (by omega), Nat.add_sub_cancel_left]

theorem hexText_cons (b : Byte) (bytes : List Byte) :
    hexText (b :: bytes) = hexDigit (b.toNat / 16) :: hexDigit (b.toNat % 16) :: hexText bytes := rfl

theorem unhex_hexText (bytes : List Byte) : unhex (hexText bytes) = some bytes := by
  induction bytes with
  | nil => rfl
  | cons b bytes ih =>
    have hlt := b.toNat_lt
    have hhigh := hexValue_hexDigit (by omega : b.toNat / 16 < 16)
    have hlow := hexValue_hexDigit (by omega : b.toNat % 16 < 16)
    have hbyte : UInt8.ofNat (16 * (b.toNat / 16) + b.toNat % 16) = b := by
      rw [Nat.div_add_mod, UInt8.ofNat_toNat]
    rw [hexText_cons, unhex, hhigh, hlow, ih]
    simp only [Option.bind_eq_bind, Option.bind_some, hbyte]

theorem hexText_length (bytes : List Byte) : (hexText bytes).length = bytes.length * 2 := by
  induction bytes with
  | nil => rfl
  | cons b bytes ih =>
    rw [hexText_cons, List.length_cons, List.length_cons, ih, List.length_cons]
    omega

theorem isHexDigit_of_mem {bytes : List Byte} {c : Byte} (h : c ∈ hexText bytes) :
    isHexDigit c = true := by
  obtain ⟨b, -, hc⟩ := List.mem_flatMap.mp h
  have hlt := b.toNat_lt
  have hdigit : ∃ n, n < 16 ∧ c = hexDigit n := by
    rcases List.mem_cons.mp hc with rfl | hc
    · exact ⟨_, by omega, rfl⟩
    · exact ⟨_, by omega, List.mem_singleton.mp hc⟩
  obtain ⟨n, hn, rfl⟩ := hdigit
  rw [isHexDigit, hexValue_hexDigit hn]
  rfl

end Lib
