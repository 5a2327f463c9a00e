import Brubeck.Itoa

/-!
# Brubeck.Ftoa.Memory

`brubeck_ftoa` in the caller's buffer.

* `Holds`: a text in a buffer. `itoa` adds the digits of its number to it (`Holds.itoa`).
* `ftoaMem` is `brubeck_ftoa` on memory, with the 64-bit operations of C: a shift by an amount out of
  range is undefined, and so is here an operation whose result does not fit. Its only shift that can
  be out of range is the one of `safe_mask`. The digits after the point are `ftoaDigits_holds`, what is
  left of them `ftoaTrim_holds`.
-/

namespace Brubeck

open Lib

/-! ## A text in a buffer -/

/-- The memory `mem` has `out` behind `pre`, in a buffer of `size` bytes that ends at `post`, and `p`
points behind it. -/
structure Holds (pre post : List Byte) (size : Nat) (out mem : List Byte) (p : Nat) : Prop where
  mem_eq : ∃ rest, mem = pre ++ (out ++ rest) ++ post ∧ (out ++ rest).length = size
  ptr : p = pre.length + out.length

namespace Holds

variable {pre post out mem : List Byte} {size p : Nat}

theorem empty {room : List Byte} : Holds pre post room.length [] (pre ++ room ++ post) pre.length :=
  ⟨⟨room, rfl, rfl⟩, rfl⟩

/-- `*p++ = b`. -/
theorem put (h : Holds pre post size out mem p) (hroom : out.length < size) (b : Byte) :
    Holds pre post size (out ++ [b]) (mem.set p b) (p + 1) := by
  obtain ⟨⟨rest, rfl, hsize⟩, rfl⟩ := h
  cases rest with
  | nil =>
    simp at hsize
    omega
  | cons c rest =>
    refine ⟨⟨rest, ?_, ?_⟩, ?_⟩
    · rw [show pre ++ (out ++ c :: rest) ++ post = (pre ++ out) ++ c :: (rest ++ post) by simp,
        ← List.length_append, set_length]
      simp
    · simpa using hsize
    · simp [Nat.add_assoc]

/-- `--p`: the bytes behind it are no longer part of the text. -/
theorem back {out' : List Byte} (h : Holds pre post size (out ++ out') mem p) :
    Holds pre post size out mem (p - out'.length) := by
  obtain ⟨⟨rest, rfl, hsize⟩, rfl⟩ := h
  refine ⟨⟨out' ++ rest, by simp, by simpa using hsize⟩, ?_⟩
  simp only [List.length_append]
  omega

/-- What `p[-1]` reads. -/
theorem last {b : Byte} (h : Holds pre post size (out ++ [b]) mem p) : mem.getD (p - 1) 0 = b := by
  obtain ⟨⟨rest, rfl, -⟩, rfl⟩ := h
  have hp : pre.length + (out ++ [b]).length - 1 = (pre ++ out).length := by simp
  rw [hp, show pre ++ (out ++ [b] ++ rest) ++ post = (pre ++ out) ++ b :: (rest ++ post) by simp,
    getD_length]

end Holds

/-! ## `brubeck_itoa` -/

/-- `brubeck_itoa` writes its number, taken as a `uint32_t`. -/
theorem Holds.itoa {pre post out mem : List Byte} {size p : Nat} (h : Holds pre post size out mem p)
    (hroom : out.length + 10 ≤ size) (n : Nat) :
    (Brubeck.itoa mem p n).2 = (decimal (n % 2 ^ 32)).length ∧
      Holds pre post size (out ++ digitText (decimal (n % 2 ^ 32))) (Brubeck.itoa mem p n).1
        (p + (Brubeck.itoa mem p n).2) := by
  have hlength : (decimal (n % 2 ^ 32)).length ≤ 10 := decimal_length_le (by omega) (by omega)
  obtain ⟨⟨rest, rfl, hsize⟩, rfl⟩ := h
  rw [List.length_append] at hsize
  -- The digits take the first bytes of what is left of the buffer.
  obtain ⟨room, rest, rfl, hroom'⟩ : ∃ room rest', rest = room ++ rest' ∧
      room.length = (decimal (n % 2 ^ 32)).length :=
    ⟨_, _, (List.take_append_drop _ rest).symm, List.length_take_of_le (by omega)⟩
  have hmem : pre ++ (out ++ (room ++ rest)) ++ post = (pre ++ out) ++ room ++ (rest ++ post) := by simp
  rw [hmem, ← List.length_append, itoa_eq (pre ++ out) (rest ++ post) hroom']
  refine ⟨rfl, ⟨rest, by simp, ?_⟩, ?_⟩
  · rw [← hsize]
    simp [digitText, hroom']
  · simp [digitText, Nat.add_assoc]

theorem itoaText_eq (n : Nat) : itoaText n = digitText (decimal (n % 2 ^ 32)) := by
  have h := @Holds.empty [] [] (List.replicate 10 0)
  obtain ⟨hsize, ⟨rest, hmem, -⟩, -⟩ := h.itoa (by simp) n
  simp only [List.nil_append, List.append_nil, List.length_nil] at hsize hmem
  have hlen : (decimal (n % 2 ^ 32)).length = (digitText (decimal (n % 2 ^ 32))).length := by
    simp [digitText]
  simp only [itoaText, hmem, hsize, hlen, List.take_left]

theorem itoaText_length_le {n k : Nat} (hk : 0 < k) (h : n % 2 ^ 32 < 10 ^ k) :
    (itoaText n).length ≤ k := by
  rw [itoaText_eq, digitText, List.length_map]
  exact decimal_length_le hk h

/-! ## `brubeck_ftoa` -/

/-- `a << n` on a `uint64_t`, if the amount is in range and no bit is lost. -/
def shl64 (a : Nat) (n : Int) : Option Nat :=
  if 0 ≤ n ∧ n < 64 ∧ a <<< n.toNat < 2 ^ 64 then some (a <<< n.toNat) else none

/-- `a >> n` on a `uint64_t`, if the amount is in range. -/
def shr64 (a : Nat) (n : Int) : Option Nat :=
  if 0 ≤ n ∧ n < 64 then some (a >>> n.toNat) else none

/-- `a + b` on a `uint64_t`, if it fits. -/
def add64 (a b : Nat) : Option Nat := if a + b < 2 ^ 64 then some (a + b) else none

/-- The loop over the digits after the point. -/
def ftoaDigits (safe_shift : Int) (safe_mask : Nat) :
    Nat → List Byte → Nat → Nat → Option (List Byte × Nat)
  | 0, mem, p, _ => some (mem, p)
  | m + 1, mem, p, frac_part => do
    let frac_part ← add64 (← shl64 frac_part 3) (← shl64 frac_part 1)
    let digit ← shr64 frac_part (24 + safe_shift)
    ftoaDigits safe_shift safe_mask m (mem.set p (UInt8.ofNat (digit + 48))) (p + 1)
      (frac_part &&& safe_mask)

/-- `for (; p[-1] == '0'; --p) {}`. -/
def ftoaTrim (mem : List Byte) : Nat → Nat → Nat
  | 0, p => p
  | rounds + 1, p => if mem.getD (p - 1) 0 = ch '0' then ftoaTrim mem rounds (p - 1) else p

/-- The integer part and the fraction, by the exponent. -/
def ftoaParts (exp2 : Int) (mantissa safe_mask : Nat) : Option (Nat × Nat) :=
  if 64 ≤ exp2 then some (2 ^ 64 - 1, 0)
  else if 23 ≤ exp2 then (shl64 mantissa (exp2 - 23)).map (·, 0)
  else if 0 ≤ exp2 then (shr64 mantissa (23 - exp2)).map (·, mantissa &&& safe_mask)
  else some (0, mantissa &&& 0xFFFFFF)

def ftoaInt (mem : List Byte) (p int_part : Nat) : List Byte × Nat :=
  if int_part = 0 then (mem.set p (ch '0'), p + 1)
  else ((itoa mem p int_part).1, p + (itoa mem p int_part).2)

def ftoaPoint (safe_shift : Int) (safe_mask : Nat) (mem : List Byte) (p frac_part : Nat) :
    Option (List Byte × Nat) :=
  if frac_part ≠ 0 then do
    let (mem, p) ←
      ftoaDigits safe_shift safe_mask FLOAT_PRECISION (mem.set p (ch '.')) (p + 1) frac_part
    let p := ftoaTrim mem p p
    some (mem, if mem.getD (p - 1) 0 = ch '.' then p - 1 else p)
  else some (mem, p)

/-- `brubeck_ftoa` from behind the sign to its label `END`. Where the shift of `safe_mask` is
undefined, the machine makes `undef` of it. -/
def ftoaBody (undef : Option Nat) (mem : List Byte) (p : Nat) (exp2 : Int) (mantissa : Nat) :
    Option (List Byte × Nat) :=
  if exp2 < -36 then some (mem.set p (ch '0'), p + 1)
  else do
    let safe_shift := -(exp2 + 1)
    let safe_mask ← (shr64 (2 ^ 64 - 1) (64 - 24 - safe_shift)).or undef
    let (int_part, frac_part) ← ftoaParts exp2 mantissa safe_mask
    let (mem, p) := ftoaInt mem p int_part
    ftoaPoint safe_shift safe_mask mem p frac_part

/-- `brubeck_ftoa(outbuf, f)` for the float with the pattern `x`: the memory it leaves and the length
it returns. With `none` for `undef`, a result says that nothing undefined was done. -/
def ftoaMem (undef : Option Nat) (mem : List Byte) (outbuf x : Nat) : Option (List Byte × Nat) := do
  let exp2 : Int := (x >>> 23) % 256 - 127
  let mantissa := (x &&& 0xFFFFFF) ||| 0x800000
  let (mem, p) := if 2 ^ 31 ≤ x then (mem.set outbuf (ch '-'), outbuf + 1) else (mem, outbuf)
  let (mem, p) ← ftoaBody undef mem p exp2 mantissa
  some (mem.set p 0, p - outbuf)

/-- The call left `text` and a NUL in the buffer of `size` bytes between `pre` and `post`, and
returned the length of the text. -/
def Prints (pre post : List Byte) (size : Nat) (text : List Byte) (r : Option (List Byte × Nat)) :
    Prop :=
  ∃ rest, r = some (pre ++ (text ++ 0 :: rest) ++ post, text.length) ∧
    (text ++ 0 :: rest).length = size

/-! ## The fraction -/

theorem shl64_eq {a : Nat} (n : Nat) (hn : n < 64) (h : a * 2 ^ n < 2 ^ 64) :
    shl64 a n = some (a * 2 ^ n) := by
  rw [← Nat.shiftLeft_eq] at h ⊢
  rw [shl64, Int.toNat_natCast, if_pos (by omega)]

theorem shr64_eq (a : Nat) {n : Nat} (hn : n < 64) : shr64 a n = some (a / 2 ^ n) := by
  rw [shr64, Int.toNat_natCast, if_pos (by omega), Nat.shiftRight_eq_div_pow]

/-- The bits that `safe_mask` leaves. -/
theorem mask_eq {s : Nat} (h : s ≤ 64) : (2 ^ 64 - 1) / 2 ^ (64 - s) = 2 ^ s - 1 := by
  have hpow : 2 ^ 64 = 2 ^ s * 2 ^ (64 - s) := by rw [← Nat.pow_add]; congr 1; omega
  have hpos : 0 < 2 ^ (64 - s) := Nat.two_pow_pos _
  rw [hpow]
  apply Nat.div_eq_of_lt_le
  · rw [Nat.sub_mul]
    omega
  · rw [Nat.sub_add_cancel Nat.one_le_two_pow]
    have : 0 < 2 ^ s * 2 ^ (64 - s) := Nat.mul_pos (Nat.two_pow_pos s) hpos
    omega

/-- One round: the fraction times ten fits, and is split at the point. -/
theorem round_eq {s frac : Nat} (hs : s ≤ 59) (h : frac < 2 ^ s) :
    frac * 10 < 2 ^ 64 ∧ frac * 10 / 2 ^ s = (Fin.ofNat 10 (frac * 10 / 2 ^ s)).val ∧
      frac * 10 &&& (2 ^ s - 1) = frac * 10 % 2 ^ s := by
  have hpow : 2 ^ s ≤ 2 ^ 59 := Nat.pow_le_pow_right (by omega) hs
  have hdigit : frac * 10 / 2 ^ s < 10 := (Nat.div_lt_iff_lt_mul (Nat.two_pow_pos s)).mpr (by omega)
  refine ⟨by omega, ?_, Nat.and_two_pow_sub_one_eq_mod _ s⟩
  rw [Fin.val_ofNat, Nat.mod_eq_of_lt hdigit]

theorem ftoaFrac_eq {s : Nat} (hs : s ≤ 59) (m : Nat) {frac : Nat} (h : frac < 2 ^ s) :
    ftoaFrac s (2 ^ s - 1) m frac = digitText (fracDigits (2 ^ s) m frac) := by
  induction m generalizing frac with
  | zero => rfl
  | succ m ih =>
    obtain ⟨hfits, hdigit, hrest⟩ := round_eq hs h
    have hmod : frac * 10 % 2 ^ s < 2 ^ s := Nat.mod_lt _ (Nat.two_pow_pos s)
    have hten : frac <<< 3 + frac <<< 1 = frac * 10 := by
      rw [Nat.shiftLeft_eq, Nat.shiftLeft_eq]
      omega
    simp only [ftoaFrac, fracDigits, digitText_cons, hten, Nat.mod_eq_of_lt hfits, hrest, ih hmod,
      digitByte, Nat.shiftRight_eq_div_pow, ← hdigit, Nat.add_comm 48]

theorem ftoaDigits_holds {pre post : List Byte} {size s : Nat} (hpos : 0 < s) (hs : s ≤ 59) (m : Nat) :
    ∀ {out mem : List Byte} {p frac : Nat}, Holds pre post size out mem p → frac < 2 ^ s →
      out.length + m ≤ size →
      ∃ mem', ftoaDigits (s - 24) (2 ^ s - 1) m mem p frac = some (mem', p + m) ∧
        Holds pre post size (out ++ digitText (fracDigits (2 ^ s) m frac)) mem' (p + m) := by
  induction m with
  | zero =>
    intro out mem p frac h hfrac hroom
    exact ⟨mem, rfl, by simpa [fracDigits] using h⟩
  | succ m ih =>
    intro out mem p frac h hfrac hroom
    obtain ⟨hfits, hdigit, hrest⟩ := round_eq hs hfrac
    have hmod : frac * 10 % 2 ^ s < 2 ^ s := Nat.mod_lt _ (Nat.two_pow_pos s)
    have hput := h.put (by omega) (digitByte (Fin.ofNat 10 (frac * 10 / 2 ^ s)))
    obtain ⟨mem', hrun, hholds⟩ := ih hput hmod (by simp; omega)
    refine ⟨mem', ?_, ?_⟩
    · have hshl3 : shl64 frac 3 = some (frac * 2 ^ 3) := shl64_eq 3 (by omega) (by omega)
      have hshl1 : shl64 frac 1 = some (frac * 2 ^ 1) := shl64_eq 1 (by omega) (by omega)
      have hten : frac * 2 ^ 3 + frac * 2 ^ 1 = frac * 10 := by omega
      have hadd : add64 (frac * 2 ^ 3) (frac * 2 ^ 1) = some (frac * 10) := by
        rw [add64, hten, if_pos hfits]
      have hshift : 24 + ((s : Int) - 24) = s := by omega
      simp only [ftoaDigits, hshl3, hshl1, hadd, hshift, shr64_eq (frac * 10) (by omega : s < 64),
        Option.bind_eq_bind, Option.bind_some, hrest]
      rw [Nat.add_comm m 1, ← Nat.add_assoc, ← hrun, digitByte, ← hdigit, Nat.add_comm 48]
    · rw [fracDigits, digitText_cons, Nat.add_comm m 1, ← Nat.add_assoc]
      simpa using hholds

/-! ## Zeros at the end -/

theorem point_snoc (out : List Byte) (ds : List (Fin 10)) (d : Fin 10) :
    out ++ ch '.' :: digitText (ds ++ [d]) = (out ++ ch '.' :: digitText ds) ++ [digitByte d] := by
  simp [digitText]

theorem digitByte_ne_point (d : Fin 10) : digitByte d ≠ ch '.' := by
  intro h
  have hdigit := isDigit_digitByte d
  rw [h] at hdigit
  exact absurd hdigit (by decide)

theorem ftoaTrim_holds {pre post out mem : List Byte} {size : Nat} (ds : List (Fin 10)) :
    ∀ {rounds p : Nat}, ds.length < rounds →
      Holds pre post size (out ++ ch '.' :: digitText ds) mem p →
      Holds pre post size (out ++ ch '.' :: digitText (trimZeros ds)) mem (ftoaTrim mem rounds p) := by
  induction ds using List.reverseRecOn with
  | nil =>
    intro rounds p hrounds h
    obtain ⟨rounds, rfl⟩ : ∃ k, rounds = k + 1 := ⟨rounds - 1, by omega⟩
    rw [ftoaTrim, h.last, if_neg (by decide)]
    exact h
  | append_singleton ds d ih =>
    intro rounds p hrounds h
    obtain ⟨rounds, rfl⟩ : ∃ k, rounds = k + 1 := ⟨rounds - 1, by omega⟩
    rw [List.length_append, List.length_singleton] at hrounds
    rw [point_snoc] at h
    rw [ftoaTrim, h.last, trimZeros_snoc]
    by_cases hd : d = 0
    · rw [if_pos hd, if_pos ((digitByte_eq_zero d).mpr hd)]
      exact ih (by omega) h.back
    · rw [if_neg hd, if_neg ((digitByte_eq_zero d).not.mpr hd), point_snoc]
      exact h

/-- `fracText` of what is left of the digits: no bare point stays. -/
def keptFrac (ds : List (Fin 10)) : Option (List (Fin 10)) :=
  if trimZeros ds = [] then none else some (trimZeros ds)

/-- Nothing is left of the fraction zero. -/
theorem keptFrac_zero (scale : Nat) : keptFrac (fracDigits scale FLOAT_PRECISION 0) = none := by
  have hdigits : ∀ m, fracDigits scale m 0 = List.replicate m 0 := by
    intro m
    induction m with
    | zero => rfl
    | succ m ih => simp [fracDigits, ih, List.replicate_succ]
  rw [hdigits]
  rfl

theorem ftoaStrip_eq (out : List Byte) (ds : List (Fin 10)) :
    ftoaStrip (out ++ ch '.' :: digitText ds) = out ++ fracText (keptFrac ds) := by
  have htrim : ((out ++ ch '.' :: digitText ds).reverse.dropWhile (· = ch '0')).reverse =
      out ++ ch '.' :: digitText (trimZeros ds) := by
    show (out ++ ch '.' :: digitText ds).rdropWhile (· = ch '0') = _
    induction ds using List.reverseRecOn with
    | nil => exact List.rdropWhile_concat_neg _ _ _ (by decide)
    | append_singleton ds d ih =>
      rw [point_snoc, List.rdropWhile_concat, ih, trimZeros_snoc]
      by_cases hd : d = 0
      · simp [hd, digitByte_eq_zero]
      · simp [hd, digitByte_eq_zero, point_snoc]
  simp only [ftoaStrip, htrim, keptFrac]
  cases hds : trimZeros ds using List.reverseRecOn with
  | nil => simp [fracText]
  | append_singleton es e =>
    have hne := digitByte_ne_point e
    rw [point_snoc, List.getLast?_concat, if_neg (by simpa using hne), if_neg (by simp), fracText,
      point_snoc]

theorem ftoaPoint_holds {pre post out mem : List Byte} {size p s frac : Nat} (hpos : 0 < s)
    (hs : s ≤ 59) (h : Holds pre post size out mem p) (hfrac : frac < 2 ^ s)
    (hroom : out.length + 5 ≤ size) :
    ∃ r, ftoaPoint (s - 24) (2 ^ s - 1) mem p frac = some r ∧
      Holds pre post size (out ++ fracText (keptFrac (fracDigits (2 ^ s) FLOAT_PRECISION frac))) r.1 r.2 := by
  by_cases hzero : frac = 0
  · subst hzero
    refine ⟨(mem, p), by simp [ftoaPoint], ?_⟩
    rw [keptFrac_zero]
    simpa [fracText] using h
  · have hput := h.put (by omega) (ch '.')
    obtain ⟨mem', hrun, hholds⟩ := ftoaDigits_holds hpos hs FLOAT_PRECISION hput hfrac
      (by simp [FLOAT_PRECISION]; omega)
    rw [List.append_assoc, List.singleton_append] at hholds
    generalize fracDigits (2 ^ s) FLOAT_PRECISION frac = ds at hholds ⊢
    have hrounds : ds.length < p + 1 + FLOAT_PRECISION := by
      rw [hholds.ptr]
      simp [digitText]
      omega
    have htrim := ftoaTrim_holds ds hrounds hholds
    generalize hp : ftoaTrim mem' (p + 1 + FLOAT_PRECISION) (p + 1 + FLOAT_PRECISION) = q at htrim
    refine ⟨(mem', if mem'.getD (q - 1) 0 = ch '.' then q - 1 else q), ?_, ?_⟩
    · simp [ftoaPoint, hzero, hrun, hp]
    · unfold keptFrac
      cases hds : trimZeros ds using List.reverseRecOn with
      | nil =>
        rw [hds, digitText_nil] at htrim
        rw [htrim.last, if_pos rfl, if_pos rfl]
        simpa [fracText] using htrim.back
      | append_singleton es e =>
        rw [hds, point_snoc] at htrim
        have hne := digitByte_ne_point e
        rw [htrim.last, if_neg hne, if_neg (by simp), fracText, point_snoc]
        exact htrim

end Brubeck
