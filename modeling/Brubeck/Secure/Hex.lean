import Brubeck.Lib.Hex
import Brubeck.Secure.Basic

/-!
# Brubeck.Secure.Hex

`hmactos`: the digest of a rejected packet, for the log. Plain `char` is signed, so the shift leaves the
upper half of the bytes negative, and `hex_str` is read in front of its first character. What is there
is a parameter, `stray`.

* `highIndex_eq`, `lowIndex_eq`: the two indices.
* `hmactos_eq`: the characters read go out one after the other.
* `hmactos_decodes_iff`: when they spell the digest.
-/

namespace Brubeck
namespace Secure

open Lib

def hex_str : List Byte := str "0123456789abcdef".toList ++ [0]

/-- A `char`, promoted to an `int`. -/
def promote (c : Byte) : BitVec 32 := c.toBitVec.signExtend 32

/-- `buffer[i] >> 4`. The shift of a negative number is arithmetic. -/
def highIndex (c : Byte) : Int := ((promote c).sshiftRight 4).toInt

/-- `buffer[i] & 0xF`. -/
def lowIndex (c : Byte) : Int := (promote c &&& 0xF).toInt

/-- The `hex_hmac` of a thread, with whatever it holds. -/
structure HexHmac where
  bytes : List Byte
  length_eq : bytes.length = SHA_SIZE * 2 + 1

/-- Between two assignments of `hmactos`, with the indices at which `hex_str` was read. -/
structure Dump where
  hex_hmac : List Byte
  j : Nat
  reads : List Int

variable (stray : Int → Byte)

def hexAt (i : Int) : Byte :=
  if 0 ≤ i ∧ i < hex_str.length then hex_str.getD i.toNat 0 else stray i

/-- `hex_hmac[j++] = hex_str[i]`. -/
def Dump.put (dump : Dump) (i : Int) : Dump where
  hex_hmac := dump.hex_hmac.set dump.j (hexAt stray i)
  j := dump.j + 1
  reads := dump.reads ++ [i]

def Dump.round (dump : Dump) (c : Byte) : Dump :=
  (dump.put stray (highIndex c)).put stray (lowIndex c)

/-- `hmactos`: what is in `hex_hmac` when it returns, and where `hex_str` was read. -/
def hmactos (buffer : Digest) (hex_hmac : HexHmac) : List Byte × List Int :=
  let dump := buffer.bytes.foldl (Dump.round stray) ⟨hex_hmac.bytes, 0, []⟩
  (dump.hex_hmac.set dump.j 0, dump.reads)

/-- The C string that is returned. -/
def hmacText (buffer : Digest) (hex_hmac : HexHmac) : List Byte :=
  (hmactos stray buffer hex_hmac).1.takeWhile (· ≠ 0)

/-- What the dump is for. -/
structure Decodes (buffer : Digest) (text : List Byte) (reads : List Int) : Prop where
  reads : ∀ i ∈ reads, 0 ≤ i ∧ i ≤ 15
  length : text.length = SHA_SIZE * 2
  digits : ∀ c ∈ text, isHexDigit c = true
  bytes : unhex text = some buffer.bytes

/-! ## The indices -/

theorem promote_toInt (c : Byte) :
    (promote c).toInt = if c.toNat < 128 then (c.toNat : Int) else c.toNat - 256 := by
  have hbits : c.toBitVec.toNat = c.toNat := rfl
  unfold promote
  rw [BitVec.toInt_signExtend_of_le (by omega), BitVec.toInt_eq_toNat_cond, hbits]
  split
  · rw [if_pos (by omega)]
  · rw [if_neg (by omega)]
    rfl

theorem highIndex_eq (c : Byte) :
    highIndex c = if c.toNat < 128 then ((c.toNat / 16 : Nat) : Int) else (c.toNat / 16 : Nat) - 16 := by
  unfold highIndex
  rw [BitVec.toInt_sshiftRight, Int.shiftRight_eq_div_pow, promote_toInt]
  split <;> omega

theorem lowIndex_eq (c : Byte) : lowIndex c = (c.toNat % 16 : Nat) := by
  have hlow : (promote c &&& 0xF).toNat = c.toNat % 16 := by
    have hmask : (promote c &&& 0xF).toNat = (promote c).toNat &&& 2 ^ 4 - 1 := rfl
    have hint := promote_toInt c
    rw [hmask, Nat.and_two_pow_sub_one_eq_mod]
    rw [BitVec.toInt_eq_toNat_cond] at hint
    split at hint <;> split at hint <;> omega
  unfold lowIndex
  rw [BitVec.toInt_eq_toNat_of_lt (by rw [hlow]; omega), hlow]

/-! ## The loop -/

/-- The indices at which `hex_str` is read, in their order. -/
def hexIndices (bytes : List Byte) : List Int := bytes.flatMap fun c => [highIndex c, lowIndex c]

theorem hexIndices_length (bytes : List Byte) : (hexIndices bytes).length = bytes.length * 2 := by
  induction bytes with
  | nil => rfl
  | cons c bytes ih =>
    show (hexIndices bytes).length + 1 + 1 = _
    rw [ih, List.length_cons]
    omega

/-- The characters read go out one after the other. -/
theorem foldl_put (indices : List Int) :
    ∀ (out post : List Byte) {room : List Byte} (reads : List Int), room.length = indices.length →
      indices.foldl (Dump.put stray) ⟨out ++ room ++ post, out.length, reads⟩ =
        ⟨out ++ indices.map (hexAt stray) ++ post, out.length + indices.length, reads ++ indices⟩ := by
  induction indices with
  | nil =>
    intro out post room reads hroom
    rw [List.length_eq_zero_iff.mp hroom]
    simp
  | cons i indices ih =>
    intro out post room reads hroom
    obtain ⟨c, room, rfl⟩ := List.exists_cons_of_length_eq_add_one hroom
    have hput : Dump.put stray ⟨out ++ c :: room ++ post, out.length, reads⟩ i =
        ⟨(out ++ [hexAt stray i]) ++ room ++ post, (out ++ [hexAt stray i]).length, reads ++ [i]⟩ := by
      unfold Dump.put
      rw [List.append_assoc, List.cons_append, set_length]
      simp
    rw [List.foldl_cons, hput, ih _ post _ (by simpa using hroom)]
    simp [Nat.add_assoc, Nat.add_comm 1]

theorem hmactos_eq (buffer : Digest) (hex_hmac : HexHmac) :
    hmactos stray buffer hex_hmac =
      ((hexIndices buffer.bytes).map (hexAt stray) ++ [0], hexIndices buffer.bytes) := by
  have hlength : (hexIndices buffer.bytes).length = SHA_SIZE * 2 := by
    rw [hexIndices_length, buffer.length_eq]
  obtain ⟨bytes, hbytes⟩ := hex_hmac
  -- the last byte of `hex_hmac` is the one for the NUL
  obtain ⟨room, last, rfl⟩ : ∃ room last, bytes = room ++ [last] := by
    cases bytes using List.reverseRecOn with
    | nil => cases hbytes
    | append_singleton room last => exact ⟨room, last, rfl⟩
  have hroom : room.length = (hexIndices buffer.bytes).length := by
    rw [hlength]
    simpa using hbytes
  have hloop := foldl_put stray (hexIndices buffer.bytes) [] [last] [] hroom
  have hrounds : buffer.bytes.foldl (Dump.round stray) ⟨room ++ [last], 0, []⟩ =
      (hexIndices buffer.bytes).foldl (Dump.put stray) ⟨room ++ [last], 0, []⟩ := by
    unfold hexIndices
    rw [List.foldl_flatMap]
    rfl
  simp only [List.nil_append, List.length_nil, Nat.zero_add] at hloop
  unfold hmactos
  simp only [hrounds, hloop]
  rw [← List.length_map (hexAt stray), set_length]

/-! ## When it spells the digest -/

theorem hexAt_eq {n : Nat} (h : n < 16) : hexAt stray n = hexDigit n := by
  have htable : ∀ n, n < 16 → hex_str.getD n 0 = hexDigit n := by decide
  have hlength : hex_str.length = 17 := rfl
  unfold hexAt
  rw [if_pos (by omega), Int.toNat_natCast, htable n h]

/-- In the lower half of the bytes, the characters are the digits. -/
theorem map_hexAt {bytes : List Byte} (h : ∀ c ∈ bytes, c.toNat < 128) :
    (hexIndices bytes).map (hexAt stray) = hexText bytes := by
  induction bytes with
  | nil => rfl
  | cons c bytes ih =>
    have hc := h c List.mem_cons_self
    have hhigh : hexAt stray (highIndex c) = hexDigit (c.toNat / 16) := by
      rw [highIndex_eq, if_pos hc]
      exact hexAt_eq stray (by omega)
    have hlow : hexAt stray (lowIndex c) = hexDigit (c.toNat % 16) := by
      rw [lowIndex_eq]
      exact hexAt_eq stray (by omega)
    show hexAt stray (highIndex c) :: hexAt stray (lowIndex c) :: (hexIndices bytes).map (hexAt stray) = _
    rw [hhigh, hlow, ih fun c hc => h c (List.mem_cons_of_mem _ hc), hexText_cons]

theorem hmacText_eq {buffer : Digest} (h : ∀ c ∈ buffer.bytes, c.toNat < 128) (hex_hmac : HexHmac) :
    hmacText stray buffer hex_hmac = hexText buffer.bytes := by
  unfold hmacText
  rw [hmactos_eq, map_hexAt stray h, List.takeWhile_append_of_pos, List.takeWhile_cons_of_neg (by simp),
    List.append_nil]
  intro c hc
  have hdigit := isHexDigit_of_mem hc
  rw [decide_eq_true_eq]
  rintro rfl
  cases hdigit

/-- No index is negative exactly when no byte is in the upper half. -/
theorem hexIndices_range (bytes : List Byte) :
    (∀ i ∈ hexIndices bytes, 0 ≤ i ∧ i ≤ 15) ↔ ∀ c ∈ bytes, c.toNat < 128 := by
  unfold hexIndices
  constructor
  · intro h c hc
    have hhigh := h (highIndex c) (List.mem_flatMap.mpr ⟨c, hc, List.mem_cons_self⟩)
    have hlt := c.toNat_lt
    rw [highIndex_eq] at hhigh
    by_contra hge
    rw [if_neg hge] at hhigh
    omega
  · intro h i hi
    obtain ⟨c, hc, hmem⟩ := List.mem_flatMap.mp hi
    have hlt := h c hc
    rcases List.mem_cons.mp hmem with rfl | hmem
    · rw [highIndex_eq, if_pos hlt]
      omega
    · rw [List.mem_singleton.mp hmem, lowIndex_eq]
      omega

/-- `hmactos` reads its table inside and returns the text of its digest exactly when all bytes of the
digest are in the lower half. Two such digests with the same text are the same. -/
theorem hmactos_decodes_iff (buffer : Digest) (hex_hmac : HexHmac) :
    (Decodes buffer (hmacText stray buffer hex_hmac) (hmactos stray buffer hex_hmac).2 ↔
      ∀ c ∈ buffer.bytes, c.toNat < 128) ∧
    ((∀ c ∈ buffer.bytes, c.toNat < 128) → ∀ (buffer' : Digest) (hex_hmac' : HexHmac),
      (∀ c ∈ buffer'.bytes, c.toNat < 128) →
      hmacText stray buffer' hex_hmac' = hmacText stray buffer hex_hmac → buffer' = buffer) := by
  refine ⟨⟨?_, ?_⟩, ?_⟩
  · intro h
    have hreads := h.reads
    rw [hmactos_eq] at hreads
    exact (hexIndices_range buffer.bytes).mp hreads
  · intro h
    rw [hmacText_eq stray h, hmactos_eq]
    refine ⟨(hexIndices_range buffer.bytes).mpr h, ?_, fun c hc => isHexDigit_of_mem hc,
      unhex_hexText buffer.bytes⟩
    rw [hexText_length, buffer.length_eq]
  · intro h buffer' hex_hmac' h' htext
    rw [hmacText_eq stray h, hmacText_eq stray h'] at htext
    have hbytes := congrArg unhex htext
    rw [unhex_hexText, unhex_hexText] at hbytes
    cases buffer
    cases buffer'
    cases hbytes
    rfl

def blankHmac : HexHmac := ⟨List.replicate 65 0, rfl⟩

/-- 32 bytes that start with the given one. -/
def digestFrom (first : Byte) : Digest := ⟨first :: List.replicate 31 0x7F, rfl⟩

/-- A packet that starts with the byte `0x80` makes `hmactos` read 8 bytes in front of `hex_str`,
whatever is there. -/
theorem hmactos_reads_stray :
    (hmactos (fun _ => ch '0') (digestFrom 0x80) blankHmac).2.head? = some (-8) ∧
      hmacText (fun _ => ch '0') (digestFrom 0x80) blankHmac =
        hmacText (fun _ => ch '0') (digestFrom 0) blankHmac ∧
      ∀ stray, ¬ Decodes (digestFrom 0x80) (hmacText stray (digestFrom 0x80) blankHmac)
        (hmactos stray (digestFrom 0x80) blankHmac).2 := by
  refine ⟨by decide, by decide, ?_⟩
  intro stray h
  have hreads := h.reads
  rw [hmactos_eq] at hreads
  have hlow := (hexIndices_range (digestFrom 0x80).bytes).mp hreads 0x80 List.mem_cons_self
  exact absurd hlow (by decide)

theorem hmactos_decodes_iff_ascii :
    Decodes (digestFrom 0x41) (hmacText (fun _ => 0) (digestFrom 0x41) blankHmac)
      (hmactos (fun _ => 0) (digestFrom 0x41) blankHmac).2 := by
  refine (hmactos_decodes_iff (fun _ => 0) (digestFrom 0x41) blankHmac).1.mpr ?_
  intro c hc
  rcases List.mem_cons.mp hc with rfl | hc
  · decide
  · rw [List.eq_of_mem_replicate hc]
    decide

end Secure
end Brubeck
