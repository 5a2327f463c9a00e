import Brubeck.Basic

/-!
# Brubeck.Utils

`utils.c` and `utils.h`: printing integers and floats, and writing to a socket.

* `itoa` works on memory, as the code does: it writes the digits in reverse and then swaps them in
  place.
* `ftoa` is the text `brubeck_ftoa` leaves between its output pointer and its final position, for
  a 32-bit pattern.
* `writeInFull` repeats `xwrite` until everything is accepted or a call fails.
-/

namespace Brubeck

open Lib

/-! ## `brubeck_itoa` -/

/-- The `do ... while (number)` loop: digits from the last to the first. A `uint32_t` needs ten
rounds at most. -/
def itoaDigits : Nat → List Byte → Nat → Nat → List Byte × Nat
  | 0, mem, ptr, _ => (mem, ptr)
  | rounds + 1, mem, ptr, number =>
    let mem := mem.set ptr (UInt8.ofNat (48 + number % 10))
    if number / 10 ≠ 0 then itoaDigits rounds mem (ptr + 1) (number / 10) else (mem, ptr + 1)

/-- `while (origin < ptr)` swap the bytes at the two pointers. -/
def itoaReverse : Nat → List Byte → Nat → Nat → List Byte
  | 0, mem, _, _ => mem
  | rounds + 1, mem, origin, ptr =>
    if origin < ptr then
      let t := mem.getD ptr 0
      let mem := mem.set ptr (mem.getD origin 0)
      itoaReverse rounds (mem.set origin t) (origin + 1) (ptr - 1)
    else mem

/-- `brubeck_itoa(ptr, number)`: the memory it leaves and the size it returns. -/
def itoa (mem : List Byte) (ptr number : Nat) : List Byte × Nat :=
  let (mem, p) := itoaDigits 10 mem ptr (number % 2 ^ 32)
  (itoaReverse (p - ptr) mem ptr (p - 1), p - ptr)

def itoaText (number : Nat) : List Byte :=
  let (mem, size) := itoa (List.replicate 10 0) 0 number
  mem.take size

/-! ## `brubeck_ftoa` -/

def FLOAT_PRECISION : Nat := 4

/-- The loop over the digits after the point. The fraction is scaled by `2 ^ shift`. -/
def ftoaFrac (shift mask : Nat) : Nat → Nat → List Byte
  | 0, _ => []
  | m + 1, frac =>
    let frac := (frac <<< 3 + frac <<< 1) % 2 ^ 64
    UInt8.ofNat (frac >>> shift + 48) :: ftoaFrac shift mask m (frac &&& mask)

/-- `for (; p[-1] == '0'; --p) {}`, then one more step back over a bare point. -/
def ftoaStrip (out : List Byte) : List Byte :=
  let out := (out.reverse.dropWhile (· = ch '0')).reverse
  if out.getLast? = some (ch '.') then out.dropLast else out

/-- `brubeck_ftoa` on the 32-bit pattern `x` of its float. The mask's shift leaves the 64-bit range
from the exponent 23 on, where no fraction uses it. -/
def ftoa (x : Nat) : List Byte :=
  let exp2 : Int := (x >>> 23) % 256 - 127
  let mantissa := (x &&& 0xFFFFFF) ||| 0x800000
  let out := if 2 ^ 31 ≤ x then [ch '-'] else []
  if exp2 < -36 then out ++ [ch '0']
  else
    let safe_shift := -(exp2 + 1)
    let safe_mask := (2 ^ 64 - 1) >>> ((64 - 24 - safe_shift).toNat % 64)
    let int_part :=
      if 64 ≤ exp2 then 2 ^ 64 - 1
      else if 23 ≤ exp2 then mantissa <<< (exp2 - 23).toNat % 2 ^ 64
      else if 0 ≤ exp2 then mantissa >>> (23 - exp2).toNat
      else 0
    let frac_part :=
      if 23 ≤ exp2 then 0
      else if 0 ≤ exp2 then mantissa &&& safe_mask
      else mantissa &&& 0xFFFFFF
    let out := if int_part = 0 then out ++ [ch '0'] else out ++ itoaText int_part
    if frac_part ≠ 0 then
      ftoaStrip (out ++ ch '.' :: ftoaFrac (24 + safe_shift).toNat safe_mask FLOAT_PRECISION frac_part)
    else out

/-! ## Writing -/

/-- What the kernel answers to one `xwrite`: `EAGAIN` or `EINTR` some number of times, and then a
count of bytes accepted, or another error. -/
structure Answer where
  retries : Nat
  result : Option Nat

/-- `xwrite`: the retries leave no trace, and no more is accepted than was offered. -/
def xwrite (answer : Answer) (len : Nat) : Option Nat := answer.result.map (min len)

/-- The loop of `write_in_full`: what it returns, the bytes the socket accepted, and the number of
calls made. -/
def writeLoop (env : Nat → Answer) : Nat → Nat → List Byte → Nat → Int × List Byte × Nat
  | 0, calls, _, total => (total, [], calls)
  | rounds + 1, calls, p, total =>
    if p = [] then (total, [], calls)
    else
      match xwrite (env calls) p.length with
      | none => (-1, [], calls + 1)
      | some 0 => (-1, [], calls + 1)
      | some (n + 1) =>
        let (rc, accepted, calls) :=
          writeLoop env rounds (calls + 1) (p.drop (n + 1)) (total + (n + 1))
        (rc, p.take (n + 1) ++ accepted, calls)

/-- `write_in_full`. Every round but the last takes at least one byte. -/
def writeInFull (env : Nat → Answer) (calls : Nat) (buf : List Byte) : Int × List Byte × Nat :=
  writeLoop env buf.length calls buf 0

end Brubeck
