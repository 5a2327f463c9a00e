import Brubeck.Lib.Bytes

/-!
# Brubeck.City

`CityHash32` of `city.c`, on which the choice of a backend rests.
-/

namespace Brubeck
namespace City

open Lib

/-- `read32` at the offset `p`, on a little-endian machine. -/
def read32 (s : List Byte) (p : Nat) : UInt32 := UInt32.ofNat (leNat ((s.drop p).take 4))

def c1 : UInt32 := 0xcc9e2d51
def c2 : UInt32 := 0x1b873593

def fmix (h : UInt32) : UInt32 :=
  let h := h ^^^ (h >>> 16)
  let h := h * 0x85ebca6b
  let h := h ^^^ (h >>> 13)
  let h := h * 0xc2b2ae35
  h ^^^ (h >>> 16)

def ror32 (val shift : UInt32) : UInt32 :=
  if shift = 0 then val else (val >>> shift) ||| (val <<< (32 - shift))

def bswap32 (x : UInt32) : UInt32 :=
  (x >>> 24) ||| ((x >>> 8) &&& (0xff00 : UInt32)) |||
    ((x <<< 8) &&& (0xff0000 : UInt32)) ||| (x <<< 24)

def mul5 (h : UInt32) : UInt32 := h * 5 + 0xe6546b64

def scramble (a : UInt32) : UInt32 := ror32 (a * c1) 17 * c2

def mur (a h : UInt32) : UInt32 := mul5 (ror32 (h ^^^ scramble a) 19)

def hash32Len13to24 (s : List Byte) : UInt32 :=
  let len := s.length
  let a := read32 s (len / 2 - 4)
  let b := read32 s 4
  let c := read32 s (len - 8)
  let d := read32 s (len / 2)
  let e := read32 s 0
  let f := read32 s (len - 4)
  fmix (mur f (mur e (mur d (mur c (mur b (mur a (UInt32.ofNat len)))))))

/-- A `char` is signed: a byte from 128 on is negative before it becomes 32 bits wide. -/
def signExtend (b : Byte) : UInt32 := if b < 128 then b.toUInt32 else b.toUInt32 + 0xffffff00

def hash32Len0to4 (s : List Byte) : UInt32 :=
  let (b, c) := s.foldl (fun (b, c) x =>
    let b := b * c1 + signExtend x
    (b, c ^^^ b)) ((0 : UInt32), (9 : UInt32))
  fmix (mur b (mur (UInt32.ofNat s.length) c))

def hash32Len5to12 (s : List Byte) : UInt32 :=
  let len := UInt32.ofNat s.length
  let d := len * 5
  let a := len + read32 s 0
  let b := d + read32 s (s.length - 4)
  let c := 9 + read32 s ((s.length / 2) &&& 4)
  fmix (mur c (mur b (mur a d)))

/-- The main loop, twenty bytes a round, on `(h, g, f)`. -/
def loop (s : List Byte) : Nat → Nat → UInt32 × UInt32 × UInt32 → UInt32 × UInt32 × UInt32
  | 0, _, hgf => hgf
  | iters + 1, p, (h, g, f) =>
    let a0 := scramble (read32 s p)
    let a1 := read32 s (p + 4)
    let a2 := scramble (read32 s (p + 8))
    let a3 := scramble (read32 s (p + 12))
    let a4 := read32 s (p + 16)
    let h := mul5 (ror32 (h ^^^ a0) 18)
    let f := ror32 (f + a1) 19 * c1
    let g := mul5 (ror32 (g + a2) 18)
    let h := mul5 (ror32 (h ^^^ (a3 + a1)) 19)
    let g := bswap32 (g ^^^ a4) * 5
    let h := bswap32 (h + a4 * 5)
    let f := f + a0
    -- `PERMUTE3(f, h, g)`
    loop s iters (p + 20) (f, h, g)

/-- `CityHash32(s, len)`, where `len` is the length of the list. -/
def cityHash32 (s : List Byte) : UInt32 :=
  let len := s.length
  if len ≤ 24 then
    if len ≤ 12 then
      if len ≤ 4 then hash32Len0to4 s else hash32Len5to12 s
    else hash32Len13to24 s
  else
    let h := UInt32.ofNat len
    let g := c1 * h
    let f := g
    let a0 := scramble (read32 s (len - 4))
    let a1 := scramble (read32 s (len - 8))
    let a2 := scramble (read32 s (len - 16))
    let a3 := scramble (read32 s (len - 12))
    let a4 := scramble (read32 s (len - 20))
    let h := mul5 (ror32 (h ^^^ a0) 19)
    let h := mul5 (ror32 (h ^^^ a2) 19)
    let g := mul5 (ror32 (g ^^^ a1) 19)
    let g := mul5 (ror32 (g ^^^ a3) 19)
    let f := mul5 (ror32 (f + a4) 19)
    let (h, g, f) := loop s ((len - 1) / 20) 0 (h, g, f)
    let g := ror32 (ror32 g 11 * c1) 17 * c1
    let f := ror32 (ror32 f 11 * c1) 17 * c1
    let h := mul5 (ror32 (h + g) 19)
    let h := ror32 h 17 * c1
    let h := mul5 (ror32 (h + f) 19)
    ror32 h 17 * c1

end City
end Brubeck
