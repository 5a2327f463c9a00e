import Brubeck.Lib.Bytes
import Mathlib.Data.Rat.Defs

/-!
# Brubeck.Basic

The vocabulary of `brubeck.h` and `metric.h` that every other part uses.
-/

namespace Brubeck

open Lib

/-- `value_t`, idealised from `double` to exact rationals. -/
abbrev Value := ℚ

/-- A metric's key, without the NUL that ends it in C. -/
abbrev Key := List Byte

inductive MetricType where
  | gauge
  | meter
  | counter
  | histo
  | timer
  | internalStats
  deriving DecidableEq, Repr

def MOD_RELATIVE_VALUE : UInt8 := 1

def EXPIRE_DISABLED : Nat := 0
def EXPIRE_INACTIVE : Nat := 1
def EXPIRE_ACTIVE : Nat := 2

end Brubeck
