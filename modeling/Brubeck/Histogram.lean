import Brubeck.Basic
import Mathlib.Data.Rat.Floor

/-!
# Brubeck.Histogram

`histogram.c`: the values of a histogram or a timer between two samples.
-/

namespace Brubeck

def HISTO_INIT_SIZE : Nat := 16
def USHRT_MAX : Nat := 65535

/-- `struct brubeck_histo`; `values` holds the first `size` entries of the array. -/
structure Histo where
  values : List Value
  count : Nat
  alloc : Nat
  deriving DecidableEq

structure HistoSample where
  sum : Value
  min : Value
  max : Value
  mean : Value
  median : Value
  count : Value
  percentile75 : Value
  percentile95 : Value
  percentile98 : Value
  percentile99 : Value
  percentile999 : Value
  deriving DecidableEq

namespace Histo

def zero : Histo := { values := [], count := 0, alloc := 0 }

/-- How much `brubeck_histo_push` allocates when the array is full. -/
def grow (alloc : Nat) : Nat := max (min (alloc * 2) USHRT_MAX) HISTO_INIT_SIZE

/-- `brubeck_histo_push`. The count is a `uint32_t` to which a `value_t` is added: the sum loses its
fraction. A full array of `USHRT_MAX` values drops the value and keeps the count. -/
def push (histo : Histo) (value sample_freq : Value) : Histo :=
  let histo := { histo with count := (Rat.floor (histo.count + sample_freq)).toNat % 2 ^ 32 }
  if histo.values.length = histo.alloc then
    if histo.values.length = USHRT_MAX then histo
    else { histo with values := histo.values ++ [value], alloc := grow histo.alloc }
  else { histo with values := histo.values ++ [value] }

/-- `histo_percentile`, with the rank as the rational its literal spells. -/
def percentile (histo : Histo) (rank : Value) : Value :=
  let irank := (Rat.floor (rank * histo.values.length + 1 / 2)).toNat
  histo.values.getD (irank - 1) 0

def sum (histo : Histo) : Value := histo.values.foldl (· + ·) 0

def sort (histo : Histo) : Histo :=
  { histo with values := histo.values.mergeSort fun a b => decide (a ≤ b) }

/-- `brubeck_histo_sample`: the statistics, and the emptied histogram. -/
def sample (histo : Histo) : HistoSample × Histo :=
  if histo.values = [] then (⟨0, 0, 0, 0, 0, 0, 0, 0, 0, 0, 0⟩, histo)
  else
    let histo := histo.sort
    ({ sum := histo.sum
       min := histo.values.headD 0
       max := histo.values.getLastD 0
       mean := histo.sum / histo.values.length
       median := histo.percentile (1 / 2)
       count := histo.count
       percentile75 := histo.percentile (3 / 4)
       percentile95 := histo.percentile (19 / 20)
       percentile98 := histo.percentile (49 / 50)
       percentile99 := histo.percentile (99 / 100)
       percentile999 := histo.percentile (999 / 1000) },
     { histo with values := [], count := 0 })

/-- Sampling keeps a histogram exactly when it holds no value. -/
theorem sample_eq_iff (histo : Histo) : histo.sample.2 = histo ↔ histo.values = [] := by
  by_cases h : histo.values = []
  · simp [sample, h]
  · simp only [sample, h, iff_false]
    intro heq
    exact h (congrArg Histo.values heq).symm

end Histo
end Brubeck
