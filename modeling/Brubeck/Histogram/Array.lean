import Brubeck.Histogram
import Mathlib.Algebra.Order.Field.Rat
import Mathlib.Tactic.Linarith

/-!
# Brubeck.Histogram.Array

`histogram.c` on the array that a histogram really has: a block of `alloc` values of which the first
`size` are in use, grown by `xrealloc`, sorted in place, and used again after a sample. A `none` is a
store or a read outside the block.

* `Fits`: what holds between two calls.
* `push_view`, `sample_view`: no call leaves the block, and `Histo` is what is in use of it.
-/

namespace Brubeck

/-- `struct brubeck_histo`, with the block `values` points to. -/
structure HistoArray where
  values : List Value
  count : Nat
  alloc : Nat
  size : Nat

namespace HistoArray

def zero : HistoArray := { values := [], count := 0, alloc := 0, size := 0 }

/-- `xrealloc`: the old values, and whatever was in the memory behind them. -/
def realloc (block : List Value) (alloc : Nat) (junk : Nat → Value) : List Value :=
  (List.range alloc).map fun i => block.getD i (junk i)

/-- `histo->values[histo->size++] = value`. -/
def store (histo : HistoArray) (value : Value) : Option HistoArray :=
  if histo.size < histo.values.length then
    some { histo with values := histo.values.set histo.size value, size := (histo.size + 1) % 2 ^ 16 }
  else none

def newSize (alloc : Nat) : Nat :=
  let new_size := alloc * 2
  let new_size := if USHRT_MAX < new_size then USHRT_MAX else new_size
  if new_size < HISTO_INIT_SIZE then HISTO_INIT_SIZE else new_size

/-- `brubeck_histo_push`. -/
def push (histo : HistoArray) (value sample_freq : Value) (junk : Nat → Value) : Option HistoArray :=
  let histo := { histo with count := (Rat.floor (histo.count + sample_freq)).toNat % 2 ^ 32 }
  if histo.size = histo.alloc then
    if histo.size = USHRT_MAX then some histo
    else
      let new_size := newSize histo.alloc
      let histo :=
        if new_size ≠ histo.alloc then
          { histo with
            alloc := new_size % 2 ^ 16
            values := realloc histo.values (new_size % 2 ^ 16) junk }
        else histo
      histo.store value
  else histo.store value

/-- The rank that `histo_percentile` looks up, from one on. -/
def irank (size : Nat) (rank : Value) : Nat := (Rat.floor (rank * size + 1 / 2)).toNat

/-- `irank - 1`, as a `size_t`. -/
def rankIndex (size : Nat) (rank : Value) : Nat := (irank size rank + (2 ^ 64 - 1)) % 2 ^ 64

def percentile (histo : HistoArray) (rank : Value) : Option Value :=
  histo.values[rankIndex histo.size rank]?

def sum (histo : HistoArray) : Value := (histo.values.take histo.size).foldl (· + ·) 0

/-- `qsort` of the first `size` values. -/
def sort (histo : HistoArray) : HistoArray :=
  { histo with
    values := (histo.values.take histo.size).mergeSort (fun a b => decide (a ≤ b)) ++
      histo.values.drop histo.size }

/-- `brubeck_histo_sample`. -/
def sample (histo : HistoArray) : Option (HistoSample × HistoArray) :=
  if histo.size = 0 then some (⟨0, 0, 0, 0, 0, 0, 0, 0, 0, 0, 0⟩, histo)
  else do
    let histo := histo.sort
    let min ← histo.values[0]?
    let max ← histo.values[histo.size - 1]?
    let median ← histo.percentile (1 / 2)
    let percentile75 ← histo.percentile (3 / 4)
    let percentile95 ← histo.percentile (19 / 20)
    let percentile98 ← histo.percentile (49 / 50)
    let percentile99 ← histo.percentile (99 / 100)
    let percentile999 ← histo.percentile (999 / 1000)
    some
      ({ sum := histo.sum
         min := min
         max := max
         mean := histo.sum / histo.size
         median := median
         count := histo.count
         percentile75 := percentile75
         percentile95 := percentile95
         percentile98 := percentile98
         percentile99 := percentile99
         percentile999 := percentile999 },
       { histo with size := 0, count := 0 })

/-! ## What holds between two calls -/

structure Bounded (histo : HistoArray) : Prop where
  block : histo.values.length = histo.alloc
  size_le : histo.size ≤ histo.alloc
  alloc_le : histo.alloc ≤ USHRT_MAX

structure Fits (histo : HistoArray) : Prop extends histo.Bounded where
  empty : histo.size = 0 → histo.count = 0

/-- The values in use. -/
def view (histo : HistoArray) : Histo := ⟨histo.values.take histo.size, histo.count, histo.alloc⟩

theorem fits_zero : zero.Fits where
  block := rfl
  size_le := Nat.le_refl 0
  alloc_le := Nat.zero_le _
  empty := fun _ => rfl

theorem length_used {histo : HistoArray} (h : histo.Bounded) :
    (histo.values.take histo.size).length = histo.size := by
  rw [List.length_take, h.block]
  exact Nat.min_eq_left h.size_le

/-! ## Pushing -/

theorem newSize_eq (alloc : Nat) : newSize alloc = Histo.grow alloc := by
  have hinit : HISTO_INIT_SIZE = 16 := rfl
  have hmax : USHRT_MAX = 65535 := rfl
  unfold newSize Histo.grow
  by_cases hbig : USHRT_MAX < alloc * 2
  · simp only [hbig, if_true]
    split <;> omega
  · simp only [hbig, if_false]
    split <;> omega

theorem grow_bounds {alloc : Nat} (h : alloc < USHRT_MAX) :
    alloc < Histo.grow alloc ∧ Histo.grow alloc ≤ USHRT_MAX := by
  have hinit : HISTO_INIT_SIZE = 16 := rfl
  have hmax : USHRT_MAX = 65535 := rfl
  unfold Histo.grow
  omega

theorem realloc_length (block : List Value) (alloc : Nat) (junk : Nat → Value) :
    (realloc block alloc junk).length = alloc := by
  simp [realloc]

/-- The old values stay where they were. -/
theorem take_realloc {block : List Value} {alloc : Nat} (h : block.length ≤ alloc)
    (junk : Nat → Value) : (realloc block alloc junk).take block.length = block := by
  apply List.ext_getElem
  · simp [realloc]
    omega
  · intro i h₁ h₂
    simp [realloc, h₂]

theorem store_view {histo : HistoArray} (h : histo.Bounded) (hroom : histo.size < histo.alloc)
    (value : Value) :
    ∃ histo', histo.store value = some histo' ∧ histo'.Fits ∧
      histo'.view = { histo.view with values := histo.view.values ++ [value] } := by
  have hlt : histo.size < histo.values.length := by rw [h.block]; exact hroom
  have hmax : USHRT_MAX = 65535 := rfl
  have hle := h.alloc_le
  have hsize : (histo.size + 1) % 2 ^ 16 = histo.size + 1 := Nat.mod_eq_of_lt (by omega)
  have hstore : histo.store value = some
      { histo with values := histo.values.set histo.size value, size := histo.size + 1 } := by
    rw [store, if_pos hlt, hsize]
  have htake : (histo.values.set histo.size value).take histo.size = histo.values.take histo.size := by
    rw [List.take_set, List.set_eq_of_length_le (List.length_take_le _ _)]
  refine ⟨_, hstore, ⟨⟨by simp [h.block], hroom, hle⟩, fun hzero => by cases hzero⟩, ?_⟩
  simp only [view]
  rw [List.take_add_one, List.getElem?_set_self hlt, htake]
  rfl

/-- The block after it has grown holds the same values. -/
theorem grown_view {values : List Value} (count : Nat) {alloc alloc' : Nat} (h : values.length = alloc)
    (halloc : alloc ≤ alloc') (hmax : alloc' ≤ USHRT_MAX) (junk : Nat → Value) :
    Bounded ⟨realloc values alloc' junk, count, alloc', alloc⟩ ∧
      view ⟨realloc values alloc' junk, count, alloc', alloc⟩ = ⟨values, count, alloc'⟩ := by
  refine ⟨⟨realloc_length .., halloc, hmax⟩, ?_⟩
  have htake := take_realloc (h.trans_le halloc) junk
  rw [h] at htake
  simp only [view, htake]

theorem push_view {histo : HistoArray} (h : histo.Fits) (value sample_freq : Value)
    (junk : Nat → Value) :
    ∃ histo', histo.push value sample_freq junk = some histo' ∧ histo'.Fits ∧
      histo'.view = histo.view.push value sample_freq := by
  have hmax : USHRT_MAX = 65535 := rfl
  have hlen : histo.view.values.length = histo.size := length_used h.toBounded
  have hle := h.size_le
  have hleMax := h.alloc_le
  have hblock := h.block
  obtain ⟨values, count, alloc, size⟩ := histo
  simp only at hle hleMax hblock
  simp only [push, Histo.push, hlen]
  simp only [view]
  generalize (Rat.floor (count + sample_freq)).toNat % 2 ^ 32 = count
  by_cases hfull : size = alloc
  · subst hfull
    have htake : values.take size = values := List.take_of_length_le (by omega)
    simp only [if_true, htake]
    by_cases hcap : size = USHRT_MAX
    · -- the array cannot grow, and the value is dropped
      simp only [if_pos hcap]
      exact ⟨_, rfl, ⟨⟨hblock, hle, hleMax⟩, fun hzero => by simp only at hzero; omega⟩, by simp [htake]⟩
    · obtain ⟨hgrow, hgrowMax⟩ := grow_bounds (show size < USHRT_MAX by omega)
      have hmod : Histo.grow size % 2 ^ 16 = Histo.grow size := Nat.mod_eq_of_lt (by omega)
      have hne : Histo.grow size ≠ size := by omega
      obtain ⟨hbounded, hview⟩ := grown_view count hblock hgrow.le hgrowMax junk
      obtain ⟨histo', hstore, hfits, heq⟩ := store_view hbounded hgrow value
      rw [hview] at heq
      simp only [if_neg hcap, newSize_eq, ne_eq, hne, not_false_eq_true, if_true, hmod]
      exact ⟨histo', hstore, hfits, heq⟩
  · simp only [hfull, if_false]
    have hroom : size < alloc := lt_of_le_of_ne hle hfull
    exact @store_view ⟨values, count, alloc, size⟩ ⟨hblock, hle, hleMax⟩ hroom value

/-! ## Sampling -/

theorem irank_bounds {size : Nat} (hpos : 0 < size) {rank : Value} (hlow : 1 / 2 ≤ rank)
    (hhigh : rank ≤ 1) : 1 ≤ irank size rank ∧ irank size rank ≤ size := by
  have hsize : (1 : Value) ≤ size := by exact_mod_cast hpos
  have hone : (1 : Int) ≤ Rat.floor (rank * size + 1 / 2) := by
    show 1 ≤ ⌊rank * size + 1 / 2⌋
    rw [Int.le_floor]
    push_cast
    nlinarith
  have hle : Rat.floor (rank * size + 1 / 2) ≤ (size : Int) := by
    show ⌊rank * size + 1 / 2⌋ ≤ (size : Int)
    rw [← Int.lt_add_one_iff, Int.floor_lt]
    push_cast
    nlinarith
  unfold irank
  omega

/-- The index of a rank from one half to one is the index of a value in use. -/
theorem rankIndex_eq {size : Nat} (hpos : 0 < size) (hmax : size ≤ USHRT_MAX) {rank : Value}
    (hlow : 1 / 2 ≤ rank) (hhigh : rank ≤ 1) : rankIndex size rank + 1 = irank size rank := by
  obtain ⟨hone, hle⟩ := irank_bounds hpos hlow hhigh
  have hushrt : USHRT_MAX = 65535 := rfl
  unfold rankIndex
  omega

theorem length_sort {histo : HistoArray} (h : histo.Bounded) :
    histo.view.sort.values.length = histo.size := by
  rw [Histo.sort, List.length_mergeSort]
  exact length_used h

theorem sort_getElem? {histo : HistoArray} (h : histo.Bounded) {i : Nat} (hi : i < histo.size) :
    histo.sort.values[i]? = some (histo.view.sort.values.getD i 0) := by
  have hlt : i < histo.view.sort.values.length := by rw [length_sort h]; exact hi
  show (histo.view.sort.values ++ histo.values.drop histo.size)[i]? = _
  rw [List.getElem?_append_left hlt, List.getD_eq_getElem?_getD, List.getElem?_eq_getElem hlt]
  rfl

theorem sort_percentile {histo : HistoArray} (h : histo.Bounded) (hpos : 0 < histo.size) {rank : Value}
    (hlow : 1 / 2 ≤ rank) (hhigh : rank ≤ 1) :
    histo.sort.percentile rank = some (histo.view.sort.percentile rank) := by
  obtain ⟨-, hle⟩ := irank_bounds hpos hlow hhigh
  have hindex := rankIndex_eq hpos (h.size_le.trans h.alloc_le) hlow hhigh
  have hrank : irank histo.size rank - 1 = rankIndex histo.size rank := by omega
  show histo.sort.values[rankIndex histo.size rank]? = _
  rw [sort_getElem? h (by omega), ← hrank, Histo.percentile, length_sort h]
  rfl

theorem sample_view {histo : HistoArray} (h : histo.Fits) :
    ∃ histo', histo.sample = some (histo.view.sample.1, histo') ∧ histo'.Fits ∧
      histo'.view = histo.view.sample.2 := by
  have hlen := length_used h.toBounded
  by_cases hzero : histo.size = 0
  · have hempty : histo.view.values = [] := by simp [view, hzero]
    refine ⟨histo, ?_, h, ?_⟩
    · simp only [sample, if_pos hzero, Histo.sample, if_pos hempty]
    · simp only [Histo.sample, if_pos hempty]
  · have hpos := Nat.pos_of_ne_zero hzero
    have hne : histo.view.values ≠ [] := by
      intro hnil
      exact hzero (by rw [← hlen]; exact congrArg List.length hnil)
    have hfirst : histo.view.sort.values.getD 0 0 = histo.view.sort.values.headD 0 := by
      cases histo.view.sort.values <;> rfl
    have hlast : histo.view.sort.values.getD (histo.size - 1) 0 =
        histo.view.sort.values.getLastD 0 := by
      rw [← length_sort h.toBounded, List.getLastD_eq_getLast?, List.getLast?_eq_getElem?,
        List.getD_eq_getElem?_getD]
    have hsum : histo.sort.sum = histo.view.sort.sum := by
      show ((histo.view.sort.values ++ histo.values.drop histo.size).take histo.size).foldl (· + ·) 0 = _
      rw [List.take_left' (length_sort h.toBounded)]
      rfl
    have hsize : histo.sort.size = histo.size := rfl
    have hcount : histo.sort.count = histo.view.sort.count := rfl
    have hper := fun rank => @sort_percentile histo h.toBounded hpos rank
    refine ⟨{ histo.sort with size := 0, count := 0 }, ?_, ⟨⟨?_, Nat.zero_le _, h.alloc_le⟩,
      fun _ => rfl⟩, ?_⟩
    · simp only [sample, if_neg hzero, Histo.sample, if_neg hne, hsize, hcount, hsum,
        sort_getElem? h.toBounded hpos, sort_getElem? h.toBounded (Nat.sub_lt hpos Nat.one_pos),
        hper (1 / 2) (by norm_num) (by norm_num),
        hper (3 / 4) (by norm_num) (by norm_num),
        hper (19 / 20) (by norm_num) (by norm_num),
        hper (49 / 50) (by norm_num) (by norm_num),
        hper (99 / 100) (by norm_num) (by norm_num),
        hper (999 / 1000) (by norm_num) (by norm_num),
        hfirst, hlast, length_sort h.toBounded]
      rfl
    · show (histo.view.sort.values ++ histo.values.drop histo.size).length = histo.alloc
      rw [List.length_append, length_sort h.toBounded, List.length_drop, h.block]
      have := h.size_le
      omega
    · rw [Histo.sample, if_neg hne]
      rfl

end HistoArray
end Brubeck
