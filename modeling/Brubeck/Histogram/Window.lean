import Brubeck.Histogram.Array
import Brubeck.Lib.Machine
import Brubeck.Lib.Rank
import Brubeck.Order
import Mathlib.Algebra.Order.BigOperators.Group.List

/-!
# Brubeck.Histogram.Window

What a sample of a histogram says about the values pushed since the last one.

* `Describes`: the statistics of a list of values, none of them by the way it is computed.
* `sample_describes`: that is what `Histo.sample` gives.
* `histogram_windows`: any sequence of pushes and samples of the array.
-/

namespace Brubeck

open Lib HistoArray

/-- The ranks that `brubeck_histo_sample` asks for. -/
def ranks : List Value := [1 / 2, 3 / 4, 19 / 20, 49 / 50, 99 / 100, 999 / 1000]

structure Describes (values : List Value) (s : HistoSample) : Prop where
  sum : s.sum = values.sum
  mean : s.mean = values.sum / values.length
  min : s.min ∈ values ∧ ∀ v ∈ values, s.min ≤ v
  max : s.max ∈ values ∧ ∀ v ∈ values, v ≤ s.max
  index : ∀ rank ∈ ranks, rankIndex values.length rank < values.length ∧
    rankIndex values.length rank + 1 = irank values.length rank
  median : IsRank values (irank values.length (1 / 2)) s.median
  percentile75 : IsRank values (irank values.length (3 / 4)) s.percentile75
  percentile95 : IsRank values (irank values.length (19 / 20)) s.percentile95
  percentile98 : IsRank values (irank values.length (49 / 50)) s.percentile98
  percentile99 : IsRank values (irank values.length (99 / 100)) s.percentile99
  percentile999 : IsRank values (irank values.length (999 / 1000)) s.percentile999
  ordered : [s.min, s.median, s.percentile75, s.percentile95, s.percentile98, s.percentile99,
    s.percentile999, s.max].IsChain (· ≤ ·)
  between : s.min ≤ s.mean ∧ s.mean ≤ s.max

namespace Histo

/-! ## The sorted values -/

/-- The sorted values are the order statistics. -/
theorem isRank_getD (histo : Histo) {k : Nat} (hk : k < histo.values.length) :
    IsRank histo.values (k + 1) (histo.sort.values.getD k 0) := by
  have hlt : k < histo.sort.values.length := by rw [histo.sort_perm.length_eq]; exact hk
  have hrank := isRank_of_sorted histo.sort_sorted hlt
  rw [List.getD_eq_getElem?_getD, List.getElem?_eq_getElem hlt]
  exact hrank.perm histo.sort_perm

theorem irank_mono (size : Nat) {rank rank' : Value} (h : rank ≤ rank') :
    irank size rank ≤ irank size rank' := by
  have hle : Rat.floor (rank * size + 1 / 2) ≤ Rat.floor (rank' * size + 1 / 2) := by
    show ⌊rank * size + 1 / 2⌋ ≤ ⌊rank' * size + 1 / 2⌋
    apply Int.floor_le_floor
    have : (0 : Value) ≤ size := Nat.cast_nonneg size
    nlinarith
  exact Int.toNat_le_toNat hle

/-! ## The statistics -/

theorem sum_eq (histo : Histo) : histo.sort.sum = histo.values.sum := by
  rw [sum, ← List.sum_eq_foldl]
  exact histo.sort_perm.sum_eq

theorem isRank_percentile {histo : Histo} (h : histo.values ≠ []) {rank : Value} (hlow : 1 / 2 ≤ rank)
    (hhigh : rank ≤ 1) :
    IsRank histo.values (irank histo.values.length rank) (histo.sort.percentile rank) := by
  obtain ⟨hone, hle⟩ := irank_bounds (List.length_pos_iff.mpr h) hlow hhigh
  obtain ⟨k, hk⟩ : ∃ k, irank histo.values.length rank = k + 1 := ⟨_, (Nat.sub_add_cancel hone).symm⟩
  have hrank : histo.sort.percentile rank = histo.sort.values.getD k 0 := by
    rw [percentile, histo.sort_perm.length_eq]
    show histo.sort.values.getD (irank histo.values.length rank - 1) 0 = _
    rw [hk, Nat.add_sub_cancel]
  rw [hrank, hk]
  exact histo.isRank_getD (by omega)

theorem isRank_min {histo : Histo} (h : histo.values ≠ []) :
    IsRank histo.values 1 (histo.sort.values.headD 0) := by
  have hfirst : histo.sort.values.headD 0 = histo.sort.values.getD 0 0 := by
    cases histo.sort.values <;> rfl
  rw [hfirst]
  exact histo.isRank_getD (List.length_pos_iff.mpr h)

theorem isRank_max {histo : Histo} (h : histo.values ≠ []) :
    IsRank histo.values histo.values.length (histo.sort.values.getLastD 0) := by
  have hpos := List.length_pos_iff.mpr h
  have hlast : histo.sort.values.getLastD 0 = histo.sort.values.getD (histo.values.length - 1) 0 := by
    rw [← histo.sort_perm.length_eq, List.getLastD_eq_getLast?, List.getLast?_eq_getElem?,
      List.getD_eq_getElem?_getD]
  have hrank := histo.isRank_getD (Nat.sub_lt hpos Nat.one_pos)
  rw [Nat.sub_add_cancel hpos] at hrank
  rw [hlast]
  exact hrank

/-- The mean is between any two bounds of the values. -/
theorem mean_between {values : List Value} (h : values ≠ []) {low high : Value}
    (hlow : ∀ v ∈ values, low ≤ v) (hhigh : ∀ v ∈ values, v ≤ high) :
    low ≤ values.sum / values.length ∧ values.sum / values.length ≤ high := by
  have hpos : (0 : Value) < values.length := by exact_mod_cast List.length_pos_iff.mpr h
  have hsumLow := List.card_nsmul_le_sum values low hlow
  have hsumHigh := List.sum_le_card_nsmul values high hhigh
  rw [nsmul_eq_mul] at hsumLow hsumHigh
  constructor
  · rw [le_div_iff₀ hpos, mul_comm]
    exact hsumLow
  · rw [div_le_iff₀ hpos, mul_comm]
    exact hsumHigh

theorem sample_describes {histo : Histo} (h : histo.values ≠ [])
    (hmax : histo.values.length ≤ USHRT_MAX) : Describes histo.values histo.sample.1 := by
  have hpos := List.length_pos_iff.mpr h
  have hlen := histo.sort_perm.length_eq
  have hrange : ∀ rank ∈ ranks, 1 / 2 ≤ rank ∧ rank ≤ 1 := by
    simp only [ranks, List.forall_mem_cons]
    norm_num
  have hmin := isRank_min h
  have hmaxRank := isRank_max h
  have hper : ∀ rank ∈ ranks,
      IsRank histo.values (irank histo.values.length rank) (histo.sort.percentile rank) :=
    fun rank hr => isRank_percentile h (hrange rank hr).1 (hrange rank hr).2
  have hsum := histo.sum_eq
  rw [sample, if_neg h]
  have h50 := hper (1 / 2) (by simp [ranks])
  have h75 := hper (3 / 4) (by simp [ranks])
  have h95 := hper (19 / 20) (by simp [ranks])
  have h98 := hper (49 / 50) (by simp [ranks])
  have h99 := hper (99 / 100) (by simp [ranks])
  have h999 := hper (999 / 1000) (by simp [ranks])
  have hmono := @irank_mono histo.values.length
  refine ⟨hsum, ?_, ⟨hmin.mem, fun v => hmin.first⟩, ⟨hmaxRank.mem, fun v => hmaxRank.last⟩, ?_,
    h50, h75, h95, h98, h99, h999, ?_, ?_⟩
  · simp only [hsum, hlen]
  · intro rank hr
    obtain ⟨hlow, hhigh⟩ := hrange rank hr
    have hindex := rankIndex_eq hpos hmax hlow hhigh
    have := (irank_bounds hpos hlow hhigh).2
    exact ⟨by omega, hindex⟩
  · simp only [List.isChain_cons_cons]
    exact ⟨hmin.first h50.mem, h50.le h75 (hmono (by norm_num)), h75.le h95 (hmono (by norm_num)),
      h95.le h98 (hmono (by norm_num)), h98.le h99 (hmono (by norm_num)),
      h99.le h999 (hmono (by norm_num)), hmaxRank.last h999.mem, .singleton _⟩
  · simp only [hsum, hlen]
    exact mean_between h (fun v => hmin.first) fun v => hmaxRank.last

theorem sample_empties (histo : Histo) : histo.sample.2.values = [] := by
  unfold sample
  split
  · assumption
  · rfl

end Histo

/-! ## Windows -/

namespace HistoArray

inductive Turn where
  | push (value sample_freq : Value) (junk : Nat → Value)
  | sample

/-- One call of `brubeck_histo_push` or `brubeck_histo_sample`. -/
def turn (histo : HistoArray) : Turn → Option (HistoArray × List HistoSample)
  | .push value sample_freq junk => (histo.push value sample_freq junk).map (·, [])
  | .sample => histo.sample.map fun (s, histo) => (histo, [s])

/-- The values pushed since the last sample. -/
def window (turns : List Turn) : List Value :=
  turns.foldl (fun values t =>
    match t with
    | .push value _ _ => values ++ [value]
    | .sample => []) []

theorem window_snoc (turns : List Turn) (t : Turn) :
    window (turns ++ [t]) = match t with
      | .push value _ _ => window turns ++ [value]
      | .sample => [] := by
  rw [window, List.foldl_append]
  cases t <;> rfl

/-- A full histogram drops what is pushed, so it keeps the first values. -/
theorem push_take {histo : Histo} {values : List Value} (h : histo.values = values.take USHRT_MAX)
    (hle : histo.values.length ≤ histo.alloc) (hmax : histo.alloc ≤ USHRT_MAX)
    (value sample_freq : Value) :
    (histo.push value sample_freq).values = (values ++ [value]).take USHRT_MAX := by
  have hlen : histo.values.length = min USHRT_MAX values.length := by rw [h, List.length_take]
  rcases Nat.lt_or_ge values.length USHRT_MAX with hlt | hge
  · rw [Histo.push_values (by omega), h, List.take_of_length_le hlt.le, List.take_of_length_le]
    rw [List.length_append, List.length_singleton]
    omega
  · have hfull : histo.values.length = USHRT_MAX := by omega
    have halloc : histo.values.length = histo.alloc := by omega
    have hdrop : (histo.push value sample_freq).values = histo.values := by
      simp only [Histo.push]
      rw [if_pos halloc, if_pos hfull]
    rw [hdrop, h, List.take_append_of_le_length hge]

/-- What holds after some turns. -/
structure Holds (turns : List Turn) (histo : HistoArray) : Prop extends histo.Fits where
  values : histo.view.values = (window turns).take USHRT_MAX

theorem turn_holds {turns : List Turn} {histo : HistoArray} (h : Holds turns histo) (t : Turn) :
    ∃ histo' out, histo.turn t = some (histo', out) ∧ Holds (turns ++ [t]) histo' := by
  cases t with
  | push value sample_freq junk =>
    obtain ⟨histo', hpush, hfits, hview⟩ := push_view h.toFits value sample_freq junk
    have hlen : histo.view.values.length = histo.size := length_used h.toBounded
    refine ⟨histo', [], by simp [turn, hpush], hfits, ?_⟩
    rw [hview, window_snoc]
    exact push_take h.values (by rw [hlen]; exact h.size_le) h.alloc_le value sample_freq
  | sample =>
    obtain ⟨histo', hsample, hfits, hview⟩ := sample_view h.toFits
    refine ⟨histo', [histo.view.sample.1], by simp [turn, hsample], hfits, ?_⟩
    rw [hview, window_snoc, List.take_nil]
    exact Histo.sample_empties histo.view

theorem run_holds (turns : List Turn) :
    ∃ histo out, Machine.run turn zero turns = some (histo, out) ∧ Holds turns histo := by
  induction turns using List.reverseRecOn with
  | nil => exact ⟨zero, [], rfl, fits_zero, rfl⟩
  | append_singleton turns t ih =>
    obtain ⟨histo, out, hrun, hholds⟩ := ih
    obtain ⟨histo', out', hone, hholds'⟩ := turn_holds hholds t
    exact ⟨histo', out ++ (out' ++ []), Machine.run_append hrun (Machine.run_step hone rfl), hholds'⟩

/-- For every sequence of pushes and samples of a zeroed histogram: no store and no read leaves the
array; the array never holds more than it has room for, and room for no more than 65535 values; an
empty histogram has counted nothing; and when it is not empty, a sample describes the first 65535
values pushed since the last one. It leaves an empty histogram. -/
theorem histogram_windows (turns : List Turn) :
    ∃ histo out, Machine.run turn zero turns = some (histo, out) ∧
      histo.values.length = histo.alloc ∧ histo.size ≤ histo.alloc ∧ histo.alloc ≤ 65535 ∧
      (histo.size = 0 → histo.count = 0) ∧
      histo.size = min (window turns).length 65535 ∧
      ∃ histo' s, histo.turn .sample = some (histo', [s]) ∧ histo'.size = 0 ∧ histo'.count = 0 ∧
        (0 < histo.size → Describes ((window turns).take 65535) s) := by
  obtain ⟨histo, out, hrun, hholds⟩ := run_holds turns
  have hlen : histo.view.values.length = histo.size := length_used hholds.toBounded
  obtain ⟨histo', hsample, hfits, hview⟩ := sample_view hholds.toFits
  refine ⟨histo, out, hrun, hholds.block, hholds.size_le, hholds.alloc_le, hholds.empty, ?_, histo',
    histo.view.sample.1, by simp [turn, hsample], ?_⟩
  · rw [← hlen, hholds.values, List.length_take, Nat.min_comm]
    rfl
  · have hempty : histo'.view.values = [] := by rw [hview, Histo.sample_empties]
    have hzero : histo'.size = 0 := by
      rw [← length_used hfits.toBounded]
      exact congrArg List.length hempty
    refine ⟨hzero, hfits.empty hzero, fun hpos => ?_⟩
    have hne : histo.view.values ≠ [] := by
      rw [← List.length_pos_iff, hlen]
      exact hpos
    have hdescribes := Histo.sample_describes hne
      (by rw [hlen]; exact hholds.size_le.trans hholds.alloc_le)
    rw [hholds.values] at hdescribes
    exact hdescribes

end HistoArray
end Brubeck
