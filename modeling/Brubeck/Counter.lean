import Brubeck.Lib.Machine
import Brubeck.Server
import Mathlib.Algebra.Order.Field.Rat
import Mathlib.Data.List.Chain

/-!
# Brubeck.Counter

Metrics of type `C`: a client sends the readings of a counter of its own, and brubeck adds up how
much it has gone up between two readings. `counter__record` takes a previous reading of zero for no
reading at all.

* `counted`: what the code adds up over a list of readings, from the previous one on.
* `counted_missed`: that is everything but the increases from zero.
* `counter_reports_iff`: over any run of readings and samples, when nothing is missing.
-/

namespace Brubeck
namespace Metric

open Lib

/-! ## Runs of one metric -/

inductive Turn where
  | record (value sample_freq : Value) (modifiers : UInt8)
  | sample (stats : InternalStats) (sample_freq : Int)

/-- One call of `brubeck_metric_record` or `brubeck_metric_sample`, with the values that are handed to
the sample callback. -/
def turn (metric : Metric) : Turn → Option (Metric × List Value)
  | .record value sample_freq modifiers => (metric.record value sample_freq modifiers).map (·, [])
  | .sample stats sample_freq =>
    let (out, metric, _) := metric.sample stats sample_freq
    some (metric, out.map Prod.snd)

def Turn.reading : Turn → List Value
  | .record value sample_freq _ => [value * sample_freq]
  | .sample .. => []

/-- The scaled readings of a run. -/
def readings (turns : List Turn) : List Value := turns.flatMap Turn.reading

/-! ## Increases -/

/-- How much a counter has gone up between two readings. After a restart it has gone up from zero. -/
def increase (old new : Value) : Value := if old ≤ new then new - old else new

/-- The sum of the increases of a list of readings. -/
def increases : List Value → Value
  | old :: new :: rest => increase old new + increases (new :: rest)
  | _ => 0

/-- What the code adds up, when the last reading was `previous`. -/
def counted (previous : Value) : List Value → Value
  | [] => 0
  | new :: rest => (if 0 < previous then increase previous new else 0) + counted new rest

/-- The readings that come right after a reading of zero. -/
def missed : List Value → Value
  | old :: new :: rest => (if old = 0 then new else 0) + missed (new :: rest)
  | _ => 0

theorem counted_missed (v : Value) (rest : List Value) (h : ∀ w ∈ v :: rest, 0 ≤ w) :
    counted v rest + missed (v :: rest) = increases (v :: rest) := by
  induction rest generalizing v with
  | nil => simp [counted, missed, increases]
  | cons w rest ih =>
    have ih := ih w fun x hx => h x (List.mem_cons_of_mem v hx)
    have hv : 0 ≤ v := h v List.mem_cons_self
    have hw : 0 ≤ w := h w (by simp)
    unfold counted missed increases
    rw [← ih]
    by_cases hzero : v = 0
    · simp [hzero, increase, hw]
      ring
    · have hpos : 0 < v := lt_of_le_of_ne hv (Ne.symm hzero)
      simp [hzero, hpos]
      ring

theorem missed_nonneg {vs : List Value} (h : ∀ v ∈ vs, 0 ≤ v) : 0 ≤ missed vs := by
  induction vs with
  | nil => simp [missed]
  | cons v vs ih =>
    cases vs with
    | nil => simp [missed]
    | cons w vs =>
      have hw : 0 ≤ w := h w (by simp)
      have hrest := ih fun x hx => h x (List.mem_cons_of_mem v hx)
      unfold missed
      split
      · exact add_nonneg hw hrest
      · simpa using hrest

/-- Nothing is missed exactly when a reading of zero is never followed by another one. -/
theorem missed_eq_zero {vs : List Value} (h : ∀ v ∈ vs, 0 ≤ v) :
    missed vs = 0 ↔ vs.IsChain fun old new => old = 0 → new = 0 := by
  induction vs with
  | nil => simp [missed]
  | cons v vs ih =>
    cases vs with
    | nil => simp [missed]
    | cons w vs =>
      have hw : 0 ≤ w := h w (by simp)
      have hmem : ∀ x ∈ w :: vs, 0 ≤ x := fun x hx => h x (List.mem_cons_of_mem v hx)
      have hrest := missed_nonneg hmem
      rw [List.isChain_cons_cons, ← ih hmem, missed]
      by_cases hzero : v = 0
      · simp [hzero, add_eq_zero_iff_of_nonneg hw hrest]
      · simp [hzero]

/-! ## Runs of a counter -/

theorem turn_counter {metric : Metric} (h : metric.type = .counter) (t : Turn) :
    ∃ metric' out, metric.turn t = some (metric', out) ∧ metric'.type = .counter ∧
      metric'.as.previous = (t.reading.getLast?).getD metric.as.previous ∧
      out.sum + metric'.as.value = metric.as.value + counted metric.as.previous t.reading := by
  cases t with
  | record value sample_freq modifiers =>
    have hone : metric.turn (.record value sample_freq modifiers) =
        some ({ metric with as := counterRecord metric.as value sample_freq modifiers }, []) := by
      simp [turn, record, protoRecord, h]
    refine ⟨_, _, hone, h, by simp [counterRecord, Turn.reading], ?_⟩
    simp only [counterRecord, Turn.reading, counted, increase, List.sum_nil, zero_add, add_zero]
    split
    · rfl
    · rw [add_zero]
  | sample stats sample_freq =>
    refine ⟨_, _, rfl, ?_⟩
    simp [h, drainSample, Turn.reading, counted]

theorem counted_append (previous : Value) (vs ws : List Value) :
    counted previous (vs ++ ws) = counted previous vs + counted (vs.getLast?.getD previous) ws := by
  induction vs generalizing previous with
  | nil => simp [counted]
  | cons v vs ih =>
    rw [List.cons_append, counted, counted, ih, ← add_assoc]
    cases vs with
    | nil => simp
    | cons w vs => simp [List.getLast?_cons]

/-- What a run hands out and what it leaves is what `counted` says. -/
theorem run_counter (metric : Metric) (h : metric.type = .counter) (turns : List Turn) :
    ∃ metric' out, Machine.run turn metric turns = some (metric', out) ∧
      out.sum + metric'.as.value =
        metric.as.value + counted metric.as.previous (readings turns) := by
  induction turns generalizing metric with
  | nil => exact ⟨metric, [], rfl, by simp [readings, counted]⟩
  | cons t turns ih =>
    obtain ⟨metric₁, out₁, hone, htype, hprevious, hbalance⟩ := turn_counter h t
    obtain ⟨metric₂, out₂, hrun, hrest⟩ := ih metric₁ htype
    refine ⟨metric₂, out₁ ++ out₂, Machine.run_step hone hrun, ?_⟩
    have hreadings : readings (t :: turns) = t.reading ++ readings turns := rfl
    rw [hreadings, counted_append, ← hprevious, List.sum_append, add_assoc, hrest, ← add_assoc, hbalance,
      add_assoc]

/-- A fresh counter reports every increase exactly when a reading of zero is never followed by a
reading that is not zero: that increase, and no other, is lost. -/
theorem counter_reports_iff (key : Key) {turns : List Turn} (h : ∀ v ∈ readings turns, 0 ≤ v) :
    ∃ metric out, Machine.run turn (Server.newMetric key .counter) turns = some (metric, out) ∧
      (out.sum + metric.as.value = increases (readings turns) ↔
        (readings turns).IsChain fun old new => old = 0 → new = 0) := by
  obtain ⟨metric, out, hrun, hbalance⟩ := run_counter (Server.newMetric key .counter) rfl turns
  refine ⟨metric, out, hrun, ?_⟩
  rw [hbalance, ← missed_eq_zero h]
  show 0 + counted 0 (readings turns) = _ ↔ _
  cases hvs : readings turns with
  | nil => simp [counted, increases, missed]
  | cons v vs =>
    rw [hvs] at h
    rw [← counted_missed v vs h, counted, if_neg (lt_irrefl 0), zero_add, zero_add]
    simp

/-- Four readings of a client that restarts once, sampled after the third. -/
def restarted (first : Value) : List Turn :=
  [.record first 1 0, .record 7 1 0, .record 2 (1 / 2) 0,
    .sample ⟨0, ⟨0, 0, 0, 0, 0, 0, 0⟩, ⟨0, 0, 0, 0, 0, 0, 0⟩⟩ 10, .record 4 1 0]

theorem counter_reports_iff_restarted :
    ∃ metric out, Machine.run turn (Server.newMetric [97] .counter) (restarted 5) = some (metric, out) ∧
      out.sum + metric.as.value = 6 := by
  have hreadings : readings (restarted 5) = [5, 7, 1, 4] := by
    norm_num [readings, restarted, Turn.reading]
  have hpos : ∀ v ∈ readings (restarted 5), 0 ≤ v := by
    rw [hreadings]
    simp
  obtain ⟨metric, out, hrun, hiff⟩ := counter_reports_iff [97] hpos
  refine ⟨metric, out, hrun, (hiff.mpr ?_).trans ?_⟩
  · rw [hreadings]
    simp
  · rw [hreadings]
    norm_num [increases, increase]

/-- The same client, but that its first reading is zero: the seven it has counted by the second one
are not reported. -/
theorem counter_misses_start :
    increases (readings (restarted 0)) = 11 ∧
      ∃ metric out, Machine.run turn (Server.newMetric [97] .counter) (restarted 0) = some (metric, out) ∧
        out.sum + metric.as.value = 4 := by
  have hreadings : readings (restarted 0) = [0, 7, 1, 4] := by
    norm_num [readings, restarted, Turn.reading]
  refine ⟨by rw [hreadings]; norm_num [increases, increase], ?_⟩
  obtain ⟨metric, out, hrun, hbalance⟩ :=
    run_counter (Server.newMetric [97] .counter) rfl (restarted 0)
  refine ⟨metric, out, hrun, hbalance.trans ?_⟩
  rw [hreadings]
  norm_num [counted, increase, Server.newMetric, As.zero]

end Metric
end Brubeck
