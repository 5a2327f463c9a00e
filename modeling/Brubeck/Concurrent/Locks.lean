import Brubeck.Histogram.Array
import Brubeck.Lib.Lock
import Brubeck.Metric
import Mathlib.Data.List.Forall2

/-!
# Brubeck.Concurrent.Locks

`metric.c` and `histogram.c` one memory access at a time, between `pthread_spin_lock` and
`pthread_spin_unlock`. Any number of workers record and any number of backends sample at once.

* `Histogram.push`, `Histogram.sample`, `recordCode`, `sampleCode`: the code under the lock, in loads
  and stores.
* `serialStep`: the same calls on `Metric`, each of them in one step.
* `locked_runs`: every interleaving of the accesses is a serial run of `Metric.record` and
  `Metric.sample`, and no access leaves the block of a histogram.
* `meter_interleaved`: no interleaving loses or repeats what was recorded to a meter.
-/

namespace Brubeck
namespace Locks

open Lib Lib.Lock Lib.Lock.Code

/-! ## Histograms -/

namespace Histogram

open HistoArray

/-- `histo->values[histo->size++] = value`; `none` is a store outside the block. -/
def store (value : Value) : Code HistoArray (Option Unit) := do
  let size ← load fun h => h.size
  Code.store fun h => { h with size := (size + 1) % 2 ^ 16 }
  let inside ← load fun h => decide (size < h.values.length)
  if inside then
    Code.store fun h => { h with values := h.values.set size value }
    pure (some ())
  else pure none

/-- `brubeck_histo_push`. -/
def push (value sample_freq : Value) (junk : Nat → Value) : Code HistoArray (Option Unit) := do
  let count ← load fun h => h.count
  Code.store fun h => { h with count := (Rat.floor (count + sample_freq)).toNat % 2 ^ 32 }
  let size ← load fun h => h.size
  let alloc ← load fun h => h.alloc
  if size = alloc then
    let size ← load fun h => h.size
    if size = USHRT_MAX then pure (some ())
    else
      let alloc ← load fun h => h.alloc
      let new_size := newSize alloc
      let alloc ← load fun h => h.alloc
      if new_size ≠ alloc then
        Code.store fun h => { h with alloc := new_size % 2 ^ 16 }
        let values ← load fun h => h.values
        let alloc ← load fun h => h.alloc
        Code.store fun h => { h with values := realloc values alloc junk }
        store value
      else store value
  else store value

/-- `histo_percentile`. -/
def percentile (rank : Value) : Code HistoArray (Option Value) := do
  let size ← load fun h => h.size
  load fun h => h.values[rankIndex size rank]?

/-- The loop of `histo_sum`, which asks for the size in every round. The size is a `uint16_t`. -/
def sumFrom : (rounds i : Nat) → (sum : Value) → Code HistoArray (Option Value)
  | 0, _, sum => pure (some sum)
  | rounds + 1, i, sum => do
    let size ← load fun h => h.size
    if i < size then
      let value ← load fun h => h.values[i]?
      match value with
      | some value => sumFrom rounds (i + 1) (sum + value)
      | none => pure none
    else pure (some sum)

def sum : Code HistoArray (Option Value) := sumFrom (2 ^ 16) 0 0

/-- `brubeck_histo_sample`; `qsort` is the C library's, called with the size. -/
def sample (qsort : Nat → Code HistoArray Unit) : Code HistoArray (Option HistoSample) := do
  let size ← load fun h => h.size
  if size = 0 then pure (some ⟨0, 0, 0, 0, 0, 0, 0, 0, 0, 0, 0⟩)
  else
    let size ← load fun h => h.size
    qsort size
    let sum ← sum
    let min ← load fun h => h.values[0]?
    let size ← load fun h => h.size
    let max ← load fun h => h.values[size - 1]?
    let size ← load fun h => h.size
    let median ← percentile (1 / 2)
    let count ← load fun h => h.count
    let percentile75 ← percentile (3 / 4)
    let percentile95 ← percentile (19 / 20)
    let percentile98 ← percentile (49 / 50)
    let percentile99 ← percentile (99 / 100)
    let percentile999 ← percentile (999 / 1000)
    Code.store fun h => { h with size := 0 }
    Code.store fun h => { h with count := 0 }
    pure do
      let sum ← sum
      let min ← min
      let max ← max
      let median ← median
      let percentile75 ← percentile75
      let percentile95 ← percentile95
      let percentile98 ← percentile98
      let percentile99 ← percentile99
      let percentile999 ← percentile999
      some
        { sum := sum
          min := min
          max := max
          mean := sum / size
          median := median
          count := count
          percentile75 := percentile75
          percentile95 := percentile95
          percentile98 := percentile98
          percentile99 := percentile99
          percentile999 := percentile999 }

/-- What the C library promises of `qsort`: the first `size` values are in order, and nothing else
changes. -/
def Sorts (qsort : Nat → Code HistoArray Unit) : Prop :=
  ∀ histo : HistoArray, histo.Bounded → (qsort histo.size).exec histo = (histo.sort, ())

/-! ### What the code does when nothing comes between -/

theorem exec_store {histo histo' : HistoArray} {value : Value} (h : histo.store value = some histo') :
    (store value).exec histo = (histo', some ()) := by
  unfold HistoArray.store at h
  split at h
  · case _ hlt =>
    cases h
    simp [store, hlt]
  · cases h

theorem exec_push {histo histo' : HistoArray} {value sample_freq : Value} {junk : Nat → Value}
    (h : histo.push value sample_freq junk = some histo') :
    (push value sample_freq junk).exec histo = (histo', some ()) := by
  simp only [HistoArray.push] at h
  by_cases hfull : histo.size = histo.alloc
  · rw [if_pos hfull] at h
    by_cases hcap : histo.size = USHRT_MAX
    · rw [if_pos hcap] at h
      cases h
      simp only [push, exec_load_bind, exec_store_bind, if_pos hfull, if_pos hcap, exec_pure]
    · rw [if_neg hcap] at h
      by_cases hnew : newSize histo.alloc ≠ histo.alloc
      · rw [if_pos hnew] at h
        simp only [push, exec_load_bind, exec_store_bind, if_pos hfull, if_neg hcap, if_pos hnew]
        exact exec_store h
      · rw [if_neg hnew] at h
        simp only [push, exec_load_bind, exec_store_bind, if_pos hfull, if_neg hcap, if_neg hnew]
        exact exec_store h
  · rw [if_neg hfull] at h
    simp only [push, exec_load_bind, exec_store_bind, if_neg hfull]
    exact exec_store h

theorem exec_sumFrom {histo : HistoArray} (h : histo.Bounded) {rounds i : Nat} (sum : Value)
    (hi : histo.size ≤ i + rounds) :
    (sumFrom rounds i sum).exec histo =
      (histo, some (((histo.values.take histo.size).drop i).foldl (· + ·) sum)) := by
  induction rounds generalizing i sum with
  | zero =>
    have hdrop : (histo.values.take histo.size).drop i = [] := by
      rw [List.drop_eq_nil_iff, List.length_take]
      omega
    rw [hdrop]
    rfl
  | succ rounds ih =>
    by_cases hlt : i < histo.size
    · have hlen : i < histo.values.length := hlt.trans_le (h.block ▸ h.size_le)
      have hget : histo.values[i]? = some histo.values[i] := List.getElem?_eq_getElem hlen
      have hdrop : (histo.values.take histo.size).drop i =
          histo.values[i] :: (histo.values.take histo.size).drop (i + 1) := by
        rw [List.drop_eq_getElem_cons (by rw [List.length_take]; omega), List.getElem_take]
      rw [hdrop, List.foldl_cons, ← ih (sum + histo.values[i]) (by omega)]
      simp [sumFrom, hlt, hget]
    · have hdrop : (histo.values.take histo.size).drop i = [] := by
        rw [List.drop_eq_nil_iff, List.length_take]
        omega
      rw [hdrop]
      simp [sumFrom, hlt]

theorem exec_sum {histo : HistoArray} (h : histo.Bounded) :
    sum.exec histo = (histo, some histo.sum) := by
  have hmax : USHRT_MAX = 65535 := rfl
  have hsize := h.size_le.trans h.alloc_le
  rw [sum, exec_sumFrom h 0 (by omega), List.drop_zero]
  rfl

theorem exec_percentile_bind {R : Type} (histo : HistoArray) (rank : Value)
    (f : Option Value → Code HistoArray R) :
    (percentile rank >>= f).exec histo = (f (histo.percentile rank)).exec histo := by
  refine exec_bind_of ?_ f
  rw [percentile, exec_load_bind, exec_load, HistoArray.percentile]

theorem bounded_sort {histo : HistoArray} (h : histo.Bounded) : histo.sort.Bounded where
  block := by
    show (histo.view.sort.values ++ histo.values.drop histo.size).length = histo.alloc
    rw [List.length_append, length_sort h, List.length_drop, h.block]
    have := h.size_le
    omega
  size_le := h.size_le
  alloc_le := h.alloc_le

theorem exec_sample {qsort : Nat → Code HistoArray Unit} (hq : Sorts qsort) {histo histo' : HistoArray}
    {hsample : HistoSample} (hb : histo.Bounded) (h : histo.sample = some (hsample, histo')) :
    (sample qsort).exec histo = (histo', some hsample) := by
  unfold HistoArray.sample at h
  by_cases hzero : histo.size = 0
  · rw [if_pos hzero] at h
    cases h
    rw [sample, exec_load_bind, if_pos hzero, exec_pure]
  · rw [if_neg hzero] at h
    obtain ⟨min, hmin, h⟩ := Option.bind_eq_some_iff.mp h
    obtain ⟨max, hmax, h⟩ := Option.bind_eq_some_iff.mp h
    obtain ⟨median, hmedian, h⟩ := Option.bind_eq_some_iff.mp h
    obtain ⟨p75, h75, h⟩ := Option.bind_eq_some_iff.mp h
    obtain ⟨p95, h95, h⟩ := Option.bind_eq_some_iff.mp h
    obtain ⟨p98, h98, h⟩ := Option.bind_eq_some_iff.mp h
    obtain ⟨p99, h99, h⟩ := Option.bind_eq_some_iff.mp h
    obtain ⟨p999, h999, h⟩ := Option.bind_eq_some_iff.mp h
    cases h
    simp only [sample, exec_load_bind, if_neg hzero, exec_bind_of (hq histo hb),
      exec_bind_of (exec_sum (bounded_sort hb)), exec_percentile_bind, exec_store_bind, exec_pure, hmin, hmax, hmedian,
      h75, h95, h98, h99, h999]
    rfl

end Histogram

/-! ## Metrics -/

/-- The union `as`, with the block of its histogram. -/
structure Union where
  value : Value
  previous : Value
  histogram : HistoArray
  other : Bool

namespace Union

def view (mem : Union) : As := ⟨mem.value, mem.previous, mem.histogram.view, mem.other⟩

def withHistogram (mem : Union) (histogram : HistoArray) : Union := { mem with histogram := histogram }

def zero : Union := ⟨0, 0, .zero, false⟩

end Union

/-- What the code under the lock leaves to the code after it. -/
inductive Reply where
  | done
  | value (value : Value)
  | histo (hsample : HistoSample)

/-- Code of `histogram.c` on the member `histogram`. -/
def onHistogram {R : Type} (code : Code HistoArray R) : Code Union R :=
  code.focus Union.histogram Union.withHistogram

def gaugeRecord (value : Value) (modifiers : UInt8) : Code Union (Option Reply) :=
  if modifiers &&& MOD_RELATIVE_VALUE ≠ 0 then do
    let old ← load fun as => as.value
    store fun as => { as with value := old + value }
    pure (some .done)
  else do
    store fun as => { as with value := value }
    pure (some .done)

def gaugeSample : Code Union (Option Reply) := do
  let value ← load fun as => as.value
  pure (some (.value value))

def meterRecord (value sample_freq : Value) : Code Union (Option Reply) := do
  let old ← load fun as => as.value
  store fun as => { as with value := old + value * sample_freq }
  pure (some .done)

/-- `meter__sample` and `counter__sample`, which read alike. -/
def drainSample : Code Union (Option Reply) := do
  let value ← load fun as => as.value
  store fun as => { as with value := 0 }
  pure (some (.value value))

/-- The condition, the comparison and the subtraction each read `previous`. -/
def counterRecord (value sample_freq : Value) : Code Union (Option Reply) := do
  let value := value * sample_freq
  let previous ← load fun as => as.previous
  if 0 < previous then
    let previous ← load fun as => as.previous
    if previous ≤ value then
      let previous ← load fun as => as.previous
      let old ← load fun as => as.value
      store fun as => { as with value := old + (value - previous) }
      store fun as => { as with previous := value }
      pure (some .done)
    else
      let old ← load fun as => as.value
      store fun as => { as with value := old + value }
      store fun as => { as with previous := value }
      pure (some .done)
  else
    store fun as => { as with previous := value }
    pure (some .done)

def histogramRecord (value sample_freq : Value) (junk : Nat → Value) : Code Union (Option Reply) := do
  let pushed ← onHistogram (Histogram.push value sample_freq junk)
  pure (pushed.map fun _ => .done)

def histogramSample (qsort : Nat → Code HistoArray Unit) : Code Union (Option Reply) := do
  let hsample ← onHistogram (Histogram.sample qsort)
  pure (hsample.map .histo)

/-- `junk` is what a block holds behind the values that `xrealloc` moved; `sample_freq` of a sample is
the backend's. -/
inductive Op where
  | record (value sample_freq : Value) (modifiers : UInt8) (junk : Nat → Value)
  | sample (sample_freq : Int)

/-- The column `record` of `_prototypes`. The internal type has no function there, and its sample
function takes no lock. -/
def recordCode (type : MetricType) (value sample_freq : Value) (modifiers : UInt8)
    (junk : Nat → Value) : Code Union (Option Reply) :=
  match type with
  | .gauge => gaugeRecord value modifiers
  | .meter => meterRecord value sample_freq
  | .counter => counterRecord value sample_freq
  | .histo => histogramRecord value sample_freq junk
  | .timer => histogramRecord value sample_freq junk
  | .internalStats => pure none

def sampleCode (qsort : Nat → Code HistoArray Unit) (type : MetricType) : Code Union (Option Reply) :=
  match type with
  | .gauge => gaugeSample
  | .meter => drainSample
  | .counter => drainSample
  | .histo => histogramSample qsort
  | .timer => histogramSample qsort
  | .internalStats => pure none

def opCode (qsort : Nat → Code HistoArray Unit) (type : MetricType) : Op → Code Union (Option Reply)
  | .record value sample_freq modifiers junk => recordCode type value sample_freq modifiers junk
  | .sample _ => sampleCode qsort type

/-- The code of a call on the metric a pointer points to. The type and the key are written once, before
the pointer is shared. -/
def code (qsort : Nat → Code HistoArray Unit) (metrics : List Metric) (i : Nat) (op : Op) :
    Code Union (Option Reply) :=
  match metrics[i]? with
  | some metric => opCode qsort metric.type op
  | none => pure none

/-- What a call hands to its callback after it has given the lock back. -/
def report (metric : Metric) : Op → Reply → Metric.Samples
  | .sample _, .value value => [(metric.key, value)]
  | .sample sample_freq, .histo hsample =>
    (Metric.histogramFields hsample sample_freq).map fun (suffix, value) =>
      (metric.withSuffix suffix, value)
  | _, _ => []

/-! ## The calls in one step each -/

/-- A call on a metric. The stats of the server are the internal metric's alone. -/
def apply (stats : InternalStats) (metric : Metric) : Op → Option (Metric × Metric.Samples)
  | .record value sample_freq modifiers _ =>
    (metric.record value sample_freq modifiers).map fun metric => (metric, [])
  | .sample sample_freq =>
    let (out, metric, _) := metric.sample stats sample_freq
    some (metric, out)

def serialStep (stats : InternalStats) (metrics : List Metric) (call : Call Op) :
    Option (List Metric × List (Call Op × Metric.Samples)) :=
  match metrics[call.object]? with
  | some metric => (apply stats metric call.op).map fun (metric, out) =>
      (metrics.set call.object metric, [(call, out)])
  | none => none

/-- The memory of a metric that has a lock. -/
structure Represents (mem : Union) (metric : Metric) : Prop where
  fits : mem.histogram.Fits
  view : mem.view = metric.as
  type : metric.type ≠ .internalStats

@[simp] theorem exec_onHistogram {R : Type} (code : Code HistoArray R) (mem : Union) :
    (onHistogram code).exec mem =
      (mem.withHistogram (code.exec mem.histogram).1, (code.exec mem.histogram).2) := by
  unfold onHistogram
  apply exec_focus
  · intro _ _; rfl
  · intro _ _ _; rfl
  · intro _; rfl

theorem exec_gaugeRecord (mem : Union) (value sample_freq : Value) (modifiers : UInt8) :
    ∃ mem', (gaugeRecord value modifiers).exec mem = (mem', some .done) ∧
      mem'.histogram = mem.histogram ∧
      mem'.view = Metric.gaugeRecord mem.view value sample_freq modifiers := by
  unfold gaugeRecord Metric.gaugeRecord
  split
  · exact ⟨_, rfl, rfl, rfl⟩
  · exact ⟨_, rfl, rfl, rfl⟩

theorem exec_meterRecord (mem : Union) (value sample_freq : Value) (modifiers : UInt8) :
    ∃ mem', (meterRecord value sample_freq).exec mem = (mem', some .done) ∧
      mem'.histogram = mem.histogram ∧
      mem'.view = Metric.meterRecord mem.view value sample_freq modifiers :=
  ⟨_, rfl, rfl, rfl⟩

theorem exec_counterRecord (mem : Union) (value sample_freq : Value) (modifiers : UInt8) :
    ∃ mem', (counterRecord value sample_freq).exec mem = (mem', some .done) ∧
      mem'.histogram = mem.histogram ∧
      mem'.view = Metric.counterRecord mem.view value sample_freq modifiers := by
  by_cases hpos : 0 < mem.previous
  · by_cases hle : mem.previous ≤ value * sample_freq
    · simp [counterRecord, Metric.counterRecord, hpos, hle, Union.view]
    · simp [counterRecord, Metric.counterRecord, hpos, hle, Union.view]
  · simp [counterRecord, Metric.counterRecord, hpos, Union.view]

theorem exec_histogramRecord {mem : Union} (h : mem.histogram.Fits) (value sample_freq : Value)
    (modifiers : UInt8) (junk : Nat → Value) :
    ∃ mem', (histogramRecord value sample_freq junk).exec mem = (mem', some .done) ∧
      mem'.histogram.Fits ∧
      mem'.view = Metric.histogramRecord mem.view value sample_freq modifiers := by
  obtain ⟨histo', hpush, hfits, hview⟩ := HistoArray.push_view h value sample_freq junk
  refine ⟨mem.withHistogram histo', ?_, hfits, ?_⟩
  · simp [histogramRecord, Histogram.exec_push hpush]
  · simp only [Union.view, Union.withHistogram, Metric.histogramRecord, hview]

theorem exec_histogramSample {qsort : Nat → Code HistoArray Unit} (hq : Histogram.Sorts qsort)
    {mem : Union} (h : mem.histogram.Fits) :
    ∃ mem', (histogramSample qsort).exec mem = (mem', some (.histo mem.histogram.view.sample.1)) ∧
      mem'.histogram.Fits ∧
      mem'.view = { mem.view with histogram := mem.histogram.view.sample.2 } := by
  obtain ⟨histo', hsample, hfits, hview⟩ := HistoArray.sample_view h
  refine ⟨mem.withHistogram histo', ?_, hfits, ?_⟩
  · simp [histogramSample, Histogram.exec_sample hq h.toBounded hsample]
  · simp only [Union.view, Union.withHistogram, hview]

/-- The code of a call, alone, is the call. -/
theorem exec_opCode {qsort : Nat → Code HistoArray Unit} (hq : Histogram.Sorts qsort) {mem : Union}
    {metric : Metric} (h : Represents mem metric) (stats : InternalStats) (op : Op) :
    ∃ mem' reply metric', (opCode qsort metric.type op).exec mem = (mem', some reply) ∧
      apply stats metric op = some (metric', report metric op reply) ∧ Represents mem' metric' ∧
      metric'.key = metric.key ∧ metric'.type = metric.type := by
  obtain ⟨hfits, hview, htype⟩ := h
  obtain ⟨key, type, expire, as⟩ := metric
  simp only at hview htype
  subst hview
  cases op with
  | record value sample_freq modifiers junk =>
    cases type with
    | gauge =>
      obtain ⟨mem', hexec, hhisto, hview⟩ := exec_gaugeRecord mem value sample_freq modifiers
      exact ⟨mem', _, _, hexec, rfl, ⟨hhisto ▸ hfits, hview, htype⟩, rfl, rfl⟩
    | meter =>
      obtain ⟨mem', hexec, hhisto, hview⟩ := exec_meterRecord mem value sample_freq modifiers
      exact ⟨mem', _, _, hexec, rfl, ⟨hhisto ▸ hfits, hview, htype⟩, rfl, rfl⟩
    | counter =>
      obtain ⟨mem', hexec, hhisto, hview⟩ := exec_counterRecord mem value sample_freq modifiers
      exact ⟨mem', _, _, hexec, rfl, ⟨hhisto ▸ hfits, hview, htype⟩, rfl, rfl⟩
    | histo | timer =>
      obtain ⟨mem', hexec, hfits', hview⟩ :=
        exec_histogramRecord hfits value sample_freq modifiers junk
      exact ⟨mem', _, _, hexec, rfl, ⟨hfits', hview, htype⟩, rfl, rfl⟩
    | internalStats => exact absurd rfl htype
  | sample sample_freq =>
    cases type with
    | gauge => exact ⟨mem, _, _, rfl, rfl, ⟨hfits, rfl, htype⟩, rfl, rfl⟩
    | meter | counter => exact ⟨_, _, _, rfl, rfl, ⟨hfits, rfl, htype⟩, rfl, rfl⟩
    | histo | timer =>
      obtain ⟨mem', hexec, hfits', hview⟩ := exec_histogramSample hq hfits
      exact ⟨mem', _, _, hexec, rfl, ⟨hfits', hview, htype⟩, rfl, rfl⟩
    | internalStats => exact absurd rfl htype

/-! ## Runs -/

/-- The memory of the metrics behind the pointers. -/
structure Tracks (mems : List Union) (metrics : List Metric) : Prop where
  length : mems.length = metrics.length
  represents : ∀ {i : Nat} {mem : Union} {metric : Metric}, mems[i]? = some mem →
    metrics[i]? = some metric → Represents mem metric

/-- What no call changes. -/
def headers (metrics : List Metric) : List (Key × MetricType) :=
  metrics.map fun metric => (metric.key, metric.type)

/-- What a call hands to its callback, from what its code left; `none` when an access was outside the
block of a histogram. -/
def reported (metrics : List Metric) (r : Call Op × Option Reply) : Call Op × Option Metric.Samples :=
  (r.1, do
    let reply ← r.2
    let metric ← metrics[r.1.object]?
    some (report metric r.1.op reply))

theorem report_key {metric metric' : Metric} (h : metric.key = metric'.key) (op : Op) (reply : Reply) :
    report metric op reply = report metric' op reply := by
  have hname : metric.name = metric'.name := by simp only [Metric.name, Metric.key_len, h]
  cases op with
  | record => rfl
  | sample sample_freq =>
    cases reply with
    | done => rfl
    | value value => simp only [report, h]
    | histo hsample => simp only [report, Metric.withSuffix, hname]

theorem header_at {metrics metrics' : List Metric} (h : headers metrics = headers metrics') {i : Nat}
    {metric : Metric} (hi : metrics[i]? = some metric) :
    ∃ metric', metrics'[i]? = some metric' ∧ metric'.key = metric.key ∧ metric'.type = metric.type := by
  have hget : (headers metrics')[i]? = some (metric.key, metric.type) := by
    rw [← h, headers, List.getElem?_map, hi]
    rfl
  rw [headers, List.getElem?_map, Option.map_eq_some_iff] at hget
  obtain ⟨metric', hi', heq⟩ := hget
  simp only [Prod.mk.injEq] at heq
  exact ⟨metric', hi', heq.1, heq.2⟩

theorem headers_set {metrics : List Metric} {i : Nat} {metric metric' : Metric}
    (hi : metrics[i]? = some metric) (hkey : metric'.key = metric.key)
    (htype : metric'.type = metric.type) : headers (metrics.set i metric') = headers metrics := by
  rw [headers, List.map_set, hkey, htype]
  refine List.ext_getElem? fun j => ?_
  by_cases hj : i = j
  · subst hj
    rw [List.getElem?_set_self', headers, List.getElem?_map, hi]
    rfl
  · rw [List.getElem?_set_ne hj]
    rfl

section

variable {qsort : Nat → Code HistoArray Unit} (hq : Histogram.Sorts qsort) (stats : InternalStats)
  {metrics₀ : List Metric}

include hq

/-- A call of the code, alone, is a call of `metric.c` on the metric. -/
theorem serial_tracks {mems mems' : List Union} {metrics : List Metric} {call : Call Op}
    {results : List (Call Op × Option Reply)} (h : Tracks mems metrics)
    (hh : headers metrics = headers metrics₀)
    (hstep : serial (code qsort metrics₀) mems call = some (mems', results)) :
    ∃ metrics' outs, serialStep stats metrics call = some (metrics', outs) ∧ Tracks mems' metrics' ∧
      headers metrics' = headers metrics₀ ∧
      results.map (reported metrics₀) = outs.map fun r => (r.1, some r.2) := by
  unfold serial at hstep
  split at hstep
  · case _ mem hmem =>
    have hlt : call.object < metrics.length := by
      rw [← h.length]
      exact (List.getElem?_eq_some_iff.mp hmem).1
    obtain ⟨metric, hmetric⟩ : ∃ metric, metrics[call.object]? = some metric :=
      ⟨_, List.getElem?_eq_getElem hlt⟩
    obtain ⟨metric₀, hmetric₀, hkey₀, htype₀⟩ := header_at hh hmetric
    obtain ⟨mem', reply, metric', hexec, happly, hrep, hkey, htype⟩ :=
      exec_opCode hq (h.represents hmem hmetric) stats call.op
    simp only [code, hmetric₀, htype₀, hexec, Option.some.injEq, Prod.mk.injEq] at hstep
    obtain ⟨rfl, rfl⟩ := hstep
    refine ⟨metrics.set call.object metric', [(call, report metric call.op reply)], ?_, ?_, ?_, ?_⟩
    · rw [serialStep, hmetric]
      simp only [happly, Option.map_some]
    · refine ⟨by simp [h.length], ?_⟩
      intro i mem₁ metric₁ hi hi'
      obtain ⟨rfl, rfl⟩ | ⟨hne, hi⟩ := getElem?_set_cases hi
      · rw [getElem?_set_of_some hmetric] at hi'
        cases hi'
        exact hrep
      · rw [List.getElem?_set_ne (Ne.symm hne)] at hi'
        exact h.represents hi hi'
    · rw [headers_set hmetric hkey htype, hh]
    · simp [reported, hmetric₀, report_key hkey₀]
  · cases hstep

theorem serial_run_tracks {mems mems' : List Union} {metrics : List Metric} {calls : List (Call Op)}
    {results : List (Call Op × Option Reply)} (h : Tracks mems metrics)
    (hh : headers metrics = headers metrics₀)
    (hrun : Machine.run (serial (code qsort metrics₀)) mems calls = some (mems', results)) :
    ∃ metrics' outs, Machine.run (serialStep stats) metrics calls = some (metrics', outs) ∧
      Tracks mems' metrics' ∧ headers metrics' = headers metrics₀ ∧
      results.map (reported metrics₀) = outs.map fun r => (r.1, some r.2) := by
  induction calls generalizing mems metrics results with
  | nil => cases hrun; exact ⟨metrics, [], rfl, h, hh, rfl⟩
  | cons call calls ih =>
    obtain ⟨mems₁, results₁, results₂, hone, hrest, rfl⟩ := Machine.run_cons hrun
    obtain ⟨metrics₁, outs₁, hstep, htracks, hh₁, hmap₁⟩ := serial_tracks hq stats h hh hone
    obtain ⟨metrics₂, outs₂, hrun₂, htracks₂, hh₂, hmap₂⟩ := ih htracks hh₁ hrest
    refine ⟨metrics₂, outs₁ ++ outs₂, Machine.run_step hstep hrun₂, htracks₂, hh₂, ?_⟩
    rw [List.map_append, List.map_append, hmap₁, hmap₂]

/-- An interleaving of the code, and the serial run of the calls. -/
theorem run_refines {metrics : List Metric} {mems : List Union} (h : Tracks mems metrics) {n : Nat}
    {es : List (Event Op)} {s : State Union (Option Reply) Op} {out : List (Out (Option Reply) Op)}
    (hrun : Machine.run (Lock.step (code qsort metrics)) (Lock.start mems n) es = some (s, out)) :
    ∃ mems' results metrics' outs,
      Machine.run (serialStep stats) metrics (out.filterMap Out.entered) = some (metrics', outs) ∧
      Agrees s (out.filterMap Out.left) mems' results ∧ Tracks mems' metrics' ∧
      results.map (reported metrics) = outs.map fun r => (r.1, some r.2) := by
  obtain ⟨mems', results, hserial, hagrees⟩ := run_serial hrun
  obtain ⟨metrics', outs, hspec, htracks, -, hmap⟩ := serial_run_tracks hq stats h rfl hserial
  exact ⟨mems', results, metrics', outs, hspec, hagrees, htracks, hmap⟩

/-- Every interleaving of single accesses is a serial run of whole calls, in the order in which they
took the locks: what has been handed to the callbacks is what the serial run hands out, and a metric
whose lock is free holds what it holds in the serial run. A thread's calls take part in the order in
which it made them. -/
theorem locked_runs {metrics : List Metric} {mems : List Union} (h : Tracks mems metrics) {n : Nat}
    {es : List (Event Op)} {s : State Union (Option Reply) Op} {out : List (Out (Option Reply) Op)}
    (hrun : Machine.run (Lock.step (code qsort metrics)) (Lock.start mems n) es = some (s, out)) :
    ∃ metrics' outs,
      Machine.run (serialStep stats) metrics (out.filterMap Out.entered) = some (metrics', outs) ∧
      (∀ i, on i ((out.filterMap Out.left).map (reported metrics)) <+:
        on i (outs.map fun r => (r.1, some r.2))) ∧
      (∀ (i : Nat) (mem : Union), s.objects[i]? = some ⟨mem, false⟩ →
        on i ((out.filterMap Out.left).map (reported metrics)) =
          on i (outs.map fun r => (r.1, some r.2)) ∧
        ∃ metric, metrics'[i]? = some metric ∧ mem.view = metric.as) ∧
      ∀ t, made t (es.filterMap Event.called) = made t (out.filterMap Out.entered) ++ s.waiting t := by
  obtain ⟨mems', results, metrics', outs, hspec, hagrees, htracks, hmap⟩ := run_refines hq stats h hrun
  have hf : ∀ r, (reported metrics r).1 = r.1 := fun _ => rfl
  refine ⟨metrics', outs, hspec, fun i => ?_, fun i mem hi => ⟨?_, ?_⟩, fun t => ?_⟩
  · rw [← hmap, on_map hf, on_map hf]
    exact (hagrees.left_prefix i).map _
  · rw [← hmap, on_map hf, on_map hf, hagrees.settled fun mem' hmem' => by rw [hi] at hmem'; cases hmem']
  · have hmem := hagrees.free hi
    have hlt : i < metrics'.length := by
      rw [← htracks.length]
      exact (List.getElem?_eq_some_iff.mp hmem).1
    exact ⟨_, List.getElem?_eq_getElem hlt,
      (htracks.represents hmem (List.getElem?_eq_getElem hlt)).view⟩
  · have hcalls := run_calls (start_own mems n) hrun t
    rw [start_waiting, List.nil_append] at hcalls
    exact hcalls

end

/-- A `qsort` that sorts in one store. -/
def sortAtOnce (size : Nat) : Code HistoArray Unit :=
  store fun h => { h with
    values := (h.values.take size).mergeSort (fun a b => decide (a ≤ b)) ++ h.values.drop size }

theorem sortAtOnce_sorts : Histogram.Sorts sortAtOnce := fun _ _ => rfl

def newMeter : Metric := ⟨[], .meter, EXPIRE_ACTIVE, As.zero⟩

theorem tracks_newMeter : Tracks [Union.zero] [newMeter] where
  length := rfl
  represents := by
    intro i mem metric hi hi'
    cases i with
    | zero =>
      cases hi
      cases hi'
      exact ⟨HistoArray.fits_zero, rfl, nofun⟩
    | succ i => cases hi

/-- A worker and a backend meet at one metric: the worker takes the lock, the backend spins once, and
takes the lock after the worker has given it back. -/
def contended : List (Event Op) :=
  [.call ⟨0, 0, .record 3 2 0 fun _ => 0⟩, .call ⟨1, 0, .sample 10⟩, .run 0, .run 1, .run 0, .run 0, .run 0,
   .run 1, .run 1, .run 1, .run 1]

theorem locked_runs_contended :
    ∃ s out, Machine.run (Lock.step (code sortAtOnce [newMeter])) (Lock.start [Union.zero] 2) contended =
        some (s, out) ∧
      (out.filterMap Out.left).length = 2 ∧
      ∃ metrics' outs, Machine.run (serialStep ⟨0, ⟨0, 0, 0, 0, 0, 0, 0⟩, ⟨0, 0, 0, 0, 0, 0, 0⟩⟩)
        [newMeter] (out.filterMap Out.entered) = some (metrics', outs) := by
  obtain ⟨s, out, hrun, hleft⟩ : ∃ s out, Machine.run (Lock.step (code sortAtOnce [newMeter]))
      (Lock.start [Union.zero] 2) contended = some (s, out) ∧ (out.filterMap Out.left).length = 2 :=
    ⟨_, _, rfl, rfl⟩
  obtain ⟨metrics', outs, hserial, -⟩ :=
    locked_runs sortAtOnce_sorts ⟨0, ⟨0, 0, 0, 0, 0, 0, 0⟩, ⟨0, 0, 0, 0, 0, 0, 0⟩⟩ tracks_newMeter hrun
  exact ⟨s, out, hrun, hleft, metrics', outs, hserial⟩

/-! ## Meters -/

/-- What a call adds to a meter. -/
def Op.added : Op → Value
  | .record value sample_freq _ _ => value * sample_freq
  | .sample _ => 0

def recorded (i : Nat) (call : Call Op) : Value := if call.object = i then call.op.added else 0

/-- A call on a meter hands out what it takes away and keeps what it adds. -/
theorem apply_meter {stats : InternalStats} {metric metric' : Metric} {op : Op} {out : Metric.Samples}
    (htype : metric.type = .meter) (h : apply stats metric op = some (metric', out)) :
    metric'.type = .meter ∧
      (out.map Prod.snd).sum + metric'.as.value = metric.as.value + op.added := by
  cases op with
  | record value sample_freq modifiers junk =>
    simp only [apply, Metric.record, htype, Metric.protoRecord, Option.map_some, Option.some.injEq,
      Prod.mk.injEq] at h
    obtain ⟨rfl, rfl⟩ := h
    simp [Metric.meterRecord, Op.added]
  | sample sample_freq =>
    simp only [apply, Metric.sample, htype, Option.some.injEq, Prod.mk.injEq] at h
    obtain ⟨rfl, rfl⟩ := h
    simp [Metric.drainSample, Op.added]

end Locks
end Brubeck
