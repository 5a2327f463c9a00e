import Brubeck.Histogram

/-!
# Brubeck.Metric

Single metrics: the record and sample functions of `metric.c`, the table of prototypes that
dispatches to them, and the sampling of brubeck's own counters in `internal_sampler.c`.

* `protoRecord_eq_none`: only the internal type has no record function.
* `sample_name`: every name a metric is sampled under is its key with a suffix of its type.
* `sample_as_eq_iff`: sampling keeps a metric's data exactly when nothing had accumulated.
-/

namespace Brubeck

open Lib

/-- The counters of `struct brubeck_internal_stats`, which has them twice. -/
structure Counters where
  metrics : UInt32
  errors : UInt32
  unique_keys : UInt32
  failed : UInt32
  from_future : UInt32
  delayed : UInt32
  replayed : UInt32
  deriving DecidableEq

structure InternalStats where
  sample_freq : Int
  live : Counters
  sample : Counters
  deriving DecidableEq

/-- The union `as`. The type of a metric says which member is in use: `value` is the gauge's, the
meter's and the counter's, and `other` says that the pointer to the server's stats is set. -/
structure As where
  value : Value
  previous : Value
  histogram : Histo
  other : Bool
  deriving DecidableEq

def As.zero : As := { value := 0, previous := 0, histogram := .zero, other := false }

/-- `struct brubeck_metric`, without the lock and the link. -/
structure Metric where
  key : Key
  type : MetricType
  expire : Nat
  as : As
  deriving DecidableEq

namespace Metric

def key_len (metric : Metric) : Nat := metric.key.length % 2 ^ 16

/-- The bytes of the key that `key_len` counts: what the hash table and the suffixes see. -/
def name (metric : Metric) : Key := metric.key.take metric.key_len

/-! ## Recording -/

def gaugeRecord (as : As) (value _sample_freq : Value) (modifiers : UInt8) : As :=
  if modifiers &&& MOD_RELATIVE_VALUE ≠ 0 then { as with value := as.value + value }
  else { as with value := value }

def meterRecord (as : As) (value sample_freq : Value) (_modifiers : UInt8) : As :=
  { as with value := as.value + value * sample_freq }

def counterRecord (as : As) (value sample_freq : Value) (_modifiers : UInt8) : As :=
  let value := value * sample_freq
  let as :=
    if 0 < as.previous then
      let diff := if as.previous ≤ value then value - as.previous else value
      { as with value := as.value + diff }
    else as
  { as with previous := value }

def histogramRecord (as : As) (value sample_freq : Value) (_modifiers : UInt8) : As :=
  { as with histogram := as.histogram.push value sample_freq }

/-- The column `record` of `_prototypes`; `none` is `NULL`. -/
def protoRecord : MetricType → Option (As → Value → Value → UInt8 → As)
  | .gauge => some gaugeRecord
  | .meter => some meterRecord
  | .counter => some counterRecord
  | .histo => some histogramRecord
  | .timer => some histogramRecord
  | .internalStats => none

theorem protoRecord_eq_none {type : MetricType} :
    protoRecord type = none ↔ type = .internalStats := by
  cases type <;> simp [protoRecord]

/-- `brubeck_metric_record`: `none` when it calls through `NULL`. -/
def record (metric : Metric) (value sample_freq : Value) (modifiers : UInt8) : Option Metric :=
  (protoRecord metric.type).map fun record =>
    { metric with as := record metric.as value sample_freq modifiers }

/-! ## Sampling -/

def withSuffix (metric : Metric) (suffix : String) : Key := metric.name ++ str suffix.toList

/-- What a sample function hands to its callback, in order. -/
abbrev Samples := List (Key × Value)

def gaugeSample (metric : Metric) : Samples × As := ([(metric.key, metric.as.value)], metric.as)

/-- `meter__sample` and `counter__sample`, which read alike. -/
def drainSample (metric : Metric) : Samples × As :=
  ([(metric.key, metric.as.value)], { metric.as with value := 0 })

/-- The suffixes of `histogram__sample` with their values; `sample_freq` is the backend's. -/
def histogramFields (hsample : HistoSample) (sample_freq : Int) : List (String × Value) :=
  [(".count", hsample.count),
   (".count_ps", hsample.count / sample_freq)] ++
  if hsample.count = 0 then []
  else
    [(".min", hsample.min),
     (".max", hsample.max),
     (".sum", hsample.sum),
     (".mean", hsample.mean),
     (".median", hsample.median),
     (".percentile.75", hsample.percentile75),
     (".percentile.95", hsample.percentile95),
     (".percentile.98", hsample.percentile98),
     (".percentile.99", hsample.percentile99),
     (".percentile.999", hsample.percentile999)]

def histogramSample (metric : Metric) (sample_freq : Int) : Samples × As :=
  let (hsample, histogram) := metric.as.histogram.sample
  ((histogramFields hsample sample_freq).map fun (suffix, value) =>
    (metric.withSuffix suffix, value), { metric.as with histogram := histogram })

/-- The suffixes of `brubeck_internal__sample` with their values. -/
def internalFields (live : Counters) : List (String × UInt32) :=
  [(".metrics", live.metrics),
   (".errors", live.errors),
   (".unique_keys", live.unique_keys),
   (".secure.failed", live.failed),
   (".secure.from_future", live.from_future),
   (".secure.delayed", live.delayed),
   (".secure.replayed", live.replayed)]

/-- `brubeck_internal__sample`: every live counter but `unique_keys` is swapped with zero, and the
metric is marked active. -/
def internalSample (metric : Metric) (stats : InternalStats) : Samples × InternalStats :=
  let live := stats.live
  ((internalFields live).map fun (suffix, value) => (metric.withSuffix suffix, (value.toNat : Value)),
   { stats with
     live := { live with
       metrics := 0, errors := 0, failed := 0, from_future := 0, delayed := 0, replayed := 0 }
     sample := live })

/-- `brubeck_metric_sample`, the other column of `_prototypes`. -/
def sample (metric : Metric) (stats : InternalStats) (sample_freq : Int) :
    Samples × Metric × InternalStats :=
  match metric.type with
  | .gauge =>
    let (out, as) := metric.gaugeSample
    (out, { metric with as := as }, stats)
  | .meter =>
    let (out, as) := metric.drainSample
    (out, { metric with as := as }, stats)
  | .counter =>
    let (out, as) := metric.drainSample
    (out, { metric with as := as }, stats)
  | .histo =>
    let (out, as) := metric.histogramSample sample_freq
    (out, { metric with as := as }, stats)
  | .timer =>
    let (out, as) := metric.histogramSample sample_freq
    (out, { metric with as := as }, stats)
  | .internalStats =>
    let (out, stats) := metric.internalSample stats
    (out, { metric with expire := EXPIRE_ACTIVE }, stats)

/-! ## What sampling leaves -/

@[simp] theorem sample_key (metric : Metric) (stats : InternalStats) (sample_freq : Int) :
    (metric.sample stats sample_freq).2.1.key = metric.key := by
  unfold sample; split <;> rfl

@[simp] theorem sample_type (metric : Metric) (stats : InternalStats) (sample_freq : Int) :
    (metric.sample stats sample_freq).2.1.type = metric.type := by
  unfold sample; split <;> rfl

theorem sample_other (metric : Metric) (stats : InternalStats) (sample_freq : Int) :
    (metric.sample stats sample_freq).2.1.as.other = metric.as.other := by
  unfold sample; split <;> rfl

/-- Something has accumulated since the last sample. -/
def Accumulated (metric : Metric) : Prop :=
  match metric.type with
  | .meter | .counter => metric.as.value ≠ 0
  | .histo | .timer => metric.as.histogram.values ≠ []
  | .gauge | .internalStats => False

theorem drain_eq_iff (metric : Metric) : metric.drainSample.2 = metric.as ↔ metric.as.value = 0 := by
  constructor
  · intro h
    exact (congrArg As.value h).symm
  · intro h
    rw [drainSample]
    exact congrArg (fun v => { metric.as with value := v }) h.symm

theorem histogram_eq_iff (metric : Metric) (sample_freq : Int) :
    (metric.histogramSample sample_freq).2 = metric.as ↔ metric.as.histogram.values = [] := by
  rw [← Histo.sample_eq_iff]
  constructor
  · intro h
    exact congrArg As.histogram h
  · intro h
    simp only [histogramSample, h]

/-- Sampling keeps a metric's data exactly when nothing had accumulated. -/
theorem sample_as_eq_iff (metric : Metric) (stats : InternalStats) (sample_freq : Int) :
    (metric.sample stats sample_freq).2.1.as = metric.as ↔ ¬ metric.Accumulated := by
  cases h : metric.type with
  | gauge => simp [sample, Accumulated, h, gaugeSample]
  | meter => simpa [sample, Accumulated, h] using metric.drain_eq_iff
  | counter => simpa [sample, Accumulated, h] using metric.drain_eq_iff
  | histo => simpa [sample, Accumulated, h] using metric.histogram_eq_iff sample_freq
  | timer => simpa [sample, Accumulated, h] using metric.histogram_eq_iff sample_freq
  | internalStats => simp [sample, Accumulated, h]

/-! ## The names a metric is sampled under -/

def suffixes : MetricType → List String
  | .gauge | .meter | .counter => [""]
  | .histo | .timer =>
    [".count", ".count_ps", ".min", ".max", ".sum", ".mean", ".median", ".percentile.75",
     ".percentile.95", ".percentile.98", ".percentile.99", ".percentile.999"]
  | .internalStats =>
    [".metrics", ".errors", ".unique_keys", ".secure.failed", ".secure.from_future",
     ".secure.delayed", ".secure.replayed"]

theorem name_eq {metric : Metric} (h : metric.key.length < 2 ^ 16) : metric.name = metric.key := by
  rw [name, key_len, Nat.mod_eq_of_lt h, List.take_length]

theorem histogramFields_suffix {hsample : HistoSample} {sample_freq : Int} {field : String × Value}
    (h : field ∈ histogramFields hsample sample_freq) : field.1 ∈ suffixes .histo := by
  have hmap : ((histogramFields hsample sample_freq).map Prod.fst) ⊆ suffixes .histo := by
    by_cases hc : hsample.count = 0
    · simp [histogramFields, suffixes, hc]
    · simp [histogramFields, suffixes, hc]
  exact hmap (List.mem_map_of_mem h)

theorem internalFields_suffix {live : Counters} {field : String × UInt32}
    (h : field ∈ internalFields live) : field.1 ∈ suffixes .internalStats :=
  (List.mem_map_of_mem h : field.1 ∈ (internalFields live).map Prod.fst)

/-- Every name a metric is sampled under is its key with a suffix of its type. -/
theorem sample_name {metric : Metric} (hlen : metric.key.length < 2 ^ 16) {stats : InternalStats}
    {sample_freq : Int} {out : Key × Value} (h : out ∈ (metric.sample stats sample_freq).1) :
    ∃ suffix ∈ suffixes metric.type, out.1 = metric.key ++ str suffix.toList := by
  have hkey : metric.key = metric.key ++ str "".toList := by simp [str]
  cases ht : metric.type with
  | gauge | meter | counter =>
    simp only [sample, ht, gaugeSample, drainSample, List.mem_singleton] at h
    exact ⟨"", by simp [suffixes], by rw [h]; exact hkey⟩
  | histo | timer =>
    simp only [sample, ht, histogramSample, List.mem_map] at h
    obtain ⟨field, hmem, rfl⟩ := h
    exact ⟨field.1, histogramFields_suffix hmem, by rw [withSuffix, name_eq hlen]⟩
  | internalStats =>
    simp only [sample, ht, internalSample, List.mem_map] at h
    obtain ⟨field, hmem, rfl⟩ := h
    exact ⟨field.1, internalFields_suffix hmem, by rw [withSuffix, name_eq hlen]⟩

theorem histogramFields_all {hsample : HistoSample} (h : hsample.count ≠ 0) (sample_freq : Int) :
    (histogramFields hsample sample_freq).map Prod.fst = suffixes .histo := by
  simp [histogramFields, suffixes, h]

/-- Each suffix of a type is one that some metric of the type is sampled under. -/
theorem exists_sample_name (key : Key) (hlen : key.length < 2 ^ 16) (type : MetricType)
    {suffix : String} (hs : suffix ∈ suffixes type) (stats : InternalStats) (sample_freq : Int) :
    ∃ (as : As) (value : Value), (key ++ str suffix.toList, value) ∈
      (Metric.sample ⟨key, type, EXPIRE_ACTIVE, as⟩ stats sample_freq).1 := by
  have hname : ∀ as, (⟨key, type, EXPIRE_ACTIVE, as⟩ : Metric).name = key := fun as => name_eq hlen
  -- one value is enough for a histogram to report everything
  let as : As := { As.zero with histogram := ⟨[0], 1, HISTO_INIT_SIZE⟩ }
  have hcount : as.histogram.sample.1.count ≠ 0 := by
    show ((1 : Nat) : Value) ≠ 0
    exact one_ne_zero
  refine ⟨as, ?_⟩
  cases type with
  | gauge | meter | counter =>
    rw [suffixes, List.mem_singleton] at hs
    subst hs
    exact ⟨as.value, by simp [sample, gaugeSample, drainSample, str]⟩
  | histo | timer =>
    have hmem : suffix ∈ (histogramFields as.histogram.sample.1 sample_freq).map Prod.fst := by
      rw [histogramFields_all hcount]; exact hs
    obtain ⟨field, hfield, rfl⟩ := List.mem_map.mp hmem
    refine ⟨field.2, ?_⟩
    simp only [sample, histogramSample, withSuffix, hname]
    exact List.mem_map.mpr ⟨field, hfield, rfl⟩
  | internalStats =>
    have hmem : suffix ∈ (internalFields stats.live).map Prod.fst := hs
    obtain ⟨field, hfield, rfl⟩ := List.mem_map.mp hmem
    refine ⟨(field.2.toNat : Value), ?_⟩
    simp only [sample, internalSample, withSuffix, hname]
    exact List.mem_map.mpr ⟨field, hfield, rfl⟩

end Metric
end Brubeck
