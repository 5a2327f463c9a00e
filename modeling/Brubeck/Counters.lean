import Brubeck.Store

/-!
# Brubeck.Counters

The live counters of a server. Workers add to them, and `brubeck_internal__sample` swaps them out one
at a time while the workers go on.

* `credit`: the counters raised by some amount. Whatever the code does with a line, it does the same
  when the counters have been raised before it (`credit_handle`).
* `Swap`, `swaps`: the seven steps of `brubeck_internal__sample`. Without interruption they are
  `Metric.internalSample` (`runSwaps_eq`).
-/

namespace Brubeck

open Lib

namespace Counters

def zero : Counters := ⟨0, 0, 0, 0, 0, 0, 0⟩

def plus (c d : Counters) : Counters where
  metrics := c.metrics + d.metrics
  errors := c.errors + d.errors
  unique_keys := c.unique_keys + d.unique_keys
  failed := c.failed + d.failed
  from_future := c.from_future + d.from_future
  delayed := c.delayed + d.delayed
  replayed := c.replayed + d.replayed

theorem plus_zero (c : Counters) : c.plus zero = c := by simp [plus, zero]

theorem plus_plus (c d e : Counters) : (c.plus d).plus e = c.plus (d.plus e) := by
  simp [plus, UInt32.add_assoc]

theorem plus_comm (c d : Counters) : c.plus d = d.plus c := by simp [plus, UInt32.add_comm]

end Counters

namespace Server

/-- The server with its live counters raised. -/
def credit (amount : Counters) (server : Server) : Server :=
  server.modifyLive fun live => live.plus amount

/-- A counter that goes up by one: `brubeck_stats_inc` is such a change. -/
def Increments (f : Counters → Counters) : Prop := ∃ unit : Counters, ∀ c, f c = c.plus unit

theorem increments_metrics : Increments fun live => { live with metrics := live.metrics + 1 } :=
  ⟨⟨1, 0, 0, 0, 0, 0, 0⟩, fun c => by simp [Counters.plus]⟩

theorem increments_errors : Increments fun live => { live with errors := live.errors + 1 } :=
  ⟨⟨0, 1, 0, 0, 0, 0, 0⟩, fun c => by simp [Counters.plus]⟩

theorem increments_unique_keys :
    Increments fun live => { live with unique_keys := live.unique_keys + 1 } :=
  ⟨⟨0, 0, 1, 0, 0, 0, 0⟩, fun c => by simp [Counters.plus]⟩

theorem credit_zero (server : Server) : server.credit .zero = server := by
  simp only [credit, modifyLive, Counters.plus_zero]

theorem credit_credit (server : Server) (a b : Counters) :
    (server.credit a).credit b = server.credit (a.plus b) := by
  simp only [credit, modifyLive, Counters.plus_plus]

theorem credit_modifyLive (server : Server) (amount : Counters) {f : Counters → Counters}
    (hf : Increments f) : (server.credit amount).modifyLive f = (server.modifyLive f).credit amount := by
  obtain ⟨unit, hunit⟩ := hf
  simp only [credit, modifyLive, hunit, Counters.plus_plus, Counters.plus_comm amount unit]

theorem credit_added (server : Server) (amount : Counters) (key : Key) (type : MetricType) :
    (server.credit amount).added key type = (server.added key type).credit amount := by
  let s : Server := { server with
    heap := server.heap ++ [newMetric key type]
    table := (hashKey key, server.heap.length) :: server.table }
  exact credit_modifyLive (s.registerMetric (s.metricShard (newMetric key type)) server.heap.length)
    amount increments_unique_keys

theorem credit_metricFind (server : Server) (amount : Counters) (key : Key) (type : MetricType) :
    (server.credit amount).metricFind key type =
      ((server.metricFind key type).1, (server.metricFind key type).2.credit amount) := by
  have hsame : (server.credit amount).hashtableFind key = server.hashtableFind key := rfl
  cases hfind : server.hashtableFind key with
  | some id =>
    rw [hfind] at hsame
    simp only [metricFind, hfind, hsame]
    rfl
  | none =>
    rw [hfind] at hsame
    by_cases hcap : server.at_capacity = true
    · have hcap' : (server.credit amount).at_capacity = true := hcap
      simp only [metricFind, hfind, hsame, hcap, hcap', if_true]
    · have hcap' : ¬ (server.credit amount).at_capacity = true := hcap
      simp only [metricFind, hfind, hsame, if_neg hcap, if_neg hcap', metricNew_new hfind,
        metricNew_new hsame, credit_added]
      rfl

theorem credit_metricRecord (server : Server) (amount : Counters) (id : Nat)
    (value sample_freq : Value) (modifiers : UInt8) :
    (server.credit amount).metricRecord id value sample_freq modifiers =
      (server.metricRecord id value sample_freq modifiers).map (credit amount) := by
  have hsame : (server.credit amount).heap = server.heap := rfl
  rw [metricRecord, metricRecord, hsame]
  cases server.heap[id]? with
  | none => rfl
  | some metric =>
    dsimp only
    rw [Option.map_map]
    rfl

/-- A line does the same to a server whose counters have been raised. -/
theorem credit_handle (server : Server) (amount : Counters) (o : Option Reading) :
    (server.credit amount).handle o = (server.handle o).map (credit amount) := by
  cases o with
  | none =>
    simp only [handle, credit_modifyLive server amount increments_errors, Option.map_some]
  | some r =>
    simp only [handle, credit_modifyLive server amount increments_metrics, credit_metricFind]
    cases hfind : (server.modifyLive fun live => { live with metrics := live.metrics + 1 }).metricFind
      r.key r.type with
    | mk found server₁ =>
      cases found with
      | none => rfl
      | some id => exact credit_metricRecord server₁ amount id r.value r.sample_freq r.modifiers

theorem credit_handleAll (segs : List (Option Reading)) (server : Server) (amount : Counters) :
    segs.foldlM handle (server.credit amount) = (segs.foldlM handle server).map (credit amount) := by
  induction segs generalizing server with
  | nil => rfl
  | cons o segs ih =>
    rw [List.foldlM_cons, List.foldlM_cons, credit_handle]
    cases server.handle o with
    | none => rfl
    | some server₁ => exact ih server₁

/-! ## What a line adds -/

/-- What a line adds to the counters, with the keys it makes. -/
def lineCounts (o : Option Reading) (keys : UInt32) : Counters where
  metrics := if o.isSome then 1 else 0
  errors := if o.isSome then 0 else 1
  unique_keys := keys
  failed := 0
  from_future := 0
  delayed := 0
  replayed := 0

theorem metricFind_live (server : Server) (key : Key) (type : MetricType) :
    ∃ keys, (server.metricFind key type).2.internal_stats =
      { server.internal_stats with
        live := server.internal_stats.live.plus ⟨0, 0, keys, 0, 0, 0, 0⟩ } := by
  have hsame : server.internal_stats = { server.internal_stats with
      live := server.internal_stats.live.plus ⟨0, 0, 0, 0, 0, 0, 0⟩ } :=
    congrArg (fun live => { server.internal_stats with live := live }) (Counters.plus_zero _).symm
  cases hfind : server.hashtableFind key with
  | some id => exact ⟨0, by simp only [metricFind, hfind]; exact hsame⟩
  | none =>
    by_cases hcap : server.at_capacity = true
    · exact ⟨0, by simp only [metricFind, hfind, hcap, if_true]; exact hsame⟩
    · refine ⟨1, ?_⟩
      simp only [metricFind, hfind, hcap, if_false, metricNew_new hfind, Bool.false_eq_true]
      simp [added, modifyLive, registerMetric, modifyBackend, Counters.plus]

theorem handle_live {server server' : Server} {o : Option Reading}
    (h : server.handle o = some server') :
    ∃ keys, server'.internal_stats =
      { server.internal_stats with live := server.internal_stats.live.plus (lineCounts o keys) } := by
  cases o with
  | none =>
    cases h
    exact ⟨0, by simp [modifyLive, Counters.plus, lineCounts]⟩
  | some r =>
    simp only [handle] at h
    obtain ⟨keys, hkeys⟩ := metricFind_live
      (server.modifyLive fun live => { live with metrics := live.metrics + 1 }) r.key r.type
    refine ⟨keys, ?_⟩
    have hstats : server'.internal_stats = ((server.modifyLive fun live =>
        { live with metrics := live.metrics + 1 }).metricFind r.key r.type).2.internal_stats := by
      split at h
      · rename_i heq
        cases h
        rw [heq]
      · rename_i heq
        rw [heq]
        obtain ⟨metric, rfl⟩ := metricRecord_some h
        rfl
    rw [hstats, hkeys]
    simp [modifyLive, Counters.plus, lineCounts]

/-- Each line adds to exactly one of the two counters. -/
theorem handleAll_live {segs : List (Option Reading)} {server server' : Server}
    (h : segs.foldlM handle server = some server') :
    server'.internal_stats.live.metrics =
        server.internal_stats.live.metrics + UInt32.ofNat (segs.countP Option.isSome) ∧
      server'.internal_stats.live.errors =
        server.internal_stats.live.errors + UInt32.ofNat (segs.countP Option.isNone) := by
  induction segs generalizing server with
  | nil => cases h; simp
  | cons o segs ih =>
    rw [List.foldlM_cons] at h
    obtain ⟨server₁, hone, hrest⟩ := Option.bind_eq_some_iff.mp h
    obtain ⟨keys, hkeys⟩ := handle_live hone
    obtain ⟨hmetrics, herrors⟩ := ih hrest
    rw [hmetrics, herrors, hkeys]
    cases o with
    | none => simp [Counters.plus, lineCounts, UInt32.ofNat_add, UInt32.add_assoc, UInt32.add_comm]
    | some r => simp [Counters.plus, lineCounts, UInt32.ofNat_add, UInt32.add_assoc, UInt32.add_comm]

end Server

/-! ## Sampling the counters -/

/-- One of the steps of `brubeck_internal__sample`: a counter is swapped with zero, or only read, and
reported under a suffix. -/
structure Swap where
  suffix : String
  get : Counters → UInt32
  put : UInt32 → Counters → Counters
  drains : Bool

def Swap.run (s : Swap) (stats : InternalStats) : UInt32 × InternalStats :=
  let value := s.get stats.live
  (value, { stats with
    live := if s.drains then s.put 0 stats.live else stats.live
    sample := s.put value stats.sample })

def swaps : List Swap :=
  [⟨".metrics", Counters.metrics, fun v c => { c with metrics := v }, true⟩,
   ⟨".errors", Counters.errors, fun v c => { c with errors := v }, true⟩,
   ⟨".unique_keys", Counters.unique_keys, fun v c => { c with unique_keys := v }, false⟩,
   ⟨".secure.failed", Counters.failed, fun v c => { c with failed := v }, true⟩,
   ⟨".secure.from_future", Counters.from_future, fun v c => { c with from_future := v }, true⟩,
   ⟨".secure.delayed", Counters.delayed, fun v c => { c with delayed := v }, true⟩,
   ⟨".secure.replayed", Counters.replayed, fun v c => { c with replayed := v }, true⟩]

/-- Some of the steps, one after the other: what they report, and the counters afterwards. -/
def runSwaps (stats : InternalStats) : List Swap → List (String × UInt32) × InternalStats
  | [] => ([], stats)
  | s :: rest =>
    let (value, stats) := s.run stats
    let (out, stats) := runSwaps stats rest
    ((s.suffix, value) :: out, stats)

/-- The seven steps without interruption are `brubeck_internal__sample`. -/
theorem runSwaps_eq (metric : Metric) (stats : InternalStats) :
    metric.internalSample stats =
      ((runSwaps stats swaps).1.map fun (suffix, value) =>
        (metric.withSuffix suffix, (value.toNat : Value)), (runSwaps stats swaps).2) := rfl

end Brubeck
