import Brubeck.Carbon.Basic
import Brubeck.City
import Brubeck.Lib.Assoc
import Brubeck.Metric

/-!
# Brubeck.Server

`struct brubeck_server` with its metrics: the hash table, the backends' queues, and the functions
of `metric.c`, `internal_sampler.c`, `server.c` and `http.c` that go through them. A metric's
address is its index in `heap`, which only grows, as the slab allocator never frees.

* `Inv`: the table maps a key to a metric of that name, and every queued metric is in the table.
* `Inv.added`: a metric that is made where there was none keeps it.
-/

namespace Brubeck

open Lib

/-- `struct brubeck_server`. `active_backends` is the length of `backends`; a server that starts
without one crashes when it registers its own metric, so there is at least one. -/
structure Server where
  name : Key
  at_capacity : Bool
  heap : List Metric
  table : List (Key × Nat)
  backends : List Carbon
  internal_stats : InternalStats
  backends_pos : 0 < backends.length

namespace Server

/-- The part of a key that a `uint16_t` length counts. -/
def hashKey (key : Key) : Key := key.take (key.length % 2 ^ 16)

def hashtableFind (server : Server) (key : Key) : Option Nat := server.table.lookup (hashKey key)

def modifyMetric (server : Server) (id : Nat) (f : Metric → Metric) : Server :=
  { server with heap := server.heap.modify id f }

def modifyBackend (server : Server) (b : Nat) (f : Carbon → Carbon) : Server :=
  { server with
    backends := server.backends.modify b f
    backends_pos := by rw [List.length_modify]; exact server.backends_pos }

/-- `brubeck_stats_inc` and its like: a change to the live counters. -/
def modifyLive (server : Server) (f : Counters → Counters) : Server :=
  { server with
    internal_stats := { server.internal_stats with live := f server.internal_stats.live } }

def newMetric (key : Key) (type : MetricType) : Metric :=
  { key := key, type := type, expire := EXPIRE_ACTIVE, as := .zero }

def metricShard (server : Server) (metric : Metric) : Nat :=
  if 1 < server.backends.length then
    (City.cityHash32 metric.name).toNat % server.backends.length
  else 0

/-- `brubeck_backend_register_metric`, run without interruption. -/
def registerMetric (server : Server) (b id : Nat) : Server :=
  server.modifyBackend b fun carbon => { carbon with queue := id :: carbon.queue }

/-- `brubeck_metric_new`, run without interruption. -/
def metricNew (server : Server) (key : Key) (type : MetricType) : Option Nat × Server :=
  let metric := newMetric key type
  let id := server.heap.length
  let server := { server with heap := server.heap ++ [metric] }
  match server.table.lookup metric.name with
  | some _ => (server.hashtableFind key, server)
  | none =>
    let server := { server with table := (metric.name, id) :: server.table }
    let server := server.registerMetric (server.metricShard metric) id
    let server := server.modifyLive fun live => { live with unique_keys := live.unique_keys + 1 }
    (some id, server)

/-- `brubeck_metric_find`, run without interruption. -/
def metricFind (server : Server) (key : Key) (type : MetricType) : Option Nat × Server :=
  match server.hashtableFind key with
  | none => if server.at_capacity then (none, server) else server.metricNew key type
  | some id => (some id, server.modifyMetric id fun metric => { metric with expire := EXPIRE_ACTIVE })

/-- `brubeck_metric_record` on the metric at `id`: `none` when it calls through `NULL`. -/
def metricRecord (server : Server) (id : Nat) (value sample_freq : Value) (modifiers : UInt8) :
    Option Server :=
  match server.heap[id]? with
  | none => none
  | some metric =>
    (metric.record value sample_freq modifiers).map fun metric =>
      server.modifyMetric id fun _ => metric

/-- `internal->as.other = &server->internal_stats`. The pointer shares its bytes with the other
members of the union; `overlay` is what those read as afterwards, which matters when the metric was
made by a client. -/
def setOther (overlay : As → As) (metric : Metric) : Metric :=
  { metric with as := { overlay metric.as with other := true } }

def internalInit (overlay : As → As) (server : Server) : Server :=
  let (internal, server) := server.metricNew server.name .internalStats
  match internal with
  | none => server
  | some id =>
    let server := server.modifyMetric id (setOther overlay)
    let shard := (server.heap[id]?.map server.metricShard).getD 0
    { server with
      internal_stats := { server.internal_stats with
        sample_freq := (server.backends[shard]?.map Carbon.sample_freq).getD 0 } }

def expireMetric (metric : Metric) : Metric :=
  if EXPIRE_DISABLED < metric.expire then { metric with expire := metric.expire - 1 } else metric

/-- The expiry timer: `expire_metric` for every metric in the table. -/
def expireTick (server : Server) : Server :=
  server.table.foldl (fun server entry => server.modifyMetric entry.2 expireMetric) server

/-- `POST /expire/key`. -/
def httpExpire (server : Server) (key : Key) : Server :=
  match server.hashtableFind key with
  | none => server
  | some id => server.modifyMetric id fun metric => { metric with expire := EXPIRE_DISABLED }

def metricOf (server : Server) (key : Key) : Option Metric :=
  (server.table.lookup key).bind fun id => server.heap[id]?

/-! ## The invariant -/

/-- The table maps a key to a metric of that name, every queued metric is in the table, and no queue
has a metric twice. -/
structure Inv (server : Server) : Prop where
  keys : (server.table.map Prod.fst).Nodup
  table : ∀ {key id}, server.table.lookup key = some id →
    ∃ metric, server.heap[id]? = some metric ∧ metric.name = key
  queued : ∀ {carbon id}, carbon ∈ server.backends → id ∈ carbon.queue →
    ∃ key, server.table.lookup key = some id
  once : ∀ {carbon}, carbon ∈ server.backends → carbon.queue.Nodup

theorem hashKey_eq {key : Key} (h : key.length < 2 ^ 16) : hashKey key = key := by
  rw [hashKey, Nat.mod_eq_of_lt h, List.take_length]

@[simp] theorem newMetric_name (key : Key) (type : MetricType) :
    (newMetric key type).name = hashKey key := rfl

theorem getElem?_modifyMetric (server : Server) (id j : Nat) (f : Metric → Metric) :
    (server.modifyMetric id f).heap[j]? =
      if id = j then server.heap[j]?.map f else server.heap[j]? := by
  rw [modifyMetric, List.getElem?_modify]
  split <;> simp

/-- What is recorded is one new metric in the place of the old. -/
theorem metricRecord_some {server server' : Server} {id : Nat} {value sample_freq : Value}
    {modifiers : UInt8} (h : server.metricRecord id value sample_freq modifiers = some server') :
    ∃ metric, server' = server.modifyMetric id fun _ => metric := by
  rw [metricRecord] at h
  split at h
  · cases h
  · obtain ⟨metric, -, rfl⟩ := Option.map_eq_some_iff.mp h
    exact ⟨metric, rfl⟩

theorem name_congr {m m' : Metric} (h : m.key = m'.key) : m.name = m'.name := by
  rw [Metric.name, Metric.name, Metric.key_len, Metric.key_len, h]

theorem Inv.modifyMetric {server : Server} (h : server.Inv) (id : Nat) {f : Metric → Metric}
    (hf : ∀ metric, server.heap[id]? = some metric → (f metric).key = metric.key) :
    (server.modifyMetric id f).Inv where
  keys := h.keys
  queued := h.queued
  once := h.once
  table := by
    intro key j hj
    obtain ⟨metric, hmetric, hname⟩ := h.table hj
    rw [getElem?_modifyMetric, hmetric]
    by_cases hid : id = j
    · subst hid
      exact ⟨f metric, by rw [if_pos rfl]; rfl, by rw [name_congr (hf metric hmetric), hname]⟩
    · exact ⟨metric, if_neg hid, hname⟩

theorem mem_modifyBackend {server : Server} {b : Nat} {f : Carbon → Carbon} {carbon : Carbon}
    (h : carbon ∈ (server.modifyBackend b f).backends) :
    carbon ∈ server.backends ∨ ∃ old, server.backends[b]? = some old ∧ carbon = f old := by
  obtain ⟨i, hi⟩ := List.mem_iff_getElem?.mp h
  simp only [Server.modifyBackend, List.getElem?_modify] at hi
  obtain ⟨old, hold, rfl⟩ := Option.map_eq_some_iff.mp hi
  by_cases hb : b = i
  · exact Or.inr ⟨old, hb ▸ hold, if_pos hb⟩
  · rw [if_neg hb]
    exact Or.inl (List.mem_of_getElem? hold)

theorem Inv.modifyBackend {server : Server} (h : server.Inv) (b : Nat) {f : Carbon → Carbon}
    (hf : ∀ carbon, server.backends[b]? = some carbon → (f carbon).queue = carbon.queue) :
    (server.modifyBackend b f).Inv where
  keys := h.keys
  table := h.table
  queued := by
    intro carbon id hmem hid
    rcases mem_modifyBackend hmem with hold | ⟨old, hold, rfl⟩
    · exact h.queued hold hid
    · exact h.queued (List.mem_of_getElem? hold) (by rwa [hf old hold] at hid)
  once := by
    intro carbon hmem
    rcases mem_modifyBackend hmem with hold | ⟨old, hold, rfl⟩
    · exact h.once hold
    · rw [hf old hold]
      exact h.once (List.mem_of_getElem? hold)

theorem Inv.modifyLive {server : Server} (h : server.Inv) (f : Counters → Counters) :
    (server.modifyLive f).Inv := ⟨h.keys, h.table, h.queued, h.once⟩

/-- What `brubeck_metric_new` leaves when the key is new. -/
def added (server : Server) (key : Key) (type : MetricType) : Server :=
  let metric := newMetric key type
  let id := server.heap.length
  let server := { server with
    heap := server.heap ++ [metric]
    table := (hashKey key, id) :: server.table }
  (server.registerMetric (server.metricShard metric) id).modifyLive fun live =>
    { live with unique_keys := live.unique_keys + 1 }

theorem metricNew_new {server : Server} {key : Key} (h : server.hashtableFind key = none)
    (type : MetricType) :
    server.metricNew key type = (some server.heap.length, server.added key type) := by
  simp only [metricNew, newMetric_name]
  rw [show server.table.lookup (hashKey key) = none from h]
  rfl

/-- When the key is there already, the new block is lost and the old metric is returned. -/
theorem metricNew_old {server : Server} {key : Key} {id : Nat}
    (h : server.hashtableFind key = some id) (type : MetricType) :
    server.metricNew key type =
      (some id, { server with heap := server.heap ++ [newMetric key type] }) := by
  simp only [metricNew, newMetric_name]
  rw [show server.table.lookup (hashKey key) = some id from h]
  exact congrArg (·, _) h

theorem Inv.append {server : Server} (h : server.Inv) (metric : Metric) :
    Inv { server with heap := server.heap ++ [metric] } where
  keys := h.keys
  queued := h.queued
  once := h.once
  table := by
    intro key id hid
    obtain ⟨m, hm, hname⟩ := h.table hid
    exact ⟨m, by rw [List.getElem?_append_left (List.getElem?_eq_some_iff.mp hm).1]; exact hm, hname⟩

theorem added_lookup (server : Server) (key : Key) (type : MetricType) (k : Key) :
    (server.added key type).table.lookup k =
      if k = hashKey key then some server.heap.length else server.table.lookup k :=
  Assoc.lookup_cons (hashKey key) server.heap.length server.table k

theorem Inv.added {server : Server} (h : server.Inv) {key : Key}
    (hnone : server.hashtableFind key = none) (type : MetricType) : (server.added key type).Inv where
  keys := List.nodup_cons.mpr ⟨Assoc.notMem_of_lookup hnone, h.keys⟩
  table := by
    intro k id hk
    rw [added_lookup] at hk
    show ∃ metric, (server.heap ++ [newMetric key type])[id]? = some metric ∧ metric.name = k
    by_cases heq : k = hashKey key
    · rw [if_pos heq] at hk
      cases hk
      exact ⟨newMetric key type, by simp, heq.symm⟩
    · rw [if_neg heq] at hk
      exact (h.append (newMetric key type)).table hk
  queued := by
    intro carbon id hmem hid
    -- the metrics queued before are under other keys than the new one
    have hold : ∀ {old : Carbon}, old ∈ server.backends → id ∈ old.queue →
        ∃ k, (server.added key type).table.lookup k = some id := by
      intro old hmem hid
      obtain ⟨k, hk⟩ := h.queued hmem hid
      refine ⟨k, ?_⟩
      rw [added_lookup, if_neg, hk]
      rintro rfl
      rw [show server.table.lookup (hashKey key) = none from hnone] at hk
      cases hk
    rcases mem_modifyBackend hmem with hbefore | ⟨old, hbefore, rfl⟩
    · exact hold hbefore hid
    · rcases List.mem_cons.mp hid with rfl | hid
      · exact ⟨hashKey key, by rw [added_lookup, if_pos rfl]⟩
      · exact hold (List.mem_of_getElem? hbefore) hid
  once := by
    intro carbon hmem
    rcases mem_modifyBackend hmem with hbefore | ⟨old, hbefore, rfl⟩
    · exact h.once hbefore
    · have hbefore := List.mem_of_getElem? hbefore
      refine List.nodup_cons.mpr ⟨fun hid => ?_, h.once hbefore⟩
      -- a queued metric lies below the end of the heap, where the new one is
      obtain ⟨k, hk⟩ := h.queued hbefore hid
      obtain ⟨m, hm, -⟩ := h.table hk
      exact Nat.lt_irrefl _ (List.getElem?_eq_some_iff.mp hm).1

/-! ## The metrics by key -/

theorem metricOf_eq {server : Server} {key : Key} {id : Nat} (h : server.table.lookup key = some id) :
    server.metricOf key = server.heap[id]? := by
  rw [metricOf, h]; rfl

theorem metricOf_none {server : Server} {key : Key} (h : server.table.lookup key = none) :
    server.metricOf key = none := by
  rw [metricOf, h]; rfl

theorem metricOf_some {server : Server} {key : Key} {metric : Metric}
    (h : server.metricOf key = some metric) :
    ∃ id, server.table.lookup key = some id ∧ server.heap[id]? = some metric :=
  Option.bind_eq_some_iff.mp h

theorem Inv.metricOf_modify {server : Server} (h : server.Inv) {key : Key} {id : Nat}
    (hid : server.table.lookup key = some id) (f : Metric → Metric) (k : Key) :
    (server.modifyMetric id f).metricOf k =
      if k = key then (server.metricOf k).map f else server.metricOf k := by
  cases hk : server.table.lookup k with
  | none =>
    have hne : k ≠ key := by rintro rfl; rw [hk] at hid; cases hid
    rw [if_neg hne, metricOf_none hk]
    exact metricOf_none hk
  | some j =>
    have hmod : (server.modifyMetric id f).metricOf k = (server.modifyMetric id f).heap[j]? :=
      metricOf_eq hk
    rw [metricOf_eq hk, hmod, getElem?_modifyMetric]
    obtain ⟨m, hm, hname⟩ := h.table hk
    obtain ⟨m', hm', hname'⟩ := h.table hid
    by_cases hkey : k = key
    · subst hkey
      rw [hk] at hid; cases hid
      rw [if_pos rfl, if_pos rfl]
    · have hne : id ≠ j := by
        rintro rfl
        rw [hm] at hm'; cases hm'
        exact hkey (hname.symm.trans hname')
      rw [if_neg hne, if_neg hkey]

theorem Inv.metricOf_append {server : Server} (h : server.Inv) (metric : Metric) (k : Key) :
    metricOf { server with heap := server.heap ++ [metric] } k = server.metricOf k := by
  cases hk : server.table.lookup k with
  | none => rw [metricOf_none hk]; exact metricOf_none hk
  | some j =>
    obtain ⟨m, hm, -⟩ := h.table hk
    have happend : metricOf { server with heap := server.heap ++ [metric] } k =
        (server.heap ++ [metric])[j]? := metricOf_eq hk
    rw [metricOf_eq hk, happend, List.getElem?_append_left (List.getElem?_eq_some_iff.mp hm).1]

theorem Inv.metricOf_added {server : Server} (h : server.Inv) (key : Key) (type : MetricType)
    (k : Key) :
    (server.added key type).metricOf k =
      if k = hashKey key then some (newMetric key type) else server.metricOf k := by
  by_cases hk : k = hashKey key
  · rw [if_pos hk, metricOf, added_lookup, if_pos hk]
    show (server.heap ++ [newMetric key type])[server.heap.length]? = _
    simp
  · rw [if_neg hk, ← h.metricOf_append (newMetric key type), metricOf, added_lookup, if_neg hk]
    rfl

end Server
end Brubeck
