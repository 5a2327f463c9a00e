import Brubeck.Server
import Mathlib.Logic.Function.Basic

/-!
# Brubeck.Store

What the metrics of a server are for: a store that maps each key to one metric. The operations on
the store say in one line each what the code does through the table, the heap and the queues, and
the server refines them: `metricOf` maps a server's step to the store's step.

* `Good.handle_view`: handling one line.
* `Good.expireTick`, `Good.httpExpire`: the two ways a metric expires. `Good.expireTick_map` and
  `Good.httpExpire_map` say what they leave as it was.
-/

namespace Brubeck

open Lib

/-- What an accepted line says. -/
structure Reading where
  key : Key
  type : MetricType
  value : Value
  sample_freq : Value
  modifiers : UInt8
  deriving DecidableEq

abbrev Store := Key → Option Metric

namespace Store

/-- The metric a line is recorded in: the one of its key, active again, or a new one. -/
def find (store : Store) (r : Reading) : Metric :=
  match store r.key with
  | some metric => { metric with expire := EXPIRE_ACTIVE }
  | none => Server.newMetric r.key r.type

/-- An accepted line; `none` when its record function is missing. -/
def line (store : Store) (r : Reading) : Option Store :=
  ((store.find r).record r.value r.sample_freq r.modifiers).map fun metric =>
    Function.update store r.key (some metric)

def expire (store : Store) : Store := fun key => (store key).map Server.expireMetric

def disable (store : Store) (key : Key) : Store :=
  Function.update store key ((store key).map fun metric => { metric with expire := EXPIRE_DISABLED })

end Store

namespace Server

/-- The body of the loop over a packet's lines, from the parsed line on: a rejected line counts as
an error, an accepted one is recorded. -/
def handle (server : Server) : Option Reading → Option Server
  | none => some (server.modifyLive fun live => { live with errors := live.errors + 1 })
  | some r =>
    let server := server.modifyLive fun live => { live with metrics := live.metrics + 1 }
    match server.metricFind r.key r.type with
    | (none, server) => some server
    | (some id, server) => server.metricRecord id r.value r.sample_freq r.modifiers

/-- What holds of every state a server reaches. -/
structure Good (server : Server) : Prop extends server.Inv where
  capacity : server.at_capacity = false

theorem Good.metricFind {server : Server} (h : server.Good) {r : Reading}
    (hkey : r.key.length < 2 ^ 16) :
    ∃ id server', server.metricFind r.key r.type = (some id, server') ∧ server'.Good ∧
      server'.table.lookup r.key = some id ∧
      server'.metricOf =
        Function.update server.metricOf r.key (some (Store.find server.metricOf r)) := by
  have hhash := hashKey_eq hkey
  cases hfind : server.hashtableFind r.key with
  | none =>
    have hnone : server.table.lookup r.key = none := by rw [← hhash]; exact hfind
    refine ⟨server.heap.length, server.added r.key r.type, ?_,
      ⟨h.toInv.added hfind r.type, h.capacity⟩, ?_, ?_⟩
    · simp only [Server.metricFind, hfind, h.capacity, metricNew_new hfind]
      rfl
    · rw [added_lookup, if_pos hhash.symm]
    · funext k
      rw [h.toInv.metricOf_added, hhash, Function.update_apply, Store.find, metricOf_none hnone]
  | some id =>
    have hsome : server.table.lookup r.key = some id := by rw [← hhash]; exact hfind
    obtain ⟨metric, hmetric, -⟩ := h.toInv.table hsome
    refine ⟨id, server.modifyMetric id fun metric => { metric with expire := EXPIRE_ACTIVE },
      by simp only [Server.metricFind, hfind],
      ⟨h.toInv.modifyMetric id fun _ _ => rfl, h.capacity⟩, hsome, ?_⟩
    funext k
    rw [h.toInv.metricOf_modify hsome, Function.update_apply, Store.find, metricOf_eq hsome, hmetric]
    by_cases hk : k = r.key
    · rw [if_pos hk, if_pos hk, hk, metricOf_eq hsome, hmetric]; rfl
    · rw [if_neg hk, if_neg hk]

theorem Good.modifyLive {server : Server} (h : server.Good) (f : Counters → Counters) :
    (server.modifyLive f).Good := ⟨h.toInv.modifyLive f, h.capacity⟩

theorem Good.metricRecord {server : Server} (h : server.Good) {key : Key} {id : Nat}
    {metric : Metric} (hid : server.table.lookup key = some id) (hm : server.metricOf key = some metric)
    (value sample_freq : Value) (modifiers : UInt8) :
    match metric.record value sample_freq modifiers with
    | none => server.metricRecord id value sample_freq modifiers = none
    | some metric' => ∃ server', server.metricRecord id value sample_freq modifiers = some server' ∧
        server'.Good ∧ server'.metricOf = Function.update server.metricOf key (some metric') := by
  rw [metricOf_eq hid] at hm
  cases hrec : metric.record value sample_freq modifiers with
  | none => simp only [Server.metricRecord, hm, hrec, Option.map_none]
  | some metric' =>
    have hkey : metric'.key = metric.key := by
      obtain ⟨record, -, rfl⟩ := Option.map_eq_some_iff.mp hrec
      rfl
    refine ⟨server.modifyMetric id fun _ => metric',
      by simp only [Server.metricRecord, hm, hrec, Option.map_some], ⟨?_, h.capacity⟩, ?_⟩
    · refine h.toInv.modifyMetric id fun m hmem => ?_
      rw [hm] at hmem
      cases hmem
      exact hkey
    · funext k
      rw [h.toInv.metricOf_modify hid, Function.update_apply]
      by_cases hk : k = key
      · rw [if_pos hk, if_pos hk, hk, metricOf_eq hid, hm]; rfl
      · rw [if_neg hk, if_neg hk]

/-- Handling an accepted line takes the store through the same line: both go on, or both call a
missing function. -/
theorem Good.handle_view {server : Server} (h : server.Good) {r : Reading}
    (hkey : r.key.length < 2 ^ 16) :
    match Store.line server.metricOf r with
    | none => server.handle (some r) = none
    | some store =>
      ∃ server', server.handle (some r) = some server' ∧ server'.Good ∧ server'.metricOf = store := by
  have hlive := h.modifyLive fun live => { live with metrics := live.metrics + 1 }
  obtain ⟨id, server₁, hfind, hgood, hid, hview⟩ := hlive.metricFind hkey
  have hm : server₁.metricOf r.key = some (Store.find server.metricOf r) := by
    rw [hview]; exact Function.update_self ..
  have hrec := hgood.metricRecord hid hm r.value r.sample_freq r.modifiers
  simp only [Store.line, handle, hfind]
  cases hr : (Store.find server.metricOf r).record r.value r.sample_freq r.modifiers with
  | none => rw [hr] at hrec; exact hrec
  | some metric' =>
    rw [hr] at hrec
    obtain ⟨server', hserver', hgood', hview'⟩ := hrec
    refine ⟨server', hserver', hgood', ?_⟩
    rw [hview', hview]
    exact Function.update_idem ..

theorem Good.handle_line {server server' : Server} (h : server.Good) {r : Reading}
    (hkey : r.key.length < 2 ^ 16) (hhandle : server.handle (some r) = some server') :
    server'.Good ∧ Store.line server.metricOf r = some server'.metricOf := by
  have hview := h.handle_view hkey
  cases hline : Store.line server.metricOf r with
  | none =>
    rw [hline] at hview
    rw [hview] at hhandle
    cases hhandle
  | some store =>
    rw [hline] at hview
    obtain ⟨server₁, heq, hgood, rfl⟩ := hview
    rw [hhandle] at heq
    cases heq
    exact ⟨hgood, rfl⟩

theorem Good.handle_error {server : Server} (h : server.Good) :
    ∃ server', server.handle none = some server' ∧ server'.Good ∧
      server'.metricOf = server.metricOf :=
  ⟨_, rfl, h.modifyLive _, rfl⟩

/-! ## Expiry -/

theorem Good.foldl_modify {f : Metric → Metric} (hf : ∀ metric, (f metric).key = metric.key) :
    ∀ (entries : List (Key × Nat)), (entries.map Prod.fst).Nodup → ∀ {server : Server}, server.Good →
      (∀ entry ∈ entries, server.table.lookup entry.1 = some entry.2) →
      (entries.foldl (fun server entry => server.modifyMetric entry.2 f) server).Good ∧
      ∀ k, (entries.foldl (fun server entry => server.modifyMetric entry.2 f) server).metricOf k =
        if k ∈ entries.map Prod.fst then (server.metricOf k).map f else server.metricOf k := by
  intro entries
  induction entries with
  | nil => intro _ server h _; exact ⟨h, fun k => by simp⟩
  | cons entry entries ih =>
    intro hnd server h hlook
    rw [List.map_cons, List.nodup_cons] at hnd
    have hentry := hlook entry (by simp)
    have hgood : (server.modifyMetric entry.2 f).Good :=
      ⟨h.toInv.modifyMetric entry.2 fun metric _ => hf metric, h.capacity⟩
    obtain ⟨hG, hview⟩ := ih hnd.2 hgood fun e he => hlook e (List.mem_cons_of_mem _ he)
    refine ⟨hG, fun k => ?_⟩
    rw [List.foldl_cons, hview, h.toInv.metricOf_modify hentry]
    by_cases hk : k = entry.1
    · subst hk
      rw [if_neg hnd.1, if_pos rfl, if_pos (by simp)]
    · simp only [hk, if_false, List.map_cons, List.mem_cons, false_or]

theorem Good.expireTick {server : Server} (h : server.Good) :
    server.expireTick.Good ∧ server.expireTick.metricOf = Store.expire server.metricOf := by
  have hf : ∀ metric, (expireMetric metric).key = metric.key := by
    intro metric
    rw [expireMetric]
    split <;> rfl
  obtain ⟨hgood, hview⟩ := Good.foldl_modify hf server.table h.keys h
    fun entry hentry => Assoc.lookup_of_mem h.keys hentry
  refine ⟨hgood, funext fun k => ?_⟩
  rw [Server.expireTick, hview, Store.expire]
  by_cases hk : k ∈ server.table.map Prod.fst
  · rw [if_pos hk]
  · rw [if_neg hk]
    cases hlook : server.table.lookup k with
    | none => rw [metricOf_none hlook]; rfl
    | some id => exact absurd (List.mem_map_of_mem (Assoc.mem_of_lookup hlook)) hk

theorem Good.httpExpire {server : Server} (h : server.Good) (key : Key) :
    (server.httpExpire key).Good ∧
      (server.httpExpire key).metricOf = Store.disable server.metricOf (hashKey key) := by
  cases hfind : server.hashtableFind key with
  | none =>
    have hnone : server.metricOf (hashKey key) = none := metricOf_none hfind
    simp only [Server.httpExpire, hfind]
    refine ⟨h, ?_⟩
    rw [Store.disable, hnone, Option.map_none, ← hnone, Function.update_eq_self]
  | some id =>
    simp only [Server.httpExpire, hfind]
    refine ⟨⟨h.toInv.modifyMetric id fun _ _ => rfl, h.capacity⟩, funext fun k => ?_⟩
    rw [h.toInv.metricOf_modify hfind, Store.disable, Function.update_apply]
    by_cases hk : k = hashKey key
    · rw [if_pos hk, if_pos hk, hk]
    · rw [if_neg hk, if_neg hk]

section

variable {β : Type} {f : Metric → β}

/-- Nothing of a metric but its `expire` byte changes when it expires. -/
theorem Good.expireTick_map {server : Server} (h : server.Good)
    (hf : ∀ metric expire, f { metric with expire } = f metric) (key : Key) :
    (server.expireTick.metricOf key).map f = (server.metricOf key).map f := by
  have hexpire : ∀ metric, f (expireMetric metric) = f metric := by
    intro metric
    rw [expireMetric]
    split
    · exact hf metric _
    · rfl
  rw [h.expireTick.2, Store.expire, Option.map_map]
  exact congrArg (Option.map · _) (funext hexpire)

theorem Good.httpExpire_map {server : Server} (h : server.Good)
    (hf : ∀ metric expire, f { metric with expire } = f metric) (k key : Key) :
    ((server.httpExpire k).metricOf key).map f = (server.metricOf key).map f := by
  rw [(h.httpExpire k).2, Store.disable, Function.update_apply]
  by_cases hk : key = hashKey k
  · rw [if_pos hk, hk, Option.map_map]
    exact congrArg (Option.map · _) (funext fun metric => hf metric _)
  · rw [if_neg hk]

end

end Server
end Brubeck
