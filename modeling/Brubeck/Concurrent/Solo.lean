import Brubeck.Concurrent.Steps

/-!
# Brubeck.Concurrent.Solo

A call that no other call interrupts. The server model of `Server`, which takes `brubeck_metric_find`
as one step, is what the threads do then.

* `Refines`: the pointers of the queues, against the queues of `Server` as lists.
* `solo_find`: both models go through the call, return the same metric, and stay related.
-/

namespace Brubeck
namespace Concurrent

open Lib

/-- All the steps of a call, one after the other. -/
def solo : Nat → Shared → Call → Option (Shared × Option Nat)
  | 0, _, _ => none
  | fuel + 1, shared, call =>
    match advance shared call with
    | (shared, .ret metric) => some (shared, metric)
    | (shared, .goto pc) => solo fuel shared { call with pc := pc }

structure Refines (shared : Shared) (lists : List (List Nat)) (server : Server) : Prop where
  linked : Linked shared lists
  capacity : server.at_capacity = false
  heap : shared.heap.map Cell.metric = server.heap
  table : shared.table = server.table
  queues : lists = server.backends.map Carbon.queue
  unique_keys : shared.unique_keys = server.internal_stats.live.unique_keys

theorem map_modify {α β : Type} {f : α → α} {g : α → β} {h : β → β} (hfg : ∀ a, g (f a) = h (g a))
    (l : List α) (i : Nat) : (l.modify i f).map g = (l.map g).modify i h := by
  apply List.ext_getElem?
  intro j
  rw [List.getElem?_map, List.getElem?_modify, List.getElem?_modify, List.getElem?_map]
  cases l[j]? with
  | none => rfl
  | some a =>
    by_cases hij : i = j
    · simp [hij, hfg]
    · simp [hij]

variable {shared : Shared} {lists : List (List Nat)} {server : Server}

theorem Refines.touch (h : Refines shared lists server) (id : Nat) :
    Refines (shared.touch id) lists
      (server.modifyMetric id fun metric => { metric with expire := EXPIRE_ACTIVE }) where
  linked := h.linked.heap (fun hx => by rw [← hx]; exact identAt_touch ..) fun j _ => next_touch ..
  capacity := h.capacity
  heap := by
    show (shared.heap.modify id _).map Cell.metric = server.heap.modify id _
    rw [← h.heap]
    apply map_modify
    exact fun _ => rfl
  table := h.table
  queues := h.queues
  unique_keys := h.unique_keys

theorem Refines.shard (h : Refines shared lists server) (metric : Metric) :
    server.metricShard metric = shardOf shared.queues.length metric.name := by
  have hlen : shared.queues.length = server.backends.length := by
    rw [← h.linked.length_eq, h.queues, List.length_map]
  rw [Server.metricShard, shardOf, hlen]

/-! ## A new key -/

/-- The heap and the table after the insertion. -/
def Shared.inserted (shared : Shared) (key : Key) (type : MetricType) : Shared :=
  { shared with
    heap := shared.heap ++ [⟨Server.newMetric key type, none⟩]
    table := (Server.hashKey key, shared.heap.length) :: shared.table }

/-- The shared state after the whole of `brubeck_metric_new`, in the queue `b` with the first entry
`head`. -/
def Shared.added (shared : Shared) (key : Key) (type : MetricType) (b : Nat) (head : Option Nat) :
    Shared :=
  { (shared.inserted key type).setNext shared.heap.length head with
    queues := shared.queues.set b (some shared.heap.length)
    unique_keys := shared.unique_keys + 1 }

theorem nameAt_append (shared : Shared) (key : Key) (type : MetricType) :
    Shared.nameAt { shared with heap := shared.heap ++ [⟨Server.newMetric key type, none⟩] }
      shared.heap.length = some (Server.hashKey key) := by
  simp [Shared.nameAt, Metric.name, Metric.key_len, Server.newMetric, Server.hashKey]

theorem nameAt_inserted (shared : Shared) (key : Key) (type : MetricType) :
    (shared.inserted key type).nameAt shared.heap.length = some (Server.hashKey key) :=
  nameAt_append shared key type

theorem nameAt_setNext (shared : Shared) (id : Nat) (next : Option Nat) (j : Nat) :
    (shared.setNext id next).nameAt j = shared.nameAt j := by
  rw [nameAt_eq, nameAt_eq, identAt_setNext]

theorem Linked.inserted (h : Linked shared lists) {key : Key}
    (hnew : shared.table.lookup (Server.hashKey key) = none) (type : MetricType) :
    Linked (shared.inserted key type) lists := by
  obtain ⟨hident, hnext⟩ := alloc_heap shared (Server.newMetric key type)
  exact (h.heap hident fun id _ => hnext id).put hnew (nameAt_append shared key type)

/-- What is queued is on the heap, so the next block to be allocated is not queued. -/
theorem Linked.unqueued (h : Linked shared lists) : shared.heap.length ∉ lists.flatten := by
  intro hid
  obtain ⟨l, hmem, hid⟩ := List.mem_flatten.mp hid
  obtain ⟨b, hb⟩ := List.mem_iff_getElem?.mp hmem
  obtain ⟨k, hk, -⟩ := h.queued hb hid
  have hname := h.named hk
  simp [Shared.nameAt] at hname

theorem Linked.added (h : Linked shared lists) {key : Key}
    (hnew : shared.table.lookup (Server.hashKey key) = none) (type : MetricType) {b : Nat}
    (hb : b = shardOf shared.queues.length (Server.hashKey key)) {l : List Nat}
    (hl : lists[b]? = some l) {head : Option Nat} (hhead : shared.queues[b]? = some head) :
    Linked (shared.added key type b head) (lists.set b (shared.heap.length :: l)) := by
  have hnext : Linked ((shared.inserted key type).setNext shared.heap.length head) lists := by
    refine (h.inserted hnew type).heap (fun hx => by rw [← hx]; exact identAt_setNext ..) fun j hj =>
      next_setNext_ne _ ?_ head
    rintro rfl
    exact h.unqueued hj
  have hswap := hnext.swap List.lookup_cons_self h.unqueued hb hl hhead
    (next_setNext_self (nameAt_inserted shared key type) head)
  exact ⟨hswap.capacity, hswap.backends, hswap.length_eq, hswap.chain, hswap.nodup, hswap.keys,
    hswap.named, hswap.queued⟩

/-- The steps of `brubeck_metric_new` for a key that is not in the table. -/
theorem solo_new {key : Key} (hnew : shared.table.lookup (Server.hashKey key) = none)
    (type : MetricType) {b : Nat} (hb : b = shardOf shared.queues.length (Server.hashKey key))
    {head : Option Nat} (hhead : shared.queues[b]? = some head) :
    solo 6 shared ⟨key, type, .alloc⟩ =
      some (shared.added key type b head, some shared.heap.length) := by
  let id := shared.heap.length
  let s₁ : Shared := { shared with heap := shared.heap ++ [⟨Server.newMetric key type, none⟩] }
  let s₂ := shared.inserted key type
  let s₃ := s₂.setNext id head
  have hput : advance s₁ ⟨key, type, .put id⟩ = (s₂, .goto (.readHead id)) := by
    simp only [advance, s₁, id, nameAt_append, Option.getD_some, hnew]
    rfl
  have hread : advance s₂ ⟨key, type, .readHead id⟩ = (s₂, .goto (.setNext id head)) := by
    have hshard : s₂.shardAt id = b := by
      rw [hb, Shared.shardAt, nameAt_inserted]
      rfl
    simp only [advance, hshard]
    rw [show s₂.queues[b]? = some head from hhead, Option.join_some]
  have hswap : advance s₃ ⟨key, type, .swap id head⟩ =
      ({ s₃ with queues := shared.queues.set b (some id) }, .goto (.count id)) := by
    have hshard : s₃.shardAt id = b := by
      rw [hb, Shared.shardAt, nameAt_setNext, nameAt_inserted]
      rfl
    simp only [advance, hshard]
    rw [show s₃.queues[b]? = some head from hhead, Option.join_some, if_pos rfl]
    rfl
  rw [solo, show advance shared ⟨key, type, .alloc⟩ = (s₁, .goto (.put id)) from rfl]
  simp only [solo, hput, hread]
  rw [show advance s₂ ⟨key, type, .setNext id head⟩ = (s₃, .goto (.swap id head)) from rfl]
  simp only [hswap]
  rfl

theorem Refines.added (h : Refines shared lists server) {key : Key}
    (hnew : shared.table.lookup (Server.hashKey key) = none) (type : MetricType) {b : Nat}
    (hb : b = shardOf shared.queues.length (Server.hashKey key)) {l : List Nat}
    (hl : lists[b]? = some l) {head : Option Nat} (hhead : shared.queues[b]? = some head) :
    Refines (shared.added key type b head) (lists.set b (shared.heap.length :: l))
      (server.added key type) where
  linked := h.linked.added hnew type hb hl hhead
  capacity := h.capacity
  heap := by
    show ((shared.inserted key type).heap.modify shared.heap.length fun cell =>
      { cell with next := head }).map Cell.metric = server.heap ++ [Server.newMetric key type]
    refine (map_modify (h := id) (by intro _; rfl) _ _).trans ?_
    rw [List.modify_id, Shared.inserted, List.map_append, h.heap]
    rfl
  table := by
    show (Server.hashKey key, shared.heap.length) :: shared.table = _ :: server.table
    rw [h.table, ← List.length_map Cell.metric, h.heap]
  queues := by
    have hshard : server.metricShard (Server.newMetric key type) = b := by
      rw [h.shard, hb, Server.newMetric_name]
    have hlen : shared.heap.length = server.heap.length := by rw [← h.heap, List.length_map]
    show lists.set b (shared.heap.length :: l) = (server.backends.modify
      (server.metricShard (Server.newMetric key type)) fun carbon =>
        { carbon with queue := server.heap.length :: carbon.queue }).map Carbon.queue
    refine Eq.trans ?_ (map_modify (h := (server.heap.length :: ·)) (by intro _; rfl) _ _).symm
    rw [hshard, ← h.queues, List.modify_eq_set, hl, hlen]
    rfl
  unique_keys := by
    show shared.unique_keys + 1 = server.internal_stats.live.unique_keys + 1
    rw [h.unique_keys]

/-- `brubeck_metric_find`, by a thread that is not interrupted. -/
theorem solo_find (h : Refines shared lists server) (key : Key) (type : MetricType) :
    ∃ shared' lists',
      solo 7 shared ⟨key, type, .get⟩ = some (shared', (server.metricFind key type).1) ∧
      Refines shared' lists' (server.metricFind key type).2 := by
  have hlookup : server.hashtableFind key = shared.table.lookup (Server.hashKey key) := by
    rw [Server.hashtableFind, h.table]
  cases hfind : shared.table.lookup (Server.hashKey key) with
  | some id =>
    rw [hfind] at hlookup
    simp only [Server.metricFind, hlookup]
    refine ⟨shared.touch id, lists, ?_, h.touch id⟩
    simp only [solo, advance, hfind]
  | none =>
    rw [hfind] at hlookup
    have hlt := shardOf_lt h.linked.backends (Server.hashKey key)
    obtain ⟨head, hhead⟩ : ∃ head, shared.queues[shardOf shared.queues.length (Server.hashKey key)]? =
        some head := ⟨_, List.getElem?_eq_getElem hlt⟩
    obtain ⟨l, hl⟩ : ∃ l, lists[shardOf shared.queues.length (Server.hashKey key)]? = some l :=
      ⟨_, List.getElem?_eq_getElem (h.linked.length_eq ▸ hlt)⟩
    have hlen : server.heap.length = shared.heap.length := by rw [← h.heap, List.length_map]
    simp only [Server.metricFind, hlookup, h.capacity, Bool.false_eq_true, if_false,
      Server.metricNew_new hlookup, hlen]
    refine ⟨_, _, ?_, h.added hfind type rfl hl hhead⟩
    rw [solo]
    simp only [advance, hfind, h.linked.capacity, Bool.false_eq_true, if_false]
    exact solo_new hfind type rfl hhead

end Concurrent
end Brubeck
