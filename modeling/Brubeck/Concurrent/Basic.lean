import Brubeck.Server

/-!
# Brubeck.Concurrent.Basic

`brubeck_metric_find` and `brubeck_metric_new` by many threads at once, one atomic step at a time:
the look-up, the allocation, the insertion under the mutex, the second look-up, and the
compare-and-swap loop of `brubeck_backend_register_metric` on the pointers of the queue.

* `advance`: one atomic step of a call.
* `step`: a scheduler lets any idle thread start a call, or any other take its next step.
-/

namespace Brubeck
namespace Concurrent

open Lib

structure Cell where
  metric : Metric
  next : Option Nat

/-- What the threads share. There is one head for each backend. -/
structure Shared where
  at_capacity : Bool
  heap : List Cell
  table : List (Key × Nat)
  queues : List (Option Nat)
  unique_keys : UInt32

/-- Where a call is: the step it takes next, and its local pointers. -/
inductive Point where
  | get
  | alloc
  | put (id : Nat)
  | refind
  | readHead (id : Nat)
  | setNext (id : Nat) (next : Option Nat)
  | swap (id : Nat) (next : Option Nat)
  | count (id : Nat)
  | touch (id : Nat)

structure Call where
  key : Key
  type : MetricType
  pc : Point

/-- The metric a pointer points to, as the hash table sees it. -/
def Shared.nameAt (shared : Shared) (id : Nat) : Option Key :=
  shared.heap[id]?.map fun cell => cell.metric.name

def Shared.identAt (shared : Shared) (id : Nat) : Option (Key × MetricType) :=
  shared.heap[id]?.map fun cell => (cell.metric.key, cell.metric.type)

def Shared.next (shared : Shared) (id : Nat) : Option Nat := shared.heap[id]?.bind Cell.next

/-- `brubeck_metric_shard`, for one of `active_backends`. -/
def shardOf (active_backends : Nat) (name : Key) : Nat :=
  if 1 < active_backends then (City.cityHash32 name).toNat % active_backends else 0

theorem shardOf_lt {n : Nat} (hn : 0 < n) (name : Key) : shardOf n name < n := by
  rw [shardOf]
  split
  · exact Nat.mod_lt _ hn
  · exact hn

/-- The backend of a metric. It is computed once in the code, and nothing it depends on changes. -/
def Shared.shardAt (shared : Shared) (id : Nat) : Nat :=
  shardOf shared.queues.length ((shared.nameAt id).getD [])

inductive Outcome where
  | goto (pc : Point)
  | ret (metric : Option Nat)

def Shared.modify (shared : Shared) (id : Nat) (f : Cell → Cell) : Shared :=
  { shared with heap := shared.heap.modify id f }

def Shared.setNext (shared : Shared) (id : Nat) (next : Option Nat) : Shared :=
  shared.modify id fun cell => { cell with next := next }

/-- `metric->expire = BRUBECK_EXPIRE_ACTIVE`. -/
def Shared.touch (shared : Shared) (id : Nat) : Shared :=
  shared.modify id fun cell => { cell with metric := { cell.metric with expire := EXPIRE_ACTIVE } }

/-- One atomic step of a call. -/
def advance (shared : Shared) (call : Call) : Shared × Outcome :=
  match call.pc with
  | .get =>
    match shared.table.lookup (Server.hashKey call.key) with
    | some id => (shared, .goto (.touch id))
    | none => if shared.at_capacity then (shared, .ret none) else (shared, .goto .alloc)
  | .alloc =>
    ({ shared with heap := shared.heap ++ [⟨Server.newMetric call.key call.type, none⟩] },
      .goto (.put shared.heap.length))
  | .put id =>
    let name := (shared.nameAt id).getD []
    match shared.table.lookup name with
    | some _ => (shared, .goto .refind)
    | none => ({ shared with table := (name, id) :: shared.table }, .goto (.readHead id))
  | .refind => (shared, .ret (shared.table.lookup (Server.hashKey call.key)))
  | .readHead id => (shared, .goto (.setNext id (shared.queues[shared.shardAt id]?.join)))
  | .setNext id next => (shared.setNext id next, .goto (.swap id next))
  | .swap id next =>
    if shared.queues[shared.shardAt id]?.join = next then
      ({ shared with queues := shared.queues.set (shared.shardAt id) (some id) }, .goto (.count id))
    else (shared, .goto (.readHead id))
  | .count id => ({ shared with unique_keys := shared.unique_keys + 1 }, .ret (some id))
  | .touch id => (shared.touch id, .ret (some id))

structure Return where
  key : Key
  type : MetricType
  metric : Option Nat

def Outcome.thread (call : Call) : Outcome → Option Call
  | .goto pc => some { call with pc := pc }
  | .ret _ => none

def Outcome.returns (call : Call) : Outcome → List Return
  | .goto _ => []
  | .ret metric => [⟨call.key, call.type, metric⟩]

structure State where
  shared : Shared
  threads : List (Option Call)

/-- The scheduler lets an idle thread start a call, or a thread in a call take its next step.
`brubeck_internal__init` calls `brubeck_metric_new` directly. -/
inductive Event where
  | find (i : Nat) (key : Key) (type : MetricType)
  | new (i : Nat) (key : Key) (type : MetricType)
  | run (i : Nat)

def State.start (s : State) (i : Nat) (call : Call) : Option (State × List Return) :=
  match s.threads[i]? with
  | some none => some ({ s with threads := s.threads.set i (some call) }, [])
  | _ => none

def step (s : State) : Event → Option (State × List Return)
  | .find i key type => s.start i ⟨key, type, .get⟩
  | .new i key type => s.start i ⟨key, type, .alloc⟩
  | .run i =>
    match s.threads[i]? with
    | some (some call) =>
      let (shared, outcome) := advance s.shared call
      some (⟨shared, s.threads.set i (outcome.thread call)⟩, outcome.returns call)
    | _ => none

def start (n m : Nat) : State where
  shared := ⟨false, [], [], .replicate m none, 0⟩
  threads := .replicate n none

end Concurrent
end Brubeck
