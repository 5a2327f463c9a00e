import Brubeck.Concurrent.Basic
import Brubeck.Lib.Assoc
import Brubeck.Lib.Chain

/-!
# Brubeck.Concurrent.Steps

* `Inv`: what every interleaving keeps. A thread owns the metric it has allocated until the metric
  is in a queue, and no other thread touches its `next` pointer before that.
* `Frame`: what a step leaves alone for the other threads. `Inv.set` puts the two together.
* `advance_inv`: each kind of step keeps the invariant.
-/

namespace Brubeck
namespace Concurrent

open Lib

/-! ## What every interleaving keeps -/

/-- The metric that a call has allocated and not yet queued. -/
def Point.owns : Point → Option Nat
  | .put id | .readHead id | .setNext id _ | .swap id _ => some id
  | _ => none

/-- In the table, not yet in a queue. -/
def Point.registering : Point → Bool
  | .readHead _ | .setNext .. | .swap .. => true
  | _ => false

/-- In a queue, not yet counted. -/
def Point.counting : Point → Bool
  | .count _ => true
  | _ => false

def calls (p : Point → Bool) (threads : List (Option Call)) : Nat :=
  threads.countP fun thread => thread.any fun call => p call.pc

/-- What a call knows at its point. -/
def Knows (shared : Shared) (lists : List (List Nat)) (call : Call) : Prop :=
  match call.pc with
  | .get | .alloc => True
  | .put id => shared.nameAt id = some (Server.hashKey call.key) ∧ ∀ k, shared.table.lookup k ≠ some id
  | .refind => shared.table.lookup (Server.hashKey call.key) ≠ none
  | .readHead id | .setNext id _ =>
    shared.table.lookup (Server.hashKey call.key) = some id ∧ id ∉ lists.flatten
  | .swap id next =>
    shared.table.lookup (Server.hashKey call.key) = some id ∧ id ∉ lists.flatten ∧
      shared.next id = next
  | .count id | .touch id => shared.table.lookup (Server.hashKey call.key) = some id

/-- The table and the queues. `lists` are the metrics that the queues link together. -/
structure Linked (shared : Shared) (lists : List (List Nat)) : Prop where
  capacity : shared.at_capacity = false
  backends : 0 < shared.queues.length
  length_eq : lists.length = shared.queues.length
  chain : ∀ {b : Nat} {head l}, shared.queues[b]? = some head → lists[b]? = some l →
    Chain shared.next head l
  nodup : lists.flatten.Nodup
  keys : (shared.table.map Prod.fst).Nodup
  named : ∀ {k id}, shared.table.lookup k = some id → shared.nameAt id = some k
  queued : ∀ {b : Nat} {l id}, lists[b]? = some l → id ∈ l →
    ∃ k, shared.table.lookup k = some id ∧ shardOf shared.queues.length k = b

/-- What every interleaving keeps. `added` counts the increments of `unique_keys`, which wraps. -/
structure Inv (s : State) (lists : List (List Nat)) (added : Nat) : Prop where
  linked : Linked s.shared lists
  knows : ∀ {i : Nat} {call}, s.threads[i]? = some (some call) → Knows s.shared lists call
  owned : ∀ {i j : Nat} {call call' : Call} {id}, s.threads[i]? = some (some call) →
    s.threads[j]? = some (some call') → call.pc.owns = some id → call'.pc.owns = some id → i = j
  registered : s.shared.table.length = lists.flatten.length + calls Point.registering s.threads
  counted : lists.flatten.length = added + calls Point.counting s.threads
  unique_keys : s.shared.unique_keys = UInt32.ofNat added

/-- What a step does not change for the other threads, when the call that takes it owns `own`. -/
structure Frame (own : Option Nat) (shared : Shared) (lists : List (List Nat)) (shared' : Shared)
    (lists' : List (List Nat)) : Prop where
  ident : ∀ {id x}, shared.identAt id = some x → shared'.identAt id = some x
  next : ∀ {id}, own ≠ some id → shared'.next id = shared.next id
  lookup : ∀ {k id}, shared.table.lookup k = some id → shared'.table.lookup k = some id
  fresh : ∀ {id}, own ≠ some id → (∀ k, shared.table.lookup k ≠ some id) →
    ∀ k, shared'.table.lookup k ≠ some id
  unqueued : ∀ {id}, own ≠ some id → id ∉ lists.flatten → id ∉ lists'.flatten
  backends : shared'.queues.length = shared.queues.length

theorem nameAt_eq (shared : Shared) (id : Nat) :
    shared.nameAt id = (shared.identAt id).map fun x => Server.hashKey x.1 := by
  rw [Shared.nameAt, Shared.identAt, Option.map_map]
  rfl

theorem Frame.name {own : Option Nat} {shared shared' : Shared} {lists lists' : List (List Nat)}
    (h : Frame own shared lists shared' lists') {id : Nat} {k : Key} (hk : shared.nameAt id = some k) :
    shared'.nameAt id = some k := by
  rw [nameAt_eq] at hk ⊢
  obtain ⟨x, hx, rfl⟩ := Option.map_eq_some_iff.mp hk
  rw [h.ident hx]
  rfl

theorem Knows.frame {own : Option Nat} {shared shared' : Shared} {lists lists' : List (List Nat)}
    (h : Frame own shared lists shared' lists') {call : Call}
    (hown : ∀ id, call.pc.owns = some id → own ≠ some id) (hk : Knows shared lists call) :
    Knows shared' lists' call := by
  obtain ⟨key, type, pc⟩ := call
  cases pc with
  | get => trivial
  | alloc => trivial
  | put id => exact ⟨h.name hk.1, h.fresh (hown id rfl) hk.2⟩
  | refind =>
    obtain ⟨id, hid⟩ := Option.ne_none_iff_exists'.mp hk
    exact Option.ne_none_iff_exists'.mpr ⟨id, h.lookup hid⟩
  | readHead id => exact ⟨h.lookup hk.1, h.unqueued (hown id rfl) hk.2⟩
  | setNext id next => exact ⟨h.lookup hk.1, h.unqueued (hown id rfl) hk.2⟩
  | swap id next =>
    exact ⟨h.lookup hk.1, h.unqueued (hown id rfl) hk.2.1, (h.next (hown id rfl)).trans hk.2.2⟩
  | count id => exact h.lookup hk
  | touch id => exact h.lookup hk

/-- What a call owns is on the heap. -/
theorem Knows.alive {shared : Shared} {lists : List (List Nat)} (hl : Linked shared lists)
    {call : Call} (hk : Knows shared lists call) {id : Nat} (hown : call.pc.owns = some id) :
    ∃ k, shared.nameAt id = some k := by
  obtain ⟨key, type, pc⟩ := call
  cases pc with
  | put id' => cases hown; exact ⟨_, hk.1⟩
  | readHead id' => cases hown; exact ⟨_, hl.named hk.1⟩
  | setNext id' next => cases hown; exact ⟨_, hl.named hk.1⟩
  | swap id' next => cases hown; exact ⟨_, hl.named hk.1⟩
  | get => cases hown
  | alloc => cases hown
  | refind => cases hown
  | count id' => cases hown
  | touch id' => cases hown

/-- What a call owns is in no queue yet. -/
theorem Knows.unqueued {shared : Shared} {lists : List (List Nat)} (hl : Linked shared lists)
    {call : Call} (hk : Knows shared lists call) {id : Nat} (hown : call.pc.owns = some id) :
    id ∉ lists.flatten := by
  obtain ⟨key, type, pc⟩ := call
  cases pc with
  | put id' =>
    cases hown
    intro hid
    -- what is queued is in the table, and this metric is not
    obtain ⟨l, hmem, hid⟩ := List.mem_flatten.mp hid
    obtain ⟨b, hb⟩ := List.mem_iff_getElem?.mp hmem
    obtain ⟨k, hlookup, -⟩ := hl.queued hb hid
    exact hk.2 k hlookup
  | readHead id' => cases hown; exact hk.2
  | setNext id' next => cases hown; exact hk.2
  | swap id' next => cases hown; exact hk.2.1
  | get => cases hown
  | alloc => cases hown
  | refind => cases hown
  | count id' => cases hown
  | touch id' => cases hown

/-! ## One thread takes a step -/

def weight (p : Point → Bool) (thread : Option Call) : Nat :=
  if thread.any fun call => p call.pc then 1 else 0

theorem calls_set (p : Point → Bool) {threads : List (Option Call)} {i : Nat} {thread : Option Call}
    (h : threads[i]? = some thread) (thread' : Option Call) :
    calls p (threads.set i thread') + weight p thread = calls p threads + weight p thread' := by
  induction threads generalizing i with
  | nil => cases h
  | cons t threads ih =>
    cases i with
    | zero =>
      obtain rfl : t = thread := by simpa using h
      simp only [calls, weight, List.set_cons_zero, List.countP_cons]
      omega
    | succ i =>
      have ih := ih (by simpa using h)
      simp only [calls, weight, List.set_cons_succ, List.countP_cons] at ih ⊢
      omega

/-- Thread `i` takes a step, and is left at `thread`. -/
theorem Inv.set {s : State} {lists lists' : List (List Nat)} {added added' : Nat}
    (h : Inv s lists added) {i : Nat} {before : Option Call} (hi : s.threads[i]? = some before)
    {shared : Shared} (hlinked : Linked shared lists') {own : Option Nat}
    (hown : ∀ id, own = some id → ∃ call, before = some call ∧ call.pc.owns = some id)
    (hframe : Frame own s.shared lists shared lists') (thread : Option Call)
    (hknows : ∀ call, thread = some call → Knows shared lists' call ∧
      ∀ id, call.pc.owns = some id → own = some id ∨ s.shared.nameAt id = none)
    (hregistered : shared.table.length + lists.flatten.length + weight Point.registering before =
      s.shared.table.length + lists'.flatten.length + weight Point.registering thread)
    (hcounted : lists'.flatten.length + added + weight Point.counting before =
      lists.flatten.length + added' + weight Point.counting thread)
    (hunique : shared.unique_keys = UInt32.ofNat added') :
    Inv ⟨shared, s.threads.set i thread⟩ lists' added' := by
  have hget : ∀ {j : Nat} {call : Call}, (s.threads.set i thread)[j]? = some (some call) →
      (j = i ∧ thread = some call) ∨ (j ≠ i ∧ s.threads[j]? = some (some call)) := by
    intro j call hj
    by_cases hji : j = i
    · subst hji
      have hlt : j < s.threads.length := (List.getElem?_eq_some_iff.mp hi).1
      rw [List.getElem?_set_self hlt] at hj
      exact .inl ⟨rfl, Option.some.inj hj⟩
    · rw [List.getElem?_set_ne (Ne.symm hji)] at hj
      exact .inr ⟨hji, hj⟩
  -- no other thread owns what this one owned before, or what nobody could
  have hother : ∀ {j : Nat} {call : Call} {id : Nat}, j ≠ i → s.threads[j]? = some (some call) →
      call.pc.owns = some id → own ≠ some id ∧ s.shared.nameAt id ≠ none := by
    intro j call id hji hj hid
    constructor
    · intro hmine
      obtain ⟨mine, rfl, hmine⟩ := hown id hmine
      exact hji (h.owned hj hi hid hmine)
    · obtain ⟨k, hk⟩ := (h.knows hj).alive h.linked hid
      rw [hk]
      exact fun h => by cases h
  refine ⟨hlinked, ?_, ?_, ?_, ?_, hunique⟩
  · intro j call hj
    rcases hget hj with ⟨-, hcall⟩ | ⟨hji, hj⟩
    · exact (hknows call hcall).1
    · exact (h.knows hj).frame hframe fun id hid => (hother hji hj hid).1
  · intro j k call call' id hj hk hid hid'
    rcases hget hj with ⟨hji, hcall⟩ | ⟨hji, hj'⟩
    · rcases hget hk with ⟨hki, -⟩ | ⟨hki, hk'⟩
      · rw [hji, hki]
      · have hnot := hother hki hk' hid'
        rcases (hknows call hcall).2 id hid with hmine | hnew
        · exact absurd hmine hnot.1
        · exact absurd hnew hnot.2
    · rcases hget hk with ⟨hki, hcall⟩ | ⟨hki, hk'⟩
      · have hnot := hother hji hj' hid
        rcases (hknows call' hcall).2 id hid' with hmine | hnew
        · exact absurd hmine hnot.1
        · exact absurd hnew hnot.2
      · exact h.owned hj' hk' hid hid'
  · have := calls_set Point.registering hi thread
    have := h.registered
    show shared.table.length =
      lists'.flatten.length + calls Point.registering (s.threads.set i thread)
    omega
  · have := calls_set Point.counting hi thread
    have := h.counted
    show lists'.flatten.length = added' + calls Point.counting (s.threads.set i thread)
    omega

/-! ## What the steps do to the server -/

theorem Frame.refl (own : Option Nat) (shared : Shared) (lists : List (List Nat)) :
    Frame own shared lists shared lists :=
  ⟨id, fun _ => rfl, id, fun _ => id, fun _ => id, rfl⟩

/-- A change to the heap that keeps the keys and types, and the pointers in the queues. -/
theorem Linked.heap {shared : Shared} {lists : List (List Nat)} (h : Linked shared lists)
    {heap : List Cell}
    (hident : ∀ {id x}, shared.identAt id = some x →
      Shared.identAt { shared with heap := heap } id = some x)
    (hnext : ∀ id ∈ lists.flatten, Shared.next { shared with heap := heap } id = shared.next id) :
    Linked { shared with heap := heap } lists where
  capacity := h.capacity
  backends := h.backends
  length_eq := h.length_eq
  chain := by
    intro b head l hhead hl
    exact (h.chain hhead hl).congr fun id hid =>
      hnext id (List.mem_flatten_of_mem (List.mem_of_getElem? hl) hid)
  nodup := h.nodup
  keys := h.keys
  named := by
    intro k id hlookup
    have hname := h.named hlookup
    rw [nameAt_eq] at hname ⊢
    obtain ⟨x, hx, rfl⟩ := Option.map_eq_some_iff.mp hname
    rw [hident hx]
    rfl
  queued := h.queued

theorem Frame.heap {own : Option Nat} {shared : Shared} {heap : List Cell} (lists : List (List Nat))
    (hident : ∀ {id x}, shared.identAt id = some x →
      Shared.identAt { shared with heap := heap } id = some x)
    (hnext : ∀ {id}, own ≠ some id → Shared.next { shared with heap := heap } id = shared.next id) :
    Frame own shared lists { shared with heap := heap } lists :=
  ⟨hident, hnext, id, fun _ => id, fun _ => id, rfl⟩

theorem alloc_heap (shared : Shared) (metric : Metric) :
    (∀ {id x}, shared.identAt id = some x →
      Shared.identAt { shared with heap := shared.heap ++ [⟨metric, none⟩] } id = some x) ∧
    ∀ id, Shared.next { shared with heap := shared.heap ++ [⟨metric, none⟩] } id = shared.next id := by
  constructor
  · intro id x hx
    obtain ⟨cell, hcell, rfl⟩ := Option.map_eq_some_iff.mp hx
    have hlt : id < shared.heap.length := (List.getElem?_eq_some_iff.mp hcell).1
    simp only [Shared.identAt, List.getElem?_append_left hlt, hcell, Option.map_some]
  · intro id
    by_cases hlt : id < shared.heap.length
    · simp only [Shared.next, List.getElem?_append_left hlt]
    · simp only [Shared.next, List.getElem?_append_right (Nat.not_lt.mp hlt), List.getElem?_singleton,
        List.getElem?_eq_none (Nat.not_lt.mp hlt)]
      split <;> rfl

theorem identAt_modify (shared : Shared) (id : Nat) {f : Cell → Cell}
    (hf : ∀ cell, (f cell).metric.key = cell.metric.key ∧ (f cell).metric.type = cell.metric.type)
    (j : Nat) : (shared.modify id f).identAt j = shared.identAt j := by
  simp only [Shared.identAt, Shared.modify, List.getElem?_modify, Option.map_eq_map, Option.map_map]
  cases shared.heap[j]? with
  | none => rfl
  | some cell =>
    simp only [Option.map_some, Function.comp_apply]
    split
    · rw [(hf cell).1, (hf cell).2]
    · rfl

theorem identAt_setNext (shared : Shared) (id : Nat) (next : Option Nat) (j : Nat) :
    (shared.setNext id next).identAt j = shared.identAt j := by
  rw [Shared.setNext, identAt_modify]
  exact fun _ => ⟨rfl, rfl⟩

theorem identAt_touch (shared : Shared) (id j : Nat) :
    (shared.touch id).identAt j = shared.identAt j := by
  rw [Shared.touch, identAt_modify]
  exact fun _ => ⟨rfl, rfl⟩

theorem next_modify (shared : Shared) (id : Nat) (f : Cell → Cell) (j : Nat) :
    (shared.modify id f).next j =
      shared.heap[j]?.bind fun cell => if id = j then (f cell).next else cell.next := by
  simp only [Shared.next, Shared.modify, List.getElem?_modify]
  cases shared.heap[j]? with
  | none => rfl
  | some cell =>
    simp only [Option.map_eq_map, Option.map_some, Option.bind_some]
    split <;> rfl

theorem next_setNext_self {shared : Shared} {id : Nat} {k : Key} (h : shared.nameAt id = some k)
    (next : Option Nat) : (shared.setNext id next).next id = next := by
  obtain ⟨cell, hcell, -⟩ := Option.map_eq_some_iff.mp h
  simp only [Shared.setNext, next_modify, hcell, Option.bind_some, if_true]

theorem next_setNext_ne (shared : Shared) {id j : Nat} (h : id ≠ j) (next : Option Nat) :
    (shared.setNext id next).next j = shared.next j := by
  simp only [Shared.setNext, next_modify, if_neg h]
  rfl

theorem next_touch (shared : Shared) (id j : Nat) : (shared.touch id).next j = shared.next j := by
  simp only [Shared.touch, next_modify, ite_self]
  rfl

/-- `ck_ht_put_spmc` of a key that is not there. -/
theorem Linked.put {shared : Shared} {lists : List (List Nat)} (h : Linked shared lists) {k : Key}
    {id : Nat} (hnew : shared.table.lookup k = none) (hname : shared.nameAt id = some k) :
    Linked { shared with table := (k, id) :: shared.table } lists where
  capacity := h.capacity
  backends := h.backends
  length_eq := h.length_eq
  chain := h.chain
  nodup := h.nodup
  keys := by
    rw [List.map_cons, List.nodup_cons]
    exact ⟨Assoc.notMem_of_lookup hnew, h.keys⟩
  named := by
    intro k' id' hlookup
    rw [Assoc.lookup_cons] at hlookup
    split at hlookup
    · rename_i heq
      cases hlookup
      rw [heq]
      exact hname
    · exact h.named hlookup
  queued := by
    intro b l id' hl hid
    obtain ⟨k', hlookup, hshard⟩ := h.queued hl hid
    refine ⟨k', ?_, hshard⟩
    rw [Assoc.lookup_cons, if_neg]
    · exact hlookup
    · rintro rfl
      rw [hnew] at hlookup
      cases hlookup

theorem Frame.put {shared : Shared} (lists : List (List Nat)) {k : Key} {id : Nat}
    (hnew : shared.table.lookup k = none) :
    Frame (some id) shared lists { shared with table := (k, id) :: shared.table } lists where
  ident := fun h => h
  next _ := rfl
  lookup := by
    intro k' id' hlookup
    rw [Assoc.lookup_cons, if_neg]
    · exact hlookup
    · rintro rfl
      rw [hnew] at hlookup
      cases hlookup
  fresh := by
    intro id' hne hfresh k'
    rw [Assoc.lookup_cons]
    split
    · exact hne
    · exact hfresh k'
  unqueued _ := fun h => h
  backends := rfl

/-- A compare-and-swap that succeeds: the metric is now the first one of its queue. -/
theorem Linked.swap {shared : Shared} {lists : List (List Nat)} (h : Linked shared lists) {k : Key}
    {id : Nat} (hk : shared.table.lookup k = some id) (hid : id ∉ lists.flatten) {b : Nat}
    (hb : b = shardOf shared.queues.length k) {l : List Nat} (hl : lists[b]? = some l)
    {head : Option Nat} (hhead : shared.queues[b]? = some head) (hnext : shared.next id = head) :
    Linked { shared with queues := shared.queues.set b (some id) } (lists.set b (id :: l)) := by
  have hperm := flatten_set_cons_perm id hl
  have hlt : b < lists.length := (List.getElem?_eq_some_iff.mp hl).1
  have hlt' : b < shared.queues.length := (List.getElem?_eq_some_iff.mp hhead).1
  refine ⟨h.capacity, ?_, ?_, ?_, ?_, h.keys, h.named, ?_⟩
  · rw [List.length_set]
    exact h.backends
  · rw [List.length_set, List.length_set]
    exact h.length_eq
  · intro b' head' l' hhead' hl'
    by_cases heq : b = b'
    · subst heq
      rw [List.getElem?_set_self hlt'] at hhead'
      rw [List.getElem?_set_self hlt] at hl'
      cases hhead'
      cases hl'
      apply Chain.cons
      rw [show Shared.next { shared with queues := shared.queues.set b (some id) } id = head from hnext]
      exact h.chain hhead hl
    · rw [List.getElem?_set_ne heq] at hhead' hl'
      exact h.chain hhead' hl'
  · rw [hperm.nodup_iff, List.nodup_cons]
    exact ⟨hid, h.nodup⟩
  · intro b' l' id' hl' hid'
    simp only [List.length_set]
    by_cases heq : b = b'
    · subst heq
      rw [List.getElem?_set_self hlt] at hl'
      cases hl'
      rcases List.mem_cons.mp hid' with rfl | hid'
      · exact ⟨k, hk, hb.symm⟩
      · exact h.queued hl hid'
    · rw [List.getElem?_set_ne heq] at hl'
      exact h.queued hl' hid'

theorem Frame.swap {shared : Shared} {lists : List (List Nat)} {id b : Nat} {l : List Nat}
    (hl : lists[b]? = some l) :
    Frame (some id) shared lists { shared with queues := shared.queues.set b (some id) }
      (lists.set b (id :: l)) where
  ident := fun h => h
  next _ := rfl
  lookup := fun h => h
  fresh _ := fun h => h
  unqueued := by
    intro id' hne hid'
    rw [(flatten_set_cons_perm id hl).mem_iff, List.mem_cons, not_or]
    exact ⟨fun heq => hne (by rw [heq]), hid'⟩
  backends := List.length_set

/-! ## Every step -/

theorem Inv.quiet {s : State} {lists : List (List Nat)} {added : Nat} (h : Inv s lists added) {i : Nat}
    {call : Call} (hi : s.threads[i]? = some (some call)) (thread : Option Call)
    (hknows : ∀ call', thread = some call' → Knows s.shared lists call' ∧
      ∀ id, call'.pc.owns = some id → call.pc.owns = some id)
    (hregistering : weight Point.registering (some call) = weight Point.registering thread)
    (hcounting : weight Point.counting (some call) = weight Point.counting thread) :
    Inv ⟨s.shared, s.threads.set i thread⟩ lists added := by
  refine h.set hi h.linked (fun id hid => ⟨call, rfl, hid⟩) (Frame.refl ..) thread ?_ ?_ ?_
    h.unique_keys
  · intro call' hcall
    obtain ⟨hk, hown⟩ := hknows call' hcall
    exact ⟨hk, fun id hid => .inl (hown id hid)⟩
  · rw [hregistering]
  · rw [hcounting]

/-- What is known after a step: the invariant, the frame, and what the call returned. -/
structure Stepped (s : State) (lists : List (List Nat)) (i : Nat) (call : Call) (r : Shared × Outcome)
    (lists' : List (List Nat)) (added' : Nat) : Prop where
  inv : Inv ⟨r.1, s.threads.set i (r.2.thread call)⟩ lists' added'
  frame : Frame call.pc.owns s.shared lists r.1 lists'
  returns : ∀ ret ∈ r.2.returns call, ∃ id, ret.metric = some id ∧
    r.1.table.lookup (Server.hashKey ret.key) = some id

variable {s : State} {lists : List (List Nat)} {added i : Nat} {key : Key} {type : MetricType}

theorem Stepped.goto {call : Call} (h : Inv s lists added) (hi : s.threads[i]? = some (some call))
    {pc : Point} (hknows : Knows s.shared lists { call with pc := pc })
    (howns : ∀ id, pc.owns = some id → call.pc.owns = some id)
    (hregistering : call.pc.registering = pc.registering)
    (hcounting : call.pc.counting = pc.counting) :
    Stepped s lists i call (s.shared, .goto pc) lists added where
  inv := by
    refine h.quiet hi _ ?_ ?_ ?_
    · rintro call' ⟨⟩
      exact ⟨hknows, howns⟩
    · rw [weight, weight, Outcome.thread, Option.any_some, Option.any_some, hregistering]
    · rw [weight, weight, Outcome.thread, Option.any_some, Option.any_some, hcounting]
  frame := Frame.refl ..
  returns := by
    intro ret hret
    cases hret

theorem step_get (h : Inv s lists added) (hi : s.threads[i]? = some (some ⟨key, type, .get⟩)) :
    Stepped s lists i ⟨key, type, .get⟩ (advance s.shared ⟨key, type, .get⟩) lists added := by
  cases hlookup : s.shared.table.lookup (Server.hashKey key) with
  | some id =>
    simp only [advance, hlookup]
    exact .goto h hi hlookup (fun id hid => by cases hid) rfl rfl
  | none =>
    simp only [advance, hlookup, h.linked.capacity, Bool.false_eq_true, if_false]
    exact .goto h hi trivial (fun id hid => by cases hid) rfl rfl

theorem step_alloc (h : Inv s lists added) (hi : s.threads[i]? = some (some ⟨key, type, .alloc⟩)) :
    Stepped s lists i ⟨key, type, .alloc⟩ (advance s.shared ⟨key, type, .alloc⟩) lists added := by
  obtain ⟨hident, hnext⟩ := alloc_heap s.shared (Server.newMetric key type)
  have hnone : s.shared.nameAt s.shared.heap.length = none := by simp [Shared.nameAt]
  have hframe := Frame.heap lists hident fun (_ : none ≠ some _) => hnext _
  refine ⟨h.set hi (h.linked.heap hident fun id _ => hnext id) (fun id hid => by cases hid)
    hframe _ ?_ rfl rfl h.unique_keys, hframe, fun ret hret => by cases hret⟩
  rintro call' ⟨⟩
  refine ⟨⟨?_, fun k hlookup => ?_⟩, fun id hid => .inr ?_⟩
  · simp [Shared.nameAt, Metric.name, Metric.key_len, Server.newMetric, Server.hashKey]
  · have hname := h.linked.named hlookup
    rw [hnone] at hname
    cases hname
  · cases hid
    exact hnone

theorem step_put {id : Nat} (h : Inv s lists added)
    (hi : s.threads[i]? = some (some ⟨key, type, .put id⟩)) :
    Stepped s lists i ⟨key, type, .put id⟩ (advance s.shared ⟨key, type, .put id⟩) lists added := by
  obtain ⟨hname, -⟩ := h.knows hi
  simp only [advance, hname, Option.getD_some]
  cases hlookup : s.shared.table.lookup (Server.hashKey key) with
  | some id' =>
    refine .goto h hi ?_ (fun id hid => by cases hid) rfl rfl
    show s.shared.table.lookup (Server.hashKey key) ≠ none
    rw [hlookup]
    exact fun h => by cases h
  | none =>
    have hframe : Frame (some id) s.shared lists _ lists := Frame.put lists hlookup
    refine ⟨h.set hi (h.linked.put hlookup hname) (fun id' hid => ⟨_, rfl, hid⟩) hframe _ ?_ ?_ rfl
      h.unique_keys, hframe, fun ret hret => by cases hret⟩
    · rintro call' ⟨⟩
      exact ⟨⟨List.lookup_cons_self, (h.knows hi).unqueued h.linked rfl⟩, fun id' hid => .inl hid⟩
    · show s.shared.table.length + 1 + lists.flatten.length + 0 =
        s.shared.table.length + lists.flatten.length + 1
      omega

theorem step_refind (h : Inv s lists added) (hi : s.threads[i]? = some (some ⟨key, type, .refind⟩)) :
    Stepped s lists i ⟨key, type, .refind⟩ (advance s.shared ⟨key, type, .refind⟩) lists added := by
  refine ⟨h.quiet hi _ (fun call' hcall => by cases hcall) rfl rfl, Frame.refl .., fun ret hret => ?_⟩
  obtain rfl := List.mem_singleton.mp hret
  obtain ⟨id, hid⟩ := Option.ne_none_iff_exists'.mp (h.knows hi)
  exact ⟨id, hid, hid⟩

theorem step_setNext {id : Nat} {next : Option Nat} (h : Inv s lists added)
    (hi : s.threads[i]? = some (some ⟨key, type, .setNext id next⟩)) :
    Stepped s lists i ⟨key, type, .setNext id next⟩ (advance s.shared ⟨key, type, .setNext id next⟩)
      lists added := by
  obtain ⟨hlookup, hid⟩ := h.knows hi
  have hident : ∀ {j x}, s.shared.identAt j = some x →
      (s.shared.setNext id next).identAt j = some x := by
    intro j x hx
    rw [identAt_setNext, hx]
  have hframe : Frame (some id) s.shared lists (s.shared.setNext id next) lists :=
    Frame.heap lists hident fun hne => next_setNext_ne _ (fun heq => hne (by rw [heq])) next
  have hlinked : Linked (s.shared.setNext id next) lists := by
    refine h.linked.heap hident fun j hj => next_setNext_ne _ ?_ next
    rintro rfl
    exact hid hj
  refine ⟨h.set hi hlinked (fun id' hid' => ⟨_, rfl, hid'⟩) hframe _ ?_ rfl rfl h.unique_keys, hframe,
    fun ret hret => by cases hret⟩
  rintro call' ⟨⟩
  exact ⟨⟨hlookup, hid, next_setNext_self (h.linked.named hlookup) next⟩, fun id' hid' => .inl hid'⟩

theorem step_swap {id : Nat} {next : Option Nat} (h : Inv s lists added)
    (hi : s.threads[i]? = some (some ⟨key, type, .swap id next⟩)) :
    ∃ lists', Stepped s lists i ⟨key, type, .swap id next⟩
      (advance s.shared ⟨key, type, .swap id next⟩) lists' added := by
  obtain ⟨hlookup, hid, hnext⟩ := h.knows hi
  have hl := h.linked
  have hshard : s.shared.shardAt id = shardOf s.shared.queues.length (Server.hashKey key) := by
    rw [Shared.shardAt, hl.named hlookup, Option.getD_some]
  have hlt : s.shared.shardAt id < s.shared.queues.length := by
    rw [hshard]
    exact shardOf_lt hl.backends _
  generalize hb : s.shared.shardAt id = b at hshard hlt
  obtain ⟨head, hhead⟩ : ∃ head, s.shared.queues[b]? = some head := ⟨_, List.getElem?_eq_getElem hlt⟩
  obtain ⟨l, hlist⟩ : ∃ l, lists[b]? = some l := ⟨_, List.getElem?_eq_getElem (hl.length_eq ▸ hlt)⟩
  simp only [advance, hb, hhead, Option.join_some]
  by_cases hcas : head = next
  · have hframe : Frame (some id) s.shared lists _ _ := Frame.swap hlist
    have hperm := (flatten_set_cons_perm id hlist).length_eq
    rw [if_pos hcas]
    refine ⟨lists.set b (id :: l),
      h.set hi (hl.swap hlookup hid hshard hlist hhead (hnext.trans hcas.symm))
      (fun id' hid' => ⟨_, rfl, hid'⟩) hframe _ ?_ ?_ ?_ h.unique_keys, hframe,
      fun ret hret => by cases hret⟩
    · rintro call' ⟨⟩
      exact ⟨hlookup, fun id' hid' => by cases hid'⟩
    · rw [hperm]
      show s.shared.table.length + lists.flatten.length + 1 =
        s.shared.table.length + (lists.flatten.length + 1) + 0
      omega
    · rw [hperm]
      show lists.flatten.length + 1 + added + 0 = lists.flatten.length + added + 1
      omega
  · rw [if_neg hcas]
    exact ⟨lists, .goto h hi ⟨hlookup, hid⟩ (fun id' hid' => hid') rfl rfl⟩

theorem step_count {id : Nat} (h : Inv s lists added)
    (hi : s.threads[i]? = some (some ⟨key, type, .count id⟩)) :
    Stepped s lists i ⟨key, type, .count id⟩ (advance s.shared ⟨key, type, .count id⟩) lists
      (added + 1) := by
  have hl := h.linked
  have hframe : Frame none s.shared lists
      { s.shared with unique_keys := s.shared.unique_keys + 1 } lists :=
    ⟨fun h => h, fun _ => rfl, fun h => h, fun _ h => h, fun _ h => h, rfl⟩
  have hlinked : Linked { s.shared with unique_keys := s.shared.unique_keys + 1 } lists :=
    ⟨hl.capacity, hl.backends, hl.length_eq, hl.chain, hl.nodup, hl.keys, hl.named, hl.queued⟩
  refine ⟨h.set hi hlinked (fun id hid => by cases hid) hframe _ (fun call' hcall => by cases hcall)
    rfl ?_ ?_, hframe, fun ret hret => ?_⟩
  · show lists.flatten.length + added + 1 = lists.flatten.length + (added + 1) + 0
    omega
  · show s.shared.unique_keys + 1 = UInt32.ofNat (added + 1)
    rw [h.unique_keys, UInt32.ofNat_add]
    rfl
  · obtain rfl := List.mem_singleton.mp hret
    exact ⟨id, rfl, h.knows hi⟩

theorem step_touch {id : Nat} (h : Inv s lists added)
    (hi : s.threads[i]? = some (some ⟨key, type, .touch id⟩)) :
    Stepped s lists i ⟨key, type, .touch id⟩ (advance s.shared ⟨key, type, .touch id⟩) lists added := by
  have hident : ∀ {j x}, s.shared.identAt j = some x → (s.shared.touch id).identAt j = some x := by
    intro j x hx
    rw [identAt_touch, hx]
  have hframe : Frame none s.shared lists (s.shared.touch id) lists :=
    Frame.heap lists hident fun _ => next_touch ..
  have hlinked : Linked (s.shared.touch id) lists := h.linked.heap hident fun j _ => next_touch ..
  refine ⟨h.set hi hlinked (fun id hid => by cases hid) hframe _ (fun call' hcall => by cases hcall)
    rfl rfl h.unique_keys, hframe, fun ret hret => ?_⟩
  obtain rfl := List.mem_singleton.mp hret
  exact ⟨id, rfl, h.knows hi⟩

theorem advance_inv {call : Call} (h : Inv s lists added) (hi : s.threads[i]? = some (some call)) :
    ∃ lists' added', Stepped s lists i call (advance s.shared call) lists' added' := by
  obtain ⟨key, type, pc⟩ := call
  cases pc with
  | get => exact ⟨_, _, step_get h hi⟩
  | alloc => exact ⟨_, _, step_alloc h hi⟩
  | put id => exact ⟨_, _, step_put h hi⟩
  | refind => exact ⟨_, _, step_refind h hi⟩
  | readHead id =>
    have hknows := h.knows hi
    exact ⟨_, _, .goto h hi hknows (fun id' hid' => hid') rfl rfl⟩
  | setNext id next => exact ⟨_, _, step_setNext h hi⟩
  | swap id next =>
    obtain ⟨lists', hstep⟩ := step_swap h hi
    exact ⟨lists', _, hstep⟩
  | count id => exact ⟨_, _, step_count h hi⟩
  | touch id => exact ⟨_, _, step_touch h hi⟩

end Concurrent
end Brubeck
