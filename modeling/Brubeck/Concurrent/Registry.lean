import Brubeck.Concurrent.Steps
import Brubeck.Lib.Machine

/-!
# Brubeck.Concurrent.Registry

Whole runs of any number of threads.

* `step_inv`, `run_inv`: every step, and so every run, keeps the invariant, and what the table
  holds stays there.
* `metric_registered_once`: one metric for each key, in the one queue of its shard.
-/

namespace Brubeck
namespace Concurrent

open Lib

variable {s : State} {lists : List (List Nat)} {added i : Nat} {key : Key} {type : MetricType}

/-! ## Every run -/

/-- What no step undoes: the table keeps its entries, and a metric its key and type. -/
structure Grows (shared shared' : Shared) : Prop where
  lookup : ∀ {k id}, shared.table.lookup k = some id → shared'.table.lookup k = some id
  ident : ∀ {id x}, shared.identAt id = some x → shared'.identAt id = some x
  backends : shared'.queues.length = shared.queues.length

theorem Grows.refl (shared : Shared) : Grows shared shared := ⟨fun h => h, fun h => h, rfl⟩

theorem Grows.trans {a b c : Shared} (h : Grows a b) (h' : Grows b c) : Grows a c :=
  ⟨fun hk => h'.lookup (h.lookup hk), fun hx => h'.ident (h.ident hx), h'.backends.trans h.backends⟩

theorem start_inv {s' : State} {out : List Return} {pc : Point} (hpc : pc = .get ∨ pc = .alloc)
    (h : Inv s lists added) (hstart : s.start i ⟨key, type, pc⟩ = some (s', out)) :
    Inv s' lists added ∧ s'.shared = s.shared ∧ out = [] := by
  rw [State.start] at hstart
  split at hstart
  · rename_i hi
    cases hstart
    refine ⟨h.set hi h.linked (fun id hid => by cases hid) (Frame.refl none ..) _ ?_ ?_ ?_
      h.unique_keys, rfl, rfl⟩
    · rintro call ⟨⟩
      rcases hpc with rfl | rfl
      · exact ⟨trivial, fun id hid => by cases hid⟩
      · exact ⟨trivial, fun id hid => by cases hid⟩
    · rcases hpc with rfl | rfl <;> rfl
    · rcases hpc with rfl | rfl <;> rfl
  · cases hstart

theorem step_inv {s' : State} {e : Event} {out : List Return} (h : Inv s lists added)
    (hstep : step s e = some (s', out)) :
    ∃ lists' added', Inv s' lists' added' ∧ Grows s.shared s'.shared ∧
      ∀ ret ∈ out, ∃ id, ret.metric = some id ∧
        s'.shared.table.lookup (Server.hashKey ret.key) = some id := by
  have hquiet : ∀ {pc i key type}, pc = .get ∨ pc = .alloc →
      s.start i ⟨key, type, pc⟩ = some (s', out) →
      Inv s' lists added ∧ Grows s.shared s'.shared ∧ ∀ ret ∈ out, ∃ id, ret.metric = some id ∧
        s'.shared.table.lookup (Server.hashKey ret.key) = some id := by
    intro pc i key type hpc hstart
    obtain ⟨hinv, hshared, rfl⟩ := start_inv hpc h hstart
    rw [hshared]
    exact ⟨hinv, .refl _, fun ret hret => by cases hret⟩
  cases e with
  | find i key type => exact ⟨_, _, hquiet (.inl rfl) hstep⟩
  | new i key type => exact ⟨_, _, hquiet (.inr rfl) hstep⟩
  | run i =>
    simp only [step] at hstep
    split at hstep
    · rename_i call hi
      cases hstep
      obtain ⟨lists', added', hinv, hframe, hreturns⟩ := advance_inv h hi
      exact ⟨lists', added', hinv, ⟨hframe.lookup, hframe.ident, hframe.backends⟩, hreturns⟩
    · cases hstep

theorem run_inv {s' : State} {events : List Event} {log : List Return} (h : Inv s lists added)
    (hrun : Machine.run step s events = some (s', log)) :
    ∃ lists' added', Inv s' lists' added' ∧ Grows s.shared s'.shared ∧
      ∀ ret ∈ log, ∃ id, ret.metric = some id ∧
        s'.shared.table.lookup (Server.hashKey ret.key) = some id := by
  let Hist : State → List Return → Prop := fun t log =>
    ∃ lists' added', Inv t lists' added' ∧ Grows s.shared t.shared ∧
      ∀ ret ∈ log, ∃ id, ret.metric = some id ∧
        t.shared.table.lookup (Server.hashKey ret.key) = some id
  have hstart : Hist s [] := ⟨lists, added, h, .refl _, fun ret hret => by cases hret⟩
  refine Machine.run_history Hist ?_ hstart hrun
  rintro t e t' log out ⟨lists₁, added₁, hinv, hgrows, hlog⟩ hstep
  obtain ⟨lists₂, added₂, hinv', hgrows', hout⟩ := step_inv hinv hstep
  refine ⟨lists₂, added₂, hinv', hgrows.trans hgrows', fun ret hret => ?_⟩
  rcases List.mem_append.mp hret with hret | hret
  · obtain ⟨id, hmetric, hlookup⟩ := hlog ret hret
    exact ⟨id, hmetric, hgrows'.lookup hlookup⟩
  · exact hout ret hret

theorem calls_replicate (p : Point → Bool) (n : Nat) : calls p (List.replicate n none) = 0 := by
  rw [calls, List.countP_eq_zero]
  intro thread hthread
  rw [List.eq_of_mem_replicate hthread]
  exact Bool.false_ne_true

theorem initial_inv (n : Nat) {m : Nat} (hm : 0 < m) :
    Inv (start n m) (List.replicate m []) 0 := by
  have hnone : ∀ {i : Nat} {call : Call}, (start n m).threads[i]? ≠ some (some call) := by
    intro i call hi
    exact absurd (List.eq_of_mem_replicate (List.mem_of_getElem? hi)) (by simp)
  have hempty : (List.replicate m ([] : List Nat)).flatten = [] := by simp
  refine ⟨⟨rfl, by simpa [start] using hm, by simp [start], ?_, ?_, List.nodup_nil, ?_, ?_⟩, ?_, ?_, ?_,
    ?_, rfl⟩
  · intro b head l hhead hl
    rw [List.eq_of_mem_replicate (List.mem_of_getElem? hhead),
      List.eq_of_mem_replicate (List.mem_of_getElem? hl)]
    exact .nil
  · rw [hempty]
    exact List.nodup_nil
  · intro k id hlookup
    cases hlookup
  · intro b l id hl hid
    rw [List.eq_of_mem_replicate (List.mem_of_getElem? hl)] at hid
    cases hid
  · intro i call hi
    exact absurd hi hnone
  · intro i j call call' id hi
    exact absurd hi hnone
  · rw [hempty]
    show 0 = 0 + calls _ (List.replicate n none)
    rw [calls_replicate]
  · rw [hempty]
    show 0 = 0 + calls _ (List.replicate n none)
    rw [calls_replicate]

/-- In a state without a call in progress everything in the table is queued and counted. -/
theorem Inv.idle (h : Inv s lists added) (hidle : ∀ thread ∈ s.threads, thread = none) :
    s.shared.table.length = lists.flatten.length ∧
      s.shared.unique_keys = UInt32.ofNat s.shared.table.length := by
  have hcalls : ∀ p, calls p s.threads = 0 := by
    intro p
    rw [List.eq_replicate_of_mem hidle]
    exact calls_replicate ..
  have hreg := h.registered
  have hcnt := h.counted
  rw [hcalls] at hreg hcnt
  exact ⟨hreg, by rw [h.unique_keys, hreg, hcnt]; rfl⟩

theorem shardOf_eq {m : Nat} (hm : 0 < m) (name : Key) :
    shardOf m name = (City.cityHash32 name).toNat % m := by
  rw [shardOf]
  split
  · rfl
  · obtain rfl : m = 1 := by omega
    rw [Nat.mod_one]

theorem Linked.ident {shared : Shared} (h : Linked shared lists) {k : Key} {id : Nat}
    (hk : shared.table.lookup k = some id) :
    ∃ key type, shared.identAt id = some (key, type) ∧ Server.hashKey key = k := by
  have hname := h.named hk
  rw [nameAt_eq] at hname
  obtain ⟨⟨key, type⟩, hident, rfl⟩ := Option.map_eq_some_iff.mp hname
  exact ⟨key, type, hident, rfl⟩

/-- For every number of threads and of backends and every interleaving, with `lists` the metrics
that the queues link together:

* every call returns the metric that the table holds for its key;
* that metric stays there, and keeps its key and its type;
* no metric is queued twice;
* a queued metric is in the table, and it is in the queue that its hash selects;
* when no call is in progress, `unique_keys`, the size of the table and the total length of the
  queues are equal. -/
theorem metric_registered_once {n m : Nat} (hm : 0 < m) {events : List Event} {s : State}
    {log : List Return} (hrun : Machine.run step (start n m) events = some (s, log)) :
    ∃ lists : List (List Nat), lists.length = m ∧
      (∀ {b : Nat} {head l}, s.shared.queues[b]? = some head → lists[b]? = some l →
        Chain s.shared.next head l) ∧
      (∀ ret ∈ log, ∃ id, ret.metric = some id ∧
        s.shared.table.lookup (Server.hashKey ret.key) = some id) ∧
      (∀ {k id}, s.shared.table.lookup k = some id →
        ∃ key type, s.shared.identAt id = some (key, type) ∧ Server.hashKey key = k ∧
          ∀ {events' s' log'}, Machine.run step s events' = some (s', log') →
            s'.shared.table.lookup k = some id ∧ s'.shared.identAt id = some (key, type)) ∧
      (s.shared.table.map Prod.fst).Nodup ∧ lists.flatten.Nodup ∧
      (∀ {b : Nat} {l id}, lists[b]? = some l → id ∈ l →
        ∃ key type, s.shared.identAt id = some (key, type) ∧
          s.shared.table.lookup (Server.hashKey key) = some id ∧
          b = (City.cityHash32 (Server.hashKey key)).toNat % m) ∧
      ((∀ thread ∈ s.threads, thread = none) →
        s.shared.unique_keys = UInt32.ofNat s.shared.table.length ∧
          s.shared.table.length = lists.flatten.length) := by
  obtain ⟨lists, added, hinv, hgrows, hlog⟩ := run_inv (initial_inv n hm) hrun
  have hl := hinv.linked
  have hqueues : s.shared.queues.length = m := hgrows.backends.trans List.length_replicate
  refine ⟨lists, hl.length_eq.trans hqueues, hl.chain, hlog, ?_, hl.keys, hl.nodup, ?_, ?_⟩
  · intro k id hk
    obtain ⟨key, type, hident, hkey⟩ := hl.ident hk
    refine ⟨key, type, hident, hkey, fun {events' s' log'} hrun' => ?_⟩
    obtain ⟨-, -, -, hgrows', -⟩ := run_inv hinv hrun'
    exact ⟨hgrows'.lookup hk, hgrows'.ident hident⟩
  · intro b l id hlist hid
    obtain ⟨k, hk, hshard⟩ := hl.queued hlist hid
    obtain ⟨key, type, hident, rfl⟩ := hl.ident hk
    rw [hqueues, shardOf_eq hm] at hshard
    exact ⟨key, type, hident, hk, hshard.symm⟩
  · intro hidle
    obtain ⟨htable, hunique⟩ := hinv.idle hidle
    exact ⟨hunique, htable⟩

/-- Two threads both miss on the same new key and allocate a metric for it. The second one loses
the race for the table and looks the key up again. -/
def race (key : Key) : List Event :=
  [.find 0 key .gauge, .find 1 key .meter, .run 0, .run 1, .run 0, .run 1, .run 1, .run 0,
    .run 1, .run 0, .run 1, .run 1, .run 1]

theorem metric_registered_once_race :
    ∃ s log, Machine.run step (start 2 2) (race [97]) = some (s, log) ∧
      log.map Return.metric = [some 1, some 1] ∧
      s.shared.unique_keys = UInt32.ofNat s.shared.table.length := by
  have hsome : ((Machine.run step (start 2 2) (race [97])).map fun r =>
      (r.1.threads.map Option.isNone, r.2.map Return.metric)) =
        some ([true, true], [some 1, some 1]) := by decide +kernel
  obtain ⟨⟨s, log⟩, hrun, heq⟩ := Option.map_eq_some_iff.mp hsome
  obtain ⟨hthreads, hlog⟩ := Prod.mk.inj heq
  obtain ⟨lists, -, -, -, -, -, -, -, hidle⟩ := metric_registered_once (by decide) hrun
  refine ⟨s, log, hrun, hlog, (hidle fun thread hthread => ?_).1⟩
  have hmem := List.mem_map_of_mem (f := Option.isNone) hthread
  rw [hthreads] at hmem
  exact Option.isNone_iff_eq_none.mp (by simpa using hmem)

end Concurrent
end Brubeck
