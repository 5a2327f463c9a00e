import Brubeck.Concurrent.Registry

/-!
# Brubeck.Concurrent.Traverse

The loop of `backend__thread` over its queue, while other threads register metrics in it. Every
backend has its own thread, and each of its reads of a pointer is a step of its own. What the loop does
with a metric touches no pointer, and is one step here; `Backend` has it in full.

* `call_queue`: a step of a call leaves the metrics of a queue and their pointers as they are, and
  puts at most one metric in front of them.
* `run_queue`: so the queue is what was registered, the last one first, in every state of every run.
* `run_visits`: a thread in its loop goes through what was ahead of it, whatever the others do.
* `tick_visits_once`: a whole tick.
-/

namespace Brubeck
namespace Concurrent

open Lib

/-! ## The threads of the backends -/

/-- Where the thread of a backend is: before `mt = self->queue`, at the test of `mt`, or before
`mt = mt->next`. -/
inductive Reader where
  | start
  | test (mt : Option Nat)
  | follow (mt : Nat)
  deriving DecidableEq

/-- What is seen of a run: a compare-and-swap on the queue of a backend that succeeds, a metric whose
turn it is in a tick, and the end of the loop. -/
inductive Note where
  | registered (backend metric : Nat)
  | visited (backend metric : Nat)
  | ended (backend : Nat)
  deriving DecidableEq

/-- One step of `for (mt = self->queue; mt; mt = mt->next)`. -/
def Reader.step (b : Nat) (queue : Option Nat) (next : Nat → Option Nat) : Reader → Reader × List Note
  | .start => (.test queue, [])
  | .test none => (.start, [.ended b])
  | .test (some mt) => (.follow mt, [.visited b mt])
  | .follow mt => (.test (next mt), [])

/-- The compare-and-swap of `brubeck_backend_register_metric`, when it is what a call does next. -/
def swapped (shared : Shared) (call : Call) : List Note :=
  match call.pc with
  | .swap id next =>
    if shared.queues[shared.shardAt id]?.join = next then [.registered (shared.shardAt id) id] else []
  | _ => []

def State.notes (s : State) : Event → List Note
  | .run i =>
    match s.threads[i]? with
    | some (some call) => swapped s.shared call
    | _ => []
  | _ => []

structure System where
  server : State
  readers : List Reader

inductive Move where
  | call (e : Event)
  | tick (b : Nat)

def System.step (s : System) : Move → Option (System × List Note)
  | .call e => (Concurrent.step s.server e).map fun r => ({ s with server := r.1 }, s.server.notes e)
  | .tick b =>
    match s.readers[b]? with
    | none => none
    | some reader =>
      let (reader, out) := reader.step b s.server.shared.queues[b]?.join s.server.shared.next
      some ({ s with readers := s.readers.set b reader }, out)

/-- `n` threads that call, and the threads of `m` backends. -/
def System.start (n m : Nat) : System := ⟨Concurrent.start n m, .replicate m .start⟩

/-- The metrics registered in a backend, in the order of their compare-and-swaps. -/
def registered (b : Nat) : List Note → List Nat
  | [] => []
  | .registered b' id :: log => if b' = b then id :: registered b log else registered b log
  | _ :: log => registered b log

/-- The metrics that a backend visits until its loop ends. -/
def visits (b : Nat) : List Note → List Nat
  | [] => []
  | .visited b' id :: log => if b' = b then id :: visits b log else visits b log
  | .ended b' :: log => if b' = b then [] else visits b log
  | .registered _ _ :: log => visits b log

/-- The steps that the thread of a backend takes. -/
def ticks (b : Nat) : List Move → Nat
  | [] => 0
  | .tick b' :: moves => if b' = b then ticks b moves + 1 else ticks b moves
  | .call _ :: moves => ticks b moves

theorem registered_append (b : Nat) (log log' : List Note) :
    registered b (log ++ log') = registered b log ++ registered b log' := by
  induction log with
  | nil => rfl
  | cons note log ih =>
    cases note with
    | registered b' id =>
      simp only [List.cons_append, registered, ih]
      split
      · rfl
      · rfl
    | visited b' id => exact ih
    | ended b' => exact ih

/-! ## What the calls do to a queue -/

variable {s : State} {lists : List (List Nat)} {added : Nat}

/-- A step of a call changes a queue only by a compare-and-swap that succeeds. -/
theorem advance_queues (shared : Shared) (call : Call) (b : Nat) :
    (registered b (swapped shared call) = [] ∧
      (advance shared call).1.queues[b]? = shared.queues[b]?) ∨
    ∃ id, call.pc = .swap id shared.queues[b]?.join ∧ registered b (swapped shared call) = [id] ∧
      (advance shared call).1 = { shared with queues := shared.queues.set b (some id) } := by
  obtain ⟨key, type, pc⟩ := call
  cases pc with
  | get =>
    left
    refine ⟨rfl, ?_⟩
    simp only [advance]
    split
    · rfl
    · split
      · rfl
      · rfl
  | put id =>
    left
    refine ⟨rfl, ?_⟩
    simp only [advance]
    split
    · rfl
    · rfl
  | swap id next =>
    by_cases hcas : shared.queues[shared.shardAt id]?.join = next
    · by_cases hb : shared.shardAt id = b
      · right
        subst hb
        exact ⟨id, by rw [hcas], by simp [swapped, hcas, registered], by simp [advance, hcas]⟩
      · left
        exact ⟨by simp [swapped, hcas, registered, hb], by simp [advance, hcas, hb]⟩
    · left
      exact ⟨by simp [swapped, hcas, registered], by simp [advance, hcas]⟩
  | alloc => exact .inl ⟨rfl, rfl⟩
  | refind => exact .inl ⟨rfl, rfl⟩
  | readHead id => exact .inl ⟨rfl, rfl⟩
  | setNext id next => exact .inl ⟨rfl, rfl⟩
  | count id => exact .inl ⟨rfl, rfl⟩
  | touch id => exact .inl ⟨rfl, rfl⟩

theorem Linked.head {shared : Shared} (h : Linked shared lists) {b : Nat} {l : List Nat}
    (hl : lists[b]? = some l) : ∃ head, shared.queues[b]? = some head ∧ Chain shared.next head l := by
  have hlt : b < lists.length := (List.getElem?_eq_some_iff.mp hl).1
  rw [h.length_eq] at hlt
  exact ⟨_, List.getElem?_eq_getElem hlt, h.chain (List.getElem?_eq_getElem hlt) hl⟩

/-- The metrics of a queue stay where they are, with the same pointers. -/
structure Kept (shared : Shared) (lists : List (List Nat)) (shared' : Shared)
    (lists' : List (List Nat)) (notes : List Note) : Prop where
  queue : ∀ {b : Nat} {l}, lists[b]? = some l → lists'[b]? = some ((registered b notes).reverse ++ l)
  next : ∀ {b : Nat} {l id}, lists[b]? = some l → id ∈ l → shared'.next id = shared.next id

theorem Kept.refl (shared : Shared) (lists : List (List Nat)) : Kept shared lists shared lists [] :=
  ⟨fun h => h, fun _ _ => rfl⟩

theorem advance_kept {i : Nat} {call : Call} (h : Inv s lists added)
    (hi : s.threads[i]? = some (some call)) {lists' : List (List Nat)} {added' : Nat}
    (hstepped : Stepped s lists i call (advance s.shared call) lists' added') :
    Kept s.shared lists (advance s.shared call).1 lists' (swapped s.shared call) := by
  have hknows := h.knows hi
  have hnext : ∀ {b : Nat} {l id}, lists[b]? = some l → id ∈ l →
      (advance s.shared call).1.next id = s.shared.next id := by
    intro b l id hl hid
    apply hstepped.frame.next
    intro hown
    exact hknows.unqueued h.linked hown (List.mem_flatten_of_mem (List.mem_of_getElem? hl) hid)
  refine ⟨fun {b l} hl => ?_, hnext⟩
  obtain ⟨head, hhead, hchain⟩ := h.linked.head hl
  have hkept := hchain.congr fun id hid => hnext hl hid
  have hlt : b < lists'.length := by
    rw [hstepped.inv.linked.length_eq, hstepped.frame.backends, ← h.linked.length_eq]
    exact (List.getElem?_eq_some_iff.mp hl).1
  obtain ⟨head', hhead', hchain'⟩ := hstepped.inv.linked.head (List.getElem?_eq_getElem hlt)
  rw [List.getElem?_eq_getElem hlt]
  -- the pointers are what they were, and determine the list
  congr 1
  rcases advance_queues s.shared call b with ⟨hnone, hqueue⟩ | ⟨id, hpc, hone, hqueue⟩
  · obtain rfl : head = head' := Option.some.inj (hhead.symm.trans (hqueue.symm.trans hhead'))
    rw [hnone]
    exact hchain'.unique hkept
  · rw [hone]
    have hset : (s.shared.queues.set b (some id))[b]? = some head' := by
      rw [hqueue] at hhead'
      exact hhead'
    rw [List.getElem?_set_self (List.getElem?_eq_some_iff.mp hhead).1, Option.some.injEq] at hset
    subst hset
    refine hchain'.unique (.cons ?_)
    have hown : s.shared.next id = head := by
      rw [Knows, hpc, hhead] at hknows
      exact hknows.2.2
    rw [hqueue] at hkept ⊢
    show Chain s.shared.next (s.shared.next id) l
    rw [hown]
    exact hkept

theorem call_queue (h : Inv s lists added) {e : Event} {s' : State} {out : List Return}
    (hstep : step s e = some (s', out)) :
    ∃ lists' added', Inv s' lists' added' ∧ Kept s.shared lists s'.shared lists' (s.notes e) := by
  have hquiet : ∀ {pc i key type}, pc = .get ∨ pc = .alloc →
      s.start i ⟨key, type, pc⟩ = some (s', out) →
      Inv s' lists added ∧ Kept s.shared lists s'.shared lists [] := by
    intro pc i key type hpc hstart
    obtain ⟨hinv, hshared, -⟩ := start_inv hpc h hstart
    rw [hshared]
    exact ⟨hinv, .refl ..⟩
  cases e with
  | find i key type => exact ⟨_, _, hquiet (.inl rfl) hstep⟩
  | new i key type => exact ⟨_, _, hquiet (.inr rfl) hstep⟩
  | run i =>
    simp only [step] at hstep
    split at hstep
    · rename_i call hi
      cases hstep
      obtain ⟨lists', added', hstepped⟩ := advance_inv h hi
      refine ⟨lists', added', hstepped.inv, ?_⟩
      simp only [State.notes, hi]
      exact advance_kept h hi hstepped
    · cases hstep

/-! ## The queue in every state -/

/-- A backend registers nothing. -/
theorem Reader.step_registered {b : Nat} {queue : Option Nat} {next : Nat → Option Nat}
    {reader reader' : Reader} {out : List Note} (h : reader.step b queue next = (reader', out))
    (b' : Nat) : registered b' out = [] := by
  cases reader with
  | start => cases h; rfl
  | follow mt => cases h; rfl
  | test mt =>
    cases mt with
    | none => cases h; rfl
    | some mt => cases h; rfl

theorem System.step_call {s s' : System} {e : Event} {out : List Note}
    (h : s.step (.call e) = some (s', out)) :
    ∃ returns, Concurrent.step s.server e = some (s'.server, returns) ∧ s'.readers = s.readers ∧
      out = s.server.notes e := by
  obtain ⟨⟨server', returns⟩, hcall, heq⟩ := Option.map_eq_some_iff.mp h
  cases heq
  exact ⟨returns, hcall, rfl, rfl⟩

theorem System.step_tick {s s' : System} {b : Nat} {out : List Note}
    (h : s.step (.tick b) = some (s', out)) :
    ∃ reader reader', s.readers[b]? = some reader ∧
      reader.step b s.server.shared.queues[b]?.join s.server.shared.next = (reader', out) ∧
      s' = { s with readers := s.readers.set b reader' } := by
  simp only [System.step] at h
  split at h
  · cases h
  · rename_i reader hreader
    cases h
    exact ⟨reader, _, hreader, rfl, rfl⟩

theorem System.step_kept {s s' : System} {move : Move} {out : List Note}
    (h : Inv s.server lists added) (hstep : s.step move = some (s', out)) :
    ∃ lists' added', Inv s'.server lists' added' ∧
      Kept s.server.shared lists s'.server.shared lists' out ∧
      s'.readers.length = s.readers.length := by
  cases move with
  | call e =>
    obtain ⟨returns, hcall, hreaders, rfl⟩ := System.step_call hstep
    obtain ⟨lists', added', hinv, hkept⟩ := call_queue h hcall
    exact ⟨lists', added', hinv, hkept, by rw [hreaders]⟩
  | tick b =>
    obtain ⟨reader, reader', -, hread, rfl⟩ := System.step_tick hstep
    refine ⟨lists, added, h, ⟨fun {b' l} hl => ?_, fun _ _ => rfl⟩, List.length_set⟩
    rw [Reader.step_registered hread]
    exact hl

/-- The queue links what was registered, the last one first. -/
theorem run_queue {n m b : Nat} (hb : b < m) {moves : List Move} {s : System} {log : List Note}
    (hrun : Machine.run System.step (System.start n m) moves = some (s, log)) :
    ∃ lists added, Inv s.server lists added ∧ lists[b]? = some (registered b log).reverse ∧
      s.readers.length = m := by
  let Hist : System → List Note → Prop := fun t log =>
    ∃ lists added, Inv t.server lists added ∧ lists[b]? = some (registered b log).reverse ∧
      t.readers.length = m
  have hstart : Hist (System.start n m) [] :=
    ⟨_, 0, initial_inv n (by omega), by simp [registered, hb], List.length_replicate⟩
  refine Machine.run_history Hist ?_ hstart hrun
  rintro t move t' log out ⟨lists, added, hinv, hl, hreaders⟩ hstep
  obtain ⟨lists', added', hinv', hkept, hlen⟩ := System.step_kept hinv hstep
  refine ⟨lists', added', hinv', ?_, hlen.trans hreaders⟩
  rw [hkept.queue hl, registered_append, List.reverse_append]

/-! ## A thread in its loop -/

/-- `rest` is what a thread has still to visit, among the metrics `l` of its queue. -/
def Reader.Ahead (next : Nat → Option Nat) (l : List Nat) (rest : List Nat) : Reader → Prop
  | .start => False
  | .test mt => Chain next mt rest ∧ ∀ id ∈ rest, id ∈ l
  | .follow mt => Chain next (next mt) rest ∧ ∀ id ∈ mt :: rest, id ∈ l

/-- Each metric ahead takes two steps, and the last test one. -/
def Reader.toGo (rest : List Nat) : Reader → Nat
  | .follow _ => 2 * rest.length + 2
  | _ => 2 * rest.length + 1

theorem Reader.Ahead.mono {next next' : Nat → Option Nat} {l l' rest : List Nat} {reader : Reader}
    (h : reader.Ahead next l rest) (hnext : ∀ id ∈ l, next' id = next id) (hl : ∀ id ∈ l, id ∈ l') :
    reader.Ahead next' l' rest := by
  cases reader with
  | start => exact h
  | test mt => exact ⟨h.1.congr fun id hid => hnext id (h.2 id hid), fun id hid => hl id (h.2 id hid)⟩
  | follow mt =>
    refine ⟨?_, fun id hid => hl id (h.2 id hid)⟩
    rw [hnext mt (h.2 mt List.mem_cons_self)]
    exact h.1.congr fun id hid => hnext id (h.2 id (List.mem_cons_of_mem _ hid))

/-- Notes that say nothing of the loop of a backend. -/
def Silent (b : Nat) (out : List Note) : Prop :=
  ∀ log, visits b (out ++ log) = visits b log ∧ (.ended b ∈ out ++ log ↔ .ended b ∈ log)

theorem Silent.nil (b : Nat) : Silent b [] := fun _ => ⟨rfl, Iff.rfl⟩

theorem notes_silent (s : State) (e : Event) (b : Nat) : Silent b (s.notes e) := by
  have hone : ∀ b' id, Silent b [.registered b' id] := fun b' id log => ⟨rfl, by simp⟩
  cases e with
  | find i key type => exact .nil b
  | new i key type => exact .nil b
  | run i =>
    simp only [State.notes]
    split
    · unfold swapped
      split
      · split
        · exact hone _ _
        · exact .nil b
      · exact .nil b
    · exact .nil b

theorem Reader.step_silent {b b' : Nat} (hne : b' ≠ b) {queue : Option Nat} {next : Nat → Option Nat}
    {reader reader' : Reader} {out : List Note} (h : reader.step b' queue next = (reader', out)) :
    Silent b out := by
  cases reader with
  | start => cases h; exact .nil b
  | follow mt => cases h; exact .nil b
  | test mt =>
    intro log
    cases mt with
    | none =>
      cases h
      simp [visits, hne, hne.symm]
    | some mt =>
      cases h
      simp [visits, hne]

/-- What is known at the end of a run in which a backend is in its loop: how far it got. -/
structure Visited (b : Nat) (rest : List Nat) (toGo steps : Nat) (log : List Note) : Prop where
  sofar : visits b log <+: rest
  ended : .ended b ∈ log ↔ toGo ≤ steps
  all : .ended b ∈ log → visits b log = rest

theorem Visited.silent {b : Nat} {rest : List Nat} {toGo steps : Nat} {out log : List Note}
    (h : Visited b rest toGo steps log) (hout : Silent b out) :
    Visited b rest toGo steps (out ++ log) := by
  obtain ⟨hvisits, hended⟩ := hout log
  refine ⟨?_, hended.trans h.ended, fun hmem => ?_⟩
  · rw [hvisits]
    exact h.sofar
  · rw [hvisits]
    exact h.all (hended.mp hmem)

theorem Visited.test_none {b : Nat} {steps : Nat} (log : List Note) (hsteps : 0 < steps) :
    Visited b [] 1 steps (.ended b :: log) := by
  have hnone : visits b (.ended b :: log) = [] := by simp [visits]
  exact ⟨by simp [hnone], ⟨fun _ => hsteps, fun _ => List.mem_cons_self⟩, fun _ => hnone⟩

theorem Visited.test_some {b mt : Nat} {rest : List Nat} {toGo steps : Nat} {log : List Note}
    (h : Visited b rest toGo steps log) :
    Visited b (mt :: rest) (toGo + 1) (steps + 1) (.visited b mt :: log) := by
  have hcons : visits b (.visited b mt :: log) = mt :: visits b log := by simp [visits]
  have hended : .ended b ∈ Note.visited b mt :: log ↔ .ended b ∈ log := by simp
  refine ⟨?_, ?_, fun hmem => ?_⟩
  · rw [hcons]
    exact List.cons_prefix_cons.mpr ⟨rfl, h.sofar⟩
  · rw [hended, h.ended]
    omega
  · rw [hcons, h.all (hended.mp hmem)]

theorem Visited.succ {b : Nat} {rest : List Nat} {toGo steps : Nat} {log : List Note}
    (h : Visited b rest toGo steps log) : Visited b rest (toGo + 1) (steps + 1) log :=
  ⟨h.sofar, h.ended.trans (by omega), h.all⟩

/-- One step of a thread in its loop. -/
theorem Visited.step {b : Nat} {queue : Option Nat} {next : Nat → Option Nat} {l rest : List Nat}
    {reader reader' : Reader} {out log : List Note} {steps : Nat}
    (hread : reader.step b queue next = (reader', out)) (hahead : reader.Ahead next l rest)
    (ih : ∀ {rest}, reader'.Ahead next l rest → Visited b rest (reader'.toGo rest) steps log) :
    Visited b rest (reader.toGo rest) (steps + 1) (out ++ log) := by
  cases reader with
  | start => exact hahead.elim
  | follow mt =>
    cases hread
    exact (ih ⟨hahead.1, fun id hid => hahead.2 id (List.mem_cons_of_mem _ hid)⟩).succ
  | test mt =>
    obtain ⟨hchain, hmem⟩ := hahead
    cases hchain with
    | nil =>
      cases hread
      exact .test_none log (Nat.succ_pos steps)
    | cons hchain =>
      cases hread
      exact (ih ⟨hchain, hmem⟩).test_some

theorem run_visits {b : Nat} (moves : List Move) :
    ∀ {s s' : System} {lists added log l rest reader}, Inv s.server lists added →
      lists[b]? = some l → s.readers[b]? = some reader →
      reader.Ahead s.server.shared.next l rest →
      Machine.run System.step s moves = some (s', log) →
      Visited b rest (reader.toGo rest) (ticks b moves) log := by
  induction moves with
  | nil =>
    intro s s' lists added log l rest reader _ _ _ _ hrun
    cases hrun
    have hpos : 0 < reader.toGo rest := by
      cases reader <;> exact Nat.succ_pos _
    refine ⟨List.nil_prefix, ⟨fun hmem => ?_, fun hle => ?_⟩, fun hmem => ?_⟩
    · cases hmem
    · exact absurd hle (Nat.not_le.mpr hpos)
    · cases hmem
  | cons move moves ih =>
    intro s s' lists added log l rest reader hinv hl hreader hahead hrun
    obtain ⟨s₁, out, log, hstep, hrest, rfl⟩ := Machine.run_cons hrun
    cases move with
    | call e =>
      obtain ⟨returns, hcall, hreaders, rfl⟩ := System.step_call hstep
      obtain ⟨lists', added', hinv', hkept⟩ := call_queue hinv hcall
      have hahead' : reader.Ahead s₁.server.shared.next
          ((registered b (s.server.notes e)).reverse ++ l) rest :=
        hahead.mono (fun id hid => hkept.next hl hid) fun id hid => List.mem_append_right _ hid
      rw [← hreaders] at hreader
      exact (ih hinv' (hkept.queue hl) hreader hahead' hrest).silent (notes_silent _ e b)
    | tick b' =>
      obtain ⟨reader₀, reader', hreader₀, hread, hs₁⟩ := System.step_tick hstep
      have hserver : s₁.server = s.server := by rw [hs₁]
      rw [← hserver] at hinv hahead hread
      have hreaders : s₁.readers = s.readers.set b' reader' := by rw [hs₁]
      by_cases hb : b' = b
      · subst hb
        obtain rfl : reader = reader₀ := Option.some.inj (hreader.symm.trans hreader₀)
        have hreader' : s₁.readers[b']? = some reader' := by
          rw [hreaders]
          exact List.getElem?_set_self (List.getElem?_eq_some_iff.mp hreader).1
        rw [ticks, if_pos rfl]
        exact .step hread hahead fun hahead' => ih hinv hl hreader' hahead' hrest
      · -- the thread of another backend changes no pointer
        have hreader' : s₁.readers[b]? = some reader := by
          rw [hreaders, List.getElem?_set_ne hb]
          exact hreader
        rw [ticks, if_neg hb]
        exact (ih hinv hl hreader' hahead hrest).silent (Reader.step_silent hb hread)

/-! ## A whole tick -/

/-- For every number of threads that find or create metrics and every number of backends, in every
state of every interleaving:

* the queue of a backend is what was registered in it, the last one first, and no metric is in it
  twice, so following its pointers ends;
* the thread of the backend can always take its next step;
* when its loop reads the head in this state, it visits these metrics in this order and no others,
  whatever is registered meanwhile, and it is through after its next `2 * n + 1` steps for `n` metrics,
  whatever the other threads do in between. -/
theorem tick_visits_once {n m b : Nat} (hb : b < m) {before : List Move} {s : System}
    {log : List Note} (hrun : Machine.run System.step (System.start n m) before = some (s, log)) :
    (∃ head, s.server.shared.queues[b]? = some head ∧
      Chain s.server.shared.next head (registered b log).reverse) ∧
    (registered b log).Nodup ∧
    (∃ s' out, s.step (.tick b) = some (s', out)) ∧
    (s.readers[b]? = some .start → ∀ {after s' log'},
      Machine.run System.step s (.tick b :: after) = some (s', log') →
      visits b log' <+: (registered b log).reverse ∧
      (.ended b ∈ log' ↔ 2 * (registered b log).length + 1 ≤ ticks b after) ∧
      (.ended b ∈ log' → visits b log' = (registered b log).reverse)) := by
  obtain ⟨lists, added, hinv, hl, hreaders⟩ := run_queue hb hrun
  obtain ⟨head, hhead, hchain⟩ := hinv.linked.head hl
  refine ⟨⟨head, hhead, hchain⟩, ?_, ?_, fun hreader {after s' log'} hrun' => ?_⟩
  · apply (List.reverse_perm _).nodup_iff.mp
    exact hinv.linked.nodup.sublist (List.sublist_flatten_of_mem (List.mem_of_getElem? hl))
  · have hlt : b < s.readers.length := hreaders.symm ▸ hb
    simp only [System.step, List.getElem?_eq_getElem hlt]
    exact ⟨_, _, rfl⟩
  · obtain ⟨s₁, out, log₂, hstep, hrest, rfl⟩ := Machine.run_cons hrun'
    obtain ⟨reader, reader', hreader₀, hread, rfl⟩ := System.step_tick hstep
    cases hreader.symm.trans hreader₀
    rw [hhead] at hread
    cases hread
    have hreader' : (s.readers.set b (.test head))[b]? = some (.test head) :=
      List.getElem?_set_self (hreaders.symm ▸ hb)
    obtain ⟨hsofar, hended, hall⟩ := run_visits after
      (s := { s with readers := s.readers.set b (.test head) }) hinv hl hreader'
      ⟨hchain, fun id hid => hid⟩ hrest
    simp only [Reader.toGo, List.length_reverse] at hended
    exact ⟨hsofar, hended, hall⟩

/-- A call that finds no metric for its key, and registers one. -/
def registering (i : Nat) (key : Key) : List Move :=
  .call (.find i key .gauge) :: List.replicate 7 (.call (.run i))

/-- Two metrics are registered, then the loop starts, and a third one comes in while it is at the
first. -/
theorem tick_visits_once_two :
    ∃ s log s' log',
      Machine.run System.step (System.start 2 1) (registering 0 [97] ++ registering 1 [98]) =
        some (s, log) ∧
      s.readers[0]? = some .start ∧ registered 0 log = [0, 1] ∧
      Machine.run System.step s
        (.tick 0 :: .tick 0 :: (registering 0 [99] ++ List.replicate 4 (.tick 0))) = some (s', log') ∧
      registered 0 log' = [2] ∧ visits 0 log' = [1, 0] := by
  let after : List Move := .tick 0 :: (registering 0 [99] ++ List.replicate 4 (.tick 0))
  have hsome : ((Machine.run System.step (System.start 2 1)
      (registering 0 [97] ++ registering 1 [98])).bind fun r =>
        (Machine.run System.step r.1 (.tick 0 :: after)).map fun r' =>
          (r.1.readers[0]?, registered 0 r.2, registered 0 r'.2)) =
        some (some .start, [0, 1], [2]) := by decide +kernel
  obtain ⟨⟨s, log⟩, hrun, hrest⟩ := Option.bind_eq_some_iff.mp hsome
  obtain ⟨⟨s', log'⟩, hrun', heq⟩ := Option.map_eq_some_iff.mp hrest
  simp only [Prod.mk.injEq] at heq
  obtain ⟨hreader, hlog, hlog'⟩ := heq
  obtain ⟨-, -, -, htick⟩ := tick_visits_once (b := 0) (by decide) hrun
  obtain ⟨-, hended, hall⟩ := htick hreader hrun'
  have hvisits := hall (hended.mpr (by rw [hlog]; decide))
  rw [hlog] at hvisits
  exact ⟨s, log, s', log', hrun, hreader, hlog, hrun', hlog', hvisits⟩

end Concurrent
end Brubeck
