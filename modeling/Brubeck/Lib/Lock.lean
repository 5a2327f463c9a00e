import Brubeck.Lib.Machine

/-!
# Lib.Lock

Threads that work on shared objects, each object behind a lock of its own. A scheduler lets any thread
take one access at a time.

* `Code`: what runs between `lock` and `unlock`, as loads and stores in order.
* `step`: a thread starts a call, or the scheduler lets it try the lock, take the next access, or
  unlock.
* `serial`: the same calls, each of them in one step.
* `run_serial`: every interleaving is the serial run of its calls in the order in which they took their
  locks.
* `run_calls`: the calls of a thread take the lock in the order it made them, and none twice.
-/

namespace Lib
namespace Lock

/-- Code on a memory `M`, one access at a time. -/
inductive Code (M : Type) (R : Type) where
  | ret (result : R)
  | act (write : M → M) (next : M → Code M R)

namespace Code

variable {M R R' : Type}

/-- The whole code, with nothing in between. -/
def exec : Code M R → M → M × R
  | .ret result, mem => (mem, result)
  | .act write next, mem => (next mem).exec (write mem)

def bind : Code M R → (R → Code M R') → Code M R'
  | .ret result, f => f result
  | .act write next, f => .act write fun mem => (next mem).bind f

instance instMonad : Monad (Code M) where
  pure := ret
  bind := bind

def load (read : M → R) : Code M R := .act id fun mem => .ret (read mem)

def store (write : M → M) : Code M Unit := .act write fun _ => .ret ()

@[simp] theorem exec_pure (result : R) (mem : M) :
    (pure result : Code M R).exec mem = (mem, result) := rfl

@[simp] theorem exec_load (read : M → R) (mem : M) : (load read).exec mem = (mem, read mem) := rfl

@[simp] theorem exec_store (write : M → M) (mem : M) : (store write).exec mem = (write mem, ()) := rfl

@[simp] theorem exec_bind (code : Code M R) (f : R → Code M R') (mem : M) :
    (code >>= f).exec mem = (f (code.exec mem).2).exec (code.exec mem).1 := by
  show (code.bind f).exec mem = _
  induction code generalizing mem with
  | ret result => rfl
  | act write next ih => exact ih mem (write mem)

/-- The two rules below keep `exec_bind` from writing the memory twice. -/
theorem exec_load_bind (read : M → R) (f : R → Code M R') (mem : M) :
    (load read >>= f).exec mem = (f (read mem)).exec mem := rfl

theorem exec_store_bind (write : M → M) (f : Unit → Code M R') (mem : M) :
    (store write >>= f).exec mem = (f ()).exec (write mem) := rfl

theorem exec_bind_of {code : Code M R} {mem mem' : M} {result : R} (h : code.exec mem = (mem', result))
    (f : R → Code M R') : (code >>= f).exec mem = (f result).exec mem' := by
  rw [exec_bind, h]

/-- Code that works on a part of the memory. -/
def focus {N : Type} (get : M → N) (set : M → N → M) : Code N R → Code M R
  | .ret result => .ret result
  | .act write next =>
    .act (fun mem => set mem (write (get mem))) fun mem => focus get set (next (get mem))

theorem exec_focus {N : Type} {get : M → N} {set : M → N → M} (hget : ∀ mem part, get (set mem part) = part)
    (hset : ∀ mem part part', set (set mem part) part' = set mem part') (hself : ∀ mem, set mem (get mem) = mem)
    (code : Code N R) (mem : M) :
    (focus get set code).exec mem = (set mem (code.exec (get mem)).1, (code.exec (get mem)).2) := by
  induction code generalizing mem with
  | ret result => simp only [focus, exec, hself]
  | act write next ih =>
    show (focus get set (next (get mem))).exec (set mem (write (get mem))) = _
    rw [ih, hget, hset]
    rfl

end Code

structure Object (M : Type) where
  mem : M
  locked : Bool

/-- A call of an operation on an object by a thread. -/
structure Call (Op : Type) where
  thread : Nat
  object : Nat
  op : Op
  deriving DecidableEq

inductive Thread (M R Op : Type) where
  | idle
  | wait (call : Call Op)
  | hold (call : Call Op) (code : Code M R)

structure State (M R Op : Type) where
  objects : List (Object M)
  threads : List (Thread M R Op)

inductive Event (Op : Type) where
  | call (call : Call Op)
  | run (thread : Nat)

/-- What an observer sees: a call that takes its lock, and a call that gives it back. -/
inductive Out (R Op : Type) where
  | enter (call : Call Op)
  | leave (call : Call Op) (result : R)

section

variable {M R Op : Type} (code : Nat → Op → Code M R)

def State.put (s : State M R Op) (i : Nat) (thread : Thread M R Op) : State M R Op :=
  { s with threads := s.threads.set i thread }

def State.write (s : State M R Op) (i : Nat) (object : Object M) : State M R Op :=
  { s with objects := s.objects.set i object }

/-- A thread that finds the lock taken spins: it will try again when it runs next. -/
def step (s : State M R Op) : Event Op → Option (State M R Op × List (Out R Op))
  | .call call =>
    match s.threads[call.thread]?, s.objects[call.object]? with
    | some .idle, some _ => some (s.put call.thread (.wait call), [])
    | _, _ => none
  | .run i =>
    match s.threads[i]? with
    | some (.wait call) =>
      match s.objects[call.object]? with
      | some object =>
        if object.locked then some (s, [])
        else
          some ((s.write call.object { object with locked := true }).put i
            (.hold call (code call.object call.op)), [.enter call])
      | none => none
    | some (.hold call (.act write next)) =>
      match s.objects[call.object]? with
      | some object =>
        some ((s.write call.object { object with mem := write object.mem }).put i
          (.hold call (next object.mem)), [])
      | none => none
    | some (.hold call (.ret result)) =>
      match s.objects[call.object]? with
      | some object =>
        some ((s.write call.object { object with locked := false }).put i .idle,
          [.leave call result])
      | none => none
    | _ => none

/-- No thread is in a call. -/
def start (mems : List M) (n : Nat) : State M R Op :=
  { objects := mems.map fun mem => ⟨mem, false⟩, threads := List.replicate n .idle }

/-- A call in one step. -/
def serial (mems : List M) (call : Call Op) : Option (List M × List (Call Op × R)) :=
  match mems[call.object]? with
  | some mem =>
    let (mem, result) := (code call.object call.op).exec mem
    some (mems.set call.object mem, [(call, result)])
  | none => none

def Out.entered : Out R Op → Option (Call Op)
  | .enter c => some c
  | .leave _ _ => none

def Out.left : Out R Op → Option (Call Op × R)
  | .enter _ => none
  | .leave c result => some (c, result)

def Event.called : Event Op → Option (Call Op)
  | .call c => some c
  | .run _ => none

/-! ## One step -/

/-- What a step can do, a case for each. -/
inductive Move (s : State M R Op) : Event Op → State M R Op → List (Out R Op) → Prop where
  | call {c : Call Op} {object : Object M} (hidle : s.threads[c.thread]? = some .idle)
      (hobject : s.objects[c.object]? = some object) : Move s (.call c) (s.put c.thread (.wait c)) []
  | spin {i : Nat} {c : Call Op} {object : Object M} (hwait : s.threads[i]? = some (.wait c))
      (hobject : s.objects[c.object]? = some object) : Move s (.run i) s []
  | enter {i : Nat} {c : Call Op} {mem : M} (hwait : s.threads[i]? = some (.wait c))
      (hobject : s.objects[c.object]? = some ⟨mem, false⟩) :
      Move s (.run i) ((s.write c.object ⟨mem, true⟩).put i (.hold c (code c.object c.op))) [.enter c]
  | access {i : Nat} {c : Call Op} {write : M → M} {next : M → Code M R} {object : Object M}
      (hhold : s.threads[i]? = some (.hold c (.act write next)))
      (hobject : s.objects[c.object]? = some object) :
      Move s (.run i) ((s.write c.object { object with mem := write object.mem }).put i
        (.hold c (next object.mem))) []
  | leave {i : Nat} {c : Call Op} {result : R} {object : Object M}
      (hhold : s.threads[i]? = some (.hold c (.ret result)))
      (hobject : s.objects[c.object]? = some object) :
      Move s (.run i) ((s.write c.object { object with locked := false }).put i .idle)
        [.leave c result]

variable {code}

theorem step_move {s s' : State M R Op} {e : Event Op} {out : List (Out R Op)}
    (h : step code s e = some (s', out)) : Move code s e s' out := by
  cases e with
  | call c =>
    simp only [step] at h
    split at h
    · case _ hidle hobject => cases h; exact .call hidle hobject
    · cases h
  | run i =>
    simp only [step] at h
    split at h
    · case _ c hwait =>
      split at h
      · case _ object hobject =>
        split at h
        · cases h; exact .spin hwait hobject
        · case _ hlocked =>
          cases h
          obtain ⟨mem, locked⟩ := object
          rw [Bool.not_eq_true] at hlocked
          cases hlocked
          exact .enter hwait hobject
      · cases h
    · case _ c write next hhold =>
      split at h
      · case _ object hobject => cases h; exact .access hhold hobject
      · cases h
    · case _ c result hhold =>
      split at h
      · case _ object hobject => cases h; exact .leave hhold hobject
      · cases h
    · cases h

/-! ## Serial runs -/

/-- The results that belong to one object. -/
def on (i : Nat) (results : List (Call Op × R)) : List (Call Op × R) :=
  results.filter fun r => r.1.object == i

@[simp] theorem on_append (i : Nat) (xs ys : List (Call Op × R)) : on i (xs ++ ys) = on i xs ++ on i ys :=
  List.filter_append ..

theorem on_map {R' : Type} {f : Call Op × R → Call Op × R'} (hf : ∀ r, (f r).1 = r.1) (i : Nat)
    (results : List (Call Op × R)) : on i (results.map f) = (on i results).map f := by
  rw [on, on, List.filter_map]
  refine congrArg (List.map f) (List.filter_congr fun r _ => ?_)
  rw [Function.comp_apply, hf]

theorem on_single_self (c : Call Op) (result : R) : on c.object [(c, result)] = [(c, result)] := by
  simp [on]

theorem on_single_ne {c : Call Op} {i : Nat} (h : c.object ≠ i) (result : R) :
    on i [(c, result)] = [] := by
  simp [on, h]

/-- The threads and the serial run: where a lock is free the two have the same memory and the same
results, and where it is held the serial run is ahead by what is left of the call. -/
structure Agrees (s : State M R Op) (left : List (Call Op × R)) (mems : List M)
    (results : List (Call Op × R)) : Prop where
  length : mems.length = s.objects.length
  free : ∀ {i : Nat} {mem : M}, s.objects[i]? = some ⟨mem, false⟩ → mems[i]? = some mem
  settled : ∀ {i : Nat}, (∀ mem, s.objects[i]? ≠ some ⟨mem, true⟩) → on i results = on i left
  held : ∀ {t : Nat} {c : Call Op} {code : Code M R}, s.threads[t]? = some (.hold c code) →
    ∃ mem, s.objects[c.object]? = some ⟨mem, true⟩ ∧ mems[c.object]? = some (code.exec mem).1 ∧
      on c.object results = on c.object left ++ [(c, (code.exec mem).2)]
  owner : ∀ {i : Nat} {mem : M}, s.objects[i]? = some ⟨mem, true⟩ →
    ∃ (t : Nat) (c : Call Op) (code : Code M R), s.threads[t]? = some (.hold c code) ∧ c.object = i
  one : ∀ {t t' : Nat} {c c' : Call Op} {code code' : Code M R},
    s.threads[t]? = some (.hold c code) → s.threads[t']? = some (.hold c' code') →
    c.object = c'.object → t = t'

theorem agrees_start (mems : List M) (n : Nat) : Agrees (start mems n : State M R Op) [] mems [] where
  length := by simp [start]
  free := by
    intro i mem h
    simp only [start, List.getElem?_map, Option.map_eq_some_iff, Object.mk.injEq] at h
    obtain ⟨mem', hmem, rfl, -⟩ := h
    exact hmem
  settled := fun _ => rfl
  held := by
    intro t c code h
    simp only [start, List.getElem?_replicate] at h
    split at h <;> cases h
  owner := by
    intro i mem h
    simp [start] at h
  one := by
    intro t t' c c' code code' h
    simp only [start, List.getElem?_replicate] at h
    split at h <;> cases h

/-- A place of a list after one place was written. -/
theorem getElem?_set_cases {α : Type} {xs : List α} {i j : Nat} {x y : α}
    (h : (xs.set i x)[j]? = some y) : j = i ∧ x = y ∨ j ≠ i ∧ xs[j]? = some y := by
  by_cases hj : j = i
  · subst hj
    rw [List.getElem?_set_self'] at h
    obtain ⟨_, -, hy⟩ := Option.map_eq_some_iff.mp h
    exact .inl ⟨rfl, hy⟩
  · rw [List.getElem?_set_ne (Ne.symm hj)] at h
    exact .inr ⟨hj, h⟩

theorem getElem?_set_of_some {α : Type} {xs : List α} {i : Nat} {x : α} (h : xs[i]? = some x) (y : α) :
    (xs.set i y)[i]? = some y := by
  rw [List.getElem?_set_self']
  exact Option.map_eq_some_iff.mpr ⟨x, h, rfl⟩

/-- A thread that does not hold a lock before or after a step does not change the agreement. -/
theorem Agrees.put {s : State M R Op} {left : List (Call Op × R)} {mems : List M}
    {results : List (Call Op × R)} (h : Agrees s left mems results) {i : Nat} {old : Thread M R Op}
    (hold : s.threads[i]? = some old) (hno : ∀ c code, old ≠ .hold c code) {new : Thread M R Op}
    (hnew : ∀ c code, new ≠ .hold c code) : Agrees (s.put i new) left mems results where
  length := h.length
  free := h.free
  settled := h.settled
  held := by
    intro t c code ht
    obtain ⟨-, heq⟩ | ⟨-, ht⟩ := getElem?_set_cases ht
    · exact absurd heq (hnew c code)
    · exact h.held ht
  owner := by
    intro j mem hj
    obtain ⟨t, c, code, ht, hc⟩ := h.owner hj
    have hti : i ≠ t := by
      rintro rfl
      rw [hold] at ht
      cases ht
      exact hno c code rfl
    exact ⟨t, c, code, by rw [State.put, List.getElem?_set_ne hti]; exact ht, hc⟩
  one := by
    intro t t' c c' code code' ht ht'
    obtain ⟨-, heq⟩ | ⟨-, ht⟩ := getElem?_set_cases ht
    · exact absurd heq (hnew c code)
    · obtain ⟨-, heq⟩ | ⟨-, ht'⟩ := getElem?_set_cases ht'
      · exact absurd heq (hnew c' code')
      · exact h.one ht ht'

/-- The serial run takes the whole call when the thread takes the lock. -/
theorem Agrees.enter {s : State M R Op} {left : List (Call Op × R)} {mems : List M}
    {results : List (Call Op × R)} (h : Agrees s left mems results) {i : Nat} {c : Call Op} {mem : M}
    (hwait : s.threads[i]? = some (.wait c)) (hobject : s.objects[c.object]? = some ⟨mem, false⟩)
    (body : Code M R) :
    Agrees ((s.write c.object ⟨mem, true⟩).put i (.hold c body)) left
      (mems.set c.object (body.exec mem).1) (results ++ [(c, (body.exec mem).2)]) where
  length := by simp [State.put, State.write, h.length]
  free := by
    intro j mem' hj
    obtain ⟨-, heq⟩ | ⟨hne, hj⟩ := getElem?_set_cases hj
    · cases heq
    · rw [List.getElem?_set_ne (Ne.symm hne)]
      exact h.free hj
  settled := by
    intro j hj
    have hne : c.object ≠ j := by
      rintro rfl
      exact hj mem (getElem?_set_of_some hobject _)
    rw [on_append, on_single_ne hne, List.append_nil]
    refine h.settled fun mem' hmem' => hj mem' ?_
    rw [State.put, State.write, List.getElem?_set_ne hne]
    exact hmem'
  held := by
    intro t c' code ht
    have hon : on c.object results = on c.object left := by
      refine h.settled fun mem' hmem' => ?_
      rw [hobject] at hmem'
      cases hmem'
    obtain ⟨-, heq⟩ | ⟨hne, ht⟩ := getElem?_set_cases ht
    · cases heq
      refine ⟨mem, getElem?_set_of_some hobject _, getElem?_set_of_some (h.free hobject) _, ?_⟩
      rw [on_append, hon, on_single_self]
    · obtain ⟨mem', hobject', hmem', hon'⟩ := h.held ht
      have hother : c.object ≠ c'.object := by
        intro heq
        rw [← heq, hobject] at hobject'
        cases hobject'
      refine ⟨mem', ?_, ?_, ?_⟩
      · rw [State.put, State.write, List.getElem?_set_ne hother]; exact hobject'
      · rw [List.getElem?_set_ne hother]; exact hmem'
      · rw [on_append, on_single_ne hother, List.append_nil]; exact hon'
  owner := by
    intro j mem' hj
    obtain ⟨rfl, -⟩ | ⟨-, hj⟩ := getElem?_set_cases hj
    · exact ⟨i, c, body, getElem?_set_of_some hwait _, rfl⟩
    · obtain ⟨t, c', code, ht, hc⟩ := h.owner hj
      have hti : i ≠ t := by
        rintro rfl
        rw [hwait] at ht
        cases ht
      exact ⟨t, c', code, by rw [State.put, List.getElem?_set_ne hti]; exact ht, hc⟩
  one := by
    -- the lock was free, so no other thread holds it
    have hfree : ∀ {t : Nat} {c' : Call Op} {code : Code M R},
        s.threads[t]? = some (.hold c' code) → c'.object ≠ c.object := by
      intro t c' code ht heq
      obtain ⟨mem', hobject', -⟩ := h.held ht
      rw [heq, hobject] at hobject'
      cases hobject'
    intro t t' c₁ c₂ code code' ht ht' heq
    obtain ⟨hti, h₁⟩ | ⟨-, ht⟩ := getElem?_set_cases ht
    · obtain ⟨hti', -⟩ | ⟨-, ht'⟩ := getElem?_set_cases ht'
      · rw [hti, hti']
      · cases h₁
        exact absurd heq.symm (hfree ht')
    · obtain ⟨-, h₂⟩ | ⟨-, ht'⟩ := getElem?_set_cases ht'
      · cases h₂
        exact absurd heq (hfree ht)
      · exact h.one ht ht' heq

/-- An access of the thread that holds the lock brings its memory nearer to the serial run's. -/
theorem Agrees.access {s : State M R Op} {left : List (Call Op × R)} {mems : List M}
    {results : List (Call Op × R)} (h : Agrees s left mems results) {i : Nat} {c : Call Op}
    {write : M → M} {next : M → Code M R} {object : Object M}
    (hhold : s.threads[i]? = some (.hold c (.act write next)))
    (hobject : s.objects[c.object]? = some object) :
    Agrees ((s.write c.object { object with mem := write object.mem }).put i
      (.hold c (next object.mem))) left mems results := by
  obtain ⟨mem, hobject', hmem, hon⟩ := h.held hhold
  rw [hobject] at hobject'
  cases hobject'
  refine ⟨by simp [State.put, State.write, h.length], ?_, ?_, ?_, ?_, ?_⟩
  · intro j mem' hj
    obtain ⟨-, heq⟩ | ⟨-, hj⟩ := getElem?_set_cases hj
    · cases heq
    · exact h.free hj
  · intro j hj
    have hne : c.object ≠ j := by
      rintro rfl
      exact hj (write mem) (getElem?_set_of_some hobject _)
    refine h.settled fun mem' hmem' => hj mem' ?_
    rw [State.put, State.write, List.getElem?_set_ne hne]
    exact hmem'
  · intro t c' code ht
    obtain ⟨-, heq⟩ | ⟨hne, ht⟩ := getElem?_set_cases ht
    · cases heq
      exact ⟨write mem, getElem?_set_of_some hobject _, hmem, hon⟩
    · obtain ⟨mem', hobject', hmem', hon'⟩ := h.held ht
      refine ⟨mem', ?_, hmem', hon'⟩
      have hother : c.object ≠ c'.object := fun heq => hne (h.one ht hhold heq.symm)
      rw [State.put, State.write, List.getElem?_set_ne hother]
      exact hobject'
  · intro j mem' hj
    obtain ⟨rfl, -⟩ | ⟨hne, hj⟩ := getElem?_set_cases hj
    · exact ⟨i, c, next mem, getElem?_set_of_some hhold _, rfl⟩
    · obtain ⟨t, c', code, ht, rfl⟩ := h.owner hj
      have hti : i ≠ t := by
        rintro rfl
        rw [hhold] at ht
        cases ht
        exact hne rfl
      exact ⟨t, c', code, by rw [State.put, List.getElem?_set_ne hti]; exact ht, rfl⟩
  · intro t t' c₁ c₂ code code' ht ht' heq
    obtain ⟨hti, h₁⟩ | ⟨-, ht⟩ := getElem?_set_cases ht
    · obtain ⟨hti', -⟩ | ⟨-, ht'⟩ := getElem?_set_cases ht'
      · rw [hti, hti']
      · cases h₁
        rw [hti]
        exact h.one hhold ht' heq
    · obtain ⟨hti', h₂⟩ | ⟨-, ht'⟩ := getElem?_set_cases ht'
      · cases h₂
        rw [hti']
        exact h.one ht hhold heq
      · exact h.one ht ht' heq

theorem Agrees.leave {s : State M R Op} {left : List (Call Op × R)} {mems : List M}
    {results : List (Call Op × R)} (h : Agrees s left mems results) {i : Nat} {c : Call Op}
    {result : R} {object : Object M} (hhold : s.threads[i]? = some (.hold c (.ret result)))
    (hobject : s.objects[c.object]? = some object) :
    Agrees ((s.write c.object { object with locked := false }).put i .idle) (left ++ [(c, result)])
      mems results := by
  obtain ⟨mem, hobject', hmem, hon⟩ := h.held hhold
  rw [hobject] at hobject'
  cases hobject'
  refine ⟨by simp [State.put, State.write, h.length], ?_, ?_, ?_, ?_, ?_⟩
  · intro j mem' hj
    obtain ⟨rfl, heq⟩ | ⟨-, hj⟩ := getElem?_set_cases hj
    · cases heq
      exact hmem
    · exact h.free hj
  · intro j hj
    rw [on_append]
    by_cases hne : c.object = j
    · subst hne
      rw [on_single_self]
      exact hon
    · rw [on_single_ne hne, List.append_nil]
      refine h.settled fun mem' hmem' => hj mem' ?_
      rw [State.put, State.write, List.getElem?_set_ne hne]
      exact hmem'
  · intro t c' code ht
    obtain ⟨-, heq⟩ | ⟨hne, ht⟩ := getElem?_set_cases ht
    · cases heq
    · obtain ⟨mem', hobject', hmem', hon'⟩ := h.held ht
      have hother : c.object ≠ c'.object := fun heq => hne (h.one ht hhold heq.symm)
      refine ⟨mem', ?_, hmem', ?_⟩
      · rw [State.put, State.write, List.getElem?_set_ne hother]; exact hobject'
      · rw [on_append, on_single_ne hother, List.append_nil]; exact hon'
  · intro j mem' hj
    obtain ⟨-, heq⟩ | ⟨hne, hj⟩ := getElem?_set_cases hj
    · cases heq
    · obtain ⟨t, c', code, ht, rfl⟩ := h.owner hj
      have hti : i ≠ t := by
        rintro rfl
        rw [hhold] at ht
        cases ht
        exact hne rfl
      exact ⟨t, c', code, by rw [State.put, List.getElem?_set_ne hti]; exact ht, rfl⟩
  · intro t t' c₁ c₂ code code' ht ht'
    obtain ⟨-, heq⟩ | ⟨-, ht⟩ := getElem?_set_cases ht
    · cases heq
    · obtain ⟨-, heq⟩ | ⟨-, ht'⟩ := getElem?_set_cases ht'
      · cases heq
      · exact h.one ht ht'

/-- A step of a thread is a step of the serial run, or none of it. -/
theorem step_agrees {s s' : State M R Op} {e : Event Op} {out : List (Out R Op)}
    {left : List (Call Op × R)} {mems : List M} {results : List (Call Op × R)}
    (h : Agrees s left mems results) (hstep : step code s e = some (s', out)) :
    ∃ mems' results', Machine.run (serial code) mems (out.filterMap Out.entered) = some (mems', results') ∧
      Agrees s' (left ++ out.filterMap Out.left) mems' (results ++ results') := by
  cases step_move hstep with
  | call hidle hobject =>
    refine ⟨mems, [], rfl, ?_⟩
    simp only [List.filterMap_nil, List.append_nil]
    exact h.put hidle nofun nofun
  | spin hwait hobject =>
    refine ⟨mems, [], rfl, ?_⟩
    simp only [List.filterMap_nil, List.append_nil]
    exact h
  | @enter i c mem hwait hobject =>
    refine ⟨mems.set c.object ((code c.object c.op).exec mem).1,
      [(c, ((code c.object c.op).exec mem).2)], ?_, ?_⟩
    · have hserial : serial code mems c = some (mems.set c.object ((code c.object c.op).exec mem).1,
          [(c, ((code c.object c.op).exec mem).2)]) := by
        rw [serial, h.free hobject]
      exact Machine.run_step hserial rfl
    · show Agrees _ (left ++ []) _ _
      rw [List.append_nil]
      exact h.enter hwait hobject _
  | access hhold hobject =>
    refine ⟨mems, [], rfl, ?_⟩
    simp only [List.filterMap_nil, List.append_nil]
    exact h.access hhold hobject
  | @leave i c result object hhold hobject =>
    refine ⟨mems, [], rfl, ?_⟩
    rw [List.append_nil]
    exact h.leave hhold hobject

/-- Every interleaving is the serial run of its calls, in the order in which they took their locks. -/
theorem run_serial {mems : List M} {n : Nat} {es : List (Event Op)} {s : State M R Op}
    {out : List (Out R Op)} (h : Machine.run (step code) (start mems n) es = some (s, out)) :
    ∃ mems' results, Machine.run (serial code) mems (out.filterMap Out.entered) = some (mems', results) ∧
      Agrees s (out.filterMap Out.left) mems' results := by
  refine Machine.run_history (fun s out => ∃ mems' results,
    Machine.run (serial code) mems (out.filterMap Out.entered) = some (mems', results) ∧
      Agrees s (out.filterMap Out.left) mems' results) ?_ ⟨mems, [], rfl, agrees_start mems n⟩ h
  rintro s e s' log out ⟨mems₁, results₁, hrun, hagrees⟩ hstep
  obtain ⟨mems₂, results₂, hrun', hagrees'⟩ := step_agrees hagrees hstep
  refine ⟨mems₂, results₁ ++ results₂, ?_, ?_⟩
  · rw [List.filterMap_append]
    exact Machine.run_append hrun hrun'
  · rw [List.filterMap_append]
    exact hagrees'

/-- Whether the lock is free or held, the calls that have given it back got the results of the serial
run. -/
theorem Agrees.left_prefix {s : State M R Op} {left : List (Call Op × R)} {mems : List M}
    {results : List (Call Op × R)} (h : Agrees s left mems results) (i : Nat) :
    on i left <+: on i results := by
  by_cases hi : ∃ mem, s.objects[i]? = some ⟨mem, true⟩
  · obtain ⟨mem, hmem⟩ := hi
    obtain ⟨t, c, code, ht, rfl⟩ := h.owner hmem
    obtain ⟨mem', -, -, hon⟩ := h.held ht
    exact ⟨_, hon.symm⟩
  · have hsame : on i results = on i left := h.settled fun mem hmem => hi ⟨mem, hmem⟩
    exact hsame ▸ List.prefix_rfl

/-- No thread is in a call: then the memory is that of the serial run, and so are the results on every
object. -/
theorem Agrees.idle {s : State M R Op} {left : List (Call Op × R)} {mems : List M}
    {results : List (Call Op × R)} (h : Agrees s left mems results)
    (hidle : ∀ thread ∈ s.threads, thread = .idle) :
    mems = s.objects.map Object.mem ∧ ∀ i, on i results = on i left := by
  have hfree : ∀ (i : Nat) (mem : M), s.objects[i]? ≠ some ⟨mem, true⟩ := by
    intro i mem hi
    obtain ⟨t, c, code, ht, -⟩ := h.owner hi
    cases hidle _ (List.mem_of_getElem? ht)
  refine ⟨List.ext_getElem? fun i => ?_, fun i => h.settled (hfree i)⟩
  rw [List.getElem?_map]
  cases hi : s.objects[i]? with
  | none =>
    rw [Option.map_none, List.getElem?_eq_none_iff, h.length]
    exact List.getElem?_eq_none_iff.mp hi
  | some object =>
    obtain ⟨mem, locked⟩ := object
    cases locked with
    | true => exact absurd hi (hfree i mem)
    | false => exact h.free hi

/-! ## The calls of one thread -/

/-- The calls that a thread made. -/
def made (t : Nat) (calls : List (Call Op)) : List (Call Op) := calls.filter fun c => c.thread == t

/-- The call with which a thread waits for a lock. -/
def State.waiting (s : State M R Op) (t : Nat) : List (Call Op) :=
  match s.threads[t]? with
  | some (.wait c) => [c]
  | _ => []

theorem waiting_put_ne (s : State M R Op) {i t : Nat} (h : i ≠ t) (thread : Thread M R Op) :
    (s.put i thread).waiting t = s.waiting t := by
  rw [State.waiting, State.put, List.getElem?_set_ne h, State.waiting]

theorem waiting_put_self {s : State M R Op} {i : Nat} {old : Thread M R Op}
    (h : s.threads[i]? = some old) (thread : Thread M R Op) :
    (s.put i thread).waiting i = match thread with | .wait c => [c] | _ => [] := by
  rw [State.waiting, State.put, getElem?_set_of_some h]
  cases thread <;> rfl

/-- A thread waits with a call of its own. -/
def State.Own (s : State M R Op) : Prop :=
  ∀ {t : Nat} {c : Call Op}, s.threads[t]? = some (.wait c) → c.thread = t

theorem own_put {s : State M R Op} (h : s.Own) {i : Nat} {thread : Thread M R Op}
    (hthread : ∀ c, thread = .wait c → c.thread = i) : (s.put i thread).Own := by
  intro t c ht
  obtain ⟨rfl, heq⟩ | ⟨-, ht⟩ := getElem?_set_cases ht
  · exact hthread c heq
  · exact h ht

/-- A step of a thread that was not waiting and is not waiting after it. -/
theorem waiting_same {s : State M R Op} {i : Nat} {old thread : Thread M R Op}
    (h : s.threads[i]? = some old) (hold : ∀ c, old ≠ .wait c) (hnew : ∀ c, thread ≠ .wait c) (t : Nat) :
    (s.put i thread).waiting t = s.waiting t := by
  by_cases ht : i = t
  · subst ht
    rw [waiting_put_self h, State.waiting, h]
    cases thread with
    | wait c => exact absurd rfl (hnew c)
    | idle | hold _ _ =>
      cases old with
      | wait c => exact absurd rfl (hold c)
      | idle | hold _ _ => rfl
  · exact waiting_put_ne s ht thread

theorem step_calls {s s' : State M R Op} {e : Event Op} {out : List (Out R Op)} (h : s.Own)
    (hstep : step code s e = some (s', out)) :
    s'.Own ∧ ∀ t, s.waiting t ++ made t e.called.toList =
      made t (out.filterMap Out.entered) ++ s'.waiting t := by
  cases step_move hstep with
  | @call c object hidle hobject =>
    refine ⟨own_put h fun c' hc => by cases hc; rfl, fun t => ?_⟩
    show s.waiting t ++ made t [c] = [] ++ _
    by_cases ht : c.thread = t
    · subst ht
      rw [waiting_put_self hidle, State.waiting, hidle]
      simp [made]
    · rw [waiting_put_ne s ht]
      simp [made, ht]
  | spin hwait hobject =>
    exact ⟨h, fun t => by simp [made, Event.called]⟩
  | @enter i c mem hwait hobject =>
    have hown := h hwait
    refine ⟨own_put (s := s.write _ _) h (by intro _ hc; cases hc), fun t => ?_⟩
    show s.waiting t ++ [] = made t [c] ++ _
    by_cases ht : i = t
    · subst ht
      rw [waiting_put_self (s := s.write c.object ⟨mem, true⟩) hwait, State.waiting, hwait]
      simp [made, hown]
    · have hmade : made t [c] = [] := by simp [made, hown, ht]
      rw [waiting_put_ne _ ht, hmade, List.append_nil]
      rfl
  | access hhold hobject =>
    refine ⟨own_put (s := s.write _ _) h (by intro _ hc; cases hc), fun t => ?_⟩
    show s.waiting t ++ [] = [] ++ _
    rw [List.append_nil, List.nil_append]
    exact (waiting_same (s := s.write _ _) hhold (by intro _ hc; cases hc)
      (by intro _ hc; cases hc) t).symm
  | leave hhold hobject =>
    refine ⟨own_put (s := s.write _ _) h (by intro _ hc; cases hc), fun t => ?_⟩
    show s.waiting t ++ [] = [] ++ _
    rw [List.append_nil, List.nil_append]
    exact (waiting_same (s := s.write _ _) hhold (by intro _ hc; cases hc)
      (by intro _ hc; cases hc) t).symm

/-- The calls of a thread take their locks in the order in which it made them, each of them once. -/
theorem run_calls {s s' : State M R Op} {es : List (Event Op)} {out : List (Out R Op)} (h : s.Own)
    (hrun : Machine.run (step code) s es = some (s', out)) (t : Nat) :
    s.waiting t ++ made t (es.filterMap Event.called) =
      made t (out.filterMap Out.entered) ++ s'.waiting t := by
  induction es generalizing s out with
  | nil => cases hrun; simp [made]
  | cons e es ih =>
    obtain ⟨s₁, out₁, out₂, hone, hrest, rfl⟩ := Machine.run_cons hrun
    obtain ⟨hown, hcalls⟩ := step_calls h hone
    have hcons : (e :: es).filterMap Event.called = e.called.toList ++ es.filterMap Event.called := by
      rw [List.filterMap_cons]
      cases e.called <;> rfl
    calc s.waiting t ++ made t ((e :: es).filterMap Event.called)
        = (s.waiting t ++ made t e.called.toList) ++ made t (es.filterMap Event.called) := by
          rw [hcons, made, List.filter_append, List.append_assoc]; rfl
      _ = made t (out₁.filterMap Out.entered) ++
          (s₁.waiting t ++ made t (es.filterMap Event.called)) := by
          rw [hcalls t, List.append_assoc]
      _ = made t ((out₁ ++ out₂).filterMap Out.entered) ++ s'.waiting t := by
          rw [ih hown hrest, List.filterMap_append, made, made, made, List.filter_append,
            List.append_assoc]

theorem start_own (mems : List M) (n : Nat) : (start mems n : State M R Op).Own := by
  intro t c h
  simp only [start, List.getElem?_replicate] at h
  split at h <;> cases h

theorem start_waiting (mems : List M) (n t : Nat) : (start mems n : State M R Op).waiting t = [] := by
  unfold State.waiting
  split
  · case _ c h =>
    simp only [start, List.getElem?_replicate] at h
    split at h <;> cases h
  · rfl

end

end Lock
end Lib
