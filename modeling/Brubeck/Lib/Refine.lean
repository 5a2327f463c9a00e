import Brubeck.Lib.Machine

/-!
# Lib.Refine

A machine that another one explains: each of its steps is a list of the other's events, which may
depend on the state the step is taken in.

* `trace`: what a whole run is to the other machine. `trace_history` is its induction rule.
* `run_refines`: what every step refines, every run refines, with the part of the output that the other
  machine has.
-/

namespace Lib
namespace Machine

variable {S E O S' E' O' : Type*} {step : S → E → Option (S × List O)}
  {step' : S' → E' → Option (S' × List O')}

theorem run_single (s : S) (e : E) : run step s [e] = step s e := by
  cases h : step s e with
  | none => simp only [run, h]
  | some r => simp only [run, h, Option.map_some, List.append_nil]

/-- The events of the other machine in a run from `s`. -/
def trace (step : S → E → Option (S × List O)) (events : S → E → List E') (s : S) : List E → List E'
  | [] => []
  | e :: es =>
    match step s e with
    | none => []
    | some (s', _) => events s e ++ trace step events s' es

theorem trace_cons {events : S → E → List E'} {s s' : S} {e : E} {out : List O}
    (h : step s e = some (s', out)) (es : List E) :
    trace step events s (e :: es) = events s e ++ trace step events s' es := by
  simp only [trace, h]

/-- What holds of the events of every step that an invariant allows, holds of those of a run. -/
theorem mem_trace (Inv : S → Prop)
    (hstep : ∀ {s e s' out}, Inv s → step s e = some (s', out) → Inv s')
    {events : S → E → List E'} {P : E' → Prop} {s : S} {es : List E}
    (hP : ∀ s, ∀ e ∈ es, Inv s → ∀ e' ∈ events s e, P e') (hs : Inv s) :
    ∀ e' ∈ trace step events s es, P e' := by
  induction es generalizing s with
  | nil => intro e' h; cases h
  | cons e es ih =>
    intro e' h
    rw [trace] at h
    split at h
    · cases h
    · case _ hone =>
      rcases List.mem_append.mp h with h | h
      · exact hP s e List.mem_cons_self hs e' h
      · exact ih (fun s e he => hP s e (List.mem_cons_of_mem _ he)) (hstep hs hone) e' h

/-- What every step keeps of a state and of the events before it, a run keeps. -/
theorem trace_history (Inv : S → List E' → Prop) {events : S → E → List E'} {es : List E}
    (hstep : ∀ {s e s' log out}, e ∈ es → Inv s log → step s e = some (s', out) →
      Inv s' (log ++ events s e))
    {s s' : S} {log : List E'} {out : List O} (hs : Inv s log) (h : run step s es = some (s', out)) :
    Inv s' (log ++ trace step events s es) := by
  induction es generalizing s log out with
  | nil => cases h; rwa [trace, List.append_nil]
  | cons e es ih =>
    obtain ⟨s₁, out₁, out₂, hone, hrest, -⟩ := run_cons h
    rw [trace_cons hone, ← List.append_assoc]
    exact ih (fun he => hstep (List.mem_cons_of_mem _ he)) (hstep List.mem_cons_self hs hone) hrest

theorem run_refines (Inv : S → Prop) (view : S → S') (events : S → E → List E') (seen : O → Option O')
    (hstep : ∀ {s e s' out}, Inv s → step s e = some (s', out) →
      Inv s' ∧ run step' (view s) (events s e) = some (view s', out.filterMap seen))
    {s s' : S} {es : List E} {out : List O} (hs : Inv s) (h : run step s es = some (s', out)) :
    Inv s' ∧ run step' (view s) (trace step events s es) = some (view s', out.filterMap seen) := by
  induction es generalizing s out with
  | nil => cases h; exact ⟨hs, rfl⟩
  | cons e es ih =>
    obtain ⟨s₁, out₁, out₂, hone, hrest, rfl⟩ := run_cons h
    obtain ⟨hs₁, hview⟩ := hstep hs hone
    obtain ⟨hlast, hview'⟩ := ih hs₁ hrest
    refine ⟨hlast, ?_⟩
    rw [trace_cons hone, List.filterMap_append]
    exact run_append hview hview'

end Machine
end Lib
