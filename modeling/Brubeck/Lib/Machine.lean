import Mathlib.Algebra.BigOperators.Group.List.Basic

/-!
# Lib.Machine

Machines that take one event at a time, put out a list, and may stop for good.

* `run`: a whole run, `none` when a step stops.
* `run_history`: what every step keeps of a state and of everything put out before it, every run
  keeps. `run_history_of` looks at the events of one run only, and `run_invariant` is the case that
  does not look at the output. `run_along` looks at runs whose steps all meet a condition, and
  `run_total` at machines that do not stop.
* `run_balance`: what every step balances, every run balances.
* `run_map`, `run_filter`: a run seen through a map, and a run without some of its events.
-/

namespace Lib
namespace Machine

variable {S E O : Type*} (step : S → E → Option (S × List O))

/-- A run from `s`: the last state, and everything put out on the way. -/
def run (s : S) : List E → Option (S × List O)
  | [] => some (s, [])
  | e :: es =>
    match step s e with
    | none => none
    | some (s, out) => (run s es).map fun (s, out') => (s, out ++ out')

variable {step}

theorem run_cons {s s' : S} {e : E} {es : List E} {out : List O}
    (h : run step s (e :: es) = some (s', out)) :
    ∃ s₁ out₁ out₂, step s e = some (s₁, out₁) ∧ run step s₁ es = some (s', out₂) ∧
      out = out₁ ++ out₂ := by
  rw [run] at h
  cases hstep : step s e with
  | none => rw [hstep] at h; cases h
  | some r =>
    obtain ⟨s₁, out₁⟩ := r
    rw [hstep] at h
    obtain ⟨⟨s₂, out₂⟩, hrun, heq⟩ := Option.map_eq_some_iff.mp h
    cases heq
    exact ⟨s₁, out₁, out₂, rfl, hrun, rfl⟩

theorem run_step {s s₁ s₂ : S} {e : E} {es : List E} {out out' : List O}
    (h : step s e = some (s₁, out)) (h' : run step s₁ es = some (s₂, out')) :
    run step s (e :: es) = some (s₂, out ++ out') := by
  simp only [run, h, h', Option.map_some]

theorem run_append {s s₁ s₂ : S} {es es' : List E} {out out' : List O}
    (h : run step s es = some (s₁, out)) (h' : run step s₁ es' = some (s₂, out')) :
    run step s (es ++ es') = some (s₂, out ++ out') := by
  induction es generalizing s out with
  | nil => cases h; exact h'
  | cons e es ih =>
    obtain ⟨s₃, out₁, out₂, hone, hrun, rfl⟩ := run_cons h
    rw [List.append_assoc]
    exact run_step hone (ih hrun)

/-- A run seen through a map that every step respects. -/
theorem run_map {S' : Type*} {step' : S' → E → Option (S' × List O)} (f : S → S')
    (hf : ∀ s e, step' (f s) e = (step s e).map fun r => (f r.1, r.2)) (s : S) (es : List E) :
    run step' (f s) es = (run step s es).map fun r => (f r.1, r.2) := by
  induction es generalizing s with
  | nil => rfl
  | cons e es ih =>
    rw [run, run, hf]
    cases step s e with
    | none => rfl
    | some r =>
      simp only [Option.map_some, ih, Option.map_map]
      rfl

/-- Events that do nothing but apply `g` may be left out, when `g` respects every step: what is left
of them is `g`, once for each. -/
theorem run_filter (Inv : S → Prop) (g : S → S) (p : E → Bool)
    (hinv : ∀ {s e s' out}, Inv s → step s e = some (s', out) → Inv s')
    (hskip : ∀ {s e}, Inv s → p e = false → step s e = some (g s, []))
    (hg : ∀ s e, step (g s) e = (step s e).map fun r => (g r.1, r.2)) {s : S} (hs : Inv s)
    (es : List E) :
    run step s es =
      (run step s (es.filter p)).map fun r => (g^[es.countP fun e => !p e] r.1, r.2) := by
  induction es generalizing s with
  | nil => rfl
  | cons e es ih =>
    cases hp : p e with
    | true =>
      rw [List.filter_cons_of_pos hp, List.countP_cons_of_neg (by simp [hp]), run, run]
      cases hstep : step s e with
      | none => rfl
      | some r =>
        simp only [ih (hinv hs hstep), Option.map_map]
        rfl
    | false =>
      rw [List.filter_cons_of_neg (by simp [hp]), List.countP_cons_of_pos (by simp [hp]), run,
        hskip hs hp]
      simp only [List.nil_append, run_map g hg, ih hs, Option.map_map]
      refine congrArg (Option.map · _) (funext fun r => ?_)
      rw [Function.iterate_succ_apply']
      rfl

/-- What every step on an event of the run keeps of a state and of all that was put out before it, the
run keeps. -/
theorem run_history_of (Inv : S → List O → Prop) {es : List E}
    (hstep : ∀ {s e s' log out}, e ∈ es → Inv s log → step s e = some (s', out) → Inv s' (log ++ out))
    {s s' : S} {out : List O} (hs : Inv s []) (h : run step s es = some (s', out)) : Inv s' out := by
  have hlog : ∀ {s log}, Inv s log → run step s es = some (s', out) → Inv s' (log ++ out) := by
    clear hs h
    induction es generalizing out with
    | nil => intro s log hs h; cases h; rwa [List.append_nil]
    | cons e es ih =>
      intro s log hs h
      obtain ⟨s₁, out₁, out₂, hone, hrun, rfl⟩ := run_cons h
      rw [← List.append_assoc]
      exact ih (fun he => hstep (List.mem_cons_of_mem _ he)) (hstep List.mem_cons_self hs hone) hrun
  exact hlog hs h

/-- What every step keeps of a state and of all that was put out before it, every run keeps. -/
theorem run_history (Inv : S → List O → Prop)
    (hstep : ∀ {s e s' log out}, Inv s log → step s e = some (s', out) → Inv s' (log ++ out))
    {s s' : S} {es : List E} {out : List O} (hs : Inv s []) (h : run step s es = some (s', out)) :
    Inv s' out :=
  run_history_of Inv (fun _ hs hone => hstep hs hone) hs h

/-- What every step keeps, every run keeps. -/
theorem run_invariant (Inv : S → Prop)
    (hstep : ∀ {s e s' out}, Inv s → step s e = some (s', out) → Inv s') {s s' : S} {es : List E}
    {out : List O} (hs : Inv s) (h : run step s es = some (s', out)) : Inv s' :=
  run_history (fun s _ => Inv s) (fun hs hone => hstep hs hone) hs h

/-- Every step of a run meets a condition on the state before it and the event. -/
def Along (step : S → E → Option (S × List O)) (P : S → E → Prop) (s : S) : List E → Prop
  | [] => True
  | e :: es => P s e ∧ ∀ {s' out}, step s e = some (s', out) → Along step P s' es

/-- What every step that meets the condition keeps, a run whose steps all meet it keeps. -/
theorem run_along (P : S → E → Prop) (Inv : S → List O → Prop)
    (hstep : ∀ {s e s' log out}, Inv s log → P s e → step s e = some (s', out) → Inv s' (log ++ out))
    {s s' : S} {es : List E} {out : List O} (hs : Inv s []) (hP : Along step P s es)
    (h : run step s es = some (s', out)) : Inv s' out := by
  have hlog : ∀ {s log}, Inv s log → Along step P s es → run step s es = some (s', out) →
      Inv s' (log ++ out) := by
    clear hs hP h
    induction es generalizing out with
    | nil => intro s log hs _ h; cases h; rwa [List.append_nil]
    | cons e es ih =>
      intro s log hs hP h
      obtain ⟨s₁, out₁, out₂, hone, hrun, rfl⟩ := run_cons h
      rw [← List.append_assoc]
      exact ih (hstep hs hP.1 hone) (hP.2 hone) hrun
  exact hlog hs hP h

/-- A machine that never stops where an invariant holds never stops. -/
theorem run_total (Inv : S → Prop) (hstep : ∀ s e, Inv s → ∃ s' out, step s e = some (s', out) ∧ Inv s')
    {s : S} (hs : Inv s) (es : List E) : ∃ s' out, run step s es = some (s', out) := by
  induction es generalizing s with
  | nil => exact ⟨s, [], rfl⟩
  | cons e es ih =>
    obtain ⟨s₁, out, hone, hs₁⟩ := hstep s e hs
    obtain ⟨s', out', hrun⟩ := ih hs₁
    exact ⟨s', out ++ out', run_step hone hrun⟩

/-- A sum over the parts of a state when one part changes. -/
theorem sum_set {P G : Type*} [AddCommMonoid G] (f : P → G) {parts : List P} {i : Nat} {old : P}
    (h : parts[i]? = some old) (new : P) :
    ((parts.set i new).map f).sum + f old = (parts.map f).sum + f new := by
  induction parts generalizing i with
  | nil => cases h
  | cons first parts ih =>
    cases i with
    | zero =>
      cases h
      rw [List.set_cons_zero, List.map_cons, List.map_cons, List.sum_cons, List.sum_cons,
        add_right_comm, add_comm (f new), add_right_comm]
    | succ i =>
      rw [List.set_cons_succ, List.map_cons, List.map_cons, List.sum_cons, List.sum_cons, add_assoc,
        ih h, add_assoc]

/-- What every step balances, every run balances. The invariant may speak of the events to come. -/
theorem run_balance {G : Type*} [AddCommMonoid G] (Inv : S → List E → Prop) (left : S → G)
    (received : E → G) (sent : O → G)
    (hstep : ∀ {s e es s' out}, Inv s (e :: es) → step s e = some (s', out) →
      Inv s' es ∧ (out.map sent).sum + left s' = left s + received e)
    {s s' : S} {es : List E} {out : List O} (hs : Inv s es) (h : run step s es = some (s', out)) :
    Inv s' [] ∧ (out.map sent).sum + left s' = left s + (es.map received).sum := by
  induction es generalizing s out with
  | nil => cases h; exact ⟨hs, by simp⟩
  | cons e es ih =>
    obtain ⟨s₁, out₁, out₂, hone, hrun, rfl⟩ := run_cons h
    obtain ⟨hInv, hbal⟩ := hstep hs hone
    obtain ⟨hlast, hrest⟩ := ih hInv hrun
    refine ⟨hlast, ?_⟩
    calc ((out₁ ++ out₂).map sent).sum + left s'
        = (out₁.map sent).sum + ((out₂.map sent).sum + left s') := by
          rw [List.map_append, List.sum_append, add_assoc]
      _ = (out₁.map sent).sum + left s₁ + (es.map received).sum := by
          rw [hrest, add_assoc]
      _ = left s + ((e :: es).map received).sum := by
          rw [hbal, List.map_cons, List.sum_cons, add_assoc]

end Machine
end Lib
