import Mathlib.Logic.Basic

/-!
# Lib.Loop

Loops without a bound on their rounds. A state is reached at the end of a loop only if the loop ends,
so to have one is to terminate, and there is no other (`While.unique`).
-/

namespace Lib

variable {S : Type*} {cond : S → Prop} {body : S → S}

/-- `while (cond) body`, started in one state, ends in the other. -/
inductive While (cond : S → Prop) (body : S → S) : S → S → Prop
  | done {s : S} : ¬ cond s → While cond body s s
  | next {s s' : S} : cond s → While cond body (body s) s' → While cond body s s'

theorem While.unique {s s₁ s₂ : S} (h₁ : While cond body s s₁) (h₂ : While cond body s s₂) :
    s₁ = s₂ := by
  induction h₁ with
  | done hstop =>
    cases h₂ with
    | done _ => rfl
    | next hgo _ => exact absurd hgo hstop
  | next hgo _ ih =>
    cases h₂ with
    | done hstop => exact absurd hgo hstop
    | next _ h₂ => exact ih h₂

end Lib
