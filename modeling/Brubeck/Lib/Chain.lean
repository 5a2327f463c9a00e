import Mathlib.Data.List.Perm.Basic

/-!
# Lib.Chain

Linked lists in memory: `next a` is the pointer stored in node `a`.

* `Chain`: following the pointers from a head visits these nodes and then ends.
* `Chain.congr`: a change to the pointers of other nodes is not seen.
* `Chain.unique`: the pointers determine the nodes.
* `flatten_set_cons_perm`: a node pushed on one of several lists is a node more in all of them
  together.
-/

namespace Lib

variable {α : Type*}

inductive Chain (next : α → Option α) : Option α → List α → Prop
  | nil : Chain next none []
  | cons {a : α} {l : List α} : Chain next (next a) l → Chain next (some a) (a :: l)

theorem Chain.congr {next next' : α → Option α} {head : Option α} {l : List α}
    (h : Chain next head l) (heq : ∀ a ∈ l, next' a = next a) : Chain next' head l := by
  induction h with
  | nil => exact .nil
  | cons _ ih =>
    rw [List.forall_mem_cons] at heq
    apply Chain.cons
    rw [heq.1]
    exact ih heq.2

/-- The pointers determine the nodes. -/
theorem Chain.unique {next : α → Option α} {head : Option α} {l l' : List α} (h : Chain next head l)
    (h' : Chain next head l') : l = l' := by
  induction h generalizing l' with
  | nil =>
    cases h'
    rfl
  | cons _ ih =>
    cases h' with
    | cons h' => rw [ih h']

theorem flatten_set_cons_perm {lists : List (List α)} {b : Nat} {l : List α} (a : α)
    (h : lists[b]? = some l) : (lists.set b (a :: l)).flatten.Perm (a :: lists.flatten) := by
  induction lists generalizing b with
  | nil => cases h
  | cons l' lists ih =>
    cases b with
    | zero =>
      obtain rfl : l' = l := by simpa using h
      exact .refl _
    | succ b =>
      rw [List.getElem?_cons_succ] at h
      rw [List.set_cons_succ, List.flatten_cons, List.flatten_cons]
      exact ((ih h).append_left l').trans List.perm_middle

end Lib
