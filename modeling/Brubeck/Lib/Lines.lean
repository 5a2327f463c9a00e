import Mathlib.Data.List.Basic

/-!
# Lib.Lines

A list cut at a separator, the way a loop over `memchr` cuts it: every separator ends a piece, and
what stands after the last one is a piece only if there is anything.

* `pieces_append`, `pieces_single`: the first piece, and the last one.
* `pieces_induction`: from the last piece back to the first.
* `length_pieces`: how many there are.
-/

namespace Lib

variable {α : Type*} [DecidableEq α]

def pieces (sep : α) : List α → List (List α)
  | [] => []
  | a :: as =>
    if a = sep then [] :: pieces sep as
    else
      match pieces sep as with
      | [] => [[a]]
      | piece :: rest => (a :: piece) :: rest

theorem pieces_append {sep : α} {piece : List α} (h : sep ∉ piece) (rest : List α) :
    pieces sep (piece ++ sep :: rest) = piece :: pieces sep rest := by
  induction piece with
  | nil => simp [pieces]
  | cons a as ih =>
    obtain ⟨ha, has⟩ := not_or.mp (List.mem_cons.not.mp h)
    simp [pieces, Ne.symm ha, ih has]

theorem pieces_single {sep : α} {piece : List α} (h : sep ∉ piece) (hne : piece ≠ []) :
    pieces sep piece = [piece] := by
  induction piece with
  | nil => exact absurd rfl hne
  | cons a as ih =>
    obtain ⟨ha, has⟩ := not_or.mp (List.mem_cons.not.mp h)
    cases as with
    | nil => simp [pieces, Ne.symm ha]
    | cons b bs => rw [pieces, if_neg (Ne.symm ha), ih has (List.cons_ne_nil b bs)]

/-- What holds of nothing, of a last piece, and with a piece and its separator put in front, holds of
every list. -/
theorem pieces_induction (sep : α) {P : List α → Prop} (hnil : P [])
    (hlast : ∀ piece, sep ∉ piece → piece ≠ [] → P piece)
    (hcons : ∀ piece rest, sep ∉ piece → P rest → P (piece ++ sep :: rest)) (l : List α) : P l := by
  have hlen : ∀ n (l : List α), l.length ≤ n → P l := by
    intro n
    induction n with
    | zero =>
      intro l hl
      obtain rfl := List.eq_nil_of_length_eq_zero (Nat.le_zero.mp hl)
      exact hnil
    | succ n ih =>
      intro l hl
      by_cases hmem : sep ∈ l
      · obtain ⟨piece, rest, rfl, hpiece⟩ := List.eq_append_cons_of_mem hmem
        rw [List.length_append, List.length_cons] at hl
        exact hcons piece rest hpiece (ih rest (by omega))
      · by_cases hne : l = []
        · exact hne ▸ hnil
        · exact hlast l hmem hne
  exact hlen l.length l (Nat.le_refl _)

theorem mem_pieces {sep : α} {piece l : List α} (h : piece ∈ pieces sep l) :
    sep ∉ piece ∧ piece.length ≤ l.length := by
  induction l using pieces_induction sep with
  | hnil => cases h
  | hlast last hlast hne =>
    rw [pieces_single hlast hne, List.mem_singleton] at h
    subst h
    exact ⟨hlast, Nat.le_refl _⟩
  | hcons first rest hfirst ih =>
    rw [List.length_append, List.length_cons]
    rw [pieces_append hfirst] at h
    rcases List.mem_cons.mp h with rfl | h
    · exact ⟨hfirst, by omega⟩
    · exact ⟨(ih h).1, by have := (ih h).2; omega⟩

theorem length_pieces (sep : α) (l : List α) :
    (pieces sep l).length =
      l.count sep + if l = [] ∨ l.getLast? = some sep then 0 else 1 := by
  induction l using pieces_induction sep with
  | hnil => rfl
  | hlast piece hpiece hne =>
    have hlast : piece.getLast? ≠ some sep := fun h => hpiece (List.mem_of_getLast? h)
    rw [pieces_single hpiece hne, List.count_eq_zero_of_not_mem hpiece, if_neg (by simp [hne, hlast])]
    rfl
  | hcons piece rest hpiece ih =>
    rw [pieces_append hpiece, List.length_cons, ih, List.count_append, List.count_cons_self,
      List.count_eq_zero_of_not_mem hpiece]
    have hlast : (piece ++ sep :: rest) = [] ∨ (piece ++ sep :: rest).getLast? = some sep ↔
        rest = [] ∨ rest.getLast? = some sep := by
      cases rest with
      | nil => simp
      | cons a as => simp [List.getLast?_append, List.getLast?_cons_cons]
    simp only [hlast]
    omega

end Lib
