import Mathlib.Data.List.Basic

/-!
# Lib.Assoc

Tables as lists of pairs, with the newest entry in front.
-/

namespace Lib
namespace Assoc

variable {α β : Type*} [BEq α] [LawfulBEq α] [DecidableEq α]

theorem lookup_cons (k : α) (v : β) (t : List (α × β)) (a : α) :
    ((k, v) :: t).lookup a = if a = k then some v else t.lookup a := by
  by_cases h : a = k
  · rw [if_pos h, h, List.lookup_cons_self]
  · rw [if_neg h, List.lookup_cons, beq_false_of_ne h]

omit [DecidableEq α] in
theorem notMem_of_lookup {t : List (α × β)} {a : α} (h : t.lookup a = none) :
    a ∉ t.map Prod.fst := by
  intro hmem
  obtain ⟨entry, hentry, heq⟩ := List.mem_map.mp hmem
  have := List.lookup_eq_none_iff.mp h entry hentry
  simp [heq] at this

/-- In a table without a repeated key, an entry is what its key is mapped to. -/
theorem lookup_of_mem {t : List (α × β)} (hnd : (t.map Prod.fst).Nodup) {entry : α × β}
    (h : entry ∈ t) : t.lookup entry.1 = some entry.2 := by
  induction t with
  | nil => cases h
  | cons e t ih =>
    rw [List.map_cons, List.nodup_cons] at hnd
    rw [lookup_cons]
    rcases List.mem_cons.mp h with rfl | hmem
    · rw [if_pos rfl]
    · have hne : entry.1 ≠ e.1 := by
        intro heq
        exact hnd.1 (heq ▸ List.mem_map_of_mem hmem)
      rw [if_neg hne]
      exact ih hnd.2 hmem

omit [DecidableEq α] in
theorem mem_of_lookup {t : List (α × β)} {a : α} {v : β} (h : t.lookup a = some v) : (a, v) ∈ t := by
  obtain ⟨l₁, l₂, rfl, -⟩ := List.lookup_eq_some_iff.mp h
  simp

end Assoc
end Lib
