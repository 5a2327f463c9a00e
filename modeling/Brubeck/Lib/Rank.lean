import Mathlib.Data.List.Perm.Basic
import Mathlib.Order.Lattice

/-!
# Lib.Rank

Order statistics of a list, without sorting it: the entry of rank `k` is one that at least `k`
entries do not exceed, and fewer than `k` stay below.

* `isRank_of_sorted`: in a sorted list it stands at index `k - 1`.
* `IsRank.le`: a higher rank is not a smaller entry.
* `IsRank.first`, `IsRank.last`: the smallest and the largest entry.
-/

namespace Lib

variable {α : Type*} [LinearOrder α]

structure IsRank (l : List α) (k : Nat) (x : α) : Prop where
  mem : x ∈ l
  upto : k ≤ l.countP (· ≤ x)
  below : l.countP (· < x) < k

theorem IsRank.perm {l l' : List α} (h : l.Perm l') {k : Nat} {x : α} (hx : IsRank l k x) :
    IsRank l' k x where
  mem := h.mem_iff.mp hx.mem
  upto := by rw [← h.countP_eq]; exact hx.upto
  below := by rw [← h.countP_eq]; exact hx.below

theorem isRank_of_sorted {l : List α} (h : l.Pairwise (· ≤ ·)) {k : Nat} (hk : k < l.length) :
    IsRank l (k + 1) (l.get ⟨k, hk⟩) where
  mem := l.get_mem ⟨k, hk⟩
  upto := by
    -- the entries up to index `k` are not larger
    have htake : (l.take (k + 1)).countP (· ≤ l.get ⟨k, hk⟩) = (l.take (k + 1)).length := by
      rw [List.countP_eq_length]
      intro y hy
      obtain ⟨i, hi, rfl⟩ := List.mem_take_iff_getElem.mp hy
      have hle := List.pairwise_iff_getElem.mp h
      rcases Nat.lt_or_ge i k with hlt | hge
      · simpa using hle i k (by omega) hk hlt
      · have : i = k := by omega
        simp [this]
    calc k + 1 = (l.take (k + 1)).length := by rw [List.length_take]; omega
      _ = (l.take (k + 1)).countP (· ≤ l.get ⟨k, hk⟩) := htake.symm
      _ ≤ l.countP (· ≤ l.get ⟨k, hk⟩) := (List.take_sublist _ _).countP_le
  below := by
    -- the entries from index `k` on are not smaller
    have hdrop : (l.drop k).countP (· < l.get ⟨k, hk⟩) = 0 := by
      rw [List.countP_eq_zero]
      intro y hy
      obtain ⟨i, hi, rfl⟩ := List.mem_drop_iff_getElem.mp hy
      have hle := List.pairwise_iff_getElem.mp h
      rcases Nat.eq_zero_or_pos i with rfl | hpos
      · simp
      · simpa using hle k (k + i) hk (by omega) (by omega)
    have hsplit : l.countP (· < l.get ⟨k, hk⟩) =
        (l.take k).countP (· < l.get ⟨k, hk⟩) + (l.drop k).countP (· < l.get ⟨k, hk⟩) := by
      rw [← List.countP_append, List.take_append_drop]
    have hle : (l.take k).countP (· < l.get ⟨k, hk⟩) ≤ k :=
      Nat.le_trans List.countP_le_length (List.length_take_le k l)
    omega

theorem IsRank.le {l : List α} {k k' : Nat} {x y : α} (hx : IsRank l k x) (hy : IsRank l k' y)
    (hk : k ≤ k') : x ≤ y := by
  by_contra hlt
  rw [not_le] at hlt
  have hcount : l.countP (· ≤ y) ≤ l.countP (· < x) := by
    apply List.countP_mono_left
    intro z _ hz
    simp only [decide_eq_true_eq] at hz ⊢
    exact lt_of_le_of_lt hz hlt
  have := hx.below
  have := hy.upto
  omega

theorem IsRank.first {l : List α} {x : α} (h : IsRank l 1 x) {y : α} (hy : y ∈ l) : x ≤ y := by
  have hnone := List.countP_eq_zero.mp (Nat.lt_one_iff.mp h.below) y hy
  simpa using hnone

theorem IsRank.last {l : List α} {x : α} (h : IsRank l l.length x) {y : α} (hy : y ∈ l) : y ≤ x := by
  have hall := List.countP_eq_length.mp (Nat.le_antisymm List.countP_le_length h.upto) y hy
  simpa using hall

end Lib
