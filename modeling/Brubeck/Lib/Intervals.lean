import Mathlib.Data.List.Nodup
import Mathlib.Data.List.Perm.Subperm
import Mathlib.Algebra.BigOperators.Group.List.Basic

/-!
# Lib.Intervals

Half-open intervals of natural numbers.

`length_mul_le`: how many intervals of one length there can be below a bound, if no two of them meet.
-/

namespace Lib

/-- `[a, a + m)` and `[b, b + n)` do not meet. -/
def Apart (a m b n : Nat) : Prop := a + m ≤ b ∨ b + n ≤ a

theorem Apart.symm {a m b n : Nat} (h : Apart a m b n) : Apart b n a m := Or.symm h

/-- Parts of intervals that do not meet. -/
theorem Apart.mono {a m b n a' m' b' n' : Nat} (h : Apart a m b n) (ha : a ≤ a')
    (ha' : a' + m' ≤ a + m) (hb : b ≤ b') (hb' : b' + n' ≤ b + n) : Apart a' m' b' n' := by
  unfold Apart at h ⊢
  omega

theorem length_mul_le {n bound : Nat} {starts : List Nat}
    (happart : starts.Pairwise fun a b => Apart a n b n) (hle : ∀ a ∈ starts, a + n ≤ bound) :
    starts.length * n ≤ bound := by
  have hnodup : (starts.flatMap fun a => List.range' a n).Nodup := by
    refine List.nodup_flatMap.mpr ⟨fun a _ => List.nodup_range', happart.imp ?_⟩
    intro a b h x hxa hxb
    rw [List.mem_range'_1] at hxa hxb
    unfold Apart at h
    omega
  have hsubset : (starts.flatMap fun a => List.range' a n) ⊆ List.range bound := by
    intro x hx
    obtain ⟨a, ha, hxa⟩ := List.mem_flatMap.mp hx
    rw [List.mem_range'_1] at hxa
    have := hle a ha
    exact List.mem_range.mpr (by omega)
  have hlength := (hnodup.subperm hsubset).length_le
  simpa [List.length_flatMap] using hlength

end Lib
