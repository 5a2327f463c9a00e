import Brubeck.Bloom
import Brubeck.Lib.Machine

/-!
# Brubeck.Bloom.Runs

Sequences of checks and resets on a multibloom.

* `step_spec`: the bits after a call.
* `after_holds`, `after_empty`: a pair once checked stays until its filter is reset, and a filter once
  reset stays empty until it is checked.
* `multibloom_spec`: one call of `multibloom_check`, and what follows for any sequence of calls: no
  false negatives until a reset, and no presence in the first check after it.
-/

namespace Brubeck
namespace Multibloom

open Lib

/-- One call. -/
inductive Op where
  | check (f : Nat) (a b : UInt32)
  | reset (f : Nat)
  deriving DecidableEq

namespace Op

def filter : Op → Nat
  | .check f _ _ => f
  | .reset f => f

end Op

/-- A call, with what `multibloom_check` returns. -/
def step (bloom : Multibloom) : Op → Option (Multibloom × List Bool)
  | .check f a b => (bloom.check f a.toNat b.toNat).map fun (r, bloom) => (bloom, [r])
  | .reset f => (bloom.reset f).map (·, [])

/-! ## What a call does -/

/-- The bits after a call. -/
def After (bloom : Multibloom) (g y : Nat) : Op → Prop
  | .check f a b => bloom.bitAt g y ∨
      (g = f ∧ ∃ k, k < bloom.hashes.toNat ∧ y = position bloom.bits.toNat a.toNat b.toNat k)
  | .reset f => g ≠ f ∧ bloom.bitAt g y

theorem step_spec {bloom : Multibloom} (h : bloom.Valid) (op : Op)
    (hop : op.filter < bloom.filters.length) :
    ∃ bloom' out, bloom.step op = some (bloom', out) ∧ bloom'.Valid ∧ bloom.SameShape bloom' ∧
      ∀ g y, bloom'.bitAt g y ↔ bloom.After g y op := by
  cases op with
  | check f a b =>
    obtain ⟨r, bloom', hcheck, hvalid, hshape, -, hbits⟩ := check_spec h hop a.toNat b.toNat
    exact ⟨bloom', [r], by rw [step]; simp [← hcheck, Op.filter], hvalid, hshape, hbits⟩
  | reset f =>
    obtain ⟨bloom', hreset, hvalid, hshape, hbits⟩ := reset_spec h hop
    exact ⟨bloom', [], by rw [step]; simp [← hreset, Op.filter], hvalid, hshape, hbits⟩

/-- A sequence of calls inside the array completes, and keeps what each of its calls keeps of the
bits. -/
theorem run_keeps (P : Multibloom → Prop) {ops : List Op}
    (hP : ∀ op ∈ ops, ∀ {bloom bloom' : Multibloom}, bloom.SameShape bloom' →
      (∀ g y, bloom'.bitAt g y ↔ bloom.After g y op) → P bloom → P bloom') :
    ∀ {bloom : Multibloom}, bloom.Valid → (∀ op ∈ ops, op.filter < bloom.filters.length) → P bloom →
      ∃ bloom' out, Machine.run step bloom ops = some (bloom', out) ∧ bloom'.Valid ∧
        bloom.SameShape bloom' ∧ P bloom' := by
  induction ops with
  | nil =>
    intro bloom hvalid _ hbloom
    exact ⟨bloom, [], rfl, hvalid, .refl bloom, hbloom⟩
  | cons op ops ih =>
    intro bloom hvalid hops hbloom
    obtain ⟨bloom₁, out₁, hone, hvalid₁, hshape₁, hbits⟩ :=
      step_spec hvalid op (hops op List.mem_cons_self)
    have hops₁ : ∀ op ∈ ops, op.filter < bloom₁.filters.length := by
      intro op hop
      rw [hshape₁.count]
      exact hops op (List.mem_cons_of_mem _ hop)
    obtain ⟨bloom₂, out₂, hrun, hvalid₂, hshape₂, hP₂⟩ :=
      ih (fun op hop => hP op (List.mem_cons_of_mem _ hop)) hvalid₁ hops₁
        (hP op List.mem_cons_self hshape₁ hbits hbloom)
    exact ⟨bloom₂, out₁ ++ out₂, Machine.run_step hone hrun, hvalid₂, hshape₁.trans hshape₂, hP₂⟩

/-- Only a reset of the filter takes a pair out. -/
theorem after_holds {f a b : Nat} {op : Op} (hop : op ≠ .reset f) {bloom bloom' : Multibloom}
    (hshape : bloom.SameShape bloom') (hbits : ∀ g y, bloom'.bitAt g y ↔ bloom.After g y op)
    (h : bloom.Holds f a b) : bloom'.Holds f a b := by
  refine h.mono hshape fun y hy => (hbits f y).mpr ?_
  cases op with
  | check g a' b' => exact .inl hy
  | reset g =>
    refine ⟨?_, hy⟩
    rintro rfl
    exact hop rfl

/-- Only a check of the filter puts a bit in. -/
theorem after_empty {f : Nat} {op : Op} (hop : ∀ a b, op ≠ .check f a b) {bloom bloom' : Multibloom}
    (hbits : ∀ g y, bloom'.bitAt g y ↔ bloom.After g y op) (h : ∀ y, ¬ bloom.bitAt f y) :
    ∀ y, ¬ bloom'.bitAt f y := by
  intro y hy
  rw [hbits] at hy
  cases op with
  | check g a b =>
    rcases hy with hold | ⟨rfl, -⟩
    · exact h y hold
    · exact hop a b rfl
  | reset g => exact h y hy.2

/-- What one call brings about and the calls after it keep, is so after them. -/
theorem run_since (P : Multibloom → Prop) (first : Op) {before between : List Op}
    (hfirst : ∀ {bloom bloom' : Multibloom}, bloom.SameShape bloom' →
      (∀ g y, bloom'.bitAt g y ↔ bloom.After g y first) → P bloom')
    (hkeep : ∀ op ∈ between, ∀ {bloom bloom' : Multibloom}, bloom.SameShape bloom' →
      (∀ g y, bloom'.bitAt g y ↔ bloom.After g y op) → P bloom → P bloom')
    {bloom : Multibloom} (h : bloom.Valid) (hone : first.filter < bloom.filters.length)
    (hops : ∀ op ∈ before ++ between, op.filter < bloom.filters.length) :
    ∃ bloom' out, Machine.run step bloom (before ++ first :: between) = some (bloom', out) ∧
      bloom'.Valid ∧ bloom.SameShape bloom' ∧ P bloom' := by
  obtain ⟨bloom₁, out₁, hrun₁, hvalid₁, hshape₁, -⟩ :=
    run_keeps (fun _ => True) (fun _ _ => by simp) h
      (fun op hop => hops op (List.mem_append_left _ hop)) trivial
  rw [← hshape₁.count] at hone
  obtain ⟨bloom₂, out₂, hstep, hvalid₂, hshape₂, hbits₂⟩ := step_spec hvalid₁ first hone
  have hops₂ : ∀ op ∈ between, op.filter < bloom₂.filters.length := by
    intro op hop
    rw [hshape₂.count, hshape₁.count]
    exact hops op (List.mem_append_right _ hop)
  obtain ⟨bloom₃, out₃, hrun₃, hvalid₃, hshape₃, hP⟩ :=
    run_keeps P hkeep hvalid₂ hops₂ (hfirst hshape₂ hbits₂)
  exact ⟨bloom₃, out₁ ++ (out₂ ++ out₃), Machine.run_append hrun₁ (Machine.run_step hstep hrun₃), hvalid₃,
    (hshape₁.trans hshape₂).trans hshape₃, hP⟩

/-- A run with one check more: the last result. -/
theorem run_check {bloom bloom' : Multibloom} {ops : List Op} {out : List Bool}
    (hrun : Machine.run step bloom ops = some (bloom', out)) (h : bloom'.Valid) {f : Nat}
    (hf : f < bloom'.filters.length) (a b : UInt32) :
    ∃ bloom'' r, Machine.run step bloom (ops ++ [.check f a b]) = some (bloom'', out ++ [r]) ∧
      (r = true ↔ bloom'.Holds f a.toNat b.toNat) := by
  obtain ⟨r, bloom'', hcheck, -, -, hr, -⟩ := check_spec h hf a.toNat b.toNat
  have hlast : Machine.run step bloom' [.check f a b] = some (bloom'', [r]) := by
    simp [Machine.run, step, hcheck]
  exact ⟨bloom'', r, Machine.run_append hrun hlast, hr⟩

/-! ## Any sequence of calls -/

/-- A call of `multibloom_check`, and what follows from it for runs. With the positions of a pair in
filter `f`: it reports presence exactly when all of them were set before the call, although it sets them
one by one; afterwards the bits of the filter are the old ones and these, every byte it touches is in
the filter, and nothing else has changed. So a pair that was checked is present until its filter is
reset, and nothing is present in the first check after a reset. -/
theorem multibloom_spec {bloom : Multibloom} (h : bloom.Sized) {f : Nat}
    (hf : f < bloom.filters.length) (a b : UInt32) :
    (∃ r filter filter', bloom.filters[f]? = some filter ∧
      bloom.check f a.toNat b.toNat =
        some (r, { bloom with filters := bloom.filters.set f filter' }) ∧
      (r = true ↔ ∀ i, i < bloom.hashes.toNat →
        getBit filter (position bloom.bits.toNat a.toNat b.toNat i) = true) ∧
      (∀ y, getBit filter' y = true ↔ getBit filter y = true ∨
        ∃ i, i < bloom.hashes.toNat ∧ y = position bloom.bits.toNat a.toNat b.toNat i) ∧
      filter'.length = filter.length ∧
      ∀ i, ((position bloom.bits.toNat a.toNat b.toNat i >>> 3 : Nat) : Int) < bloom.bytes) ∧
    ∀ before between : List Op, (∀ op ∈ before ++ between, op.filter < bloom.filters.length) →
      ((∀ op ∈ between, op ≠ .reset f) → ∃ bloom' out,
        Machine.run step bloom (before ++ .check f a b :: (between ++ [.check f a b])) =
          some (bloom', out ++ [true])) ∧
      ((∀ op ∈ between, ∀ a b, op ≠ .check f a b) → ∃ bloom' out,
        Machine.run step bloom (before ++ .reset f :: (between ++ [.check f a b])) =
          some (bloom', out ++ [false])) := by
  have hvalid := h.valid
  constructor
  · obtain ⟨filter, -, hget, -⟩ := filterAt_of_lt hf
    obtain ⟨r, filter', hcheck, hlen, hall, hbits⟩ := check_filter hvalid hget a.toNat b.toNat
    refine ⟨r, filter, filter', hget, hcheck, hall, hbits, hlen, fun i => ?_⟩
    have hpos := hvalid.bits_pos
    have hlt := position_lt (by omega : 0 < bloom.bits.toNat) a.toNat b.toNat i
    have hle := hvalid.bits_le
    rw [Nat.shiftRight_eq_div_pow]
    omega
  · intro before between hops
    constructor
    · intro hkeep
      obtain ⟨bloom₁, out, hrun, hvalid₁, hshape, hholds⟩ :=
        run_since (fun bloom => bloom.Holds f a.toNat b.toNat) (.check f a b)
          (fun hshape hbits => holds_of_bits hshape fun y hy => (hbits f y).mpr (.inr ⟨rfl, hy⟩))
          (fun op hop _ _ hshape hbits => after_holds (hkeep op hop) hshape hbits) hvalid
          hf hops
      obtain ⟨bloom₂, r, hlast, hr⟩ := run_check hrun hvalid₁ (by rw [hshape.count]; exact hf) a b
      rw [hr.mpr hholds, List.append_assoc] at hlast
      exact ⟨bloom₂, out, hlast⟩
    · intro hkeep
      obtain ⟨bloom₁, out, hrun, hvalid₁, hshape, hempty⟩ :=
        run_since (fun bloom => ∀ y, ¬ bloom.bitAt f y) (.reset f)
          (fun _ hbits y hy => ((hbits f y).mp hy).1 rfl)
          (fun op hop _ _ _ hbits => after_empty (hkeep op hop) hbits) hvalid
          hf hops
      obtain ⟨bloom₂, r, hlast, hr⟩ := run_check hrun hvalid₁ (by rw [hshape.count]; exact hf) a b
      have hfalse : r = false := by
        rw [← Bool.not_eq_true, hr]
        intro hholds
        have := hvalid₁.hashes_pos
        exact hempty _ (hholds 0 (by omega))
      rw [hfalse, List.append_assoc] at hlast
      exact ⟨bloom₂, out, hlast⟩

/-- The pair `(7, 8)` in a multibloom of eight bits: all of its positions are the same one. -/
theorem multibloom_spec_eight :
    ∃ bloom' out, Machine.run step ⟨8, 1, 3, [[0]]⟩ [.check 0 7 8, .check 0 1 2, .check 0 7 8] =
      some (bloom', out ++ [true]) := by
  have hsized : Sized ⟨8, 1, 3, [[0]]⟩ := ⟨by decide, by decide, by decide, by simp⟩
  obtain ⟨-, hruns⟩ := multibloom_spec hsized (show 0 < _ by decide) 7 8
  exact (hruns [] [.check 0 1 2] (by simp [Op.filter])).1 (by simp)

end Multibloom
end Brubeck
