import Brubeck.Store
import Mathlib.Data.List.Perm.Basic

/-!
# Brubeck.Order

Meters, histograms and timers forget the order of what is recorded in them.

* `Histo.pushes_alike`: the same values in any order leave histograms that differ in the order of
  their values only. The count loses the fraction of each sample rate on its own, and no more.
* `Histo.sample_eq`: such histograms give the same statistics, since they are sorted first.
* `applies_alike`, `Metric.sample_alike`: the same for a metric of an `orderless` type.
-/

namespace Brubeck

open Lib

namespace Histo

/-! ## Pushing -/

theorem push_values {histo : Histo} (h : histo.values.length < USHRT_MAX) (value sample_freq : Value) :
    (histo.push value sample_freq).values = histo.values ++ [value] := by
  simp only [push]
  split
  · rw [if_neg (Nat.ne_of_lt h)]
  · rfl

theorem push_alloc {histo : Histo} (h : histo.values.length < USHRT_MAX) (value sample_freq : Value) :
    (histo.push value sample_freq).alloc =
      if histo.values.length = histo.alloc then grow histo.alloc else histo.alloc := by
  simp only [push]
  split
  · rw [if_neg (Nat.ne_of_lt h)]
  · rfl

/-- A whole count loses the fraction of what is added to it. -/
theorem push_count (histo : Histo) (value : Value) {sample_freq : Value} (h : 0 ≤ sample_freq) :
    (histo.push value sample_freq).count =
      (histo.count + (Rat.floor sample_freq).toNat) % 2 ^ 32 := by
  have hcount : (histo.push value sample_freq).count =
      (Rat.floor (histo.count + sample_freq)).toNat % 2 ^ 32 := by
    simp only [push]
    split
    · split <;> rfl
    · rfl
  have hfloor : Rat.floor (histo.count + sample_freq) = histo.count + Rat.floor sample_freq :=
    Int.floor_natCast_add histo.count sample_freq
  have hnonneg : 0 ≤ Rat.floor sample_freq := Int.floor_nonneg.mpr h
  rw [hcount, hfloor]
  congr 1
  omega

/-- Values with their sample rates, one after the other. -/
def pushes (histo : Histo) (entries : List (Value × Value)) : Histo :=
  entries.foldl (fun histo entry => histo.push entry.1 entry.2) histo

theorem pushes_values (entries : List (Value × Value)) :
    ∀ {histo : Histo}, histo.values.length + entries.length ≤ USHRT_MAX →
      (histo.pushes entries).values = histo.values ++ entries.map Prod.fst := by
  induction entries with
  | nil => intro histo _; simp [pushes]
  | cons entry entries ih =>
    intro histo h
    rw [List.length_cons] at h
    have hone := push_values (show histo.values.length < USHRT_MAX by omega) entry.1 entry.2
    have hrest : (histo.push entry.1 entry.2).values.length + entries.length ≤ USHRT_MAX := by
      rw [hone, List.length_append, List.length_singleton]
      omega
    refine (ih hrest).trans ?_
    rw [hone, List.append_assoc]
    rfl

theorem pushes_count {entries : List (Value × Value)} (h : ∀ entry ∈ entries, 0 ≤ entry.2) :
    ∀ histo : Histo, (histo.pushes entries).count =
      entries.foldl (fun count entry => (count + (Rat.floor entry.2).toNat) % 2 ^ 32) histo.count := by
  induction entries with
  | nil => intro histo; rfl
  | cons entry entries ih =>
    intro histo
    rw [List.foldl_cons, ← push_count histo entry.1 (h entry List.mem_cons_self)]
    exact ih (fun e he => h e (List.mem_cons_of_mem _ he)) _

/-- How much is allocated depends on the number of values only. -/
theorem pushes_alloc {entries entries' : List (Value × Value)}
    (hlen : entries.length = entries'.length) :
    ∀ {histo histo' : Histo}, histo.values.length = histo'.values.length → histo.alloc = histo'.alloc →
      histo.values.length + entries.length ≤ USHRT_MAX →
      (histo.pushes entries).alloc = (histo'.pushes entries').alloc := by
  induction entries generalizing entries' with
  | nil =>
    intro histo histo' _ halloc _
    obtain rfl := List.eq_nil_of_length_eq_zero hlen.symm
    exact halloc
  | cons entry entries ih =>
    intro histo histo' hsize halloc h
    cases entries' with
    | nil => cases hlen
    | cons entry' entries' =>
      rw [List.length_cons] at h
      have hroom : histo.values.length < USHRT_MAX := by omega
      have hroom' : histo'.values.length < USHRT_MAX := by omega
      show ((histo.push entry.1 entry.2).pushes entries).alloc =
        ((histo'.push entry'.1 entry'.2).pushes entries').alloc
      refine ih (Nat.succ.inj hlen) ?_ ?_ ?_
      · rw [push_values hroom, push_values hroom', List.length_append, List.length_append, hsize]
        rfl
      · rw [push_alloc hroom, push_alloc hroom', hsize, halloc]
      · rw [push_values hroom, List.length_append, List.length_singleton]
        omega

/-! ## The order of the values -/

/-- The same histogram up to the order of its values. -/
structure Alike (histo histo' : Histo) : Prop where
  values : histo.values.Perm histo'.values
  count : histo.count = histo'.count
  alloc : histo.alloc = histo'.alloc

theorem pushes_alike {entries entries' : List (Value × Value)} (h : entries.Perm entries')
    (hfreq : ∀ entry ∈ entries, 0 ≤ entry.2) {histo : Histo}
    (hroom : histo.values.length + entries.length ≤ USHRT_MAX) :
    Alike (histo.pushes entries) (histo.pushes entries') where
  values := by
    rw [pushes_values entries hroom, pushes_values entries' (h.length_eq ▸ hroom)]
    exact (h.map Prod.fst).append_left _
  count := by
    rw [pushes_count hfreq, pushes_count fun entry hentry => hfreq entry (h.mem_iff.mpr hentry)]
    refine h.foldl_eq' (fun x _ y _ count => ?_) _
    omega
  alloc := pushes_alloc h.length_eq rfl rfl hroom

theorem sort_perm (histo : Histo) : histo.sort.values.Perm histo.values :=
  List.mergeSort_perm histo.values fun a b => decide (a ≤ b)

theorem sort_sorted (histo : Histo) : histo.sort.values.Pairwise (· ≤ ·) := by
  have hsorted := @List.pairwise_mergeSort Value (fun a b => decide (a ≤ b))
    (by simpa using fun a b c => le_trans) (by simpa using le_total) histo.values
  simpa [sort] using hsorted

theorem sort_eq {histo histo' : Histo} (h : Alike histo histo') : histo.sort = histo'.sort := by
  have hperm : histo.sort.values.Perm histo'.sort.values :=
    (histo.sort_perm.trans h.values).trans histo'.sort_perm.symm
  have hvalues : histo.sort.values = histo'.sort.values :=
    hperm.eq_of_pairwise (fun a b _ _ => le_antisymm) histo.sort_sorted histo'.sort_sorted
  rw [Histo.mk.injEq]
  exact ⟨hvalues, h.count, h.alloc⟩

/-- Histograms that differ in the order of their values give the same statistics. -/
theorem sample_eq {histo histo' : Histo} (h : Alike histo histo') : histo.sample = histo'.sample := by
  have hnil : histo.values = [] ↔ histo'.values = [] := by
    rw [← List.length_eq_zero_iff, ← List.length_eq_zero_iff, h.values.length_eq]
  rw [sample, sample]
  by_cases hempty : histo.values = []
  · rw [if_pos hempty, if_pos (hnil.mp hempty)]
    have heq : histo = histo' := by
      rw [Histo.mk.injEq]
      exact ⟨hempty.trans (hnil.mp hempty).symm, h.count, h.alloc⟩
    rw [heq]
  · rw [if_neg hempty, if_neg fun h' => hempty (hnil.mpr h')]
    simp only [sort_eq h]

end Histo

/-! ## Metrics -/

/-- What recording a line does to the data of a metric of its type. -/
def Reading.apply (r : Reading) (as : As) : As :=
  match Metric.protoRecord r.type with
  | some record => record as r.value r.sample_freq r.modifiers
  | none => as

theorem record_apply {metric : Metric} {r : Reading} (h : metric.type = r.type)
    (hr : r.type ≠ .internalStats) :
    metric.record r.value r.sample_freq r.modifiers =
      some { metric with as := r.apply metric.as } := by
  rw [Metric.record, h, Reading.apply]
  cases hproto : Metric.protoRecord r.type with
  | none => exact absurd (Metric.protoRecord_eq_none.mp hproto) hr
  | some record => rfl

def applies (lines : List Reading) (as : As) : As := lines.foldl (fun as r => r.apply as) as

/-- The types whose metrics forget the order of their lines. -/
def orderless : List MetricType := [.meter, .histo, .timer]

theorem apply_meter {r : Reading} (h : r.type = .meter) (as : As) :
    r.apply as = { as with value := as.value + r.value * r.sample_freq } := by
  rw [Reading.apply, h]
  rfl

theorem apply_histo {r : Reading} (h : r.type = .histo ∨ r.type = .timer) (as : As) :
    r.apply as = { as with histogram := as.histogram.push r.value r.sample_freq } := by
  rcases h with h | h <;> rw [Reading.apply, h] <;> rfl

theorem applies_histo {lines : List Reading} (h : ∀ r ∈ lines, r.type = .histo ∨ r.type = .timer)
    (as : As) :
    applies lines as =
      { as with histogram := as.histogram.pushes (lines.map fun r => (r.value, r.sample_freq)) } := by
  induction lines generalizing as with
  | nil => rfl
  | cons r lines ih =>
    show applies lines (r.apply as) = _
    rw [ih fun r' hr' => h r' (List.mem_cons_of_mem _ hr'), apply_histo (h r List.mem_cons_self)]
    rfl

/-- The same data up to the order of the values. -/
structure As.Alike (as as' : As) : Prop where
  value : as.value = as'.value
  histogram : as.histogram.Alike as'.histogram

/-- The same lines in any order. -/
theorem applies_alike {lines lines' : List Reading} (h : lines.Perm lines') {type : MetricType}
    (horder : type ∈ orderless) (htype : ∀ r ∈ lines, r.type = type)
    (hfreq : ∀ r ∈ lines, 0 ≤ r.sample_freq) {as : As}
    (hroom : type ≠ .meter → as.histogram.values.length + lines.length ≤ USHRT_MAX) :
    As.Alike (applies lines as) (applies lines' as) := by
  have htype' : ∀ r ∈ lines', r.type = type := fun r hr => htype r (h.mem_iff.mpr hr)
  by_cases hmeter : type = .meter
  · have heq : applies lines as = applies lines' as := by
      refine h.foldl_eq' (fun x hx y hy as => ?_) as
      rw [apply_meter ((htype x hx).trans hmeter), apply_meter ((htype y hy).trans hmeter),
        apply_meter ((htype x hx).trans hmeter), apply_meter ((htype y hy).trans hmeter),
        As.mk.injEq]
      exact ⟨add_right_comm _ _ _, rfl, rfl, rfl⟩
    rw [heq]
    exact ⟨rfl, List.Perm.refl _, rfl, rfl⟩
  · have hhisto : type = .histo ∨ type = .timer := by
      simp only [orderless, List.mem_cons, List.not_mem_nil, or_false] at horder
      exact horder.resolve_left hmeter
    rw [applies_histo fun r hr => (htype r hr) ▸ hhisto, applies_histo fun r hr => (htype' r hr) ▸ hhisto]
    refine ⟨rfl, Histo.pushes_alike (h.map _) ?_ ?_⟩
    · intro entry hentry
      obtain ⟨r, hr, rfl⟩ := List.mem_map.mp hentry
      exact hfreq r hr
    · rw [List.length_map]
      exact hroom hmeter

/-- What is emitted for a metric does not depend on the order of its values. -/
theorem Metric.sample_alike {metric metric' : Metric} (hkey : metric.key = metric'.key)
    (htype : metric.type = metric'.type) (has : As.Alike metric.as metric'.as)
    (stats : InternalStats) (sample_freq : Int) :
    (metric.sample stats sample_freq).1 = (metric'.sample stats sample_freq).1 := by
  have hname : metric.name = metric'.name := Server.name_congr hkey
  have hhisto := Histo.sample_eq has.histogram
  cases ht : metric.type with
  | gauge | meter | counter =>
    rw [ht] at htype
    simp only [sample, ht, ← htype, gaugeSample, drainSample, hkey, has.value]
  | histo | timer =>
    rw [ht] at htype
    simp only [sample, ht, ← htype, histogramSample, withSuffix, hname, hhisto]
  | internalStats =>
    rw [ht] at htype
    simp only [sample, ht, ← htype, internalSample, withSuffix, hname]

end Brubeck
