import Brubeck.Run
import Mathlib.Algebra.Order.Field.Rat

/-!
# Brubeck.Meter

Meters conserve what they receive: over any run, what has been sampled from a meter and what is
left in it make up what the accepted lines for its key added.

* `handle_balance`, `visit_balance`: one line, and one turn of a tick.
* `step_balance`: one event. The invariant is that the key has a meter, or no metric yet and a first
  line that will make it one.
* `meter_conserved`: whole runs, with the start-up of the server in between.
-/

namespace Brubeck
namespace Server

open Lib Statsd

variable (key : Key)

/-- What is left in the metric of the key. -/
def left (server : Server) : Value := ((server.metricOf key).map fun metric => metric.as.value).getD 0

/-- The accepted lines for the key. -/
def linesOf : Event → List Reading
  | .packet mem buffer stop => (accepted mem buffer stop).filter fun r => r.key = key
  | .expire | .httpExpire _ | .tick _ => []

def amount (r : Reading) : Value := r.value * r.sample_freq

/-- What a call of the sample callback takes out of the metric of the key. -/
def taken (sampled : Sampled) : Value := if sampled.source = key then sampled.value else 0

/-- The key has a meter, or no metric yet and a first line that will make it one. -/
structure Metered (server : Server) (lines : List Reading) : Prop extends server.Good where
  old : ∀ {type}, server.typeOf key = some type → type = .meter
  new : server.typeOf key = none → ∀ {r}, lines.head? = some r → r.type = .meter

variable {key}

theorem Metered.of_view {server server' : Server} {lines : List Reading}
    (h : server.Metered key lines) (hgood : server'.Good)
    (htype : server'.typeOf key = server.typeOf key) : server'.Metered key lines :=
  ⟨hgood, fun ht => h.old (htype ▸ ht), fun ht => h.new (htype ▸ ht)⟩

theorem Metered.find {server : Server} {r : Reading} {lines : List Reading}
    (h : server.Metered key (r :: lines)) (hr : r.key = key) :
    (Store.find server.metricOf r).type = .meter ∧
      (Store.find server.metricOf r).as.value = server.left key := by
  refine ⟨?_, ?_⟩
  · rw [find_type, hr]
    cases ht : server.typeOf key with
    | none =>
      rw [show (server.metricOf key).map Metric.type = none from ht]
      exact h.new ht rfl
    | some type =>
      rw [show (server.metricOf key).map Metric.type = some type from ht]
      exact h.old ht
  · rw [Store.find, left, hr]
    cases server.metricOf key <;> rfl

theorem record_meter {metric : Metric} (h : metric.type = .meter) (value sample_freq : Value)
    (modifiers : UInt8) :
    metric.record value sample_freq modifiers =
      some { metric with as := Metric.meterRecord metric.as value sample_freq modifiers } := by
  rw [Metric.record, h]
  rfl

theorem handle_balance {server server' : Server} {o : Option Reading} {lines : List Reading}
    (h : server.Metered key ((o.toList.filter fun r => r.key = key) ++ lines))
    (ho : ∀ r, o = some r → Readable r) (hhandle : server.handle o = some server') :
    server'.Metered key lines ∧
      server'.left key =
        server.left key + ((o.toList.filter fun r => r.key = key).map amount).sum := by
  cases o with
  | none =>
    obtain ⟨server₁, heq, hgood, hview⟩ := h.toGood.handle_error
    rw [hhandle] at heq
    cases heq
    exact ⟨h.of_view hgood (by rw [typeOf, typeOf, hview]), by simp [left, hview]⟩
  | some r =>
    obtain ⟨hgood, hl⟩ := h.toGood.handle_line (ho r rfl).key hhandle
    by_cases hr : r.key = key
    · have hlines : (some r).toList.filter (fun r => r.key = key) = [r] := by simp [hr]
      rw [hlines] at h ⊢
      obtain ⟨htype, hvalue⟩ := h.find hr
      rw [Store.line, record_meter htype, Option.map_some] at hl
      have hmetric : server'.metricOf key = some { Store.find server.metricOf r with
          as := Metric.meterRecord (Store.find server.metricOf r).as r.value r.sample_freq
            r.modifiers } := by
        rw [← Option.some.inj hl, hr, Function.update_self]
      refine ⟨⟨hgood, ?_, ?_⟩, ?_⟩
      · intro type ht
        rw [typeOf, hmetric] at ht
        exact (Option.some.inj ht).symm.trans htype
      · intro ht
        rw [typeOf, hmetric] at ht
        cases ht
      · rw [List.map_singleton, List.sum_singleton, left, hmetric, ← hvalue]
        rfl
    · have hlines : (some r).toList.filter (fun r => r.key = key) = [] := by simp [hr]
      rw [hlines] at h ⊢
      have hmetric : server'.metricOf key = server.metricOf key := by
        obtain ⟨metric, -, hstore⟩ := Option.map_eq_some_iff.mp hl
        rw [← hstore, Function.update_of_ne fun heq => hr heq.symm]
      exact ⟨h.of_view hgood (by rw [typeOf, typeOf, hmetric]), by simp [left, hmetric]⟩

theorem handleAll_balance (segs : List (Option Reading)) (hsegs : ∀ r, some r ∈ segs → Readable r) :
    ∀ {server server' : Server} {lines : List Reading},
      server.Metered key (((segs.filterMap id).filter fun r => r.key = key) ++ lines) →
      segs.foldlM handle server = some server' →
      server'.Metered key lines ∧
        server'.left key =
          server.left key + (((segs.filterMap id).filter fun r => r.key = key).map amount).sum := by
  induction segs with
  | nil =>
    intro server server' lines h hfold
    cases hfold
    exact ⟨h, by simp⟩
  | cons o segs ih =>
    intro server server' lines h hfold
    have hsplit : ((o :: segs).filterMap id).filter (fun r => r.key = key) =
        (o.toList.filter fun r => r.key = key) ++
          ((segs.filterMap id).filter fun r => r.key = key) := by
      cases o with
      | none => rfl
      | some r => by_cases hr : r.key = key <;> simp [hr]
    rw [hsplit] at h ⊢
    rw [List.append_assoc] at h
    rw [List.foldlM_cons] at hfold
    obtain ⟨server₁, hhandle, hrest⟩ := Option.bind_eq_some_iff.mp hfold
    obtain ⟨h₁, hleft₁⟩ := handle_balance h (fun r hr => hsegs r (by simp [hr])) hhandle
    obtain ⟨h₂, hleft₂⟩ := ih (fun r hr => hsegs r (List.mem_cons_of_mem _ hr)) h₁ hrest
    refine ⟨h₂, ?_⟩
    rw [hleft₂, hleft₁, List.map_append, List.sum_append, add_assoc]

/-- The turn of one metric: what it takes out of the metric of the key is put out. -/
theorem visit_balance (patterns : Patterns) (env : Nat → Answer) {st : Visiting}
    {lines : List Reading} (h : st.server.Metered key lines) {k : Key} {id : Nat}
    (hid : st.server.table.lookup k = some id) :
    (visit patterns env st id).server.Metered key lines ∧
      ((visit patterns env st id).log.map (taken key)).sum +
          (visit patterns env st id).server.left key =
        (st.log.map (taken key)).sum + st.server.left key := by
  obtain ⟨metric, hm, hname⟩ := h.table hid
  have hmetric : st.server.metricOf k = some metric := by rw [metricOf_eq hid, hm]
  obtain ⟨hgood, -, hview⟩ := visit_view patterns env h.toGood hid hmetric
  rcases visit_cases patterns env hm with
    ⟨-, hvisit⟩ | ⟨hexp, out, metric', stats, hsample, hvisit⟩
  · rw [hvisit]
    exact ⟨h, rfl⟩
  · rw [if_pos hexp, hsample] at hview
    have htype : metric'.type = metric.type := by
      have := metric.sample_type st.server.internal_stats st.carbon.sample_freq
      rwa [hsample] at this
    have htypes : (visit patterns env st id).server.typeOf key = st.server.typeOf key := by
      rw [typeOf, typeOf, hview, Function.update_apply]
      by_cases hk : key = k
      · rw [if_pos hk, hk, hmetric, Option.map_some, Option.map_some, htype]
      · rw [if_neg hk]
    refine ⟨h.of_view hgood htypes, ?_⟩
    have hlog : (visit patterns env st id).log =
        st.log ++ out.map fun o => ⟨metric.name, o.1, o.2⟩ := by rw [hvisit]
    rw [hlog, List.map_append, List.sum_append, add_assoc]
    congr 1
    by_cases hk : key = k
    · -- the metric of the key: a meter, which is emptied into its one sample
      subst hk
      have hmeter : metric.type = .meter := h.old (by rw [typeOf, hmetric, Option.map_some])
      have hs := hsample
      simp only [Metric.sample, hmeter, Metric.drainSample, Prod.mk.injEq] at hs
      obtain ⟨rfl, rfl, -⟩ := hs
      rw [left, left, hview, Function.update_self, hmetric]
      simp [taken, hname]
    · have hzero : ((out.map fun o => (⟨metric.name, o.1, o.2⟩ : Sampled)).map (taken key)).sum = 0 := by
        apply List.sum_eq_zero
        intro x hx
        simp only [List.mem_map] at hx
        obtain ⟨s, ⟨o, -, rfl⟩, rfl⟩ := hx
        exact if_neg fun heq => hk (heq.symm.trans hname)
      rw [hzero, zero_add, left, left, hview, Function.update_of_ne hk]

theorem visits_balance (patterns : Patterns) (env : Nat → Answer) {lines : List Reading}
    (queue : List Nat) :
    ∀ st : Visiting, st.server.Metered key lines →
      (∀ id ∈ queue, ∃ k, st.server.table.lookup k = some id) →
      (visits patterns env st queue).server.Metered key lines ∧
        ((visits patterns env st queue).log.map (taken key)).sum +
            (visits patterns env st queue).server.left key =
          (st.log.map (taken key)).sum + st.server.left key := by
  induction queue with
  | nil => intro st h _; exact ⟨h, rfl⟩
  | cons id queue ih =>
    intro st h hqueue
    obtain ⟨k, hid⟩ := hqueue id (by simp)
    obtain ⟨metric, hm, -⟩ := h.table hid
    have htable := (visit_view patterns env h.toGood hid
      (by rw [metricOf_eq hid, hm])).2.1
    obtain ⟨h₁, hbal₁⟩ := visit_balance patterns env h hid
    obtain ⟨h₂, hbal₂⟩ := ih _ h₁ fun j hj => by
      rw [htable]; exact hqueue j (List.mem_cons_of_mem _ hj)
    exact ⟨h₂, hbal₂.trans hbal₁⟩

theorem step_balance {patterns : Patterns} {server server' : Server} {e : Event}
    {lines : List Reading} {out : List Sampled} (h : server.Metered key (linesOf key e ++ lines))
    (hstep : step patterns server e = some (server', out)) :
    server'.Metered key lines ∧
      (out.map (taken key)).sum + server'.left key =
        server.left key + ((linesOf key e).map amount).sum := by
  cases e with
  | packet mem buffer stop =>
    obtain ⟨hfold, rfl⟩ := step_packet hstep
    obtain ⟨h', hleft⟩ := handleAll_balance (segments mem buffer stop).1
      segments_readable h hfold
    exact ⟨h', by rw [hleft, List.map_nil, List.sum_nil, zero_add]; rfl⟩
  | expire =>
    cases hstep
    have hvalue := h.toGood.expireTick_map (f := fun metric => metric.as.value) (fun _ _ => rfl) key
    refine ⟨h.of_view h.toGood.expireTick.1 (h.toGood.expireTick_map (fun _ _ => rfl) key), ?_⟩
    simp only [left, hvalue, linesOf, List.map_nil, List.sum_nil, zero_add, add_zero]
  | httpExpire k =>
    cases hstep
    have hvalue := h.toGood.httpExpire_map (f := fun metric => metric.as.value) (fun _ _ => rfl) k key
    refine ⟨h.of_view (h.toGood.httpExpire k).1 (h.toGood.httpExpire_map (fun _ _ => rfl) k key), ?_⟩
    simp only [left, hvalue, linesOf, List.map_nil, List.sum_nil, zero_add, add_zero]
  | tick t =>
    rw [step, Option.some.injEq] at hstep
    have hgood := (tick_good h.toGood patterns t).1
    rw [hstep] at hgood
    rcases tick_cases patterns server t with heq | ⟨carbon, hc, heq⟩
    · rw [hstep] at heq
      cases heq
      exact ⟨h, by simp [linesOf]⟩
    · rw [hstep] at heq
      cases heq
      obtain ⟨h', hbal⟩ := visits_balance patterns t.env carbon.queue
        (t.start server carbon) h fun id hid => h.queued (List.mem_of_getElem? hc) hid
      refine ⟨h'.of_view hgood rfl, ?_⟩
      rw [show (t.start server carbon).log = [] from rfl, List.map_nil, List.sum_nil, zero_add] at hbal
      rw [linesOf, List.map_nil, List.sum_nil, add_zero]
      exact hbal

theorem run_meter {patterns : Patterns} {server server' : Server} {events : List Event}
    {out : List Sampled} {lines : List Reading}
    (h : server.Metered key (events.flatMap (linesOf key) ++ lines))
    (hrun : Machine.run (step patterns) server events = some (server', out)) :
    server'.Metered key lines ∧
      (out.map (taken key)).sum + server'.left key =
        server.left key + ((events.flatMap (linesOf key)).map amount).sum := by
  obtain ⟨hlast, hbal⟩ := Machine.run_balance
    (fun s es => s.Metered key (es.flatMap (linesOf key) ++ lines)) (fun s => s.left key)
    (fun e => ((linesOf key e).map amount).sum) (taken key)
    (fun hs hstep => step_balance (by simpa using hs) hstep) h hrun
  refine ⟨hlast, ?_⟩
  rw [hbal, List.map_flatMap, List.flatMap_def, List.sum_flatten, List.map_map]
  rfl

/-- **Meters conserve what they receive.** In any run of the server, for any key but its own whose
first accepted line has the type of a meter, what was passed to the sample callback for the key and
what is left in its metric make up what the accepted lines for the key added. -/
theorem meter_conserved {patterns : Patterns} {config : Config} {early late : List Event}
    {before server : Server} {overlay : As → As} {out out' : List Sampled}
    (hearly : Machine.run (step patterns) (boot config) early = some (before, out))
    (hlate : Machine.run (step patterns) (before.internalInit overlay) late = some (server, out'))
    {key : Key} (hkey : key ≠ hashKey config.name)
    (hfirst : ∀ r, ((early ++ late).flatMap (linesOf key)).head? = some r → r.type = .meter) :
    (((out ++ out').filter fun sampled => sampled.source = key).map Sampled.value).sum +
        server.left key =
      (((early ++ late).flatMap (linesOf key)).map fun r => r.value * r.sample_freq).sum := by
  have htaken : ∀ log : List Sampled,
      ((log.filter fun sampled => sampled.source = key).map Sampled.value).sum =
        (log.map (taken key)).sum := by
    intro log
    induction log with
    | nil => rfl
    | cons sampled log ih =>
      rw [List.map_cons, List.sum_cons, ← ih, taken]
      by_cases h : sampled.source = key <;> simp [h]
  rw [List.flatMap_append] at hfirst ⊢
  have hstart : (boot config).Metered key
      (early.flatMap (linesOf key) ++ late.flatMap (linesOf key)) :=
    ⟨boot_good config, (fun h => by cases h), fun _ {r} hr => hfirst r hr⟩
  obtain ⟨hbefore, hbal⟩ := run_meter hstart hearly
  -- start-up touches the metric of the server's name only
  obtain ⟨hgood, hview⟩ := internalInit_view hbefore.toGood overlay
  have hname : before.name = config.name := (run_good (boot_good config) hearly).2.name
  have hsame : (before.internalInit overlay).metricOf key = before.metricOf key := by
    rw [hview, hname, Function.update_of_ne hkey]
  have hinit : (before.internalInit overlay).Metered key (late.flatMap (linesOf key) ++ []) := by
    rw [List.append_nil]
    exact hbefore.of_view hgood (by rw [typeOf, typeOf, hsame])
  obtain ⟨-, hbal'⟩ := run_meter hinit hlate
  have hleft : (before.internalInit overlay).left key = before.left key := by
    rw [left, left, hsame]
  have hzero : (boot config).left key = 0 := rfl
  rw [htaken, List.map_append, List.sum_append, add_assoc, hbal', hleft, ← add_assoc, hbal, hzero,
    zero_add, List.map_append, List.sum_append]
  rfl

/-- A line, a tick that samples it, and another line with another type letter. -/
def threeEvents : List Event :=
  [.packet (str "a:2|c".toList ++ [0]) 0 5, .tick ⟨0, true, 7, fun _ => ⟨0, some 100⟩⟩,
    .packet (str "a:3|g".toList ++ [0]) 0 5]

theorem meter_conserved_three :
    ∃ server out,
      Machine.run (step ⟨fun _ => 0, fun _ => 0⟩) started threeEvents = some (server, out) ∧
      ((out.filter fun sampled => sampled.source = str "a".toList).map Sampled.value).sum +
          server.left (str "a".toList) =
        ((threeEvents.flatMap (linesOf (str "a".toList))).map fun r => r.value * r.sample_freq).sum := by
  have hfirst : ((threeEvents.flatMap (linesOf (str "a".toList))).head?).map Reading.type =
      some .meter := by decide
  have hsome : (Machine.run (step ⟨fun _ => 0, fun _ => 0⟩) started threeEvents).isSome = true := rfl
  obtain ⟨⟨server, out⟩, hlate⟩ := Option.isSome_iff_exists.mp hsome
  have hearly : Machine.run (step ⟨fun _ => 0, fun _ => 0⟩) (boot defaultConfig) [] =
      some (boot defaultConfig, []) := rfl
  refine ⟨server, out, hlate, meter_conserved hearly hlate (by decide) fun r hr => ?_⟩
  rw [List.nil_append] at hr
  rw [hr] at hfirst
  exact Option.some.inj hfirst

end Server
end Brubeck
