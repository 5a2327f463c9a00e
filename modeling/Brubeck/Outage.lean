import Brubeck.Run

/-!
# Brubeck.Outage

What a tick does to its metrics when the connection drops in the middle of it. Nothing in the loop
over the queue looks at the connection, so the metrics that come after the failed write are sampled
and drained like the others, while `tick_refused` keeps all of them when `connect` fails.

* `visits_heap`: what a pass over a queue leaves of a metric in it.
* `outage_keeps_iff`: which of the metrics after the failed write keep their data.
-/

namespace Brubeck
namespace Server

open Lib Statsd

theorem tick_refused {patterns : Patterns} {server : Server} {t : Tick} {carbon : Carbon}
    (hc : server.backends[t.backend]? = some carbon) (hconn : (carbon.connect t.grant).1 ≠ 0) :
    server.tick patterns t = (server, []) := by
  simp only [tick, hc, ne_eq, hconn, not_false_eq_true, if_true]

theorem visit_other (patterns : Patterns) (env : Nat → Answer) (st : Visiting) {id j : Nat}
    (h : id ≠ j) : (visit patterns env st id).server.heap[j]? = st.server.heap[j]? := by
  cases hm : st.server.heap[id]? with
  | none =>
    have hv : visit patterns env st id = st := by simp only [visit, hm]
    rw [hv]
  | some metric =>
    rcases visit_cases patterns env hm with ⟨-, hv⟩ | ⟨-, out, metric', stats, -, hv⟩
    · rw [hv]
    · rw [hv]
      show (st.server.modifyMetric id fun _ => metric').heap[j]? = _
      rw [getElem?_modifyMetric, if_neg h]

theorem visits_other (patterns : Patterns) (env : Nat → Answer) {j : Nat} (queue : List Nat) :
    j ∉ queue → ∀ st : Visiting,
      (visits patterns env st queue).server.heap[j]? = st.server.heap[j]? := by
  induction queue with
  | nil => intro _ st; rfl
  | cons id queue ih =>
    intro hj st
    rw [List.mem_cons, not_or] at hj
    exact (ih hj.2 _).trans (visit_other patterns env st (Ne.symm hj.1))

/-- Its own turn leaves of a metric what sampling leaves, unless it is disabled. -/
theorem visit_self (patterns : Patterns) (env : Nat → Answer) {st : Visiting} {j : Nat}
    {metric : Metric} (hm : st.server.heap[j]? = some metric) :
    (visit patterns env st j).server.heap[j]? =
      some (if EXPIRE_DISABLED < metric.expire then
        (metric.sample st.server.internal_stats st.carbon.sample_freq).2.1 else metric) := by
  rcases visit_cases patterns env hm with ⟨hexp, hv⟩ | ⟨hexp, out, metric', stats, hsample, hv⟩
  · rw [hv, hexp, if_neg (lt_irrefl _), hm]
  · rw [hv, if_pos hexp, hsample]
    show (st.server.modifyMetric j fun _ => metric').heap[j]? = _
    rw [getElem?_modifyMetric, if_pos rfl, hm]
    rfl

/-- A pass over a queue visits each metric in it once. -/
theorem visits_heap (patterns : Patterns) (env : Nat → Answer) {j : Nat} {metric : Metric}
    (queue : List Nat) : queue.Nodup → j ∈ queue →
      ∀ {st : Visiting}, st.server.heap[j]? = some metric →
      ∃ stats sample_freq, (visits patterns env st queue).server.heap[j]? =
        some (if EXPIRE_DISABLED < metric.expire then (metric.sample stats sample_freq).2.1
          else metric) := by
  induction queue with
  | nil => intro _ hj; cases hj
  | cons id queue ih =>
    intro hnd hj st hm
    rw [List.nodup_cons] at hnd
    rcases List.mem_cons.mp hj with rfl | hj
    · exact ⟨_, _, (visits_other patterns env queue hnd.1 _).trans (visit_self patterns env hm)⟩
    · have hne : id ≠ j := by rintro rfl; exact hnd.1 hj
      exact ih hnd.2 hj ((visit_other patterns env st hne).trans hm)

/-- In the tick `t` of the backend `carbon` a write fails and drops the connection at the turn of
`i`, with the metrics `before` visited already and the metrics `after` still to come. -/
structure Outage (patterns : Patterns) (server : Server) (t : Tick) (carbon : Carbon)
    (before : List Nat) (i : Nat) (after : List Nat) : Prop where
  backend : server.backends[t.backend]? = some carbon
  granted : (carbon.connect t.grant).1 = 0
  queue : carbon.queue = before ++ i :: after
  up : (visits patterns t.env (t.start server carbon) before).carbon.connected = true
  down : (visits patterns t.env (t.start server carbon) (before ++ [i])).carbon.connected = false

/-- A metric whose turn comes after the failed write keeps its data exactly when it is disabled, so
that it is not sampled at all, or nothing had accumulated in it. -/
theorem outage_keeps_iff {patterns : Patterns} {server : Server} (h : server.Good) {t : Tick}
    {carbon : Carbon} {before after : List Nat} {i : Nat}
    (hout : Outage patterns server t carbon before i after) {j : Nat} (hj : j ∈ after)
    {metric : Metric} (hm : server.heap[j]? = some metric) :
    (server.tick patterns t).1.heap[j]?.map Metric.as = some metric.as ↔
      metric.expire = EXPIRE_DISABLED ∨ ¬ metric.Accumulated := by
  have hmem : j ∈ carbon.queue := by simp [hout.queue, hj]
  have hnd := h.once (List.mem_of_getElem? hout.backend)
  have hstart : (t.start server carbon).server.heap[j]? = some metric := hm
  obtain ⟨stats, sample_freq, hheap⟩ := visits_heap patterns t.env carbon.queue hnd hmem hstart
  have htick : (server.tick patterns t).1.heap[j]? =
      (visits patterns t.env (t.start server carbon) carbon.queue).server.heap[j]? := by
    simp only [tick, hout.backend, hout.granted, ne_eq, not_true, if_false]
    rfl
  rw [htick, hheap, Option.map_some, Option.some.injEq]
  by_cases hexp : EXPIRE_DISABLED < metric.expire
  · rw [if_pos hexp, Metric.sample_as_eq_iff]
    have hne : metric.expire ≠ EXPIRE_DISABLED := Nat.ne_of_gt hexp
    simp [hne]
  · rw [if_neg hexp]
    exact iff_of_true rfl (Or.inl (by simpa [EXPIRE_DISABLED] using hexp))

def twoMeters : Server :=
  ((packetParse started (str "a:5|c".toList ++ ch '\n' :: (str "b:7|c".toList ++ [0])) 0 11).map
    Prod.fst).getD started

theorem twoMeters_good : twoMeters.Good := by
  have hstarted := (internalInit_view (boot_good defaultConfig) id).1
  have hsome : (packetParse started
      (str "a:5|c".toList ++ ch '\n' :: (str "b:7|c".toList ++ [0])) 0 11).isSome = true := rfl
  obtain ⟨⟨server, mem⟩, hpacket⟩ := Option.isSome_iff_exists.mp hsome
  have heq : twoMeters = server := by rw [twoMeters, hpacket]; rfl
  rw [heq]
  exact ((packetParse_good hstarted _ _ _).2 hpacket).1

/-- A tick that gets its connection and whose first write fails. -/
def brokenTick : Tick := ⟨0, true, 7, fun _ => ⟨0, none⟩⟩

theorem twoMeters_outage :
    ∃ carbon, Outage ⟨fun _ => 0, fun _ => 0⟩ twoMeters brokenTick carbon [] 2 [1, 0] := by
  have hsome : twoMeters.backends[0]?.isSome = true := by decide
  obtain ⟨carbon, hc⟩ := Option.isSome_iff_exists.mp hsome
  have hgranted : (twoMeters.backends[0]?.map fun c => (c.connect true).1) = some 0 := by decide
  have hqueue : twoMeters.backends[0]?.map Carbon.queue = some [2, 1, 0] := by decide
  have hup : (twoMeters.backends[0]?.map fun c =>
      (brokenTick.start twoMeters c).carbon.connected) = some true := by decide
  have hdown : (twoMeters.backends[0]?.map fun c =>
      (visits ⟨fun _ => 0, fun _ => 0⟩ brokenTick.env (brokenTick.start twoMeters c) [2]).carbon.connected) =
        some false := by decide +kernel
  rw [hc, Option.map_some, Option.some.injEq] at hgranted hqueue hup hdown
  exact ⟨carbon, hc, hgranted, hqueue, hup, hdown⟩

theorem outage_keeps_iff_meter :
    ∃ metric, twoMeters.heap[1]? = some metric ∧
      ((twoMeters.tick ⟨fun _ => 0, fun _ => 0⟩ brokenTick).1.heap[1]?.map Metric.as =
          some metric.as ↔
        metric.expire = EXPIRE_DISABLED ∨ ¬ metric.Accumulated) := by
  obtain ⟨carbon, hout⟩ := twoMeters_outage
  have hsome : twoMeters.heap[1]?.isSome = true := by decide
  obtain ⟨metric, hm⟩ := Option.isSome_iff_exists.mp hsome
  exact ⟨metric, hm, outage_keeps_iff twoMeters_good hout (by decide) hm⟩

/-- It held 5, its turn came after the connection had dropped, and it is empty after the tick. -/
theorem outage_drains :
    (∃ carbon, Outage ⟨fun _ => 0, fun _ => 0⟩ twoMeters brokenTick carbon [] 2 [1, 0]) ∧
      (twoMeters.heap[1]?.map fun metric => (metric.type, metric.as.value)) = some (.meter, 5) ∧
      ((twoMeters.tick ⟨fun _ => 0, fun _ => 0⟩ brokenTick).1.heap[1]?.map fun metric =>
        (metric.type, metric.as.value)) = some (.meter, 0) :=
  ⟨twoMeters_outage, by decide +kernel, by decide +kernel⟩

end Server
end Brubeck
