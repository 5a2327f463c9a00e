import Brubeck.Store

/-!
# Brubeck.Backend

One round of `backend__thread`: connect, sample every metric of the queue that is not disabled, and
flush. Metrics are drained in `brubeck_metric_sample`; whether anything can be sent is only decided
afterwards, in the callback.

* `visit_view`: what the turn of one metric does to the store.
* `visits_frame`: what the turns of a whole queue leave as it was.
* `Server.tick_cases`: the ways a round can go.
-/

namespace Brubeck

open Lib

/-- How values are handed to the encoders: the patterns of the `float` and of the `double` that a
value is converted to. -/
structure Patterns where
  float : Value → UInt32
  double : Value → UInt64

structure Sampled where
  source : Key
  name : Key
  value : Value
  deriving DecidableEq

namespace Carbon

/-- The callback `self->sample`. -/
def sampleCallback (patterns : Patterns) (env : Nat → Answer) (carbon : Carbon)
    (out : Key × Value) : Carbon :=
  if carbon.pickle then carbon.pickle1Each env out.1 (patterns.double out.2)
  else carbon.plaintextEach env out.1 (patterns.float out.2)

/-- `if (self->flush) self->flush(self)`: only the pickle encoder has one. -/
def flush (env : Nat → Answer) (carbon : Carbon) : Carbon :=
  if carbon.pickle then carbon.pickle1Flush env else carbon

end Carbon

structure Visiting where
  server : Server
  carbon : Carbon
  log : List Sampled

def visit (patterns : Patterns) (env : Nat → Answer) (st : Visiting) (id : Nat) : Visiting :=
  match st.server.heap[id]? with
  | none => st
  | some metric =>
    if EXPIRE_DISABLED < metric.expire then
      let (out, metric', stats) := metric.sample st.server.internal_stats st.carbon.sample_freq
      { server := { st.server.modifyMetric id fun _ => metric' with internal_stats := stats }
        carbon := out.foldl (Carbon.sampleCallback patterns env) st.carbon
        log := st.log ++ out.map fun o => ⟨metric.name, o.1, o.2⟩ }
    else st

def visits (patterns : Patterns) (env : Nat → Answer) (st : Visiting) (queue : List Nat) : Visiting :=
  queue.foldl (visit patterns env) st

/-- What the world decides about a tick: the backend whose thread wakes up, whether a connection is
granted, the time, and the outcome of every write. -/
structure Tick where
  backend : Nat
  grant : Bool
  now : UInt32
  env : Nat → Answer

def Tick.start (t : Tick) (server : Server) (carbon : Carbon) : Visiting where
  server := server
  carbon := { (carbon.connect t.grant).2 with tick_time := t.now }
  log := []

/-- One round of `backend__thread`. -/
def Server.tick (patterns : Patterns) (server : Server) (t : Tick) : Server × List Sampled :=
  match server.backends[t.backend]? with
  | none => (server, [])
  | some carbon =>
    if (carbon.connect t.grant).1 ≠ 0 then (server, [])
    else
      let st := visits patterns t.env (t.start server carbon) carbon.queue
      (st.server.modifyBackend t.backend fun _ => st.carbon.flush t.env, st.log)

namespace Carbon

theorem sampleCallback_frame (patterns : Patterns) (env : Nat → Answer) (carbon : Carbon)
    (out : Key × Value) : Frame carbon (carbon.sampleCallback patterns env out) := by
  rw [sampleCallback]
  split
  · exact pickle1Each_frame ..
  · exact plaintextEach_frame ..

theorem callbacks_frame (patterns : Patterns) (env : Nat → Answer) (outs : List (Key × Value)) :
    ∀ carbon : Carbon, Frame carbon (outs.foldl (sampleCallback patterns env) carbon) := by
  induction outs with
  | nil => exact .refl
  | cons out outs ih =>
    intro carbon
    exact (sampleCallback_frame patterns env carbon out).trans (ih _)

theorem flush_frame (env : Nat → Answer) (carbon : Carbon) : Frame carbon (carbon.flush env) := by
  rw [flush]
  split
  · exact pickle1Flush_frame env carbon
  · exact .refl _

end Carbon

/-! ## One turn -/

theorem visit_cases (patterns : Patterns) (env : Nat → Answer) {st : Visiting} {id : Nat}
    {metric : Metric} (hm : st.server.heap[id]? = some metric) :
    (metric.expire = EXPIRE_DISABLED ∧ visit patterns env st id = st) ∨
    (EXPIRE_DISABLED < metric.expire ∧
      ∃ out metric' stats,
        metric.sample st.server.internal_stats st.carbon.sample_freq = (out, metric', stats) ∧
        visit patterns env st id =
          { server := { st.server.modifyMetric id fun _ => metric' with internal_stats := stats }
            carbon := out.foldl (Carbon.sampleCallback patterns env) st.carbon
            log := st.log ++ out.map fun o => ⟨metric.name, o.1, o.2⟩ }) := by
  by_cases hexp : EXPIRE_DISABLED < metric.expire
  · rcases hs : metric.sample st.server.internal_stats st.carbon.sample_freq with
      ⟨out, metric', stats⟩
    refine Or.inr ⟨hexp, out, metric', stats, rfl, ?_⟩
    simp only [visit, hm, if_pos hexp, hs]
  · refine Or.inl ⟨by simpa [EXPIRE_DISABLED] using hexp, ?_⟩
    simp only [visit, hm, if_neg hexp]

/-- A turn leaves a good server, and changes the store at the key of its metric only: there it is
what sampling leaves. -/
theorem visit_view (patterns : Patterns) (env : Nat → Answer) {st : Visiting} (h : st.server.Good)
    {key : Key} {id : Nat} (hid : st.server.table.lookup key = some id) {metric : Metric}
    (hm : st.server.metricOf key = some metric) :
    (visit patterns env st id).server.Good ∧
    (visit patterns env st id).server.table = st.server.table ∧
    (visit patterns env st id).server.metricOf =
      if EXPIRE_DISABLED < metric.expire then
        Function.update st.server.metricOf key
          (some (metric.sample st.server.internal_stats st.carbon.sample_freq).2.1)
      else st.server.metricOf := by
  rw [Server.metricOf_eq hid] at hm
  rcases visit_cases patterns env hm with
    ⟨hexp, hvisit⟩ | ⟨hexp, out, metric', stats, hsample, hvisit⟩
  · rw [hvisit, hexp, if_neg (lt_irrefl _)]
    exact ⟨h, rfl, rfl⟩
  · have hkey : metric'.key = metric.key := by
      have := metric.sample_key st.server.internal_stats st.carbon.sample_freq
      rwa [hsample] at this
    have hinv : (st.server.modifyMetric id fun _ => metric').Inv := by
      refine h.toInv.modifyMetric id fun m hmem => ?_
      rw [hm] at hmem
      cases hmem
      exact hkey
    rw [hvisit, if_pos hexp, hsample]
    refine ⟨⟨⟨hinv.keys, hinv.table, hinv.queued, hinv.once⟩, h.capacity⟩, rfl, funext fun k => ?_⟩
    show (st.server.modifyMetric id fun _ => metric').metricOf k = _
    rw [h.toInv.metricOf_modify hid, Function.update_apply]
    by_cases hk : k = key
    · rw [if_pos hk, if_pos hk, hk, Server.metricOf_eq hid, hm]; rfl
    · rw [if_neg hk, if_neg hk]

theorem visit_frame (patterns : Patterns) (env : Nat → Answer) (st : Visiting) (id : Nat) :
    (visit patterns env st id).server.name = st.server.name ∧
    (visit patterns env st id).server.table = st.server.table ∧
    (visit patterns env st id).server.backends = st.server.backends ∧
    st.carbon.Frame (visit patterns env st id).carbon := by
  cases hm : st.server.heap[id]? with
  | none =>
    have hv : visit patterns env st id = st := by simp only [visit, hm]
    rw [hv]; exact ⟨rfl, rfl, rfl, .refl _⟩
  | some metric =>
    rcases visit_cases patterns env hm with
      ⟨-, hv⟩ | ⟨-, out, metric', stats, -, hv⟩
    · rw [hv]; exact ⟨rfl, rfl, rfl, .refl _⟩
    · rw [hv]; exact ⟨rfl, rfl, rfl, Carbon.callbacks_frame patterns env out st.carbon⟩

theorem visits_frame (patterns : Patterns) (env : Nat → Answer) (queue : List Nat) :
    ∀ st : Visiting,
      (visits patterns env st queue).server.table = st.server.table ∧
      (visits patterns env st queue).server.backends = st.server.backends ∧
      st.carbon.Frame (visits patterns env st queue).carbon := by
  induction queue with
  | nil => intro st; exact ⟨rfl, rfl, .refl _⟩
  | cons id queue ih =>
    intro st
    obtain ⟨-, htable, hbackends, hframe⟩ := visit_frame patterns env st id
    obtain ⟨htable', hbackends', hframe'⟩ := ih (visit patterns env st id)
    exact ⟨htable'.trans htable, hbackends'.trans hbackends, hframe.trans hframe'⟩

/-! ## One round -/

/-- The ways a round can go: no such backend or no connection, or a tick over the queue. -/
theorem Server.tick_cases (patterns : Patterns) (server : Server) (t : Tick) :
    server.tick patterns t = (server, []) ∨
    ∃ carbon, server.backends[t.backend]? = some carbon ∧
      server.tick patterns t =
        ((visits patterns t.env (t.start server carbon) carbon.queue).server.modifyBackend t.backend
          fun _ => (visits patterns t.env (t.start server carbon) carbon.queue).carbon.flush t.env,
         (visits patterns t.env (t.start server carbon) carbon.queue).log) := by
  cases hc : server.backends[t.backend]? with
  | none => exact Or.inl (by simp only [tick, hc])
  | some carbon =>
    by_cases hconn : (carbon.connect t.grant).1 = 0
    · exact Or.inr ⟨carbon, rfl, by simp only [tick, hc, hconn, ne_eq, not_true, if_false]⟩
    · exact Or.inl (by simp only [tick, hc, ne_eq, hconn, not_false_eq_true, if_true])

theorem Tick.start_queue (t : Tick) (server : Server) (carbon : Carbon) :
    (t.start server carbon).carbon.queue = carbon.queue := by
  rw [start, Carbon.connect]
  split
  · rfl
  · split <;> rfl

end Brubeck
