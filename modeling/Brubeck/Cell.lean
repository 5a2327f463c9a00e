import Brubeck.Expiry
import Brubeck.Lib.Refine

/-!
# Brubeck.Cell

What a server is to one key: a cell that nothing but the lines for the key, the expiry ticks, the
requests for the key and the connected ticks of the key's backend ever touches. The hash table, the
heap, the queues and all other keys are gone.

* `Cell.step`: the cell.
* `Cell.turns`: what an event of the server is to the cell of a key.
* `cell_refines`: every run of the server is, at every key but brubeck's own, a run of the cell, with
  the same data and the same reports.
-/

namespace Brubeck
namespace Cell

open Lib Statsd Server

inductive Turn where
  | line (r : Reading)
  | sweep
  | post
  | sample (sample_freq : Int)
  deriving DecidableEq

/-- The metric a line is recorded in. -/
def find (cell : Option Metric) (r : Reading) : Metric :=
  match cell with
  | some metric => { metric with expire := EXPIRE_ACTIVE }
  | none => newMetric r.key r.type

/-- Only brubeck's own metric looks at the counters. -/
def noStats : InternalStats := ⟨0, ⟨0, 0, 0, 0, 0, 0, 0⟩, ⟨0, 0, 0, 0, 0, 0, 0⟩⟩

def sample (metric : Metric) (sample_freq : Int) : Metric.Samples × Metric :=
  let (out, metric, _) := metric.sample noStats sample_freq
  (out, metric)

/-- One turn; `none` is a call of a missing record function. -/
def step (cell : Option Metric) : Turn → Option (Option Metric × List (Key × Value))
  | .line r =>
    ((find cell r).record r.value r.sample_freq r.modifiers).map fun metric => (some metric, [])
  | .sweep => some (cell.map expireMetric, [])
  | .post => some (cell.map fun metric => { metric with expire := EXPIRE_DISABLED }, [])
  | .sample sample_freq =>
    match cell with
    | some metric =>
      if EXPIRE_DISABLED < metric.expire then
        let (out, metric) := sample metric sample_freq
        some (some metric, out)
      else some (some metric, [])
    | none => some (none, [])

/-- What an event of the server is to the cell of a key. -/
def turns (key : Key) (server : Server) : Server.Event → List Turn
  | .packet mem buffer stop => ((accepted mem buffer stop).filter fun r => r.key = key).map .line
  | .expire => [.sweep]
  | .httpExpire k => if hashKey k = key then [.post] else []
  | .tick t =>
    match server.backends[t.backend]? with
    | some carbon =>
      if (carbon.connect t.grant).1 = 0 ∧ t.backend = server.shardOf key then
        [.sample carbon.sample_freq]
      else []
    | none => []

/-- What is reported for a key. -/
def seen (key : Key) (sampled : Sampled) : Option (Key × Value) :=
  if sampled.source = key then some (sampled.name, sampled.value) else none

/-! ## Lines -/

theorem handle_cell {server server' : Server} (h : server.Good) {o : Option Reading}
    (ho : ∀ r, o = some r → Readable r) (key : Key) (hhandle : server.handle o = some server') :
    Machine.run step (server.metricOf key) ((o.toList.filter fun r => r.key = key).map .line) =
      some (server'.metricOf key, []) := by
  cases o with
  | none =>
    obtain ⟨server₁, heq, -, hview⟩ := h.handle_error
    rw [hhandle] at heq
    cases heq
    rw [hview]
    rfl
  | some r =>
    obtain ⟨-, hline⟩ := h.handle_line (ho r rfl).key hhandle
    obtain ⟨metric, hrecord, hstore⟩ := Option.map_eq_some_iff.mp hline
    by_cases hr : r.key = key
    · subst hr
      have hfind : find (server.metricOf r.key) r = Store.find server.metricOf r := by
        unfold find Store.find
        cases server.metricOf r.key <;> rfl
      have hnew : server'.metricOf r.key = some metric := by
        rw [← hstore, Function.update_self]
      simp only [Option.toList_some, List.filter_cons, decide_true, if_true, List.filter_nil,
        List.map_cons, List.map_nil, Machine.run_single, step, hfind, hrecord, hnew, Option.map_some]
    · have hsame : server'.metricOf key = server.metricOf key := by
        rw [← hstore, Function.update_of_ne fun heq => hr heq.symm]
      simp only [Option.toList_some, List.filter_cons, hr, decide_false, Bool.false_eq_true, if_false,
        List.filter_nil, List.map_nil, hsame]
      rfl

theorem handleAll_cell (segs : List (Option Reading)) (hsegs : ∀ r, some r ∈ segs → Readable r)
    (key : Key) :
    ∀ {server server' : Server}, server.Good → segs.foldlM handle server = some server' →
      Machine.run step (server.metricOf key)
        (((segs.filterMap id).filter fun r => r.key = key).map .line) =
          some (server'.metricOf key, []) := by
  induction segs with
  | nil => intro server server' _ hfold; cases hfold; rfl
  | cons o segs ih =>
    intro server server' hgood hfold
    rw [List.foldlM_cons] at hfold
    obtain ⟨server₁, hhandle, hrest⟩ := Option.bind_eq_some_iff.mp hfold
    have ho : ∀ r, o = some r → Readable r := fun r hr => hsegs r (by simp [hr])
    have hgood₁ := ((handle_good hgood ho).2 hhandle).1
    have hone := handle_cell hgood ho key hhandle
    have hrun := ih (fun r hr => hsegs r (List.mem_cons_of_mem _ hr)) hgood₁ hrest
    have hsplit : (o :: segs).filterMap id = o.toList ++ segs.filterMap id := by
      cases o <;> rfl
    rw [hsplit, List.filter_append, List.map_append]
    exact Machine.run_append hone hrun

/-! ## Ticks -/

theorem sample_stats {metric : Metric} (h : metric.type ≠ .internalStats) (stats : InternalStats)
    (sample_freq : Int) :
    metric.sample stats sample_freq =
      ((sample metric sample_freq).1, (sample metric sample_freq).2, stats) := by
  cases ht : metric.type with
  | internalStats => exact absurd ht h
  | gauge | meter | counter | histo | timer => simp [sample, Metric.sample, ht]

theorem sample_header (metric : Metric) (sample_freq : Int) :
    (sample metric sample_freq).2.key = metric.key ∧
      (sample metric sample_freq).2.type = metric.type :=
  ⟨metric.sample_key noStats sample_freq, metric.sample_type noStats sample_freq⟩

theorem seen_self {key : Key} (out : List (Key × Value)) :
    (out.map fun o => (⟨key, o.1, o.2⟩ : Sampled)).filterMap (seen key) = out := by
  rw [List.filterMap_map]
  induction out with
  | nil => rfl
  | cons o out ih => rw [List.filterMap_cons_some (b := o) (by simp [seen]), ih]

theorem seen_other {key name : Key} (h : name ≠ key) (out : List (Key × Value)) :
    (out.map fun o => (⟨name, o.1, o.2⟩ : Sampled)).filterMap (seen key) = [] := by
  rw [List.filterMap_map, List.filterMap_eq_nil_iff]
  intro o _
  simp [seen, h]

/-- The turn of the metric itself. -/
theorem visit_cell_self (patterns : Patterns) (env : Nat → Answer) {st : Visiting} {id : Nat}
    {metric : Metric} (hm : st.server.heap[id]? = some metric) (ht : metric.type ≠ .internalStats) :
    (visit patterns env st id).server.heap[id]? =
      some (if EXPIRE_DISABLED < metric.expire then (sample metric st.carbon.sample_freq).2
        else metric) ∧
    (visit patterns env st id).log.filterMap (seen metric.name) =
      st.log.filterMap (seen metric.name) ++
        if EXPIRE_DISABLED < metric.expire then (sample metric st.carbon.sample_freq).1 else [] := by
  have hself := visit_self patterns env hm
  rw [sample_stats ht] at hself
  refine ⟨hself, ?_⟩
  rcases visit_cases patterns env hm with ⟨hexp, hv⟩ | ⟨hexp, out, metric', stats, hsample, hv⟩
  · rw [hv, if_neg (by rw [hexp]; exact lt_irrefl _), List.append_nil]
  · rw [sample_stats ht] at hsample
    cases hsample
    rw [hv, if_pos hexp, List.filterMap_append, seen_self]

/-- The turn of another metric. -/
theorem visit_cell_other (patterns : Patterns) (env : Nat → Answer) {st : Visiting} {j : Nat}
    {m : Metric} (hm : st.server.heap[j]? = some m) {key : Key} (hne : m.name ≠ key) :
    (visit patterns env st j).log.filterMap (seen key) = st.log.filterMap (seen key) := by
  rcases visit_cases patterns env hm with ⟨-, hv⟩ | ⟨-, out, metric', stats, -, hv⟩
  · rw [hv]
  · rw [hv, List.filterMap_append, seen_other hne, List.append_nil]

/-- A pass over a queue samples the metric of a key once if it is in the queue and not disabled, and
not at all otherwise. -/
theorem visits_cell (patterns : Patterns) (env : Nat → Answer) {key : Key} {id : Nat}
    (queue : List Nat) :
    queue.Nodup → ∀ {st : Visiting} {metric : Metric}, st.server.Good →
      (∀ j ∈ queue, ∃ k, st.server.table.lookup k = some j) →
      st.server.table.lookup key = some id → st.server.heap[id]? = some metric →
      metric.type ≠ .internalStats →
      (visits patterns env st queue).server.heap[id]? =
        some (if id ∈ queue ∧ EXPIRE_DISABLED < metric.expire then
          (sample metric st.carbon.sample_freq).2 else metric) ∧
      (visits patterns env st queue).log.filterMap (seen key) = st.log.filterMap (seen key) ++
        if id ∈ queue ∧ EXPIRE_DISABLED < metric.expire then
          (sample metric st.carbon.sample_freq).1 else [] := by
  induction queue with
  | nil =>
    intro _ st metric _ _ _ hm _
    simp [visits, hm]
  | cons j queue ih =>
    intro hnd st metric hgood hqueue hid hm ht
    rw [List.nodup_cons] at hnd
    obtain ⟨k, hj⟩ := hqueue j (by simp)
    obtain ⟨m, hmj, hname⟩ := hgood.table hj
    obtain ⟨hgood', htable, -⟩ := visit_view patterns env hgood hj (by rw [metricOf_eq hj, hmj])
    have hqueue' : ∀ i ∈ queue, ∃ k, (visit patterns env st j).server.table.lookup k = some i := by
      rw [htable]
      exact fun i hi => hqueue i (List.mem_cons_of_mem _ hi)
    have hfreq := (visit_frame patterns env st j).2.2.2.sample_freq
    by_cases hjid : j = id
    · -- the turn of the metric itself: it does not come again
      subst hjid
      obtain rfl : metric = m := Option.some.inj (hm.symm.trans hmj)
      obtain rfl : k = key := by
        obtain ⟨m', hm', hname'⟩ := hgood.table hid
        rw [hm] at hm'
        cases hm'
        exact hname.symm.trans hname'
      obtain ⟨hheap, hlog⟩ := visit_cell_self patterns env hm ht
      have ht' : (if EXPIRE_DISABLED < metric.expire then (sample metric st.carbon.sample_freq).2
          else metric).type ≠ .internalStats := by
        split
        · rw [(sample_header metric _).2]; exact ht
        · exact ht
      obtain ⟨hheap', hlog'⟩ := ih hnd.2 hgood' hqueue' (by rw [htable]; exact hid) hheap ht'
      rw [hname] at hlog
      show (visits patterns env (visit patterns env st j) queue).server.heap[j]? = _ ∧ _
      rw [hheap', if_neg fun h => hnd.1 h.1]
      refine ⟨by simp, ?_⟩
      show (visits patterns env (visit patterns env st j) queue).log.filterMap _ = _
      rw [hlog', if_neg fun h => hnd.1 h.1, List.append_nil, hlog]
      simp
    · have hne : m.name ≠ key := by
        rintro rfl
        rw [hname, hj] at hid
        exact hjid (Option.some.inj hid)
      obtain ⟨hheap, hlog⟩ := ih hnd.2 hgood' hqueue' (by rw [htable]; exact hid)
        ((visit_other patterns env st hjid).trans hm) ht
      rw [hfreq] at hheap hlog
      have hmem : id ∈ j :: queue ↔ id ∈ queue := by
        rw [List.mem_cons, or_iff_right (Ne.symm hjid)]
      simp only [hmem]
      refine ⟨hheap, ?_⟩
      show (visits patterns env (visit patterns env st j) queue).log.filterMap _ = _
      rw [hlog, visit_cell_other patterns env hmj hne]

/-- A pass over a queue reports nothing for a key that has no metric. -/
theorem visits_cell_none (patterns : Patterns) (env : Nat → Answer) {key : Key} (queue : List Nat) :
    ∀ {st : Visiting}, st.server.Good → (∀ j ∈ queue, ∃ k, st.server.table.lookup k = some j) →
      st.server.table.lookup key = none →
      (visits patterns env st queue).log.filterMap (seen key) = st.log.filterMap (seen key) := by
  induction queue with
  | nil => intro st _ _ _; rfl
  | cons j queue ih =>
    intro st hgood hqueue hnone
    obtain ⟨k, hj⟩ := hqueue j (by simp)
    obtain ⟨m, hmj, hname⟩ := hgood.table hj
    obtain ⟨hgood', htable, -⟩ := visit_view patterns env hgood hj (by rw [metricOf_eq hj, hmj])
    have hne : m.name ≠ key := by
      rintro rfl
      rw [hname, hj] at hnone
      cases hnone
    have hrest := ih hgood' (by rw [htable]; exact fun i hi => hqueue i (List.mem_cons_of_mem _ hi))
      (by rw [htable]; exact hnone)
    show (visits patterns env (visit patterns env st j) queue).log.filterMap _ = _
    rw [hrest, visit_cell_other patterns env hmj hne]

theorem start_freq (t : Tick) (server : Server) (carbon : Carbon) :
    (t.start server carbon).carbon.sample_freq = carbon.sample_freq := by
  rw [Tick.start, Carbon.connect]
  split
  · rfl
  · split <;> rfl

theorem tick_cell {server : Server} (hgood : server.Good) (h : server.Placed) {key : Key}
    (ht : server.typeOf key ≠ some .internalStats) (patterns : Patterns) (t : Tick) :
    Machine.run step (server.metricOf key) (turns key server (.tick t)) =
      some ((server.tick patterns t).1.metricOf key,
        (server.tick patterns t).2.filterMap (seen key)) := by
  cases hc : server.backends[t.backend]? with
  | none =>
    have htick : server.tick patterns t = (server, []) := by simp only [tick, hc]
    rw [htick, turns, hc]
    rfl
  | some carbon =>
    by_cases hconn : (carbon.connect t.grant).1 = 0
    · have hlog : (server.tick patterns t).2 =
          (visits patterns t.env (t.start server carbon) carbon.queue).log := by
        simp only [tick, hc, hconn, ne_eq, not_true, if_false]
      have hheap : (server.tick patterns t).1.heap =
          (visits patterns t.env (t.start server carbon) carbon.queue).server.heap := by
        simp only [tick, hc, hconn, ne_eq, not_true, if_false]
        rfl
      have htable := (tick_same server patterns t).1
      have hstart : (t.start server carbon).server.Good := hgood
      have hqueued : ∀ j ∈ carbon.queue, ∃ k, server.table.lookup k = some j :=
        fun j hj => hgood.queued (List.mem_of_getElem? hc) hj
      rw [turns, hc]
      simp only [hconn, true_and]
      cases hid : server.table.lookup key with
      | none =>
        have hnone : server.metricOf key = none := metricOf_none hid
        have hlater : (server.tick patterns t).1.metricOf key = none :=
          metricOf_none (by rw [htable]; exact hid)
        rw [hlater, hnone, hlog, visits_cell_none patterns t.env carbon.queue hstart hqueued hid]
        split <;> rfl
      | some id =>
        obtain ⟨metric, hm, -⟩ := hgood.table hid
        have hmetric : server.metricOf key = some metric := by rw [metricOf_eq hid, hm]
        have htype : metric.type ≠ .internalStats := by
          intro heq
          exact ht (by rw [typeOf, hmetric, Option.map_some, heq])
        have hplace := h.shard hid t.backend
        rw [← holds_iff, holds_carbon hc] at hplace
        obtain ⟨hheap', hlog'⟩ := visits_cell patterns t.env carbon.queue
          (hgood.once (List.mem_of_getElem? hc)) hstart hqueued hid hm htype
        rw [start_freq] at hheap' hlog'
        have hlater : (server.tick patterns t).1.metricOf key =
            (server.tick patterns t).1.heap[id]? := metricOf_eq (by rw [htable]; exact hid)
        rw [hlater, hheap, hheap', hlog, hlog', hmetric]
        have hempty : (t.start server carbon).log.filterMap (seen key) = [] := rfl
        simp only [hplace, hempty, List.nil_append]
        by_cases hshard : t.backend = server.shardOf key
        · by_cases hexp : EXPIRE_DISABLED < metric.expire
          · simp only [hshard, hexp, and_self, if_true, Machine.run_single, step]
          · simp only [hshard, hexp, and_false, if_true, if_false, Machine.run_single, step]
        · simp only [hshard, false_and, if_false]
          rfl
    · rw [tick_refused hc hconn, turns, hc]
      simp only [hconn, false_and, if_false]
      rfl

/-! ## Runs -/

/-- What the refinement needs of a state. -/
structure Ready (key : Key) (server : Server) : Prop extends server.Good, server.Placed where
  client : server.typeOf key ≠ some .internalStats

theorem step_cell {patterns : Patterns} {key : Key} {server server' : Server} {e : Server.Event}
    {out : List Sampled} (h : Ready key server)
    (hstep : Server.step patterns server e = some (server', out)) :
    Ready key server' ∧ Machine.run step (server.metricOf key) (turns key server e) =
      some (server'.metricOf key, out.filterMap (seen key)) := by
  obtain ⟨hgood', hgrows⟩ := step_good h.toGood hstep
  refine ⟨⟨hgood', step_placed h.toGood h.toPlaced hstep, ?_⟩, ?_⟩
  · rw [Ne, hgrows.internal]
    exact h.client
  · cases e with
    | packet mem buffer stop =>
      obtain ⟨hfold, rfl⟩ := step_packet hstep
      exact handleAll_cell _ segments_readable key h.toGood hfold
    | expire =>
      cases hstep
      rw [h.toGood.expireTick.2]
      rfl
    | httpExpire k =>
      cases hstep
      rw [(h.toGood.httpExpire k).2, Store.disable, Function.update_apply, turns]
      by_cases hk : key = hashKey k
      · subst hk
        rw [if_pos rfl, if_pos rfl]
        rfl
      · rw [if_neg hk, if_neg (Ne.symm hk)]
        rfl
    | tick t =>
      rw [Server.step, Option.some.injEq] at hstep
      have htick := tick_cell h.toGood h.toPlaced h.client patterns t
      rwa [hstep] at htick

theorem run_cell {patterns : Patterns} {key : Key} {server server' : Server}
    {events : List Server.Event} {out : List Sampled} (h : Ready key server)
    (hrun : Machine.run (Server.step patterns) server events = some (server', out)) :
    Ready key server' ∧
      Machine.run step (server.metricOf key)
        (Machine.trace (Server.step patterns) (turns key) server events) =
          some (server'.metricOf key, out.filterMap (seen key)) :=
  Machine.run_refines (Ready key) (metricOf · key) (turns key) (seen key)
    (fun hs hstep => step_cell hs hstep) h hrun

/-- The cell of a key over the two parts of a run. -/
def history (patterns : Patterns) (key : Key) (config : Config) (overlay : As → As)
    (before : Server) (early late : List Server.Event) : List Turn :=
  Machine.trace (Server.step patterns) (turns key) (boot config) early ++
    Machine.trace (Server.step patterns) (turns key) (before.internalInit overlay) late

theorem boot_ready (key : Key) (config : Config) : Ready key (boot config) :=
  ⟨boot_good config, boot_placed config, fun h => by cases h⟩

/-- Registering brubeck's own metric leaves all other keys alone. -/
theorem internalInit_ready {key : Key} {server : Server} (h : Ready key server)
    (hkey : key ≠ hashKey server.name) (overlay : As → As) :
    Ready key (server.internalInit overlay) ∧
      (server.internalInit overlay).metricOf key = server.metricOf key := by
  obtain ⟨hgood, hview⟩ := internalInit_view h.toGood overlay
  have hsame : (server.internalInit overlay).metricOf key = server.metricOf key := by
    rw [hview, Function.update_of_ne hkey]
  refine ⟨⟨hgood, internalInit_placed h.toGood h.toPlaced overlay, ?_⟩, hsame⟩
  rw [typeOf, hsame]
  exact h.client

theorem whole_run {patterns : Patterns} {key : Key} {config : Config} {overlay : As → As}
    {before server : Server} {early late : List Server.Event} {out out' : List Sampled}
    (hearly : Machine.run (Server.step patterns) (boot config) early = some (before, out))
    (hlate : Machine.run (Server.step patterns) (before.internalInit overlay) late =
      some (server, out'))
    (hkey : key ≠ hashKey config.name) :
    Ready key server ∧
      Machine.run step none (history patterns key config overlay before early late) =
        some (server.metricOf key, (out ++ out').filterMap (seen key)) := by
  obtain ⟨hbefore, hfirst⟩ := run_cell (boot_ready key config) hearly
  have hname : before.name = config.name := (run_good (boot_good config) hearly).2.name
  obtain ⟨hinit, hsame⟩ := internalInit_ready hbefore (hname ▸ hkey) overlay
  obtain ⟨hserver, hsecond⟩ := run_cell hinit hlate
  rw [hsame] at hsecond
  refine ⟨hserver, ?_⟩
  rw [List.filterMap_append]
  exact Machine.run_append hfirst hsecond

/-- **One key.** Every run of the server, through its start-up and after, is at any key but brubeck's
own a run of the key's cell: the metric in the table holds what the cell holds, and what was reported
for the key is what the cell reported, in the same order. -/
theorem cell_refines {patterns : Patterns} {key : Key} {config : Config} {overlay : As → As}
    {before server : Server} {early late : List Server.Event} {out out' : List Sampled}
    (hearly : Machine.run (Server.step patterns) (boot config) early = some (before, out))
    (hlate : Machine.run (Server.step patterns) (before.internalInit overlay) late =
      some (server, out'))
    (hkey : key ≠ hashKey config.name) :
    Machine.run step none (history patterns key config overlay before early late) =
      some (server.metricOf key, (out ++ out').filterMap (seen key)) :=
  (whole_run hearly hlate hkey).2

theorem cell_refines_meter :
    ∃ server out, Machine.run (Server.step ⟨fun _ => 0, fun _ => 0⟩) started lineThenSweep =
        some (server, out) ∧
      Machine.run step none (history ⟨fun _ => 0, fun _ => 0⟩ (str "a".toList) defaultConfig id
          (boot defaultConfig) [] lineThenSweep) =
        some (server.metricOf (str "a".toList), out.filterMap (seen (str "a".toList))) := by
  have hsome : (Machine.run (Server.step ⟨fun _ => 0, fun _ => 0⟩) started lineThenSweep).isSome =
      true := by decide +kernel
  obtain ⟨⟨server, out⟩, hlate⟩ := Option.isSome_iff_exists.mp hsome
  have hkey : str "a".toList ≠ hashKey defaultConfig.name := by decide
  have hearly : Machine.run (Server.step ⟨fun _ => 0, fun _ => 0⟩) (boot defaultConfig) [] =
      some (boot defaultConfig, []) := rfl
  exact ⟨server, out, hlate, cell_refines hearly hlate hkey⟩

end Cell
end Brubeck
