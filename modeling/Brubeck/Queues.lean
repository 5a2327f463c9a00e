import Brubeck.Concurrent.Basic
import Brubeck.Outage

/-!
# Brubeck.Queues

Every metric in the table is queued at the backend its key hashes to, and at no other, in every
state of every run. A tick of a backend therefore samples the metrics of its own shard only.

* `Placed`: the invariant. It depends on the table and on the queues only.
* `handle_cases`: a line adds one metric, or leaves the table and the backends alone.
* `step_placed`, `run_placed`: every step, and so every run, keeps it.
* `tick_samples_iff`: which metrics a connected tick samples.
-/

namespace Brubeck
namespace Server

open Lib Statsd

def queues (server : Server) : List (List Nat) := server.backends.map Carbon.queue

/-- The backend of a key. -/
def shardOf (server : Server) (key : Key) : Nat := Concurrent.shardOf server.queues.length key

/-- The metric at `id` is in the queue of backend `b`. -/
def Holds (server : Server) (b id : Nat) : Prop := id ∈ server.queues[b]?.getD []

instance (server : Server) (b id : Nat) : Decidable (server.Holds b id) :=
  inferInstanceAs (Decidable (id ∈ server.queues[b]?.getD []))

theorem holds_iff {server : Server} {b id : Nat} :
    server.Holds b id ↔ ∃ queue, server.queues[b]? = some queue ∧ id ∈ queue := by
  rw [Holds]
  cases server.queues[b]? <;> simp

theorem holds_carbon {server : Server} {b : Nat} {carbon : Carbon}
    (h : server.backends[b]? = some carbon) (id : Nat) : server.Holds b id ↔ id ∈ carbon.queue := by
  rw [Holds, queues, List.getElem?_map, h]
  rfl

structure Placed (server : Server) : Prop where
  shard : ∀ {key id}, server.table.lookup key = some id →
    ∀ b, (∃ queue, server.queues[b]? = some queue ∧ id ∈ queue) ↔ b = server.shardOf key

theorem shardOf_eq (server : Server) (metric : Metric) :
    server.metricShard metric = server.shardOf metric.name := by
  rw [metricShard, shardOf, Concurrent.shardOf, queues, List.length_map]

theorem shardOf_lt (server : Server) (key : Key) : server.shardOf key < server.queues.length := by
  have hpos : 0 < server.queues.length := by rw [queues, List.length_map]; exact server.backends_pos
  exact Concurrent.shardOf_lt hpos key

/-! ## One operation -/

theorem Placed.congr {server server' : Server} (h : server.Placed)
    (htable : server'.table = server.table) (hqueues : server'.queues = server.queues) :
    server'.Placed where
  shard := by
    intro key id hid b
    rw [htable] at hid
    rw [shardOf, hqueues]
    exact h.shard hid b

theorem queues_modifyBackend (server : Server) (b : Nat) {f : Carbon → Carbon}
    (hf : ∀ carbon, server.backends[b]? = some carbon → (f carbon).queue = carbon.queue) :
    (server.modifyBackend b f).queues = server.queues := by
  apply List.ext_getElem?
  intro i
  simp only [queues, modifyBackend, List.getElem?_map, List.getElem?_modify]
  cases hi : server.backends[i]? with
  | none => rfl
  | some carbon =>
    by_cases hb : b = i
    · subst hb
      simp [hf carbon hi]
    · simp [hb]

theorem added_queues (server : Server) (key : Key) (type : MetricType) :
    (server.added key type).queues =
      server.queues.modify (server.shardOf (hashKey key)) (server.heap.length :: ·) := by
  have hshard : ∀ s : Server, s.backends = server.backends →
      s.metricShard (newMetric key type) = server.shardOf (hashKey key) := by
    intro s hs
    rw [shardOf_eq, newMetric_name, shardOf, shardOf, queues, queues, hs]
  simp only [added, registerMetric, modifyLive, queues, modifyBackend]
  rw [hshard { server with
    heap := server.heap ++ [newMetric key type]
    table := (hashKey key, server.heap.length) :: server.table } rfl]
  apply List.ext_getElem?
  intro i
  simp only [List.getElem?_map, List.getElem?_modify]
  cases server.backends[i]? with
  | none => rfl
  | some carbon => by_cases hi : server.shardOf (hashKey key) = i <;> simp [hi]

theorem Placed.added {server : Server} (h : server.Placed) (hinv : server.Inv) (key : Key)
    (type : MetricType) : (server.added key type).Placed where
  shard := by
    intro k id hk b
    have hlen : (server.added key type).queues.length = server.queues.length := by
      rw [added_queues, List.length_modify]
    rw [shardOf, hlen, added_queues]
    rw [added_lookup] at hk
    -- which queues hold which metrics after one more has been pushed
    have hmem : (∃ queue, (server.queues.modify (server.shardOf (hashKey key))
        (server.heap.length :: ·))[b]? = some queue ∧ id ∈ queue) ↔
        (b = server.shardOf (hashKey key) ∧ id = server.heap.length) ∨
          ∃ queue, server.queues[b]? = some queue ∧ id ∈ queue := by
      rw [List.getElem?_modify]
      by_cases hb : server.shardOf (hashKey key) = b
      · have hlt := server.shardOf_lt (hashKey key)
        rw [hb] at hlt
        simp [hb, List.getElem?_eq_getElem hlt]
      · cases server.queues[b]? <;> simp [hb, Ne.symm hb]
    -- ids below the end of the heap are the only ones queued before
    have hqueued : ∀ queue, server.queues[b]? = some queue → server.heap.length ∉ queue := by
      intro queue hqueue hid
      rw [queues, List.getElem?_map] at hqueue
      obtain ⟨carbon, hcarbon, rfl⟩ := Option.map_eq_some_iff.mp hqueue
      obtain ⟨k', hk'⟩ := hinv.queued (List.mem_of_getElem? hcarbon) hid
      obtain ⟨metric, hmetric, -⟩ := hinv.table hk'
      exact Nat.lt_irrefl _ (List.getElem?_eq_some_iff.mp hmetric).1
    rw [hmem]
    by_cases heq : k = hashKey key
    · rw [if_pos heq] at hk
      cases hk
      subst heq
      constructor
      · rintro (⟨hb, -⟩ | ⟨queue, hqueue, hid⟩)
        · exact hb
        · exact absurd hid (hqueued queue hqueue)
      · intro hb
        exact .inl ⟨hb, rfl⟩
    · rw [if_neg heq] at hk
      obtain ⟨metric, hmetric, -⟩ := hinv.table hk
      have hlt := (List.getElem?_eq_some_iff.mp hmetric).1
      rw [or_iff_right fun h => Nat.ne_of_lt hlt h.2]
      exact h.shard hk b

/-! ## Lines and packets -/

/-- A line adds the metric of its key, or leaves the table and the backends alone. -/
theorem handle_cases {server server' : Server} {o : Option Reading}
    (h : server.handle o = some server') :
    (server'.table = server.table ∧ server'.backends = server.backends) ∨
      ∃ key type, server.hashtableFind key = none ∧ server'.table = (server.added key type).table ∧
        server'.backends = (server.added key type).backends := by
  cases o with
  | none => cases h; exact .inl ⟨rfl, rfl⟩
  | some r =>
    simp only [handle] at h
    generalize hlive : (server.modifyLive fun live => { live with metrics := live.metrics + 1 }) = s
      at h
    have hrecord : ∀ {s₁ : Server} {id : Nat},
        s₁.metricRecord id r.value r.sample_freq r.modifiers = some server' →
        server'.table = s₁.table ∧ server'.backends = s₁.backends := by
      intro s₁ id hrec
      obtain ⟨metric, rfl⟩ := metricRecord_some hrec
      exact ⟨rfl, rfl⟩
    cases hfind : s.hashtableFind r.key with
    | some id =>
      simp only [metricFind, hfind] at h
      rw [← hlive] at h
      have hsame := hrecord h
      exact .inl hsame
    | none =>
      by_cases hcap : s.at_capacity = true
      · simp only [metricFind, hfind, hcap, if_true] at h
        cases h
        rw [← hlive]
        exact .inl ⟨rfl, rfl⟩
      · simp only [metricFind, hfind, hcap, if_false, metricNew_new hfind, Bool.false_eq_true] at h
        rw [← hlive] at h
        have hsame := hrecord h
        rw [← hlive] at hfind
        exact .inr ⟨r.key, r.type, hfind, hsame⟩

theorem handle_placed {server server' : Server} {o : Option Reading} (h : server.Placed)
    (hinv : server.Inv) (hhandle : server.handle o = some server') : server'.Placed := by
  rcases handle_cases hhandle with ⟨htable, hbackends⟩ | ⟨key, type, -, htable, hbackends⟩
  · exact h.congr htable (congrArg (List.map Carbon.queue) hbackends)
  · exact (h.added hinv key type).congr htable (congrArg (List.map Carbon.queue) hbackends)

theorem handleAll_placed (segs : List (Option Reading)) (hsegs : ∀ r, some r ∈ segs → Readable r)
    {server server' : Server} (hgood : server.Good) (h : server.Placed)
    (hfold : segs.foldlM handle server = some server') : server'.Placed :=
  handleAll_rel (R := fun a b => a.Placed → b.Placed) (fun _ h => h) (fun h h' hp => h' (h hp)) hsegs
    (fun _ hgood hhandle hp => handle_placed hp hgood.toInv hhandle) hgood hfold h

/-! ## Ticks -/

theorem tick_same (server : Server) (patterns : Patterns) (t : Tick) :
    (server.tick patterns t).1.table = server.table ∧
      (server.tick patterns t).1.queues = server.queues := by
  rcases tick_cases patterns server t with heq | ⟨carbon, hc, heq⟩
  · rw [heq]; exact ⟨rfl, rfl⟩
  · obtain ⟨htable, hbackends, hframe⟩ :=
      visits_frame patterns t.env carbon.queue (t.start server carbon)
    rw [heq]
    refine ⟨htable, ?_⟩
    rw [queues_modifyBackend, queues, hbackends]
    · rfl
    · intro old hold
      rw [hbackends] at hold
      have heq : carbon = old := Option.some.inj (hc.symm.trans hold)
      rw [(Carbon.flush_frame ..).queue, hframe.queue, t.start_queue, heq]

/-! ## Runs -/

theorem expireTick_same (server : Server) :
    server.expireTick.table = server.table ∧ server.expireTick.backends = server.backends := by
  have hfold : ∀ (entries : List (Key × Nat)) (s : Server),
      (entries.foldl (fun s entry => s.modifyMetric entry.2 expireMetric) s).table = s.table ∧
      (entries.foldl (fun s entry => s.modifyMetric entry.2 expireMetric) s).backends = s.backends := by
    intro entries
    induction entries with
    | nil => intro s; exact ⟨rfl, rfl⟩
    | cons entry entries ih => intro s; exact ih _
  exact hfold server.table server

theorem httpExpire_same (server : Server) (key : Key) :
    (server.httpExpire key).table = server.table ∧
      (server.httpExpire key).backends = server.backends := by
  rw [httpExpire]
  split <;> exact ⟨rfl, rfl⟩

theorem step_placed {patterns : Patterns} {server server' : Server} {e : Event}
    {out : List Sampled} (hgood : server.Good) (h : server.Placed)
    (hstep : step patterns server e = some (server', out)) : server'.Placed := by
  cases e with
  | packet mem buffer stop =>
    obtain ⟨hfold, rfl⟩ := step_packet hstep
    exact handleAll_placed _ segments_readable hgood h hfold
  | expire =>
    cases hstep
    exact h.congr (expireTick_same server).1
      (congrArg (List.map Carbon.queue) (expireTick_same server).2)
  | httpExpire key =>
    cases hstep
    exact h.congr (httpExpire_same server key).1
      (congrArg (List.map Carbon.queue) (httpExpire_same server key).2)
  | tick t =>
    rw [step, Option.some.injEq] at hstep
    have hsame := tick_same server patterns t
    rw [hstep] at hsame
    exact h.congr hsame.1 hsame.2

theorem boot_placed (config : Config) : (boot config).Placed where
  shard := by intro key id h; cases h

theorem internalInit_placed {server : Server} (hgood : server.Good) (h : server.Placed)
    (overlay : As → As) : (server.internalInit overlay).Placed := by
  cases hfind : server.hashtableFind server.name with
  | none =>
    simp only [internalInit, metricNew_new hfind]
    exact (h.added hgood.toInv server.name .internalStats).congr rfl rfl
  | some id =>
    simp only [internalInit, metricNew_old hfind]
    exact h.congr rfl rfl

theorem run_placed {patterns : Patterns} {server server' : Server} {events : List Event}
    {out : List Sampled} (hgood : server.Good) (h : server.Placed)
    (hrun : Machine.run (step patterns) server events = some (server', out)) : server'.Placed := by
  have hboth : server'.Good ∧ server'.Placed := by
    refine Machine.run_invariant (fun s => s.Good ∧ s.Placed) ?_ ⟨hgood, h⟩ hrun
    rintro s e s' out ⟨hs, hp⟩ hstep
    exact ⟨(step_good hs hstep).1, step_placed hs hp hstep⟩
  exact hboth.2

/-! ## What a tick samples -/

/-- Something was passed to the sample callback for the metric of the key. -/
def Reported (key : Key) (log : List Sampled) : Prop := ∃ sampled ∈ log, sampled.source = key

theorem sample_ne_nil (metric : Metric) (stats : InternalStats) (sample_freq : Int) :
    (metric.sample stats sample_freq).1 ≠ [] := by
  cases h : metric.type <;>
    simp [Metric.sample, h, Metric.gaugeSample, Metric.drainSample, Metric.histogramSample,
      Metric.histogramFields, Metric.internalSample, Metric.internalFields]

theorem visit_reported_self (patterns : Patterns) (env : Nat → Answer) {st : Visiting} {id : Nat}
    {metric : Metric} (hm : st.server.heap[id]? = some metric) :
    Reported metric.name (visit patterns env st id).log ↔
      Reported metric.name st.log ∨ EXPIRE_DISABLED < metric.expire := by
  rcases visit_cases patterns env hm with
    ⟨hexp, hv⟩ | ⟨hexp, out, metric', stats, hsample, hv⟩
  · rw [hv, hexp, or_iff_left (lt_irrefl _)]
  · have hne : out ≠ [] := by
      have := sample_ne_nil metric st.server.internal_stats st.carbon.sample_freq
      rwa [hsample] at this
    obtain ⟨o, hout⟩ := List.exists_mem_of_ne_nil out hne
    rw [hv]
    refine iff_of_true ⟨⟨metric.name, o.1, o.2⟩, ?_, rfl⟩ (.inr hexp)
    exact List.mem_append_right _ (List.mem_map_of_mem hout)

theorem visit_reported_other (patterns : Patterns) (env : Nat → Answer) {st : Visiting} {id : Nat}
    {metric : Metric} (hm : st.server.heap[id]? = some metric) {key : Key}
    (hne : metric.name ≠ key) :
    Reported key (visit patterns env st id).log ↔ Reported key st.log := by
  rcases visit_cases patterns env hm with ⟨-, hv⟩ | ⟨-, out, metric', stats, -, hv⟩
  · rw [hv]
  · rw [hv]
    constructor
    · rintro ⟨sampled, hmem, hsource⟩
      rcases List.mem_append.mp hmem with hmem | hmem
      · exact ⟨sampled, hmem, hsource⟩
      · obtain ⟨o, -, rfl⟩ := List.mem_map.mp hmem
        exact absurd hsource hne
    · rintro ⟨sampled, hmem, hsource⟩
      exact ⟨sampled, List.mem_append_left _ hmem, hsource⟩

/-- A pass over a queue reports the metric of a key exactly when the metric is in the queue and not
disabled. -/
theorem visits_reported (patterns : Patterns) (env : Nat → Answer) {key : Key} {id : Nat}
    (queue : List Nat) :
    queue.Nodup → ∀ {st : Visiting} {metric : Metric}, st.server.Good →
      (∀ j ∈ queue, ∃ k, st.server.table.lookup k = some j) →
      st.server.table.lookup key = some id → st.server.heap[id]? = some metric →
      (Reported key (visits patterns env st queue).log ↔
        Reported key st.log ∨ (id ∈ queue ∧ EXPIRE_DISABLED < metric.expire)) := by
  induction queue with
  | nil => intro _ st metric _ _ _ _; simp [visits]
  | cons j queue ih =>
    intro hnd st metric hgood hqueue hid hm
    rw [List.nodup_cons] at hnd
    obtain ⟨k, hj⟩ := hqueue j (by simp)
    obtain ⟨m, hmj, hname⟩ := hgood.table hj
    obtain ⟨hgood', htable, -⟩ :=
      visit_view patterns env hgood hj (by rw [metricOf_eq hj, hmj])
    have hqueue' : ∀ i ∈ queue, ∃ k, (visit patterns env st j).server.table.lookup k = some i := by
      rw [htable]
      exact fun i hi => hqueue i (List.mem_cons_of_mem _ hi)
    by_cases hjid : j = id
    · -- the turn of the metric itself: it does not come again
      subst hjid
      obtain rfl : metric = m := Option.some.inj (hm.symm.trans hmj)
      obtain rfl : k = key := by
        obtain ⟨m', hm', hname'⟩ := hgood.table hid
        rw [hm] at hm'
        cases hm'
        exact hname.symm.trans hname'
      have hself := visit_self patterns env hm
      have hrest := ih hnd.2 hgood' hqueue' (by rw [htable]; exact hid) hself
      show Reported k (visits patterns env (visit patterns env st j) queue).log ↔ _
      have hreported := visit_reported_self patterns env hm
      rw [hname] at hreported
      rw [hrest, or_iff_left fun h => hnd.1 h.1, hreported]
      simp
    · have hne : m.name ≠ key := by
        rintro rfl
        rw [hname, hj] at hid
        exact hjid (Option.some.inj hid)
      have hrest := ih hnd.2 hgood' hqueue' (by rw [htable]; exact hid)
        ((visit_other patterns env st hjid).trans hm)
      show Reported key (visits patterns env (visit patterns env st j) queue).log ↔ _
      rw [hrest, visit_reported_other patterns env hmj hne, List.mem_cons,
        or_iff_right (Ne.symm hjid)]

/-- The tick gets a connection, new or old. -/
def connects (server : Server) (t : Tick) : Bool :=
  match server.backends[t.backend]? with
  | none => false
  | some carbon => (carbon.connect t.grant).1 = 0

/-- A tick samples the metric of a key exactly when it is connected, the metric is of its shard, and
the metric is not disabled. -/
theorem tick_samples_iff {server : Server} (hgood : server.Good) (h : server.Placed) {key : Key}
    {metric : Metric} (hm : server.metricOf key = some metric) (patterns : Patterns) (t : Tick) :
    Reported key (server.tick patterns t).2 ↔
      server.connects t = true ∧ t.backend = server.shardOf key ∧
        EXPIRE_DISABLED < metric.expire := by
  obtain ⟨id, hid, hm⟩ := metricOf_some hm
  cases hc : server.backends[t.backend]? with
  | none => simp [tick, connects, hc, Reported]
  | some carbon =>
    by_cases hconn : (carbon.connect t.grant).1 = 0
    · have hstart : (t.start server carbon).server.Good := hgood
      have hvisits := visits_reported patterns t.env carbon.queue
        (hgood.once (List.mem_of_getElem? hc)) hstart
        (fun j hj => hgood.queued (List.mem_of_getElem? hc) hj) hid hm
      have hplace := h.shard hid t.backend
      rw [← holds_iff, holds_carbon hc] at hplace
      simp only [tick, connects, hc, hconn, ne_eq, not_true, if_false, decide_true, true_and]
      rw [hvisits, hplace, or_iff_right]
      rintro ⟨sampled, hmem, -⟩
      cases hmem
    · rw [tick_refused hc hconn]
      simp [connects, hc, hconn, Reported]

/-- What a tick leaves of the metric of a key: what sampling leaves when it is in the backend's queue,
or what was there. -/
theorem tick_metricOf_held {server : Server} (hgood : server.Good) {key : Key} {id : Nat}
    {metric : Metric} (hid : server.table.lookup key = some id)
    (hm : server.heap[id]? = some metric) (patterns : Patterns) (t : Tick) :
    ∃ stats sample_freq, (server.tick patterns t).1.metricOf key =
      some (if server.connects t = true ∧ server.Holds t.backend id ∧
          EXPIRE_DISABLED < metric.expire then (metric.sample stats sample_freq).2.1 else metric) := by
  have hview : (server.tick patterns t).1.metricOf key = (server.tick patterns t).1.heap[id]? :=
    metricOf_eq (by rw [(tick_same server patterns t).1]; exact hid)
  rw [hview]
  cases hc : server.backends[t.backend]? with
  | none =>
    have htick : server.tick patterns t = (server, []) := by simp only [tick, hc]
    exact ⟨server.internal_stats, 0, by rw [htick]; simp [connects, hc, hm]⟩
  | some carbon =>
    by_cases hconn : (carbon.connect t.grant).1 = 0
    · have htick : (server.tick patterns t).1.heap[id]? =
          (visits patterns t.env (t.start server carbon) carbon.queue).server.heap[id]? := by
        simp only [tick, hc, hconn, ne_eq, not_true, if_false]
        rfl
      have hstart : (t.start server carbon).server.heap[id]? = some metric := hm
      simp only [connects, hc, hconn, decide_true, true_and, holds_carbon hc, htick]
      by_cases hmem : id ∈ carbon.queue
      · obtain ⟨stats, sample_freq, hheap⟩ := visits_heap patterns t.env carbon.queue
          (hgood.once (List.mem_of_getElem? hc)) hmem hstart
        exact ⟨stats, sample_freq, by simp only [hheap, hmem, true_and]⟩
      · refine ⟨server.internal_stats, 0, ?_⟩
        rw [visits_other patterns t.env carbon.queue hmem, hstart, if_neg fun h => hmem h.1]
    · exact ⟨server.internal_stats, 0, by rw [tick_refused hc hconn]; simp [connects, hc, hconn, hm]⟩

/-- The same on a server whose metrics are where they should be. -/
theorem tick_metricOf {server : Server} (hgood : server.Good) (h : server.Placed) {key : Key}
    {metric : Metric} (hm : server.metricOf key = some metric) (patterns : Patterns) (t : Tick) :
    ∃ stats sample_freq, (server.tick patterns t).1.metricOf key =
      some (if server.connects t = true ∧ t.backend = server.shardOf key ∧
          EXPIRE_DISABLED < metric.expire then (metric.sample stats sample_freq).2.1 else metric) := by
  obtain ⟨id, hid, hm⟩ := metricOf_some hm
  simp only [← h.shard hid, ← holds_iff]
  exact tick_metricOf_held hgood hid hm patterns t

end Server
end Brubeck
