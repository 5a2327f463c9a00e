import Brubeck.Queues

/-!
# Brubeck.Startup

The start of a server, one atomic step at a time, with the threads it has already started: backends
tick and workers handle packets while `brubeck_internal__init` is between two of its steps.
`brubeck_metric_new` puts the internal metric into the table and into its queue before its pointer
is set, and a client may have made a metric under the server's name before.

* `Startup.step`: a step of the main thread, or an event of the running server. Main steps without
  interruption are `internalInit` (`init_alone`).
* `mem_samples`: which metrics a tick calls `brubeck_metric_sample` on.
* `Undisturbed`: the ticks and packets that do not get in the way.
* `internal_ready`: when nothing does, the metric is ready before it is sampled.
-/

namespace Brubeck
namespace Server

open Lib Statsd

/-! ## What a tick samples -/

/-- The metrics that `brubeck_metric_sample` is called on in a pass over a queue. -/
def sampledIn (patterns : Patterns) (env : Nat → Answer) : Visiting → List Nat → List Metric
  | _, [] => []
  | st, id :: queue =>
    let rest := sampledIn patterns env (visit patterns env st id) queue
    match st.server.heap[id]? with
    | none => rest
    | some metric => if EXPIRE_DISABLED < metric.expire then metric :: rest else rest

/-- The same for a whole tick. -/
def samples (server : Server) (patterns : Patterns) (t : Tick) : List Metric :=
  match server.backends[t.backend]? with
  | none => []
  | some carbon =>
    if (carbon.connect t.grant).1 ≠ 0 then []
    else sampledIn patterns t.env (t.start server carbon) carbon.queue

theorem mem_sampledIn (patterns : Patterns) (env : Nat → Answer) {metric : Metric} (queue : List Nat) :
    queue.Nodup → ∀ {st : Visiting}, metric ∈ sampledIn patterns env st queue ↔
      ∃ id ∈ queue, st.server.heap[id]? = some metric ∧ EXPIRE_DISABLED < metric.expire := by
  induction queue with
  | nil => intro _ st; simp [sampledIn]
  | cons id queue ih =>
    intro hnd st
    rw [List.nodup_cons] at hnd
    -- the metrics after this one are as they were before its turn
    have hrest : metric ∈ sampledIn patterns env (visit patterns env st id) queue ↔
        ∃ j ∈ queue, st.server.heap[j]? = some metric ∧ EXPIRE_DISABLED < metric.expire := by
      rw [ih hnd.2]
      refine exists_congr fun j => and_congr_right fun hj => ?_
      have hne : id ≠ j := by rintro rfl; exact hnd.1 hj
      rw [visit_other patterns env st hne]
    rw [List.exists_mem_cons_iff, ← hrest, sampledIn]
    cases hm : st.server.heap[id]? with
    | none => simp
    | some found =>
      by_cases hexp : EXPIRE_DISABLED < found.expire
      · simp only [if_pos hexp, List.mem_cons, Option.some.injEq]
        constructor
        · rintro (rfl | h)
          · exact .inl ⟨rfl, hexp⟩
          · exact .inr h
        · rintro (⟨rfl, -⟩ | h)
          · exact .inl rfl
          · exact .inr h
      · simp only [if_neg hexp, Option.some.injEq]
        constructor
        · exact .inr
        · rintro (⟨rfl, h⟩ | h)
          · exact absurd h hexp
          · exact h

/-- What is queued is in the table. -/
theorem Good.held {server : Server} (h : server.Good) {b id : Nat} (hheld : server.Holds b id) :
    ∃ key, server.table.lookup key = some id := by
  obtain ⟨queue, hqueue, hid⟩ := holds_iff.mp hheld
  rw [queues, List.getElem?_map] at hqueue
  obtain ⟨carbon, hcarbon, rfl⟩ := Option.map_eq_some_iff.mp hqueue
  exact h.queued (List.mem_of_getElem? hcarbon) hid

theorem mem_samples {patterns : Patterns} {server : Server} (hgood : server.Good) {t : Tick}
    {metric : Metric} : metric ∈ server.samples patterns t ↔
      server.connects t = true ∧ ∃ id, server.Holds t.backend id ∧ server.heap[id]? = some metric ∧
        EXPIRE_DISABLED < metric.expire := by
  cases hc : server.backends[t.backend]? with
  | none => simp [samples, connects, hc]
  | some carbon =>
    by_cases hconn : (carbon.connect t.grant).1 = 0
    · have hnd := hgood.once (List.mem_of_getElem? hc)
      simp only [samples, connects, hc, hconn, ne_eq, not_true, if_false, decide_true, true_and]
      rw [mem_sampledIn patterns t.env carbon.queue hnd]
      exact exists_congr fun id => and_congr_left fun _ => (holds_carbon hc id).symm
    · simp [samples, connects, hc, hconn]

/-! ## What no event undoes -/

/-- The table keeps its entries, no metric in it changes its queue, and an internal metric keeps its
type and its pointer. -/
structure Keeps (server server' : Server) : Prop where
  length : server'.queues.length = server.queues.length
  lookup : ∀ {key id}, server.table.lookup key = some id → server'.table.lookup key = some id
  holds : ∀ {key id}, server.table.lookup key = some id →
    ∀ b, server'.Holds b id ↔ server.Holds b id
  internal : ∀ {key metric}, server.metricOf key = some metric → metric.type = .internalStats →
    ∃ metric', server'.metricOf key = some metric' ∧ metric'.type = .internalStats ∧
      metric'.as.other = metric.as.other

theorem Keeps.refl (server : Server) : Keeps server server :=
  ⟨rfl, id, fun _ _ => Iff.rfl, fun hm ht => ⟨_, hm, ht, rfl⟩⟩

theorem Keeps.trans {a b c : Server} (h : Keeps a b) (h' : Keeps b c) : Keeps a c where
  length := h'.length.trans h.length
  lookup := fun hid => h'.lookup (h.lookup hid)
  holds := fun hid b => (h'.holds (h.lookup hid) b).trans (h.holds hid b)
  internal := by
    intro key metric hm ht
    obtain ⟨metric₁, hm₁, ht₁, ho₁⟩ := h.internal hm ht
    obtain ⟨metric₂, hm₂, ht₂, ho₂⟩ := h'.internal hm₁ ht₁
    exact ⟨metric₂, hm₂, ht₂, ho₂.trans ho₁⟩

theorem Keeps.of_same {server server' : Server} (htable : server'.table = server.table)
    (hqueues : server'.queues = server.queues)
    (hinternal : ∀ {key metric}, server.metricOf key = some metric → metric.type = .internalStats →
      ∃ metric', server'.metricOf key = some metric' ∧ metric'.type = .internalStats ∧
        metric'.as.other = metric.as.other) : Keeps server server' where
  length := by rw [hqueues]
  lookup := fun hid => by rwa [htable]
  holds := fun _ b => by rw [Holds, Holds, hqueues]
  internal := hinternal

theorem Keeps.of_map {server server' : Server} (htable : server'.table = server.table)
    (hqueues : server'.queues = server.queues)
    (hmap : ∀ key, (server'.metricOf key).map (fun metric => (metric.type, metric.as.other)) =
      (server.metricOf key).map fun metric => (metric.type, metric.as.other)) :
    Keeps server server' := by
  refine .of_same htable hqueues ?_
  intro key metric hm ht
  have hsame := hmap key
  rw [hm, Option.map_some] at hsame
  obtain ⟨metric', hm', heq⟩ := Option.map_eq_some_iff.mp hsame
  obtain ⟨htype, hother⟩ := Prod.mk.inj heq
  exact ⟨metric', hm', htype.trans ht, hother⟩

theorem handle_elsewhere {server server' : Server} (h : server.Good) {o : Option Reading}
    (ho : ∀ r, o = some r → Readable r) (hhandle : server.handle o = some server') {key : Key}
    (hkey : ∀ r, o = some r → r.key ≠ key) : server'.metricOf key = server.metricOf key := by
  cases o with
  | none => cases hhandle; rfl
  | some r =>
    obtain ⟨-, hline⟩ := h.handle_line (ho r rfl).key hhandle
    obtain ⟨metric, -, hstore⟩ := Option.map_eq_some_iff.mp hline
    rw [← hstore, Function.update_of_ne (hkey r rfl).symm]

theorem holds_added {server : Server} {key : Key} {type : MetricType} {id : Nat}
    (hid : id < server.heap.length) (b : Nat) :
    (server.added key type).Holds b id ↔ server.Holds b id := by
  rw [Holds, Holds, added_queues, List.getElem?_modify]
  cases server.queues[b]? with
  | none => rfl
  | some queue =>
    by_cases hb : server.shardOf (hashKey key) = b
    · simp [hb, Nat.ne_of_lt hid]
    · simp [hb]

theorem Inv.lookup_lt {server : Server} (h : server.Inv) {key : Key} {id : Nat}
    (hid : server.table.lookup key = some id) : id < server.heap.length := by
  obtain ⟨metric, hm, -⟩ := h.table hid
  exact (List.getElem?_eq_some_iff.mp hm).1

theorem handle_keeps {server server' : Server} (h : server.Good) {o : Option Reading}
    (ho : ∀ r, o = some r → Readable r) (hhandle : server.handle o = some server') :
    Keeps server server' := by
  have hinternal : ∀ {key metric}, server.metricOf key = some metric →
      metric.type = .internalStats → ∃ metric', server'.metricOf key = some metric' ∧
        metric'.type = .internalStats ∧ metric'.as.other = metric.as.other := by
    intro key metric hm ht
    refine ⟨metric, ?_, ht, rfl⟩
    rw [handle_elsewhere h ho hhandle, hm]
    -- a line for an internal metric would have called a missing function
    rintro r rfl rfl
    have hnone := (handle_good h ho).1.mpr ⟨r, rfl, by rw [typeOf, hm, Option.map_some, ht]⟩
    rw [hnone] at hhandle
    cases hhandle
  rcases handle_cases hhandle with ⟨htable, hbackends⟩ | ⟨key, type, hnew, htable, hbackends⟩
  · exact .of_same htable (congrArg (List.map Carbon.queue) hbackends) hinternal
  · have hqueues : server'.queues = (server.added key type).queues :=
      congrArg (List.map Carbon.queue) hbackends
    refine ⟨?_, ?_, ?_, hinternal⟩
    · rw [hqueues, added_queues, List.length_modify]
    · intro k id hid
      rw [htable, added_lookup, if_neg, hid]
      rintro rfl
      rw [show server.table.lookup (hashKey key) = none from hnew] at hid
      cases hid
    · intro k id hid b
      rw [← holds_added (h.toInv.lookup_lt hid) b, Holds, Holds, hqueues]

theorem step_keeps {patterns : Patterns} {server server' : Server} {e : Event} {out : List Sampled}
    (hgood : server.Good) (hstep : step patterns server e = some (server', out)) :
    Keeps server server' := by
  cases e with
  | packet mem buffer stop =>
    obtain ⟨hfold, rfl⟩ := step_packet hstep
    exact handleAll_rel Keeps.refl Keeps.trans segments_readable
      (fun ho hgood hhandle => handle_keeps hgood (fun r hr => segments_readable r (hr ▸ ho)) hhandle)
      hgood hfold
  | expire =>
    cases hstep
    obtain ⟨htable, hbackends⟩ := expireTick_same server
    exact .of_map htable (congrArg (List.map Carbon.queue) hbackends)
      (hgood.expireTick_map fun _ _ => rfl)
  | httpExpire key =>
    cases hstep
    obtain ⟨htable, hbackends⟩ := httpExpire_same server key
    exact .of_map htable (congrArg (List.map Carbon.queue) hbackends)
      (hgood.httpExpire_map (fun _ _ => rfl) key)
  | tick t =>
    rw [step, Option.some.injEq] at hstep
    obtain ⟨htable, hqueues⟩ := tick_same server patterns t
    rw [hstep] at htable hqueues
    refine .of_same htable hqueues ?_
    intro key metric hm ht
    obtain ⟨id, hid, hheap⟩ := metricOf_some hm
    obtain ⟨stats, sample_freq, hview⟩ := tick_metricOf_held hgood hid hheap patterns t
    rw [hstep] at hview
    refine ⟨_, hview, ?_⟩
    split
    · exact ⟨(metric.sample_type ..).trans ht, metric.sample_other ..⟩
    · exact ⟨ht, rfl⟩

theorem packet_elsewhere {server server' : Server} (h : server.Good) {mem : List Byte}
    {buffer stop : Nat} (hfold : (segments mem buffer stop).1.foldlM handle server = some server')
    {key : Key} (hkey : ∀ r ∈ accepted mem buffer stop, r.key ≠ key) :
    server'.metricOf key = server.metricOf key := by
  refine handleAll_rel (R := fun a b => b.metricOf key = a.metricOf key) (fun _ => rfl)
    (fun h h' => h'.trans h) segments_readable ?_ h hfold
  intro o server server' ho hgood hhandle
  refine handle_elsewhere hgood (fun r hr => segments_readable r (hr ▸ ho)) hhandle fun r hr => ?_
  exact hkey r (mem_accepted.mpr (hr ▸ ho))

/-! ## Starting -/

/-- Where the main thread is: how many threads `load_backends` or `load_samplers` has started, and
then the steps of `brubeck_internal__init` with its local pointer. -/
inductive Phase where
  | backends (n : Nat)
  | samplers (n : Nat)
  | insert
  | refind
  | register (id : Nat)
  | count (id : Nat)
  | setOther (id : Nat)
  | setFreq (id : Nat)
  | running
  deriving DecidableEq

structure Startup where
  server : Server
  phase : Phase

inductive Action where
  | main
  | world (e : Event)

/-- What a step does to metrics that is worth watching: a call of `brubeck_metric_sample`, and the
pointer set by `brubeck_internal__init`. Both come with the metric as it was before. -/
inductive Call where
  | sample (metric : Metric)
  | setOther (metric : Metric)

/-- `brubeck_metric_shard` of the metric at `id`. -/
def shardAt (server : Server) (id : Nat) : Nat := (server.heap[id]?.map server.metricShard).getD 0

/-- The main thread's next step; `none` when it dies or has left `brubeck_server_init`. -/
def mainStep (samplers : Nat) (overlay : As → As) (st : Startup) : Option (Startup × List Call) :=
  let server := st.server
  match st.phase with
  | .backends n =>
    some (⟨server, if n < server.backends.length then .backends (n + 1) else .samplers 0⟩, [])
  | .samplers n => some (⟨server, if n < samplers then .samplers (n + 1) else .insert⟩, [])
  | .insert =>
    let metric := newMetric server.name .internalStats
    let id := server.heap.length
    let server := { server with heap := server.heap ++ [metric] }
    match server.table.lookup metric.name with
    | some _ => some (⟨server, .refind⟩, [])
    | none => some (⟨{ server with table := (metric.name, id) :: server.table }, .register id⟩, [])
  | .refind =>
    match server.hashtableFind server.name with
    | none => none
    | some id => some (⟨server, .setOther id⟩, [])
  | .register id => some (⟨server.registerMetric (server.shardAt id) id, .count id⟩, [])
  | .count id =>
    some (⟨server.modifyLive fun live => { live with unique_keys := live.unique_keys + 1 },
      .setOther id⟩, [])
  | .setOther id =>
    (server.heap[id]?).map fun metric =>
      (⟨server.modifyMetric id (setOther overlay), .setFreq id⟩, [.setOther metric])
  | .setFreq id =>
    let sample_freq := (server.backends[server.shardAt id]?.map Carbon.sample_freq).getD 0
    some (⟨{ server with
      internal_stats := { server.internal_stats with sample_freq := sample_freq } }, .running⟩, [])
  | .running => none

/-- Whether the thread of an event has been started: a backend's, some sampler's, the HTTP endpoint's,
or the main loop. -/
def Phase.allows : Phase → Event → Bool
  | .backends n, .tick t => t.backend < n
  | .backends _, _ => false
  | .samplers _, .tick _ => true
  | .samplers n, .packet _ _ _ => 0 < n
  | .samplers _, _ => false
  | phase, .expire => phase = .running
  | _, _ => true

def callsOf (patterns : Patterns) (server : Server) : Event → List Call
  | .tick t => (server.samples patterns t).map .sample
  | _ => []

namespace Startup

def boot (config : Config) : Startup := ⟨Server.boot config, .backends 0⟩

def step (patterns : Patterns) (samplers : Nat) (overlay : As → As) (st : Startup) :
    Action → Option (Startup × List Call)
  | .main => mainStep samplers overlay st
  | .world e =>
    if st.phase.allows e then
      (Server.step patterns st.server e).map fun r =>
        (⟨r.1, st.phase⟩, callsOf patterns st.server e)
    else none

end Startup

theorem Startup.step_world {patterns : Patterns} {samplers : Nat} {overlay : As → As}
    {st st' : Startup} {e : Event} {calls : List Call}
    (h : st.step patterns samplers overlay (.world e) = some (st', calls)) :
    st.phase.allows e = true ∧ calls = callsOf patterns st.server e ∧
      ∃ server' out, Server.step patterns st.server e = some (server', out) ∧
        st' = ⟨server', st.phase⟩ := by
  simp only [step] at h
  split at h
  · rename_i hallows
    obtain ⟨⟨server', out⟩, hworld, heq⟩ := Option.map_eq_some_iff.mp h
    cases heq
    exact ⟨hallows, rfl, server', out, hworld, rfl⟩
  · cases h

/-- The internal metric in the table, and in no queue yet. -/
def inserted (server : Server) : Server :=
  { server with
    heap := server.heap ++ [newMetric server.name .internalStats]
    table := (hashKey server.name, server.heap.length) :: server.table }

theorem mainStep_insert (samplers : Nat) (overlay : As → As) {server : Server}
    (h : server.hashtableFind server.name = none) :
    mainStep samplers overlay ⟨server, .insert⟩ =
      some (⟨server.inserted, .register server.heap.length⟩, []) := by
  have hlookup : server.table.lookup (newMetric server.name .internalStats).name = none := h
  simp only [mainStep, hlookup]
  rfl

theorem mainStep_taken (samplers : Nat) (overlay : As → As) {server : Server} {id : Nat}
    (h : server.hashtableFind server.name = some id) :
    mainStep samplers overlay ⟨server, .insert⟩ =
      some (⟨{ server with heap := server.heap ++ [newMetric server.name .internalStats] },
        .refind⟩, []) := by
  have hlookup : server.table.lookup (newMetric server.name .internalStats).name = some id := h
  simp only [mainStep, hlookup]

theorem inserted_heap (server : Server) :
    server.inserted.heap[server.heap.length]? = some (newMetric server.name .internalStats) := by
  simp [inserted]

/-- The last steps of `brubeck_internal__init`. -/
theorem finish_alone (patterns : Patterns) (samplers : Nat) (overlay : As → As) {server : Server}
    {id : Nat} {metric : Metric} (hm : server.heap[id]? = some metric) :
    Machine.run (Startup.step patterns samplers overlay) ⟨server, .setOther id⟩ [.main, .main] =
      some (⟨{ server.modifyMetric id (setOther overlay) with
        internal_stats := { server.internal_stats with
          sample_freq := ((server.modifyMetric id (setOther overlay)).backends[
            (server.modifyMetric id (setOther overlay)).shardAt id]?.map Carbon.sample_freq).getD 0 } },
        .running⟩, [.setOther metric]) := by
  have hset : Startup.step patterns samplers overlay ⟨server, .setOther id⟩ .main =
      some (⟨server.modifyMetric id (setOther overlay), .setFreq id⟩, [.setOther metric]) := by
    simp only [Startup.step, mainStep, hm, Option.map_some]
  exact Machine.run_step hset rfl

/-- The steps of `brubeck_internal__init` without interruption. -/
theorem init_alone (patterns : Patterns) (samplers : Nat) (overlay : As → As) {server : Server}
    (hinv : server.Inv) :
    ∃ n calls, Machine.run (Startup.step patterns samplers overlay) ⟨server, .insert⟩
      (List.replicate n .main) = some (⟨server.internalInit overlay, .running⟩, calls) := by
  cases hfind : server.hashtableFind server.name with
  | none =>
    let registered := server.inserted.registerMetric (server.inserted.shardAt server.heap.length)
      server.heap.length
    have hshard : server.inserted.shardAt server.heap.length =
        server.inserted.metricShard (newMetric server.name .internalStats) := by
      rw [shardAt, inserted_heap]
      rfl
    have hinsert : Startup.step patterns samplers overlay ⟨server, .insert⟩ .main =
        some (⟨server.inserted, .register server.heap.length⟩, []) :=
      mainStep_insert samplers overlay hfind
    have hregister : Startup.step patterns samplers overlay
        ⟨server.inserted, .register server.heap.length⟩ .main =
        some (⟨registered, .count server.heap.length⟩, []) := rfl
    have hcount : Startup.step patterns samplers overlay ⟨registered, .count server.heap.length⟩ .main =
        some (⟨server.added server.name .internalStats, .setOther server.heap.length⟩, []) := by
      simp only [Startup.step, mainStep, registered, hshard]
      rfl
    have hrun := finish_alone patterns samplers overlay
      (show (server.added server.name .internalStats).heap[server.heap.length]? = _ from
        server.inserted_heap)
    refine ⟨5, [.setOther (newMetric server.name .internalStats)], ?_⟩
    simp only [internalInit, metricNew_new hfind]
    exact Machine.run_step hinsert (Machine.run_step hregister (Machine.run_step hcount hrun))
  | some id =>
    obtain ⟨metric, hm, -⟩ := (hinv.append (newMetric server.name .internalStats)).table hfind
    have hinsert : Startup.step patterns samplers overlay ⟨server, .insert⟩ .main =
        some (⟨{ server with heap := server.heap ++ [newMetric server.name .internalStats] },
          .refind⟩, []) := mainStep_taken samplers overlay hfind
    have hrefind : Startup.step patterns samplers overlay
        ⟨{ server with heap := server.heap ++ [newMetric server.name .internalStats] }, .refind⟩ .main =
        some (⟨{ server with heap := server.heap ++ [newMetric server.name .internalStats] },
          .setOther id⟩, []) := by
      have hsame : hashtableFind { server with
        heap := server.heap ++ [newMetric server.name .internalStats] } server.name = some id := hfind
      simp only [Startup.step, mainStep, hsame]
    refine ⟨4, [.setOther metric], ?_⟩
    simp only [internalInit, metricNew_old hfind]
    exact Machine.run_step hinsert
      (Machine.run_step hrefind (finish_alone patterns samplers overlay hm))

/-! ## Getting in the way -/

/-- Nothing gets in the way of `brubeck_internal__init`: no tick samples the metric while it is in its
queue without its pointer, and no client has made a metric under the server's name before. -/
def Undisturbed (st : Startup) : Action → Prop
  | .world (.tick t) =>
    match st.phase with
    | .count id | .setOther id => ∀ metric, st.server.heap[id]? = some metric →
        EXPIRE_DISABLED < metric.expire → st.server.connects t = true → t.backend ≠ st.server.shardAt id
    | _ => True
  | .world (.packet mem buffer stop) =>
    match st.phase with
    | .samplers _ | .insert => ∀ r ∈ accepted mem buffer stop, r.key ≠ hashKey st.server.name
    | _ => True
  | _ => True

/-- The internal metric is in the table, and its pointer is not set. -/
structure Waiting (server : Server) (id : Nat) : Prop where
  lookup : server.table.lookup (hashKey server.name) = some id
  metric : ∃ metric, server.metricOf (hashKey server.name) = some metric ∧
    metric.type = .internalStats ∧ metric.as.other = false
  sole : ∀ {key}, server.typeOf key = some .internalStats → key = hashKey server.name

def Ready (server : Server) : Prop :=
  ∀ key metric, server.metricOf key = some metric → metric.type = .internalStats →
    metric.as.other = true

def Phase.Inv (server : Server) : Phase → Prop
  | .backends _ | .samplers _ | .insert =>
    (∀ key, server.typeOf key ≠ some .internalStats) ∧ server.metricOf (hashKey server.name) = none
  | .refind => False
  | .register id => Waiting server id ∧ ∀ b, ¬ server.Holds b id
  | .count id | .setOther id =>
    Waiting server id ∧ ∀ b, server.Holds b id ↔ b = server.shardOf (hashKey server.name)
  | .setFreq _ | .running => Ready server

theorem Waiting.keeps {server server' : Server} {id : Nat} (h : Waiting server id)
    (hkeeps : Keeps server server') (hgrows : Grows server server') : Waiting server' id where
  lookup := by
    rw [hgrows.name]
    exact hkeeps.lookup h.lookup
  metric := by
    obtain ⟨metric, hm, ht, ho⟩ := h.metric
    obtain ⟨metric', hm', ht', ho'⟩ := hkeeps.internal hm ht
    exact ⟨metric', by rw [hgrows.name]; exact hm', ht', ho'.trans ho⟩
  sole := fun hkey => by
    rw [hgrows.name]
    exact h.sole (hgrows.internal.mp hkey)

theorem Ready.keeps {server server' : Server} (h : Ready server) (hkeeps : Keeps server server')
    (hgrows : Grows server server') : Ready server' := by
  intro key metric' hm' ht'
  have htype : server.typeOf key = some .internalStats :=
    hgrows.internal.mp (by rw [typeOf, hm', Option.map_some, ht'])
  obtain ⟨metric, hm, ht⟩ := Option.map_eq_some_iff.mp htype
  obtain ⟨metric₁, hm₁, -, ho⟩ := hkeeps.internal hm ht
  rw [hm'] at hm₁
  cases hm₁
  exact ho.trans (h key metric hm ht)

theorem Waiting.shardAt {server : Server} {id : Nat} (h : Waiting server id) (hgood : server.Good) :
    server.shardAt id = server.shardOf (hashKey server.name) := by
  obtain ⟨metric, hm, hname⟩ := hgood.table h.lookup
  rw [Server.shardAt, hm, Option.map_some, Option.getD_some, shardOf_eq, hname]

theorem Inv.lookup_none {server : Server} (h : server.Inv) {key : Key}
    (hnone : server.metricOf key = none) : server.table.lookup key = none := by
  cases hid : server.table.lookup key with
  | none => rfl
  | some id =>
    obtain ⟨metric, hm, -⟩ := h.table hid
    rw [metricOf_eq hid, hm] at hnone
    cases hnone

/-- Only a line for a key can add it. -/
theorem step_none {patterns : Patterns} {server server' : Server} {e : Event} {out : List Sampled}
    (hgood : server.Good) (hstep : step patterns server e = some (server', out)) {key : Key}
    (hpacket : ∀ mem buffer stop, e = .packet mem buffer stop →
      ∀ r ∈ accepted mem buffer stop, r.key ≠ key)
    (hnone : server.metricOf key = none) : server'.metricOf key = none := by
  have hlookup := hgood.toInv.lookup_none hnone
  cases e with
  | packet mem buffer stop =>
    obtain ⟨hfold, -⟩ := step_packet hstep
    rw [packet_elsewhere hgood hfold (hpacket mem buffer stop rfl), hnone]
  | expire =>
    cases hstep
    exact metricOf_none (by rw [(expireTick_same server).1]; exact hlookup)
  | httpExpire k =>
    cases hstep
    exact metricOf_none (by rw [(httpExpire_same server k).1]; exact hlookup)
  | tick t =>
    rw [step, Option.some.injEq] at hstep
    have htable := (tick_same server patterns t).1
    rw [hstep] at htable
    exact metricOf_none (by rw [htable]; exact hlookup)

/-- An event keeps the invariant of its phase. -/
theorem world_phase {patterns : Patterns} {server server' : Server} {phase : Phase} {e : Event}
    {out : List Sampled} (hgood : server.Good) (h : phase.Inv server)
    (hcond : Undisturbed ⟨server, phase⟩ (.world e)) (hallows : phase.allows e = true)
    (hstep : step patterns server e = some (server', out)) : phase.Inv server' := by
  obtain ⟨-, hgrows⟩ := step_good hgood hstep
  have hkeeps := step_keeps hgood hstep
  have hshard : server'.shardOf (hashKey server'.name) = server.shardOf (hashKey server.name) := by
    rw [hgrows.name, shardOf, shardOf, hkeeps.length]
  have hearly : (∀ mem buffer stop, e = .packet mem buffer stop →
      ∀ r ∈ accepted mem buffer stop, r.key ≠ hashKey server.name) →
      ((∀ key, server.typeOf key ≠ some .internalStats) ∧
        server.metricOf (hashKey server.name) = none) →
      (∀ key, server'.typeOf key ≠ some .internalStats) ∧
        server'.metricOf (hashKey server'.name) = none := by
    rintro hpacket ⟨htypes, hnone⟩
    refine ⟨fun key hkey => htypes key (hgrows.internal.mp hkey), ?_⟩
    rw [hgrows.name]
    exact step_none hgood hstep hpacket hnone
  cases phase with
  | backends n =>
    refine hearly ?_ h
    rintro mem buffer stop rfl
    cases hallows
  | samplers n =>
    refine hearly ?_ h
    rintro mem buffer stop rfl
    exact hcond
  | insert =>
    refine hearly ?_ h
    rintro mem buffer stop rfl
    exact hcond
  | refind => exact h
  | register id =>
    exact ⟨h.1.keeps hkeeps hgrows, fun b hb => h.2 b ((hkeeps.holds h.1.lookup b).mp hb)⟩
  | count id | setOther id =>
    refine ⟨h.1.keeps hkeeps hgrows, fun b => ?_⟩
    rw [hkeeps.holds h.1.lookup, h.2, hshard]
  | setFreq id => exact Ready.keeps h hkeeps hgrows
  | running => exact Ready.keeps h hkeeps hgrows

/-- A tick that does not get in the way samples internal metrics whose pointer is set. -/
theorem world_calls {patterns : Patterns} {server : Server} {phase : Phase} {t : Tick}
    (hgood : server.Good) (h : phase.Inv server)
    (hcond : Undisturbed ⟨server, phase⟩ (.world (.tick t))) {metric : Metric}
    (hmem : metric ∈ server.samples patterns t) (htype : metric.type = .internalStats) :
    metric.as.other = true := by
  obtain ⟨hconn, id, hholds, hm, hexp⟩ := (mem_samples hgood).mp hmem
  obtain ⟨key, hid⟩ := hgood.held hholds
  have hkey : server.metricOf key = some metric := by rw [metricOf_eq hid, hm]
  have hinternal : server.typeOf key = some .internalStats := by
    rw [typeOf, hkey, Option.map_some, htype]
  -- while the metric waits it is the only one of its type
  have hself : ∀ {id'}, Waiting server id' → id' = id := by
    intro id' hw
    rw [hw.sole hinternal] at hid
    exact Option.some.inj (hw.lookup.symm.trans hid)
  have hqueued : ∀ {id'}, Waiting server id' →
      (∀ b, server.Holds b id' ↔ b = server.shardOf (hashKey server.name)) →
      (∀ metric, server.heap[id']? = some metric → EXPIRE_DISABLED < metric.expire →
        server.connects t = true → t.backend ≠ server.shardAt id') → False := by
    intro id' hw hshard hnot
    obtain rfl := hself hw
    refine hnot metric hm hexp hconn ?_
    rw [hw.shardAt hgood]
    exact (hshard _).mp hholds
  cases phase with
  | backends n => exact absurd hinternal (h.1 key)
  | samplers n => exact absurd hinternal (h.1 key)
  | insert => exact absurd hinternal (h.1 key)
  | refind => exact h.elim
  | register id' =>
    obtain rfl := hself h.1
    exact absurd hholds (h.2 _)
  | count id' => exact (hqueued h.1 h.2 hcond).elim
  | setOther id' => exact (hqueued h.1 h.2 hcond).elim
  | setFreq id' => exact h key metric hkey htype
  | running => exact h key metric hkey htype

theorem inserted_lookup (server : Server) (key : Key) :
    server.inserted.table.lookup key =
      if key = hashKey server.name then some server.heap.length else server.table.lookup key :=
  Assoc.lookup_cons (hashKey server.name) server.heap.length server.table key

theorem inserted_good {server : Server} (h : server.Good)
    (hnone : server.hashtableFind server.name = none) : server.inserted.Good where
  keys := (h.toInv.added hnone .internalStats).keys
  table := (h.toInv.added hnone .internalStats).table
  queued := by
    intro carbon id hmem hid
    obtain ⟨key, hkey⟩ := h.queued hmem hid
    refine ⟨key, ?_⟩
    rw [inserted_lookup, if_neg, hkey]
    rintro rfl
    rw [show server.table.lookup (hashKey server.name) = none from hnone] at hkey
    cases hkey
  once := h.once
  capacity := h.capacity

theorem metricOf_inserted {server : Server} (h : server.Good) (key : Key) :
    server.inserted.metricOf key =
      if key = hashKey server.name then some (newMetric server.name .internalStats)
      else server.metricOf key := by
  rw [← h.toInv.metricOf_added server.name .internalStats key]
  rfl

theorem inserted_waiting {server : Server} (h : server.Good)
    (htypes : ∀ key, server.typeOf key ≠ some .internalStats) :
    Waiting server.inserted server.heap.length where
  lookup := by
    rw [inserted_lookup]
    exact if_pos rfl
  metric := by
    refine ⟨newMetric server.name .internalStats, ?_, rfl, rfl⟩
    rw [metricOf_inserted h]
    exact if_pos rfl
  sole := by
    intro key hkey
    by_contra hne
    have hne : key ≠ hashKey server.name := hne
    rw [typeOf, metricOf_inserted h, if_neg hne] at hkey
    exact htypes key hkey

theorem registerMetric_good {server : Server} (h : server.Good) {id b : Nat} {key : Key}
    (hid : server.table.lookup key = some id) (hnot : ∀ b, ¬ server.Holds b id) :
    (server.registerMetric b id).Good where
  keys := h.keys
  table := h.table
  queued := by
    intro carbon j hmem hj
    rcases mem_modifyBackend hmem with hold | ⟨old, hold, rfl⟩
    · exact h.queued hold hj
    · rcases List.mem_cons.mp hj with rfl | hj
      · exact ⟨key, hid⟩
      · exact h.queued (List.mem_of_getElem? hold) hj
  once := by
    intro carbon hmem
    rcases mem_modifyBackend hmem with hold | ⟨old, hold, rfl⟩
    · exact h.once hold
    · refine List.nodup_cons.mpr ⟨fun hmem => hnot b ?_, h.once (List.mem_of_getElem? hold)⟩
      exact (holds_carbon hold id).mpr hmem
  capacity := h.capacity

theorem holds_register {server : Server} {b id : Nat} (hb : b < server.queues.length) (c j : Nat) :
    (server.registerMetric b id).Holds c j ↔ (c = b ∧ j = id) ∨ server.Holds c j := by
  rw [queues, List.length_map] at hb
  rw [Holds, Holds, queues, queues, registerMetric, modifyBackend]
  dsimp only
  rw [List.getElem?_map, List.getElem?_map, List.getElem?_modify]
  by_cases hc : b = c
  · subst hc
    simp [List.getElem?_eq_getElem hb]
  · have hne : ¬ c = b := fun h => hc h.symm
    cases server.backends[c]? <;> simp [hc, hne]

/-- Registering puts a metric that waits into the queue of its shard. -/
theorem Waiting.registered {server : Server} {id : Nat} (hw : Waiting server id) (hgood : server.Good)
    (hnot : ∀ b, ¬ server.Holds b id) (b : Nat) :
    (server.registerMetric (server.shardAt id) id).Holds b id ↔
      b = (server.registerMetric (server.shardAt id) id).shardOf (hashKey server.name) := by
  have hshard := hw.shardAt hgood
  have hsame : (server.registerMetric (server.shardAt id) id).shardOf (hashKey server.name) =
      server.shardAt id := by
    rw [hshard, shardOf, shardOf, queues, queues, registerMetric, modifyBackend]
    simp only [List.length_map, List.length_modify]
  rw [holds_register (by rw [hshard]; exact server.shardOf_lt _), or_iff_left (hnot b),
    and_iff_left rfl, hsame]

/-- Once its pointer is set, the metric that waited is ready. -/
theorem Waiting.ready {server : Server} {id : Nat} (hw : Waiting server id) (hgood : server.Good)
    (overlay : As → As) : Ready (server.modifyMetric id (setOther overlay)) := by
  intro key metric' hm' htype'
  rw [hgood.toInv.metricOf_modify hw.lookup] at hm'
  by_cases hkey : key = hashKey server.name
  · obtain ⟨metric, hm, -⟩ := hw.metric
    rw [if_pos hkey, hkey, hm] at hm'
    cases hm'
    rfl
  · rw [if_neg hkey] at hm'
    exact absurd (hw.sole (by rw [typeOf, hm', Option.map_some, htype'])) hkey

/-- What `call` should be: an internal metric is sampled with its pointer set, and the pointer is set
in a metric of the internal type. -/
def Call.Fine : Call → Prop
  | .sample metric => metric.type = .internalStats → metric.as.other = true
  | .setOther metric => metric.type = .internalStats

/-- A step of the main thread takes the invariant of its phase to that of the next. -/
theorem main_phase {samplers : Nat} {overlay : As → As} {server : Server} {phase : Phase}
    {st' : Startup} {calls : List Call} (hgood : server.Good) (h : phase.Inv server)
    (hstep : mainStep samplers overlay ⟨server, phase⟩ = some (st', calls)) :
    st'.server.Good ∧ st'.phase.Inv st'.server ∧ ∀ call ∈ calls, call.Fine := by
  cases phase with
  | backends n =>
    cases hstep
    refine ⟨hgood, ?_, by simp⟩
    dsimp only
    split <;> exact h
  | samplers n =>
    cases hstep
    refine ⟨hgood, ?_, by simp⟩
    dsimp only
    split <;> exact h
  | insert =>
    have hnone : server.hashtableFind server.name = none := hgood.toInv.lookup_none h.2
    rw [mainStep_insert samplers overlay hnone] at hstep
    cases hstep
    refine ⟨inserted_good hgood hnone, ⟨inserted_waiting hgood h.1, fun b hb => ?_⟩, by simp⟩
    -- the queues are the old ones, and hold old metrics only
    have hold : server.Holds b server.heap.length := hb
    obtain ⟨key, hkey⟩ := hgood.held hold
    exact Nat.lt_irrefl _ (hgood.toInv.lookup_lt hkey)
  | refind => exact h.elim
  | register id =>
    cases hstep
    have hqueued := h.1.registered hgood h.2
    exact ⟨registerMetric_good hgood h.1.lookup h.2,
      ⟨⟨h.1.lookup, h.1.metric, h.1.sole⟩, hqueued⟩, by simp⟩
  | count id =>
    cases hstep
    refine ⟨hgood.modifyLive fun live => { live with unique_keys := live.unique_keys + 1 },
      ⟨⟨h.1.lookup, h.1.metric, h.1.sole⟩, h.2⟩, by simp⟩
  | setOther id =>
    obtain ⟨metric, hm, htype, -⟩ := h.1.metric
    have hheap : server.heap[id]? = some metric := by rw [← metricOf_eq h.1.lookup, hm]
    simp only [mainStep, hheap, Option.map_some, Option.some.injEq] at hstep
    cases hstep
    refine ⟨⟨hgood.toInv.modifyMetric id fun _ _ => rfl, hgood.capacity⟩, h.1.ready hgood overlay, ?_⟩
    intro call hcall
    rw [List.mem_singleton.mp hcall]
    exact htype
  | setFreq id =>
    cases hstep
    exact ⟨⟨⟨hgood.keys, hgood.table, hgood.queued, hgood.once⟩, hgood.capacity⟩, h, by simp⟩
  | running => cases hstep

/-- A step that does not get in the way keeps the invariant, and makes no bad call. -/
theorem undisturbed_step {patterns : Patterns} {samplers : Nat} {overlay : As → As} {st st' : Startup}
    {action : Action} {calls : List Call} (hgood : st.server.Good) (hphase : st.phase.Inv st.server)
    (hundisturbed : Undisturbed st action)
    (hstep : st.step patterns samplers overlay action = some (st', calls)) :
    st'.server.Good ∧ st'.phase.Inv st'.server ∧ ∀ call ∈ calls, call.Fine := by
  obtain ⟨server, phase⟩ := st
  cases action with
  | main => exact main_phase hgood hphase hstep
  | world e =>
    obtain ⟨hallows, rfl, server', out, hworld, rfl⟩ := Startup.step_world hstep
    refine ⟨(step_good hgood hworld).1, world_phase hgood hphase hundisturbed hallows hworld, ?_⟩
    cases e with
    | tick t =>
      intro call hcall
      obtain ⟨metric, hmetric, rfl⟩ := List.mem_map.mp hcall
      exact world_calls hgood hphase hundisturbed hmetric
    | packet mem buffer stop => intro call hcall; cases hcall
    | expire => intro call hcall; cases hcall
    | httpExpire key => intro call hcall; cases hcall

/-! ## What happens otherwise -/

/-- A client has a metric under the server's name, and `brubeck_internal__init` has not noticed or has
found it. -/
structure Taken (st : Startup) : Prop where
  good : st.server.Good
  type : ∃ type, st.server.typeOf (hashKey st.server.name) = some type ∧ type ≠ .internalStats
  phase : match st.phase with
    | .samplers _ | .insert | .refind => True
    | .setOther id => st.server.table.lookup (hashKey st.server.name) = some id
    | _ => False

theorem handleAll_known (segs : List (Option Reading)) (hsegs : ∀ r, some r ∈ segs → Readable r)
    {r : Reading} (hr : some r ∈ segs) : ∀ {server server' : Server}, server.Good →
      segs.foldlM handle server = some server' → server'.typeOf r.key ≠ none := by
  induction segs with
  | nil => cases hr
  | cons o segs ih =>
    intro server server' h hfold
    rw [List.foldlM_cons] at hfold
    obtain ⟨server₁, hhandle, hrest⟩ := Option.bind_eq_some_iff.mp hfold
    have ho : ∀ r, o = some r → Readable r := fun r hr => hsegs r (by simp [hr])
    have hrest' : ∀ r, some r ∈ segs → Readable r := fun r hr => hsegs r (List.mem_cons_of_mem _ hr)
    have hgood₁ := ((handle_good h ho).2 hhandle).1
    rcases List.mem_cons.mp hr with rfl | hr
    · -- the line itself: its metric is there afterwards, and stays
      obtain ⟨-, hline⟩ := h.handle_line (ho r rfl).key hhandle
      have htype := line_type hline r.key
      rw [if_pos rfl] at htype
      rw [((handleAll_good segs hrest' hgood₁).2 hrest).2.old htype]
      exact Option.some_ne_none _
    · exact ih hrest' hr hgood₁ hrest

/-- A tick of its backend samples a metric that waits in its queue. -/
theorem Waiting.sampled {server : Server} {id : Nat} (hw : Waiting server id) (hgood : server.Good)
    (hholds : ∀ b, server.Holds b id ↔ b = server.shardOf (hashKey server.name)) {t : Tick}
    (hnot : ¬ ∀ metric, server.heap[id]? = some metric → EXPIRE_DISABLED < metric.expire →
      server.connects t = true → t.backend ≠ server.shardAt id) (patterns : Patterns) :
    ∃ call ∈ callsOf patterns server (.tick t), ¬ call.Fine := by
  push Not at hnot
  obtain ⟨metric, hm, hexp, hconn, hbackend⟩ := hnot
  have hmem : metric ∈ server.samples patterns t := by
    refine (mem_samples hgood).mpr ⟨hconn, id, ?_, hm, hexp⟩
    rw [hholds, hbackend, hw.shardAt hgood]
  obtain ⟨metric', hm', htype, hother⟩ := hw.metric
  rw [metricOf_eq hw.lookup, hm] at hm'
  cases hm'
  refine ⟨.sample metric, List.mem_map_of_mem hmem, fun hfine => ?_⟩
  rw [hfine htype] at hother
  cases hother

/-- A line for the server's name takes it. -/
theorem packet_taken {patterns : Patterns} {server server' : Server} (hgood : server.Good)
    (htypes : ∀ key, server.typeOf key ≠ some .internalStats) {mem : List Byte} {buffer stop : Nat}
    {out : List Sampled} (hstep : step patterns server (.packet mem buffer stop) = some (server', out))
    (hnot : ¬ ∀ r ∈ accepted mem buffer stop, r.key ≠ hashKey server.name) :
    server'.Good ∧ ∃ type, server'.typeOf (hashKey server'.name) = some type ∧
      type ≠ .internalStats := by
  push Not at hnot
  obtain ⟨r, hr, hname⟩ := hnot
  obtain ⟨hgood', hgrows⟩ := step_good hgood hstep
  obtain ⟨hfold, -⟩ := step_packet hstep
  have hknown := handleAll_known _ segments_readable (mem_accepted.mp hr) hgood hfold
  obtain ⟨type, htype⟩ := Option.ne_none_iff_exists'.mp hknown
  rw [hname] at htype
  refine ⟨hgood', type, by rw [hgrows.name]; exact htype, ?_⟩
  rintro rfl
  exact htypes _ (hgrows.internal.mp htype)

/-- A step that gets in the way makes a bad call, or leaves the name taken. -/
theorem disturbed_step {patterns : Patterns} {samplers : Nat} {overlay : As → As} {st st' : Startup}
    {action : Action} {calls : List Call} (hgood : st.server.Good) (hphase : st.phase.Inv st.server)
    (hdisturbed : ¬ Undisturbed st action)
    (hstep : st.step patterns samplers overlay action = some (st', calls)) :
    (∃ call ∈ calls, ¬ call.Fine) ∨ Taken st' := by
  obtain ⟨server, phase⟩ := st
  cases action with
  | main => exact absurd trivial hdisturbed
  | world e =>
    obtain ⟨-, rfl, server', out, hworld, rfl⟩ := Startup.step_world hstep
    cases e with
    | tick t =>
      cases phase with
      | count id => exact .inl (hphase.1.sampled hgood hphase.2 hdisturbed patterns)
      | setOther id => exact .inl (hphase.1.sampled hgood hphase.2 hdisturbed patterns)
      | backends _ | samplers _ | insert | refind | register _ | setFreq _ | running =>
        exact absurd trivial hdisturbed
    | packet mem buffer stop =>
      cases phase with
      | samplers n =>
        obtain ⟨hgood', htype⟩ := packet_taken hgood hphase.1 hworld hdisturbed
        exact .inr ⟨hgood', htype, trivial⟩
      | insert =>
        obtain ⟨hgood', htype⟩ := packet_taken hgood hphase.1 hworld hdisturbed
        exact .inr ⟨hgood', htype, trivial⟩
      | backends _ | refind | register _ | count _ | setOther _ | setFreq _ | running =>
        exact absurd trivial hdisturbed
    | expire => exact absurd trivial hdisturbed
    | httpExpire key => exact absurd trivial hdisturbed

/-- A name that is taken stays taken until the pointer is set in the client's metric. -/
theorem Taken.step {patterns : Patterns} {samplers : Nat} {overlay : As → As} {st st' : Startup}
    {action : Action} {calls : List Call} (h : Taken st)
    (hstep : st.step patterns samplers overlay action = some (st', calls)) :
    (∃ call ∈ calls, ¬ call.Fine) ∨ Taken st' := by
  obtain ⟨server, phase⟩ := st
  obtain ⟨hgood, ⟨type, htype, hne⟩, hphase⟩ := h
  obtain ⟨metric, hm, rfl⟩ := Option.map_eq_some_iff.mp htype
  obtain ⟨id, hid, hheap⟩ := metricOf_some hm
  cases action with
  | main =>
    cases phase with
    | samplers n =>
      cases hstep
      refine .inr ⟨hgood, ⟨metric.type, htype, hne⟩, ?_⟩
      by_cases hn : n < samplers
      · simp only [if_pos hn]
      · simp only [if_neg hn]
    | insert =>
      have htaken : mainStep samplers overlay ⟨server, .insert⟩ = some (st', calls) := hstep
      rw [mainStep_taken samplers overlay hid] at htaken
      cases htaken
      refine .inr ⟨⟨hgood.toInv.append _, hgood.capacity⟩, ⟨metric.type, ?_, hne⟩, trivial⟩
      rw [← htype, typeOf, hgood.toInv.metricOf_append]
      rfl
    | refind =>
      have hfind : server.hashtableFind server.name = some id := hid
      simp only [Startup.step, mainStep, hfind] at hstep
      cases hstep
      exact .inr ⟨hgood, ⟨metric.type, htype, hne⟩, hid⟩
    | setOther id' =>
      obtain rfl : id = id' := Option.some.inj (hid.symm.trans hphase)
      simp only [Startup.step, mainStep, hheap, Option.map_some] at hstep
      cases hstep
      exact .inl ⟨.setOther metric, List.mem_singleton_self _, hne⟩
    | backends _ | register _ | count _ | setFreq _ | running => exact hphase.elim
  | world e =>
    obtain ⟨-, rfl, server', out, hworld, rfl⟩ := Startup.step_world hstep
    obtain ⟨hgood', hgrows⟩ := step_good hgood hworld
    have hkeeps := step_keeps hgood hworld
    refine .inr ⟨hgood', ⟨metric.type, by rw [hgrows.name]; exact hgrows.old htype, hne⟩, ?_⟩
    cases phase with
    | setOther id =>
      show server'.table.lookup (hashKey server'.name) = some id
      rw [hgrows.name]
      exact hkeeps.lookup hphase
    | samplers _ | insert | refind => trivial
    | backends _ | register _ | count _ | setFreq _ | running => exact hphase.elim

/-- A run that finishes from there sets the pointer in the client's metric. -/
theorem Taken.run {patterns : Patterns} {samplers : Nat} {overlay : As → As} {st st' : Startup}
    {actions : List Action} {calls : List Call} (h : Taken st)
    (hrun : Machine.run (Startup.step patterns samplers overlay) st actions = some (st', calls))
    (hdone : st'.phase = .running) : ∃ call ∈ calls, ¬ call.Fine := by
  refine (Machine.run_history (fun st calls => (∃ call ∈ calls, ¬ call.Fine) ∨ Taken st) ?_
    (.inr h) hrun).resolve_right fun htaken => ?_
  · rintro st action st' log calls (⟨call, hmem, hbad⟩ | htaken) hstep
    · exact .inl ⟨call, List.mem_append_left _ hmem, hbad⟩
    · rcases htaken.step hstep with ⟨call, hmem, hbad⟩ | htaken'
      · exact .inl ⟨call, List.mem_append_right _ hmem, hbad⟩
      · exact .inr htaken'
  · have hphase := htaken.phase
    rw [hdone] at hphase
    exact hphase

/-- In a run that finishes without a bad call, nothing got in the way. -/
theorem fine_along {patterns : Patterns} {samplers : Nat} {overlay : As → As} {actions : List Action} :
    ∀ {st st' : Startup} {calls : List Call}, st.server.Good → st.phase.Inv st.server →
      Machine.run (Startup.step patterns samplers overlay) st actions = some (st', calls) →
      st'.phase = .running → (∀ call ∈ calls, call.Fine) →
      Machine.Along (Startup.step patterns samplers overlay) Undisturbed st actions := by
  induction actions with
  | nil => intro st st' calls _ _ _ _ _; trivial
  | cons action actions ih =>
    intro st st' calls hgood hphase hrun hdone hfine
    obtain ⟨st₁, calls₁, calls₂, hstep, hrest, rfl⟩ := Machine.run_cons hrun
    have hundisturbed : Undisturbed st action := by
      by_contra hdisturbed
      rcases disturbed_step hgood hphase hdisturbed hstep with ⟨call, hmem, hbad⟩ | htaken
      · exact hbad (hfine call (List.mem_append_left _ hmem))
      · obtain ⟨call, hmem, hbad⟩ := htaken.run hrest hdone
        exact hbad (hfine call (List.mem_append_right _ hmem))
    refine ⟨hundisturbed, fun {st₂ calls'} hstep' => ?_⟩
    rw [hstep] at hstep'
    cases hstep'
    obtain ⟨hgood₁, hphase₁, -⟩ := undisturbed_step hgood hphase hundisturbed hstep
    exact ih hgood₁ hphase₁ hrest hdone fun call hmem => hfine call (List.mem_append_right _ hmem)

/-- **The internal metric is ready before it is sampled, when nothing gets in the way.** In a run of the
start-up with the threads it has started, every internal metric that is sampled has its pointer set,
and the pointer is set in a metric of the internal type, when no tick of the metric's backend comes
between its registration and the pointer, and no client's line for the server's name before its
insertion. When the start-up has finished, that is also the only way. -/
theorem internal_ready {patterns : Patterns} {samplers : Nat} {overlay : As → As} {config : Config}
    {actions : List Action} {st : Startup} {calls : List Call}
    (hrun : Machine.run (Startup.step patterns samplers overlay) (Startup.boot config) actions =
      some (st, calls)) :
    (Machine.Along (Startup.step patterns samplers overlay) Undisturbed (Startup.boot config) actions →
      (∀ metric, .sample metric ∈ calls → metric.type = .internalStats → metric.as.other = true) ∧
        ∀ metric, .setOther metric ∈ calls → metric.type = .internalStats) ∧
    (st.phase = .running →
      (∀ metric, .sample metric ∈ calls → metric.type = .internalStats → metric.as.other = true) →
      (∀ metric, .setOther metric ∈ calls → metric.type = .internalStats) →
      Machine.Along (Startup.step patterns samplers overlay) Undisturbed (Startup.boot config)
        actions) := by
  have hphase : (Startup.boot config).phase.Inv (Startup.boot config).server :=
    ⟨fun key h => (by cases h), rfl⟩
  refine ⟨fun hcond => ?_, fun hdone hsample hset => ?_⟩
  · have hfine : ∀ call ∈ calls, call.Fine := by
      refine (Machine.run_along Undisturbed (fun st calls => (st.server.Good ∧ st.phase.Inv st.server) ∧
        ∀ call ∈ calls, Call.Fine call) ?_ ⟨⟨boot_good config, hphase⟩, by simp⟩ hcond hrun).2
      rintro st action st' log calls ⟨⟨hgood, hphase⟩, hlog⟩ hundisturbed hstep
      obtain ⟨hgood', hphase', hcalls⟩ := undisturbed_step hgood hphase hundisturbed hstep
      refine ⟨⟨hgood', hphase'⟩, fun call hmem => ?_⟩
      exact (List.mem_append.mp hmem).elim (hlog call) (hcalls call)
    exact ⟨fun metric hmem => hfine _ hmem, fun metric hmem => hfine _ hmem⟩
  · refine fine_along (boot_good config) hphase hrun hdone fun call hmem => ?_
    cases call with
    | sample metric => exact hsample metric hmem
    | setOther metric => exact hset metric hmem

def firstTick : Tick := ⟨0, true, 7, fun _ => ⟨0, some 100⟩⟩

/-- Start-up to its end, and a tick after it. -/
def quietStart : List Action := List.replicate 9 .main ++ [.world (.tick firstTick)]

theorem internal_ready_quiet :
    ∃ st calls, Machine.run (Startup.step ⟨fun _ => 0, fun _ => 0⟩ 1 id) (Startup.boot defaultConfig)
        quietStart = some (st, calls) ∧ st.phase = .running ∧ calls.length = 2 ∧
      Machine.Along (Startup.step ⟨fun _ => 0, fun _ => 0⟩ 1 id) Undisturbed
        (Startup.boot defaultConfig) quietStart ∧
      ∀ metric, .sample metric ∈ calls → metric.type = .internalStats → metric.as.other = true := by
  let fresh := newMetric defaultConfig.name .internalStats
  have hrun : ∃ st, Machine.run (Startup.step ⟨fun _ => 0, fun _ => 0⟩ 1 id)
      (Startup.boot defaultConfig) quietStart =
        some (st, [.setOther fresh, .sample (setOther id fresh)]) ∧ st.phase = .running := ⟨_, rfl, rfl⟩
  obtain ⟨st, hrun, hdone⟩ := hrun
  obtain ⟨hfine, halong⟩ := internal_ready hrun
  have hcond := halong hdone
    (by
      intro metric hmem htype
      simp only [List.mem_cons, reduceCtorEq, Call.sample.injEq, List.not_mem_nil, or_false,
        false_or] at hmem
      rw [hmem]
      rfl)
    (by
      intro metric hmem
      simp only [List.mem_cons, reduceCtorEq, Call.setOther.injEq, List.not_mem_nil, or_false] at hmem
      rw [hmem]
      rfl)
  exact ⟨st, _, hrun, hdone, rfl, hcond, (hfine hcond).1⟩

/-- A tick between the registration and the pointer, and a client's line before the insertion. -/
theorem internal_unready :
    (∃ st metric, Machine.run (Startup.step ⟨fun _ => 0, fun _ => 0⟩ 1 id) (Startup.boot defaultConfig)
        (List.replicate 6 .main ++ [.world (.tick firstTick)]) = some (st, [.sample metric]) ∧
      metric.type = .internalStats ∧ metric.as.other = false) ∧
    ∃ st metric, Machine.run (Startup.step ⟨fun _ => 0, fun _ => 0⟩ 1 id) (Startup.boot defaultConfig)
        (List.replicate 3 .main ++ .world (.packet (str "brubeck:1|c".toList ++ [0]) 0 11) ::
          List.replicate 5 .main) = some (st, [.setOther metric]) ∧
      st.phase = .running ∧ metric.type = .meter :=
  ⟨⟨_, _, rfl, rfl, rfl⟩, _, _, rfl, rfl, rfl⟩

end Server
end Brubeck
