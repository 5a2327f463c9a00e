import Brubeck.Backend
import Brubeck.Lib.Machine
import Brubeck.Statsd.Packet

/-!
# Brubeck.Run

Whole runs of a server: packets, expiry ticks, HTTP requests and backend ticks in any order.
`brubeck_server_init` starts its samplers, backends and HTTP endpoint before it registers its own
metric, so events may come before `brubeck_internal__init` too.

* `Grows`: what no step undoes. A key keeps the type of its metric, and no key gets the internal
  type from a client.
* `step_good`, `run_good`: every step, and so every run, keeps a server good and grows it.
* `packetParse_good`: when a packet calls a missing record function.
* `dispatch_iff`: the same in every state of every run.
-/

namespace Brubeck
namespace Server

open Lib Statsd

inductive Event where
  | packet (mem : List Byte) (buffer stop : Nat)
  | expire
  | httpExpire (key : Key)
  | tick (t : Tick)

def step (patterns : Patterns) (server : Server) : Event → Option (Server × List Sampled)
  | .packet mem buffer stop => (packetParse server mem buffer stop).map fun r => (r.1, [])
  | .expire => some (server.expireTick, [])
  | .httpExpire key => some (server.httpExpire key, [])
  | .tick t => some (server.tick patterns t)

structure Config where
  name : Key
  backends : List Carbon
  backends_pos : 0 < backends.length
  queues : ∀ carbon ∈ backends, carbon.queue = []

/-- The server when its samplers and backends start. -/
def boot (config : Config) : Server where
  name := config.name
  at_capacity := false
  heap := []
  table := []
  backends := config.backends
  internal_stats := ⟨0, ⟨0, 0, 0, 0, 0, 0, 0⟩, ⟨0, 0, 0, 0, 0, 0, 0⟩⟩
  backends_pos := config.backends_pos

/-- A run of the program up to `server`: what happens before the internal metric is registered
leaves `before`, and what happens after that leaves `server`. -/
structure Reaches (patterns : Patterns) (config : Config) (before server : Server) : Prop where
  early : ∃ events out, Machine.run (step patterns) (boot config) events = some (before, out)
  late : ∃ overlay events out,
    Machine.run (step patterns) (before.internalInit overlay) events = some (server, out)

/-! ## What no step undoes -/

def typeOf (server : Server) (key : Key) : Option MetricType :=
  (server.metricOf key).map Metric.type

/-- A key keeps the type of its metric, and no key gets the internal type. -/
structure Grows (server server' : Server) : Prop where
  name : server'.name = server.name
  old : ∀ {key type}, server.typeOf key = some type → server'.typeOf key = some type
  new : ∀ {key}, server.typeOf key = none → server'.typeOf key ≠ some .internalStats

theorem Grows.refl (server : Server) : Grows server server where
  name := rfl
  old := id
  new := by
    intro key h
    rw [h]
    exact fun h => by cases h

theorem Grows.trans {a b c : Server} (h : Grows a b) (h' : Grows b c) : Grows a c where
  name := h'.name.trans h.name
  old := fun hk => h'.old (h.old hk)
  new := by
    intro key hk
    cases hb : b.typeOf key with
    | none => exact h'.new hb
    | some type =>
      rw [h'.old hb, ← hb]
      exact h.new hk

theorem Grows.of_types {server server' : Server} (hname : server'.name = server.name)
    (h : ∀ key, server'.typeOf key = server.typeOf key) : Grows server server' where
  name := hname
  old := fun hk => by rw [h, hk]
  new := fun hk => by rw [h, hk]; exact fun h => by cases h

theorem Grows.internal {server server' : Server} (h : Grows server server') {key : Key} :
    server'.typeOf key = some .internalStats ↔ server.typeOf key = some .internalStats := by
  constructor
  · intro h'
    cases hk : server.typeOf key with
    | none => exact absurd h' (h.new hk)
    | some type => rw [← h', h.old hk]
  · exact h.old

/-! ## Lines -/

theorem find_type (store : Store) (r : Reading) :
    (store.find r).type = ((store r.key).map Metric.type).getD r.type := by
  rw [Store.find]
  split
  · rename_i metric h; rw [h]; rfl
  · rename_i h; rw [h]; rfl

theorem record_eq_none {metric : Metric} {value sample_freq : Value} {modifiers : UInt8} :
    metric.record value sample_freq modifiers = none ↔ metric.type = .internalStats := by
  rw [Metric.record, Option.map_eq_none_iff, Metric.protoRecord_eq_none]

theorem record_type {metric metric' : Metric} {value sample_freq : Value} {modifiers : UInt8}
    (h : metric.record value sample_freq modifiers = some metric') : metric'.type = metric.type := by
  obtain ⟨record, -, rfl⟩ := Option.map_eq_some_iff.mp h
  rfl

theorem line_eq_none (store : Store) {r : Reading} (hr : r.type ≠ .internalStats) :
    store.line r = none ↔ (store r.key).map Metric.type = some .internalStats := by
  rw [Store.line, Option.map_eq_none_iff, record_eq_none, find_type]
  cases (store r.key).map Metric.type with
  | none => simp [hr]
  | some type => simp

theorem line_type {store store' : Store} {r : Reading} (h : store.line r = some store') (key : Key) :
    (store' key).map Metric.type =
      if key = r.key then some (((store r.key).map Metric.type).getD r.type)
      else (store key).map Metric.type := by
  obtain ⟨metric, hrec, rfl⟩ := Option.map_eq_some_iff.mp h
  rw [Function.update_apply]
  by_cases hk : key = r.key
  · rw [if_pos hk, if_pos hk, Option.map_some, record_type hrec, find_type]
  · rw [if_neg hk, if_neg hk]

theorem metricNew_name (server : Server) (key : Key) (type : MetricType) :
    (server.metricNew key type).2.name = server.name := by
  cases hfind : server.hashtableFind key with
  | none => rw [metricNew_new hfind]; rfl
  | some id => rw [metricNew_old hfind]

theorem metricFind_name (server : Server) (key : Key) (type : MetricType) :
    (server.metricFind key type).2.name = server.name := by
  rw [metricFind]
  split
  · split
    · rfl
    · exact metricNew_name server key type
  · rfl

theorem handle_name {server server' : Server} {o : Option Reading}
    (h : server.handle o = some server') : server'.name = server.name := by
  cases o with
  | none => cases h; rfl
  | some r =>
    simp only [handle] at h
    generalize hlive : (server.modifyLive fun live => { live with metrics := live.metrics + 1 }) = s
      at h
    have hs : s.name = server.name := by rw [← hlive]; rfl
    have hfind := metricFind_name s r.key r.type
    split at h
    · rename_i s₁ heq
      cases h
      rw [heq] at hfind
      exact hfind.trans hs
    · rename_i id s₁ heq
      rw [heq] at hfind
      obtain ⟨metric, rfl⟩ := metricRecord_some h
      exact hfind.trans hs

structure Readable (r : Reading) : Prop where
  key : r.key.length < 2 ^ 16
  type : r.type ≠ .internalStats

theorem handle_good {server : Server} (h : server.Good) {o : Option Reading}
    (ho : ∀ r, o = some r → Readable r) :
    (server.handle o = none ↔ ∃ r, o = some r ∧ server.typeOf r.key = some .internalStats) ∧
    ∀ {server'}, server.handle o = some server' → server'.Good ∧ Grows server server' := by
  cases o with
  | none =>
    obtain ⟨server₁, hhandle, hgood, hview⟩ := h.handle_error
    refine ⟨by simp [hhandle], fun {server'} h' => ?_⟩
    have hname := handle_name h'
    rw [hhandle] at h'
    cases h'
    exact ⟨hgood, .of_types hname fun key => by rw [typeOf, typeOf, hview]⟩
  | some r =>
    obtain ⟨hkey, htype⟩ := ho r rfl
    have hview := h.handle_view hkey
    have hline := line_eq_none server.metricOf htype
    cases hl : Store.line server.metricOf r with
    | none =>
      rw [hl] at hview hline
      have hint := hline.mp rfl
      exact ⟨iff_of_true hview ⟨r, rfl, hint⟩, fun h' => by rw [hview] at h'; cases h'⟩
    | some store =>
      rw [hl] at hview hline
      obtain ⟨server₁, hhandle, hgood, rfl⟩ := hview
      have hnot : server.typeOf r.key ≠ some .internalStats := fun h' => by
        cases hline.mpr h'
      refine ⟨iff_of_false (by rw [hhandle]; exact fun h => by cases h) ?_, fun {server'} h' => ?_⟩
      · rintro ⟨r', hr', hint⟩
        cases hr'
        exact hnot hint
      · have hname := handle_name h'
        rw [hhandle] at h'
        cases h'
        have htypes := line_type hl
        refine ⟨hgood, hname, fun {key type} hk => ?_, fun {key} hk => ?_⟩
        · rw [typeOf, htypes key]
          by_cases heq : key = r.key
          · subst heq
            rw [if_pos rfl, show (server.metricOf r.key).map Metric.type = some type from hk]
            rfl
          · rw [if_neg heq]; exact hk
        · rw [typeOf, htypes key]
          by_cases heq : key = r.key
          · subst heq
            rw [if_pos rfl, show (server.metricOf r.key).map Metric.type = none from hk]
            exact fun h => htype (Option.some.inj h)
          · rw [if_neg heq]
            rw [show (server.metricOf key).map Metric.type = none from hk]
            exact fun h => by cases h

/-! ## Packets -/

theorem handleAll_good (segs : List (Option Reading)) (hsegs : ∀ r, some r ∈ segs → Readable r) :
    ∀ {server : Server}, server.Good →
      (segs.foldlM handle server = none ↔
        ∃ r, some r ∈ segs ∧ server.typeOf r.key = some .internalStats) ∧
      ∀ {server'}, segs.foldlM handle server = some server' → server'.Good ∧ Grows server server' := by
  induction segs with
  | nil =>
    intro server h
    refine ⟨by simp, fun {server'} h' => ?_⟩
    cases h'
    exact ⟨h, .refl _⟩
  | cons o segs ih =>
    intro server h
    obtain ⟨hnone, hsome⟩ := handle_good h (o := o) fun r hr => hsegs r (by simp [hr])
    have ih := @ih fun r hr => hsegs r (List.mem_cons_of_mem _ hr)
    rw [List.foldlM_cons]
    cases hhandle : server.handle o with
    | none =>
      obtain ⟨r, rfl, hint⟩ := hnone.mp hhandle
      refine ⟨iff_of_true rfl ⟨r, by simp, hint⟩, fun h' => by cases h'⟩
    | some server₁ =>
      obtain ⟨hgood, hgrows⟩ := hsome hhandle
      obtain ⟨hnone₁, hsome₁⟩ := ih hgood
      refine ⟨?_, fun h' => ?_⟩
      · show segs.foldlM handle server₁ = none ↔ _
        rw [hnone₁]
        constructor
        · rintro ⟨r, hr, hint⟩
          exact ⟨r, List.mem_cons_of_mem _ hr, hgrows.internal.mp hint⟩
        · rintro ⟨r, hr, hint⟩
          rcases List.mem_cons.mp hr with heq | hr
          · rw [hnone.mpr ⟨r, heq.symm, hint⟩] at hhandle
            cases hhandle
          · exact ⟨r, hr, hgrows.internal.mpr hint⟩
      · obtain ⟨hg, hgr⟩ := hsome₁ h'
        exact ⟨hg, hgrows.trans hgr⟩

theorem accepted_readable {mem : List Byte} {buffer stop : Nat} {r : Reading}
    (h : r ∈ accepted mem buffer stop) : Readable r :=
  ⟨(accepted_key h).2, accepted_type h⟩

theorem mem_accepted {mem : List Byte} {buffer stop : Nat} {r : Reading} :
    r ∈ accepted mem buffer stop ↔ some r ∈ (segments mem buffer stop).1 := by
  simp [accepted, List.mem_filterMap]

theorem segments_readable {mem : List Byte} {buffer stop : Nat} :
    ∀ r, some r ∈ (segments mem buffer stop).1 → Readable r :=
  fun _ hr => accepted_readable (mem_accepted.mpr hr)

theorem packet_fold {server server' : Server} {mem mem' : List Byte} {buffer stop : Nat}
    (h : packetParse server mem buffer stop = some (server', mem')) :
    (segments mem buffer stop).1.foldlM handle server = some server' := by
  rw [packetParse_eq] at h
  obtain ⟨server₁, hfold, heq⟩ := Option.map_eq_some_iff.mp h
  cases heq
  exact hfold

/-- A packet that is handled is its lines, one after the other, and puts nothing out. -/
theorem step_packet {patterns : Patterns} {server server' : Server} {mem : List Byte}
    {buffer stop : Nat} {out : List Sampled}
    (h : step patterns server (.packet mem buffer stop) = some (server', out)) :
    (segments mem buffer stop).1.foldlM handle server = some server' ∧ out = [] := by
  obtain ⟨⟨server₁, mem'⟩, hpacket, heq⟩ := Option.map_eq_some_iff.mp h
  cases heq
  exact ⟨packet_fold hpacket, rfl⟩

/-- How a packet relates two servers, from how a line does. -/
theorem handleAll_rel {R : Server → Server → Prop} (hrefl : ∀ server, R server server)
    (htrans : ∀ {a b c}, R a b → R b c → R a c) {segs : List (Option Reading)}
    (hsegs : ∀ r, some r ∈ segs → Readable r)
    (hone : ∀ {o server server'}, o ∈ segs → server.Good → server.handle o = some server' →
      R server server') :
    ∀ {server server' : Server}, server.Good → segs.foldlM handle server = some server' →
      R server server' := by
  induction segs with
  | nil => intro server server' _ hfold; cases hfold; exact hrefl _
  | cons o segs ih =>
    intro server server' hgood hfold
    rw [List.foldlM_cons] at hfold
    obtain ⟨server₁, hhandle, hrest⟩ := Option.bind_eq_some_iff.mp hfold
    have hgood₁ := ((handle_good hgood fun r hr => hsegs r (by simp [hr])).2 hhandle).1
    exact htrans (hone List.mem_cons_self hgood hhandle)
      (ih (fun r hr => hsegs r (List.mem_cons_of_mem _ hr))
        (fun ho => hone (List.mem_cons_of_mem _ ho)) hgood₁ hrest)

/-- A packet calls a missing function exactly when it has a line for an internal metric. -/
theorem packetParse_good {server : Server} (h : server.Good) (mem : List Byte) (buffer stop : Nat) :
    (packetParse server mem buffer stop = none ↔
      ∃ r ∈ accepted mem buffer stop, server.typeOf r.key = some .internalStats) ∧
    ∀ {server' mem'}, packetParse server mem buffer stop = some (server', mem') →
      server'.Good ∧ Grows server server' := by
  obtain ⟨hnone, hsome⟩ := handleAll_good (segments mem buffer stop).1
    segments_readable h
  refine ⟨?_, fun h' => hsome (packet_fold h')⟩
  rw [packetParse_eq, Option.map_eq_none_iff, hnone]
  simp only [mem_accepted]

/-! ## Ticks -/

theorem visits_good (patterns : Patterns) (env : Nat → Answer) (queue : List Nat) :
    ∀ st : Visiting, st.server.Good →
      (∀ id ∈ queue, ∃ key, st.server.table.lookup key = some id) →
      (visits patterns env st queue).server.Good ∧
      Grows st.server (visits patterns env st queue).server := by
  induction queue with
  | nil => intro st h _; exact ⟨h, .refl _⟩
  | cons id queue ih =>
    intro st h hqueue
    obtain ⟨key, hid⟩ := hqueue id (by simp)
    obtain ⟨metric, hm, -⟩ := h.table hid
    rw [← metricOf_eq hid] at hm
    obtain ⟨hgood, htable, hview⟩ := visit_view patterns env h hid hm
    have hgrows : Grows st.server (visit patterns env st id).server := by
      refine .of_types (visit_frame patterns env st id).1 fun k => ?_
      rw [typeOf, typeOf, hview]
      split
      · rw [Function.update_apply]
        by_cases hk : k = key
        · rw [if_pos hk, hk, hm, Option.map_some, Option.map_some, Metric.sample_type]
        · rw [if_neg hk]
      · rfl
    obtain ⟨hgood', hgrows'⟩ := ih _ hgood fun j hj => by
      rw [htable]; exact hqueue j (List.mem_cons_of_mem _ hj)
    exact ⟨hgood', hgrows.trans hgrows'⟩

theorem tick_good {server : Server} (h : server.Good) (patterns : Patterns) (t : Tick) :
    (server.tick patterns t).1.Good ∧ Grows server (server.tick patterns t).1 := by
  rcases tick_cases patterns server t with heq | ⟨carbon, hc, heq⟩
  · rw [heq]; exact ⟨h, .refl _⟩
  · obtain ⟨-, hbackends, hframe⟩ := visits_frame patterns t.env carbon.queue (t.start server carbon)
    obtain ⟨hgood, hgrows⟩ := visits_good patterns t.env carbon.queue
      (t.start server carbon) h fun id hid => h.queued (List.mem_of_getElem? hc) hid
    rw [heq]
    refine ⟨⟨hgood.toInv.modifyBackend _ fun old hold => ?_, hgood.capacity⟩, ?_⟩
    · -- the backend stored is the one read, with the queue it had
      rw [hbackends] at hold
      have heq : carbon = old := Option.some.inj (hc.symm.trans hold)
      rw [(Carbon.flush_frame ..).queue, hframe.queue, t.start_queue, heq]
    · exact hgrows.trans (.of_types rfl fun _ => rfl)

theorem expireTick_name (server : Server) : server.expireTick.name = server.name := by
  have hfold : ∀ (entries : List (Key × Nat)) (s : Server),
      (entries.foldl (fun s entry => s.modifyMetric entry.2 expireMetric) s).name = s.name := by
    intro entries
    induction entries with
    | nil => intro s; rfl
    | cons entry entries ih => intro s; exact ih _
  exact hfold server.table server

theorem httpExpire_name (server : Server) (key : Key) : (server.httpExpire key).name = server.name := by
  rw [httpExpire]
  split <;> rfl

/-! ## Runs -/

theorem step_good {patterns : Patterns} {server server' : Server} {e : Event} {out : List Sampled}
    (h : server.Good) (hstep : step patterns server e = some (server', out)) :
    server'.Good ∧ Grows server server' := by
  cases e with
  | packet mem buffer stop =>
    obtain ⟨⟨server₁, mem'⟩, hpacket, heq⟩ := Option.map_eq_some_iff.mp hstep
    cases heq
    exact (packetParse_good h mem buffer stop).2 hpacket
  | expire =>
    cases hstep
    exact ⟨h.expireTick.1,
      .of_types (expireTick_name server) (h.expireTick_map fun _ _ => rfl)⟩
  | httpExpire key =>
    cases hstep
    exact ⟨(h.httpExpire key).1,
      .of_types (httpExpire_name server key) (h.httpExpire_map (fun _ _ => rfl) key)⟩
  | tick t =>
    have := tick_good h patterns t
    rw [step, Option.some.injEq] at hstep
    rwa [hstep] at this

theorem run_good {patterns : Patterns} {server server' : Server} {events : List Event}
    {out : List Sampled} (h : server.Good)
    (hrun : Machine.run (step patterns) server events = some (server', out)) :
    server'.Good ∧ Grows server server' := by
  refine Machine.run_invariant (fun s => s.Good ∧ Grows server s) ?_ ⟨h, .refl _⟩ hrun
  rintro s e s' out ⟨hs, hgrows⟩ hstep
  obtain ⟨hs', hgrows'⟩ := step_good hs hstep
  exact ⟨hs', hgrows.trans hgrows'⟩

theorem boot_good (config : Config) : (boot config).Good where
  keys := List.nodup_nil
  table := by intro key id h; cases h
  queued := by
    intro carbon id hmem hid
    rw [config.queues carbon hmem] at hid
    cases hid
  once := by
    intro carbon hmem
    rw [config.queues carbon hmem]
    exact List.nodup_nil
  capacity := rfl

/-- What `brubeck_internal__init` leaves, up to the counters: the metric it found or made has the
pointer set, and all others are as they were. -/
theorem internalInit_view {server : Server} (h : server.Good) (overlay : As → As) :
    (server.internalInit overlay).Good ∧
    (server.internalInit overlay).metricOf =
      Function.update server.metricOf (hashKey server.name)
        (some (setOther overlay ((server.metricOf (hashKey server.name)).getD
          (newMetric server.name .internalStats)))) := by
  -- the end of the function, on a server whose table has the metric
  have hset : ∀ {s : Server} {key : Key} {id : Nat} {metric : Metric} (stats : InternalStats),
      s.Good → s.table.lookup key = some id → s.metricOf key = some metric →
      Good { s.modifyMetric id (setOther overlay) with internal_stats := stats } ∧
      metricOf { s.modifyMetric id (setOther overlay) with internal_stats := stats } =
        Function.update s.metricOf key (some (setOther overlay metric)) := by
    intro s key id metric stats hs hid hm
    have hinv := hs.toInv.modifyMetric id (f := setOther overlay) fun _ _ => rfl
    refine ⟨⟨⟨hinv.keys, hinv.table, hinv.queued, hinv.once⟩, hs.capacity⟩, funext fun k => ?_⟩
    rw [Function.update_apply]
    show (s.modifyMetric id _).metricOf k = _
    rw [hs.toInv.metricOf_modify hid]
    by_cases hk : k = key
    · rw [if_pos hk, if_pos hk, hk, hm]; rfl
    · rw [if_neg hk, if_neg hk]
  cases hfind : server.hashtableFind server.name with
  | none =>
    have hid : (server.added server.name .internalStats).table.lookup (hashKey server.name) =
        some server.heap.length := by rw [added_lookup, if_pos rfl]
    have hm : (server.added server.name .internalStats).metricOf (hashKey server.name) =
        some (newMetric server.name .internalStats) := by rw [h.toInv.metricOf_added, if_pos rfl]
    simp only [internalInit, metricNew_new hfind]
    obtain ⟨hgood, hview⟩ := hset _ ⟨h.toInv.added hfind _, h.capacity⟩ hid hm
    refine ⟨hgood, hview.trans (funext fun k => ?_)⟩
    rw [metricOf_none hfind, Function.update_apply, Function.update_apply, h.toInv.metricOf_added]
    by_cases hk : k = hashKey server.name
    · rw [if_pos hk, if_pos hk]; rfl
    · rw [if_neg hk, if_neg hk, if_neg hk]
  | some id =>
    obtain ⟨metric, hm, -⟩ := h.table hfind
    have hmetric : server.metricOf (hashKey server.name) = some metric := by
      rw [metricOf_eq hfind, hm]
    have happend := h.toInv.metricOf_append (newMetric server.name .internalStats)
    simp only [internalInit, metricNew_old hfind]
    obtain ⟨hgood, hview⟩ := hset _ ⟨h.toInv.append _, h.capacity⟩ hfind
      ((happend _).trans hmetric)
    refine ⟨hgood, hview.trans ?_⟩
    rw [hmetric, funext happend]
    rfl

/-- The key of the server's name has a metric after start-up, and it is the internal one unless a
client had the key before. -/
theorem internalInit_types {server : Server} (h : server.Good) (overlay : As → As) (key : Key) :
    (server.internalInit overlay).typeOf key =
      if key = hashKey server.name ∧ server.typeOf key = none then some .internalStats
      else server.typeOf key := by
  rw [typeOf, (internalInit_view h overlay).2, Function.update_apply, typeOf]
  by_cases hk : key = hashKey server.name
  · subst hk
    cases server.metricOf (hashKey server.name) <;> simp [newMetric, setOther]
  · simp [hk]

/-- After start-up, the only metric of the internal type is that of the server's name, unless a
client had taken that key before. -/
theorem Reaches.internal {patterns : Patterns} {config : Config} {before server : Server}
    (h : Reaches patterns config before server) (key : Key) :
    server.Good ∧ (server.typeOf key = some .internalStats ↔
      key = hashKey config.name ∧ before.typeOf key = none) := by
  obtain ⟨early, out, hearly⟩ := h.early
  obtain ⟨overlay, late, out', hlate⟩ := h.late
  obtain ⟨hbefore, hgrows⟩ := run_good (boot_good config) hearly
  have htypes := internalInit_types hbefore overlay
  obtain ⟨hserver, hgrows'⟩ := run_good (internalInit_view hbefore overlay).1 hlate
  refine ⟨hserver, ?_⟩
  have hboot : (boot config).typeOf key = none := rfl
  have hname : before.name = config.name := hgrows.name
  rw [hgrows'.internal, htypes key, hname]
  have hclient : before.typeOf key ≠ some .internalStats := hgrows.new hboot
  by_cases hk : key = hashKey config.name ∧ before.typeOf key = none
  · rw [if_pos hk]
    exact iff_of_true rfl hk
  · rw [if_neg hk]
    exact iff_of_false hclient hk

/-- A state of the program, before start-up ends or after it. -/
def Attains (patterns : Patterns) (config : Config) (server : Server) : Prop :=
  (∃ events out, Machine.run (step patterns) (boot config) events = some (server, out)) ∨
    ∃ before, Reaches patterns config before server

theorem Attains.internal {patterns : Patterns} {config : Config} {server : Server}
    (h : Attains patterns config server) :
    server.Good ∧ ∀ key, server.typeOf key = some .internalStats → key = hashKey config.name := by
  rcases h with ⟨events, out, hrun⟩ | ⟨before, hreaches⟩
  · obtain ⟨hgood, hgrows⟩ := run_good (boot_good config) hrun
    refine ⟨hgood, fun key hkey => ?_⟩
    cases hgrows.internal.mp hkey
  · exact ⟨(hreaches.internal []).1, fun key hkey => ((hreaches.internal key).2.mp hkey).1⟩

/-- In every state a run can reach, a packet calls no missing record function exactly when none of
its lines is for the server's own key, or a client had taken that key before start-up ended. -/
theorem dispatch_iff {patterns : Patterns} {config : Config} {before server : Server}
    (h : Reaches patterns config before server) (mem : List Byte) (buffer stop : Nat) :
    packetParse server mem buffer stop ≠ none ↔
      (∀ r ∈ accepted mem buffer stop, r.key ≠ hashKey config.name) ∨
      before.metricOf (hashKey config.name) ≠ none := by
  have hgood := (h.internal []).1
  have hnone : before.typeOf (hashKey config.name) = none ↔
      before.metricOf (hashKey config.name) = none := by
    rw [typeOf, Option.map_eq_none_iff]
  rw [Ne, (packetParse_good hgood mem buffer stop).1]
  constructor
  · intro hnot
    by_cases hclaimed : before.metricOf (hashKey config.name) = none
    · refine Or.inl fun r hr heq => hnot ⟨r, hr, ?_⟩
      rw [(h.internal r.key).2, heq]
      exact ⟨rfl, hnone.mpr hclaimed⟩
    · exact Or.inr hclaimed
  · rintro hor ⟨r, hr, hint⟩
    obtain ⟨heq, hbefore⟩ := (h.internal r.key).2.mp hint
    rcases hor with hne | hclaimed
    · exact hne r hr heq
    · rw [heq, hnone] at hbefore
      exact hclaimed hbefore

/-- The default name, and one plaintext backend. -/
def defaultConfig : Config where
  name := str "brubeck".toList
  backends := [Carbon.new false 10 []]
  backends_pos := by decide
  queues := by decide

def started : Server := (boot defaultConfig).internalInit id

theorem started_reached (patterns : Patterns) :
    Reaches patterns defaultConfig (boot defaultConfig) started :=
  ⟨⟨[], [], rfl⟩, id, [], [], rfl⟩

theorem dispatch_iff_client : packetParse started (str "a:1|c".toList ++ [0]) 0 5 ≠ none := by
  refine (dispatch_iff (started_reached ⟨fun _ => 0, fun _ => 0⟩) _ 0 5).mpr (Or.inl fun r hr => ?_)
  have hkey : r.key ∈ [str "a".toList] := List.mem_map_of_mem (f := Reading.key) hr
  rw [List.mem_singleton.mp hkey]
  decide

/-- A line for the server's own key on the same server. -/
theorem dispatch_null :
    Reaches ⟨fun _ => 0, fun _ => 0⟩ defaultConfig (boot defaultConfig) started ∧
      (accepted (str "brubeck:1|c".toList ++ [0]) 0 11).map Reading.key = [defaultConfig.name] ∧
      packetParse started (str "brubeck:1|c".toList ++ [0]) 0 11 = none :=
  ⟨started_reached _, by decide, rfl⟩

end Server
end Brubeck
