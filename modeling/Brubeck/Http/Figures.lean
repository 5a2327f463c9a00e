import Brubeck.Counters
import Brubeck.Http

/-!
# Brubeck.Http.Figures

The figures that `GET /stats` and `GET /ping` show. They are copies that `brubeck_internal__sample`
leaves of the counters it swaps out, so they are those of the last report that brubeck made of itself.

* `Copied`: the copies against the reports.
* `visits_kept`, `step_kept`: what keeps it.
* `figures_endpoint`: both requests after any run, and a ping before brubeck's own metric is registered.
-/

namespace Brubeck
namespace Http

open Lib Server Statsd

/-- The last value that was reported under a name, zero before the first. -/
def lastValue (name : Key) (reports : List (Key × Value)) : Value :=
  reports.foldl (fun last r => if r.1 = name then r.2 else last) 0

/-- Each counter of the copy is what was last reported for it. -/
def Copied (key : Key) (reports : List (Key × Value)) (sample : Counters) : Prop :=
  ∀ field ∈ Metric.internalFields sample,
    lastValue (key ++ str field.1.toList) reports = (field.2.toNat : Value)

/-- No other name ends like one of brubeck's own. -/
theorem suffix_inj (key : Key) {s s' : String} (hs : s ∈ Metric.suffixes .internalStats)
    (hs' : s' ∈ Metric.suffixes .internalStats) (hne : s ≠ s') :
    key ++ str s.toList ≠ key ++ str s'.toList := by
  have hall : ∀ s ∈ Metric.suffixes .internalStats, ∀ s' ∈ Metric.suffixes .internalStats, s ≠ s' →
      str s.toList ≠ str s'.toList := by decide
  intro h
  exact hall s hs s' hs' hne (List.append_cancel_left h)

theorem lastValue_append (name : Key) (reports : List (Key × Value)) {out : List (Key × Value)}
    {value : Value} (h : (name, value) ∈ out) (hone : ∀ r ∈ out, r.1 = name → r.2 = value) :
    lastValue name (reports ++ out) = value := by
  rw [lastValue, List.foldl_append]
  generalize reports.foldl (fun last r => if r.1 = name then r.2 else last) 0 = last
  -- from the entry on, nothing but the same value is taken
  have hkeep : ∀ out : List (Key × Value), (∀ r ∈ out, r.1 = name → r.2 = value) →
      out.foldl (fun last r => if r.1 = name then r.2 else last) value = value := by
    intro out
    induction out with
    | nil => intro _; rfl
    | cons r out ih =>
      intro hone
      rw [List.foldl_cons]
      have hr : (if r.1 = name then r.2 else value) = value := by
        split
        · exact hone r List.mem_cons_self ‹_›
        · rfl
      rw [hr, ih fun r hr => hone r (List.mem_cons_of_mem _ hr)]
  induction out generalizing last with
  | nil => cases h
  | cons r out ih =>
    rw [List.foldl_cons]
    rcases List.mem_cons.mp h with rfl | h
    · rw [if_pos rfl, hkeep out fun r hr => hone r (List.mem_cons_of_mem _ hr)]
    · exact ih h (fun r hr => hone r (List.mem_cons_of_mem _ hr)) _

/-- A report of brubeck's own metric and the copy it leaves. -/
theorem Copied.report (key : Key) (reports : List (Key × Value)) (live : Counters) :
    Copied key (reports ++ (Metric.internalFields live).map fun field =>
      (key ++ str field.1.toList, (field.2.toNat : Value))) live := by
  intro field hfield
  refine lastValue_append _ _ (List.mem_map.mpr ⟨field, hfield, rfl⟩) fun r hr hname => ?_
  obtain ⟨field', hfield', rfl⟩ := List.mem_map.mp hr
  have hsame : field'.1 = field.1 := by
    by_contra hne
    exact suffix_inj key (Metric.internalFields_suffix hfield') (Metric.internalFields_suffix hfield)
      hne hname
  have hvalue : ∀ f ∈ Metric.internalFields live, ∀ f' ∈ Metric.internalFields live,
      f.1 = f'.1 → f.2 = f'.2 := by
    intro f hf f' hf'
    simp only [Metric.internalFields, List.mem_cons, List.not_mem_nil, or_false] at hf hf'
    rcases hf with rfl | rfl | rfl | rfl | rfl | rfl | rfl <;>
      rcases hf' with rfl | rfl | rfl | rfl | rfl | rfl | rfl <;> simp
  simp only [hvalue field' hfield' field hfield hsame]

/-! ## One step -/

/-- The metric of this key, and no other, is brubeck's own. -/
def Own (key : Key) (server : Server) : Prop :=
  ∀ k, server.typeOf k = some .internalStats ↔ k = key

theorem Own.grows {key : Key} {server server' : Server} (h : Own key server)
    (hgrows : Grows server server') : Own key server' := fun k => hgrows.internal.trans (h k)

/-- The frequency is kept, and the copies are, with all that has been reported, those of the last
report. -/
structure Kept (key : Key) (freq : Int) (reports : List (Key × Value)) (stats : InternalStats) :
    Prop where
  freq : stats.sample_freq = freq
  copied : Copied key reports stats.sample

theorem visit_kept (patterns : Patterns) (env : Nat → Answer) {key : Key} {freq : Int}
    {st : Visiting} {j : Nat} {k : Key} (hgood : st.server.Good)
    (hj : st.server.table.lookup k = some j) (hown : Own key st.server) {past : List (Key × Value)}
    (h : Kept key freq (past ++ st.log.filterMap (Cell.seen key)) st.server.internal_stats) :
    Kept key freq (past ++ (visit patterns env st j).log.filterMap (Cell.seen key))
      (visit patterns env st j).server.internal_stats := by
  obtain ⟨metric, hm, hname⟩ := hgood.table hj
  have htype : st.server.typeOf k = some metric.type := by
    rw [typeOf, metricOf_eq hj, hm, Option.map_some]
  rcases visit_cases patterns env hm with ⟨-, hv⟩ | ⟨-, out, metric', stats, hsample, hv⟩
  · rw [hv]
    exact h
  rw [hv]
  by_cases hk : k = key
  · have hint : metric.type = .internalStats := by
      have := (hown k).mpr hk
      rw [htype] at this
      exact Option.some.inj this
    simp only [Metric.sample, hint, Metric.internalSample, Prod.mk.injEq] at hsample
    obtain ⟨rfl, rfl, rfl⟩ := hsample
    refine ⟨h.freq, ?_⟩
    simp only [List.filterMap_append, hname, hk, Cell.seen_self]
    rw [← List.append_assoc]
    have hnames : ∀ suffix, metric.withSuffix suffix = key ++ str suffix.toList := by
      intro suffix
      rw [Metric.withSuffix, hname, hk]
    simp only [hnames]
    exact .report key _ st.server.internal_stats.live
  · have hint : metric.type ≠ .internalStats := by
      intro hint
      rw [hint] at htype
      exact hk ((hown k).mp htype)
    rw [Cell.sample_stats hint] at hsample
    obtain ⟨rfl, rfl, rfl⟩ := hsample
    simp only [List.filterMap_append, hname, Cell.seen_other hk, List.append_nil]
    exact h

theorem visits_kept (patterns : Patterns) (env : Nat → Answer) {key : Key} {freq : Int}
    {past : List (Key × Value)} (queue : List Nat) :
    ∀ {st : Visiting}, st.server.Good → (∀ j ∈ queue, ∃ k, st.server.table.lookup k = some j) →
      Own key st.server →
      Kept key freq (past ++ st.log.filterMap (Cell.seen key)) st.server.internal_stats →
      Kept key freq (past ++ (visits patterns env st queue).log.filterMap (Cell.seen key))
        (visits patterns env st queue).server.internal_stats := by
  induction queue with
  | nil => intro st _ _ _ h; exact h
  | cons j queue ih =>
    intro st hgood hqueue hown h
    obtain ⟨k, hj⟩ := hqueue j List.mem_cons_self
    have hone : ∀ i ∈ [j], ∃ k, st.server.table.lookup k = some i := by
      intro i hi
      rw [List.mem_singleton.mp hi]
      exact ⟨k, hj⟩
    obtain ⟨hgood', hgrows⟩ := visits_good patterns env [j] st hgood hone
    have htable := (visit_frame patterns env st j).2.1
    refine ih hgood' ?_ (hown.grows hgrows) (visit_kept patterns env hgood hj hown h)
    intro i hi
    obtain ⟨k', hk'⟩ := hqueue i (List.mem_cons_of_mem _ hi)
    exact ⟨k', htable ▸ hk'⟩

/-- What a line, an expiry tick or a request does to the counters: they may go up. -/
def Copies (server server' : Server) : Prop :=
  server'.internal_stats.sample_freq = server.internal_stats.sample_freq ∧
    server'.internal_stats.sample = server.internal_stats.sample

theorem handle_copies {server server' : Server} {o : Option Reading}
    (h : server.handle o = some server') : Copies server server' := by
  obtain ⟨keys, hstats⟩ := handle_live h
  rw [Copies, hstats]
  exact ⟨rfl, rfl⟩

theorem expireTick_stats (server : Server) :
    server.expireTick.internal_stats = server.internal_stats := by
  have hfold : ∀ (entries : List (Key × Nat)) (s : Server),
      (entries.foldl (fun s entry => s.modifyMetric entry.2 expireMetric) s).internal_stats =
        s.internal_stats := by
    intro entries
    induction entries with
    | nil => intro s; rfl
    | cons entry entries ih => intro s; exact ih _
  exact hfold server.table server

theorem httpExpire_stats (server : Server) (key : Key) :
    (server.httpExpire key).internal_stats = server.internal_stats := by
  rw [httpExpire]
  split <;> rfl

/-- Every step but a tick leaves the copies alone and reports nothing. -/
theorem step_copies {patterns : Patterns} {server server' : Server} {e : Server.Event}
    {out : List Sampled} (hgood : server.Good) (he : ∀ t, e ≠ .tick t)
    (hstep : Server.step patterns server e = some (server', out)) :
    Copies server server' ∧ out = [] := by
  cases e with
  | packet mem buffer stop =>
    obtain ⟨hfold, rfl⟩ := step_packet hstep
    exact ⟨handleAll_rel (R := Copies) (fun _ => ⟨rfl, rfl⟩)
      (fun h h' => ⟨h'.1.trans h.1, h'.2.trans h.2⟩) segments_readable
      (fun _ _ hhandle => handle_copies hhandle) hgood hfold, rfl⟩
  | expire =>
    cases hstep
    rw [Copies, expireTick_stats]
    exact ⟨⟨rfl, rfl⟩, rfl⟩
  | httpExpire k =>
    cases hstep
    rw [Copies, httpExpire_stats]
    exact ⟨⟨rfl, rfl⟩, rfl⟩
  | tick t => exact absurd rfl (he t)

theorem step_kept {patterns : Patterns} {key : Key} {freq : Int} {server server' : Server}
    {e : Server.Event} {past : List (Key × Value)} {out : List Sampled} (hgood : server.Good)
    (hown : Own key server) (h : Kept key freq past server.internal_stats)
    (hstep : Server.step patterns server e = some (server', out)) :
    Kept key freq (past ++ out.filterMap (Cell.seen key)) server'.internal_stats := by
  by_cases he : ∃ t, e = .tick t
  · obtain ⟨t, rfl⟩ := he
    rw [Server.step, Option.some.injEq] at hstep
    rcases tick_cases patterns server t with heq | ⟨carbon, hc, heq⟩
    · rw [heq] at hstep
      cases hstep
      rw [List.filterMap_nil, List.append_nil]
      exact h
    · rw [heq] at hstep
      cases hstep
      have hstart : Kept key freq (past ++ (t.start server carbon).log.filterMap (Cell.seen key))
          (t.start server carbon).server.internal_stats := by
        rw [Tick.start, List.filterMap_nil, List.append_nil]
        exact h
      exact visits_kept patterns t.env carbon.queue hgood
        (fun j hj => hgood.queued (List.mem_of_getElem? hc) hj) hown hstart
  · obtain ⟨⟨hfreq, hsample⟩, rfl⟩ := step_copies hgood (fun t ht => he ⟨t, ht⟩) hstep
    rw [List.filterMap_nil, List.append_nil]
    exact ⟨hfreq.trans h.freq, hsample ▸ h.copied⟩

theorem run_kept {patterns : Patterns} {key : Key} {freq : Int} {server server' : Server}
    {events : List Server.Event} {out : List Sampled} (hgood : server.Good) (hown : Own key server)
    (h : Kept key freq [] server.internal_stats)
    (hrun : Machine.run (Server.step patterns) server events = some (server', out)) :
    Kept key freq (out.filterMap (Cell.seen key)) server'.internal_stats := by
  have hinv := Machine.run_history (fun s log => s.Good ∧ Own key s ∧
    Kept key freq (log.filterMap (Cell.seen key)) s.internal_stats) ?_ ⟨hgood, hown, h⟩ hrun
  · exact hinv.2.2
  · rintro s e s' log out ⟨hs, hown, hkept⟩ hstep
    obtain ⟨hs', hgrows⟩ := step_good hs hstep
    rw [List.filterMap_append]
    exact ⟨hs', hown.grows hgrows, step_kept hs hown hkept hstep⟩

/-! ## Before brubeck's own metric is registered -/

def Clients (server : Server) : Prop := ∀ k, server.typeOf k ≠ some .internalStats

theorem visits_clients (patterns : Patterns) (env : Nat → Answer) (queue : List Nat) :
    ∀ {st : Visiting}, st.server.Good → (∀ j ∈ queue, ∃ k, st.server.table.lookup k = some j) →
      Clients st.server →
      (visits patterns env st queue).server.internal_stats = st.server.internal_stats := by
  induction queue with
  | nil => intro st _ _ _; rfl
  | cons j queue ih =>
    intro st hgood hqueue hclients
    obtain ⟨k, hj⟩ := hqueue j List.mem_cons_self
    obtain ⟨metric, hm, -⟩ := hgood.table hj
    have hint : metric.type ≠ .internalStats := by
      intro hint
      exact hclients k (by rw [typeOf, metricOf_eq hj, hm, Option.map_some, hint])
    have hone : ∀ i ∈ [j], ∃ k, st.server.table.lookup k = some i := by
      intro i hi
      rw [List.mem_singleton.mp hi]
      exact ⟨k, hj⟩
    obtain ⟨hgood', hgrows⟩ := visits_good patterns env [j] st hgood hone
    have htable := (visit_frame patterns env st j).2.1
    have hsame : (visit patterns env st j).server.internal_stats = st.server.internal_stats := by
      rcases visit_cases patterns env hm with ⟨-, hv⟩ | ⟨-, out, metric', stats, hsample, hv⟩
      · rw [hv]
      · rw [Cell.sample_stats hint] at hsample
        obtain ⟨rfl, rfl, rfl⟩ := hsample
        rw [hv]
    refine (ih hgood' ?_ fun k' h => hclients k' (hgrows.internal.mp h)).trans hsame
    intro i hi
    obtain ⟨k', hk'⟩ := hqueue i (List.mem_cons_of_mem _ hi)
    exact ⟨k', htable ▸ hk'⟩

theorem run_clients {patterns : Patterns} {server server' : Server} {events : List Server.Event}
    {out : List Sampled} (hgood : server.Good) (hclients : Clients server)
    (hrun : Machine.run (Server.step patterns) server events = some (server', out)) :
    Copies server server' := by
  have hinv := Machine.run_invariant (fun s => s.Good ∧ Clients s ∧ Copies server s) ?_
    ⟨hgood, hclients, rfl, rfl⟩ hrun
  · exact hinv.2.2
  · rintro s e s' out ⟨hs, hcl, hcopies⟩ hstep
    obtain ⟨hs', hgrows⟩ := step_good hs hstep
    refine ⟨hs', fun k h => hcl k (hgrows.internal.mp h), ?_⟩
    have hone : Copies s s' := by
      by_cases he : ∃ t, e = .tick t
      · obtain ⟨t, rfl⟩ := he
        rw [Server.step, Option.some.injEq] at hstep
        rcases tick_cases patterns s t with heq | ⟨carbon, hc, heq⟩
        · rw [heq] at hstep
          cases hstep
          exact ⟨rfl, rfl⟩
        · rw [heq] at hstep
          cases hstep
          have hsame : (visits patterns t.env (t.start s carbon) carbon.queue).server.internal_stats =
              s.internal_stats :=
            visits_clients patterns t.env carbon.queue hs
              (fun j hj => hs.queued (List.mem_of_getElem? hc) hj) hcl
          exact ⟨congrArg InternalStats.sample_freq hsame, congrArg InternalStats.sample hsame⟩
      · exact (step_copies hs (fun t ht => he ⟨t, ht⟩) hstep).1
    exact ⟨hone.1.trans hcopies.1, hone.2.trans hcopies.2⟩

/-- The frequency of the backend that brubeck's own metric is sent to. -/
def ownFreq (server : Server) : Int :=
  (server.backends[server.shardOf (hashKey server.name)]?.map Carbon.sample_freq).getD 0

theorem internalInit_stats {server : Server} (h : server.hashtableFind server.name = none)
    (overlay : As → As) :
    (server.internalInit overlay).internal_stats.sample = server.internal_stats.sample ∧
      (server.internalInit overlay).internal_stats.sample_freq = ownFreq server := by
  let made := (server.added server.name .internalStats).modifyMetric server.heap.length
    (setOther overlay)
  have hheap : made.heap[server.heap.length]? =
      some (setOther overlay (newMetric server.name .internalStats)) := by
    rw [getElem?_modifyMetric, if_pos rfl]
    show ((server.heap ++ [newMetric server.name .internalStats])[server.heap.length]?).map _ = _
    simp
  have hfreqs : made.backends.map Carbon.sample_freq = server.backends.map Carbon.sample_freq := by
    apply List.ext_getElem?
    intro i
    show ((server.backends.modify _ _).map Carbon.sample_freq)[i]? = _
    rw [List.getElem?_map, List.getElem?_map, List.getElem?_modify]
    cases server.backends[i]? with
    | none => rfl
    | some carbon =>
      simp only [Option.map_some]
      split <;> rfl
  have hshard : made.metricShard (setOther overlay (newMetric server.name .internalStats)) =
      server.shardOf (hashKey server.name) := by
    have hlen := congrArg List.length hfreqs
    rw [List.length_map, List.length_map] at hlen
    have hkey : (setOther overlay (newMetric server.name .internalStats)).key =
        (newMetric server.name .internalStats).key := rfl
    have hname : (setOther overlay (newMetric server.name .internalStats)).name = hashKey server.name :=
      name_congr hkey
    rw [shardOf_eq, hname, shardOf, shardOf, queues, queues, List.length_map, List.length_map, hlen]
  have hinit : (server.internalInit overlay).internal_stats =
      { made.internal_stats with sample_freq := (made.backends[(made.heap[server.heap.length]?.map
        made.metricShard).getD 0]?.map Carbon.sample_freq).getD 0 } := by
    simp only [internalInit, metricNew_new h]
    rfl
  rw [hinit, hheap, Option.map_some, Option.getD_some, hshard]
  refine ⟨rfl, ?_⟩
  rw [ownFreq, ← List.getElem?_map, ← List.getElem?_map, hfreqs]

/-! ## The requests -/

def getPing : Request := ⟨str "GET".toList, str "/ping".toList⟩

def getStats : Request := ⟨str "GET".toList, str "/stats".toList⟩

/-- The counters of a reply, in the order in which brubeck reports them. -/
def StatsReply.figures (reply : StatsReply) : List Int :=
  [reply.metrics, reply.errors, reply.unique_keys, reply.failed, reply.from_future, reply.delayed,
    reply.replayed]

theorem handleRequest_getPing (utf8 : List Byte → Bool) (endpoint : Endpoint) :
    handleRequest utf8 endpoint getPing =
      (sendPing endpoint).map fun reply => (ok (.ping reply), endpoint.server) := by
  have hping : getPing.url = str "/_ping".toList ∨ getPing.url = str "/ping".toList := .inr rfl
  have hget : getPing.method = str "GET".toList := rfl
  simp only [handleRequest, if_pos hget, if_pos hping]

theorem handleRequest_getStats (utf8 : List Byte → Bool) (endpoint : Endpoint) :
    handleRequest utf8 endpoint getStats =
      some (ok (.stats (sendStats endpoint)), endpoint.server) := by
  have hping : ¬ (getStats.url = str "/_ping".toList ∨ getStats.url = str "/ping".toList) := by decide
  have hget : getStats.method = str "GET".toList := rfl
  have hstats : getStats.url = str "/stats".toList := rfl
  simp only [handleRequest, if_pos hget, if_neg hping, if_pos hstats]

/-- **The figures over HTTP.** A ping that comes before brubeck has registered its own metric brings it
down. Afterwards, unless a client had taken its name, the counters that `GET /stats` shows are those
that brubeck last reported about itself to its backend, all seven of the same report, and `GET /ping`
divides them by the frequency of that backend, which brings it down when the frequency is zero. -/
theorem figures_endpoint (utf8 : List Byte → Bool) {patterns : Patterns} {config : Config}
    {overlay : As → As} {before : Server} {early late : List Server.Event} {out out' : List Sampled}
    {endpoint : Endpoint}
    (hearly : Machine.run (Server.step patterns) (boot config) early = some (before, out))
    (hfree : before.typeOf (hashKey config.name) = none)
    (hlate : Machine.run (Server.step patterns) (before.internalInit overlay) late =
      some (endpoint.server, out')) :
    (∀ e : Endpoint, e.server = before → handleRequest utf8 e getPing = none) ∧
    ∃ last : Counters,
      Copied (hashKey config.name) (out'.filterMap (Cell.seen (hashKey config.name))) last ∧
      (∃ reply, handleRequest utf8 endpoint getStats = some (ok (.stats reply), endpoint.server) ∧
        reply.figures = (Metric.internalFields last).map fun field => i32 field.2.toNat) ∧
      handleRequest utf8 endpoint getPing =
        if ownFreq before = 0 then none
        else some (ok (.ping {
          version := endpoint.version
          pid := endpoint.pid
          status :=
            if endpoint.server.backends.all Carbon.connected then "OK"
            else "ERROR (backend disconnected)"
          metrics_per_second := (last.metrics.toNat : Value) / ownFreq before
          errors_per_second := (last.errors.toNat : Value) / ownFreq before
          unique_keys := i32 last.unique_keys.toNat }), endpoint.server) := by
  obtain ⟨hgood, hgrows⟩ := run_good (boot_good config) hearly
  have hname : before.name = config.name := hgrows.name
  have hcopies := run_clients (boot_good config) (fun k h => by cases h) hearly
  have hclients : Clients before := fun k h => by
    have hk := hgrows.internal.mp h
    cases hk
  have hfind : before.hashtableFind before.name = none := by
    cases hid : before.hashtableFind before.name with
    | none => rfl
    | some id =>
      obtain ⟨metric, hm, -⟩ := hgood.table hid
      rw [hname] at hid
      rw [typeOf, metricOf_eq hid, hm] at hfree
      cases hfree
  obtain ⟨hsample, hfreq⟩ := internalInit_stats hfind overlay
  have hown : Own (hashKey config.name) (before.internalInit overlay) := by
    intro k
    rw [internalInit_types hgood, hname]
    by_cases hk : k = hashKey config.name
    · rw [if_pos ⟨hk, by rw [hk]; exact hfree⟩]
      exact iff_of_true rfl hk
    · rw [if_neg fun h => hk h.1]
      exact iff_of_false (hclients k) hk
  have hstart : Kept (hashKey config.name) (ownFreq before) []
      (before.internalInit overlay).internal_stats := by
    refine ⟨hfreq, ?_⟩
    rw [hsample, hcopies.2]
    intro field hfield
    simp only [boot, Metric.internalFields, List.mem_cons, List.not_mem_nil, or_false] at hfield
    rcases hfield with rfl | rfl | rfl | rfl | rfl | rfl | rfl <;> rfl
  have hkept := run_kept (internalInit_view hgood overlay).1 hown hstart hlate
  constructor
  · intro e he
    have hzero : e.server.internal_stats.sample_freq = 0 := by
      rw [he, hcopies.1]
      rfl
    rw [handleRequest_getPing, sendPing]
    simp only [hzero, if_true, Option.map_none]
  · refine ⟨endpoint.server.internal_stats.sample, hkept.copied,
      ⟨_, handleRequest_getStats utf8 endpoint, rfl⟩, ?_⟩
    rw [handleRequest_getPing, sendPing]
    simp only [hkept.freq]
    split
    · rfl
    · rfl

theorem figures_endpoint_reported :
    ∃ server out last reply,
      Machine.run (Server.step ⟨fun _ => 0, fun _ => 0⟩) started lineThenSweep = some (server, out) ∧
      Copied (hashKey defaultConfig.name) (out.filterMap (Cell.seen (hashKey defaultConfig.name))) last ∧
      handleRequest (fun _ => true) (exampleEndpoint server) getStats = some (ok (.stats reply), server) ∧
      reply.figures = (Metric.internalFields last).map (fun field => i32 field.2.toNat) ∧
      reply.metrics = 1 := by
  have hsome : (Machine.run (Server.step ⟨fun _ => 0, fun _ => 0⟩) started lineThenSweep).map
      (fun r => r.1.internal_stats.sample.metrics) = some 1 := by decide +kernel
  obtain ⟨⟨server, out⟩, hlate, hmetrics⟩ := Option.map_eq_some_iff.mp hsome
  have hearly : Machine.run (Server.step ⟨fun _ => 0, fun _ => 0⟩) (boot defaultConfig) [] =
      some (boot defaultConfig, []) := rfl
  have hlate' : Machine.run (Server.step ⟨fun _ => 0, fun _ => 0⟩) ((boot defaultConfig).internalInit id)
      lineThenSweep = some ((exampleEndpoint server).server, out) := hlate
  obtain ⟨-, last, hcopied, ⟨reply, hreply, hfigures⟩, -⟩ :=
    figures_endpoint (fun _ => true) hearly rfl hlate'
  refine ⟨server, out, last, reply, hlate, hcopied, hreply, hfigures, ?_⟩
  rw [handleRequest_getStats] at hreply
  have hshown : sendStats (exampleEndpoint server) = reply := by
    simpa only [ok, Option.some.injEq, Prod.mk.injEq, Response.mk.injEq, Body.stats.injEq, true_and,
      and_true] using hreply
  have hmetrics' : server.internal_stats.sample.metrics = 1 := hmetrics
  rw [← hshown]
  show i32 (server.internal_stats.sample.metrics).toNat = 1
  rw [hmetrics']
  decide

end Http
end Brubeck
