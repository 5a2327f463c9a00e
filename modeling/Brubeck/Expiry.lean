import Brubeck.Queues

/-!
# Brubeck.Expiry

The byte `expire` of a metric over whole runs. Lines, the expiry timer, `POST /expire` and the
sampling of brubeck's own metric all write it; `life` says what each of them does to it, and
`step_expire` that a step of the server does nothing else.

* `expiry_closed_form`: the byte of any metric but brubeck's own, from its history.
* `Starved`, `internal_alive_iff`: when brubeck's own metric is disabled. Nothing but its own
  sampling makes it active again, and a disabled metric is not sampled.
-/

namespace Brubeck
namespace Server

open Lib Statsd

/-! ## `send_metric` -/

def expireStatus : List String := ["disabled", "inactive", "active"]

def metricTypes : MetricType → String
  | .gauge => "gauge"
  | .meter => "meter"
  | .counter => "counter"
  | .histo => "histogram"
  | .timer => "timer"
  | .internalStats => "internal"

/-- The body of the reply to `GET /metric/key`. No `expire` is a read outside `expire_status`. -/
structure MetricReply where
  key : Key
  type : String
  shard : Int
  expire : Option String
  deriving DecidableEq

def sendMetric (server : Server) (key : Key) : Option MetricReply :=
  (server.hashtableFind key).bind fun id => server.heap[id]?.map fun metric =>
    { key := metric.key.take (strlen metric.key)
      type := metricTypes metric.type
      shard := 0
      expire := expireStatus[metric.expire]? }

/-! ## The life of a metric -/

/-- What can happen to the byte `expire` of one metric. -/
inductive Mark where
  | line
  | post
  | sweep
  | sample
  deriving DecidableEq

/-- What becomes of the byte; a line makes the metric when there is none. Only brubeck's own metric
is made active by being sampled. -/
def life (internal : Bool) (expire : Option Nat) : Mark → Option Nat
  | .line => some EXPIRE_ACTIVE
  | .post => expire.map fun _ => EXPIRE_DISABLED
  | .sweep => expire.map (· - 1)
  | .sample => expire.map fun n => if internal ∧ EXPIRE_DISABLED < n then EXPIRE_ACTIVE else n

/-- What an event is to the metric of a key. -/
def marks (key : Key) (server : Server) : Event → List Mark
  | .packet mem buffer stop =>
    ((accepted mem buffer stop).filter fun r => r.key = key).map fun _ => .line
  | .expire => [.sweep]
  | .httpExpire k => if hashKey k = key then [.post] else []
  | .tick t => if server.connects t = true ∧ t.backend = server.shardOf key then [.sample] else []

/-- The steps of the server, with the marks they leave on the metric of a key. -/
def watched (patterns : Patterns) (key : Key) (server : Server) (e : Event) :
    Option (Server × List Mark) :=
  (step patterns server e).map fun r => (r.1, marks key server e)

def expireOf (server : Server) (key : Key) : Option Nat := (server.metricOf key).map Metric.expire

def isInternal (server : Server) (key : Key) : Bool := server.typeOf key = some .internalStats

/-! ## One step -/

theorem record_expire {metric metric' : Metric} {value sample_freq : Value} {modifiers : UInt8}
    (h : metric.record value sample_freq modifiers = some metric') :
    metric'.expire = metric.expire := by
  obtain ⟨record, -, rfl⟩ := Option.map_eq_some_iff.mp h
  rfl

theorem find_expire (store : Store) (r : Reading) : (store.find r).expire = EXPIRE_ACTIVE := by
  rw [Store.find]
  split <;> rfl

theorem handle_expire {server server' : Server} (h : server.Good) {o : Option Reading}
    (ho : ∀ r, o = some r → Readable r) (hhandle : server.handle o = some server') (key : Key) :
    server'.expireOf key =
      ((o.toList.filter fun r => r.key = key).map fun _ => Mark.line).foldl (life false)
        (server.expireOf key) := by
  cases o with
  | none =>
    obtain ⟨server₁, heq, -, hview⟩ := h.handle_error
    rw [hhandle] at heq
    cases heq
    rw [expireOf, hview]
    rfl
  | some r =>
    obtain ⟨-, hline⟩ := h.handle_line (ho r rfl).key hhandle
    obtain ⟨metric, hrec, hstore⟩ := Option.map_eq_some_iff.mp hline
    rw [expireOf, ← hstore, Function.update_apply]
    by_cases hk : key = r.key
    · subst hk
      simp [life, record_expire hrec, find_expire]
    · simp [hk, Ne.symm hk, expireOf]

theorem handleAll_expire (segs : List (Option Reading)) (hsegs : ∀ r, some r ∈ segs → Readable r)
    (key : Key) :
    ∀ {server server' : Server}, server.Good → segs.foldlM handle server = some server' →
      server'.expireOf key =
        (((segs.filterMap id).filter fun r => r.key = key).map fun _ => Mark.line).foldl (life false)
          (server.expireOf key) := by
  induction segs with
  | nil => intro server server' _ hfold; cases hfold; rfl
  | cons o segs ih =>
    intro server server' hgood hfold
    rw [List.foldlM_cons] at hfold
    obtain ⟨server₁, hhandle, hrest⟩ := Option.bind_eq_some_iff.mp hfold
    have hread : ∀ r, o = some r → Readable r := fun r hr => hsegs r (by simp [hr])
    have hgood₁ := ((handle_good hgood hread).2 hhandle).1
    rw [ih (fun r hr => hsegs r (List.mem_cons_of_mem _ hr)) hgood₁ hrest,
      handle_expire hgood hread hhandle, ← List.foldl_append, ← List.map_append,
      ← List.filter_append]
    cases o <;> rfl

/-- Lines do to the byte of brubeck's own metric what they do to any. -/
theorem life_lines (internal : Bool) {α : Type} (lines : List α) (expire : Option Nat) :
    (lines.map fun _ => Mark.line).foldl (life false) expire =
      (lines.map fun _ => Mark.line).foldl (life internal) expire := by
  induction lines generalizing expire with
  | nil => rfl
  | cons _ lines ih => exact ih _

theorem sample_expire (metric : Metric) (stats : InternalStats) (sample_freq : Int) :
    (metric.sample stats sample_freq).2.1.expire =
      if metric.type = .internalStats then EXPIRE_ACTIVE else metric.expire := by
  cases h : metric.type <;> simp [Metric.sample, h]

theorem tick_expire {server : Server} (hgood : server.Good) (h : server.Placed)
    (patterns : Patterns) (t : Tick) (key : Key) :
    (server.tick patterns t).1.expireOf key =
      (marks key server (.tick t)).foldl (life (server.isInternal key)) (server.expireOf key) := by
  cases hm : server.metricOf key with
  | none =>
    have hnone : server.table.lookup key = none := by
      cases hid : server.table.lookup key with
      | none => rfl
      | some id =>
        obtain ⟨metric, hmetric, -⟩ := hgood.table hid
        rw [metricOf_eq hid, hmetric] at hm
        cases hm
    have hlater : (server.tick patterns t).1.metricOf key = none :=
      metricOf_none (by rw [(tick_same server patterns t).1]; exact hnone)
    rw [expireOf, expireOf, hlater, hm, marks]
    split <;> rfl
  | some metric =>
    obtain ⟨stats, sample_freq, htick⟩ := tick_metricOf hgood h hm patterns t
    have hint : server.isInternal key = decide (metric.type = .internalStats) := by
      rw [isInternal, typeOf, hm, Option.map_some]
      simp only [Option.some.injEq]
    rw [expireOf, expireOf, htick, hm, marks, hint]
    by_cases hvisit : server.connects t = true ∧ t.backend = server.shardOf key
    · rw [if_pos hvisit]
      simp only [hvisit, true_and, Option.map_some, List.foldl_cons, List.foldl_nil, life,
        decide_eq_true_eq]
      by_cases hexp : EXPIRE_DISABLED < metric.expire
      · simp only [hexp, if_true, sample_expire, and_true]
      · simp only [hexp, if_false, and_false]
    · rw [if_neg hvisit, if_neg fun h => hvisit ⟨h.1, h.2.1⟩]
      rfl

/-- A step does to the byte of a metric what its marks say. -/
theorem step_expire {patterns : Patterns} {server server' : Server} {e : Event}
    {out : List Sampled} (hgood : server.Good) (h : server.Placed)
    (hstep : step patterns server e = some (server', out)) (key : Key) :
    server'.expireOf key =
      (marks key server e).foldl (life (server.isInternal key)) (server.expireOf key) := by
  cases e with
  | packet mem buffer stop =>
    obtain ⟨hfold, rfl⟩ := step_packet hstep
    rw [marks, ← life_lines]
    exact handleAll_expire _ segments_readable key hgood hfold
  | expire =>
    cases hstep
    rw [expireOf, hgood.expireTick.2, Store.expire, Option.map_map]
    show _ = (server.expireOf key).map _
    rw [expireOf, Option.map_map]
    congr 1
    funext metric
    simp only [Function.comp, expireMetric]
    by_cases hpos : EXPIRE_DISABLED < metric.expire
    · rw [if_pos hpos]
    · rw [if_neg hpos]
      simp only [EXPIRE_DISABLED] at hpos
      omega
  | httpExpire k =>
    cases hstep
    rw [expireOf, (hgood.httpExpire k).2, Store.disable, Function.update_apply, marks]
    by_cases hk : key = hashKey k
    · subst hk
      rw [if_pos rfl, if_pos rfl, Option.map_map]
      simp only [List.foldl_cons, List.foldl_nil, life, expireOf, Option.map_map]
      rfl
    · rw [if_neg hk, if_neg (Ne.symm hk)]
      rfl
  | tick t =>
    rw [step, Option.some.injEq] at hstep
    have htick := tick_expire hgood h patterns t key
    rwa [hstep] at htick

/-! ## Whole runs -/

theorem step_of_watched {patterns : Patterns} {key : Key} {server server' : Server} {e : Event}
    {ms : List Mark} (h : watched patterns key server e = some (server', ms)) :
    (∃ out, step patterns server e = some (server', out)) ∧ ms = marks key server e := by
  obtain ⟨⟨s, out⟩, hstep, heq⟩ := Option.map_eq_some_iff.mp h
  cases heq
  exact ⟨⟨out, hstep⟩, rfl⟩

/-- Over a whole run, the byte of a metric is what its marks make of it. -/
theorem run_expire {patterns : Patterns} {key : Key} {start server : Server} {events : List Event}
    {ms : List Mark} (hgood : start.Good) (h : start.Placed)
    (hrun : Machine.run (watched patterns key) start events = some (server, ms)) :
    server.Good ∧ server.Placed ∧ Grows start server ∧
      server.expireOf key = ms.foldl (life (start.isInternal key)) (start.expireOf key) := by
  refine Machine.run_history (fun s ms => s.Good ∧ s.Placed ∧ Grows start s ∧
    s.expireOf key = ms.foldl (life (start.isInternal key)) (start.expireOf key)) ?_
    ⟨hgood, h, .refl _, rfl⟩ hrun
  rintro s e s' ms ms' ⟨hs, hp, hgrows, hexp⟩ hwatched
  obtain ⟨⟨out, hstep⟩, rfl⟩ := step_of_watched hwatched
  obtain ⟨hs', hgrows'⟩ := step_good hs hstep
  refine ⟨hs', step_placed hs hp hstep, hgrows.trans hgrows', ?_⟩
  have hint : s.isInternal key = start.isInternal key := by
    simp only [isInternal, hgrows.internal]
  rw [step_expire hs hp hstep key, hexp, hint, List.foldl_append]

theorem internalInit_expire {server : Server} (hgood : server.Good) (overlay : As → As) (key : Key) :
    (server.internalInit overlay).expireOf key =
      if key = hashKey server.name ∧ server.metricOf key = none then some EXPIRE_ACTIVE
      else server.expireOf key := by
  rw [expireOf, (internalInit_view hgood overlay).2, Function.update_apply, expireOf]
  by_cases hk : key = hashKey server.name
  · subst hk
    cases server.metricOf (hashKey server.name) <;> simp [newMetric, setOther]
  · simp [hk]

/-! ## The metrics of clients -/

/-- The history of a byte from the last line on. -/
theorem life_closed_form (ms : List Mark) {expire : Nat}
    (h : ms.foldl (life false) none = some expire) :
    ∃ old recent, ms = old ++ .line :: recent ∧ Mark.line ∉ recent ∧
      expire = if Mark.post ∈ recent then 0 else 2 - recent.count .sweep := by
  induction ms using List.reverseRecOn generalizing expire with
  | nil => cases h
  | append_singleton ms m ih =>
    rw [List.foldl_append, List.foldl_cons, List.foldl_nil] at h
    cases m with
    | line =>
      cases h
      exact ⟨ms, [], rfl, List.not_mem_nil, rfl⟩
    | post =>
      obtain ⟨n, hn, rfl⟩ := Option.map_eq_some_iff.mp h
      obtain ⟨old, recent, rfl, hline, -⟩ := ih hn
      exact ⟨old, recent ++ [.post], by simp, by simp [hline], by simp [EXPIRE_DISABLED]⟩
    | sweep =>
      obtain ⟨n, hn, rfl⟩ := Option.map_eq_some_iff.mp h
      obtain ⟨old, recent, rfl, hline, hexp⟩ := ih hn
      refine ⟨old, recent ++ [.sweep], by simp, by simp [hline], ?_⟩
      rw [hexp, List.count_append]
      by_cases hpost : Mark.post ∈ recent
      · simp [hpost]
      · simp only [hpost, if_false, List.mem_append, List.mem_singleton, reduceCtorEq, or_self,
          List.count_singleton_self]
        omega
    | sample =>
      obtain ⟨n, hn, heq⟩ := Option.map_eq_some_iff.mp h
      obtain ⟨old, recent, rfl, hline, hexp⟩ := ih hn
      refine ⟨old, recent ++ [.sample], by simp, by simp [hline], ?_⟩
      have hsame : n = expire := by simpa using heq
      rw [← hsame, hexp, List.count_append]
      simp

/-- **Expiry.** In any run of the server, for any metric in the table but brubeck's own: split what
happened to it at its last line. It is disabled if there was a `POST /expire` for it since then, and
otherwise each expiry tick since then took one from two. So the byte always has a name, and a
connected tick of the metric's backend samples it exactly when there was no such request and there
were less than two ticks. -/
theorem expiry_closed_form {patterns : Patterns} {config : Config} {key : Key}
    {early late : List Event} {before server : Server} {overlay : As → As} {ms ms' : List Mark}
    (hearly : Machine.run (watched patterns key) (boot config) early = some (before, ms))
    (hlate : Machine.run (watched patterns key) (before.internalInit overlay) late =
      some (server, ms'))
    {metric : Metric} (hm : server.metricOf key = some metric)
    (htype : metric.type ≠ .internalStats) :
    ∃ old recent, ms ++ ms' = old ++ .line :: recent ∧ Mark.line ∉ recent ∧
      metric.expire = (if Mark.post ∈ recent then 0 else 2 - recent.count .sweep) ∧
      (∃ status, (server.sendMetric key).map MetricReply.expire = some (some status)) ∧
      ∀ t, server.connects t = true → t.backend = server.shardOf key →
        (Reported key (server.tick patterns t).2 ↔
          Mark.post ∉ recent ∧ recent.count .sweep < 2) := by
  obtain ⟨hbefore, hplaced, hgrows, hexp⟩ :=
    run_expire (boot_good config) (boot_placed config) hearly
  obtain ⟨hserver, hplaced', hgrows', hexp'⟩ :=
    run_expire (internalInit_view hbefore overlay).1 (internalInit_placed hbefore hplaced overlay) hlate
  have hstype : server.typeOf key = some metric.type := by rw [typeOf, hm, Option.map_some]
  -- the metric is a client's, so registering brubeck's own has not touched it
  have hclient : (before.internalInit overlay).typeOf key ≠ some .internalStats := by
    rw [Ne, ← hgrows'.internal, hstype, Option.some.injEq]
    exact htype
  have hsame : (before.internalInit overlay).expireOf key = before.expireOf key := by
    rw [internalInit_expire hbefore]
    refine if_neg fun h => hclient ?_
    rw [internalInit_types hbefore, if_pos ⟨h.1, by rw [typeOf, h.2]; rfl⟩]
  have hfalse : (before.internalInit overlay).isInternal key = false := by
    rw [isInternal, decide_eq_false_iff_not]
    exact hclient
  have hfold : (ms ++ ms').foldl (life false) none = some metric.expire := by
    have hstart : before.expireOf key = ms.foldl (life false) none := hexp
    rw [hsame, hstart, hfalse, ← List.foldl_append] at hexp'
    rw [← Option.map_some, ← hm]
    exact hexp'.symm
  obtain ⟨old, recent, hsplit, hline, hvalue⟩ := life_closed_form _ hfold
  refine ⟨old, recent, hsplit, hline, hvalue, ?_, ?_⟩
  · obtain ⟨id, hid, hheap⟩ := metricOf_some hm
    obtain ⟨m, hheap', hname⟩ := hserver.table hid
    obtain rfl : metric = m := Option.some.inj (hheap.symm.trans hheap')
    have hhash : hashKey key = key := by
      apply hashKey_eq
      rw [← hname, Metric.name, List.length_take]
      exact lt_of_le_of_lt (Nat.min_le_left _ _) (Nat.mod_lt _ (by decide))
    have hlt : metric.expire < expireStatus.length := by
      show metric.expire < 3
      rw [hvalue]
      split <;> omega
    refine ⟨expireStatus[metric.expire], ?_⟩
    simp [sendMetric, hashtableFind, hhash, hid, hheap, List.getElem?_eq_getElem hlt]
  · intro t hconn hshard
    rw [tick_samples_iff hserver hplaced' hm, hvalue]
    simp only [hconn, hshard, true_and, EXPIRE_DISABLED]
    by_cases hpost : Mark.post ∈ recent
    · simp [hpost]
    · simp only [hpost, if_false, not_false_eq_true, true_and]
      omega

/-- A line, a tick that samples it, and an expiry tick. -/
def lineThenSweep : List Event :=
  [.packet (str "a:2|c".toList ++ [0]) 0 5, .tick ⟨0, true, 7, fun _ => ⟨0, some 100⟩⟩, .expire]

theorem expiry_closed_form_one :
    ∃ server metric, (Machine.run (watched ⟨fun _ => 0, fun _ => 0⟩ (str "a".toList)) started
        lineThenSweep) = some (server, [.line, .sample, .sweep]) ∧
      server.metricOf (str "a".toList) = some metric ∧ metric.type ≠ .internalStats ∧
      ∃ old recent, [.line, .sample, .sweep] = old ++ .line :: recent ∧ Mark.line ∉ recent ∧
        metric.expire = if Mark.post ∈ recent then 0 else 2 - recent.count .sweep := by
  have hmarks : (Machine.run (watched ⟨fun _ => 0, fun _ => 0⟩ (str "a".toList)) started
      lineThenSweep).map (fun r => (r.2, (r.1.metricOf (str "a".toList)).map Metric.type)) =
        some ([.line, .sample, .sweep], some .meter) := by decide +kernel
  obtain ⟨⟨server, ms⟩, hlate, heq⟩ := Option.map_eq_some_iff.mp hmarks
  obtain ⟨rfl, htype⟩ := Prod.mk.inj heq
  obtain ⟨metric, hm, hmeter⟩ := Option.map_eq_some_iff.mp htype
  have hne : metric.type ≠ .internalStats := by rw [hmeter]; decide
  have hearly : Machine.run (watched ⟨fun _ => 0, fun _ => 0⟩ (str "a".toList))
      (boot defaultConfig) [] = some (boot defaultConfig, []) := rfl
  obtain ⟨old, recent, hsplit, hline, hvalue, -⟩ := expiry_closed_form hearly hlate hm hne
  exact ⟨server, metric, hlate, hm, hne, old, recent, hsplit, hline, hvalue⟩

/-! ## Brubeck's own metric -/

/-- The last sweep came after the last sample. -/
def Hungry (ms : List Mark) : Prop := ∃ a b, ms = a ++ .sweep :: b ∧ Mark.sample ∉ b

/-- There were two sweeps without a sample in between. -/
def Starved (ms : List Mark) : Prop := ∃ a c, ms = a ++ .sweep :: c ∧ Hungry a

/-- Where a mark can stand in a history with one more mark at its end. -/
theorem snoc_eq {ms a c : List Mark} {m x : Mark} (h : ms ++ [m] = a ++ x :: c) :
    (c = [] ∧ m = x ∧ ms = a) ∨ ∃ c', c = c' ++ [m] ∧ ms = a ++ x :: c' := by
  rcases List.eq_nil_or_concat c with rfl | ⟨c', y, rfl⟩
  · exact .inl ⟨rfl, by simpa using List.append_inj_right' h rfl, List.append_inj_left' h rfl⟩
  · rw [List.concat_eq_append, ← List.cons_append, ← List.append_assoc] at h
    obtain rfl : m = y := by simpa using List.append_inj_right' h rfl
    exact .inr ⟨c', List.concat_eq_append, List.append_inj_left' h rfl⟩

theorem hungry_sweep (ms : List Mark) : Hungry (ms ++ [.sweep]) := ⟨ms, [], rfl, List.not_mem_nil⟩

theorem not_hungry_sample (ms : List Mark) : ¬ Hungry (ms ++ [.sample]) := by
  rintro ⟨a, b, heq, hb⟩
  rcases snoc_eq heq with ⟨-, hne, -⟩ | ⟨b', rfl, -⟩
  · cases hne
  · simp at hb

theorem starved_sweep (ms : List Mark) : Starved (ms ++ [.sweep]) ↔ Starved ms ∨ Hungry ms := by
  constructor
  · rintro ⟨a, c, heq, ha⟩
    rcases snoc_eq heq with ⟨-, -, rfl⟩ | ⟨c', -, rfl⟩
    · exact .inr ha
    · exact .inl ⟨a, c', rfl, ha⟩
  · rintro (⟨a, c, rfl, ha⟩ | ha)
    · exact ⟨a, c ++ [.sweep], by simp, ha⟩
    · exact ⟨ms, [], rfl, ha⟩

theorem starved_sample (ms : List Mark) : Starved (ms ++ [.sample]) ↔ Starved ms := by
  constructor
  · rintro ⟨a, c, heq, ha⟩
    rcases snoc_eq heq with ⟨-, hne, -⟩ | ⟨c', -, rfl⟩
    · cases hne
    · exact ⟨a, c', rfl, ha⟩
  · rintro ⟨a, c, rfl, ha⟩
    exact ⟨a, c ++ [.sample], by simp, ha⟩

def Idle (ms : List Mark) : Prop := ∀ m ∈ ms, m = .sweep ∨ m = .sample

/-- Without lines and requests, the byte of brubeck's own metric is zero once it was starved. -/
theorem life_internal {ms : List Mark} (h : Idle ms) :
    ∃ n, ms.foldl (life true) (some EXPIRE_ACTIVE) = some n ∧ n ≤ 2 ∧ (n = 0 ↔ Starved ms) ∧
      (n ≤ 1 ↔ Starved ms ∨ Hungry ms) := by
  induction ms using List.reverseRecOn with
  | nil =>
    refine ⟨2, rfl, Nat.le_refl _, iff_of_false (by decide) ?_, iff_of_false (by decide) ?_⟩
    · rintro ⟨a, c, heq, -⟩
      simp at heq
    · rintro (⟨a, c, heq, -⟩ | ⟨a, b, heq, -⟩)
      · simp at heq
      · simp at heq
  | append_singleton ms m ih =>
    obtain ⟨n, hn, hle, hzero, hone⟩ := ih fun m hm => h m (List.mem_append_left _ hm)
    rw [List.foldl_append, hn, List.foldl_cons, List.foldl_nil]
    rcases h m (by simp) with rfl | rfl
    · refine ⟨n - 1, rfl, by omega, ?_, ?_⟩
      · rw [starved_sweep, ← hone]
        omega
      · exact iff_of_true (by omega) (.inr (hungry_sweep ms))
    · simp only [life, Option.map_some, true_and, EXPIRE_DISABLED]
      rw [starved_sample, or_iff_left (not_hungry_sample ms), ← hzero]
      by_cases hpos : 0 < n
      · exact ⟨2, by simp [hpos, EXPIRE_ACTIVE], Nat.le_refl _, by omega, by omega⟩
      · exact ⟨n, by simp [hpos], hle, Iff.rfl, by omega⟩

/-- The event has no line and no request for the key. -/
def Foreign (key : Key) : Event → Prop
  | .packet mem buffer stop => ∀ r ∈ accepted mem buffer stop, r.key ≠ key
  | .httpExpire k => hashKey k ≠ key
  | .expire | .tick _ => True

theorem marks_foreign {key : Key} {e : Event} (h : Foreign key e) (server : Server) :
    Idle (marks key server e) := by
  intro m hm
  cases e with
  | packet mem buffer stop =>
    obtain ⟨r, hr, -⟩ := List.mem_map.mp hm
    rw [List.mem_filter] at hr
    exact absurd (by simpa using hr.2) (h r hr.1)
  | expire => exact .inl (List.mem_singleton.mp hm)
  | httpExpire k =>
    rw [marks, if_neg h] at hm
    cases hm
  | tick t =>
    rw [marks] at hm
    split at hm
    · exact .inr (List.mem_singleton.mp hm)
    · cases hm

theorem run_foreign {patterns : Patterns} {key : Key} {start server : Server} {events : List Event}
    {ms : List Mark} (h : ∀ e ∈ events, Foreign key e)
    (hrun : Machine.run (watched patterns key) start events = some (server, ms)) : Idle ms := by
  refine Machine.run_history_of (fun _ ms => Idle ms) ?_ (fun m hm => by cases hm) hrun
  intro s e s' ms ms' he hms hstep
  obtain ⟨-, rfl⟩ := step_of_watched hstep
  intro m hm
  rcases List.mem_append.mp hm with hm | hm
  · exact hms m hm
  · exact marks_foreign (h e he) s m hm

theorem life_none {ms : List Mark} (h : Idle ms) : ms.foldl (life false) none = none := by
  induction ms with
  | nil => rfl
  | cons m ms ih =>
    have hrest := ih fun m hm => h m (List.mem_cons_of_mem _ hm)
    rcases h m (by simp) with rfl | rfl
    · exact hrest
    · exact hrest

/-- Brubeck's own metric is not disabled, and every connected tick of its backend samples it. -/
def Alive (patterns : Patterns) (server : Server) (key : Key) : Prop :=
  ∃ metric, server.metricOf key = some metric ∧ metric.type = .internalStats ∧
    metric.expire ≠ EXPIRE_DISABLED ∧
    ∀ t, server.connects t = true → t.backend = server.shardOf key →
      Reported key (server.tick patterns t).2

/-- In every state of every run without lines and requests for the server's own key, brubeck's own
metric is alive exactly when the expiry timer has not gone off twice since start-up without a
connected tick of its backend in between. -/
theorem internal_alive_iff {patterns : Patterns} {config : Config} {early late : List Event}
    {before server : Server} {overlay : As → As} {ms ms' : List Mark}
    (hearly : Machine.run (watched patterns (hashKey config.name)) (boot config) early =
      some (before, ms))
    (hlate : Machine.run (watched patterns (hashKey config.name)) (before.internalInit overlay) late =
      some (server, ms'))
    (hforeign : ∀ e ∈ early ++ late, Foreign (hashKey config.name) e) :
    Alive patterns server (hashKey config.name) ↔ ¬ Starved ms' := by
  obtain ⟨hbefore, hplaced, hgrows, hexp⟩ :=
    run_expire (boot_good config) (boot_placed config) hearly
  obtain ⟨hserver, hplaced', hgrows', hexp'⟩ :=
    run_expire (internalInit_view hbefore overlay).1 (internalInit_placed hbefore hplaced overlay) hlate
  have hidle := run_foreign (fun e he => hforeign e (List.mem_append_left _ he)) hearly
  have hidle' := run_foreign (fun e he => hforeign e (List.mem_append_right _ he)) hlate
  have hname : before.name = config.name := hgrows.name
  -- nobody has taken the key before start-up, so the metric is made there
  have hnone : before.metricOf (hashKey config.name) = none := by
    have hstart : before.expireOf (hashKey config.name) = ms.foldl (life false) none := hexp
    rw [life_none hidle, expireOf, Option.map_eq_none_iff] at hstart
    exact hstart
  have htype : (before.internalInit overlay).typeOf (hashKey config.name) = some .internalStats := by
    rw [internalInit_types hbefore, hname, if_pos ⟨rfl, by rw [typeOf, hnone]; rfl⟩]
  have hactive : (before.internalInit overlay).expireOf (hashKey config.name) = some EXPIRE_ACTIVE := by
    rw [internalInit_expire hbefore, hname, if_pos ⟨rfl, hnone⟩]
  have hint : (before.internalInit overlay).isInternal (hashKey config.name) = true := by
    rw [isInternal, decide_eq_true_eq]
    exact htype
  obtain ⟨n, hfold, -, hzero, -⟩ := life_internal hidle'
  rw [hint, hactive, hfold] at hexp'
  obtain ⟨metric, hm, rfl⟩ := Option.map_eq_some_iff.mp hexp'
  have hmtype : metric.type = .internalStats := by
    have := hgrows'.old htype
    rw [typeOf, hm] at this
    exact Option.some.inj this
  rw [← hzero]
  constructor
  · rintro ⟨metric', hm', -, halive, -⟩
    rw [hm] at hm'
    cases hm'
    exact halive
  · intro halive
    refine ⟨metric, hm, hmtype, halive, fun t hconn hshard => ?_⟩
    exact (tick_samples_iff hserver hplaced' hm patterns t).mpr
      ⟨hconn, hshard, Nat.pos_of_ne_zero halive⟩

/-- A connected tick between two expiry ticks. -/
def fedInTime : List Event := [.expire, .tick ⟨0, true, 7, fun _ => ⟨0, some 100⟩⟩, .expire]

theorem internal_alive_iff_fed :
    ∃ server, Machine.run (watched ⟨fun _ => 0, fun _ => 0⟩ (hashKey defaultConfig.name)) started
        fedInTime = some (server, [.sweep, .sample, .sweep]) ∧
      Alive ⟨fun _ => 0, fun _ => 0⟩ server (hashKey defaultConfig.name) := by
  have hmarks : (Machine.run (watched ⟨fun _ => 0, fun _ => 0⟩ (hashKey defaultConfig.name)) started
      fedInTime).map Prod.snd = some [.sweep, .sample, .sweep] := by decide +kernel
  obtain ⟨⟨server, ms⟩, hlate, rfl⟩ := Option.map_eq_some_iff.mp hmarks
  have hearly : Machine.run (watched ⟨fun _ => 0, fun _ => 0⟩ (hashKey defaultConfig.name))
      (boot defaultConfig) [] = some (boot defaultConfig, []) := rfl
  have hforeign : ∀ e ∈ [] ++ fedInTime, Foreign (hashKey defaultConfig.name) e := by
    simp [fedInTime, Foreign]
  refine ⟨server, hlate, (internal_alive_iff hearly hlate hforeign).mpr ?_⟩
  have hidle : Idle [.sweep, .sample, .sweep] := by simp [Idle]
  obtain ⟨n, hfold, -, hzero, -⟩ := life_internal hidle
  rw [← hzero]
  rintro rfl
  exact absurd hfold (by decide)

/-- Two expiry ticks in a row, with the backend never connected, disable brubeck's own metric. -/
theorem internal_starves :
    ¬ ∀ (patterns : Patterns) (config : Config) (early late : List Event) (before server : Server)
        (overlay : As → As) (out out' : List Sampled),
      Machine.run (step patterns) (boot config) early = some (before, out) →
      Machine.run (step patterns) (before.internalInit overlay) late = some (server, out') →
      (∀ e ∈ early ++ late, Foreign (hashKey config.name) e) →
      ∃ metric, server.metricOf (hashKey config.name) = some metric ∧
        metric.expire ≠ EXPIRE_DISABLED := by
  intro h
  have hrun : (Machine.run (step ⟨fun _ => 0, fun _ => 0⟩) started [.expire, .expire]).map
      (fun r => r.1.expireOf (hashKey defaultConfig.name)) = some (some 0) := by decide +kernel
  obtain ⟨⟨server, out⟩, hlate, hexp⟩ := Option.map_eq_some_iff.mp hrun
  obtain ⟨metric, hm, hne⟩ := h _ defaultConfig [] _ _ server id [] out rfl hlate
    (by simp [Foreign])
  rw [expireOf, hm] at hexp
  exact hne (Option.some.inj hexp)

end Server
end Brubeck
