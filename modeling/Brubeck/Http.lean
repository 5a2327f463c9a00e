import Brubeck.Cell
import Brubeck.Limits

/-!
# Brubeck.Http

The HTTP endpoint of `http.c`: what a request is answered in any state that a server reaches.

A reply is what `json_pack` is given. It fails on a text that is not UTF-8 and on a number that is not
finite, and then `strlen` is called with `NULL`: that is a `none`. The check of the text is a parameter.

* `handleRequest`: the switch on method and URL. Only a `POST` changes anything.
* `Cell.Shown`: what the endpoint shows of a metric, from the history of its key.
* `metric_endpoint`: `GET /metric/key` and `POST /expire/key` after any run.
-/

namespace Brubeck
namespace Http

open Lib Server Statsd

inductive SamplerType where
  | statsd
  | statsdSecure
  deriving DecidableEq

/-- An address and a port, as in a `struct sockaddr_in`. -/
structure Sockaddr where
  addr : UInt32
  port : UInt16
  deriving DecidableEq

/-- The part of `struct brubeck_sampler` that is shown. -/
structure Sampler where
  type : SamplerType
  addr : Sockaddr
  current_flow : UInt64

/-- What a request is answered from. `out_sockaddr` has the address of each backend. -/
structure Endpoint where
  server : Server
  samplers : List Sampler
  out_sockaddr : Nat → Sockaddr
  version : String
  pid : Int

/-! ## Replies -/

structure BackendReply where
  sample_freq : Int
  connected : Bool
  addr : Sockaddr
  sent : UInt64
  deriving DecidableEq

structure SamplerReply where
  type : String
  sample_freq : UInt64
  addr : Sockaddr
  deriving DecidableEq

/-- Each counter is a `uint32_t` that is passed as an `int`. -/
structure StatsReply where
  version : String
  metrics : Int
  errors : Int
  unique_keys : Int
  failed : Int
  from_future : Int
  delayed : Int
  replayed : Int
  backends : List BackendReply
  samplers : List SamplerReply
  deriving DecidableEq

structure PingReply where
  version : String
  pid : Int
  status : String
  metrics_per_second : Value
  errors_per_second : Value
  unique_keys : Int
  deriving DecidableEq

inductive Body where
  | ping (reply : PingReply)
  | stats (reply : StatsReply)
  | metric (reply : MetricReply)
  | empty
  | text (message : String)
  deriving DecidableEq

structure Response where
  status : Nat
  body : Body
  deriving DecidableEq

def ok (body : Body) : Response := ⟨200, body⟩

def notFound : Response := ⟨404, .text "404 not found"⟩

def samplerName : SamplerType → String
  | .statsd => "statsd"
  | .statsdSecure => "statsd_secure"

/-- A counter of the last sample, as an `int`. -/
def counter (endpoint : Endpoint) (field : Counters → UInt32) : Int :=
  i32 (field endpoint.server.internal_stats.sample).toNat

def sendStats (endpoint : Endpoint) : StatsReply where
  version := endpoint.version
  metrics := counter endpoint Counters.metrics
  errors := counter endpoint Counters.errors
  unique_keys := counter endpoint Counters.unique_keys
  failed := counter endpoint Counters.failed
  from_future := counter endpoint Counters.from_future
  delayed := counter endpoint Counters.delayed
  replayed := counter endpoint Counters.replayed
  backends := endpoint.server.backends.mapIdx fun i carbon =>
    ⟨carbon.sample_freq, carbon.connected, endpoint.out_sockaddr i, carbon.sent⟩
  samplers := endpoint.samplers.map fun sampler =>
    ⟨samplerName sampler.type, sampler.current_flow, sampler.addr⟩

/-- The numbers are not finite when the frequency is zero. -/
def sendPing (endpoint : Endpoint) : Option PingReply :=
  let stats := endpoint.server.internal_stats
  if stats.sample_freq = 0 then none
  else some {
    version := endpoint.version
    pid := endpoint.pid
    status :=
      if endpoint.server.backends.all Carbon.connected then "OK" else "ERROR (backend disconnected)"
    metrics_per_second := (stats.sample.metrics.toNat : Value) / stats.sample_freq
    errors_per_second := (stats.sample.errors.toNat : Value) / stats.sample_freq
    unique_keys := counter endpoint Counters.unique_keys }

/-! ## Requests -/

/-- Both are C strings. -/
structure Request where
  method : List Byte
  url : List Byte

/-- Whether a string begins with another; its end is read as a NUL. -/
def startsWith : List Byte → List Byte → Bool
  | _, [] => true
  | s, c :: rest => if cur s ≠ c then false else startsWith s.tail rest

def METRIC : List Byte := str "/metric/".toList

def EXPIRE : List Byte := str "/expire/".toList

/-- `send_metric`, with the check that `json_pack` makes of the key. -/
def sendMetricReply (utf8 : List Byte → Bool) (server : Server) (key : Key) : Option Response :=
  match server.sendMetric key with
  | none => some notFound
  | some reply => if utf8 reply.key ∧ reply.expire.isSome then some (ok (.metric reply)) else none

/-- `expire_metric`. -/
def expireMetricReply (server : Server) (key : Key) : Response :=
  if (server.hashtableFind key).isSome then ok .empty else notFound

/-- `handle_request`: the response, and the server afterwards. Without `BRUBECK_METRICS_FLOW` there are
no flow stats. -/
def handleRequest (utf8 : List Byte → Bool) (endpoint : Endpoint) (request : Request) :
    Option (Response × Server) :=
  let server := endpoint.server
  if request.method = str "GET".toList then
    if request.url = str "/_ping".toList ∨ request.url = str "/ping".toList then
      (sendPing endpoint).map fun reply => (ok (.ping reply), server)
    else if request.url = str "/stats".toList then some (ok (.stats (sendStats endpoint)), server)
    else if request.url = str "/flow_stats".toList then some (notFound, server)
    else if startsWith request.url METRIC then
      (sendMetricReply utf8 server (request.url.drop METRIC.length)).map (·, server)
    else some (notFound, server)
  else if request.method = str "POST".toList then
    if startsWith request.url EXPIRE then
      let key := request.url.drop EXPIRE.length
      some (expireMetricReply server key, server.httpExpire key)
    else some (notFound, server)
  else some (notFound, server)

theorem startsWith_append (s rest : List Byte) : startsWith (s ++ rest) s = true := by
  induction s with
  | nil => rfl
  | cons c s ih =>
    show (if c ≠ c then false else startsWith (s ++ rest) s) = true
    rw [if_neg (not_not.mpr rfl), ih]

def getMetric (key : Key) : Request := ⟨str "GET".toList, METRIC ++ key⟩

def postExpire (key : Key) : Request := ⟨str "POST".toList, EXPIRE ++ key⟩

/-- A URL that begins like one for a metric is none of the fixed ones. -/
theorem metric_url (key : Key) {url : List Byte} (h : url[1]? ≠ some (ch 'm')) : METRIC ++ key ≠ url := by
  rintro rfl
  exact h rfl

theorem handleRequest_getMetric (utf8 : List Byte → Bool) (endpoint : Endpoint) (key : Key) :
    handleRequest utf8 endpoint (getMetric key) =
      (sendMetricReply utf8 endpoint.server key).map (·, endpoint.server) := by
  have hping : ¬ ((getMetric key).url = str "/_ping".toList ∨
      (getMetric key).url = str "/ping".toList) :=
    not_or.mpr ⟨metric_url key (by decide), metric_url key (by decide)⟩
  have hstats : (getMetric key).url ≠ str "/stats".toList := metric_url key (by decide)
  have hflow : (getMetric key).url ≠ str "/flow_stats".toList := metric_url key (by decide)
  have hstarts : startsWith (getMetric key).url METRIC = true := startsWith_append METRIC key
  have hdrop : (getMetric key).url.drop METRIC.length = key := List.drop_left
  have hget : (getMetric key).method = str "GET".toList := rfl
  simp only [handleRequest, if_pos hget, if_neg hping, if_neg hstats, if_neg hflow, if_pos hstarts, hdrop]

theorem handleRequest_postExpire (utf8 : List Byte → Bool) (endpoint : Endpoint) (key : Key) :
    handleRequest utf8 endpoint (postExpire key) =
      some (expireMetricReply endpoint.server key, endpoint.server.httpExpire key) := by
  have hget : str "POST".toList ≠ str "GET".toList := by decide
  have hpost : (postExpire key).method = str "POST".toList := rfl
  have hstarts : startsWith (postExpire key).url EXPIRE = true := startsWith_append EXPIRE key
  have hdrop : (postExpire key).url.drop EXPIRE.length = key := List.drop_left
  simp only [handleRequest, hpost, if_neg hget, if_true, if_pos hstarts, hdrop]

end Http

namespace Cell

open Lib Server Statsd

/-! ## The history of a metric -/

/-- What the history of a key makes of its metric. The first line gives it its type. The last one makes
it active, and since then each expiry tick took one from two, unless it was disabled by a request. -/
structure Shown (turns : List Turn) (type : MetricType) (expire : Nat) : Prop where
  first : ∃ older r newer, turns = older ++ .line r :: newer ∧ (∀ r', .line r' ∉ older) ∧ r.type = type
  last : ∃ old r recent, turns = old ++ .line r :: recent ∧ (∀ r', .line r' ∉ recent) ∧
    expire = if .post ∈ recent then 0 else 2 - recent.count .sweep

theorem Shown.more {turns : List Turn} {type : MetricType} {expire : Nat} (h : Shown turns type expire)
    {t : Turn} (ht : ∀ r, t ≠ .line r) {expire' : Nat}
    (hexpire : ∀ recent : List Turn, expire = (if .post ∈ recent then 0 else 2 - recent.count .sweep) →
      expire' = if .post ∈ recent ++ [t] then 0 else 2 - (recent ++ [t]).count .sweep) :
    Shown (turns ++ [t]) type expire' where
  first := by
    obtain ⟨older, r, newer, rfl, holder, htype⟩ := h.first
    exact ⟨older, r, newer ++ [t], by simp, holder, htype⟩
  last := by
    obtain ⟨old, r, recent, rfl, hrecent, hexp⟩ := h.last
    refine ⟨old, r, recent ++ [t], by simp, fun r' hmem => ?_, hexpire recent hexp⟩
    rcases List.mem_append.mp hmem with hmem | hmem
    · exact hrecent r' hmem
    · exact ht r' (List.mem_singleton.mp hmem).symm

/-- What is known of a cell after some turns that were all about one key. -/
def Traced (key : Key) (turns : List Turn) : Option Metric → Prop
  | none => ∀ r, .line r ∉ turns
  | some metric =>
    metric.key = key ∧ metric.type ≠ .internalStats ∧ Shown turns metric.type metric.expire

/-- A turn of one key: a line is a client's. -/
def About (key : Key) (t : Turn) : Prop :=
  ∀ r, t = .line r → r.key = key ∧ r.type ≠ .internalStats ∧ (0 : Byte) ∉ key

theorem Traced.line {key : Key} {turns : List Turn} {cell : Option Metric} (h : Traced key turns cell)
    {r : Reading} (hkey : r.key = key) (htype : r.type ≠ .internalStats) {metric : Metric}
    (hrecord : (find cell r).record r.value r.sample_freq r.modifiers = some metric) :
    Traced key (turns ++ [.line r]) (some metric) := by
  obtain ⟨record, -, rfl⟩ := Option.map_eq_some_iff.mp hrecord
  have hlast : ∃ old r' recent, turns ++ [.line r] = old ++ .line r' :: recent ∧
      (∀ r', .line r' ∉ recent) ∧
      EXPIRE_ACTIVE = if Turn.post ∈ recent then 0 else 2 - recent.count Turn.sweep :=
    ⟨turns, r, [], rfl, by simp, rfl⟩
  cases cell with
  | none => exact ⟨hkey, htype, ⟨turns, r, [], rfl, h, rfl⟩, hlast⟩
  | some old =>
    obtain ⟨hkey', hclient, hshown⟩ := h
    obtain ⟨older, r', newer, hturns, holder, htype'⟩ := hshown.first
    exact ⟨hkey', hclient, ⟨older, r', newer ++ [.line r], by simp [hturns], holder, htype'⟩, hlast⟩

theorem Traced.other {key : Key} {turns : List Turn} (h : Traced key turns none) {t : Turn}
    (ht : ∀ r, t ≠ .line r) : Traced key (turns ++ [t]) none := by
  intro r hmem
  rcases List.mem_append.mp hmem with hmem | hmem
  · exact h r hmem
  · exact ht r (List.mem_singleton.mp hmem).symm

theorem expireMetric_eq (metric : Metric) :
    expireMetric metric = { metric with expire := metric.expire - 1 } := by
  obtain ⟨key, type, expire, as⟩ := metric
  cases expire <;> rfl

theorem Traced.step {key : Key} {turns : List Turn} {cell cell' : Option Metric}
    (h : Traced key turns cell) {t : Turn} (ht : About key t) {out : List (Key × Value)}
    (hstep : Cell.step cell t = some (cell', out)) : Traced key (turns ++ [t]) cell' := by
  cases t with
  | line r =>
    obtain ⟨metric, hrecord, heq⟩ := Option.map_eq_some_iff.mp hstep
    cases heq
    obtain ⟨hkey, htype, -⟩ := ht r rfl
    exact h.line hkey htype hrecord
  | sweep =>
    cases hstep
    cases cell with
    | none => exact h.other (by simp)
    | some metric =>
      show Traced key _ (some (expireMetric metric))
      rw [expireMetric_eq]
      refine ⟨h.1, h.2.1, h.2.2.more (by simp) fun recent hrecent => ?_⟩
      rw [hrecent]
      by_cases hpost : Turn.post ∈ recent
      · simp [hpost]
      · simp only [hpost, if_false, List.mem_append, List.mem_singleton, reduceCtorEq, or_self,
          List.count_append, List.count_singleton_self]
        omega
  | post =>
    cases hstep
    cases cell with
    | none => exact h.other (by simp)
    | some metric =>
      refine ⟨h.1, h.2.1, h.2.2.more (by simp) fun recent _ => ?_⟩
      simp [EXPIRE_DISABLED]
  | sample sample_freq =>
    have hmore : ∀ {type : MetricType} {expire : Nat}, Shown turns type expire →
        Shown (turns ++ [.sample sample_freq]) type expire := by
      intro type expire hshown
      refine hshown.more (by simp) fun recent hrecent => ?_
      rw [hrecent, List.count_append]
      simp
    cases cell with
    | none =>
      cases hstep
      exact h.other (by simp)
    | some metric =>
      obtain ⟨hkey, hclient, hshown⟩ := h
      simp only [Cell.step] at hstep
      split at hstep
      · cases hstep
        have htype : (sample metric sample_freq).2.type = metric.type :=
          metric.sample_type noStats sample_freq
        have hexpire : (sample metric sample_freq).2.expire = metric.expire :=
          (sample_expire metric noStats sample_freq).trans (if_neg hclient)
        refine ⟨(metric.sample_key noStats sample_freq).trans hkey, ?_, ?_⟩
        · rw [htype]
          exact hclient
        · rw [htype, hexpire]
          exact hmore hshown
      · cases hstep
        exact ⟨hkey, hclient, hmore hshown⟩

theorem run_traced {key : Key} {ts : List Turn} (hts : ∀ t ∈ ts, About key t) :
    ∀ {turns : List Turn} {cell cell' : Option Metric} {out : List (Key × Value)},
      Traced key turns cell → Machine.run Cell.step cell ts = some (cell', out) →
      Traced key (turns ++ ts) cell' := by
  induction ts with
  | nil =>
    intro turns cell cell' out h hrun
    cases hrun
    rwa [List.append_nil]
  | cons t ts ih =>
    intro turns cell cell' out h hrun
    obtain ⟨cell₁, out₁, out₂, hstep, hrest, -⟩ := Machine.run_cons hrun
    have hone := h.step (hts t List.mem_cons_self) hstep
    rw [List.append_cons]
    exact ih (fun t ht => hts t (List.mem_cons_of_mem _ ht)) hone hrest

theorem turns_about (key : Key) (server : Server) (e : Server.Event) :
    ∀ t ∈ turns key server e, About key t := by
  intro t ht r hr
  subst hr
  cases e with
  | packet mem buffer stop =>
    simp only [turns, List.mem_map, List.mem_filter] at ht
    obtain ⟨r', ⟨hmem, hkey⟩, heq⟩ := ht
    cases heq
    have hkey' : r.key = key := by simpa using hkey
    refine ⟨hkey', accepted_type hmem, fun hnul => ?_⟩
    rw [← hkey'] at hnul
    exact ((accepted_key hmem).1 0 hnul).nul rfl
  | expire => simp [turns] at ht
  | httpExpire k =>
    rw [turns] at ht
    split at ht <;> simp at ht
  | tick t =>
    rw [turns] at ht
    split at ht
    · split at ht <;> simp at ht
    · cases ht

theorem history_about (patterns : Patterns) (key : Key) (config : Config) (overlay : As → As)
    (before : Server) (early late : List Server.Event) :
    ∀ t ∈ history patterns key config overlay before early late, About key t := by
  intro t ht
  rcases List.mem_append.mp ht with ht | ht
  · exact Machine.mem_trace (fun _ => True) (fun _ _ => trivial) (fun s e _ _ => turns_about key s e) trivial t ht
  · exact Machine.mem_trace (fun _ => True) (fun _ _ => trivial) (fun s e _ _ => turns_about key s e) trivial t ht

/-- The cell of a client's key after a whole run. -/
theorem whole_run_traced {patterns : Patterns} {key : Key} {config : Config} {overlay : As → As}
    {before server : Server} {early late : List Server.Event} {out out' : List Sampled}
    (hearly : Machine.run (Server.step patterns) (boot config) early = some (before, out))
    (hlate : Machine.run (Server.step patterns) (before.internalInit overlay) late =
      some (server, out'))
    (hkey : key ≠ hashKey config.name) :
    Traced key (history patterns key config overlay before early late) (server.metricOf key) := by
  have hnone : Traced key [] none := fun r h => by cases h
  exact run_traced (history_about patterns key config overlay before early late) hnone (whole_run hearly hlate hkey).2

end Cell

namespace Http

open Lib Server Statsd

theorem hashtableFind_isSome {server : Server} (h : server.Good) (key : Key) :
    (server.hashtableFind key).isSome = (server.metricOf (hashKey key)).isSome := by
  rw [hashtableFind]
  cases hid : server.table.lookup (hashKey key) with
  | none =>
    rw [metricOf_none hid]
    rfl
  | some id =>
    obtain ⟨metric, hm, -⟩ := h.table hid
    rw [metricOf_eq hid, hm]
    rfl

theorem sendMetric_eq (server : Server) (key : Key) :
    server.sendMetric key = (server.metricOf (hashKey key)).map fun metric =>
      { key := metric.key.take (strlen metric.key)
        type := metricTypes metric.type
        shard := 0
        expire := expireStatus[metric.expire]? } := by
  rw [sendMetric, hashtableFind, metricOf]
  cases server.table.lookup (hashKey key) with
  | none => rfl
  | some id => rfl

/-- **The metrics over HTTP.** After any run of the server, for any key but brubeck's own (a URL is cut
like every key at a length of 16 bits): when no line for the key was accepted, both requests for it are
answered with 404. Otherwise `GET /metric/key` shows the key, the type of the first line for it and its
state, or brings the server down when the key is not UTF-8, and `POST /expire/key` is accepted. -/
theorem metric_endpoint (utf8 : List Byte → Bool) {patterns : Patterns} {config : Config}
    {overlay : As → As} {before : Server} {early late : List Server.Event} {out out' : List Sampled}
    {endpoint : Endpoint} {key : Key}
    (hearly : Machine.run (Server.step patterns) (boot config) early = some (before, out))
    (hlate : Machine.run (Server.step patterns) (before.internalInit overlay) late =
      some (endpoint.server, out'))
    (hkey : hashKey key ≠ hashKey config.name) :
    ((∀ r, .line r ∉ Cell.history patterns (hashKey key) config overlay before early late) ∧
      handleRequest utf8 endpoint (getMetric key) = some (notFound, endpoint.server) ∧
      handleRequest utf8 endpoint (postExpire key) = some (notFound, endpoint.server)) ∨
    ∃ type expire status, Cell.Shown
        (Cell.history patterns (hashKey key) config overlay before early late) type expire ∧
      expireStatus[expire]? = some status ∧
      handleRequest utf8 endpoint (getMetric key) =
        (if utf8 (hashKey key) then
          some (ok (.metric ⟨hashKey key, metricTypes type, 0, some status⟩), endpoint.server)
        else none) ∧
      handleRequest utf8 endpoint (postExpire key) =
        some (ok .empty, endpoint.server.httpExpire key) := by
  have hgood := (Cell.whole_run hearly hlate hkey).1.toGood
  have htraced := Cell.whole_run_traced hearly hlate hkey
  rw [handleRequest_getMetric, handleRequest_postExpire, sendMetricReply, sendMetric_eq,
    expireMetricReply, hashtableFind_isSome hgood]
  cases hm : endpoint.server.metricOf (hashKey key) with
  | none =>
    rw [hm] at htraced
    have hfind : endpoint.server.hashtableFind key = none := by
      have := hashtableFind_isSome hgood key
      rw [hm] at this
      exact Option.not_isSome_iff_eq_none.mp (by rw [this]; decide)
    refine .inl ⟨htraced, rfl, ?_⟩
    rw [httpExpire, hfind]
    rfl
  | some metric =>
    rw [hm] at htraced
    obtain ⟨hmkey, hclient, hshown⟩ := htraced
    obtain ⟨old, r, recent, hturns, -, hexpire⟩ := hshown.last
    have hle : metric.expire < expireStatus.length := by
      rw [hexpire]
      split
      · decide
      · show 2 - _ < 3
        omega
    have hstatus := List.getElem?_eq_getElem hle
    have hnul : (0 : Byte) ∉ hashKey key := by
      have hmem : Cell.Turn.line r ∈
          Cell.history patterns (hashKey key) config overlay before early late := by simp [hturns]
      exact (Cell.history_about _ _ _ _ _ _ _ _ hmem r rfl).2.2
    refine .inr ⟨metric.type, metric.expire, _, hshown, hstatus, ?_, rfl⟩
    simp only [Option.map_some, hmkey, strlen_of_nulFree hnul, List.take_length, hstatus]
    by_cases hutf : utf8 (hashKey key) = true
    · simp [hutf]
    · simp [hutf]

def exampleEndpoint (server : Server) : Endpoint := ⟨server, [], fun _ => ⟨0, 0⟩, "brubeck", 1⟩

theorem metric_endpoint_line :
    ∃ server out type expire status,
      Machine.run (Server.step ⟨fun _ => 0, fun _ => 0⟩) started lineThenSweep = some (server, out) ∧
      Cell.Shown (Cell.history ⟨fun _ => 0, fun _ => 0⟩ (str "a".toList) defaultConfig id
        (boot defaultConfig) [] lineThenSweep) type expire ∧
      expireStatus[expire]? = some status ∧
      handleRequest (fun _ => true) (exampleEndpoint server) (getMetric (str "a".toList)) =
        some (ok (.metric ⟨str "a".toList, metricTypes type, 0, some status⟩), server) := by
  have hsome : (Machine.run (Server.step ⟨fun _ => 0, fun _ => 0⟩) started lineThenSweep).map
      (fun r => ((r.1.sendMetric (str "a".toList)).isSome)) = some true := by decide +kernel
  obtain ⟨⟨server, out⟩, hlate, hheld⟩ := Option.map_eq_some_iff.mp hsome
  have hkey : hashKey (str "a".toList) ≠ hashKey defaultConfig.name := by decide
  have hearly : Machine.run (Server.step ⟨fun _ => 0, fun _ => 0⟩) (boot defaultConfig) [] =
      some (boot defaultConfig, []) := rfl
  have hlate' : Machine.run (Server.step ⟨fun _ => 0, fun _ => 0⟩) ((boot defaultConfig).internalInit id)
      lineThenSweep = some ((exampleEndpoint server).server, out) := hlate
  rcases metric_endpoint (fun _ => true) hearly hlate' hkey with
    ⟨-, hget, -⟩ | ⟨type, expire, status, hshown, hstatus, hget, -⟩
  · exfalso
    rw [handleRequest_getMetric, sendMetricReply] at hget
    obtain ⟨reply, hreply⟩ := Option.isSome_iff_exists.mp hheld
    have hreply' : (exampleEndpoint server).server.sendMetric (str "a".toList) = some reply := hreply
    rw [hreply'] at hget
    dsimp only at hget
    split at hget
    · cases hget
    · cases hget
  · exact ⟨server, out, type, expire, status, hlate, hshown, hstatus, hget⟩

end Http
end Brubeck
