import Brubeck.Carbon.Thread
import Brubeck.Lib.Refine
import Brubeck.Queues

/-!
# Brubeck.Carbon.Relay

The relay behind a backend, over whole runs of a server and whatever the kernel answers. The two
encoders differ in what they hand to the socket at a time and in what they hold back until then;
everything else is the same for both and is here.

* `Framing`: what a unit on the wire carries, and a reader that leaves out a unit cut short.
* `Carried`: what is on the connections of a backend, the closed ones included.
* `Carried.put`: one unit more. The relay gets it, or the connection is closed.
* `Encoder`: a framing whose samples and flushes keep `Sending`.
* `tick_relayed`, `Streaming.step`: a round, and any other step.
* `Encoder.streams`: what the relay has read after a run, against what the rounds have reported.
-/

namespace Brubeck

open Lib

namespace Carbon

/-- A sample, with the second of its round. -/
structure Entry where
  now : UInt32
  sample : Sampled

/-- How an encoder puts entries on the wire: the units that carry them, what of them is still in the
buffer, and what a reader gets. -/
structure Framing (α : Type) where
  pickle : Bool
  Carries : List Byte → List Entry → Prop
  Held : Pickler → List Entry → Prop
  read : List Byte → Option (List α)
  value : Entry → α
  /-- Whole units are read back. A unit that is cut short is left out. -/
  reads : ∀ {units : List (List Byte × List Entry)} {torn : List Byte}, (∀ u ∈ units, Carries u.1 u.2) →
    (torn = [] ∨ ∃ bytes entries, Carries bytes entries ∧ torn <+: bytes ∧ torn ≠ bytes) →
    read (units.flatMap Prod.fst ++ torn) = some ((units.flatMap Prod.snd).map value)

section

variable {α : Type} (F : Framing α)

/-! ## The connections -/

/-- What one connection took: whole units, and then perhaps the beginning of one. -/
structure Stretch where
  units : List (List Byte × List Entry)
  torn : List Byte
  whole : ∀ u ∈ units, F.Carries u.1 u.2
  cut : torn = [] ∨ ∃ bytes entries, F.Carries bytes entries ∧ torn <+: bytes ∧ torn ≠ bytes

variable {F}

def Stretch.bytes (l : Stretch F) : List Byte := l.units.flatMap Prod.fst ++ l.torn

def Stretch.entries (l : Stretch F) : List Entry := l.units.flatMap Prod.snd

theorem Stretch.read_bytes (l : Stretch F) : F.read l.bytes = some (l.entries.map F.value) :=
  F.reads l.whole l.cut

/-- A connection that has just been opened. -/
def Stretch.blank : Stretch F where
  units := []
  torn := []
  whole := fun u hu => by cases hu
  cut := .inl rfl

variable (F)

/-- The connections, newest first, took the entries of `log` and no others, and `pending` is in the
buffer. Only a closed connection has a unit that was cut short. -/
structure Carried (carbon : Carbon) (log pending : List Entry) : Prop where
  encoder : carbon.pickle = F.pickle
  held : F.Held carbon.pickler pending
  offline : carbon.connected = false → pending = []
  links : ∃ links : List (Stretch F), carbon.conns = links.map Stretch.bytes ∧
    links.reverse.flatMap Stretch.entries = log ∧
    (carbon.connected = true → ∃ l rest, links = l :: rest ∧ l.torn = [])

variable {F} {carbon carbon' : Carbon} {log pending : List Entry}

theorem Carried.congr (h : Carried F carbon log pending) (hpickle : carbon'.pickle = carbon.pickle)
    (hpickler : carbon'.pickler = carbon.pickler) (hconnected : carbon'.connected = carbon.connected)
    (hconns : carbon'.conns = carbon.conns) : Carried F carbon' log pending where
  encoder := hpickle.trans h.encoder
  held := by rw [hpickler]; exact h.held
  offline := by rw [hconnected]; exact h.offline
  links := by rw [hconns, hconnected]; exact h.links

/-- What the relay has read, on all connections from the oldest to the newest. -/
theorem Carried.read (h : Carried F carbon log pending) :
    (carbon.conns.reverse.mapM F.read).map List.flatten = some (log.map F.value) := by
  obtain ⟨links, hconns, hlog, -⟩ := h.links
  have hread : ∀ links : List (Stretch F), (links.map Stretch.bytes).mapM F.read =
      some (links.map fun l => l.entries.map F.value) := by
    intro links
    induction links with
    | nil => rfl
    | cons l links ih =>
      rw [List.map_cons, List.mapM_cons, l.read_bytes, ih]
      rfl
  rw [hconns, ← List.map_reverse, hread, Option.map_some, ← hlog, List.map_flatMap, List.flatMap_def]

theorem Carried.connect (h : Carried F carbon log []) {grant : Bool}
    (hconnect : (carbon.connect grant).1 = 0) : Carried F (carbon.connect grant).2 log [] := by
  by_cases hconn : carbon.connected = true
  · simp only [Carbon.connect, if_pos hconn]
    exact h
  by_cases hgrant : grant = true
  · simp only [Carbon.connect, if_neg hconn, if_pos hgrant]
    obtain ⟨links, hconns, hlog, -⟩ := h.links
    refine ⟨h.encoder, h.held, fun _ => rfl, .blank :: links, ?_, ?_, fun _ => ⟨_, _, rfl, rfl⟩⟩
    · rw [List.map_cons, ← hconns]
      rfl
    · rw [List.reverse_cons, List.flatMap_append, hlog]
      exact List.append_nil log
  · simp only [Carbon.connect, if_neg hconn, if_neg hgrant] at hconnect
    exact absurd hconnect (by decide)

/-- One unit more on an open connection, or the beginning of it on one that is then closed. -/
theorem Carried.put (h : Carried F carbon log pending) (hconn : carbon.connected = true)
    {unit : List Byte} {entries : List Entry} (hunit : F.Carries unit entries)
    (hput : Put carbon unit carbon') (hpickle : carbon'.pickle = carbon.pickle)
    (hheld : F.Held carbon'.pickler []) :
    (carbon'.connected = true ∧ Carried F carbon' (log ++ entries) []) ∨
      (carbon'.connected = false ∧ Carried F carbon' log []) := by
  obtain ⟨links, hconns, hlog, hopen⟩ := h.links
  obtain ⟨l, rest, rfl, hwhole⟩ := hopen hconn
  have hhead : carbon.conns.headD [] = l.units.flatMap Prod.fst := by
    rw [hconns, List.map_cons, List.headD_cons, Stretch.bytes, hwhole, List.append_nil]
  have htail : carbon.conns.tail = rest.map Stretch.bytes := by rw [hconns]; rfl
  rw [List.reverse_cons, List.flatMap_append, List.flatMap_singleton] at hlog
  have hencoder := hpickle.trans h.encoder
  cases hput with
  | whole hopen' hconns' _ =>
    have hunits : ∀ u ∈ l.units ++ [(unit, entries)], F.Carries u.1 u.2 := by
      intro u hu
      rcases List.mem_append.mp hu with hu | hu
      · exact l.whole u hu
      · rw [List.mem_singleton.mp hu]
        exact hunit
    refine .inl ⟨hopen', hencoder, hheld, fun _ => rfl, ⟨_, [], hunits, .inl rfl⟩ :: rest, ?_, ?_,
      fun _ => ⟨_, _, rfl, rfl⟩⟩
    · rw [hconns', hhead, htail, List.map_cons, Stretch.bytes, List.flatMap_append,
        List.flatMap_singleton, List.append_nil]
    · rw [List.reverse_cons, List.flatMap_append, List.flatMap_singleton, Stretch.entries,
        List.flatMap_append, List.flatMap_singleton, ← hlog, List.append_assoc]
      rfl
  | torn accepted hfront hproper hclosed hconns' _ =>
    refine .inr ⟨hclosed, hencoder, hheld, fun _ => rfl,
      ⟨l.units, accepted, l.whole, .inr ⟨unit, entries, hunit, hfront, hproper⟩⟩ :: rest, ?_, ?_,
      fun hopen' => ?_⟩
    · rw [hconns', hhead, htail, List.map_cons, Stretch.bytes]
    · rw [List.reverse_cons, List.flatMap_append, List.flatMap_singleton, ← hlog]
      rfl
    · rw [hclosed] at hopen'
      cases hopen'

/-! ## One round -/

variable (F)

/-- Since the round began, `done` has been sampled. The relay gets all of it while the connection is
open, and otherwise what came before the write that failed. -/
structure Sending (now : UInt32) (log done : List Entry) (carbon : Carbon) : Prop where
  time : carbon.tick_time = now
  part : ∃ part pending, Carried F carbon (log ++ part) pending ∧ part ++ pending <+: done ∧
    (carbon.connected = true → part ++ pending = done)

end

/-- A framing that the callbacks of a backend keep to, for the samples that it can send. -/
structure Encoder (patterns : Patterns) (α : Type) extends Framing α where
  Sends : Sampled → Prop
  sample : ∀ {now : UInt32} {log done : List Entry} {carbon : Carbon} (env : Nat → Answer),
    Sending toFraming now log done carbon → ∀ {s : Sampled}, Sends s →
    Sending toFraming now log (done ++ [⟨now, s⟩]) (carbon.sampleCallback patterns env (s.name, s.value))
  flush : ∀ {now : UInt32} {log done : List Entry} {carbon : Carbon} (env : Nat → Answer),
    Sending toFraming now log done carbon →
    ∃ part, Carried toFraming (carbon.flush env) (log ++ part) [] ∧ part <+: done ∧
      ((carbon.flush env).connected = true → part = done)

theorem Encoder.samples {patterns : Patterns} {α : Type} (E : Encoder patterns α) {now : UInt32}
    {log : List Entry} (env : Nat → Answer) (samples : List Sampled) :
    ∀ {done : List Entry} {carbon : Carbon}, Sending E.toFraming now log done carbon →
      (∀ s ∈ samples, E.Sends s) →
      Sending E.toFraming now log (done ++ samples.map (Entry.mk now))
        (samples.foldl (fun c s => c.sampleCallback patterns env (s.name, s.value)) carbon) := by
  induction samples with
  | nil =>
    intro done carbon h _
    rwa [List.map_nil, List.append_nil]
  | cons s samples ih =>
    intro done carbon h hsends
    have hone := E.sample env h (hsends s List.mem_cons_self)
    have hrest := ih hone fun s' hs' => hsends s' (List.mem_cons_of_mem _ hs')
    rwa [List.append_assoc, List.singleton_append] at hrest

/-- What a round reports: the second, the samples, and whether there is a connection after it. -/
structure Report where
  now : UInt32
  samples : List Sampled
  opened : Bool

def Report.entries (r : Report) : List Entry := r.samples.map (Entry.mk r.now)

/-- What the relay gets of a round: the first of its samples, and all of them if the connection is
still open. -/
structure Report.Gives (r : Report) (part : List Entry) : Prop where
  first : part <+: r.entries
  all : r.opened = true → part = r.entries

end Carbon

/-- What a round samples, and what becomes of the backend, as one list of samples. -/
theorem visits_samples (patterns : Patterns) (env : Nat → Answer) (queue : List Nat) :
    ∀ st : Visiting, ∃ samples : List Sampled,
      (visits patterns env st queue).log = st.log ++ samples ∧
      (visits patterns env st queue).carbon =
        samples.foldl (fun c s => c.sampleCallback patterns env (s.name, s.value)) st.carbon := by
  induction queue with
  | nil => intro st; exact ⟨[], (List.append_nil _).symm, rfl⟩
  | cons id queue ih =>
    intro st
    obtain ⟨samples, hlog, hcarbon⟩ := ih (visit patterns env st id)
    have hvisit : ∃ first : List Sampled, (visit patterns env st id).log = st.log ++ first ∧
        (visit patterns env st id).carbon =
          first.foldl (fun c s => c.sampleCallback patterns env (s.name, s.value)) st.carbon := by
      cases hm : st.server.heap[id]? with
      | none => exact ⟨[], by simp only [visit, hm, List.append_nil], by simp only [visit, hm]; rfl⟩
      | some metric =>
        rcases visit_cases patterns env hm with ⟨-, hv⟩ | ⟨-, out, metric', stats, -, hv⟩
        · rw [hv]
          exact ⟨[], (List.append_nil _).symm, rfl⟩
        · rw [hv]
          exact ⟨_, rfl, by rw [List.foldl_map]⟩
    obtain ⟨first, hlog₁, hcarbon₁⟩ := hvisit
    refine ⟨first ++ samples, ?_, ?_⟩
    · rw [← List.append_assoc, ← hlog₁]
      exact hlog
    · rw [List.foldl_append, ← hcarbon₁]
      exact hcarbon

namespace Server

open Statsd Carbon

variable {patterns : Patterns} {α : Type} (E : Encoder patterns α)

/-- A round, whatever the kernel answers. -/
theorem tick_relayed {server : Server} {t : Tick} {carbon : Carbon}
    (hc : server.backends[t.backend]? = some carbon) {log : List Entry}
    (hcarried : Carried E.toFraming carbon log [])
    (hsends : ∀ s ∈ (server.tick patterns t).2, E.Sends s) :
    ∃ carbon' part, (server.tick patterns t).1.backends[t.backend]? = some carbon' ∧
      Carried E.toFraming carbon' (log ++ part) [] ∧
      (Report.mk t.now (server.tick patterns t).2 carbon'.connected).Gives part := by
  by_cases hconnect : (carbon.connect t.grant).1 = 0
  · obtain ⟨samples, hlog, hcarbon⟩ := visits_samples patterns t.env carbon.queue (t.start server carbon)
    have htick : server.tick patterns t =
        ((visits patterns t.env (t.start server carbon) carbon.queue).server.modifyBackend t.backend
          fun _ => (visits patterns t.env (t.start server carbon) carbon.queue).carbon.flush t.env,
         samples) := by
      simp only [tick, hc, hconnect, ne_eq, not_true, if_false, hlog]
      rfl
    rw [htick] at hsends
    have hstart : Sending E.toFraming t.now log [] (t.start server carbon).carbon := by
      refine ⟨rfl, [], [], ?_, List.nil_prefix, fun _ => rfl⟩
      rw [List.append_nil]
      exact (hcarried.connect hconnect).congr rfl rfl rfl rfl
    have hend := E.samples t.env samples hstart hsends
    rw [← hcarbon] at hend
    obtain ⟨part, hlast, hfront, hall⟩ := E.flush t.env hend
    have hbackends := (visits_frame patterns t.env carbon.queue (t.start server carbon)).2.1
    rw [htick]
    refine ⟨_, part, ?_, hlast, ⟨hfront, hall⟩⟩
    show (List.modify _ _ _)[t.backend]? = _
    rw [List.getElem?_modify, hbackends]
    show Option.map _ server.backends[t.backend]? = _
    rw [hc]
    simp
  · have htick : server.tick patterns t = (server, []) := by
      simp only [tick, hc, ne_eq, hconnect, not_false_eq_true, if_true]
    rw [htick]
    exact ⟨carbon, [], hc, by rwa [List.append_nil], ⟨List.nil_prefix, fun _ => rfl⟩⟩

/-! ## The other steps -/

/-- A backend as its relay knows it, without the queue. -/
def linkOf (server : Server) (b : Nat) : Option Carbon :=
  server.backends[b]?.map fun carbon => { carbon with queue := [] }

theorem linkOf_added (server : Server) (key : Key) (type : MetricType) (b : Nat) :
    (server.added key type).linkOf b = server.linkOf b := by
  simp only [linkOf, added, registerMetric, modifyLive, modifyBackend, List.getElem?_modify]
  cases server.backends[b]? with
  | none => rfl
  | some carbon =>
    simp only [Option.map_some]
    split <;> rfl

theorem linkOf_congr {server server' : Server} (h : server'.backends = server.backends) (b : Nat) :
    server'.linkOf b = server.linkOf b := by
  rw [linkOf, linkOf, h]

/-- Nothing but its own rounds touches the connections of a backend. -/
theorem step_link {server server' : Server} {e : Event} {out : List Sampled} (hgood : server.Good)
    {b : Nat} (he : ∀ t, e = .tick t → t.backend ≠ b)
    (hstep : step patterns server e = some (server', out)) : server'.linkOf b = server.linkOf b := by
  cases e with
  | packet mem buffer stop =>
    obtain ⟨hfold, -⟩ := step_packet hstep
    refine handleAll_rel (R := fun s s' => s'.linkOf b = s.linkOf b) (fun _ => rfl)
      (fun h h' => h'.trans h) segments_readable (fun _ _ hhandle => ?_) hgood hfold
    rcases handle_cases hhandle with ⟨-, hbackends⟩ | ⟨key, type, -, -, hbackends⟩
    · exact linkOf_congr hbackends b
    · exact (linkOf_congr hbackends b).trans (linkOf_added _ key type b)
  | expire =>
    cases hstep
    exact linkOf_congr (expireTick_same server).2 b
  | httpExpire key =>
    cases hstep
    exact linkOf_congr (httpExpire_same server key).2 b
  | tick t =>
    rw [step, Option.some.injEq] at hstep
    rcases tick_cases patterns server t with heq | ⟨carbon, hc, heq⟩
    · rw [heq] at hstep
      cases hstep
      rfl
    · rw [heq] at hstep
      cases hstep
      have hbackends := (visits_frame patterns t.env carbon.queue (t.start server carbon)).2.1
      rw [linkOf, linkOf]
      congr 1
      show (List.modify _ _ _)[b]? = _
      rw [List.getElem?_modify, hbackends]
      simp only [if_neg (he t rfl)]
      exact Option.map_id'

theorem internalInit_link (server : Server) (overlay : As → As) (b : Nat) :
    (server.internalInit overlay).linkOf b = server.linkOf b := by
  cases hfind : server.hashtableFind server.name with
  | none =>
    simp only [internalInit, metricNew_new hfind]
    exact linkOf_added server server.name .internalStats b
  | some id =>
    simp only [internalInit, metricNew_old hfind]
    rfl

theorem carried_of_link {F : Framing α} {server server' : Server} {b : Nat} {carbon : Carbon}
    {log : List Entry} (h : Carried F carbon log []) (hc : server.backends[b]? = some carbon)
    (hlink : server'.linkOf b = server.linkOf b) :
    ∃ carbon', server'.backends[b]? = some carbon' ∧ Carried F carbon' log [] := by
  rw [linkOf, linkOf, hc, Option.map_some] at hlink
  obtain ⟨carbon', hc', hsame⟩ := Option.map_eq_some_iff.mp hlink
  exact ⟨carbon', hc', h.congr (congrArg Carbon.pickle hsame :) (congrArg Carbon.pickler hsame :)
    (congrArg Carbon.connected hsame :) (congrArg Carbon.conns hsame :)⟩

/-! ## Whole runs -/

/-- What the event has backend `b` report. -/
def reports (patterns : Patterns) (b : Nat) (server : Server) : Event → List Report
  | .tick t =>
    if t.backend = b then
      [⟨t.now, (server.tick patterns t).2,
        ((server.tick patterns t).1.backends[b]?.map Carbon.connected).getD false⟩]
    else []
  | _ => []

/-- What backend `b` reports in a run of the program, before start-up ends and after it. -/
def reported (patterns : Patterns) (b : Nat) (config : Config) (overlay : As → As) (before : Server)
    (early late : List Event) : List Report :=
  Machine.trace (step patterns) (reports patterns b) (boot config) early ++
    Machine.trace (step patterns) (reports patterns b) (before.internalInit overlay) late

/-- The relay behind backend `b` has read what the reports so far have given, if the encoder could send
them all. -/
structure Streaming (b : Nat) (server : Server) (rs : List Report) : Prop where
  good : server.Good
  relay : (∀ r ∈ rs, ∀ s ∈ r.samples, E.Sends s) →
    ∃ carbon parts, server.backends[b]? = some carbon ∧ List.Forall₂ Report.Gives rs parts ∧
      Carried E.toFraming carbon parts.flatten []

variable {E} {b : Nat} {rs : List Report}

theorem Streaming.step {server server' : Server} {e : Event} {out : List Sampled}
    (h : Streaming E b server rs) (hstep : Server.step patterns server e = some (server', out)) :
    Streaming E b server' (rs ++ reports patterns b server e) := by
  refine ⟨(step_good h.good hstep).1, fun hsends => ?_⟩
  obtain ⟨carbon, parts, hc, hgives, hcarried⟩ :=
    h.relay fun r hr => hsends r (List.mem_append_left _ hr)
  by_cases hown : ∃ t, e = .tick t ∧ t.backend = b
  · obtain ⟨t, rfl, rfl⟩ := hown
    have hnow : ∀ s ∈ (server.tick patterns t).2, E.Sends s :=
      hsends _ (List.mem_append_right _ (by rw [reports, if_pos rfl]; exact List.mem_singleton_self _))
    obtain ⟨carbon', part, hc', hmore, hround⟩ := tick_relayed E hc hcarried hnow
    have hreports : reports patterns t.backend server (.tick t) =
        [⟨t.now, (server.tick patterns t).2, carbon'.connected⟩] := by
      simp only [reports, if_true, hc', Option.map_some, Option.getD_some]
    rw [Server.step, Option.some.injEq] at hstep
    refine ⟨carbon', parts ++ [part], ?_, ?_, ?_⟩
    · rw [← hc', hstep]
    · rw [hreports]
      exact List.rel_append hgives (.cons hround .nil)
    · rw [List.flatten_append, List.flatten_singleton]
      exact hmore
  · have hother : ∀ t, e = .tick t → t.backend ≠ b := fun t ht hb => hown ⟨t, ht, hb⟩
    have hreports : reports patterns b server e = [] := by
      cases e with
      | tick t => exact if_neg (hother t rfl)
      | packet mem buffer stop => rfl
      | expire => rfl
      | httpExpire key => rfl
    obtain ⟨carbon', hc', hcarried'⟩ := carried_of_link hcarried hc (step_link h.good hother hstep)
    rw [hreports, List.append_nil]
    exact ⟨carbon', parts, hc', hgives, hcarried'⟩

theorem Streaming.run {server server' : Server} {es : List Event} {out : List Sampled}
    (h : Streaming E b server rs)
    (hrun : Machine.run (Server.step patterns) server es = some (server', out)) :
    Streaming E b server' (rs ++ Machine.trace (Server.step patterns) (reports patterns b) server es) :=
  Machine.trace_history (Streaming E b) (fun _ h hstep => h.step hstep) h hrun

theorem Streaming.internalInit {server : Server} (h : Streaming E b server rs) (overlay : As → As) :
    Streaming E b (server.internalInit overlay) rs := by
  refine ⟨(internalInit_view h.good overlay).1, fun hsends => ?_⟩
  obtain ⟨carbon, parts, hc, hgives, hcarried⟩ := h.relay hsends
  obtain ⟨carbon', hc', hcarried'⟩ := carried_of_link hcarried hc (internalInit_link server overlay b)
  exact ⟨carbon', parts, hc', hgives, hcarried'⟩

end Server

open Server Carbon

/-- After every run, a relay that has read all connections of a backend has got of each round what the
round gives. -/
theorem Carbon.Encoder.streams {patterns : Patterns} {α : Type} (E : Encoder patterns α) {config : Config}
    {b : Nat} {start : Carbon} (hb : config.backends[b]? = some start)
    (hstart : Carried E.toFraming start [] []) {overlay : As → As} {before server : Server}
    {early late : List Event} {out out' : List Sampled}
    (hearly : Machine.run (step patterns) (boot config) early = some (before, out))
    (hlate : Machine.run (step patterns) (before.internalInit overlay) late = some (server, out'))
    (hsends : ∀ r ∈ reported patterns b config overlay before early late, ∀ s ∈ r.samples, E.Sends s) :
    ∃ parts carbon, List.Forall₂ Report.Gives (reported patterns b config overlay before early late) parts ∧
      server.backends[b]? = some carbon ∧
      (carbon.conns.reverse.mapM E.read).map List.flatten = some (parts.flatten.map E.value) := by
  have hboot : Streaming E b (boot config) [] :=
    ⟨boot_good config, fun _ => ⟨start, [], hb, .nil, hstart⟩⟩
  have hlast := ((hboot.run hearly).internalInit overlay).run hlate
  obtain ⟨carbon, parts, hc, hgives, hcarried⟩ := hlast.relay hsends
  exact ⟨parts, carbon, hgives, hc, hcarried.read⟩

end Brubeck
