import Brubeck.Carbon.Wire
import Brubeck.Queues

/-!
# Brubeck.Carbon.Drive

A server does nothing to its backends but what `backend__thread` and the registration of metrics do:
whatever a run of the server leaves of a backend, a run of its thread leaves. What holds of every run
of a thread therefore holds of every backend of a server.

* `Driven`: from one state of a backend to another by the calls of its thread, between two ticks.
* `step_driven`, `run_driven`: every step of a server, and so every run, drives each backend.
* `Reaches.driven`: the same from start-up on.
-/

namespace Brubeck

open Lib

namespace Carbon

def Driven (patterns : Patterns) (carbon carbon' : Carbon) : Prop :=
  ∃ acts effects,
    Machine.run (Worker.step patterns) ⟨carbon, false⟩ acts = some (⟨carbon', false⟩, effects)

theorem Driven.refl (patterns : Patterns) (carbon : Carbon) : Driven patterns carbon carbon :=
  ⟨[], [], rfl⟩

theorem Driven.trans {patterns : Patterns} {a b c : Carbon} (h : Driven patterns a b)
    (h' : Driven patterns b c) : Driven patterns a c := by
  obtain ⟨acts, effects, hrun⟩ := h
  obtain ⟨acts', effects', hrun'⟩ := h'
  exact ⟨acts ++ acts', effects ++ effects', Machine.run_append hrun hrun'⟩

theorem Driven.register (patterns : Patterns) (carbon : Carbon) (id : Nat) :
    Driven patterns carbon { carbon with queue := id :: carbon.queue } :=
  ⟨[.register id], [], rfl⟩

/-- The samples of a tick, one after the other. -/
theorem run_samples (patterns : Patterns) (env : Nat → Answer) (outs : List (Key × Value)) :
    ∀ carbon : Carbon, ∃ effects,
      Machine.run (Worker.step patterns) ⟨carbon, true⟩ (outs.map (.sample env)) =
        some (⟨outs.foldl (sampleCallback patterns env) carbon, true⟩, effects) := by
  induction outs with
  | nil => intro carbon; exact ⟨[], rfl⟩
  | cons out outs ih =>
    intro carbon
    obtain ⟨effects, hrun⟩ := ih (carbon.sampleCallback patterns env out)
    refine ⟨carbon.sampleEffects patterns env out ++ effects, ?_⟩
    simp only [List.map_cons, Machine.run, Worker.step, if_true, hrun, Option.map_some, List.foldl_cons]

/-- A whole tick: the thread wakes up, samples, and flushes. -/
theorem Driven.tick (patterns : Patterns) {carbon : Carbon} {grant : Bool}
    (hconn : (carbon.connect grant).1 = 0) (now : UInt32) (env : Nat → Answer)
    (outs : List (Key × Value)) :
    Driven patterns carbon
      ((outs.foldl (sampleCallback patterns env)
        { (carbon.connect grant).2 with tick_time := now }).flush env) := by
  obtain ⟨effects, hsamples⟩ :=
    run_samples patterns env outs { (carbon.connect grant).2 with tick_time := now }
  have hwake : Machine.run (Worker.step patterns) ⟨carbon, false⟩ [.wake grant now] =
      some (⟨{ (carbon.connect grant).2 with tick_time := now }, true⟩, []) := by
    simp only [Machine.run, Worker.step, Bool.false_eq_true, if_false, hconn, ne_eq, not_true,
      Option.map_some, List.append_nil]
  have hflush := fun c : Carbon => show Machine.run (Worker.step patterns) ⟨c, true⟩ [.flush env] =
      some (⟨c.flush env, false⟩, (if c.pickle then c.flushEffects else []) ++ []) from rfl
  exact ⟨_, _, Machine.run_append hwake (Machine.run_append hsamples (hflush _))⟩

end Carbon

/-- What a tick hands to the encoder of its backend. -/
theorem visits_carbon (patterns : Patterns) (env : Nat → Answer) (queue : List Nat) :
    ∀ st : Visiting, ∃ outs : List (Key × Value),
      (visits patterns env st queue).carbon =
        outs.foldl (Carbon.sampleCallback patterns env) st.carbon := by
  induction queue with
  | nil => intro st; exact ⟨[], rfl⟩
  | cons id queue ih =>
    intro st
    obtain ⟨outs, houts⟩ := ih (visit patterns env st id)
    have hvisit : ∃ out : List (Key × Value), (visit patterns env st id).carbon =
        out.foldl (Carbon.sampleCallback patterns env) st.carbon := by
      cases hm : st.server.heap[id]? with
      | none => exact ⟨[], by simp only [visit, hm]; rfl⟩
      | some metric =>
        rcases visit_cases patterns env hm with ⟨-, hv⟩ | ⟨-, out, metric', stats, -, hv⟩
        · exact ⟨[], by rw [hv]; rfl⟩
        · exact ⟨out, by rw [hv]⟩
    obtain ⟨out, hout⟩ := hvisit
    exact ⟨out ++ outs, by rw [List.foldl_append, ← hout]; exact houts⟩

namespace Server

open Statsd Carbon

/-- Every backend of `server'` comes from the one of `server` at the same place. -/
def Drives (patterns : Patterns) (server server' : Server) : Prop :=
  ∀ (b : Nat) (carbon' : Carbon), server'.backends[b]? = some carbon' →
    ∃ carbon, server.backends[b]? = some carbon ∧ Driven patterns carbon carbon'

theorem Drives.of_eq {patterns : Patterns} {server server' : Server}
    (h : server'.backends = server.backends) : Drives patterns server server' := by
  intro b carbon' hb
  rw [h] at hb
  exact ⟨carbon', hb, .refl patterns carbon'⟩

theorem Drives.trans {patterns : Patterns} {a b c : Server} (h : Drives patterns a b)
    (h' : Drives patterns b c) : Drives patterns a c := by
  intro i carbon' hi
  obtain ⟨mid, hmid, hlast⟩ := h' i carbon' hi
  obtain ⟨carbon, hc, hfirst⟩ := h i mid hmid
  exact ⟨carbon, hc, hfirst.trans hlast⟩

theorem Drives.modify {patterns : Patterns} {server server' : Server} {b : Nat} {f : Carbon → Carbon}
    (hf : ∀ carbon, server.backends[b]? = some carbon → Driven patterns carbon (f carbon))
    (h : server'.backends = server.backends.modify b f) : Drives patterns server server' := by
  intro i carbon' hi
  rw [h, List.getElem?_modify] at hi
  obtain ⟨carbon, hc, rfl⟩ := Option.map_eq_some_iff.mp hi
  refine ⟨carbon, hc, ?_⟩
  by_cases hb : b = i
  · rw [if_pos hb]
    exact hf carbon (hb ▸ hc)
  · rw [if_neg hb]
    exact .refl patterns carbon

theorem added_driven (patterns : Patterns) {server server' : Server} {key : Key} {type : MetricType}
    (h : server'.backends = (server.added key type).backends) : Drives patterns server server' :=
  .modify (fun carbon _ => .register patterns carbon server.heap.length) h

theorem handleAll_driven (patterns : Patterns) (segs : List (Option Reading)) :
    ∀ {server server' : Server}, segs.foldlM handle server = some server' →
      Drives patterns server server' := by
  induction segs with
  | nil => intro server server' hfold; cases hfold; exact .of_eq rfl
  | cons o segs ih =>
    intro server server' hfold
    rw [List.foldlM_cons] at hfold
    obtain ⟨server₁, hhandle, hrest⟩ := Option.bind_eq_some_iff.mp hfold
    have hone : Drives patterns server server₁ := by
      rcases handle_cases hhandle with ⟨-, hbackends⟩ | ⟨key, type, -, -, hbackends⟩
      · exact .of_eq hbackends
      · exact added_driven patterns hbackends
    exact hone.trans (ih hrest)

theorem tick_driven (patterns : Patterns) (server : Server) (t : Tick) :
    Drives patterns server (server.tick patterns t).1 := by
  cases hc : server.backends[t.backend]? with
  | none => exact .of_eq (by simp only [tick, hc])
  | some carbon =>
    by_cases hconn : (carbon.connect t.grant).1 = 0
    · obtain ⟨-, hbackends, -⟩ := visits_frame patterns t.env carbon.queue (t.start server carbon)
      obtain ⟨outs, houts⟩ := visits_carbon patterns t.env carbon.queue (t.start server carbon)
      simp only [tick, hc, hconn, ne_eq, not_true, if_false]
      refine .modify (fun old hold => ?_) (congrArg (List.modify · t.backend _) hbackends)
      obtain rfl : carbon = old := Option.some.inj (hc.symm.trans hold)
      rw [houts]
      exact .tick patterns hconn t.now t.env outs
    · exact .of_eq (by simp only [tick, hc, ne_eq, hconn, not_false_eq_true, if_true])

theorem step_driven {patterns : Patterns} {server server' : Server} {e : Event} {out : List Sampled}
    (hstep : step patterns server e = some (server', out)) : Drives patterns server server' := by
  cases e with
  | packet mem buffer stop =>
    obtain ⟨hfold, rfl⟩ := step_packet hstep
    exact handleAll_driven patterns _ hfold
  | expire =>
    cases hstep
    exact .of_eq (expireTick_same server).2
  | httpExpire key =>
    cases hstep
    exact .of_eq (httpExpire_same server key).2
  | tick t =>
    rw [step, Option.some.injEq] at hstep
    have hdriven := tick_driven patterns server t
    rwa [hstep] at hdriven

theorem run_driven {patterns : Patterns} {server server' : Server} {events : List Event}
    {out : List Sampled} (hrun : Machine.run (step patterns) server events = some (server', out)) :
    Drives patterns server server' :=
  Machine.run_invariant (Drives patterns server) (fun h hstep => h.trans (step_driven hstep))
    (.of_eq rfl) hrun

theorem internalInit_driven (patterns : Patterns) (server : Server) (overlay : As → As) :
    Drives patterns server (server.internalInit overlay) := by
  cases hfind : server.hashtableFind server.name with
  | none =>
    simp only [internalInit, metricNew_new hfind]
    exact added_driven patterns rfl
  | some id =>
    simp only [internalInit, metricNew_old hfind]
    exact .of_eq rfl

/-- Whatever a run of the program leaves of a backend, a run of its thread leaves. -/
theorem Reaches.driven {patterns : Patterns} {config : Config} {before server : Server}
    (h : Reaches patterns config before server) : Drives patterns (boot config) server := by
  obtain ⟨⟨events, out, hearly⟩, overlay, events', out', hlate⟩ := h
  exact ((run_driven hearly).trans (internalInit_driven patterns before overlay)).trans
    (run_driven hlate)

end Server
end Brubeck
