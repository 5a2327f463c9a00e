import Brubeck.Dump
import Brubeck.Expiry
import Brubeck.Lib.Refine
import Brubeck.Log
import Brubeck.Startup
import Brubeck.Title

/-!
# Brubeck.Main

The main thread: `brubeck_server_run` polls for signals and two timers, while the other threads work. A
round of its loop is one event here, as packets, requests and ticks are.

* `round`: what a round does with what `poll` and `read` return.
* `step`: the process. A round may come between any two events of the other threads, until the loop has
  ended.
* `round_moves`: the step lemma of a round.
* `main_loop`: every run of the process is a run of the server in which the metrics are expired once for
  each time the expiry timer was read; when the loop ends, and what it does then.
* `never_expired`: without the setting `expire`, the metrics stay.
-/

namespace Brubeck

open Lib Server

def POLLIN : Nat := 1

def SIGHUP : Int := 1
def SIGINT : Int := 2
def SIGUSR2 : Int := 12
def SIGTERM : Int := 15

structure PollFd where
  fd : Int
  revents : Nat
  deriving DecidableEq

/-- `timer_elapsed`; `s` is what `read` returns. -/
def timerElapsed (fd : PollFd) (s : Int) : Bool := fd.revents &&& POLLIN ≠ 0 ∧ s = 8

/-- `signal_triggered`; a `struct signalfd_siginfo` has 128 bytes. -/
def signalTriggered (fd : PollFd) (s : Int) (signo : UInt32) : Int :=
  if fd.revents &&& POLLIN ≠ 0 ∧ s = 128 then i32 signo.toNat else -1

/-- What the world decides about a round: what `poll` and each `read` return, whether the log and the dump
can be opened, in which order the table is walked, and what the stack holds. -/
structure Round where
  poll : Option (Nat × Nat × Nat)
  signal : Int
  signo : UInt32
  update : Int
  expire : Int
  reopened : Bool
  dumpable : Bool
  error : String
  walk : List (Key × Nat) → List (Key × Nat)
  walk_perm : ∀ table, (walk table).Perm table
  stack : List Byte
  stack_length : stack.length = Title.TITLE_SIZE

/-- The variables of the main thread, with `fds[0]`, `fds[1]` and `fds[2]`. -/
structure Main where
  server : Server
  samplers : List Flow.Sampler
  config_name : List Byte
  dump_path : Option (List Byte)
  log : Log
  argv0 : Option Title.Argv
  signal : PollFd
  update : PollFd
  expire : PollFd
  nfd : Nat
  running : Bool

namespace Main

inductive Out where
  | log (effect : Log.Effect)
  | sampled (s : Sampled)
  | dumped (text : List Byte)
  | cancel (backend : Nat)
  | shutdown (sampler : Nat)

/-! ## The loop -/

def logSplunk (main : Main) (event : String) : List Out :=
  (main.log.ghLogWrite (str "instance=".toList ++ main.server.name ++
    str (" " ++ event ++ "\n").toList)).map .log

/-- `poll` looks at the first `nfd` descriptors. -/
def polled (main : Main) (revents : Nat × Nat × Nat) : Main :=
  { main with
    signal := { main.signal with revents := revents.1 }
    update := { main.update with revents := revents.2.1 }
    expire := if 2 < main.nfd then { main.expire with revents := revents.2.2 } else main.expire }

/-- `dump_all_metrics`, with its file. -/
def dumpAll (main : Main) (r : Round) : List Out :=
  main.logSplunk "event=dump_metrics" ++
    if main.dump_path.isSome ∧ r.dumpable then
      [.dumped (main.server.dumpAllMetrics (r.walk main.server.table))]
    else main.logSplunk ("event=dump_failed " ++ r.error)

def onSignal (main : Main) (r : Round) (signo : Int) : Main × List Out :=
  if signo = SIGHUP then
    let (log, effects) := main.log.ghLogReopen r.reopened
    let main := { main with log := log }
    (main, effects.map .log ++ main.logSplunk "event=reload_log")
  else if signo = SIGUSR2 then (main, main.dumpAll r)
  else if signo = SIGINT ∨ signo = SIGTERM then ({ main with running := false }, [])
  else (main, [])

/-- `update_flows` and `update_proctitle`. -/
def onUpdate (main : Main) (r : Round) : Option Main :=
  let samplers := Flow.updateFlows main.samplers
  (Title.updateProctitle main.config_name main.server.backends samplers r.stack main.argv0).map
    fun argv0 => { main with samplers := samplers, argv0 := argv0 }

def onExpire (main : Main) : Main × List Out :=
  ({ main with server := main.server.expireTick }, main.logSplunk "event=expire_metrics")

/-- What follows the loop. -/
def finish (main : Main) : List Out :=
  (List.range main.server.backends.length).map .cancel ++
    (List.range main.samplers.length).map .shutdown ++ main.logSplunk "event=shutdown"

/-- A round of the loop, and what follows the last one. -/
def round (main : Main) (r : Round) : Option (Main × List Out) :=
  match r.poll with
  | none => some (main, [])
  | some revents =>
    let main := main.polled revents
    let (main, out) := main.onSignal r (signalTriggered main.signal r.signal r.signo)
    (if timerElapsed main.update r.update then main.onUpdate r else some main).map fun main =>
      let (main, out') := if timerElapsed main.expire r.expire then main.onExpire else (main, [])
      (main, out ++ out' ++ if main.running then [] else main.finish)

/-- What `brubeck_server_init` leaves to `brubeck_server_run`. -/
structure Settings where
  samplers : List Flow.Sampler
  config_name : List Byte
  dump_path : Option (List Byte)
  log : Log
  argv0 : Option Title.Argv
  fd_signal : Int
  fd_update : Int
  fd_expire : Int

/-- `brubeck_server_run` before its loop. Without an expiry timer `fds[2]` stays as `memset` left it. -/
def start (server : Server) (settings : Settings) : Main where
  server := server
  samplers := settings.samplers
  config_name := settings.config_name
  dump_path := settings.dump_path
  log := settings.log
  argv0 := settings.argv0
  signal := ⟨settings.fd_signal, 0⟩
  update := ⟨settings.fd_update, 0⟩
  expire := if 0 ≤ settings.fd_expire then ⟨settings.fd_expire, 0⟩ else ⟨0, 0⟩
  nfd := if 0 ≤ settings.fd_expire then 3 else 2
  running := true

/-! ## The process -/

inductive Happening where
  | packet (mem : List Byte) (buffer stop : Nat)
  | httpExpire (key : Key)
  | tick (t : Tick)
  | received (i : Nat) (n : UInt64)
  | round (r : Round)

def serve (patterns : Patterns) (main : Main) (e : Event) : Option (Main × List Out) :=
  (Server.step patterns main.server e).map fun (server, out) =>
    ({ main with server := server }, out.map .sampled)

/-- After the loop there are no more rounds. -/
def step (patterns : Patterns) (main : Main) : Happening → Option (Main × List Out)
  | .packet mem buffer stop => main.serve patterns (.packet mem buffer stop)
  | .httpExpire key => main.serve patterns (.httpExpire key)
  | .tick t => main.serve patterns (.tick t)
  | .received i n =>
    some ({ main with samplers := main.samplers.modify i fun sampler =>
              { sampler with inflow := sampler.inflow + n } }, [])
  | .round r => if main.running then main.round r else none

/-- The round reads the expiry timer. -/
def sweeps (main : Main) (r : Round) : Bool :=
  r.poll.any fun revents => timerElapsed (main.polled revents).expire r.expire

/-- The round reads `SIGINT` or `SIGTERM`. -/
def stops (main : Main) (r : Round) : Bool :=
  r.poll.any fun revents =>
    signalTriggered (main.polled revents).signal r.signal r.signo = SIGINT ∨
      signalTriggered (main.polled revents).signal r.signal r.signo = SIGTERM

/-- What a step of the process is to the server. -/
def events (main : Main) : Happening → List Event
  | .packet mem buffer stop => [.packet mem buffer stop]
  | .httpExpire key => [.httpExpire key]
  | .tick t => [.tick t]
  | .received _ _ => []
  | .round r => if main.sweeps r then [.expire] else []

/-- The rounds that read one of the two signals. -/
def stopped (main : Main) : Happening → List Round
  | .round r => if main.stops r then [r] else []
  | _ => []

def Out.sample : Out → Option Sampled
  | .sampled s => some s
  | _ => none

/-- Threads that are told to end: those of a backend, or those of a sampler. -/
def Out.ended : Out → Option (Nat ⊕ Nat)
  | .cancel backend => some (.inl backend)
  | .shutdown sampler => some (.inr sampler)
  | _ => none

/-! ## One round -/

/-- Nothing is sampled, and no thread is told to end. -/
def Quiet (out : List Out) : Prop := out.filterMap Out.sample = [] ∧ out.filterMap Out.ended = []

theorem Quiet.append {a b : List Out} (ha : Quiet a) (hb : Quiet b) : Quiet (a ++ b) := by
  rw [Quiet, List.filterMap_append, List.filterMap_append, ha.1, ha.2, hb.1, hb.2]
  exact ⟨rfl, rfl⟩

theorem quiet_log (effects : List Log.Effect) : Quiet (effects.map .log) := by
  constructor
  · simp [List.filterMap_map, Function.comp_def, Out.sample]
  · simp [List.filterMap_map, Function.comp_def, Out.ended]

theorem quiet_dumpAll (main : Main) (r : Round) : Quiet (main.dumpAll r) := by
  refine (quiet_log _).append ?_
  split
  · exact ⟨rfl, rfl⟩
  · exact quiet_log _

theorem onSignal_eq (main : Main) (r : Round) (signo : Int) :
    (∃ log, (main.onSignal r signo).1 = { main with
      log := log
      running := main.running && !decide (signo = SIGINT ∨ signo = SIGTERM) }) ∧
    Quiet (main.onSignal r signo).2 := by
  have hsame : ¬ (signo = SIGINT ∨ signo = SIGTERM) →
      (main.running && !decide (signo = SIGINT ∨ signo = SIGTERM)) = main.running := by
    intro h
    simp [h]
  rw [onSignal]
  by_cases hhup : signo = SIGHUP
  · have hno : ¬ (signo = SIGINT ∨ signo = SIGTERM) := by rw [hhup]; decide
    rw [if_pos hhup, hsame hno]
    exact ⟨⟨_, rfl⟩, (quiet_log _).append (quiet_log _)⟩
  rw [if_neg hhup]
  by_cases husr : signo = SIGUSR2
  · have hno : ¬ (signo = SIGINT ∨ signo = SIGTERM) := by rw [husr]; decide
    rw [if_pos husr, hsame hno]
    exact ⟨⟨_, rfl⟩, quiet_dumpAll main r⟩
  rw [if_neg husr]
  by_cases hstop : signo = SIGINT ∨ signo = SIGTERM
  · rw [if_pos hstop]
    exact ⟨⟨main.log, by simp [hstop]⟩, rfl, rfl⟩
  · rw [if_neg hstop, hsame hstop]
    exact ⟨⟨_, rfl⟩, rfl, rfl⟩

/-- The threads that are told to end after the loop. -/
def ending (main : Main) : List (Nat ⊕ Nat) :=
  (List.range main.server.backends.length).map .inl ++ (List.range main.samplers.length).map .inr

theorem finish_ended (main : Main) :
    main.finish.filterMap Out.sample = [] ∧ main.finish.filterMap Out.ended = main.ending := by
  have hcancel : ∀ ns : List Nat, (ns.map Out.cancel).filterMap Out.sample = [] ∧
      (ns.map Out.cancel).filterMap Out.ended = ns.map .inl := by
    intro ns
    simp [List.filterMap_map, Function.comp_def, Out.sample, Out.ended]
  have hshutdown : ∀ ns : List Nat, (ns.map Out.shutdown).filterMap Out.sample = [] ∧
      (ns.map Out.shutdown).filterMap Out.ended = ns.map .inr := by
    intro ns
    simp [List.filterMap_map, Function.comp_def, Out.sample, Out.ended]
  simp only [finish, logSplunk, List.filterMap_append, (hcancel _).1, (hcancel _).2, (hshutdown _).1,
    (hshutdown _).2, (quiet_log _).1, (quiet_log _).2, ending]
  simp

theorem tail_ended (main : Main) :
    (if main.running then [] else main.finish).filterMap Out.sample = [] ∧
      (if main.running then [] else main.finish).filterMap Out.ended =
        if main.running then [] else main.ending := by
  split
  · exact ⟨rfl, rfl⟩
  · exact finish_ended main

/-- What a round of the loop does. -/
structure Moves (main : Main) (r : Round) (main' : Main) (out : List Out) : Prop where
  server : main'.server = if main.sweeps r then main.server.expireTick else main.server
  running : main'.running = !main.stops r
  nfd : main'.nfd = main.nfd
  expire : main'.nfd ≤ 2 → main'.expire = main.expire
  config_name : main'.config_name = main.config_name
  samplers : main'.samplers.length = main.samplers.length
  argv0 : main'.argv0 = main.argv0 ∨ Title.updateProctitle main.config_name main.server.backends
    (Flow.updateFlows main.samplers) r.stack main.argv0 = some main'.argv0
  sample : out.filterMap Out.sample = []
  ended : out.filterMap Out.ended = if main'.running then [] else main'.ending

theorem update_cases {main main' : Main} {r : Round} {elapsed : Bool}
    (h : (if elapsed then main.onUpdate r else some main) = some main') :
    ∃ samplers argv0, main' = { main with samplers := samplers, argv0 := argv0 } ∧
      samplers.length = main.samplers.length ∧
      (argv0 = main.argv0 ∨ Title.updateProctitle main.config_name main.server.backends
        (Flow.updateFlows main.samplers) r.stack main.argv0 = some argv0) := by
  split at h
  · obtain ⟨argv0, htitle, heq⟩ := Option.map_eq_some_iff.mp h
    exact ⟨Flow.updateFlows main.samplers, argv0, heq.symm, by simp [Flow.updateFlows], .inr htitle⟩
  · cases h
    exact ⟨main.samplers, main.argv0, rfl, rfl, .inl rfl⟩

theorem expire_cases {main main' : Main} {elapsed : Bool} {out : List Out}
    (h : (if elapsed then main.onExpire else (main, [])) = (main', out)) :
    main' = { main with server := if elapsed then main.server.expireTick else main.server } ∧
      Quiet out := by
  cases elapsed with
  | true =>
    cases h
    exact ⟨rfl, quiet_log _⟩
  | false =>
    cases h
    exact ⟨rfl, rfl, rfl⟩

theorem round_moves {main main' : Main} {r : Round} {out : List Out} (hrunning : main.running = true)
    (h : main.round r = some (main', out)) : Moves main r main' out := by
  rw [round] at h
  split at h
  · case _ hpoll =>
    cases h
    have hsweeps : main.sweeps r = false := by rw [sweeps, hpoll]; rfl
    have hstops : main.stops r = false := by rw [stops, hpoll]; rfl
    exact ⟨by simp [hsweeps], by simp [hstops, hrunning], rfl, fun _ => rfl, rfl, rfl, .inl rfl, rfl,
      by simp [hrunning]⟩
  · case _ revents hpoll =>
    obtain ⟨⟨log, hsignal⟩, hquiet⟩ := onSignal_eq (main.polled revents) r
      (signalTriggered (main.polled revents).signal r.signal r.signo)
    rcases hon : (main.polled revents).onSignal r
      (signalTriggered (main.polled revents).signal r.signal r.signo) with ⟨main₁, out₁⟩
    rw [hon] at hsignal hquiet
    simp only [hon] at h
    obtain ⟨main₂, hupdate, heq⟩ := Option.map_eq_some_iff.mp h
    obtain ⟨samplers, argv0, hmain₂, hlength, hargv⟩ := update_cases hupdate
    rcases hlast : (if timerElapsed main₂.expire r.expire then main₂.onExpire else (main₂, []))
      with ⟨main₃, out₃⟩
    simp only [hlast, Prod.mk.injEq] at heq
    obtain ⟨rfl, rfl⟩ := heq
    obtain ⟨hmain₃, hquiet₃⟩ := expire_cases hlast
    dsimp only at hsignal hquiet
    subst hsignal
    have hexpire : main₂.expire = (main.polled revents).expire := by rw [hmain₂]
    have hsweeps : timerElapsed main₂.expire r.expire = main.sweeps r := by
      rw [hexpire, sweeps, hpoll]
      rfl
    have hstops : main₂.running = !main.stops r := by
      rw [hmain₂, stops, hpoll]
      show (main.running && _) = _
      rw [hrunning]
      rfl
    rw [hsweeps] at hmain₃
    have hsample : (out₁ ++ out₃ ++ if main₃.running then [] else main₃.finish).filterMap Out.sample =
        [] := by
      rw [List.filterMap_append, (hquiet.append hquiet₃).1, (tail_ended main₃).1]
      rfl
    have hended : (out₁ ++ out₃ ++ if main₃.running then [] else main₃.finish).filterMap Out.ended =
        if main₃.running then [] else main₃.ending := by
      rw [List.filterMap_append, (hquiet.append hquiet₃).2, (tail_ended main₃).2]
      rfl
    have hfds : main.nfd ≤ 2 → (main.polled revents).expire = main.expire := by
      intro hnfd
      rw [polled, if_neg (Nat.not_lt.mpr hnfd)]
    refine ⟨?_, ?_, ?_, ?_, ?_, ?_, ?_, hsample, hended⟩
    · rw [hmain₃, hmain₂]
      rfl
    · rw [hmain₃]
      exact hstops
    · rw [hmain₃, hmain₂]
      rfl
    · rw [hmain₃, hmain₂]
      exact hfds
    · rw [hmain₃, hmain₂]
      rfl
    · rw [hmain₃, hmain₂]
      exact hlength
    · rw [hmain₃, hmain₂]
      exact hargv

/-! ## One step of the process -/

/-- What a step of the process can be: an event of the server, packets that are counted, or a round. -/
theorem step_cases {patterns : Patterns} {main main' : Main} {h : Happening} {out : List Out}
    (hstep : step patterns main h = some (main', out)) :
    (∃ e server outs, main.events h = [e] ∧ main.stopped h = [] ∧
      Server.step patterns main.server e = some (server, outs) ∧
      main' = { main with server := server } ∧ out = outs.map .sampled) ∨
    (∃ samplers, main.events h = [] ∧ main.stopped h = [] ∧ samplers.length = main.samplers.length ∧
      main' = { main with samplers := samplers } ∧ out = []) ∨
    ∃ r, h = .round r ∧ main.running = true ∧ Moves main r main' out := by
  have hserve : ∀ {e}, main.serve patterns e = some (main', out) → ∃ server outs,
      Server.step patterns main.server e = some (server, outs) ∧ main' = { main with server := server } ∧
        out = outs.map .sampled := by
    intro e he
    obtain ⟨⟨server, outs⟩, hone, heq⟩ := Option.map_eq_some_iff.mp he
    cases heq
    exact ⟨server, outs, hone, rfl, rfl⟩
  cases h with
  | packet mem buffer stop =>
    obtain ⟨server, outs, hone, hmain, hout⟩ := hserve hstep
    exact .inl ⟨_, server, outs, rfl, rfl, hone, hmain, hout⟩
  | httpExpire key =>
    obtain ⟨server, outs, hone, hmain, hout⟩ := hserve hstep
    exact .inl ⟨_, server, outs, rfl, rfl, hone, hmain, hout⟩
  | tick t =>
    obtain ⟨server, outs, hone, hmain, hout⟩ := hserve hstep
    exact .inl ⟨_, server, outs, rfl, rfl, hone, hmain, hout⟩
  | received i n =>
    cases hstep
    exact .inr (.inl ⟨_, rfl, rfl, List.length_modify .., rfl, rfl⟩)
  | round r =>
    rw [step] at hstep
    split at hstep
    · case _ hrunning => exact .inr (.inr ⟨r, rfl, hrunning, round_moves hrunning hstep⟩)
    · cases hstep

theorem sampled_outs (outs : List Sampled) :
    (outs.map Out.sampled).filterMap Out.sample = outs ∧
      (outs.map Out.sampled).filterMap Out.ended = [] := by
  simp [List.filterMap_map, Function.comp_def, Out.sample, Out.ended]

/-- A step of the process is what its events are to the server. -/
theorem step_serves {patterns : Patterns} {main main' : Main} {h : Happening} {out : List Out}
    (hstep : step patterns main h = some (main', out)) :
    Machine.run (Server.step patterns) main.server (main.events h) =
      some (main'.server, out.filterMap Out.sample) := by
  rcases step_cases hstep with ⟨e, server, outs, hevents, -, hone, rfl, rfl⟩ |
    ⟨samplers, hevents, -, -, rfl, rfl⟩ | ⟨r, rfl, -, hmoves⟩
  · rw [hevents, Machine.run_single, hone, (sampled_outs outs).1]
  · rw [hevents]
    rfl
  · rw [hmoves.server, hmoves.sample, events]
    split <;> rfl

theorem step_running {patterns : Patterns} {main main' : Main} {h : Happening} {out : List Out}
    (hstep : step patterns main h = some (main', out)) :
    main'.running = (main.running && (main.stopped h).isEmpty) := by
  rcases step_cases hstep with ⟨e, server, outs, -, hstopped, -, rfl, -⟩ |
    ⟨samplers, -, hstopped, -, rfl, -⟩ | ⟨r, rfl, hrunning, hmoves⟩
  · simp [hstopped]
  · simp [hstopped]
  · rw [hmoves.running, hrunning, stopped]
    cases main.stops r <;> rfl

/-- No more than the setting says: without an expiry timer, nothing sets `fds[2].revents`. -/
def NoTimer (main : Main) : Prop := main.nfd ≤ 2 ∧ main.expire.revents = 0

theorem NoTimer.step {patterns : Patterns} {main main' : Main} {h : Happening} {out : List Out}
    (hno : main.NoTimer) (hstep : step patterns main h = some (main', out)) : main'.NoTimer := by
  rcases step_cases hstep with ⟨e, server, outs, -, -, -, rfl, -⟩ | ⟨samplers, -, -, -, rfl, -⟩ |
    ⟨r, rfl, -, hmoves⟩
  · exact hno
  · exact hno
  · have hnfd : main'.nfd ≤ 2 := by rw [hmoves.nfd]; exact hno.1
    exact ⟨hnfd, by rw [hmoves.expire hnfd]; exact hno.2⟩

theorem NoTimer.events {main : Main} (hno : main.NoTimer) (h : Happening) :
    ∀ e ∈ main.events h, e ≠ .expire := by
  intro e he
  cases h with
  | packet | httpExpire | tick =>
    rw [List.mem_singleton.mp he]
    nofun
  | received => cases he
  | round r =>
    have hnot : main.sweeps r = false := by
      rw [sweeps]
      cases r.poll with
      | none => rfl
      | some revents => simp [timerElapsed, polled, Nat.not_lt.mpr hno.1, hno.2]
    rw [Main.events, hnot] at he
    cases he

/-- The sizes for which the title stays in its buffers. -/
structure Fits (main : Main) : Prop where
  name : Title.Piece 1698 main.config_name
  backends : main.server.backends.length ≤ 8
  samplers : main.samplers.length ≤ 8
  argv : ∀ argv, main.argv0 = some argv → 2 ≤ argv.argv_lth ∧ argv.argv_lth ≤ argv.area.length

/-- The title can be set, and leaves as much room for the next. -/
theorem Fits.title {main : Main} (h : main.Fits) (r : Round) :
    ∃ argv0, Title.updateProctitle main.config_name main.server.backends
        (Flow.updateFlows main.samplers) r.stack main.argv0 = some argv0 ∧
      ∀ argv, argv0 = some argv → 2 ≤ argv.argv_lth ∧ argv.argv_lth ≤ argv.area.length := by
  have hsamplers : (Flow.updateFlows main.samplers).length ≤ 8 := by
    rw [Flow.updateFlows, List.length_map]
    exact h.samplers
  cases hargv : main.argv0 with
  | none =>
    refine ⟨none, ?_, by intro argv heq; cases heq⟩
    rw [Title.puts_title h.name h.backends hsamplers r.stack_length]
    rfl
  | some argv =>
    obtain ⟨hlth, harea⟩ := h.argv argv hargv
    refine ⟨_, Title.updateProctitle_eq h.name h.backends hsamplers r.stack_length hlth harea, ?_⟩
    intro argv' heq
    cases heq
    refine ⟨hlth, ?_⟩
    simp only [Title.Argv.shows, List.length_append, List.length_replicate, List.length_drop]
    omega

/-- Nothing that the world returns makes a round write outside of its buffers. -/
theorem Fits.round {main : Main} (h : main.Fits) (r : Round) :
    ∃ main' out, main.round r = some (main', out) := by
  rw [Main.round]
  split
  · exact ⟨main, [], rfl⟩
  · case _ revents hpoll =>
    obtain ⟨⟨log, hsignal⟩, -⟩ := onSignal_eq (main.polled revents) r
      (signalTriggered (main.polled revents).signal r.signal r.signo)
    rcases hon : (main.polled revents).onSignal r
      (signalTriggered (main.polled revents).signal r.signal r.signo) with ⟨main₁, out₁⟩
    rw [hon] at hsignal
    dsimp only at hsignal
    simp only [hon]
    obtain ⟨argv0, htitle, -⟩ := h.title r
    obtain ⟨main₂, hupdate⟩ : ∃ main₂,
        (if timerElapsed main₁.update r.update then main₁.onUpdate r else some main₁) = some main₂ := by
      split
      · refine ⟨_, Option.map_eq_some_iff.mpr ⟨argv0, ?_, rfl⟩⟩
        rw [hsignal]
        exact htitle
      · exact ⟨main₁, rfl⟩
    exact ⟨_, _, Option.map_eq_some_iff.mpr ⟨main₂, hupdate, rfl⟩⟩

theorem backends_length {server server' : Server} (h : server'.queues.length = server.queues.length) :
    server'.backends.length = server.backends.length := by
  rwa [queues, queues, List.length_map, List.length_map] at h

theorem expireTick_backends (server : Server) : server.expireTick.backends = server.backends :=
  (expireTick_same server).2

theorem Fits.step {patterns : Patterns} {main main' : Main} {e : Happening} {out : List Out}
    (hgood : main.server.Good) (h : main.Fits) (hstep : step patterns main e = some (main', out)) :
    main'.Fits := by
  rcases step_cases hstep with ⟨e, server, outs, -, -, hone, rfl, -⟩ | ⟨samplers, -, -, hlength, rfl, -⟩ |
    ⟨r, rfl, -, hmoves⟩
  · exact ⟨h.name, by
      rw [backends_length (step_keeps hgood hone).length]; exact h.backends, h.samplers, h.argv⟩
  · exact ⟨h.name, h.backends, by rw [hlength]; exact h.samplers, h.argv⟩
  · have hbackends : main'.server.backends = main.server.backends := by
      rw [hmoves.server]
      split
      · exact expireTick_backends _
      · rfl
    refine ⟨hmoves.config_name ▸ h.name, by rw [hbackends]; exact h.backends,
      by rw [hmoves.samplers]; exact h.samplers, ?_⟩
    rcases hmoves.argv0 with heq | htitle
    · rw [heq]
      exact h.argv
    · obtain ⟨argv0, hargv0, hroom⟩ := h.title r
      rw [hargv0] at htitle
      cases htitle
      exact hroom

/-! ## Every run -/

/-- The main thread and the threads it has told to end. -/
structure Told (server : Server) (settings : Settings) (main : Main) (out : List Out) : Prop where
  good : main.server.Good
  placed : main.server.Placed
  backends : main.server.backends.length = server.backends.length
  samplers : main.samplers.length = settings.samplers.length
  ended : out.filterMap Out.ended = if main.running then [] else (start server settings).ending

theorem Told.step {patterns : Patterns} {server : Server} {settings : Settings} {main main' : Main}
    {h : Happening} {out out' : List Out} (htold : Told server settings main out)
    (hstep : step patterns main h = some (main', out')) :
    Told server settings main' (out ++ out') := by
  rcases step_cases hstep with ⟨e, server', outs, -, -, hone, rfl, rfl⟩ |
    ⟨samplers, -, -, hlength, rfl, rfl⟩ | ⟨r, rfl, hrunning, hmoves⟩
  · refine ⟨(step_good htold.good hone).1, step_placed htold.good htold.placed hone,
      (backends_length (step_keeps htold.good hone).length).trans htold.backends, htold.samplers, ?_⟩
    rw [List.filterMap_append, (sampled_outs outs).2, List.append_nil]
    exact htold.ended
  · refine ⟨htold.good, htold.placed, htold.backends, hlength.trans htold.samplers, ?_⟩
    rw [List.append_nil]
    exact htold.ended
  · have hserver : main'.server.Good ∧ main'.server.Placed ∧
        main'.server.backends = main.server.backends := by
      rw [hmoves.server]
      split
      · have hexpire : Server.step patterns main.server .expire = some (main.server.expireTick, []) := rfl
        exact ⟨htold.good.expireTick.1, step_placed htold.good htold.placed hexpire,
          expireTick_backends _⟩
      · exact ⟨htold.good, htold.placed, rfl⟩
    obtain ⟨hgood, hplaced, hbackends⟩ := hserver
    have hcount : main'.server.backends.length = server.backends.length := by
      rw [hbackends, htold.backends]
    have hsamplers := hmoves.samplers.trans htold.samplers
    have hending : main'.ending = (start server settings).ending := by
      rw [ending, ending, hcount, hsamplers]
      rfl
    refine ⟨hgood, hplaced, hcount, hsamplers, ?_⟩
    rw [List.filterMap_append, htold.ended, hrunning, if_pos rfl, List.nil_append, hmoves.ended, hending]

theorem run_running {patterns : Patterns} {hs : List Happening} :
    ∀ {main main' : Main} {out : List Out}, Machine.run (step patterns) main hs = some (main', out) →
      main'.running = (main.running && (Machine.trace (step patterns) stopped main hs).isEmpty) := by
  induction hs with
  | nil =>
    intro main main' out hrun
    cases hrun
    simp [Machine.trace]
  | cons h hs ih =>
    intro main main' out hrun
    obtain ⟨main₁, out₁, out₂, hone, hrest, rfl⟩ := Machine.run_cons hrun
    rw [ih hrest, step_running hone, Machine.trace_cons hone, Bool.and_assoc]
    congr 1
    cases main.stopped h <;> rfl

theorem start_noTimer (server : Server) {settings : Settings} (h : settings.fd_expire < 0) :
    (start server settings).NoTimer := by
  have hneg : ¬ 0 ≤ settings.fd_expire := by omega
  simp [NoTimer, start, hneg]

/-- **The main loop.** In every run of the process from the end of start-up: the server does what it would
do with the events of the other threads and one expiry of the metrics for each time that a round read the
expiry timer, in this order, and there is none of these without the setting `expire`. The loop runs until
the first round that reads `SIGINT` or `SIGTERM`. Then each backend's thread is cancelled and each sampler
is shut down, once, and no thread is before. Within the limits of the title, no round writes outside of its
buffers. -/
theorem main_loop {patterns : Patterns} {config : Config} {early : List Event} {before : Server}
    {early_out : List Sampled} {overlay : As → As} {settings : Settings} {hs : List Happening}
    {main : Main} {out : List Out}
    (hearly : Machine.run (Server.step patterns) (boot config) early = some (before, early_out))
    (hrun : Machine.run (step patterns) (start (before.internalInit overlay) settings) hs =
      some (main, out)) :
    Machine.run (Server.step patterns) (before.internalInit overlay)
        (Machine.trace (step patterns) events (start (before.internalInit overlay) settings) hs) =
      some (main.server, out.filterMap Out.sample) ∧
    (settings.fd_expire < 0 → Event.expire ∉
      Machine.trace (step patterns) events (start (before.internalInit overlay) settings) hs) ∧
    (main.running = true ↔
      Machine.trace (step patterns) stopped (start (before.internalInit overlay) settings) hs = []) ∧
    (out.filterMap Out.ended =
      if main.running then [] else (start (before.internalInit overlay) settings).ending) ∧
    ((start (before.internalInit overlay) settings).Fits →
      ∀ r, ∃ main' out', main.round r = some (main', out')) := by
  have hbefore := (run_good (boot_good config) hearly).1
  have hplaced := run_placed (boot_good config) (boot_placed config) hearly
  have hgood := (internalInit_view hbefore overlay).1
  have hstart : Told (before.internalInit overlay) settings
      (start (before.internalInit overlay) settings) [] :=
    ⟨hgood, internalInit_placed hbefore hplaced overlay, rfl, rfl, rfl⟩
  refine ⟨?_, fun hno hmem => ?_, ?_, ?_, fun hfits => ?_⟩
  · exact (Machine.run_refines (fun _ => True) Main.server events Out.sample
      (fun _ hstep => ⟨trivial, step_serves hstep⟩) trivial hrun).2
  · exact Machine.mem_trace NoTimer (fun hno hstep => hno.step hstep) (fun _ h _ hno => hno.events h)
      (start_noTimer _ hno) _ hmem rfl
  · rw [run_running hrun, ← List.isEmpty_iff]
    exact Iff.of_eq (congrArg (· = true) (Bool.true_and _))
  · exact (Machine.run_history (Told (before.internalInit overlay) settings)
      (fun htold hstep => htold.step hstep) hstart hrun).ended
  · have hlast := Machine.run_history (fun main out =>
      Told (before.internalInit overlay) settings main out ∧ main.Fits) ?_ ⟨hstart, hfits⟩ hrun
    · exact hlast.2.round
    · rintro main h main' out out' ⟨htold, hfits⟩ hstep
      exact ⟨htold.step hstep, hfits.step htold.good hstep⟩

/-- A round that reads the signal and the expiry timer. -/
def readsBoth (signo : UInt32) : Round where
  poll := some (1, 0, 1)
  signal := 128
  signo := signo
  update := -1
  expire := 8
  reopened := false
  dumpable := false
  error := ""
  walk := id
  walk_perm := fun table => .refl table
  stack := List.replicate 2048 0
  stack_length := List.length_replicate

def oneSampler (fd_expire : Int) : Settings :=
  ⟨[⟨8126, 0, 0⟩], str "b".toList, none, Log.init, none, 3, 4, fd_expire⟩

/-- A line comes, and the round that reads `SIGTERM` still expires the metrics. -/
def lineThenTerm : List Happening := [.packet (str "a:1|c".toList ++ [0]) 0 5, .round (readsBoth 15)]

theorem main_loop_term :
    ∃ main out, Machine.run (step ⟨fun _ => 0, fun _ => 0⟩) (start started (oneSampler 5)) lineThenTerm =
        some (main, out) ∧
      main.running = false ∧
      Machine.run (Server.step ⟨fun _ => 0, fun _ => 0⟩) started
        (Machine.trace (step ⟨fun _ => 0, fun _ => 0⟩) events (start started (oneSampler 5)) lineThenTerm) =
        some (main.server, out.filterMap Out.sample) ∧
      out.filterMap Out.ended = [.inl 0, .inr 0] := by
  obtain ⟨main, out, hrun, hstopped⟩ : ∃ main out,
      Machine.run (step ⟨fun _ => 0, fun _ => 0⟩) (start started (oneSampler 5)) lineThenTerm =
        some (main, out) ∧ main.running = false := ⟨_, _, rfl, rfl⟩
  obtain ⟨hserver, -, -, hended, -⟩ := @main_loop ⟨fun _ => 0, fun _ => 0⟩ defaultConfig [] _ [] id _ _ _ _
    rfl hrun
  rw [hstopped] at hended
  exact ⟨main, out, hrun, hstopped, hserver, hended⟩

/-! ## Without the setting `expire` -/

/-- The event is no expiry of all metrics, and no request to expire the one of the key. -/
def Spares (key : Key) (e : Event) : Prop := e ≠ .expire ∧ ∀ k, e = .httpExpire k → hashKey k ≠ key

/-- The metric of the key, if there is one, is active. -/
def Active (key : Key) (server : Server) : Prop :=
  server.expireOf key = none ∨ server.expireOf key = some EXPIRE_ACTIVE

theorem life_active {internal : Bool} {ms : List Mark} (h : ∀ m ∈ ms, m = .line ∨ m = .sample)
    {expire : Option Nat} (hexpire : expire = none ∨ expire = some EXPIRE_ACTIVE) :
    ms.foldl (life internal) expire = none ∨ ms.foldl (life internal) expire = some EXPIRE_ACTIVE := by
  induction ms generalizing expire with
  | nil => exact hexpire
  | cons m ms ih =>
    refine ih (fun m hm => h m (List.mem_cons_of_mem _ hm)) ?_
    rcases h m List.mem_cons_self with rfl | rfl
    · exact .inr rfl
    · rcases hexpire with rfl | rfl
      · exact .inl rfl
      · exact .inr (by simp [life])

theorem Active.step {patterns : Patterns} {server server' : Server} {e : Event} {out : List Sampled}
    {key : Key} (hgood : server.Good) (hplaced : server.Placed) (h : Active key server)
    (hspares : Spares key e) (hstep : Server.step patterns server e = some (server', out)) :
    Active key server' := by
  rw [Active, step_expire hgood hplaced hstep key]
  refine life_active (fun m hm => ?_) h
  cases e with
  | packet mem buffer stop =>
    obtain ⟨r, -, rfl⟩ := List.mem_map.mp hm
    exact .inl rfl
  | expire => exact absurd rfl hspares.1
  | httpExpire k =>
    rw [marks, if_neg (hspares.2 k rfl)] at hm
    cases hm
  | tick t =>
    rw [marks] at hm
    split at hm
    · exact .inr (List.mem_singleton.mp hm)
    · cases hm

theorem Active.run {patterns : Patterns} {server server' : Server} {es : List Event}
    {out : List Sampled} {key : Key} (hgood : server.Good) (hplaced : server.Placed)
    (h : Active key server) (hspares : ∀ e ∈ es, Spares key e)
    (hrun : Machine.run (Server.step patterns) server es = some (server', out)) :
    server'.Good ∧ server'.Placed ∧ Active key server' := by
  refine Machine.run_history_of (fun s _ => s.Good ∧ s.Placed ∧ Active key s) ?_
    ⟨hgood, hplaced, h⟩ hrun
  rintro s e s' log out he ⟨hs, hp, hactive⟩ hstep
  exact ⟨(step_good hs hstep).1, step_placed hs hp hstep, hactive.step hs hp (hspares e he) hstep⟩

theorem Active.internalInit {server : Server} (hgood : server.Good) {key : Key} (h : Active key server)
    (overlay : As → As) : Active key (server.internalInit overlay) := by
  rw [Active, internalInit_expire hgood]
  split
  · exact .inr rfl
  · exact h

/-- **Without `expire`.** In every run of a process whose configuration has no `expire`, a metric that no
request has named stays active, however long no line comes for it, and every connected tick of its backend
reports it. Before the main loop, too, nobody expires all metrics. -/
theorem never_expired {patterns : Patterns} {config : Config} {early : List Event} {before : Server}
    {early_out : List Sampled} {overlay : As → As} {settings : Settings} {hs : List Happening}
    {main : Main} {out : List Out}
    (hearly : Machine.run (Server.step patterns) (boot config) early = some (before, early_out))
    (hbefore : Event.expire ∉ early)
    (hrun : Machine.run (step patterns) (start (before.internalInit overlay) settings) hs =
      some (main, out))
    (hno : settings.fd_expire < 0) {key : Key}
    (hposts : ∀ k, Event.httpExpire k ∈ early ∨ Happening.httpExpire k ∈ hs → hashKey k ≠ key)
    {metric : Metric} (hm : main.server.metricOf key = some metric) :
    metric.expire = EXPIRE_ACTIVE ∧
      ∀ t, main.server.connects t = true → t.backend = main.server.shardOf key →
        Reported key (main.server.tick patterns t).2 := by
  have hspares : ∀ e ∈ early, Spares key e := by
    intro e he
    refine ⟨?_, ?_⟩
    · rintro rfl
      exact hbefore he
    · rintro k rfl
      exact hposts k (.inl he)
  obtain ⟨hgood, hplaced, hactive⟩ :=
    Active.run (boot_good config) (boot_placed config) (.inl rfl) hspares hearly
  have hlate : ∀ e ∈ Machine.trace (step patterns) events (start (before.internalInit overlay) settings) hs,
      Spares key e := by
    refine Machine.mem_trace NoTimer (fun hno hstep => hno.step hstep) (fun main h hmem hno e he => ?_)
      (start_noTimer _ hno)
    refine ⟨hno.events h e he, ?_⟩
    rintro k rfl
    refine hposts k (.inr ?_)
    cases h with
    | httpExpire k' =>
      cases List.mem_singleton.mp he
      exact hmem
    | packet | tick => cases List.mem_singleton.mp he
    | received => cases he
    | round r =>
      rw [events] at he
      split at he
      · cases List.mem_singleton.mp he
      · cases he
  have hserver := (Machine.run_refines (fun _ => True) Main.server events Out.sample
    (fun _ hstep => ⟨trivial, step_serves hstep⟩) trivial hrun).2
  obtain ⟨hgood', hplaced', hlast⟩ := Active.run (internalInit_view hgood overlay).1
    (internalInit_placed hgood hplaced overlay) (hactive.internalInit hgood overlay) hlate hserver
  have hexpire : metric.expire = EXPIRE_ACTIVE := by
    rw [Active, expireOf, hm] at hlast
    rcases hlast with hnone | hsome
    · cases hnone
    · exact Option.some.inj hsome
  refine ⟨hexpire, fun t hconnects hshard => ?_⟩
  exact (tick_samples_iff hgood' hplaced' hm patterns t).mpr
    ⟨hconnects, hshard, by rw [hexpire]; decide⟩

/-- A line, and two rounds in which the expiry timer would be read if there were one. -/
def lineThenRounds : List Happening :=
  [.packet (str "a:1|c".toList ++ [0]) 0 5, .round (readsBoth 0), .round (readsBoth 0)]

theorem never_expired_kept :
    ∃ main out metric, Machine.run (step ⟨fun _ => 0, fun _ => 0⟩) (start started (oneSampler (-1)))
        lineThenRounds = some (main, out) ∧
      main.server.metricOf (str "a".toList) = some metric ∧ metric.expire = EXPIRE_ACTIVE := by
  obtain ⟨main, out, hrun, hheld⟩ : ∃ main out,
      Machine.run (step ⟨fun _ => 0, fun _ => 0⟩) (start started (oneSampler (-1))) lineThenRounds =
        some (main, out) ∧ (main.server.metricOf (str "a".toList)).isSome = true := ⟨_, _, rfl, rfl⟩
  obtain ⟨metric, hm⟩ := Option.isSome_iff_exists.mp hheld
  have hactive := @never_expired ⟨fun _ => 0, fun _ => 0⟩ defaultConfig [] _ [] id _ _ _ _ rfl
    List.not_mem_nil hrun (by decide) (str "a".toList) (by
      rintro k (hk | hk)
      · cases hk
      · simp [lineThenRounds] at hk) metric hm
  exact ⟨main, out, metric, hrun, hm, hactive.1⟩

end Main
end Brubeck
