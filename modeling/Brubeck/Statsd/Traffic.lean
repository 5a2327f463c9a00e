import Brubeck.Lib.Machine
import Brubeck.Statsd.Lines
import Mathlib.Data.UInt

/-!
# Brubeck.Statsd.Traffic

Workers that handle packets while a backend's thread is inside `brubeck_internal__sample`. Every
increment and every swap of a counter is atomic, and they interleave in any way.

* `Traffic.step`: one atomic step of a worker or of the sampling thread. A worker that is not
  interrupted handles its packet as `packetParse` does (`run_lines`).
* `step_balance`: no step loses a line. It is reported, in the live counter, or still to be counted.
* `packet_sum_of_lines`: a packet does what its lines do, and no line is lost.
-/

namespace Brubeck

open Lib

namespace Server

/-- What the loop over a packet does first with a line: it counts it. -/
def countLine (server : Server) : Option Reading → Server
  | none => server.modifyLive fun live => { live with errors := live.errors + 1 }
  | some _ => server.modifyLive fun live => { live with metrics := live.metrics + 1 }

/-- What it does with an accepted line after that. -/
def recordReading (server : Server) (r : Reading) : Option Server :=
  match server.metricFind r.key r.type with
  | (none, server) => some server
  | (some id, server) => server.metricRecord id r.value r.sample_freq r.modifiers

theorem handle_none (server : Server) : server.handle none = some (server.countLine none) := rfl

theorem handle_some (server : Server) (r : Reading) :
    server.handle (some r) = (server.countLine (some r)).recordReading r := rfl

theorem recordReading_live {server server' : Server} {r : Reading}
    (h : server.recordReading r = some server') :
    server'.internal_stats.live.metrics = server.internal_stats.live.metrics ∧
      server'.internal_stats.live.errors = server.internal_stats.live.errors := by
  obtain ⟨keys, hkeys⟩ := metricFind_live server r.key r.type
  have hstats : server'.internal_stats = (server.metricFind r.key r.type).2.internal_stats := by
    rw [recordReading] at h
    split at h
    · rename_i heq
      cases h
      rw [heq]
    · rename_i heq
      rw [heq]
      obtain ⟨metric, rfl⟩ := metricRecord_some h
      rfl
  rw [hstats, hkeys]
  simp [Counters.plus]

end Server

namespace Statsd

/-- What a worker has left of its packet: a line it has counted and not yet recorded, and the lines
after that. The buffer is its own, so what becomes of each line is decided when the packet arrives. -/
structure Job where
  current : Option Reading
  rest : List (Option Reading)

/-- `pc` counts the steps of `brubeck_internal__sample` that its thread has made. -/
structure Traffic where
  server : Server
  jobs : List Job
  pc : Nat

inductive Move where
  | arrive (mem : List Byte) (buffer stop : Nat)
  | count (job : Nat)
  | record (job : Nat)
  | swap

/-- One atomic step; `id` is brubeck's own metric. A swap puts out what it reports. -/
def Traffic.step (id : Nat) (st : Traffic) : Move → Option (Traffic × List (String × UInt32))
  | .arrive mem buffer stop =>
    some ({ st with jobs := st.jobs ++ [⟨none, (segments mem buffer stop).1⟩] }, [])
  | .count job =>
    match st.jobs[job]? with
    | some ⟨none, o :: rest⟩ =>
      some ({ st with server := st.server.countLine o, jobs := st.jobs.set job ⟨o, rest⟩ }, [])
    | _ => none
  | .record job =>
    match st.jobs[job]? with
    | some ⟨some r, rest⟩ =>
      (st.server.recordReading r).map fun server =>
        ({ st with server := server, jobs := st.jobs.set job ⟨none, rest⟩ }, [])
    | _ => none
  | .swap =>
    match swaps[st.pc]? with
    | some s =>
      let (value, stats) := s.run st.server.internal_stats
      some ({ st with
        server := { st.server with internal_stats := stats }
        pc := st.pc + 1 }, [(s.suffix, value)])
    | none =>
      some ({ st with
        server := st.server.modifyMetric id fun metric => { metric with expire := EXPIRE_ACTIVE }
        pc := 0 }, [])

/-- The steps of a worker for one line. -/
def lineMoves (job : Nat) : Option Reading → List Move
  | none => [.count job]
  | some _ => [.count job, .record job]

/-- A worker that is not interrupted handles the lines of its packet in order. -/
theorem run_lines (id pc : Nat) (lines : List (Option Reading)) (server : Server) :
    Machine.run (Traffic.step id) ⟨server, [⟨none, lines⟩], pc⟩ (lines.flatMap (lineMoves 0)) =
      (lines.foldlM Server.handle server).map fun server => (⟨server, [⟨none, []⟩], pc⟩, []) := by
  induction lines generalizing server with
  | nil => rfl
  | cons o lines ih =>
    cases o with
    | none =>
      rw [List.foldlM_cons, Server.handle_none]
      simp only [List.flatMap_cons, lineMoves, List.singleton_append, Machine.run, Traffic.step,
        List.getElem?_cons_zero, List.set_cons_zero, ih, List.nil_append, Option.map_map]
      rfl
    | some r =>
      rw [List.foldlM_cons, Server.handle_some]
      simp only [List.flatMap_cons, lineMoves, List.cons_append, Machine.run, Traffic.step,
        List.getElem?_cons_zero, List.set_cons_zero, List.nil_append]
      cases (server.countLine (some r)).recordReading r with
      | none => rfl
      | some server₁ =>
        simp only [Option.map_some, ih, Option.map_map]
        rfl

/-- The counter of the accepted lines, or of the rejected ones. -/
def counter (accepted : Bool) (live : Counters) : UInt32 :=
  if accepted then live.metrics else live.errors

def counterSuffix (accepted : Bool) : String := if accepted then ".metrics" else ".errors"

/-- How many lines of one kind there are. -/
def tally (accepted : Bool) (lines : List (Option Reading)) : Nat :=
  lines.countP fun o => o.isSome = accepted

/-- What one report says of a counter. -/
def share (accepted : Bool) (report : String × UInt32) : UInt32 :=
  if report.1 = counterSuffix accepted then report.2 else 0

/-- The lines that workers have not counted yet. -/
def pending (accepted : Bool) (jobs : List Job) : Nat :=
  (jobs.map fun job => tally accepted job.rest).sum

def Move.lines (accepted : Bool) : Move → Nat
  | .arrive mem buffer stop => tally accepted (segments mem buffer stop).1
  | _ => 0

theorem pending_set (accepted : Bool) {jobs : List Job} {job : Nat} {old : Job}
    (h : jobs[job]? = some old) (new : Job) :
    pending accepted (jobs.set job new) + tally accepted old.rest =
      pending accepted jobs + tally accepted new.rest :=
  Machine.sum_set (fun job : Job => tally accepted job.rest) h new

/-- The lines that were counted and not reported, and those that are not counted yet. -/
def Traffic.left (accepted : Bool) (st : Traffic) : UInt32 :=
  counter accepted st.server.internal_stats.live + UInt32.ofNat (pending accepted st.jobs)

theorem counter_countLine (accepted : Bool) (server : Server) (o : Option Reading) :
    counter accepted (server.countLine o).internal_stats.live =
      counter accepted server.internal_stats.live + UInt32.ofNat (tally accepted [o]) := by
  cases o <;> cases accepted <;> simp [counter, tally, Server.countLine, Server.modifyLive]

/-- A swap moves the whole counter into the report, and leaves the other one alone. -/
theorem counter_swap (accepted : Bool) {s : Swap} (h : s ∈ swaps) (stats : InternalStats) :
    share accepted (s.suffix, (s.run stats).1) + counter accepted (s.run stats).2.live =
      counter accepted stats.live := by
  simp only [swaps, List.mem_cons, List.not_mem_nil, or_false] at h
  rcases h with rfl | rfl | rfl | rfl | rfl | rfl | rfl <;> cases accepted <;>
    simp [share, counterSuffix, counter, Swap.run]

/-- Every line that has arrived is reported, in the live counter, or not counted yet. -/
theorem step_balance (accepted : Bool) {id : Nat} {st st' : Traffic} {move : Move}
    {out : List (String × UInt32)} (h : st.step id move = some (st', out)) :
    (out.map (share accepted)).sum + st'.left accepted =
      st.left accepted + UInt32.ofNat (move.lines accepted) := by
  cases move with
  | arrive mem buffer stop =>
    cases h
    simp [Traffic.left, pending, Move.lines, UInt32.ofNat_add, UInt32.add_assoc]
  | count job =>
    simp only [Traffic.step] at h
    split at h
    · rename_i o rest hjob
      cases h
      have hcons : tally accepted ([o] ++ rest) = tally accepted [o] + tally accepted rest :=
        List.countP_append
      have hpending : pending accepted (st.jobs.set job ⟨o, rest⟩) + tally accepted [o] =
          pending accepted st.jobs := by
        have hset := pending_set accepted hjob ⟨o, rest⟩
        rw [← List.singleton_append, hcons] at hset
        dsimp only at hset
        omega
      have hnone : UInt32.ofNat ((Move.count job).lines accepted) = 0 := rfl
      rw [hnone, add_zero, List.map_nil, List.sum_nil, zero_add]
      simp only [Traffic.left, counter_countLine, ← hpending, UInt32.ofNat_add]
      rw [add_assoc, add_comm (UInt32.ofNat (tally accepted [o]))]
    · cases h
  | record job =>
    simp only [Traffic.step] at h
    split at h
    · rename_i r rest hjob
      obtain ⟨server, hrecord, heq⟩ := Option.map_eq_some_iff.mp h
      cases heq
      obtain ⟨hmetrics, herrors⟩ := Server.recordReading_live hrecord
      have hpending : pending accepted (st.jobs.set job ⟨none, rest⟩) = pending accepted st.jobs :=
        Nat.add_right_cancel (pending_set accepted hjob ⟨none, rest⟩)
      simp [Traffic.left, counter, Move.lines, hpending, hmetrics, herrors]
    · cases h
  | swap =>
    simp only [Traffic.step] at h
    split at h
    · rename_i s hs
      cases h
      have hswap := counter_swap accepted (List.mem_of_getElem? hs) st.server.internal_stats
      have hnone : UInt32.ofNat (Move.swap.lines accepted) = 0 := rfl
      rw [hnone, add_zero, List.map_singleton, List.sum_singleton]
      simp only [Traffic.left, ← hswap, add_assoc]
    · cases h
      simp [Traffic.left, Move.lines, Server.modifyMetric]

theorem sum_ofNat (ns : List Nat) : (ns.map UInt32.ofNat).sum = UInt32.ofNat ns.sum := by
  induction ns with
  | nil => rfl
  | cons n ns ih => rw [List.map_cons, List.sum_cons, List.sum_cons, ih, UInt32.ofNat_add]

/-- A run from fresh counters. -/
theorem run_counted (accepted : Bool) {id : Nat} {st st' : Traffic} {moves : List Move}
    {out : List (String × UInt32)} (hjobs : st.jobs = [])
    (hfresh : counter accepted st.server.internal_stats.live = 0)
    (hrun : Machine.run (Traffic.step id) st moves = some (st', out)) :
    (out.map (share accepted)).sum + counter accepted st'.server.internal_stats.live +
        UInt32.ofNat (pending accepted st'.jobs) =
      UInt32.ofNat (moves.map (Move.lines accepted)).sum := by
  have hbal := (Machine.run_balance (fun _ _ => True) (Traffic.left accepted)
    (fun move => UInt32.ofNat (move.lines accepted)) (share accepted)
    (fun _ hstep => ⟨trivial, step_balance accepted hstep⟩) trivial hrun).2
  have hstart : st.left accepted = 0 := by
    rw [Traffic.left, hfresh, hjobs]
    rfl
  rw [hstart, zero_add, Traffic.left, ← add_assoc] at hbal
  rw [hbal, ← sum_ofNat, List.map_map]
  rfl

/-! ## Packets -/

/-- Whether the parser accepts a line, alone in its own buffer. -/
def lineAccepted (look : Byte) (line : List Byte) : Bool :=
  (msgParse .blank (look :: (line ++ [0])) 1 (1 + line.length)).rc = 0

theorem lineAccepted_eq {look : Byte} (hlook : look ≠ ch '.') {line : List Byte}
    (hlen : line.length < 2 ^ 16) : lineAccepted look line = (meaning line).isSome := by
  have hout := (msgParse_meaning .blank [] line [] 0 hlook hlen rfl).1
  have hrc := msgParse_rc .blank (look :: (line ++ [0])) 1 (1 + line.length)
  rw [← hout]
  show decide (_ = _) = (Parsed.outcome (msgParse .blank (look :: (line ++ [0])) 1 (1 + line.length))).isSome
  rcases hrc with h | h <;> simp [Parsed.outcome, h]

/-- What a packet leaves, when none of its lines is for an internal metric. -/
theorem packetLoop_lines {server : Server} (hgood : server.Good) (pre bytes post : List Byte)
    {look : Byte} (hlook : look ≠ ch '.') (x : Byte) (hlen : bytes.length < 2 ^ 16)
    (hinternal : ∀ r ∈ accepted (pre ++ [look] ++ (bytes ++ x :: post)) (pre ++ [look]).length
      ((pre ++ [look]).length + bytes.length), server.typeOf r.key ≠ some .internalStats) :
    ∃ server' mem', (∀ rounds, bytes.length ≤ rounds →
        packetLoop rounds server .blank (pre ++ [look] ++ (bytes ++ x :: post)) (pre ++ [look]).length
          ((pre ++ [look]).length + bytes.length) = some (server', mem')) ∧
      ((pieces (ch '\n') bytes).map meaning).foldlM Server.handle server = some server' := by
  have hsegs := segments_eq pre bytes post x hlook hlen
  generalize hmem : pre ++ [look] ++ (bytes ++ x :: post) = mem at hsegs hinternal ⊢
  generalize (pre ++ [look]).length = buffer at hsegs hinternal ⊢
  cases hparse : packetParse server mem buffer (buffer + bytes.length) with
  | none =>
    obtain ⟨r, hr, htype⟩ := (Server.packetParse_good hgood mem buffer _).1.mp hparse
    exact absurd htype (hinternal r hr)
  | some result =>
    obtain ⟨server', mem'⟩ := result
    refine ⟨server', mem', fun rounds hrounds => ?_, ?_⟩
    · rw [← hparse, packetParse, packetLoop_eq, packetLoop_eq,
        segmentLoop_rounds rounds _ .blank mem buffer _ (by omega) (Nat.le_refl _)]
    · rw [packetParse_eq, hsegs] at hparse
      obtain ⟨server₁, hfold, heq⟩ := Option.map_eq_some_iff.mp hparse
      cases heq
      exact hfold

/-- **A packet is the sum of its lines.** In every state of the program, the loop over a packet ends,
and leaves what its lines leave one after the other, each alone in a packet; there only the empty lines
are not counted. Each line is counted once, as a metric or as an error. The parser writes to a line and
its terminator only. And whatever order workers and `brubeck_internal__sample` come in, what was reported
of a counter and what is in it are together the lines that were counted. -/
theorem packet_sum_of_lines {patterns : Patterns} {config : Server.Config} {server : Server}
    (h : Server.Attains patterns config server) (pre bytes post : List Byte) (look x : Byte)
    (hlook : look ≠ ch '.') (hlen : bytes.length < MAX_PACKET_SIZE)
    (hname : ∀ r ∈ accepted (pre ++ [look] ++ (bytes ++ x :: post)) (pre ++ [look]).length
      ((pre ++ [look]).length + bytes.length), r.key ≠ Server.hashKey config.name) :
    (∃ server' mem' lone,
      (∀ rounds, bytes.length ≤ rounds →
        packetLoop rounds server .blank (pre ++ [look] ++ (bytes ++ x :: post)) (pre ++ [look]).length
          ((pre ++ [look]).length + bytes.length) = some (server', mem')) ∧
      (pieces (ch '\n') bytes).foldlM (parseAlone look) server = some lone ∧
      server' = lone.credit (errorsBy ((pieces (ch '\n') bytes).count [])) ∧
      server'.metricOf = lone.metricOf ∧
      server'.internal_stats.live.metrics = server.internal_stats.live.metrics +
        UInt32.ofNat ((pieces (ch '\n') bytes).countP fun line => lineAccepted look line) ∧
      server'.internal_stats.live.errors = server.internal_stats.live.errors +
        UInt32.ofNat ((pieces (ch '\n') bytes).countP fun line => !lineAccepted look line)) ∧
    (pieces (ch '\n') bytes).length =
      bytes.count (ch '\n') + (if bytes = [] ∨ bytes.getLast? = some (ch '\n') then 0 else 1) ∧
    (∀ (msg : Msg) (mem : List Byte) (buffer stop : Nat), buffer ≤ stop → stop < mem.length →
      ∀ i, i < buffer ∨ stop < i → (msgParse msg mem buffer stop).mem[i]? = mem[i]?) ∧
    (∀ (id : Nat) (st st' : Traffic) (moves : List Move) (out : List (String × UInt32)),
      st.jobs = [] → st.server.internal_stats.live.metrics = 0 →
      st.server.internal_stats.live.errors = 0 →
      Machine.run (Traffic.step id) st moves = some (st', out) →
      (out.map (share true)).sum + st'.server.internal_stats.live.metrics +
          UInt32.ofNat (pending true st'.jobs) =
        UInt32.ofNat (moves.map (Move.lines true)).sum ∧
      (out.map (share false)).sum + st'.server.internal_stats.live.errors +
          UInt32.ofNat (pending false st'.jobs) =
        UInt32.ofNat (moves.map (Move.lines false)).sum) := by
  have hlen16 : bytes.length < 2 ^ 16 := hlen.trans (by decide)
  have hlines : ∀ line ∈ pieces (ch '\n') bytes, ch '\n' ∉ line ∧ line.length < 2 ^ 16 :=
    fun line hline => ⟨(mem_pieces hline).1, (mem_pieces hline).2.trans_lt hlen16⟩
  refine ⟨?_, length_pieces _ _, fun msg mem buffer stop hb hstop i hi => msgParse_frame msg hb hstop hi,
    fun id st st' moves out hjobs hmetrics herrors hrun =>
      ⟨run_counted true hjobs hmetrics hrun, run_counted false hjobs herrors hrun⟩⟩
  obtain ⟨server', mem', hloop, hfold⟩ := packetLoop_lines h.internal.1 pre bytes post hlook x
    hlen16 fun r hr htype => hname r hr (h.internal.2 r.key htype)
  have halone := handleAll_alone hlook hlines server
  rw [hfold] at halone
  obtain ⟨lone, hlone, hcredit⟩ := Option.map_eq_some_iff.mp halone.symm
  obtain ⟨hmetrics, herrors⟩ := Server.handleAll_live hfold
  have haccepted : ∀ line ∈ pieces (ch '\n') bytes, lineAccepted look line = (meaning line).isSome :=
    fun line hline => lineAccepted_eq hlook (hlines line hline).2
  refine ⟨server', mem', lone, hloop, hlone, hcredit.symm, by rw [← hcredit]; rfl, ?_, ?_⟩
  · rw [hmetrics, List.countP_map]
    refine congrArg (fun n => _ + UInt32.ofNat n) (List.countP_congr fun line hline => ?_)
    rw [haccepted line hline]
    rfl
  · rw [herrors, List.countP_map]
    refine congrArg (fun n => _ + UInt32.ofNat n) (List.countP_congr fun line hline => ?_)
    rw [haccepted line hline]
    simp

/-- An accepted line, an empty one, and one that is rejected. -/
def threeLines : List Byte := str "a:1|c\n\nb".toList

theorem packet_sum_of_lines_three :
    (pieces (ch '\n') threeLines).length = 3 ∧
      ∃ server' mem', packetLoop 8 Server.started .blank ([0] ++ (threeLines ++ [0])) 1 9 =
          some (server', mem') ∧
        server'.internal_stats.live.metrics = 1 ∧ server'.internal_stats.live.errors = 2 := by
  have hname : ∀ r ∈ accepted ([] ++ [0] ++ (threeLines ++ 0 :: [])) 1 (1 + threeLines.length),
      r.key ≠ Server.hashKey Server.defaultConfig.name := by
    intro r hr
    have hkey : r.key ∈ [str "a".toList] := List.mem_map_of_mem (f := Reading.key) hr
    rw [List.mem_singleton.mp hkey]
    decide
  obtain ⟨⟨server', mem', lone, hloop, -, -, -, hmetrics, herrors⟩, hlength, -⟩ :=
    packet_sum_of_lines (.inr ⟨_, Server.started_reached ⟨fun _ => 0, fun _ => 0⟩⟩) [] threeLines [] 0 0
      (by decide) (by decide) hname
  exact ⟨hlength, server', mem', hloop 8 (by decide), hmetrics, herrors⟩

end Statsd
end Brubeck
