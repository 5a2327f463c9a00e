import Brubeck.Carbon.Buffer

/-!
# Brubeck.Carbon.Wire

The bytes on the connections of a carbon backend, over whole runs of `backend__thread` and whatever
the kernel answers to each write.

* `Link`: one connection as the units it carried whole, and at most one that was cut short.
* `Wired.put`: one unit more. Only the open connection carries it, and if it is cut short the
  connection is closed.
* `closed_step`: nothing is written on a connection once it is closed.
* `wire_framing`: what is on all connections, and what `sent` counts.
-/

namespace Brubeck
namespace Carbon

open Lib Lib.Pickle

/-- What one connection carried: whole units, and then perhaps a unit of which the socket took the
first part only. -/
structure Link where
  units : List (List Byte)
  torn : Option (List Byte × List Byte)

namespace Link

def bytes (l : Link) : List Byte := l.units.flatten ++ (l.torn.map Prod.snd).getD []

/-- The units that were handed to the socket, in order. -/
def offered (l : Link) : List (List Byte) := l.units ++ (l.torn.map Prod.fst).toList

/-- The part taken is a proper prefix of its unit. -/
def Proper (l : Link) : Prop := ∀ cut, l.torn = some cut → cut.2 <+: cut.1 ∧ cut.2 ≠ cut.1

end Link

/-- The connections are `links`, newest first; together they carried what was offered, and `sent`
counts the whole units. Only a closed connection has a unit that was cut short. -/
structure Wired (carbon : Carbon) (offered : List (List Byte)) (links : List Link) : Prop where
  conns : carbon.conns = links.map Link.bytes
  order : links.reverse.flatMap Link.offered = offered
  proper : ∀ l ∈ links, l.Proper
  opened : carbon.connected = true → ∃ l rest, links = l :: rest ∧ l.torn = none
  sent : carbon.sent = UInt64.ofNat (links.map fun l => l.units.flatten.length).sum

theorem Wired.congr {carbon carbon' : Carbon} {offered : List (List Byte)} {links : List Link}
    (h : Wired carbon offered links) (hconns : carbon'.conns = carbon.conns)
    (hconnected : carbon'.connected = carbon.connected) (hsent : carbon'.sent = carbon.sent) :
    Wired carbon' offered links :=
  ⟨hconns.trans h.conns, h.order, h.proper, fun hc => h.opened (hconnected ▸ hc), hsent.trans h.sent⟩

theorem Wired.put {carbon carbon' : Carbon} {offered : List (List Byte)} {links : List Link}
    {unit : List Byte} (h : Wired carbon offered links) (hconn : carbon.connected = true)
    (hput : Put carbon unit carbon') : ∃ links', Wired carbon' (offered ++ [unit]) links' := by
  obtain ⟨l, rest, rfl, hwhole⟩ := h.opened hconn
  have hconns := h.conns
  have horder := h.order
  have hsent := h.sent
  have hbytes : l.bytes = l.units.flatten := by simp [Link.bytes, hwhole]
  have hoffered : l.offered = l.units := by simp [Link.offered, hwhole]
  rw [List.map_cons, hbytes] at hconns
  rw [List.reverse_cons, List.flatMap_append, List.flatMap_singleton, hoffered] at horder
  cases hput with
  | whole hopen hc hs =>
    refine ⟨⟨l.units ++ [unit], none⟩ :: rest, ?_, ?_, ?_, fun _ => ⟨_, rest, rfl, rfl⟩, ?_⟩
    · rw [hc, hconns, List.map_cons]
      simp [Link.bytes]
    · rw [List.reverse_cons, List.flatMap_append, List.flatMap_singleton, ← horder]
      simp [Link.offered]
    · intro l' hl'
      rcases List.mem_cons.mp hl' with rfl | hl'
      · intro cut hcut
        cases hcut
      · exact h.proper l' (List.mem_cons_of_mem _ hl')
    · rw [hs, hsent, ← UInt64.ofNat_add, List.map_cons, List.map_cons, List.sum_cons, List.sum_cons,
        List.flatten_append, List.length_append, List.flatten_singleton]
      congr 1
      omega
  | torn accepted hpre hne hclosed hc hs =>
    refine ⟨⟨l.units, some (unit, accepted)⟩ :: rest, ?_, ?_, ?_, ?_, ?_⟩
    · rw [hc, hconns, List.map_cons]
      simp [Link.bytes]
    · rw [List.reverse_cons, List.flatMap_append, List.flatMap_singleton, ← horder]
      simp [Link.offered]
    · intro l' hl'
      rcases List.mem_cons.mp hl' with rfl | hl'
      · intro cut hcut
        cases hcut
        exact ⟨hpre, hne⟩
      · exact h.proper l' (List.mem_cons_of_mem _ hl')
    · intro hopen
      rw [hclosed] at hopen
      cases hopen
    · rw [hs, hsent]
      rfl

theorem Wired.connect {carbon : Carbon} {offered : List (List Byte)} {links : List Link}
    (h : Wired carbon offered links) :
    Wired { carbon with connected := true, conns := [] :: carbon.conns } offered
      (⟨[], none⟩ :: links) where
  conns := by rw [h.conns]; rfl
  order := by
    rw [List.reverse_cons, List.flatMap_append, h.order]
    exact List.append_nil _
  proper := by
    intro l hl
    rcases List.mem_cons.mp hl with rfl | hl
    · intro cut hcut
      cases hcut
    · exact h.proper l hl
  opened := fun _ => ⟨_, links, rfl, rfl⟩
  sent := by
    rw [List.map_cons, List.sum_cons]
    exact h.sent.trans (congrArg UInt64.ofNat (Nat.zero_add _).symm)

/-! ## One call -/

theorem Wired.flush {carbon : Carbon} {effects : List Effect} {links : List Link}
    (h : Wired carbon (offers effects) links) (env : Nat → Answer) :
    ∃ links', Wired (carbon.pickle1Flush env) (offers (effects ++ carbon.flushEffects)) links' := by
  by_cases hskip : carbon.pickler.pt = 1 ∨ ¬ carbon.connected
  · rw [pickle1Flush_skip env hskip, flushEffects, if_pos hskip, List.append_nil]
    exact ⟨links, h⟩
  · obtain ⟨hpt, hconn⟩ := not_or.mp hskip
    obtain ⟨hput, -⟩ := pickle1Flush_put env (not_not.mp hconn) hpt
    rw [flushEffects, if_neg hskip, offers_append]
    exact h.put (not_not.mp hconn) hput

theorem Wired.sample {carbon : Carbon} {effects : List Effect} {links : List Link}
    (h : Wired carbon (offers effects) links) (patterns : Patterns) (env : Nat → Answer)
    (out : Key × Value) :
    ∃ links', Wired (carbon.sampleCallback patterns env out)
      (offers (effects ++ carbon.sampleEffects patterns env out)) links' := by
  by_cases hpickle : carbon.pickle = true
  · obtain ⟨links', hroom⟩ : ∃ links', Wired (carbon.makeRoom env (strlen out.1 % 2 ^ 8))
        (offers (effects ++ carbon.makeRoomEffects (strlen out.1 % 2 ^ 8))) links' := by
      rw [makeRoom, makeRoomEffects]
      split
      · exact h.flush env
      · rw [List.append_nil]
        exact ⟨links, h⟩
    rw [sampleCallback, if_pos hpickle, pickle1Each_eq, sampleEffects, if_pos hpickle]
    by_cases hoff : ¬ (carbon.makeRoom env (strlen out.1 % 2 ^ 8)).connected
    · simp only [if_pos hoff, List.append_nil]
      exact ⟨links', hroom⟩
    · simp only [if_neg hoff, ← List.append_assoc]
      rw [offers_append]
      refine ⟨links', ?_⟩
      rw [show offers [Effect.push _] = [] from rfl, List.append_nil]
      exact hroom.congr rfl rfl rfl
  · rw [sampleCallback, if_neg hpickle, sampleEffects, if_neg hpickle]
    by_cases hoff : ¬ carbon.connected
    · rw [plaintextEach, if_pos hoff, if_pos hoff, List.append_nil]
      exact ⟨links, h⟩
    · rw [if_neg hoff, offers_append]
      exact h.put (not_not.mp hoff) (plaintextEach_put env (not_not.mp hoff) _ _)

theorem Wired.step {patterns : Patterns} {w w' : Worker} {act : Act} {effects out : List Effect}
    {links : List Link} (h : Wired w.carbon (offers effects) links)
    (hstep : w.step patterns act = some (w', out)) :
    ∃ links', Wired w'.carbon (offers (effects ++ out)) links' := by
  rcases Worker.step_cases hstep with ⟨-, rfl, rfl⟩ | ⟨-, hconn, rfl, now, rfl⟩ |
    ⟨-, hconn, rfl, now, rfl⟩ | ⟨-, env, sampled, rfl, rfl⟩ | ⟨-, env, rfl, rfl⟩ | ⟨rfl, id, rfl⟩
  · rw [List.append_nil]
    exact ⟨links, h⟩
  · rw [List.append_nil]
    exact ⟨links, h.congr rfl rfl rfl⟩
  · rw [List.append_nil]
    exact ⟨_, h.connect.congr rfl rfl rfl⟩
  · exact h.sample patterns env sampled
  · rw [Carbon.flush]
    split
    · exact h.flush env
    · rw [List.append_nil]
      exact ⟨links, h⟩
  · rw [List.append_nil]
    exact ⟨links, h.congr rfl rfl rfl⟩

/-! ## Closed connections -/

/-- The connections nothing is written on any more. -/
def closed (carbon : Carbon) : List (List Byte) :=
  if carbon.connected then carbon.conns.tail else carbon.conns

theorem Put.closed {carbon carbon' : Carbon} {unit : List Byte} (h : Put carbon unit carbon')
    (hconn : carbon.connected = true) : carbon.closed <:+ carbon'.closed := by
  rw [Carbon.closed, if_pos hconn]
  cases h with
  | whole hopen hc _ =>
    rw [Carbon.closed, if_pos hopen, hc]
    exact List.suffix_rfl
  | torn accepted _ _ hclosed hc _ =>
    rw [Carbon.closed, if_neg (by simp [hclosed]), hc]
    exact List.suffix_cons _ _

theorem pickle1Flush_closed (env : Nat → Answer) (carbon : Carbon) :
    carbon.closed <:+ (carbon.pickle1Flush env).closed := by
  by_cases hskip : carbon.pickler.pt = 1 ∨ ¬ carbon.connected
  · simp only [pickle1Flush_skip env hskip]
    exact List.suffix_rfl
  · obtain ⟨hpt, hconn⟩ := not_or.mp hskip
    exact (pickle1Flush_put env (not_not.mp hconn) hpt).1.closed (not_not.mp hconn)

theorem sampleCallback_closed (patterns : Patterns) (env : Nat → Answer) (carbon : Carbon)
    (out : Key × Value) : carbon.closed <:+ (carbon.sampleCallback patterns env out).closed := by
  rw [sampleCallback]
  split
  · have hroom : carbon.closed <:+ (carbon.makeRoom env (strlen out.1 % 2 ^ 8)).closed := by
      rw [makeRoom]
      split
      · exact pickle1Flush_closed env carbon
      · exact List.suffix_rfl
    rw [pickle1Each_eq]
    dsimp only
    split
    · exact hroom
    · exact hroom
  · by_cases hoff : ¬ carbon.connected
    · simp only [plaintextEach, if_pos hoff]
      exact List.suffix_rfl
    · exact (plaintextEach_put env (not_not.mp hoff) _ _).closed (not_not.mp hoff)

/-- Nothing is written on a connection once it is closed. -/
theorem closed_step {patterns : Patterns} {w w' : Worker} {act : Act} {out : List Effect}
    (hstep : w.step patterns act = some (w', out)) : w.carbon.closed <:+ w'.carbon.closed := by
  rcases Worker.step_cases hstep with ⟨-, rfl, -⟩ | ⟨-, hconn, -, now, rfl⟩ |
    ⟨-, hconn, -, now, rfl⟩ | ⟨-, env, sampled, rfl, -⟩ | ⟨-, env, rfl, -⟩ | ⟨-, id, rfl⟩
  · exact List.suffix_rfl
  · exact List.suffix_rfl
  · rw [closed, if_neg (by simp [hconn])]
    exact List.suffix_rfl
  · exact sampleCallback_closed patterns env w.carbon sampled
  · rw [Carbon.flush]
    split
    · exact pickle1Flush_closed env w.carbon
    · exact List.suffix_rfl
  · exact List.suffix_rfl

theorem closed_run {patterns : Patterns} {w w' : Worker} {acts : List Act} {out : List Effect}
    (hrun : Machine.run (Worker.step patterns) w acts = some (w', out)) :
    w.carbon.closed <:+ w'.carbon.closed :=
  Machine.run_invariant (fun v => w.carbon.closed <:+ v.carbon.closed)
    (fun h hstep => h.trans (closed_step hstep)) List.suffix_rfl hrun

/-! ## Whole runs -/

/-- The units of a backend: lines of text, or frames that load as lists. -/
def IsUnit (pickle : Bool) (unit : List Byte) : Prop :=
  if pickle then
    ∃ payload vs, unit = frame payload ∧ payload.length < 256 ^ 4 ∧ loadList payload = some vs
  else ∃ key value tick_time, unit = plaintextLine key value tick_time

/-- A thread of a plaintext backend: it has produced nothing but lines. -/
structure Plain (w : Worker) (effects : List Effect) : Prop where
  pickle : w.carbon.pickle = false
  lines : ∀ unit ∈ offers effects, IsUnit false unit

theorem Plain.step {patterns : Patterns} {w w' : Worker} {act : Act} {effects out : List Effect}
    (h : Plain w effects) (hstep : w.step patterns act = some (w', out)) :
    Plain w' (effects ++ out) := by
  have hplain : ¬ w.carbon.pickle = true := by simp [h.pickle]
  rcases Worker.step_cases hstep with ⟨-, rfl, rfl⟩ | ⟨-, -, rfl, now, rfl⟩ |
    ⟨-, -, rfl, now, rfl⟩ | ⟨-, env, sampled, rfl, rfl⟩ | ⟨-, env, rfl, rfl⟩ | ⟨rfl, id, rfl⟩
  · rwa [List.append_nil]
  · rw [List.append_nil]
    exact ⟨h.pickle, h.lines⟩
  · rw [List.append_nil]
    exact ⟨h.pickle, h.lines⟩
  · refine ⟨(sampleCallback_frame ..).pickle.trans h.pickle, fun unit hunit => ?_⟩
    rw [offers_append, sampleEffects, if_neg hplain] at hunit
    rcases List.mem_append.mp hunit with hunit | hunit
    · exact h.lines unit hunit
    · split at hunit
      · cases hunit
      · obtain rfl := List.mem_singleton.mp hunit
        exact ⟨_, _, _, rfl⟩
  · rw [if_neg hplain, List.append_nil]
    exact ⟨(flush_frame ..).pickle.trans h.pickle, h.lines⟩
  · rw [List.append_nil]
    exact ⟨h.pickle, h.lines⟩

theorem run_isUnit {patterns : Patterns} {pickle : Bool} {frequency : Int} {ptr : List Byte}
    (hptr : pickle = true → ptr.length = PICKLE_BUFFER_SIZE) {acts : List Act} {w : Worker} {effects : List Effect}
    (hrun : Machine.run (Worker.step patterns) ⟨new pickle frequency ptr, false⟩ acts =
      some (w, effects)) : ∀ unit ∈ offers effects, IsUnit pickle unit := by
  cases pickle with
  | false =>
    exact (Machine.run_history Plain (fun h hstep => h.step hstep)
      ⟨rfl, fun unit hunit => by cases hunit⟩ hrun).lines
  | true =>
    obtain ⟨-, done, body, vs, hbuf, -⟩ :=
      Machine.run_history Packed (fun h hstep => h.step hstep) (packed_start (hptr rfl) frequency)
        hrun
    intro unit hunit
    rw [hbuf.framed] at hunit
    obtain ⟨f, hf, rfl⟩ := List.mem_map.mp hunit
    exact ⟨f.1, f.2, rfl, hbuf.loads f hf⟩

/-- **The framing of the streams.** After any run of a backend's thread, `links` says what is on each
of its connections, the newest first: whole units, and then at most the first part of one more unit.
The units are those that were produced, in their order over all connections, a new connection starts
with a unit of its own, and `sent` is the length of the whole units. The connection in use has no cut
unit, and nothing that happens later changes one that is closed. -/
theorem wire_framing {patterns : Patterns} {pickle : Bool} {frequency : Int} {ptr : List Byte}
    (hptr : pickle = true → ptr.length = PICKLE_BUFFER_SIZE) {acts : List Act} {w : Worker} {effects : List Effect}
    (hrun : Machine.run (Worker.step patterns) ⟨new pickle frequency ptr, false⟩ acts =
      some (w, effects)) :
    ∃ links : List Link,
      w.carbon.conns = links.map (fun l => l.units.flatten ++ (l.torn.map Prod.snd).getD []) ∧
      links.reverse.flatMap Link.offered = offers effects ∧
      (∀ l ∈ links, ∀ unit ∈ l.offered, IsUnit pickle unit) ∧
      (∀ l ∈ links, l.Proper) ∧
      (w.carbon.connected = true → ∃ l rest, links = l :: rest ∧ l.torn = none) ∧
      w.carbon.sent = UInt64.ofNat (links.map fun l => l.units.flatten.length).sum ∧
      (∀ later w' effects', Machine.run (Worker.step patterns) w later = some (w', effects') →
        w.carbon.closed <:+ w'.carbon.closed) := by
  have hstart : ∃ links, Wired (new pickle frequency ptr) (offers []) links :=
    ⟨[], rfl, rfl, (fun l hl => by cases hl), (fun hc => by cases hc), rfl⟩
  obtain ⟨links, h⟩ := Machine.run_history (fun (w : Worker) effects =>
    ∃ links, Wired w.carbon (offers effects) links) (fun ⟨_, h⟩ hstep => h.step hstep) hstart hrun
  refine ⟨links, h.conns, h.order, fun l hl unit hunit => ?_, h.proper, h.opened, h.sent,
    fun later w' effects' hlater => closed_run hlater⟩
  refine run_isUnit hptr hrun unit ?_
  rw [← h.order]
  exact List.mem_flatMap.mpr ⟨l, List.mem_reverse.mpr hl, hunit⟩

/-- A line of which the socket takes three bytes before it fails, and one on the next connection. -/
def brokenLine : List Act :=
  [.wake true 7, .sample (fun i => ⟨0, if i = 0 then some 3 else none⟩) (str ['a'], 1),
    .flush fun _ => ⟨0, none⟩, .wake true 8, .sample (fun _ => ⟨0, some 100⟩) (str ['a'], 2)]

theorem wire_framing_broken :
    ∃ w effects, Machine.run (Worker.step ⟨fun _ => 0, fun _ => 0⟩) ⟨new false 10 [], false⟩ brokenLine =
        some (w, effects) ∧
      w.carbon.conns = [str "a 0 8\n".toList, str "a 0".toList] ∧ w.carbon.sent = 6 ∧
      ∃ links : List Link, w.carbon.conns = links.map Link.bytes ∧
        links.reverse.flatMap Link.offered = offers effects := by
  have hsome : (Machine.run (Worker.step ⟨fun _ => 0, fun _ => 0⟩) ⟨new false 10 [], false⟩
      brokenLine).map (fun r => (r.1.carbon.conns, r.1.carbon.sent)) =
        some ([str "a 0 8\n".toList, str "a 0".toList], 6) := by decide +kernel
  obtain ⟨⟨w, effects⟩, hrun, hsent⟩ := Option.map_eq_some_iff.mp hsome
  obtain ⟨links, hconns, horder, -⟩ := wire_framing (fun h => by cases h) hrun
  exact ⟨w, effects, hrun, congrArg Prod.fst hsent, congrArg Prod.snd hsent, links, hconns, horder⟩

end Carbon
end Brubeck
