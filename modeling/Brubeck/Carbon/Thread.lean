import Brubeck.Backend
import Brubeck.Carbon.Pickle
import Brubeck.Lib.Machine

/-!
# Brubeck.Carbon.Thread

`backend__thread` on a carbon backend, one call at a time: it wakes up and connects, samples go
through the encoder, and a flush ends the tick. Meanwhile other threads register metrics. What the
calls hand to the socket and what they put into the pickle buffer is put out as effects.

* `Put`: what `write_in_full` and the encoders leave of one unit, whatever the kernel answers.
* `pickle1Each_eq`: a sample makes room first, and then pushes its entry if there is a connection.
-/

namespace Brubeck

open Lib Lib.Pickle

/-! ## Writing, whatever the kernel answers -/

/-- The loop writes all of its bytes, or it fails with a proper prefix of them written. -/
theorem writeLoop_cases (env : Nat → Answer) :
    ∀ (rounds calls : Nat) (p : List Byte) (total : Nat), p.length ≤ rounds →
      ∃ calls', writeLoop env rounds calls p total = (((total + p.length : Nat) : Int), p, calls') ∨
        ∃ accepted, accepted <+: p ∧ accepted ≠ p ∧
          writeLoop env rounds calls p total = (-1, accepted, calls') := by
  intro rounds
  induction rounds with
  | zero =>
    intro calls p total hp
    obtain rfl : p = [] := List.eq_nil_of_length_eq_zero (by omega)
    exact ⟨calls, .inl rfl⟩
  | succ rounds ih =>
    intro calls p total hp
    by_cases hnil : p = []
    · subst hnil
      exact ⟨calls, .inl (by simp [writeLoop])⟩
    · cases hx : xwrite (env calls) p.length with
      | none =>
        exact ⟨calls + 1, .inr ⟨[], List.nil_prefix, Ne.symm hnil, by simp only [writeLoop, if_neg hnil, hx]⟩⟩
      | some n =>
        cases n with
        | zero =>
          exact ⟨calls + 1, .inr ⟨[], List.nil_prefix, Ne.symm hnil,
            by simp only [writeLoop, if_neg hnil, hx]⟩⟩
        | succ n =>
          have hn : n + 1 ≤ p.length := by
            obtain ⟨m, -, hm⟩ := Option.map_eq_some_iff.mp hx
            omega
          obtain ⟨calls', hrec⟩ := ih (calls + 1) (p.drop (n + 1)) (total + (n + 1))
            (by rw [List.length_drop]; omega)
          refine ⟨calls', ?_⟩
          rcases hrec with hrec | ⟨accepted, ⟨rest, hrest⟩, hne, hrec⟩
          · refine .inl ?_
            simp only [writeLoop, if_neg hnil, hx, hrec, List.take_append_drop, List.length_drop]
            congr 2
            omega
          · refine .inr ⟨p.take (n + 1) ++ accepted, ⟨rest, ?_⟩, fun heq => hne ?_, ?_⟩
            · rw [List.append_assoc, hrest, List.take_append_drop]
            · have hsplit : p.take (n + 1) ++ accepted = p.take (n + 1) ++ p.drop (n + 1) := by
                rw [heq, List.take_append_drop]
              exact List.append_cancel_left hsplit
            · simp only [writeLoop, if_neg hnil, hx, hrec]

namespace Carbon

/-- What becomes of one unit on an open connection: the socket takes all of it, or a proper prefix
and the connection is closed. -/
inductive Put (carbon : Carbon) (unit : List Byte) (carbon' : Carbon) : Prop
  | whole (connected : carbon'.connected = true)
      (conns : carbon'.conns = (carbon.conns.headD [] ++ unit) :: carbon.conns.tail)
      (sent : carbon'.sent = carbon.sent + UInt64.ofNat unit.length)
  | torn (accepted : List Byte) (prefixed : accepted <+: unit) (proper : accepted ≠ unit)
      (connected : carbon'.connected = false)
      (conns : carbon'.conns = (carbon.conns.headD [] ++ accepted) :: carbon.conns.tail)
      (sent : carbon'.sent = carbon.sent)

/-- A write and the account of it, with the pickle buffer replaced in between. -/
theorem put_of_write (env : Nat → Answer) {carbon : Carbon} (h : carbon.connected = true)
    (unit : List Byte) (buf : Pickler) :
    Put carbon unit
      (account (carbon.write env unit).1 { (carbon.write env unit).2 with pickler := buf }) := by
  obtain ⟨calls', hw | ⟨accepted, hpre, hne, hw⟩⟩ :=
    writeLoop_cases env unit.length carbon.calls unit 0 (Nat.le_refl _)
  · have hwrite : carbon.write env unit = ((unit.length : Int), { carbon with
        calls := calls'
        conns := (carbon.conns.headD [] ++ unit) :: carbon.conns.tail }) := by
      simp only [write, writeInFull, hw, Nat.zero_add]
    rw [hwrite, account, if_neg (by dsimp only; omega)]
    exact .whole h rfl (by simp)
  · have hwrite : carbon.write env unit = (-1, { carbon with
        calls := calls'
        conns := (carbon.conns.headD [] ++ accepted) :: carbon.conns.tail }) := by
      simp only [write, writeInFull, hw]
    rw [hwrite, account, if_pos (show (-1 : Int) < 0 by decide)]
    exact .torn accepted hpre hne rfl rfl rfl

theorem plaintextEach_put (env : Nat → Answer) {carbon : Carbon} (h : carbon.connected = true)
    (key : List Byte) (value : UInt32) :
    Put carbon (plaintextLine key value carbon.tick_time) (carbon.plaintextEach env key value) := by
  rw [plaintextEach, if_neg (not_not.mpr h)]
  exact put_of_write env h _ carbon.pickler

theorem pickle1Flush_put (env : Nat → Answer) {carbon : Carbon} (h : carbon.connected = true)
    (hpt : carbon.pickler.pt ≠ 1) :
    Put carbon (flushUnit carbon.pickler) (carbon.pickle1Flush env) ∧
      (carbon.pickle1Flush env).pickler = flushed carbon.pickler := by
  have hskip : ¬ (carbon.pickler.pt = 1 ∨ ¬ carbon.connected) := by simp [hpt, h]
  rw [pickle1Flush, if_neg hskip]
  refine ⟨put_of_write env h _ _, ?_⟩
  simp only [account]
  split <;> rfl

theorem pickle1Flush_skip (env : Nat → Answer) {carbon : Carbon}
    (h : carbon.pickler.pt = 1 ∨ ¬ carbon.connected) : carbon.pickle1Flush env = carbon := by
  rw [pickle1Flush, if_pos h]

/-- The first part of `pickle1_each`. -/
def makeRoom (env : Nat → Answer) (carbon : Carbon) (key_len : Nat) : Carbon :=
  if PICKLE_BUFFER_SIZE ≤ carbon.pickler.pos + pickle1Size key_len then carbon.pickle1Flush env
  else carbon

theorem pickle1Each_eq (env : Nat → Answer) (carbon : Carbon) (key : List Byte) (value : UInt64) :
    carbon.pickle1Each env key value =
      let c := carbon.makeRoom env (strlen key % 2 ^ 8)
      if ¬ c.connected then c
      else { c with pickler := pickle1Push c.pickler key (strlen key % 2 ^ 8) c.tick_time value } :=
  rfl

/-! ## The thread -/

/-- What a call puts into the pickle buffer, and what it hands to the socket. -/
inductive Effect where
  | push (entry : Val)
  | offer (unit : List Byte)

def flushEffects (carbon : Carbon) : List Effect :=
  if carbon.pickler.pt = 1 ∨ ¬ carbon.connected then [] else [.offer (flushUnit carbon.pickler)]

def makeRoomEffects (carbon : Carbon) (key_len : Nat) : List Effect :=
  if PICKLE_BUFFER_SIZE ≤ carbon.pickler.pos + pickle1Size key_len then carbon.flushEffects else []

def sampleEffects (patterns : Patterns) (env : Nat → Answer) (carbon : Carbon) (out : Key × Value) :
    List Effect :=
  if carbon.pickle then
    let key_len := strlen out.1 % 2 ^ 8
    let c := carbon.makeRoom env key_len
    carbon.makeRoomEffects key_len ++
      if ¬ c.connected then []
      else [.push (entryVal out.1 key_len c.tick_time (patterns.double out.2))]
  else if ¬ carbon.connected then []
  else [.offer (plaintextLine out.1 (patterns.float out.2) carbon.tick_time)]

/-- A backend, and whether its thread is inside a tick. -/
structure Worker where
  carbon : Carbon
  ticking : Bool

/-- The calls of `backend__thread`, and the registration of a metric by another thread. Each call
has its own answers of the kernel. -/
inductive Act where
  | wake (grant : Bool) (now : UInt32)
  | sample (env : Nat → Answer) (out : Key × Value)
  | flush (env : Nat → Answer)
  | register (id : Nat)

def Worker.step (patterns : Patterns) (w : Worker) : Act → Option (Worker × List Effect)
  | .wake grant now =>
    if w.ticking then none
    else
      let (rc, carbon) := w.carbon.connect grant
      if rc ≠ 0 then some (⟨carbon, false⟩, [])
      else some (⟨{ carbon with tick_time := now }, true⟩, [])
  | .sample env out =>
    if w.ticking then
      some (⟨w.carbon.sampleCallback patterns env out, true⟩, w.carbon.sampleEffects patterns env out)
    else none
  | .flush env =>
    if w.ticking then
      some (⟨w.carbon.flush env, false⟩, if w.carbon.pickle then w.carbon.flushEffects else [])
    else none
  | .register id =>
    some (⟨{ w.carbon with queue := id :: w.carbon.queue }, w.ticking⟩, [])

def offers (effects : List Effect) : List (List Byte) :=
  effects.filterMap fun
    | .push _ => none
    | .offer unit => some unit

def pushes (effects : List Effect) : List Val :=
  effects.filterMap fun
    | .push entry => some entry
    | .offer _ => none

@[simp] theorem offers_append (a b : List Effect) : offers (a ++ b) = offers a ++ offers b :=
  List.filterMap_append

@[simp] theorem pushes_append (a b : List Effect) : pushes (a ++ b) = pushes a ++ pushes b :=
  List.filterMap_append

/-- The ways a thread can go on: it wakes up without and with a connection, it samples, it flushes,
or a metric is registered. -/
theorem Worker.step_cases {patterns : Patterns} {w w' : Worker} {act : Act} {effects : List Effect}
    (h : w.step patterns act = some (w', effects)) :
    (w.ticking = false ∧ w' = w ∧ effects = []) ∨
    (w.ticking = false ∧ w.carbon.connected = true ∧ effects = [] ∧
      ∃ now, w' = ⟨{ w.carbon with tick_time := now }, true⟩) ∨
    (w.ticking = false ∧ w.carbon.connected = false ∧ effects = [] ∧
      ∃ now, w' = ⟨{ w.carbon with
        connected := true, conns := [] :: w.carbon.conns, tick_time := now }, true⟩) ∨
    (w.ticking = true ∧ ∃ env out, w' = ⟨w.carbon.sampleCallback patterns env out, true⟩ ∧
      effects = w.carbon.sampleEffects patterns env out) ∨
    (w.ticking = true ∧ ∃ env, w' = ⟨w.carbon.flush env, false⟩ ∧
      effects = if w.carbon.pickle then w.carbon.flushEffects else []) ∨
    (effects = [] ∧ ∃ id, w' = ⟨{ w.carbon with queue := id :: w.carbon.queue }, w.ticking⟩) := by
  obtain ⟨carbon, ticking⟩ := w
  cases act with
  | wake grant now =>
    cases ticking with
    | true => cases h
    | false =>
      by_cases hconn : carbon.connected = true
      · have hkeep : carbon.connect grant = (0, carbon) := by rw [connect, if_pos hconn]
        simp only [Worker.step, hkeep] at h
        cases h
        exact .inr (.inl ⟨rfl, hconn, rfl, now, rfl⟩)
      · rw [Bool.not_eq_true] at hconn
        cases grant with
        | true =>
          simp only [Worker.step, connect, hconn] at h
          cases h
          exact .inr (.inr (.inl ⟨rfl, hconn, rfl, now, rfl⟩))
        | false =>
          simp only [Worker.step, connect, hconn] at h
          cases h
          exact .inl ⟨rfl, rfl, rfl⟩
  | sample env out =>
    cases ticking with
    | false => cases h
    | true => cases h; exact .inr (.inr (.inr (.inl ⟨rfl, env, out, rfl, rfl⟩)))
  | flush env =>
    cases ticking with
    | false => cases h
    | true => cases h; exact .inr (.inr (.inr (.inr (.inl ⟨rfl, env, rfl, rfl⟩))))
  | register id => cases h; exact .inr (.inr (.inr (.inr (.inr ⟨rfl, id, rfl⟩))))

end Carbon
end Brubeck
