import Brubeck.Counters
import Brubeck.Secure.Basic

/-!
# Brubeck.Secure.Forged

Datagrams that are too short or do not carry the HMAC of their payload leave nothing behind but a
count of them: a run of the statsd-secure thread goes the same way without them.

* `Core`: the thread without its buffer and its `inflow`. What is left in the buffer has no influence
  on the next datagram (`step_core`).
* `coreStep_forged`: such a datagram adds one to `secure.failed`.
* `coreStep_fail`: nothing the thread does depends on that counter.
* `forged_no_influence`: two runs, with and without them.
-/

namespace Brubeck
namespace Secure

open Lib Statsd

structure Core where
  server : Server
  statsd : StatsdSecure

def Thread.core (thread : Thread) : Core := ⟨thread.server, thread.statsd⟩

def failedOne : Counters := { Counters.zero with failed := 1 }

def Core.fail (core : Core) : Core := { core with server := core.server.credit failedOne }

theorem Thread.fail_core (thread : Thread) : thread.fail.core = thread.core.fail := by
  simp [Thread.fail, Thread.core, Core.fail, Server.credit, Server.modifyLive, failedOne,
    Counters.plus, Counters.zero]

variable (hmac : List Byte → List Byte → Digest)

/-- A round of the loop, without the buffer. -/
def coreStep (core : Core) : Call Arrival → Option (Core × List Verdict)
  | .retry => some (core, [])
  | .failed =>
    some ({ core with
      server := core.server.modifyLive fun live => { live with errors := live.errors + 1 } }, [])
  | .received a =>
    if a.bytes.length < MIN_PACKET_SIZE then some (core.fail, [])
    else if ¬ authentic hmac core.statsd a.bytes then some (core.fail, [])
    else
      match verifyToken core.server core.statsd a.bytes a.clock with
      | none => none
      | some (rc, server, statsd) =>
        if rc < 0 then some (⟨server, statsd⟩, [⟨a.bytes, a.clock, rc⟩])
        else
          (deliver 0 MIN_PACKET_SIZE server a.toDatagram).map fun server =>
            (⟨server, statsd⟩, [⟨a.bytes, a.clock, rc⟩])

variable {hmac}

/-- What the buffer held before does not matter. -/
theorem step_core (thread : Thread) (call : Call Arrival) :
    coreStep hmac thread.core call = (step hmac thread call).map fun r => (r.1.core, r.2) := by
  cases call with
  | retry => rfl
  | failed => rfl
  | received a =>
    simp only [step, coreStep]
    by_cases hshort : a.bytes.length < MIN_PACKET_SIZE
    · simp only [if_pos hshort, Option.map_some, Thread.fail_core]
      rfl
    simp only [if_neg hshort]
    by_cases hforged : ¬ authentic hmac thread.statsd a.bytes
    · have hforged' : ¬ authentic hmac thread.core.statsd a.bytes := hforged
      simp only [if_pos hforged, if_pos hforged', Option.map_some, Thread.fail_core]
      rfl
    have hforged' : ¬ ¬ authentic hmac thread.core.statsd a.bytes := hforged
    simp only [if_neg hforged, if_neg hforged']
    simp only [Thread.core]
    cases verifyToken thread.server thread.statsd a.bytes a.clock with
    | none => rfl
    | some verdict =>
      obtain ⟨rc, server, statsd⟩ := verdict
      by_cases hrc : rc < 0
      · simp only [if_pos hrc]
        rfl
      · simp only [if_neg hrc, ← Buffer.parse_fill 0 MIN_PACKET_SIZE server thread.buffer a.toDatagram]
        cases (thread.buffer.fill a.toDatagram).parse 0 server MIN_PACKET_SIZE a.bytes.length with
        | none => rfl
        | some r => rfl

/-! ## Raised counters -/

theorem credit_deliver {size : Nat} (header : Byte) (start : Nat) (server : Server) (amount : Counters)
    (d : Datagram size) :
    deliver header start (server.credit amount) d =
      (deliver header start server d).map (Server.credit amount) := by
  simp only [deliver, packetParse_eq, Server.credit_handleAll, Option.map_map]
  rfl

theorem credit_verifyToken (server : Server) (amount : Counters) (statsd : StatsdSecure)
    (buffer : List Byte) (clock : Int) :
    verifyToken (server.credit amount) statsd buffer clock =
      (verifyToken server statsd buffer clock).map fun r => (r.1, r.2.1.credit amount, r.2.2) := by
  have hfuture := server.credit_modifyLive amount
    (f := fun live => { live with from_future := live.from_future + 1 })
    ⟨⟨0, 0, 0, 0, 1, 0, 0⟩, fun c => by simp [Counters.plus]⟩
  have hdelayed := server.credit_modifyLive amount
    (f := fun live => { live with delayed := live.delayed + 1 })
    ⟨⟨0, 0, 0, 0, 0, 1, 0⟩, fun c => by simp [Counters.plus]⟩
  have hreplayed := server.credit_modifyLive amount
    (f := fun live => { live with replayed := live.replayed + 1 })
    ⟨⟨0, 0, 0, 0, 0, 0, 1⟩, fun c => by simp [Counters.plus]⟩
  simp only [verifyToken, hfuture, hdelayed, hreplayed]
  cases newSecond statsd clock with
  | none => rfl
  | some statsd =>
    dsimp only
    split
    · rfl
    split
    · rfl
    split
    · rfl
    cases statsd.replays.check (i32 (timestamp buffer % u64 statsd.drift : Nat)) (ha buffer)
        (hb buffer) with
    | none => rfl
    | some found =>
      obtain ⟨found, replays⟩ := found
      cases found <;> rfl

/-- Nothing the thread does depends on `secure.failed`. -/
theorem coreStep_fail (core : Core) (call : Call Arrival) :
    coreStep hmac core.fail call = (coreStep hmac core call).map fun r => (r.1.fail, r.2) := by
  cases call with
  | retry => rfl
  | failed =>
    simp only [coreStep, Core.fail, Option.map_some,
      Server.credit_modifyLive core.server failedOne Server.increments_errors]
  | received a =>
    simp only [coreStep]
    by_cases hshort : a.bytes.length < MIN_PACKET_SIZE
    · simp only [if_pos hshort, Option.map_some]
    simp only [if_neg hshort]
    by_cases hforged : ¬ authentic hmac core.statsd a.bytes
    · have hforged' : ¬ authentic hmac core.fail.statsd a.bytes := hforged
      simp only [if_pos hforged, if_pos hforged', Option.map_some]
    simp only [if_neg hforged, Core.fail, credit_verifyToken]
    cases verifyToken core.server core.statsd a.bytes a.clock with
    | none => rfl
    | some verdict =>
      obtain ⟨rc, server, statsd⟩ := verdict
      by_cases hrc : rc < 0
      · simp only [Option.map_some, if_pos hrc]
      · simp only [Option.map_some, if_neg hrc, credit_deliver, Option.map_map]
        rfl

/-! ## Forged datagrams -/

/-- Too short, or not signed with the key. -/
def forged (hmac : List Byte → List Byte → Digest) (key : List Byte) : Call Arrival → Bool
  | .received a => a.bytes.length < MIN_PACKET_SIZE ∨
      a.bytes.take SHA_SIZE ≠ (hmac key (a.bytes.drop SHA_SIZE)).bytes
  | _ => false

theorem authentic_iff (statsd : StatsdSecure) {bytes : List Byte} (h : SHA_SIZE ≤ bytes.length) :
    authentic hmac statsd bytes ↔
      bytes.take SHA_SIZE = (hmac statsd.hmac_key (bytes.drop SHA_SIZE)).bytes := by
  generalize hdigest : hmac statsd.hmac_key (bytes.drop SHA_SIZE) = digest
  have hlen : (bytes.take SHA_SIZE).length = digest.bytes.length := by
    rw [List.length_take_of_le h, digest.length_eq]
  rw [authentic, hdigest, memcmpct_eq_zero]
  constructor
  · intro hbytes
    refine List.ext_getElem hlen fun i hi hi' => ?_
    have hi32 : i < SHA_SIZE := by rwa [List.length_take_of_le h] at hi
    have hbyte := hbytes i hi32
    rw [List.getD_eq_getElem _ _ (hi32.trans_le h), List.getD_eq_getElem _ _ hi'] at hbyte
    rw [List.getElem_take, hbyte]
  · intro heq i hi
    rw [← heq, List.getD_eq_getElem?_getD, List.getD_eq_getElem?_getD, List.getElem?_take_of_lt hi]

theorem coreStep_forged {core : Core} {call : Call Arrival}
    (h : forged hmac core.statsd.hmac_key call = true) :
    coreStep hmac core call = some (core.fail, []) := by
  cases call with
  | retry => cases h
  | failed => cases h
  | received a =>
    rw [forged, decide_eq_true_eq] at h
    rw [coreStep]
    by_cases hshort : a.bytes.length < MIN_PACKET_SIZE
    · rw [if_pos hshort]
    · have hne := h.resolve_left hshort
      have hlen : SHA_SIZE ≤ a.bytes.length :=
        Nat.le_trans (by decide) (Nat.not_lt.mp hshort)
      rw [if_neg hshort, if_pos fun hauth => hne ((authentic_iff core.statsd hlen).mp hauth)]

theorem coreStep_key {core core' : Core} {call : Call Arrival} {out : List Verdict}
    (h : coreStep hmac core call = some (core', out)) :
    core'.statsd.hmac_key = core.statsd.hmac_key := by
  cases call with
  | retry => cases h; rfl
  | failed => cases h; rfl
  | received a =>
    rw [coreStep] at h
    split at h
    · cases h; rfl
    split at h
    · cases h; rfl
    split at h
    · cases h
    · rename_i rc server statsd hverify
      have hkey := (verifyToken_same hverify).hmac_key
      split at h
      · cases h; exact hkey
      · obtain ⟨server', -, heq⟩ := Option.map_eq_some_iff.mp h
        cases heq
        exact hkey

/-! ## Two runs -/

theorem fail_iterate (n : Nat) (core : Core) :
    Core.fail^[n] core = { core with
      server := core.server.modifyLive fun live =>
        { live with failed := live.failed + UInt32.ofNat n } } := by
  induction n with
  | zero => simp [Server.modifyLive]
  | succ n ih =>
    rw [Function.iterate_succ_apply', ih, Core.fail]
    simp [Server.credit, Server.modifyLive, failedOne, Counters.plus, Counters.zero, UInt32.ofNat_add,
      UInt32.add_assoc]

/-- **Forged datagrams have no influence.** Two runs of the thread from the same state, one of them
without the datagrams that are too short or not signed: both stop, or both go on to the end. Then the
same tokens were verified with the same results, and the filters, the clock second, the metrics and
all counters are the same, but that `secure.failed` counts what was left out. -/
theorem forged_no_influence (hmac : List Byte → List Byte → Digest) (thread : Thread)
    (calls : List (Call Arrival)) :
    Option.Rel
      (fun r r' => r.2 = r'.2 ∧ r.1.statsd = r'.1.statsd ∧
        r.1.server = r'.1.server.modifyLive fun live =>
          { live with
            failed := live.failed +
              UInt32.ofNat (calls.countP (forged hmac thread.statsd.hmac_key)) })
      (Machine.run (step hmac) thread calls)
      (Machine.run (step hmac) thread
        (calls.filter fun call => !forged hmac thread.statsd.hmac_key call)) := by
  have hcore : ∀ calls, Machine.run (coreStep hmac) thread.core calls =
      (Machine.run (step hmac) thread calls).map fun r => (r.1.core, r.2) :=
    Machine.run_map Thread.core step_core thread
  have hfilter := Machine.run_filter (fun core => core.statsd.hmac_key = thread.statsd.hmac_key)
    Core.fail (fun call => !forged hmac thread.statsd.hmac_key call)
    (fun hkey hstep => (coreStep_key hstep).trans hkey)
    (fun hkey hcall => coreStep_forged (by rw [hkey]; simpa using hcall)) coreStep_fail
    (show thread.core.statsd.hmac_key = thread.statsd.hmac_key from rfl) calls
  rw [hcore, hcore, Option.map_map] at hfilter
  have hcount : (calls.countP fun call => !!forged hmac thread.statsd.hmac_key call) =
      calls.countP (forged hmac thread.statsd.hmac_key) := by simp only [Bool.not_not]
  rw [hcount] at hfilter
  cases hleft : Machine.run (step hmac) thread calls with
  | none =>
    rw [hleft] at hfilter
    rw [Option.map_eq_none_iff.mp hfilter.symm]
    exact .none
  | some r =>
    rw [hleft] at hfilter
    obtain ⟨r', hright, heq⟩ := Option.map_eq_some_iff.mp hfilter.symm
    obtain ⟨hcores, hlogs⟩ := Prod.mk.inj heq
    rw [fail_iterate] at hcores
    rw [hright]
    exact .some ⟨hlogs.symm, (congrArg Core.statsd hcores).symm, (congrArg Core.server hcores).symm⟩

end Secure
end Brubeck
