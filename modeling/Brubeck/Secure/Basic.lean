import Brubeck.Bloom
import Brubeck.Statsd.Recv

/-!
# Brubeck.Secure.Basic

The statsd-secure sampler: `brubeck_statsd_secure_new`, `verify_token` and the loop of
`statsd_secure__thread`. HMAC-SHA256 is a parameter, a function of key and message. A `none` is
undefined behaviour in the C code, as in `Bloom`, or a missing record function, as in `Server`.

* `verifyToken_cases`, `step_cases`: everything a token and a round of the loop can do. Neither changes
  the key, the drift or the shape of the filters (`step_same`).
* `Good`: what the sampler starts with when it has at least one filter, and every token keeps.
* `verifyToken_spec`: what `verify_token` returns, and what it leaves in the filters.
-/

namespace Brubeck
namespace Secure

open Lib Statsd

def SHA_SIZE : Nat := 32

def MAX_PACKET_SIZE : Nat := 1024

def MIN_PACKET_SIZE : Nat := SHA_SIZE + 12

structure Digest where
  bytes : List Byte
  length_eq : bytes.length = SHA_SIZE

/-- `memcmpct`: every difference is or'ed into the result, so that the time does not depend on where
the first one is. -/
def memcmpct (a b : List Byte) (len : Nat) : Byte :=
  (List.range len).foldl (fun cmp i => cmp ||| (a.getD i 0 ^^^ b.getD i 0)) 0

/-- The part of the configuration that is about replays. Both numbers are read as an `int`. -/
structure Settings where
  hmac_key : List Byte
  max_drift : Int
  replay_len : Int
  max_drift_int : -2 ^ 31 ≤ max_drift ∧ max_drift < 2 ^ 31
  replay_len_int : -2 ^ 31 ≤ replay_len ∧ replay_len < 2 ^ 31

structure StatsdSecure where
  hmac_key : List Byte
  replays : Multibloom
  now : Int
  drift : Int

/-- `brubeck_statsd_secure_new`: there is one filter for each second of the drift. -/
def StatsdSecure.new (settings : Settings) : Option StatsdSecure :=
  (Multibloom.new settings.max_drift settings.replay_len).map fun replays =>
    ⟨settings.hmac_key, replays, 0, settings.max_drift⟩

/-! ## Tokens -/

/-- The `uint64_t` after the digest. -/
def timestamp (buffer : List Byte) : Nat := leNat ((buffer.drop SHA_SIZE).take 8)

/-- The first two words of the digest, which stand for it in the filters. -/
def ha (buffer : List Byte) : Nat := leNat (buffer.take 4)

def hb (buffer : List Byte) : Nat := leNat ((buffer.drop 4).take 4)

/-- The first token of a second clears the filter of that second. -/
def newSecond (statsd : StatsdSecure) (clock : Int) : Option StatsdSecure :=
  if clock ≠ statsd.now then
    if statsd.drift = 0 then none
    else
      (statsd.replays.reset (i32 (clock.tmod statsd.drift))).map fun replays =>
        { statsd with replays := replays, now := clock }
  else some statsd

/-- `verify_token`, with the second that `clock_gettime` reads. The comparisons are unsigned, since
`timestamp` is. -/
def verifyToken (server : Server) (statsd : StatsdSecure) (buffer : List Byte) (clock : Int) :
    Option (Int × Server × StatsdSecure) :=
  match newSecond statsd clock with
  | none => none
  | some statsd =>
    if u64 statsd.now < timestamp buffer then
      some (-1, server.modifyLive fun live => { live with from_future := live.from_future + 1 }, statsd)
    else if u64 statsd.drift < u64 (statsd.now - timestamp buffer) then
      some (-1, server.modifyLive fun live => { live with delayed := live.delayed + 1 }, statsd)
    else if u64 statsd.drift = 0 then none
    else
      match statsd.replays.check (i32 (timestamp buffer % u64 statsd.drift : Nat)) (ha buffer)
          (hb buffer) with
      | none => none
      | some (true, replays) =>
        some (-1, server.modifyLive fun live => { live with replayed := live.replayed + 1 },
          { statsd with replays := replays })
      | some (false, replays) => some (0, server, { statsd with replays := replays })

/-! ## The thread -/

/-- A datagram, and the clock when its token is verified. The clock counts from the Epoch, and Linux
does not let it be set before that. -/
structure Arrival extends Datagram MAX_PACKET_SIZE where
  clock : Int
  clock_nonneg : 0 ≤ clock
  clock_lt : clock < 2 ^ 63

structure Verdict where
  bytes : List Byte
  clock : Int
  rc : Int
  deriving DecidableEq

structure Thread where
  server : Server
  inflow : UInt64
  statsd : StatsdSecure
  buffer : Buffer MAX_PACKET_SIZE

def Thread.fail (thread : Thread) : Thread :=
  { thread with
    server := thread.server.modifyLive fun live => { live with failed := live.failed + 1 } }

variable (hmac : List Byte → List Byte → Digest)

/-- The first 32 bytes are the HMAC of the others. -/
def authentic (statsd : StatsdSecure) (bytes : List Byte) : Prop :=
  memcmpct bytes (hmac statsd.hmac_key (bytes.drop SHA_SIZE)).bytes SHA_SIZE = 0

instance (statsd : StatsdSecure) (bytes : List Byte) : Decidable (authentic hmac statsd bytes) :=
  inferInstanceAs (Decidable (_ = _))

def step (thread : Thread) : Call Arrival → Option (Thread × List Verdict)
  | .retry => some (thread, [])
  | .failed =>
    some ({ thread with
      server := thread.server.modifyLive fun live => { live with errors := live.errors + 1 } }, [])
  | .received a =>
    let thread := { thread with
      inflow := thread.inflow + 1
      buffer := thread.buffer.fill a.toDatagram }
    if a.bytes.length < MIN_PACKET_SIZE then some (thread.fail, [])
    else if ¬ authentic hmac thread.statsd a.bytes then some (thread.fail, [])
    else
      match verifyToken thread.server thread.statsd a.bytes a.clock with
      | none => none
      | some (rc, server, statsd) =>
        if rc < 0 then
          some ({ thread with server := server, statsd := statsd }, [⟨a.bytes, a.clock, rc⟩])
        else
          -- what is before the payload is the nonce, so nothing before the buffer is read
          match thread.buffer.parse 0 server MIN_PACKET_SIZE a.bytes.length with
          | none => none
          | some (server, buffer) =>
            some ({ thread with server := server, statsd := statsd, buffer := buffer },
              [⟨a.bytes, a.clock, rc⟩])

/-! ## What a token does -/

theorem memcmpct_eq_zero (a b : List Byte) (len : Nat) :
    memcmpct a b len = 0 ↔ ∀ i, i < len → a.getD i 0 = b.getD i 0 := by
  induction len with
  | zero => simp [memcmpct]
  | succ len ih =>
    rw [memcmpct] at ih ⊢
    rw [List.range_succ, List.foldl_append, List.foldl_cons, List.foldl_nil, UInt8.or_eq_zero_iff, ih,
      UInt8.xor_eq_zero_iff, Nat.forall_lt_succ_right]

/-- What no token changes. -/
structure StatsdSecure.Same (statsd statsd' : StatsdSecure) : Prop where
  hmac_key : statsd'.hmac_key = statsd.hmac_key
  drift : statsd'.drift = statsd.drift
  shape : statsd.replays.SameShape statsd'.replays

theorem StatsdSecure.Same.refl (statsd : StatsdSecure) : statsd.Same statsd := ⟨rfl, rfl, .refl _⟩

theorem StatsdSecure.Same.trans {statsd statsd' statsd'' : StatsdSecure} (h : statsd.Same statsd')
    (h' : statsd'.Same statsd'') : statsd.Same statsd'' :=
  ⟨h'.hmac_key.trans h.hmac_key, h'.drift.trans h.drift, h.shape.trans h'.shape⟩

theorem newSecond_same {statsd statsd' : StatsdSecure} {clock : Int}
    (h : newSecond statsd clock = some statsd') : statsd.Same statsd' ∧ statsd'.now = clock := by
  unfold newSecond at h
  split at h
  · split at h
    · cases h
    · obtain ⟨replays, hreset, rfl⟩ := Option.map_eq_some_iff.mp h
      obtain ⟨filter, filter', -, rfl⟩ := Multibloom.reset_cases hreset
      exact ⟨⟨rfl, rfl, Multibloom.sameShape_set ..⟩, rfl⟩
  · rename_i hnow
    cases h
    exact ⟨.refl _, (not_not.mp hnow).symm⟩

/-- A token that is verified comes from the future or too late, or its filter is looked at. -/
theorem verifyToken_cases {server server' : Server} {statsd statsd' : StatsdSecure}
    {buffer : List Byte} {clock rc : Int}
    (h : verifyToken server statsd buffer clock = some (rc, server', statsd')) :
    ∃ second, newSecond statsd clock = some second ∧
      ((rc = -1 ∧ statsd' = second ∧ (u64 second.now < timestamp buffer ∨
          u64 second.drift < u64 (second.now - timestamp buffer))) ∨
        (u64 second.drift ≠ 0 ∧ ∃ found replays,
          second.replays.check (i32 (timestamp buffer % u64 second.drift : Nat)) (ha buffer)
            (hb buffer) = some (found, replays) ∧
          statsd' = { second with replays := replays } ∧ (rc = 0 → server' = server))) := by
  cases hsecond : newSecond statsd clock with
  | none => simp only [verifyToken, hsecond] at h; cases h
  | some second =>
    refine ⟨second, rfl, ?_⟩
    simp only [verifyToken, hsecond] at h
    split at h
    · rename_i hfuture
      cases h
      exact .inl ⟨rfl, rfl, .inl hfuture⟩
    split at h
    · rename_i hdelayed
      cases h
      exact .inl ⟨rfl, rfl, .inr hdelayed⟩
    split at h
    · cases h
    rename_i hdrift
    split at h
    · cases h
    · rename_i replays hcheck
      cases h
      exact .inr ⟨hdrift, true, replays, hcheck, rfl, fun hrc => by cases hrc⟩
    · rename_i replays hcheck
      cases h
      exact .inr ⟨hdrift, false, replays, hcheck, rfl, fun _ => rfl⟩

theorem verifyToken_same {server server' : Server} {statsd statsd' : StatsdSecure}
    {buffer : List Byte} {clock rc : Int}
    (h : verifyToken server statsd buffer clock = some (rc, server', statsd')) :
    statsd.Same statsd' := by
  obtain ⟨second, hsecond, hcases⟩ := verifyToken_cases h
  have hsame := (newSecond_same hsecond).1
  rcases hcases with ⟨-, rfl, -⟩ | ⟨-, found, replays, hcheck, rfl, -⟩
  · exact hsame
  · obtain ⟨filter, hits, filter', -, -, rfl⟩ := Multibloom.check_cases hcheck
    exact hsame.trans ⟨rfl, rfl, Multibloom.sameShape_set ..⟩

variable {hmac}

/-- A round verifies no token and leaves the filters alone, or it verifies the one that arrived. -/
theorem step_cases {thread thread' : Thread} {call : Call Arrival} {out : List Verdict}
    (h : step hmac thread call = some (thread', out)) :
    (thread'.statsd = thread.statsd ∧ out = []) ∨
      ∃ a rc server, verifyToken thread.server thread.statsd (Arrival.toDatagram a).bytes a.clock =
          some (rc, server, thread'.statsd) ∧
        out = [⟨a.bytes, a.clock, rc⟩] := by
  cases call with
  | retry => cases h; exact .inl ⟨rfl, rfl⟩
  | failed => cases h; exact .inl ⟨rfl, rfl⟩
  | received a =>
    simp only [step] at h
    split at h
    · cases h; exact .inl ⟨rfl, rfl⟩
    split at h
    · cases h; exact .inl ⟨rfl, rfl⟩
    split at h
    · cases h
    · rename_i rc server statsd hverify
      split at h
      · cases h
        exact .inr ⟨a, rc, server, hverify, rfl⟩
      · split at h
        · cases h
        · cases h
          exact .inr ⟨a, rc, server, hverify, rfl⟩

theorem step_same {thread thread' : Thread} {call : Call Arrival} {out : List Verdict}
    (h : step hmac thread call = some (thread', out)) : thread.statsd.Same thread'.statsd := by
  rcases step_cases h with ⟨hsame, -⟩ | ⟨a, rc, server, hverify, -⟩
  · rw [hsame]
    exact .refl _
  · exact verifyToken_same hverify

/-- A sampler with a filter for each second of its drift. -/
structure Good (statsd : StatsdSecure) : Prop where
  valid : statsd.replays.Valid
  count : statsd.replays.filters.length = statsd.drift.toNat
  drift_pos : 1 ≤ statsd.drift
  drift_lt : statsd.drift < 2 ^ 31
  now_nonneg : 0 ≤ statsd.now

theorem new_good {settings : Settings} (hdrift : 1 ≤ settings.max_drift)
    (hlen : 0 < settings.replay_len) {statsd : StatsdSecure}
    (h : StatsdSecure.new settings = some statsd) : Good statsd := by
  obtain ⟨replays, hnew, rfl⟩ := Option.map_eq_some_iff.mp h
  obtain ⟨hvalid, hcount⟩ := Multibloom.new_valid hdrift hlen hnew
  exact ⟨hvalid, hcount, hdrift, settings.max_drift_int.2, Int.le_refl 0⟩

def slot (statsd : StatsdSecure) (second : Nat) : Nat := second % statsd.drift.toNat

theorem Good.slot_lt {statsd : StatsdSecure} (h : Good statsd) (second : Nat) :
    slot statsd second < statsd.replays.filters.length := by
  have := h.drift_pos
  rw [h.count]
  exact Nat.mod_lt _ (by omega)

/-- The filter of a second is not cleared at this clock. -/
def Kept (statsd : StatsdSecure) (clock : Int) (f : Nat) : Prop :=
  clock = statsd.now ∨ f ≠ slot statsd clock.toNat

theorem newSecond_spec {statsd : StatsdSecure} (h : Good statsd) {clock : Int} (hclock : 0 ≤ clock) :
    ∃ statsd', newSecond statsd clock = some statsd' ∧ Good statsd' ∧ statsd'.now = clock ∧
      statsd'.drift = statsd.drift ∧ statsd'.hmac_key = statsd.hmac_key ∧
      statsd.replays.SameShape statsd'.replays ∧
      ∀ f y, statsd'.replays.bitAt f y ↔ Kept statsd clock f ∧ statsd.replays.bitAt f y := by
  have hpos := h.drift_pos
  by_cases hnow : clock = statsd.now
  · refine ⟨statsd, by rw [newSecond, if_neg (not_not.mpr hnow)], h, hnow.symm, rfl, rfl,
      ⟨rfl, rfl, rfl, rfl⟩, fun f y => ?_⟩
    exact (and_iff_right (Or.inl hnow)).symm
  · have hindex : i32 (clock.tmod statsd.drift) = (slot statsd clock.toNat : Int) := by
      have hmod : clock.tmod statsd.drift = (slot statsd clock.toNat : Int) := by
        rw [Int.tmod_eq_emod_of_nonneg hclock, slot, Int.natCast_emod, Int.toNat_of_nonneg hclock,
          Int.toNat_of_nonneg (by omega)]
      have hlt := h.slot_lt clock.toNat
      have := h.drift_lt
      rw [h.count] at hlt
      rw [hmod]
      exact i32_of_lt (by omega) (by omega)
    obtain ⟨replays, hreset, hvalid, hshape, hbits⟩ :=
      Multibloom.reset_spec h.valid (h.slot_lt clock.toNat)
    refine ⟨{ statsd with replays := replays, now := clock }, ?_,
      ⟨hvalid, hshape.count.trans h.count, hpos, h.drift_lt, hclock⟩, rfl, rfl, rfl, hshape,
      fun f y => ?_⟩
    · rw [newSecond, if_pos hnow, if_neg (by omega), hindex, hreset]
      rfl
    · rw [hbits, Kept, or_iff_right hnow]

def InWindow (statsd : StatsdSecure) (buffer : List Byte) (clock : Int) : Prop :=
  timestamp buffer ≤ clock ∧ clock ≤ timestamp buffer + statsd.drift

def filterOf (statsd : StatsdSecure) (buffer : List Byte) : Nat := slot statsd (timestamp buffer)

/-- The filters hold a token, and will still hold it at this clock. -/
def Remembers (statsd : StatsdSecure) (buffer : List Byte) (clock : Int) : Prop :=
  Kept statsd clock (filterOf statsd buffer) ∧
    statsd.replays.Holds (filterOf statsd buffer) (ha buffer) (hb buffer)

/-- What `verify_token` returns, and what it leaves in the filters. -/
structure Verified (statsd : StatsdSecure) (buffer : List Byte) (clock rc : Int)
    (statsd' : StatsdSecure) : Prop where
  good : Good statsd'
  now : statsd'.now = clock
  drift : statsd'.drift = statsd.drift
  hmac_key : statsd'.hmac_key = statsd.hmac_key
  shape : statsd.replays.SameShape statsd'.replays
  rc_or : rc = 0 ∨ rc = -1
  accepted : rc = 0 ↔ InWindow statsd buffer clock ∧ ¬ Remembers statsd buffer clock
  bits : ∀ f y, statsd'.replays.bitAt f y ↔
    (Kept statsd clock f ∧ statsd.replays.bitAt f y) ∨
      (InWindow statsd buffer clock ∧ f = filterOf statsd buffer ∧
        ∃ k, k < statsd.replays.hashes.toNat ∧
          y = Multibloom.position statsd.replays.bits.toNat (ha buffer) (hb buffer) k)

theorem holds_newSecond {statsd statsd' : StatsdSecure} (h : Good statsd) {clock : Int}
    (hshape : statsd.replays.SameShape statsd'.replays)
    (hbits : ∀ f y, statsd'.replays.bitAt f y ↔ Kept statsd clock f ∧ statsd.replays.bitAt f y)
    (f a b : Nat) :
    statsd'.replays.Holds f a b ↔ Kept statsd clock f ∧ statsd.replays.Holds f a b := by
  have hpos := h.valid.hashes_pos
  simp only [Multibloom.Holds, hshape.hashes, hshape.bits, hbits]
  constructor
  · intro hall
    exact ⟨(hall 0 (by omega)).1, fun k hk => (hall k hk).2⟩
  · rintro ⟨hkept, hall⟩ k hk
    exact ⟨hkept, hall k hk⟩

theorem Verified.of_outside {statsd statsd' : StatsdSecure} {buffer : List Byte} {clock : Int}
    (hgood : Good statsd') (hnow : statsd'.now = clock) (hdrift : statsd'.drift = statsd.drift)
    (hkey : statsd'.hmac_key = statsd.hmac_key) (hshape : statsd.replays.SameShape statsd'.replays)
    (hbits : ∀ f y, statsd'.replays.bitAt f y ↔ Kept statsd clock f ∧ statsd.replays.bitAt f y)
    (hout : ¬ InWindow statsd buffer clock) : Verified statsd buffer clock (-1) statsd' where
  good := hgood
  now := hnow
  drift := hdrift
  hmac_key := hkey
  shape := hshape
  rc_or := .inr rfl
  accepted := iff_of_false (by decide) fun h => hout h.1
  bits f y := by rw [hbits, or_iff_left fun h => hout h.1]

/-- `verify_token` returns, and does so with 0 exactly for a token that is in its window and not in
the filters. -/
theorem verifyToken_spec {statsd : StatsdSecure} (h : Good statsd) (server : Server)
    (buffer : List Byte) {clock : Int} (hclock : 0 ≤ clock) (hlt : clock < 2 ^ 63) :
    ∃ rc server' statsd', verifyToken server statsd buffer clock = some (rc, server', statsd') ∧
      Verified statsd buffer clock rc statsd' := by
  obtain ⟨statsd₁, hsecond, hgood, hnow, hdrift, hkey, hshape, hbits⟩ := newSecond_spec h hclock
  have hpos := hgood.drift_pos
  have hdlt := hgood.drift_lt
  have hu_now : u64 statsd₁.now = clock.toNat := by
    rw [hnow]
    exact u64_of_lt hclock (by omega)
  have hu_drift : u64 statsd₁.drift = statsd₁.drift.toNat := u64_of_lt (by omega) (by omega)
  simp only [verifyToken, hsecond, hu_now, hu_drift]
  by_cases hfuture : clock.toNat < timestamp buffer
  · rw [if_pos hfuture]
    refine ⟨_, _, _, rfl, .of_outside hgood hnow hdrift hkey hshape hbits ?_⟩
    rintro ⟨hle, -⟩
    omega
  rw [if_neg hfuture]
  have hu_age : u64 (statsd₁.now - timestamp buffer) = (clock - timestamp buffer).toNat := by
    rw [hnow]
    exact u64_of_lt (by omega) (by omega)
  rw [hu_age]
  by_cases hdelayed : statsd₁.drift.toNat < (clock - timestamp buffer).toNat
  · rw [if_pos hdelayed]
    refine ⟨_, _, _, rfl, .of_outside hgood hnow hdrift hkey hshape hbits ?_⟩
    rintro ⟨-, hle⟩
    omega
  rw [if_neg hdelayed, if_neg (by omega)]
  have hin : InWindow statsd buffer clock := ⟨by omega, by omega⟩
  have hslot : timestamp buffer % statsd₁.drift.toNat = filterOf statsd buffer := by
    rw [hdrift]
    rfl
  have hfilter : filterOf statsd buffer < statsd₁.replays.filters.length := by
    rw [hshape.count]
    exact h.slot_lt _
  have hindex : i32 (filterOf statsd buffer : Nat) = (filterOf statsd buffer : Int) := by
    rw [hgood.count] at hfilter
    exact i32_of_lt (by omega) (by omega)
  rw [hslot, hindex]
  obtain ⟨r, replays, hcheck, hvalid, hshape', hr, hbits'⟩ :=
    Multibloom.check_spec hgood.valid hfilter (ha buffer) (hb buffer)
  rw [holds_newSecond h hshape hbits] at hr
  have hgood' : Good { statsd₁ with replays := replays } :=
    ⟨hvalid, hshape'.count.trans hgood.count, hpos, hdlt, hgood.now_nonneg⟩
  have hverified : Verified statsd buffer clock (if r then -1 else 0)
      { statsd₁ with replays := replays } := by
    refine ⟨hgood', hnow, hdrift, hkey, ⟨hshape'.bits.trans hshape.bits,
      hshape'.bytes.trans hshape.bytes, hshape'.hashes.trans hshape.hashes,
      hshape'.count.trans hshape.count⟩, ?_, ?_, fun f y => ?_⟩
    · cases r
      · exact .inl rfl
      · exact .inr rfl
    · rw [and_iff_right hin, Remembers, ← hr]
      cases r <;> simp
    · rw [hbits', hbits, and_iff_right hin, hshape.hashes, hshape.bits]
  rw [hcheck]
  cases r with
  | true => exact ⟨_, _, _, rfl, hverified⟩
  | false => exact ⟨_, _, _, rfl, hverified⟩

end Secure
end Brubeck
