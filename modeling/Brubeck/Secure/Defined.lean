import Brubeck.Secure.Replay

/-!
# Brubeck.Secure.Defined

Which configurations of the statsd-secure sampler keep the arithmetic of its replay filters defined. The
only guard in `multibloom_new` is an assertion, and it is compiled out.

* `tokenOps`: the moduli and the filter indices of one `verify_token`. `verifyToken_ops`: the model of
  `verify_token` stops at one that is not defined.
* `tokenOps_defined`: a drift of at least one second and some bits are enough for every token.
* `replay_defined_iff`: over all runs, and which configurations these are.
-/

namespace Brubeck
namespace Secure

open Lib Statsd

/-- What the filters ask of a number. -/
inductive Op where
  | modulus (n : Int)
  | filter (f : Int)
  deriving DecidableEq

/-- A modulus is not zero, and an index is one of the `count` filters. -/
def Op.Defined (count : Int) : Op → Prop
  | .modulus n => n ≠ 0
  | .filter f => 0 ≤ f ∧ f < count

/-- `multibloom_reset(statsd->replays, statsd->now % statsd->drift)` in a new second. -/
def newSecondOps (statsd : StatsdSecure) (clock : Int) : List Op :=
  if clock ≠ statsd.now then [.modulus statsd.drift, .filter (i32 (clock.tmod statsd.drift))] else []

/-- `multibloom_check`: one modulus for each hash function. -/
def checkOps (bloom : Multibloom) (f : Int) : List Op :=
  .filter f :: List.replicate (u32 bloom.hashes) (.modulus (u32 bloom.bits))

/-- `verify_token`. After the first part, `statsd->now` is the clock. -/
def tokenOps (statsd : StatsdSecure) (buffer : List Byte) (clock : Int) : List Op :=
  newSecondOps statsd clock ++
    if u64 clock < timestamp buffer then []
    else if u64 statsd.drift < u64 (clock - timestamp buffer) then []
    else
      .modulus (u64 statsd.drift) ::
        checkOps statsd.replays (i32 (timestamp buffer % u64 statsd.drift : Nat))

/-! ## The model stops where an operation is not defined -/

theorem filterAt_defined {bloom : Multibloom} {f count : Int} {filter : List Byte}
    (hcount : bloom.filters.length = count.toNat) (h : bloom.filterAt f = some filter) :
    (Op.filter f).Defined count := by
  unfold Multibloom.filterAt at h
  split at h
  · cases h
  · obtain ⟨hlt, -⟩ := List.getElem?_eq_some_iff.mp h
    rw [hcount] at hlt
    exact ⟨by omega, by omega⟩

theorem check_ops {bloom bloom' : Multibloom} {f count : Int} {a b : Nat} {r : Bool}
    (hcount : bloom.filters.length = count.toNat) (h : bloom.check f a b = some (r, bloom')) :
    ∀ op ∈ checkOps bloom f, op.Defined count := by
  obtain ⟨filter, hits, filter', hat, hloop, -⟩ := Multibloom.check_cases h
  intro op hop
  rcases List.mem_cons.mp hop with rfl | hop
  · exact filterAt_defined hcount hat
  · obtain ⟨hhashes, rfl⟩ := List.mem_replicate.mp hop
    obtain ⟨n, hn⟩ := Nat.exists_eq_succ_of_ne_zero hhashes
    rw [hn, Multibloom.checkLoop] at hloop
    split at hloop
    · cases hloop
    · rename_i hbits
      exact Int.natCast_ne_zero.mpr hbits

theorem newSecond_ops {statsd statsd' : StatsdSecure} {clock : Int}
    (hcount : statsd.replays.filters.length = statsd.drift.toNat)
    (h : newSecond statsd clock = some statsd') :
    ∀ op ∈ newSecondOps statsd clock, op.Defined statsd.drift := by
  unfold newSecond at h
  unfold newSecondOps
  intro op hop
  split at h
  · rename_i hnow
    rw [if_pos hnow] at hop
    split at h
    · cases h
    · rename_i hdrift
      obtain ⟨replays, hreset, -⟩ := Option.map_eq_some_iff.mp h
      rcases List.mem_cons.mp hop with rfl | hop
      · exact hdrift
      · obtain ⟨filter, filter', hat, -⟩ := Multibloom.reset_cases hreset
        rw [List.mem_singleton.mp hop]
        exact filterAt_defined hcount hat
  · rename_i hnow
    rw [if_neg hnow] at hop
    cases hop

theorem checkOps_same {bloom bloom' : Multibloom} (h : bloom.SameShape bloom') (f : Int) :
    checkOps bloom' f = checkOps bloom f := by
  rw [checkOps, h.hashes, h.bits]
  rfl

theorem verifyToken_ops {server server' : Server} {statsd statsd' : StatsdSecure}
    {buffer : List Byte} {clock rc : Int}
    (hcount : statsd.replays.filters.length = statsd.drift.toNat)
    (h : verifyToken server statsd buffer clock = some (rc, server', statsd')) :
    ∀ op ∈ tokenOps statsd buffer clock, op.Defined statsd.drift := by
  obtain ⟨second, hsecond, hcases⟩ := verifyToken_cases h
  obtain ⟨hsame, hnow⟩ := newSecond_same hsecond
  rw [hnow, hsame.drift] at hcases
  intro op hop
  rcases List.mem_append.mp hop with hop | hop
  · exact newSecond_ops hcount hsecond op hop
  split at hop
  · cases hop
  split at hop
  · cases hop
  rename_i hfuture hdelayed
  rcases hcases with ⟨-, -, hout⟩ | ⟨hdrift, found, replays, hcheck, -⟩
  · exact absurd hout (not_or.mpr ⟨hfuture, hdelayed⟩)
  rcases List.mem_cons.mp hop with rfl | hop
  · exact Int.natCast_ne_zero.mpr hdrift
  · rw [← checkOps_same hsame.shape] at hop
    exact check_ops (hsame.shape.count.trans hcount) hcheck op hop

/-! ## Every token -/

theorem tokenOps_defined {statsd : StatsdSecure} (hpos : 1 ≤ statsd.drift) (hlt : statsd.drift < 2 ^ 31)
    (hbits : u32 statsd.replays.bits ≠ 0) (buffer : List Byte) {clock : Int} (hclock : 0 ≤ clock) :
    ∀ op ∈ tokenOps statsd buffer clock, op.Defined statsd.drift := by
  have hu : u64 statsd.drift = statsd.drift.toNat := u64_of_lt (by omega) (by omega)
  -- an index below the drift stays what it is as an `int`
  have hindex : ∀ n : Int, 0 ≤ n → n < statsd.drift → (Op.filter (i32 n)).Defined statsd.drift := by
    intro n hn hn'
    rw [i32_of_lt (by omega) (by omega)]
    exact ⟨hn, hn'⟩
  intro op hop
  rcases List.mem_append.mp hop with hop | hop
  · unfold newSecondOps at hop
    split at hop
    · rcases List.mem_cons.mp hop with rfl | hop
      · show statsd.drift ≠ 0
        omega
      · rw [List.mem_singleton.mp hop, Int.tmod_eq_emod_of_nonneg hclock]
        exact hindex _ (Int.emod_nonneg _ (by omega)) (Int.emod_lt_of_pos _ (by omega))
    · cases hop
  · split at hop
    · cases hop
    split at hop
    · cases hop
    rw [hu] at hop
    have hmod : timestamp buffer % statsd.drift.toNat < statsd.drift.toNat := Nat.mod_lt _ (by omega)
    rcases List.mem_cons.mp hop with rfl | hop
    · exact Int.natCast_ne_zero.mpr (by omega)
    rcases List.mem_cons.mp hop with rfl | hop
    · exact hindex _ (by omega) (by omega)
    · obtain ⟨-, rfl⟩ := List.mem_replicate.mp hop
      exact Int.natCast_ne_zero.mpr hbits

/-! ## Every configuration -/

variable {hmac : List Byte → List Byte → Digest}

theorem run_same {start thread : Thread} {calls : List (Call Arrival)} {log : List Verdict}
    (h : Machine.run (step hmac) start calls = some (thread, log)) : start.statsd.Same thread.statsd :=
  Machine.run_invariant (fun thread => start.statsd.Same thread.statsd)
    (fun hsame hstep => hsame.trans (step_same hstep)) (.refl _) h

theorem new_eq {settings : Settings} {statsd : StatsdSecure}
    (h : StatsdSecure.new settings = some statsd) :
    statsd.now = 0 ∧ statsd.drift = settings.max_drift ∧ statsd.replays.hashes = 10 ∧
      statsd.replays.bits = Multibloom.bitsFor settings.replay_len ∧
      statsd.replays.filters.length = settings.max_drift.toNat := by
  obtain ⟨replays, hnew, rfl⟩ := Option.map_eq_some_iff.mp h
  obtain ⟨-, rfl⟩ := Multibloom.new_cases hnew
  exact ⟨rfl, rfl, rfl, rfl, List.length_replicate⟩

variable (hmac) in
/-- A packet of one second after the Epoch, signed with the key of the sampler. -/
def firstArrival (key : List Byte) : Arrival where
  bytes := (hmac key (leBytes 8 1 ++ [0, 0, 0, 0])).bytes ++ (leBytes 8 1 ++ [0, 0, 0, 0])
  fits := by
    rw [List.length_append, Digest.length_eq]
    decide
  clock := 1
  clock_nonneg := by decide
  clock_lt := by decide

theorem firstArrival_min (key : List Byte) :
    MIN_PACKET_SIZE ≤ (firstArrival hmac key).bytes.length := by
  unfold firstArrival
  rw [List.length_append, Digest.length_eq]
  decide

theorem firstArrival_drop (key : List Byte) :
    (firstArrival hmac key).bytes.drop SHA_SIZE = leBytes 8 1 ++ [0, 0, 0, 0] :=
  List.drop_left' (Digest.length_eq _)

theorem firstArrival_authentic (statsd : StatsdSecure) :
    authentic hmac statsd (firstArrival hmac statsd.hmac_key).bytes := by
  unfold authentic
  rw [firstArrival_drop, memcmpct_eq_zero]
  intro i hi
  unfold firstArrival
  exact List.getD_append _ _ _ _ (by rw [Digest.length_eq]; exact hi)

theorem firstArrival_timestamp (key : List Byte) :
    timestamp (firstArrival hmac key).bytes = 1 := by
  unfold timestamp
  rw [firstArrival_drop]
  decide

/-- What a sampler that has just started does with that packet. -/
theorem firstArrival_ops {settings : Settings} {statsd : StatsdSecure}
    (h : StatsdSecure.new settings = some statsd) :
    tokenOps statsd (firstArrival hmac statsd.hmac_key).bytes 1 =
      .modulus settings.max_drift :: .filter (i32 ((1 : Int).tmod settings.max_drift)) ::
        .modulus (u64 settings.max_drift) ::
        .filter (i32 (1 % u64 settings.max_drift : Nat)) ::
        List.replicate 10 (.modulus (u32 (Multibloom.bitsFor settings.replay_len))) := by
  obtain ⟨hnow, hdrift, hhashes, hbits, -⟩ := new_eq h
  unfold tokenOps newSecondOps checkOps
  rw [firstArrival_timestamp, hnow, hdrift, hhashes, hbits, if_pos (by decide), if_neg (by decide),
    if_neg (by rw [show u64 (1 - (1 : Nat)) = 0 from rfl]; omega)]
  rfl

/-- **The arithmetic of the replay filters.** For every configuration with which a sampler starts there
are `max_drift` filters, and no run of it comes to an authentic packet with a modulus of zero or an index
outside the filters exactly when `max_drift` is at least one and `replay_len` is not zero. -/
theorem replay_defined_iff (hmac : List Byte → List Byte → Digest) {settings : Settings}
    {start : Thread} (hnew : StatsdSecure.new settings = some start.statsd) :
    start.statsd.replays.filters.length = settings.max_drift.toNat ∧
    ((∀ calls thread log, Machine.run (step hmac) start calls = some (thread, log) →
      ∀ a : Arrival, MIN_PACKET_SIZE ≤ a.bytes.length → authentic hmac thread.statsd a.bytes →
        ∀ op ∈ tokenOps thread.statsd a.bytes a.clock, op.Defined settings.max_drift) ↔
      1 ≤ settings.max_drift ∧ settings.replay_len ≠ 0) := by
  obtain ⟨hnow, hdrift, hhashes, hbits, hcount⟩ := new_eq hnew
  refine ⟨hcount, ?_, ?_⟩
  · intro h
    have hops := h [] start [] rfl (firstArrival hmac start.statsd.hmac_key) (firstArrival_min _)
      (firstArrival_authentic _)
    rw [show (firstArrival hmac start.statsd.hmac_key).clock = 1 from rfl, firstArrival_ops hnew] at hops
    constructor
    · have hindex : (Op.filter _).Defined _ := hops _ (List.mem_cons_of_mem _ List.mem_cons_self)
      obtain ⟨hnonneg, hlt⟩ := hindex
      omega
    · intro hzero
      have hmodulus : (Op.modulus (u32 (Multibloom.bitsFor settings.replay_len))).Defined _ :=
        hops _ (by simp)
      rw [(Multibloom.u32_bitsFor _).mpr hzero] at hmodulus
      exact hmodulus rfl
  · rintro ⟨hpos, hlen⟩ calls thread log hrun a - -
    have hsame := run_same hrun
    have hdrift' : thread.statsd.drift = settings.max_drift := hsame.drift.trans hdrift
    have hbits' : u32 thread.statsd.replays.bits ≠ 0 := by
      rw [hsame.shape.bits, hbits]
      exact fun hzero => hlen ((Multibloom.u32_bitsFor _).mp hzero)
    rw [← hdrift'] at hpos ⊢
    have hlt : thread.statsd.drift < 2 ^ 31 := by
      rw [hdrift']
      exact settings.max_drift_int.2
    exact tokenOps_defined hpos hlt hbits' a.bytes a.clock_nonneg

theorem replay_defined_iff_example :
    StatsdSecure.new exampleSettings = some exampleStatsd ∧
      exampleStatsd.replays.filters.length = 3 ∧
      ∀ op ∈ tokenOps exampleStatsd exampleDatagram.bytes (exampleArrival 0).clock,
        op.Defined exampleSettings.max_drift := by
  have hnew : StatsdSecure.new exampleSettings = some exampleStatsd := (Option.some_get _).symm
  let start : Thread := ⟨Server.started, 0, exampleStatsd, .blank _⟩
  have hstart : StatsdSecure.new exampleSettings = some start.statsd := hnew
  have hauth : authentic (fun _ _ => exampleDigest) exampleStatsd exampleDatagram.bytes := by decide
  obtain ⟨hcount, hiff⟩ := replay_defined_iff (fun _ _ => exampleDigest) hstart
  refine ⟨hnew, hcount, ?_⟩
  exact hiff.mpr (by decide) [] start [] rfl (exampleArrival 0) (by decide) hauth

/-- The settings of the example without entries, which the assertion in `multibloom_new` is against. -/
def zeroEntries : Settings := { exampleSettings with replay_len := 0, replay_len_int := by decide }

/-- The settings of the example without a drift. -/
def zeroDrift : Settings := { exampleSettings with max_drift := 0, max_drift_int := by decide }

def started (settings : Settings) (h : (StatsdSecure.new settings).isSome) : StatsdSecure :=
  (StatsdSecure.new settings).get h

/-- With either of them the sampler starts, and divides by zero at the first authentic packet. -/
theorem zero_settings_divide :
    StatsdSecure.new zeroEntries = some (started zeroEntries rfl) ∧
      StatsdSecure.new zeroDrift = some (started zeroDrift rfl) ∧
      MIN_PACKET_SIZE ≤ exampleDatagram.bytes.length ∧
      authentic (fun _ _ => exampleDigest) (started zeroEntries rfl) exampleDatagram.bytes ∧
      authentic (fun _ _ => exampleDigest) (started zeroDrift rfl) exampleDatagram.bytes ∧
      Op.modulus 0 ∈ tokenOps (started zeroEntries rfl) exampleDatagram.bytes 1000 ∧
      Op.modulus 0 ∈ tokenOps (started zeroDrift rfl) exampleDatagram.bytes 1000 ∧
      ¬ (Op.modulus 0).Defined zeroEntries.max_drift ∧ ¬ (Op.modulus 0).Defined zeroDrift.max_drift := by
  have hzero : ∀ count, ¬ (Op.modulus 0).Defined count := fun _ h => h rfl
  exact ⟨(Option.some_get _).symm, (Option.some_get _).symm, by decide, by decide, by decide, by decide,
    List.mem_cons_self, hzero _, hzero _⟩

end Secure
end Brubeck
