import Brubeck.Secure.Forged
import Brubeck.Secure.Replay

/-!
# Brubeck.Secure.Sender

The client of the statsd-secure sampler, `test-bin/statsd-secure-send.c`, against the sampler.

* `buildPacket`: what the client sends.
* `packetParse_behind`: the parser does the same with a packet that stands behind something else.
* `coreStep_sent`: a packet of the client is authentic. It is delivered as its text alone would be, or
  counted as one that was sent in the future, too late or again.
* `sent_delivered`: a run over packets of the client, in any order, any number of times and with any delay.
-/

namespace Brubeck
namespace Statsd

open Lib

/-! ## A packet behind something else -/

theorem msgParse_restart (msg : Msg) (key : Nat) (mem : List Byte) (buffer stop : Nat) :
    msgParse { msg with key := key } mem buffer stop = msgParse msg mem buffer stop := by
  simp only [msgParse]

theorem segmentLoop_key (rounds : Nat) (msg : Msg) (key : Nat) (mem : List Byte) (buffer stop : Nat) :
    segmentLoop rounds { msg with key := key } mem buffer stop =
      segmentLoop rounds msg mem buffer stop := by
  cases rounds with
  | zero => rfl
  | succ rounds => simp only [segmentLoop, msgParse_restart]

theorem parseBody_moved (msg : Msg) (key : Nat) (l : List Byte) :
    parseBody { msg with key := key } l =
      ((parseBody msg l).1, { (parseBody msg l).2 with key := key }) := by
  rcases hvalue : parseFloat l 0 with ⟨value, modifiers, rest⟩
  simp only [parseBody, hvalue]
  by_cases hbar : cur rest ≠ ch '|'
  · simp only [if_pos hbar]
  · simp only [if_neg hbar]
    cases parseType rest.tail with
    | none => rfl
    | some found =>
      obtain ⟨type, rest'⟩ := found
      cases hrate : parseRate rest' with
      | none => simp only [hrate]
      | some rate => simp only [hrate]

theorem msgParse_start (msg : Msg) (mem : List Byte) (buffer stop : Nat) :
    (msgParse msg mem buffer stop).msg.key = buffer := by
  simp only [msgParse]
  split
  · rfl
  split
  · rfl
  · rw [(parseBody_key _ _).1]

/-- One line. It is looked at one byte before its start, and not further back. -/
theorem msgParse_behind (msg : Msg) (pre mem : List Byte) {buffer : Nat} (stop : Nat)
    (hbuffer : 0 < buffer) :
    msgParse msg (pre ++ mem) (pre.length + buffer) (pre.length + stop) =
      let parsed := msgParse msg mem buffer stop
      ⟨parsed.rc, { parsed.msg with key := pre.length + buffer }, pre ++ parsed.mem⟩ := by
  have hset : ∀ (m : List Byte) (i : Nat), (pre ++ m).set (pre.length + i) 0 = pre ++ m.set i 0 := by
    intro m i
    rw [List.set_append_right _ _ (Nat.le_add_right _ _), Nat.add_sub_cancel_left]
  have hdrop : ∀ (m : List Byte) (i : Nat), (pre ++ m).drop (pre.length + i) = m.drop i := by
    intro m i
    rw [List.drop_append, List.drop_eq_nil_of_le (Nat.le_add_right _ _), List.nil_append,
      Nat.add_sub_cancel_left]
  simp only [msgParse, hset, hdrop]
  cases scanKey ((mem.set stop 0).drop buffer) with
  | none => rfl
  | some n =>
    have hlook : ∀ (m : List Byte) (k : Nat), (pre ++ m).getD (pre.length + buffer + k - 1) 0 =
        m.getD (buffer + k - 1) 0 := by
      intro m k
      rw [show pre.length + buffer + k - 1 = pre.length + (buffer + k - 1) by omega,
        List.getD_append_right _ _ _ _ (Nat.le_add_right _ _), Nat.add_sub_cancel_left]
    simp only [Nat.add_assoc, hset, hdrop]
    simp only [← Nat.add_assoc, hlook]
    split
    · rfl
    · have hbody := parseBody_moved { msg with key := buffer, key_len := n % 2 ^ 16 }
        (pre.length + buffer) (((mem.set stop 0).set (buffer + n) 0).drop (buffer + n + 1))
      simp only at hbody
      rw [hbody]

theorem outcome_behind (msg : Msg) (pre mem : List Byte) {buffer : Nat} (stop : Nat)
    (hbuffer : 0 < buffer) :
    (msgParse msg (pre ++ mem) (pre.length + buffer) (pre.length + stop)).outcome =
      (msgParse msg mem buffer stop).outcome := by
  have hkey := msgParse_start msg mem buffer stop
  rw [msgParse_behind msg pre mem stop hbuffer]
  simp only [Parsed.outcome, Msg.reading, hkey, List.drop_append, List.drop_eq_nil_of_le,
    Nat.le_add_right, List.nil_append, Nat.add_sub_cancel_left]

theorem statEnd_behind (pre mem : List Byte) (buffer stop : Nat) :
    statEnd (pre ++ mem) (pre.length + buffer) (pre.length + stop) =
      pre.length + statEnd mem buffer stop := by
  rw [statEnd, statEnd, List.drop_append, List.drop_eq_nil_of_le (Nat.le_add_right _ _),
    List.nil_append, Nat.add_sub_cancel_left, Nat.add_sub_add_left, Nat.add_assoc]

theorem segmentLoop_behind (pre : List Byte) (rounds : Nat) :
    ∀ (msg : Msg) (mem : List Byte) (buffer stop : Nat), 0 < buffer →
      segmentLoop rounds msg (pre ++ mem) (pre.length + buffer) (pre.length + stop) =
        ((segmentLoop rounds msg mem buffer stop).1,
          pre ++ (segmentLoop rounds msg mem buffer stop).2) := by
  induction rounds with
  | zero => intro msg mem buffer stop _; rfl
  | succ rounds ih =>
    intro msg mem buffer stop hbuffer
    simp only [segmentLoop, Nat.add_lt_add_iff_left]
    by_cases hlt : buffer < stop
    · simp only [if_pos hlt, statEnd_behind, outcome_behind _ pre mem _ hbuffer]
      rw [msgParse_behind msg pre mem _ hbuffer]
      simp only [segmentLoop_key, Nat.add_assoc, ih _ _ _ _ (Nat.succ_pos _)]
    · simp only [if_neg hlt]

/-- A packet behind something else: only the byte right before it can matter. -/
theorem packetParse_behind (server : Server) (pre mem : List Byte) {buffer : Nat} (stop : Nat)
    (hbuffer : 0 < buffer) :
    (packetParse server (pre ++ mem) (pre.length + buffer) (pre.length + stop)).map Prod.fst =
      (packetParse server mem buffer stop).map Prod.fst := by
  rw [packetParse_eq, packetParse_eq, segments, segments, Nat.add_sub_add_left,
    segmentLoop_behind pre _ _ _ _ _ hbuffer]
  simp only [Option.map_map]
  rfl

end Statsd

namespace Secure

open Lib Statsd

/-! ## The client -/

def HMAC_KEY : List Byte := str "750c783e6ab0b503eaa86e310a5db738".toList

/-- One run of the client: its argument, the random nonce, and the second that it reads. The packet has
to fit the buffer that the sampler reads it to. -/
structure Sent where
  metric : List Byte
  nonce : UInt32
  now : Int
  no_nul : 0 ∉ metric
  fits : MIN_PACKET_SIZE + metric.length < MAX_PACKET_SIZE

namespace Sent

/-- The `uint64_t` that the client signs, two seconds old: a fake delay. -/
def timestamp (s : Sent) : Nat := u64 (s.now - 2)

def payload (s : Sent) : List Byte :=
  leBytes 8 s.timestamp ++ (leBytes 4 s.nonce.toNat ++ s.metric)

/-- `build_packet`. -/
def buildPacket (hmac : List Byte → List Byte → Digest) (s : Sent) : List Byte :=
  (hmac HMAC_KEY s.payload).bytes ++ s.payload

/-- The last byte before the text. The parser looks at it when the first key is empty. -/
def look (s : Sent) : Byte := UInt8.ofNat (s.nonce.toNat / 256 ^ 3 % 256)

theorem timestamp_lt (s : Sent) : s.timestamp < 2 ^ 64 := by
  have h0 := Int.emod_nonneg (s.now - 2) (show (2 : Int) ^ 64 ≠ 0 by decide)
  have hlt := Int.emod_lt_of_pos (s.now - 2) (show (0 : Int) < 2 ^ 64 by decide)
  rw [timestamp, u64]
  omega

theorem payload_length (s : Sent) : s.payload.length = 12 + s.metric.length := by
  simp only [payload, List.length_append, leBytes_length]
  omega

variable (hmac : List Byte → List Byte → Digest)

theorem buildPacket_length (s : Sent) :
    (s.buildPacket hmac).length = MIN_PACKET_SIZE + s.metric.length := by
  rw [buildPacket, List.length_append, Digest.length_eq, payload_length, MIN_PACKET_SIZE, Nat.add_assoc]

theorem buildPacket_take (s : Sent) :
    (s.buildPacket hmac).take SHA_SIZE = (hmac HMAC_KEY s.payload).bytes :=
  List.take_left' (Digest.length_eq _)

theorem buildPacket_drop (s : Sent) : (s.buildPacket hmac).drop SHA_SIZE = s.payload :=
  List.drop_left' (Digest.length_eq _)

theorem buildPacket_timestamp (s : Sent) : Secure.timestamp (s.buildPacket hmac) = s.timestamp := by
  rw [Secure.timestamp, buildPacket_drop, payload, List.take_left' (leBytes_length 8 _), leNat_leBytes]
  exact Nat.mod_eq_of_lt s.timestamp_lt

/-- The packet up to its last byte before the text, that byte, and the text. -/
theorem buildPacket_split (s : Sent) :
    ∃ pre, pre.length = 43 ∧ s.buildPacket hmac = pre ++ s.look :: s.metric := by
  refine ⟨(hmac HMAC_KEY s.payload).bytes ++ (leBytes 8 s.timestamp ++ leBytes 3 s.nonce.toNat), ?_, ?_⟩
  · simp [Digest.length_eq, SHA_SIZE]
  · have hnonce : leBytes 4 s.nonce.toNat = leBytes 3 s.nonce.toNat ++ [s.look] := by
      simp [leBytes, look, Nat.div_div_eq_div_mul]
    rw [buildPacket]
    nth_rewrite 2 [payload]
    rw [hnonce]
    simp only [List.append_assoc, List.singleton_append]

end Sent

/-! ## One packet -/

/-- What `verify_token` counts for a token of second `sent`, when it returns `rc` in second `clock`. -/
def counts (drift : Int) (sent : Nat) (clock rc : Int) : Counters :=
  if rc = 0 then .zero
  else if clock < sent then { Counters.zero with from_future := 1 }
  else if sent + drift < clock then { Counters.zero with delayed := 1 }
  else { Counters.zero with replayed := 1 }

/-- A packet on its way, and the clock of the server when it is looked at. -/
structure Delivery extends Sent where
  clock : Int
  clock_nonneg : 0 ≤ clock
  clock_lt : clock < 2 ^ 63

namespace Delivery

/-- Neither from the future nor too late. -/
def Timely (drift : Int) (d : Delivery) : Prop :=
  d.timestamp ≤ d.clock ∧ d.clock ≤ d.timestamp + drift

instance decidableTimely (drift : Int) (d : Delivery) : Decidable (d.Timely drift) :=
  inferInstanceAs (Decidable (_ ∧ _))

/-- The text of the packet as a datagram of its own. -/
def text (d : Delivery) : Datagram MAX_PACKET_SIZE :=
  ⟨d.metric, Nat.lt_of_le_of_lt (Nat.le_add_left _ _) d.fits⟩

/-- What the text does to a server, without the sampler. -/
def plain (server : Server) (d : Delivery) : Option Server := deliver d.look 0 server d.text

variable (hmac : List Byte → List Byte → Digest)

def arrival (d : Delivery) : Arrival where
  bytes := d.buildPacket hmac
  fits := by rw [Sent.buildPacket_length]; exact d.fits
  clock := d.clock
  clock_nonneg := d.clock_nonneg
  clock_lt := d.clock_lt

def verdict (d : Delivery) (rc : Int) : Verdict := ⟨d.buildPacket hmac, d.clock, rc⟩

theorem inWindow_iff (statsd : StatsdSecure) (d : Delivery) :
    InWindow statsd (d.buildPacket hmac) d.clock ↔ d.Timely statsd.drift := by
  rw [InWindow, Sent.buildPacket_timestamp, Timely]

theorem authentic_arrival {statsd : StatsdSecure} (hkey : statsd.hmac_key = HMAC_KEY) (d : Delivery) :
    authentic hmac statsd (d.buildPacket hmac) := by
  have hlen : SHA_SIZE ≤ (d.buildPacket hmac).length := by
    rw [Sent.buildPacket_length, MIN_PACKET_SIZE, Nat.add_assoc]
    exact Nat.le_add_right _ _
  rw [authentic_iff statsd hlen, Sent.buildPacket_take, Sent.buildPacket_drop, hkey]

theorem deliver_arrival (server : Server) (d : Delivery) :
    deliver 0 MIN_PACKET_SIZE server (d.arrival hmac).toDatagram = d.plain server := by
  obtain ⟨pre, hpre, hpacket⟩ := d.buildPacket_split hmac
  have hsplit : (0 : Byte) :: (d.buildPacket hmac ++ [0]) =
      (0 :: pre) ++ d.look :: (d.metric ++ [0]) := by simp [hpacket]
  have hlen : (0 :: pre).length = MIN_PACKET_SIZE := by rw [List.length_cons, hpre]; rfl
  have hbehind := packetParse_behind server (0 :: pre) (d.look :: (d.metric ++ [0]))
    (1 + d.metric.length) Nat.one_pos
  rw [hlen] at hbehind
  have hend : 1 + (d.buildPacket hmac).length = MIN_PACKET_SIZE + (1 + d.metric.length) := by
    rw [Sent.buildPacket_length]
    omega
  show (packetParse server (0 :: (d.buildPacket hmac ++ [0])) (1 + MIN_PACKET_SIZE)
    (1 + (d.buildPacket hmac).length)).map Prod.fst = _
  rw [hsplit, hend, Nat.add_comm 1 MIN_PACKET_SIZE, hbehind]
  rfl

end Delivery

/-- What a token adds to the counters. -/
theorem verifyToken_counts {statsd statsd' : StatsdSecure} (h : Good statsd) {server server' : Server}
    {buffer : List Byte} {clock rc : Int} (hclock : 0 ≤ clock) (hlt : clock < 2 ^ 63)
    (hverify : verifyToken server statsd buffer clock = some (rc, server', statsd')) :
    server' = server.credit (counts statsd.drift (timestamp buffer) clock rc) := by
  obtain ⟨second, hsecond, hgood, hnow, hdrift, -, -, -⟩ := newSecond_spec h hclock
  have hpos := hgood.drift_pos
  have hdlt := hgood.drift_lt
  have hu_now : u64 second.now = clock.toNat := by
    rw [hnow]
    exact u64_of_lt hclock (by omega)
  have hu_drift : u64 second.drift = second.drift.toNat := u64_of_lt (by omega) (by omega)
  simp only [verifyToken, hsecond, hu_now, hu_drift] at hverify
  by_cases hfuture : clock.toNat < timestamp buffer
  · rw [if_pos hfuture] at hverify
    cases hverify
    rw [counts, if_neg (by decide), if_pos (by omega)]
    simp [Server.credit, Counters.plus, Counters.zero]
  rw [if_neg hfuture] at hverify
  have hu_age : u64 (second.now - timestamp buffer) = (clock - timestamp buffer).toNat := by
    rw [hnow]
    exact u64_of_lt (by omega) (by omega)
  rw [hu_age] at hverify
  by_cases hdelayed : second.drift.toNat < (clock - timestamp buffer).toNat
  · rw [if_pos hdelayed] at hverify
    cases hverify
    rw [counts, if_neg (by decide), if_neg (by omega), if_pos (by omega)]
    simp [Server.credit, Counters.plus, Counters.zero]
  rw [if_neg hdelayed, if_neg (by omega)] at hverify
  split at hverify
  · cases hverify
  · cases hverify
    rw [counts, if_neg (by decide), if_neg (by omega), if_neg (by omega)]
    simp [Server.credit, Counters.plus, Counters.zero]
  · cases hverify
    rw [counts, if_pos rfl, Server.credit_zero]

/-- A packet of the client is verified, and nothing else can happen to it. -/
theorem coreStep_sent (hmac : List Byte → List Byte → Digest) {core : Core} (hgood : Good core.statsd)
    (hkey : core.statsd.hmac_key = HMAC_KEY) (d : Delivery) :
    ∃ rc statsd', Verified core.statsd (d.buildPacket hmac) d.clock rc statsd' ∧
      coreStep hmac core (.received (d.arrival hmac)) =
        (if rc = 0 then d.plain core.server else some core.server).map fun server =>
          (⟨server.credit (counts core.statsd.drift d.timestamp d.clock rc), statsd'⟩,
            [d.verdict hmac rc]) := by
  obtain ⟨rc, server', statsd', hverify, hv⟩ :=
    verifyToken_spec hgood core.server (d.buildPacket hmac) d.clock_nonneg d.clock_lt
  have hcounts := verifyToken_counts hgood d.clock_nonneg d.clock_lt hverify
  rw [Sent.buildPacket_timestamp] at hcounts
  refine ⟨rc, statsd', hv, ?_⟩
  have hlong : ¬ (d.arrival hmac).bytes.length < MIN_PACKET_SIZE := by
    show ¬ (d.buildPacket hmac).length < _
    rw [Sent.buildPacket_length]
    exact Nat.not_lt.mpr (Nat.le_add_right _ _)
  have hauth : ¬ ¬ authentic hmac core.statsd (d.arrival hmac).bytes :=
    not_not.mpr (d.authentic_arrival hmac hkey)
  have hverify' : verifyToken core.server core.statsd (d.arrival hmac).bytes (d.arrival hmac).clock =
      some (rc, server', statsd') := hverify
  simp only [coreStep, if_neg hlong, if_neg hauth, hverify', d.deliver_arrival hmac]
  rcases hv.rc_or with rfl | rfl
  · have hsame : server' = core.server := hcounts.trans (Server.credit_zero _)
    subst hsame
    simp only [lt_self_iff_false, if_false, if_true, counts, Server.credit_zero]
    rfl
  · rw [if_pos (by decide), if_neg (by decide), hcounts]
    rfl

/-! ## A run -/

/-- What the sampler may say to packets of the client, after others that are past. It accepts those in
their window, unless an earlier one in its window was sent in a second of the same filter. -/
inductive Judged (drift : Int) : List Delivery → List (Delivery × Int) → Prop
  | nil (past : List Delivery) : Judged drift past []
  | accepted {past : List Delivery} {d : Delivery} {verdicts : List (Delivery × Int)} :
    d.Timely drift → Judged drift (d :: past) verdicts → Judged drift past ((d, 0) :: verdicts)
  | untimely {past : List Delivery} {d : Delivery} {verdicts : List (Delivery × Int)} :
    ¬ d.Timely drift → Judged drift (d :: past) verdicts → Judged drift past ((d, -1) :: verdicts)
  | replayed {past : List Delivery} {d e : Delivery} {verdicts : List (Delivery × Int)} :
    d.Timely drift → e ∈ past → e.Timely drift →
    e.timestamp % drift.toNat = d.timestamp % drift.toNat → Judged drift (d :: past) verdicts →
    Judged drift past ((d, -1) :: verdicts)

/-- The packets that were accepted. -/
def taken (verdicts : List (Delivery × Int)) : List Delivery :=
  (verdicts.filter fun v => v.2 = 0).map Prod.fst

/-- What all verdicts add to the counters. -/
def counted (drift : Int) : List (Delivery × Int) → Counters
  | [] => .zero
  | v :: verdicts => (counts drift v.1.timestamp v.1.clock v.2).plus (counted drift verdicts)

theorem credit_plainAll (ds : List Delivery) (server : Server) (amount : Counters) :
    ds.foldlM Delivery.plain (server.credit amount) =
      (ds.foldlM Delivery.plain server).map (Server.credit amount) := by
  induction ds generalizing server with
  | nil => rfl
  | cons d ds ih =>
    rw [List.foldlM_cons, List.foldlM_cons, Delivery.plain, Delivery.plain, credit_deliver]
    cases deliver d.look 0 server d.text with
    | none => rfl
    | some server₁ => exact ih server₁

/-- Each bit that is on was turned on for a packet that is past and was in its window. -/
def Explained (statsd : StatsdSecure) (past : List Delivery) : Prop :=
  ∀ f y, statsd.replays.bitAt f y →
    ∃ e ∈ past, e.Timely statsd.drift ∧ slot statsd e.timestamp = f

theorem Explained.step {hmac : List Byte → List Byte → Digest} {statsd statsd' : StatsdSecure}
    {past : List Delivery} (h : Explained statsd past) {d : Delivery} {rc : Int}
    (hv : Verified statsd (d.buildPacket hmac) d.clock rc statsd') : Explained statsd' (d :: past) := by
  intro f y hbit
  rw [hv.drift]
  have hslot : ∀ n, slot statsd' n = slot statsd n := fun n => by rw [slot, slot, hv.drift]
  rcases (hv.bits f y).mp hbit with ⟨-, hold⟩ | ⟨hin, hf, -⟩
  · obtain ⟨e, hmem, htimely, hslot'⟩ := h f y hold
    exact ⟨e, List.mem_cons_of_mem _ hmem, htimely, (hslot _).trans hslot'⟩
  · refine ⟨d, List.mem_cons_self, (d.inWindow_iff hmac statsd).mp hin, ?_⟩
    rw [hslot, hf, filterOf, Sent.buildPacket_timestamp]

/-- The verdict on one packet, against what is past. -/
theorem Explained.judged {hmac : List Byte → List Byte → Digest} {statsd statsd' : StatsdSecure}
    {past : List Delivery} (h : Explained statsd past) (hgood : Good statsd) {d : Delivery} {rc : Int}
    (hv : Verified statsd (d.buildPacket hmac) d.clock rc statsd')
    {verdicts : List (Delivery × Int)} (hrest : Judged statsd.drift (d :: past) verdicts) :
    Judged statsd.drift past ((d, rc) :: verdicts) := by
  have hwindow := d.inWindow_iff hmac statsd
  rcases hv.rc_or with rfl | rfl
  · exact .accepted (hwindow.mp (hv.accepted.mp rfl).1) hrest
  · by_cases htimely : d.Timely statsd.drift
    · have hrem : Remembers statsd (d.buildPacket hmac) d.clock := by
        by_contra hnot
        exact absurd (hv.accepted.mpr ⟨hwindow.mpr htimely, hnot⟩) (by decide)
      have hpos := hgood.valid.hashes_pos
      obtain ⟨e, hmem, he, hslot⟩ := h _ _ (hrem.2 0 (by omega))
      rw [filterOf, Sent.buildPacket_timestamp] at hslot
      exact .replayed htimely hmem he hslot hrest
    · exact .untimely htimely hrest

theorem run_sent (hmac : List Byte → List Byte → Digest) (ds : List Delivery) :
    ∀ (core : Core) (past : List Delivery), Good core.statsd → core.statsd.hmac_key = HMAC_KEY →
      Explained core.statsd past →
      ∃ verdicts, verdicts.map Prod.fst = ds ∧ Judged core.statsd.drift past verdicts ∧
        (Machine.run (coreStep hmac) core (ds.map fun d => .received (d.arrival hmac))).map
            (fun r => (r.1.server, r.2)) =
          ((taken verdicts).foldlM Delivery.plain core.server).map fun server =>
            (server.credit (counted core.statsd.drift verdicts),
              verdicts.map fun v => v.1.verdict hmac v.2) := by
  induction ds with
  | nil =>
    intro core past _ _ _
    refine ⟨[], rfl, .nil past, ?_⟩
    show some (core.server, []) = some (core.server.credit .zero, [])
    rw [Server.credit_zero]
  | cons d ds ih =>
    intro core past hgood hkey hpast
    obtain ⟨rc, statsd', hv, hstep⟩ := coreStep_sent hmac hgood hkey d
    have hrest := fun server => ih ⟨server, statsd'⟩ (d :: past) hv.good (hv.hmac_key.trans hkey)
      (hpast.step hv)
    have htaken : ∀ verdicts, (taken ((d, rc) :: verdicts)).foldlM Delivery.plain core.server =
        (if rc = 0 then d.plain core.server else some core.server).bind
          fun server => (taken verdicts).foldlM Delivery.plain server := by
      intro verdicts
      by_cases hrc : rc = 0
      · rw [if_pos hrc, taken, List.filter_cons_of_pos (by simpa using hrc), List.map_cons,
          List.foldlM_cons]
        rfl
      · rw [if_neg hrc, taken, List.filter_cons_of_neg (by simpa using hrc)]
        rfl
    cases hplain : (if rc = 0 then d.plain core.server else some core.server) with
    | none =>
      -- the packet stops the thread, and its text would stop it too
      obtain ⟨verdicts, hds, hjudged, -⟩ := hrest core.server
      rw [hv.drift] at hjudged
      refine ⟨(d, rc) :: verdicts, by rw [List.map_cons, hds], hpast.judged hgood hv hjudged, ?_⟩
      rw [List.map_cons, Machine.run, hstep, htaken, hplain]
      rfl
    | some server =>
      obtain ⟨verdicts, hds, hjudged, hrun⟩ :=
        hrest (server.credit (counts core.statsd.drift d.timestamp d.clock rc))
      simp only [hv.drift, credit_plainAll, Option.map_map] at hjudged hrun
      refine ⟨(d, rc) :: verdicts, by rw [List.map_cons, hds], hpast.judged hgood hv hjudged, ?_⟩
      rw [List.map_cons, Machine.run, hstep, htaken, hplain]
      have hcons := congrArg (Option.map fun r => (r.1, d.verdict hmac rc :: r.2)) hrun
      simp only [Option.map_map, Option.map_some, Option.bind_some] at hcons ⊢
      refine hcons.trans (congrArg (Option.map · _) (funext fun server₁ => ?_))
      simp only [Function.comp_apply, Server.credit_credit, counted, List.map_cons]

/-- **End to end.** A run of the sampler over packets of the client, however they were delayed, ordered
and repeated on the way. None of them is taken for a forgery: there is one verdict for each. The server
ends as if it had been sent the texts of the accepted ones without any of this, in the order in which
they came, with each packet that was refused counted once. -/
theorem sent_delivered (hmac : List Byte → List Byte → Digest) {settings : Settings}
    (hdrift : 1 ≤ settings.max_drift) (hlen : 0 < settings.replay_len)
    (hkey : settings.hmac_key = HMAC_KEY) {thread : Thread}
    (hnew : StatsdSecure.new settings = some thread.statsd) (ds : List Delivery) :
    ∃ verdicts, verdicts.map Prod.fst = ds ∧ Judged settings.max_drift [] verdicts ∧
      (Machine.run (step hmac) thread (ds.map fun d => .received (d.arrival hmac))).map
          (fun r => (r.1.server, r.2)) =
        ((taken verdicts).foldlM Delivery.plain thread.server).map fun server =>
          (server.credit (counted settings.max_drift verdicts),
            verdicts.map fun v => v.1.verdict hmac v.2) := by
  have hgood := new_good hdrift hlen hnew
  obtain ⟨replays, hbloom, hstatsd⟩ := Option.map_eq_some_iff.mp hnew
  have hsettings : thread.core.statsd.drift = settings.max_drift := by
    show thread.statsd.drift = _
    rw [← hstatsd]
  have hkey' : thread.core.statsd.hmac_key = HMAC_KEY := by
    show thread.statsd.hmac_key = _
    rw [← hstatsd]
    exact hkey
  have hnone : Explained thread.core.statsd [] := by
    intro f y hbit
    have hbit' : thread.statsd.replays.bitAt f y := hbit
    rw [← hstatsd] at hbit'
    exact absurd hbit' (Multibloom.new_empty hbloom f y)
  obtain ⟨verdicts, hds, hjudged, hrun⟩ := run_sent hmac ds thread.core [] hgood hkey' hnone
  rw [hsettings] at hjudged hrun
  rw [Machine.run_map Thread.core step_core, Option.map_map] at hrun
  exact ⟨verdicts, hds, hjudged, hrun⟩

/-- A packet of the client with the text `a:1|c` and the nonce 0, signed in second 1000. -/
def exampleDelivery (late : Fin 5) : Delivery where
  metric := str "a:1|c".toList
  nonce := 0
  now := 1002
  no_nul := by decide
  fits := by decide
  clock := 1000 + late.val
  clock_nonneg := by omega
  clock_lt := by omega

/-- The packet comes in time, again, and too late. -/
theorem sent_delivered_thrice :
    ∃ verdicts, verdicts.map Prod.fst = [exampleDelivery 1, exampleDelivery 2, exampleDelivery 4] ∧
      Judged exampleSettings.max_drift [] verdicts ∧ verdicts.map Prod.snd = [0, -1, -1] ∧
      (exampleRun ([exampleDelivery 1, exampleDelivery 2, exampleDelivery 4].map fun d =>
          .received (d.arrival fun _ _ => exampleDigest))).map (fun r => (r.1.server, r.2)) =
        ((taken verdicts).foldlM Delivery.plain Server.started).map fun server =>
          (server.credit (counted exampleSettings.max_drift verdicts),
            verdicts.map fun v => v.1.verdict (fun _ _ => exampleDigest) v.2) := by
  have hnew : StatsdSecure.new exampleSettings = some exampleStatsd := (Option.some_get _).symm
  have hlog : (exampleRun ([exampleDelivery 1, exampleDelivery 2, exampleDelivery 4].map fun d =>
      .received (d.arrival fun _ _ => exampleDigest))).map (fun r => r.2.map Verdict.rc) =
      some [0, -1, -1] := by decide +kernel
  obtain ⟨verdicts, hds, hjudged, hrun⟩ := sent_delivered (fun _ _ => exampleDigest) (by decide)
    (by decide) rfl (show StatsdSecure.new exampleSettings =
      some (⟨Server.started, 0, exampleStatsd, .blank _⟩ : Thread).statsd from hnew)
    [exampleDelivery 1, exampleDelivery 2, exampleDelivery 4]
  refine ⟨verdicts, hds, hjudged, ?_, hrun⟩
  have hrcs := congrArg (Option.map fun r : Server × List Verdict => r.2.map Verdict.rc) hrun
  rw [Option.map_map] at hrcs
  have hsome := hrcs.symm.trans hlog
  obtain ⟨server, -, heq⟩ := Option.map_eq_some_iff.mp ((Option.map_map ..).symm.trans hsome)
  have hrc : (Verdict.rc ∘ fun v : Delivery × Int => v.1.verdict (fun _ _ => exampleDigest) v.2) =
      Prod.snd := rfl
  rwa [Function.comp_apply, List.map_map, hrc] at heq

end Secure
end Brubeck
