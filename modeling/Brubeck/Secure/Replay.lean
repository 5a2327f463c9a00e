import Brubeck.Secure.Basic
import Mathlib.Data.Nat.ModEq

/-!
# Brubeck.Secure.Replay

Replays, over whole runs of the statsd-secure thread with a clock that never goes back.

* `Guarded`: what protects a token once it was accepted. Its filter holds it, or the filter was
  cleared in a second at or past the edge of its window.
* `run_history`: in every run, every accepted token is guarded.
* `replay_rejected_iff`: a token that was accepted is rejected later, in every run, except when it
  comes back in the very last second of its window: there its filter has just been cleared.
-/

namespace Brubeck
namespace Secure

open Lib Statsd

/-! ## One token -/

theorem Verified.filterOf_eq {statsd statsd' : StatsdSecure} {buffer : List Byte} {clock rc : Int}
    (h : Verified statsd buffer clock rc statsd') (bytes : List Byte) :
    filterOf statsd' bytes = filterOf statsd bytes := by
  rw [filterOf, slot, h.drift]
  rfl

theorem Verified.keeps {statsd statsd' : StatsdSecure} {buffer : List Byte} {clock rc : Int}
    (h : Verified statsd buffer clock rc statsd') {f a b : Nat} (hkept : Kept statsd clock f)
    (hholds : statsd.replays.Holds f a b) : statsd'.replays.Holds f a b :=
  hholds.mono h.shape fun y hy => (h.bits f y).mpr (.inl ⟨hkept, hy⟩)

theorem Verified.adds {statsd statsd' : StatsdSecure} {buffer : List Byte} {clock : Int}
    (h : Verified statsd buffer clock 0 statsd') :
    statsd'.replays.Holds (filterOf statsd buffer) (ha buffer) (hb buffer) :=
  Multibloom.holds_of_bits h.shape fun y hy =>
    (h.bits _ y).mpr (.inr ⟨(h.accepted.mp rfl).1, rfl, hy⟩)

/-- The filter of a token is cleared again at the edge of its window at the earliest. -/
theorem cleared_late {statsd : StatsdSecure} {buffer : List Byte} {clock : Int}
    (hpos : 1 ≤ statsd.drift) (hts : timestamp buffer ≤ statsd.now) (hnow : statsd.now ≤ clock)
    (hcleared : ¬ Kept statsd clock (filterOf statsd buffer)) :
    statsd.now < clock ∧ timestamp buffer + statsd.drift ≤ clock := by
  obtain ⟨hne, heq⟩ := not_or.mp hcleared
  have hmod : timestamp buffer ≡ clock.toNat [MOD statsd.drift.toNat] := not_not.mp heq
  have hlt : statsd.now < clock := lt_of_le_of_ne hnow (Ne.symm hne)
  have := hmod.add_le_of_lt (by omega)
  omega

/-- A token accepted in second `c` is in its filter, or its filter was cleared since then, at the
edge of its window or after it. -/
structure Guarded (statsd : StatsdSecure) (buffer : List Byte) (c : Int) : Prop where
  sent : timestamp buffer ≤ c
  past : c ≤ statsd.now
  held : statsd.replays.Holds (filterOf statsd buffer) (ha buffer) (hb buffer) ∨
    (c < statsd.now ∧ timestamp buffer + statsd.drift ≤ statsd.now)

theorem Guarded.of_accepted {statsd statsd' : StatsdSecure} {buffer : List Byte} {clock : Int}
    (h : Verified statsd buffer clock 0 statsd') : Guarded statsd' buffer clock where
  sent := (h.accepted.mp rfl).1.1
  past := h.now.ge
  held := .inl (by rw [h.filterOf_eq]; exact h.adds)

theorem Guarded.step {statsd statsd' : StatsdSecure} {buffer bytes : List Byte} {c clock rc : Int}
    (hgood : Good statsd) (hg : Guarded statsd bytes c) (h : Verified statsd buffer clock rc statsd')
    (hclock : statsd.now ≤ clock) : Guarded statsd' bytes c where
  sent := hg.sent
  past := by rw [h.now]; exact hg.past.trans hclock
  held := by
    rw [h.filterOf_eq, h.now, h.drift]
    rcases hg.held with hholds | ⟨hlt, hedge⟩
    · by_cases hkept : Kept statsd clock (filterOf statsd bytes)
      · exact .inl (h.keeps hkept hholds)
      · obtain ⟨hlt, hedge⟩ :=
          cleared_late hgood.drift_pos (hg.sent.trans hg.past) hclock hkept
        exact .inr ⟨lt_of_le_of_lt hg.past hlt, hedge⟩
    · exact .inr ⟨lt_of_lt_of_le hlt hclock, hedge.trans hclock⟩

/-- A guarded token is rejected, unless it comes back at the edge of its window. -/
theorem Guarded.rejects {statsd statsd' : StatsdSecure} {bytes : List Byte} {c clock rc : Int}
    (hgood : Good statsd) (hg : Guarded statsd bytes c) (h : Verified statsd bytes clock rc statsd')
    (hclock : statsd.now ≤ clock) (hedge : ¬ (c < clock ∧ clock = timestamp bytes + statsd.drift)) :
    rc = -1 := by
  refine h.rc_or.resolve_left fun hrc => hedge ?_
  obtain ⟨⟨-, hwindow⟩, hnot⟩ := h.accepted.mp hrc
  rcases hg.held with hholds | ⟨hlt, hlate⟩
  · obtain ⟨hlt, hlate⟩ := cleared_late hgood.drift_pos (hg.sent.trans hg.past) hclock
      fun hkept => hnot ⟨hkept, hholds⟩
    exact ⟨lt_of_le_of_lt hg.past hlt, Int.le_antisymm hwindow hlate⟩
  · exact ⟨lt_of_lt_of_le hlt hclock, Int.le_antisymm hwindow (hlate.trans hclock)⟩

/-! ## Whole runs -/

variable {hmac : List Byte → List Byte → Digest}

def Monotone (log : List Verdict) : Prop := log.Pairwise fun t t' => t.clock ≤ t'.clock

/-- The state of a sampler against all the tokens it has verified. -/
structure History (drift : Int) (statsd : StatsdSecure) (log : List Verdict) : Prop where
  good : Good statsd
  drift : statsd.drift = drift
  last : statsd.now = 0 ∨ ∃ t ∈ log, t.clock = statsd.now
  guarded : ∀ t ∈ log, t.rc = 0 → Guarded statsd t.bytes t.clock

theorem History.step {drift : Int} {thread thread' : Thread} {call : Call Arrival}
    {log out : List Verdict} (h : History drift thread.statsd log)
    (hstep : Secure.step hmac thread call = some (thread', out)) (hmono : Monotone (log ++ out)) :
    History drift thread'.statsd (log ++ out) := by
  rcases step_cases hstep with ⟨hsame, rfl⟩ | ⟨a, rc, server, hverify, rfl⟩
  · rw [hsame, List.append_nil]
    exact h
  obtain ⟨rc', server', statsd', hverify', hv⟩ :=
    verifyToken_spec h.good thread.server a.bytes a.clock_nonneg a.clock_lt
  rw [hverify] at hverify'
  cases hverify'
  have hclock : thread.statsd.now ≤ a.clock := by
    rcases h.last with hnow | ⟨t, ht, hnow⟩
    · rw [hnow]; exact a.clock_nonneg
    · rw [← hnow]
      exact (List.pairwise_append.mp hmono).2.2 t ht _ (List.mem_singleton_self _)
  refine ⟨hv.good, hv.drift.trans h.drift, .inr ⟨_, List.mem_append_right _ (List.mem_singleton_self _),
    hv.now.symm⟩, fun t ht hrc => ?_⟩
  rcases List.mem_append.mp ht with ht | ht
  · exact (h.guarded t ht hrc).step h.good hv hclock
  · obtain rfl := List.mem_singleton.mp ht
    dsimp only at hrc
    subst hrc
    exact .of_accepted hv

/-- In every run, every accepted token is guarded. -/
theorem run_history {settings : Settings} (hdrift : 1 ≤ settings.max_drift)
    (hlen : 1 < settings.replay_len) {start thread : Thread} {calls : List (Call Arrival)}
    {log : List Verdict} (hrun : Machine.run (step hmac) start calls = some (thread, log))
    (hnew : StatsdSecure.new settings = some start.statsd) (hmono : Monotone log) :
    History settings.max_drift thread.statsd log := by
  let Inv : Thread → List Verdict → Prop := fun thread log =>
    Monotone log → History settings.max_drift thread.statsd log
  have hstart : Inv start [] := by
    intro _
    have hgood := new_good hdrift (by omega) hnew
    obtain ⟨replays, -, heq⟩ := Option.map_eq_some_iff.mp hnew
    rw [← heq] at hgood ⊢
    exact ⟨hgood, rfl, .inl rfl, fun t ht => by cases ht⟩
  refine Machine.run_history Inv ?_ hstart hrun hmono
  intro thread call thread' log out ih hstep hmono
  exact (ih (List.pairwise_append.mp hmono).1).step hstep hmono

/-! ## The edge of the window -/

theorem verifyToken_server {server server' : Server} {statsd statsd' : StatsdSecure}
    {buffer : List Byte} {clock : Int}
    (h : verifyToken server statsd buffer clock = some (0, server', statsd')) : server' = server := by
  obtain ⟨second, -, ⟨hrc, -⟩ | ⟨-, found, replays, -, -, hserver⟩⟩ := verifyToken_cases h
  · cases hrc
  · exact hserver rfl

theorem boot_parse (config : Server.Config) {size : Nat} (buffer : Buffer size) (header : Byte)
    (start len : Nat) : ∃ r, buffer.parse header (Server.boot config) start len = some r := by
  cases hparse : buffer.parse header (Server.boot config) start len with
  | some r => exact ⟨r, rfl⟩
  | none =>
    have hfst := buffer.parse_fst header (Server.boot config) start len
    rw [hparse] at hfst
    obtain ⟨r, -, htype⟩ := (Server.packetParse_good (Server.boot_good config) _ _ _).1.mp
      (Option.map_eq_none_iff.mp hfst.symm)
    cases htype

/-- A sampler that has just started accepts any authentic token in its window. -/
theorem first_accepted {settings : Settings} (hdrift : 1 ≤ settings.max_drift)
    (hlen : 1 < settings.replay_len) {statsd : StatsdSecure}
    (hnew : StatsdSecure.new settings = some statsd) {a : Arrival}
    (hmin : MIN_PACKET_SIZE ≤ a.bytes.length) (hauth : authentic hmac statsd a.bytes)
    (hin : InWindow statsd a.bytes a.clock) (config : Server.Config) (inflow : UInt64)
    (buffer : Buffer MAX_PACKET_SIZE) :
    ∃ thread, step hmac ⟨Server.boot config, inflow, statsd, buffer⟩ (.received a) =
        some (thread, [⟨a.bytes, a.clock, 0⟩]) ∧
      Verified statsd a.bytes a.clock 0 thread.statsd := by
  have hgood := new_good hdrift (by omega) hnew
  obtain ⟨rc, server, statsd', hverify, hv⟩ :=
    verifyToken_spec hgood (Server.boot config) a.bytes a.clock_nonneg a.clock_lt
  have hrc : rc = 0 := by
    refine hv.accepted.mpr ⟨hin, fun hrem => ?_⟩
    obtain ⟨replays, hbloom, rfl⟩ := Option.map_eq_some_iff.mp hnew
    have hpos := hgood.valid.hashes_pos
    exact Multibloom.new_empty hbloom _ _ (hrem.2 0 (by omega))
  subst hrc
  obtain rfl := verifyToken_server hverify
  obtain ⟨⟨server, buffer'⟩, hparse⟩ :=
    boot_parse config (buffer.fill a.toDatagram) 0 MIN_PACKET_SIZE a.bytes.length
  refine ⟨⟨server, inflow + 1, statsd', buffer'⟩, ?_, hv⟩
  simp only [step, if_neg (Nat.not_lt.mpr hmin), not_not.mpr hauth, if_false, hverify, hparse]
  rfl

/-- A token that is in its window in second `c` comes back in second `c'`, the last one of the
window. -/
def AtEdge (settings : Settings) (bytes : List Byte) (c c' : Int) : Prop :=
  timestamp bytes ≤ c ∧ c < c' ∧ c' = timestamp bytes + settings.max_drift

/-- In the last second of its window, the filter of a token is cleared before it is looked at. -/
theorem forgotten_at_edge {settings : Settings} {statsd : StatsdSecure}
    (hdrift : statsd.drift = settings.max_drift) (hpos : 1 ≤ statsd.drift) {bytes : List Byte}
    {clock : Int} (hedge : AtEdge settings bytes statsd.now clock) :
    ¬ Remembers statsd bytes clock := by
  obtain ⟨hts, hlt, hlast⟩ := hedge
  rintro ⟨hne | hne, -⟩
  · omega
  · apply hne
    rw [filterOf, slot, slot, show clock.toNat = timestamp bytes + statsd.drift.toNat by omega,
      Nat.add_mod_right]

/-- A token that was accepted in one second is rejected when it comes back in a later one, in every
run of the thread and from every state of it, exactly when it does not come back at the edge of its
window. -/
theorem replay_rejected_iff {settings : Settings} (hdrift : 1 ≤ settings.max_drift)
    (hlen : 1 < settings.replay_len) {statsd : StatsdSecure}
    (hnew : StatsdSecure.new settings = some statsd) (a : Arrival)
    (hmin : MIN_PACKET_SIZE ≤ a.bytes.length) (hauth : authentic hmac statsd a.bytes) {clock : Int}
    (hclock : a.clock ≤ clock) (hlt : clock < 2 ^ 63) :
    (∀ server inflow buffer calls thread log,
      Machine.run (step hmac) ⟨server, inflow, statsd, buffer⟩ calls = some (thread, log) →
      Monotone log → ⟨a.bytes, a.clock, 0⟩ ∈ log → thread.statsd.now ≤ clock →
      ∃ server' statsd',
        verifyToken thread.server thread.statsd a.bytes clock = some (-1, server', statsd')) ↔
      ¬ AtEdge settings a.bytes a.clock clock := by
  constructor
  · intro h hedge
    have hgood := new_good hdrift (by omega) hnew
    have hsettings : statsd.drift = settings.max_drift := by
      obtain ⟨replays, -, rfl⟩ := Option.map_eq_some_iff.mp hnew
      rfl
    obtain ⟨hts, hlater, hlast⟩ := hedge
    obtain ⟨thread, hstep, hv⟩ := first_accepted hdrift hlen hnew hmin hauth ⟨hts, by omega⟩
      Server.defaultConfig 0 (.blank _)
    have hrun : Machine.run (step hmac) ⟨Server.boot Server.defaultConfig, 0, statsd, .blank _⟩
        [.received a] = some (thread, [⟨a.bytes, a.clock, 0⟩]) := by
      simp only [Machine.run, hstep]
      rfl
    obtain ⟨server, statsd', hrejected⟩ := h _ _ _ _ thread _ hrun (List.pairwise_singleton ..)
      (List.mem_singleton_self _) (by rw [hv.now]; exact hclock)
    obtain ⟨rc, server', statsd'', hverify, hv'⟩ := verifyToken_spec hv.good thread.server a.bytes
      (a.clock_nonneg.trans hclock) hlt
    rw [hrejected] at hverify
    cases hverify
    have hdrift' : thread.statsd.drift = settings.max_drift := hv.drift.trans hsettings
    have haccepted := hv'.accepted.mpr ⟨⟨hts.trans hclock, by rw [hdrift']; exact hlast.le⟩,
      forgotten_at_edge hdrift' hv.good.drift_pos (by rw [hv.now]; exact ⟨hts, hlater, hlast⟩)⟩
    exact absurd haccepted (by decide)
  · intro hedge server inflow buffer calls thread log hrun hmono hmem hnow
    have hhist := run_history hdrift hlen hrun hnew hmono
    have hguard := hhist.guarded _ hmem rfl
    obtain ⟨rc, server', statsd', hverify, hv⟩ := verifyToken_spec hhist.good thread.server a.bytes
      (a.clock_nonneg.trans hclock) hlt
    obtain rfl := hguard.rejects hhist.good hv hnow fun h =>
      hedge ⟨hguard.sent, h.1, by rw [← hhist.drift]; exact h.2⟩
    exact ⟨server', statsd', hverify⟩

/-- The key and the drift of `config.default.json.example`, with smaller filters. -/
def exampleSettings : Settings where
  hmac_key := str "750c783e6ab0b503eaa86e310a5db738".toList
  max_drift := 3
  replay_len := 100
  max_drift_int := by decide
  replay_len_int := by decide

/-- What follows the digest: the timestamp 1000, a nonce of zeros, and `a:1|c`. -/
def examplePayload : List Byte := leBytes 8 1000 ++ ([0, 0, 0, 0] ++ str "a:1|c".toList)

/-- The HMAC-SHA256 of `examplePayload` under the key of `exampleSettings`. -/
def exampleDigest : Digest where
  bytes := [150, 251, 251, 222, 167, 39, 95, 226, 95, 208, 157, 70, 17, 156, 185, 151,
    142, 19, 112, 145, 161, 222, 158, 232, 61, 77, 57, 249, 54, 70, 56, 110]
  length_eq := rfl

def exampleDatagram : Datagram MAX_PACKET_SIZE :=
  ⟨exampleDigest.bytes ++ examplePayload, by decide⟩

def exampleArrival (late : Fin 4) : Arrival where
  toDatagram := exampleDatagram
  clock := 1000 + late.val
  clock_nonneg := by omega
  clock_lt := by omega

def exampleStatsd : StatsdSecure := (StatsdSecure.new exampleSettings).get rfl

def exampleRun (calls : List (Call Arrival)) : Option (Thread × List Verdict) :=
  Machine.run (step fun _ _ => exampleDigest) ⟨Server.started, 0, exampleStatsd, .blank _⟩ calls

/-- In the last second of its window the datagram is accepted again. -/
theorem replay_accepted :
    StatsdSecure.new exampleSettings = some exampleStatsd ∧
      (exampleRun [.received (exampleArrival 0), .received (exampleArrival 3)]).map Prod.snd =
        some [⟨exampleDatagram.bytes, 1000, 0⟩, ⟨exampleDatagram.bytes, 1003, 0⟩] :=
  ⟨(Option.some_get _).symm, by decide +kernel⟩

theorem replay_rejected_iff_example :
    (exampleRun [.received (exampleArrival 0)]).bind (fun r =>
      (verifyToken r.1.server r.1.statsd exampleDatagram.bytes 1002).map Prod.fst) = some (-1) := by
  have hfirst : (exampleRun [.received (exampleArrival 0)]).map (fun r => (r.1.statsd.now, r.2)) =
      some (1000, [⟨exampleDatagram.bytes, 1000, 0⟩]) := by decide +kernel
  obtain ⟨⟨thread, log⟩, hrun, heq⟩ := Option.map_eq_some_iff.mp hfirst
  obtain ⟨hnow, rfl⟩ := Prod.mk.inj heq
  have hnew : StatsdSecure.new exampleSettings = some exampleStatsd := (Option.some_get _).symm
  have hauth : authentic (fun _ _ => exampleDigest) exampleStatsd exampleDatagram.bytes := by decide
  have hclock : (exampleArrival 0).clock ≤ 1002 := by decide
  have hedge : ¬ AtEdge exampleSettings exampleDatagram.bytes 1000 1002 :=
    fun hedge => absurd hedge.2.2 (by decide +kernel)
  have hreject := (replay_rejected_iff (by decide) (by decide) hnew (exampleArrival 0) (by decide) hauth
    hclock (by decide)).mpr hedge
  obtain ⟨server, statsd, hverify⟩ := hreject _ _ _ _ thread _ hrun (List.pairwise_singleton ..)
    (List.mem_singleton_self _) (by dsimp only at hnow; rw [hnow]; decide)
  rw [hrun]
  show (verifyToken thread.server thread.statsd (exampleArrival 0).bytes 1002).map Prod.fst = _
  rw [hverify]
  rfl

end Secure
end Brubeck
