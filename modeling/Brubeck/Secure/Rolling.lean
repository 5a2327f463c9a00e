import Brubeck.Secure.Replay

/-!
# Brubeck.Secure.Rolling

What is left in the replay filters, over whole runs of `verify_token`. A filter is cleared by the
first token of a second that maps to it, and only then; a token is stored under its own, older
second.

* `watch`: one call of `verify_token`, with the token that turned on each bit that is on.
* `Owned.step`: a bit is on because of a token that came after its filter was last cleared.
* `rolling_forgets`: when the filter of every token that has left its window was cleared before it is
  looked at again, a lookup finds only bits of tokens in their window.
* `rolling_remembers`: nothing makes sure that it was cleared.
-/

namespace Brubeck
namespace Secure

open Lib Statsd

/-- Whether a bit is on. -/
def isSet (bloom : Multibloom) (f y : Nat) : Bool :=
  (bloom.filters[f]?.map fun filter => getBit filter y).getD false

theorem isSet_iff {bloom : Multibloom} {f y : Nat} : isSet bloom f y = true ↔ bloom.bitAt f y := by
  rw [isSet, Multibloom.bitAt]
  cases bloom.filters[f]? <;> simp

instance (statsd : StatsdSecure) (buffer : List Byte) (clock : Int) :
    Decidable (InWindow statsd buffer clock) :=
  inferInstanceAs (Decidable (_ ∧ _))

/-- A sampler, and for each bit that is on the token that turned it on. -/
structure Watched where
  server : Server
  statsd : StatsdSecure
  owner : Nat → Nat → Option Arrival

/-- What `multibloom_check` finds in the filter of a token: which bits are on, and whose they are. -/
structure Lookup where
  bits : Nat → Bool
  owner : Nat → Option Arrival

structure Round where
  token : Arrival
  lookup : Option Lookup

/-- `verify_token`. The filters are looked at after the second was noted, and for tokens in their
window only. -/
def watch (w : Watched) (a : Arrival) : Option (Watched × List Round) :=
  match newSecond w.statsd a.clock, verifyToken w.server w.statsd a.bytes a.clock with
  | some second, some (_, server, statsd) =>
    let owner := fun f y =>
      if isSet statsd.replays f y then
        if isSet second.replays f y then w.owner f y else some a
      else none
    let f := filterOf w.statsd a.bytes
    let lookup :=
      if InWindow w.statsd a.bytes a.clock then some ⟨isSet second.replays f, w.owner f⟩ else none
    some (⟨server, statsd, owner⟩, [⟨a, lookup⟩])
  | _, _ => none

/-- Every bit that is on belongs to a token that is in its window in second `clock`. -/
def Lookup.Fresh (drift clock : Int) (lookup : Lookup) : Prop :=
  ∀ y, lookup.bits y = true → ∃ t, lookup.owner y = some t ∧
    timestamp t.bytes ≤ clock ∧ clock ≤ timestamp t.bytes + drift

/-- In every round the filter is fresh when it is looked at. -/
def AllFresh (drift : Int) (log : List Round) : Prop :=
  ∀ round ∈ log, ∀ lookup, round.lookup = some lookup → lookup.Fresh drift round.token.clock

/-! ## The condition -/

def Ordered (tokens : List Arrival) : Prop := tokens.Pairwise fun t t' => t.clock ≤ t'.clock

def Inside (drift : Int) (t : Arrival) : Prop :=
  timestamp t.bytes ≤ t.clock ∧ t.clock ≤ timestamp t.bytes + drift

/-- A token in its window finds every token of its filter that has left its window, and was in it
when it came, followed by one in a later second of that filter. -/
def Refreshed (drift : Int) (tokens : List Arrival) : Prop :=
  ∀ older t between a rest, tokens = older ++ t :: (between ++ a :: rest) →
    Inside drift t → Inside drift a →
    timestamp t.bytes % drift.toNat = timestamp a.bytes % drift.toNat →
    timestamp t.bytes + drift < a.clock →
    ∃ s ∈ between ++ [a], t.clock < s.clock ∧
      s.clock.toNat % drift.toNat = timestamp t.bytes % drift.toNat

/-! ## One token -/

theorem watch_spec {w : Watched} (h : Good w.statsd) (a : Arrival) :
    ∃ w' lookup, watch w a = some (w', [⟨a, lookup⟩]) ∧ Good w'.statsd ∧
      w'.statsd.now = a.clock ∧ w'.statsd.drift = w.statsd.drift ∧
      (∀ f y, w'.statsd.replays.bitAt f y →
        (Kept w.statsd a.clock f ∧ w.statsd.replays.bitAt f y ∧ w'.owner f y = w.owner f y) ∨
        (InWindow w.statsd a.bytes a.clock ∧ f = filterOf w.statsd a.bytes ∧ w'.owner f y = some a)) ∧
      ∀ found, lookup = some found →
        InWindow w.statsd a.bytes a.clock ∧
        (∀ y, found.bits y = true →
          Kept w.statsd a.clock (filterOf w.statsd a.bytes) ∧
            w.statsd.replays.bitAt (filterOf w.statsd a.bytes) y) ∧
        found.owner = w.owner (filterOf w.statsd a.bytes) := by
  obtain ⟨second, hsecond, -, -, -, -, -, hbits⟩ := newSecond_spec h a.clock_nonneg
  obtain ⟨rc, server, statsd, hverify, hv⟩ :=
    verifyToken_spec h w.server a.bytes a.clock_nonneg a.clock_lt
  refine ⟨_, _, by simp only [watch, hsecond, hverify]; rfl, hv.good, hv.now, hv.drift, ?_, ?_⟩
  · intro f y hset
    dsimp only
    rw [if_pos (isSet_iff.mpr hset)]
    by_cases hold : isSet second.replays f y = true
    · rw [if_pos hold]
      obtain ⟨hkept, hbit⟩ := (hbits f y).mp (isSet_iff.mp hold)
      exact .inl ⟨hkept, hbit, rfl⟩
    · rw [if_neg hold]
      have hnew := ((hv.bits f y).mp hset).resolve_left fun h =>
        hold (isSet_iff.mpr ((hbits f y).mpr h))
      exact .inr ⟨hnew.1, hnew.2.1, rfl⟩
  · intro found hfound
    by_cases hin : InWindow w.statsd a.bytes a.clock
    · rw [if_pos hin] at hfound
      cases hfound
      exact ⟨hin, fun y hy => (hbits _ y).mp (isSet_iff.mp hy), rfl⟩
    · rw [if_neg hin] at hfound
      cases hfound

/-! ## Whole runs -/

/-- A bit that is on is the bit of a token that came in its window, and no later second has cleared
the filter since. -/
structure Owned (drift : Int) (w : Watched) (tokens : List Arrival) : Prop where
  good : Good w.statsd
  drift_eq : w.statsd.drift = drift
  last : w.statsd.now = 0 ∨ ∃ t ∈ tokens, t.clock = w.statsd.now
  owned : ∀ f y, w.statsd.replays.bitAt f y → ∃ older t later, tokens = older ++ t :: later ∧
    w.owner f y = some t ∧ Inside drift t ∧ timestamp t.bytes % drift.toNat = f ∧
    ∀ s ∈ later, t.clock < s.clock → s.clock.toNat % drift.toNat ≠ f

/-- A filter that is kept was not cleared in the second of the token either. -/
theorem Owned.not_cleared {drift : Int} {w : Watched} {older later : List Arrival} {t : Arrival}
    (h : Owned drift w (older ++ t :: later)) (hordered : Ordered (older ++ t :: later)) {f : Nat}
    (hlater : ∀ s ∈ later, t.clock < s.clock → s.clock.toNat % drift.toNat ≠ f) {a : Arrival}
    (hkept : Kept w.statsd a.clock f) (hlt : t.clock < a.clock) :
    a.clock.toNat % drift.toNat ≠ f := by
  rcases hkept with hnow | hslot
  · -- the second is not new: some token after `t` was the first of it
    rw [hnow] at hlt ⊢
    rcases h.last with hzero | ⟨s, hs, hclock⟩
    · have := t.clock_nonneg
      omega
    · rw [← hclock] at hlt ⊢
      rcases List.mem_append.mp hs with hs | hs
      · have := (List.pairwise_append.mp hordered).2.2 s hs t List.mem_cons_self
        omega
      · rcases List.mem_cons.mp hs with rfl | hs
        · omega
        · exact hlater s hs hlt
  · rw [slot, h.drift_eq] at hslot
    exact Ne.symm hslot

theorem Owned.step {drift : Int} {w w' : Watched} {tokens : List Arrival} {a : Arrival}
    {out : List Round} (h : Owned drift w tokens) (hordered : Ordered tokens)
    (hstep : watch w a = some (w', out)) : Owned drift w' (tokens ++ [a]) := by
  obtain ⟨w₁, lookup, hwatch, hgood, hnow, hdrift, hbits, -⟩ := watch_spec h.good a
  rw [hstep] at hwatch
  cases hwatch
  refine ⟨hgood, hdrift.trans h.drift_eq,
    .inr ⟨a, List.mem_append_right _ (List.mem_singleton_self a), hnow.symm⟩, fun f y hset => ?_⟩
  rcases hbits f y hset with ⟨hkept, hbit, howner⟩ | ⟨hin, rfl, howner⟩
  · obtain ⟨older, t, later, rfl, hown, hinside, hf, hlater⟩ := h.owned f y hbit
    refine ⟨older, t, later ++ [a], by simp, howner.trans hown, hinside, hf, fun s hs hlt => ?_⟩
    rcases List.mem_append.mp hs with hs | hs
    · exact hlater s hs hlt
    · obtain rfl := List.mem_singleton.mp hs
      exact h.not_cleared hordered hlater hkept hlt
  · refine ⟨tokens, a, [], rfl, howner, ?_, ?_, fun s hs => by cases hs⟩
    · rw [InWindow, h.drift_eq] at hin
      exact hin
    · rw [filterOf, slot, h.drift_eq]

/-- What a token in its window finds, when its filter was refreshed. -/
theorem Owned.fresh {drift : Int} {w w' : Watched} {tokens : List Arrival} {a : Arrival}
    {out : List Round} (h : Owned drift w tokens) (hordered : Ordered (tokens ++ [a]))
    (hrefreshed : Refreshed drift (tokens ++ [a])) (hstep : watch w a = some (w', out)) :
    AllFresh drift out := by
  obtain ⟨w₁, lookup, hwatch, -, -, -, -, hlookup⟩ := watch_spec h.good a
  rw [hstep] at hwatch
  cases hwatch
  intro round hround found hfound y hy
  obtain rfl := List.mem_singleton.mp hround
  obtain ⟨hin, hbits, howner⟩ := hlookup found hfound
  obtain ⟨hkept, hbit⟩ := hbits y hy
  obtain ⟨older, t, later, rfl, hown, hinside, hf, hlater⟩ := h.owned _ y hbit
  obtain ⟨hbefore, -, hlast⟩ := List.pairwise_append.mp hordered
  have hclock : t.clock ≤ a.clock := hlast t (by simp) a (List.mem_singleton_self a)
  refine ⟨t, by rw [howner]; exact hown, hinside.1.trans hclock, ?_⟩
  by_contra hleft
  rw [InWindow, h.drift_eq] at hin
  obtain ⟨s, hs, hlt, hslot⟩ := hrefreshed older t later a [] (by simp) hinside hin
    (by rw [hf, filterOf, slot, h.drift_eq]) (Int.not_le.mp hleft)
  rw [hf] at hslot
  rcases List.mem_append.mp hs with hs | hs
  · exact hlater s hs hlt hslot
  · obtain rfl := List.mem_singleton.mp hs
    exact h.not_cleared hbefore hlater hkept hlt hslot

theorem Refreshed.of_append {drift : Int} {tokens more : List Arrival}
    (h : Refreshed drift (tokens ++ more)) : Refreshed drift tokens := by
  intro older t between a rest heq
  exact h older t between a (rest ++ more) (by rw [heq]; simp)

theorem run_tokens {w w' : Watched} {tokens : List Arrival} {log : List Round}
    (h : Machine.run watch w tokens = some (w', log)) : log.map Round.token = tokens := by
  induction tokens generalizing w log with
  | nil => cases h; rfl
  | cons a tokens ih =>
    obtain ⟨w₁, out₁, out₂, hone, hrun, rfl⟩ := Machine.run_cons h
    have hout : out₁.map Round.token = [a] := by
      rw [watch] at hone
      split at hone
      · cases hone; rfl
      · cases hone
    rw [List.map_append, hout, ih hrun]
    rfl

/-- **The filters roll**, as long as they are turned: in every run of `verify_token` whose clock does
not go back and in which every token in its window finds its filter refreshed, all bits a lookup finds
belong to tokens that are still in their window. -/
theorem rolling_forgets {settings : Settings} (hdrift : 1 ≤ settings.max_drift)
    (hlen : 0 < settings.replay_len) {statsd : StatsdSecure}
    (hnew : StatsdSecure.new settings = some statsd) (server : Server) (tokens : List Arrival)
    (hordered : Ordered tokens) (hrefreshed : Refreshed settings.max_drift tokens) :
    ∃ w log, Machine.run watch ⟨server, statsd, fun _ _ => none⟩ tokens = some (w, log) ∧
      log.map Round.token = tokens ∧ AllFresh settings.max_drift log := by
  have hgood := new_good hdrift hlen hnew
  obtain ⟨w, log, hrun⟩ := Machine.run_total (fun w : Watched => Good w.statsd)
    (fun w a h => by
      obtain ⟨w', lookup, hwatch, hgood', -⟩ := watch_spec h a
      exact ⟨w', _, hwatch, hgood'⟩)
    (s := ⟨server, statsd, fun _ _ => none⟩) hgood tokens
  let Inv : Watched → List Round → Prop := fun w log =>
    Ordered (log.map Round.token) → Refreshed settings.max_drift (log.map Round.token) →
      Owned settings.max_drift w (log.map Round.token) ∧ AllFresh settings.max_drift log
  have hstart : Inv ⟨server, statsd, fun _ _ => none⟩ [] := by
    intro _ _
    refine ⟨⟨hgood, ?_, .inl ?_, fun f y hbit => ?_⟩, fun round hround => by cases hround⟩
    all_goals obtain ⟨replays, hbloom, rfl⟩ := Option.map_eq_some_iff.mp hnew
    · rfl
    · rfl
    · exact absurd hbit (Multibloom.new_empty hbloom f y)
  have hstep : ∀ {w : Watched} {a : Arrival} {w' log out}, Inv w log →
      watch w a = some (w', out) → Inv w' (log ++ out) := by
    intro w a w' log out ih hwatch hord href
    have hout : out.map Round.token = [a] := by
      have hone : Machine.run watch w [a] = some (w', out ++ []) := by
        simp only [Machine.run, hwatch, Option.map_some]
      simpa using run_tokens hone
    rw [List.map_append, hout] at hord href ⊢
    obtain ⟨howned, hfresh⟩ := ih (List.pairwise_append.mp hord).1 href.of_append
    refine ⟨howned.step (List.pairwise_append.mp hord).1 hwatch, fun round hround => ?_⟩
    rcases List.mem_append.mp hround with hround | hround
    · exact hfresh round hround
    · exact howned.fresh hord href hwatch round hround
  have htokens := run_tokens hrun
  have hall := Machine.run_history Inv hstep hstart hrun
  rw [← htokens] at hordered hrefreshed
  exact ⟨w, log, hrun, htokens, (hall hordered hrefreshed).2⟩

/-! ## Seconds without a token -/

/-- A drift of three seconds, and an empty key. -/
def threeSeconds : Settings := { exampleSettings with hmac_key := [] }

def threeFilters : StatsdSecure := (StatsdSecure.new threeSeconds).get rfl

/-- A token that was sent in second `1000 + sent` and comes in second `1000 + late`. -/
def tokenAt (digest : Byte) (sent late : Fin 8) : Arrival where
  bytes := List.replicate 32 digest ++ (leBytes 8 (1000 + sent) ++ [0, 0, 0, 0])
  fits := by simp only [List.length_append, List.length_replicate, leBytes_length]; decide
  clock := 1000 + late.val
  clock_nonneg := by omega
  clock_lt := by omega

/-- The second token clears the filter of the first in the last second of its window, so the third
finds only the second. -/
theorem rolling_forgets_three :
    ∃ w log, Machine.run watch ⟨Server.started, threeFilters, fun _ _ => none⟩
        [tokenAt 1 0 0, tokenAt 2 3 3, tokenAt 3 3 4] = some (w, log) ∧
      AllFresh 3 log := by
  have hordered : Ordered [tokenAt 1 0 0, tokenAt 2 3 3, tokenAt 3 3 4] := by
    rw [Ordered]
    decide
  have hrefreshed : Refreshed threeSeconds.max_drift
      [tokenAt 1 0 0, tokenAt 2 3 3, tokenAt 3 3 4] := by
    intro older t between a rest heq _ _ _ hleft
    rcases older with _ | ⟨x, _ | ⟨y, older⟩⟩
    · obtain ⟨rfl, htail⟩ := List.cons.inj heq
      rcases between with _ | ⟨b, between⟩
      · obtain ⟨rfl, -⟩ := List.cons.inj htail
        exact absurd hleft (by decide)
      · obtain ⟨rfl, -⟩ := List.cons.inj htail
        exact ⟨_, List.mem_cons_self, by decide, by decide⟩
    · obtain ⟨rfl, htail⟩ := List.cons.inj (List.cons.inj heq).2
      rcases between with _ | ⟨b, between⟩
      · obtain ⟨rfl, -⟩ := List.cons.inj htail
        exact absurd hleft (by decide)
      · simp at htail
    · have hlength := congrArg List.length heq
      simp at hlength
      omega
  obtain ⟨w, log, hrun, -, hfresh⟩ := rolling_forgets (by decide) (by decide)
    (Option.some_get _).symm Server.started _ hordered hrefreshed
  exact ⟨w, log, hrun, hfresh⟩

/-- A token of second 1000, and one of second 1003 that comes in second 1005: the filter they share
was not cleared, since no token came in second 1003. -/
theorem rolling_remembers :
    ¬ ∀ (settings : Settings) (statsd : StatsdSecure) (server : Server) (tokens : List Arrival)
        (w : Watched) (log : List Round), 1 ≤ settings.max_drift → 0 < settings.replay_len →
      StatsdSecure.new settings = some statsd → Ordered tokens →
      Machine.run watch ⟨server, statsd, fun _ _ => none⟩ tokens = some (w, log) →
      AllFresh settings.max_drift log := by
  intro h
  have hsome : (Machine.run watch ⟨Server.started, threeFilters, fun _ _ => none⟩
      [tokenAt 1 0 0, tokenAt 2 3 5]).map (fun r => r.2.map fun round => (round.token.clock,
        round.lookup.map fun l => (l.bits 1369, (l.owner 1369).map fun t => timestamp t.bytes))) =
      some [(1000, some (false, none)), (1005, some (true, some 1000))] := by decide +kernel
  obtain ⟨⟨w, log⟩, hrun, hlog⟩ := Option.map_eq_some_iff.mp hsome
  have hordered : Ordered [tokenAt 1 0 0, tokenAt 2 3 5] := by
    rw [Ordered]
    decide
  have hfresh := h threeSeconds threeFilters Server.started _ w log (by decide) (by decide)
    (Option.some_get _).symm hordered hrun
  have hlast : (1005, some (true, some 1000)) ∈ log.map fun round => (round.token.clock,
      round.lookup.map fun l => (l.bits 1369, (l.owner 1369).map fun t => timestamp t.bytes)) := by
    rw [show log.map _ = _ from hlog]
    simp
  obtain ⟨round, hround, heq⟩ := List.mem_map.mp hlast
  obtain ⟨hclock, hlookup⟩ := Prod.mk.inj heq
  obtain ⟨found, hfound, hbit⟩ := Option.map_eq_some_iff.mp hlookup
  obtain ⟨hset, howner⟩ := Prod.mk.inj hbit
  obtain ⟨t, ht, -, hwindow⟩ := hfresh round hround found hfound 1369 hset
  rw [ht, Option.map_some, Option.some.injEq] at howner
  rw [howner, hclock] at hwindow
  exact absurd hwindow (by decide)

end Secure
end Brubeck
