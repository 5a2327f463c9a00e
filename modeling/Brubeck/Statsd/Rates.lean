import Brubeck.Order
import Brubeck.Statsd.Packet
import Mathlib.Algebra.Order.BigOperators.Group.List

/-!
# Brubeck.Statsd.Rates

How many events a histogram reports when its lines carry sample rates. A line with the rate `r`
stands for `1 / r` events; `brubeck_histo_push` adds that to a `uint32_t`.

* `Accepts`: the lines the parser accepts, with the rate each one spells (`accepts_of_outcome`).
* `converts_iff`, `sample_count`: when the conversions are defined, and what the count is then: each
  line adds its events without their fraction.
* `count_faithful_iff`: when the reported count is less than one off.
-/

namespace Brubeck

open Lib

/-! ## The count -/

namespace Histo

/-- Every conversion to the `uint32_t` count is in its range. -/
def Converts (histo : Histo) : List (Value × Value) → Prop
  | [] => True
  | (value, sample_freq) :: entries =>
    (0 ≤ histo.count + sample_freq ∧ histo.count + sample_freq < 2 ^ 32) ∧
      Converts (histo.push value sample_freq) entries

/-- The events of each entry, without their fractions. -/
def whole (entries : List (Value × Value)) : Int := (entries.map fun entry => ⌊entry.2⌋).sum

theorem whole_nonneg {entries : List (Value × Value)} (h : ∀ entry ∈ entries, 0 ≤ entry.2) :
    0 ≤ whole entries := by
  apply List.sum_nonneg
  intro n hn
  obtain ⟨entry, hentry, rfl⟩ := List.mem_map.mp hn
  exact Int.floor_nonneg.mpr (h entry hentry)

theorem push_whole (histo : Histo) (value : Value) {sample_freq : Value} (h : 0 ≤ sample_freq)
    (hlt : histo.count + ⌊sample_freq⌋ < 2 ^ 32) :
    ((histo.push value sample_freq).count : Int) = histo.count + ⌊sample_freq⌋ := by
  have hfloor : 0 ≤ ⌊sample_freq⌋ := Int.floor_nonneg.mpr h
  have hcount := histo.push_count value h
  rw [show Rat.floor sample_freq = ⌊sample_freq⌋ from rfl] at hcount
  omega

/-- A sum of a whole count and some events is in range when it is without the fraction. -/
theorem in_range_iff (count : Nat) {sample_freq : Value} (h : 0 ≤ sample_freq) :
    (0 ≤ count + sample_freq ∧ count + sample_freq < 2 ^ 32) ↔ count + ⌊sample_freq⌋ < 2 ^ 32 := by
  have hnonneg : 0 ≤ count + sample_freq := add_nonneg (Nat.cast_nonneg count) h
  have hfloor : ⌊(count : Value) + sample_freq⌋ = count + ⌊sample_freq⌋ :=
    Int.floor_natCast_add count sample_freq
  rw [and_iff_right hnonneg, ← hfloor, Int.floor_lt]
  norm_num

/-- The conversions of a window are all in range exactly when all of its events, without the
fractions, fit the count; they are then what is counted. -/
theorem converts_iff {entries : List (Value × Value)} (h : ∀ entry ∈ entries, 0 ≤ entry.2)
    (histo : Histo) :
    (histo.count < 2 ^ 32 → (histo.Converts entries ↔ histo.count + whole entries < 2 ^ 32)) ∧
      (histo.count + whole entries < 2 ^ 32 →
        ((histo.pushes entries).count : Int) = histo.count + whole entries) := by
  induction entries generalizing histo with
  | nil => simp [Converts, whole, pushes]
  | cons entry entries ih =>
    obtain ⟨value, sample_freq⟩ := entry
    have hfreq : 0 ≤ sample_freq := h _ List.mem_cons_self
    have hrest : ∀ entry ∈ entries, 0 ≤ entry.2 := fun e he => h e (List.mem_cons_of_mem _ he)
    have hnonneg := whole_nonneg hrest
    have hwhole : whole ((value, sample_freq) :: entries) = ⌊sample_freq⌋ + whole entries := by
      simp [whole]
    have hpushes : histo.pushes ((value, sample_freq) :: entries) =
        (histo.push value sample_freq).pushes entries := rfl
    obtain ⟨hconv, hcount⟩ := ih hrest (histo.push value sample_freq)
    rw [hwhole, hpushes, Converts, in_range_iff histo.count hfreq]
    constructor
    · intro hlt
      by_cases hone : histo.count + ⌊sample_freq⌋ < 2 ^ 32
      · have hpush := histo.push_whole value hfreq hone
        rw [hconv (by omega), hpush, add_assoc]
        exact and_iff_right hone
      · simp only [hone, false_and, false_iff]
        omega
    · intro hlt
      have hpush := histo.push_whole value hfreq (by omega)
      rw [hcount (by rw [hpush]; omega), hpush, add_assoc]

theorem push_ne_nil (histo : Histo) (value sample_freq : Value) :
    (histo.push value sample_freq).values ≠ [] := by
  unfold push
  dsimp only
  split
  · split
    · rename_i hcap
      intro hnil
      rw [hnil] at hcap
      cases hcap
    · simp
  · simp

theorem pushes_ne_nil (entries : List (Value × Value)) :
    ∀ {histo : Histo}, histo.values ≠ [] → (histo.pushes entries).values ≠ [] := by
  induction entries with
  | nil => intro histo h; exact h
  | cons entry entries ih => intro histo _; exact ih (histo.push_ne_nil entry.1 entry.2)

/-- What a window that started empty reports as its count. -/
theorem sample_count {histo : Histo} (hvalues : histo.values = []) (hcount : histo.count = 0)
    (entries : List (Value × Value)) :
    (histo.pushes entries).sample.1.count = (histo.pushes entries).count := by
  cases entries with
  | nil =>
    show histo.sample.1.count = histo.count
    simp [sample, hvalues, hcount]
  | cons entry entries =>
    have hne : (histo.pushes (entry :: entries)).values ≠ [] :=
      pushes_ne_nil entries (histo.push_ne_nil entry.1 entry.2)
    simp [sample, hne, sort]

end Histo

namespace Statsd

/-! ## Lines and their rates -/

/-- A line without a rate counts once. -/
def sampleRate : Option Numeral → Value
  | none => 1
  | some r => r.value

/-- The parser accepts a line that spells this sample rate, and makes `r` of it. -/
def Accepts (r : Reading) (rate : Value) : Prop :=
  ∃ (msg : Msg) (mem : List Byte) (buffer stop : Nat) (key : List Byte) (value : Numeral)
    (letter : Letter) (numeral : Option Numeral) (newline : Bool) (rest : List Byte),
    (mem.set stop 0).drop buffer =
      key ++ ch ':' :: (bodyText value letter numeral newline ++ rest) ∧
    (∀ b ∈ key, KeyByte b) ∧ cur rest = 0 ∧ (∀ n, numeral = some n → 0 < n.value ∧ n.value ≤ 1) ∧
    rate = sampleRate numeral ∧ (msgParse msg mem buffer stop).outcome = some r

/-- Every accepted line spells some rate. -/
theorem accepts_of_outcome {msg : Msg} {mem : List Byte} {buffer stop : Nat} {r : Reading}
    (h : (msgParse msg mem buffer stop).outcome = some r) : ∃ rate, Accepts r rate := by
  have hrc : (msgParse msg mem buffer stop).rc = 0 := by
    refine (msgParse_rc msg mem buffer stop).resolve_right fun hneg => ?_
    rw [Parsed.outcome, hneg] at h
    cases h
  cases hs : scanKey ((mem.set stop 0).drop buffer) with
  | none =>
    simp only [msgParse, hs] at hrc
    exact absurd hrc (by decide)
  | some n =>
    obtain ⟨k, body, hdrop, -, hk⟩ := scanKey_some hs
    obtain ⟨pre, -, hparse⟩ := msgParse_at msg hdrop hk
    rw [hparse] at hrc
    dsimp only at hrc
    split at hrc
    · exact absurd hrc (by simp)
    · dsimp only at hrc
      obtain ⟨value, letter, numeral, newline, rest, hrange, rfl, hrest⟩ := parseBody_sound hrc
      exact ⟨_, msg, mem, buffer, stop, k, value, letter, numeral, newline, rest, hdrop, hk, hrest,
        hrange, rfl, h⟩

theorem Accepts.freq {r : Reading} {rate : Value} (h : Accepts r rate) :
    r.sample_freq = 1 / rate ∧ 0 < rate ∧ rate ≤ 1 := by
  obtain ⟨msg, mem, buffer, stop, k, value, letter, numeral, newline, rest, hdrop, hk, hrest, hrange,
    rfl, hout⟩ := h
  refine ⟨?_, ?_⟩
  · obtain ⟨pre, -, hparse⟩ := msgParse_at msg hdrop hk
    rw [hparse] at hout
    dsimp only at hout
    split at hout
    · cases hout
    · rw [parseBody_text _ value letter hrange newline hrest] at hout
      cases hout
      cases numeral with
      | none => simp [Msg.reading, rateFreq, sampleRate]
      | some n => rfl
  · cases numeral with
    | none => simp [sampleRate]
    | some n => exact hrange n rfl

/-- A well-formed line is accepted with its rate. -/
theorem accepts_line (l : Line) (hlen : l.key.length < 2 ^ 16) :
    Accepts l.reading (sampleRate l.rate) := by
  have hset : (l.text ++ [0]).set l.text.length 0 = [] ++ (l.text ++ 0 :: []) := by simp
  have hparse := @msgParse_line l .blank _ _ _ _ hset hlen
  refine ⟨.blank, l.text ++ [0], 0, l.text.length, l.key, l.value, l.letter, l.rate, l.newline, [0], ?_,
    l.key_bytes, rfl, l.rate_range, rfl, ?_⟩
  · rw [hset]
    simp [Line.text]
  · rw [List.length_nil] at hparse
    rw [hparse]
    simp [Parsed.outcome, Msg.reading, Line.msg, Line.reading]

/-! ## Windows -/

theorem sum_fract (vs : List Value) :
    (vs.map Int.fract).sum = vs.sum - ((vs.map Int.floor).sum : Int) := by
  induction vs with
  | nil => simp
  | cons v vs ih =>
    simp only [List.map_cons, List.sum_cons, ih, Int.cast_add, Int.fract]
    ring

/-- How many events each line stands for. -/
def events (lines : List (Reading × Value)) : List Value := lines.map fun line => 1 / line.2

/-- The entries that the lines push. -/
def entries (lines : List (Reading × Value)) : List (Value × Value) :=
  lines.map fun line => (line.1.value, line.1.sample_freq)

theorem entries_freq {lines : List (Reading × Value)}
    (haccepts : ∀ line ∈ lines, Accepts line.1 line.2) :
    (entries lines).map Prod.snd = events lines := by
  rw [entries, events, List.map_map]
  exact List.map_congr_left fun line hline => (haccepts line hline).freq.1

/-- A window of `h` or `ms` lines, from an empty histogram on. Its count is less than one off, and no
conversion is out of range, exactly when the fractions of the events that its lines stand for add up
to less than one, and the events without their fractions to less than `2 ^ 32`. -/
theorem count_faithful_iff {as : As} (hvalues : as.histogram.values = [])
    (hcount : as.histogram.count = 0) {lines : List (Reading × Value)}
    (haccepts : ∀ line ∈ lines, Accepts line.1 line.2)
    (htype : ∀ line ∈ lines, line.1.type = .histo ∨ line.1.type = .timer) :
    (|(applies (lines.map Prod.fst) as).histogram.sample.1.count - (events lines).sum| < 1 ∧
        as.histogram.Converts (entries lines)) ↔
      ((events lines).map Int.fract).sum < 1 ∧ ((events lines).map Int.floor).sum < 2 ^ 32 := by
  have hhisto : (applies (lines.map Prod.fst) as).histogram = as.histogram.pushes (entries lines) := by
    rw [applies_histo, List.map_map]
    · rfl
    · intro r hr
      obtain ⟨line, hline, rfl⟩ := List.mem_map.mp hr
      exact htype line hline
  have hfreq := entries_freq haccepts
  have hnonneg : ∀ entry ∈ entries lines, 0 ≤ entry.2 := by
    intro entry hentry
    have hmem := List.mem_map_of_mem (f := Prod.snd) hentry
    rw [hfreq] at hmem
    obtain ⟨line, hline, heq⟩ := List.mem_map.mp hmem
    rw [← heq]
    exact one_div_nonneg.mpr (haccepts line hline).freq.2.1.le
  have hwhole : Histo.whole (entries lines) = ((events lines).map Int.floor).sum := by
    rw [← hfreq, List.map_map]
    rfl
  obtain ⟨hconv, hpushed⟩ := Histo.converts_iff hnonneg as.histogram
  rw [hcount, hwhole, Nat.cast_zero, zero_add] at hconv hpushed
  rw [hhisto, Histo.sample_count hvalues hcount, hconv (by norm_num)]
  -- what is missing from the count are the fractions
  refine and_congr_left fun hrange => ?_
  have hcast : ((as.histogram.pushes (entries lines)).count : Value) =
      (((events lines).map Int.floor).sum : Int) := by exact_mod_cast hpushed hrange
  have hfract := sum_fract (events lines)
  have hfractNonneg : 0 ≤ ((events lines).map Int.fract).sum := by
    apply List.sum_nonneg
    intro v hv
    obtain ⟨x, -, rfl⟩ := List.mem_map.mp hv
    exact Int.fract_nonneg x
  rw [hcast, abs_sub_comm, ← hfract, abs_of_nonneg hfractNonneg]

/-- The line `a:1|h|@` with a rate. -/
def rated (rate : Numeral) (hrate : 0 < rate.value ∧ rate.value ≤ 1) : Line where
  key := [ch 'a']
  value := ⟨⟨none, [1], none⟩, none, by decide⟩
  letter := .h
  rate := some rate
  newline := false
  key_ne := by simp
  key_bytes := by
    intro b hb
    rw [List.mem_singleton.mp hb]
    exact ⟨by decide, by decide, by decide⟩
  key_dot := by decide
  rate_range := by
    intro r hr
    cases hr
    exact hrate

theorem accepts_rated (rate : Numeral) (hrate : 0 < rate.value ∧ rate.value ≤ 1) :
    Accepts (rated rate hrate).reading rate.value :=
  accepts_line (rated rate hrate) (by simp [rated])

/-- The rate `0.4`: a line stands for two and a half events. -/
def twoFifths : Numeral := ⟨⟨none, [0], some [4]⟩, none, by decide⟩

/-- The rate `1e-10`. -/
def rare : Numeral := ⟨⟨none, [1], none⟩, some ⟨false, some true, [1, 0], by decide⟩, by decide⟩

theorem twoFifths_value : twoFifths.value = 2 / 5 := by decide +kernel

theorem rare_value : rare.value = 1 / 10 ^ 10 := by decide +kernel

theorem twoFifths_range : 0 < twoFifths.value ∧ twoFifths.value ≤ 1 := by
  rw [twoFifths_value]
  norm_num

theorem rare_range : 0 < rare.value ∧ rare.value ≤ 1 := by
  rw [rare_value]
  norm_num

/-- One line at the rate `0.4` in a fresh histogram. -/
theorem count_faithful_iff_once :
    |(applies [(rated twoFifths twoFifths_range).reading] .zero).histogram.sample.1.count - 5 / 2| < 1 := by
  have hiff := @count_faithful_iff .zero rfl rfl
    [((rated twoFifths twoFifths_range).reading, twoFifths.value)]
    (by simpa using accepts_rated twoFifths twoFifths_range) (by simp [rated, Line.reading, Letter.type])
  have hevents : events [((rated twoFifths twoFifths_range).reading, twoFifths.value)] = [5 / 2] := by
    simp only [events, twoFifths_value, List.map_cons, List.map_nil]
    norm_num
  rw [hevents] at hiff
  have hfloor : ⌊(5 / 2 : Value)⌋ = 2 := by norm_num
  have hgood := hiff.mpr (by simp [Int.fract, hfloor]; norm_num)
  simpa using hgood.1

/-- Two lines at the rate `0.4` stand for five events, and four are counted. A line at the rate
`1e-10` stands for more events than the count can hold. -/
theorem count_drifts :
    Accepts (rated twoFifths twoFifths_range).reading twoFifths.value ∧
      Accepts (rated rare rare_range).reading rare.value ∧
      (let line := ((rated twoFifths twoFifths_range).reading, twoFifths.value)
       (events [line, line]).sum = 5 ∧
         (applies [line.1, line.1] .zero).histogram.sample.1.count = 4) ∧
      ¬ Histo.zero.Converts (entries [((rated rare rare_range).reading, rare.value)]) := by
  refine ⟨accepts_rated .., accepts_rated .., ⟨?_, by decide +kernel⟩, ?_⟩
  · simp only [events, twoFifths_value, List.map_cons, List.map_nil, List.sum_cons, List.sum_nil]
    norm_num
  · have hfreq : (rated rare rare_range).reading.sample_freq = 10 ^ 10 := by
      rw [(accepts_rated rare rare_range).freq.1, rare_value]
      norm_num
    simp only [entries, List.map_cons, List.map_nil, Histo.Converts, hfreq, Histo.zero]
    norm_num

end Statsd
end Brubeck
