import Brubeck.Ftoa.Values
import Brubeck.Metric
import Brubeck.Slab
import Brubeck.Statsd.Packet

/-!
# Brubeck.Limits

How long a key may be. A key travels from the parser into a slab block and from there, with the
suffixes of its metric's type, into the line buffer of the plaintext encoder. The parser does not
bound it by either.

* `line_length_le`: the longest line for a name takes 26 bytes more than the name.
* `keyFits_iff`: the lengths that fit everywhere, with or without a byte to spare in the line buffer.
* `accepted_key_fits_iff`: the same for the key of any accepted line.
-/

namespace Brubeck

open Lib Statsd

/-- `sizeof(struct brubeck_metric)`: a link, a lock, the length, type and expiry, and the union. -/
def METRIC_SIZE : Nat := 8 + 4 + 2 + 1 + 1 + 16

def PLAINTEXT_BUFFER : Nat := 1024

/-- A key fits everywhere it is copied to, in a metric of the given type: in a slab block, and under
any name the metric is sampled with, with any value and time, in the line buffer, where `spare` bytes
are left behind the line. The encoder needs none: the NUL that `brubeck_ftoa` puts behind the value is
overwritten by the space that follows. With one, that NUL is counted as a byte of its own. -/
structure KeyFits (spare : Nat) (key : Key) (type : MetricType) : Prop where
  slab : slabRound (METRIC_SIZE + key.length + 1) ≤ NODE_SIZE
  line : ∀ {metric : Metric} {stats : InternalStats} {sample_freq : Int} {out : Key × Value}
    (value tick_time : UInt32), metric.key = key → metric.type = type →
    out ∈ (metric.sample stats sample_freq).1 →
    (Carbon.plaintextLine out.1 value tick_time).length + spare ≤ PLAINTEXT_BUFFER

/-- The longest suffix that each type appends. -/
def longestSuffix : MetricType → Nat
  | .gauge | .meter | .counter => 0
  | .histo | .timer => 15
  | .internalStats => 19

theorem suffix_length_le {type : MetricType} {suffix : String} (h : suffix ∈ Metric.suffixes type) :
    (str suffix.toList).length ≤ longestSuffix type := by
  have hall : ∀ type, ∀ suffix ∈ Metric.suffixes type,
      (str suffix.toList).length ≤ longestSuffix type := by
    intro type
    cases type <;> decide
  exact hall type suffix h

theorem exists_longestSuffix (type : MetricType) :
    ∃ suffix ∈ Metric.suffixes type, (str suffix.toList).length = longestSuffix type := by
  cases type <;> decide

theorem suffix_nul {type : MetricType} {suffix : String} (h : suffix ∈ Metric.suffixes type) :
    (0 : Byte) ∉ str suffix.toList := by
  have hall : ∀ type, ∀ suffix ∈ Metric.suffixes type, (0 : Byte) ∉ str suffix.toList := by
    intro type
    cases type <;> decide
  exact hall type suffix h

theorem strlen_of_nulFree {name : Key} (h : (0 : Byte) ∉ name) : strlen name = name.length := by
  rw [strlen, List.takeWhile_eq_self_iff.mpr]
  intro b hb
  have : b ≠ 0 := fun h0 => h (h0 ▸ hb)
  simpa using this

theorem line_length {name : Key} (h : (0 : Byte) ∉ name) (value tick_time : UInt32) :
    (Carbon.plaintextLine name value tick_time).length =
      name.length + (ftoa value.toNat).length + (itoaText tick_time.toNat).length + 3 := by
  simp only [Carbon.plaintextLine, strlen_of_nulFree h, List.take_length,
    List.length_append, List.length_cons, List.length_nil]
  omega

/-- The value -1000000.0625 and the last second a `uint32_t` can hold have the longest texts. -/
theorem longest_texts :
    (ftoa (3379831809 : UInt32).toNat).length = 13 ∧
      (itoaText (4294967295 : UInt32).toNat).length = 10 := by
  decide

theorem line_length_le {name : Key} (h : (0 : Byte) ∉ name) (value tick_time : UInt32) :
    (Carbon.plaintextLine name value tick_time).length ≤ name.length + 26 := by
  have hf := ftoa_length_le value.toNat
  have hi : (itoaText tick_time.toNat).length ≤ 10 := by
    apply itoaText_length_le (by omega)
    omega
  rw [line_length h]
  omega

theorem line_length_longest {name : Key} (h : (0 : Byte) ∉ name) :
    (Carbon.plaintextLine name 3379831809 4294967295).length = name.length + 26 := by
  rw [line_length h, longest_texts.1, longest_texts.2]

/-- A key fits everywhere exactly when its line leaves room for the longest suffix, value and time;
the slab block is then large enough by far. -/
theorem keyFits_iff {key : Key} (hnul : (0 : Byte) ∉ key) (hlen : key.length < 2 ^ 16)
    (type : MetricType) (spare : Nat) :
    KeyFits spare key type ↔ key.length + longestSuffix type + spare ≤ 998 := by
  have hname : ∀ {suffix : String}, suffix ∈ Metric.suffixes type →
      (0 : Byte) ∉ key ++ str suffix.toList := by
    intro suffix hs
    rw [List.mem_append]
    exact not_or.mpr ⟨hnul, suffix_nul hs⟩
  constructor
  · intro h
    obtain ⟨suffix, hs, hlongest⟩ := exists_longestSuffix type
    obtain ⟨as, value, hmem⟩ := Metric.exists_sample_name key hlen type hs
      ⟨0, ⟨0, 0, 0, 0, 0, 0, 0⟩, ⟨0, 0, 0, 0, 0, 0, 0⟩⟩ 10
    have hline := h.line 3379831809 4294967295 rfl rfl hmem
    rw [line_length_longest (hname hs), List.length_append, hlongest, PLAINTEXT_BUFFER] at hline
    omega
  · intro h
    refine ⟨?_, ?_⟩
    · simp only [slabRound, METRIC_SIZE, NODE_SIZE, SLAB_SIZE, SLABS_PER_NODE]
      omega
    · intro metric stats sample_freq out value tick_time hkey htype hmem
      obtain ⟨suffix, hs, hout⟩ := Metric.sample_name (by rw [hkey]; exact hlen) hmem
      rw [htype] at hs
      rw [hkey] at hout
      have hsize := line_length_le (hname hs) value tick_time
      have hsuffix := suffix_length_le hs
      rw [hout, PLAINTEXT_BUFFER]
      rw [List.length_append] at hsize
      omega

/-- The key of any accepted line, in a metric of any type. It fits with a byte to spare up to 997
bytes, and no buffer is overrun up to 998. -/
theorem accepted_key_fits_iff {mem : List Byte} {buffer stop : Nat} {r : Reading}
    (hr : r ∈ accepted mem buffer stop) (type : MetricType) :
    (KeyFits 1 r.key type ↔ r.key.length + longestSuffix type ≤ 997) ∧
      (KeyFits 0 r.key type ↔ r.key.length + longestSuffix type ≤ 998) := by
  obtain ⟨hbytes, hlen⟩ := accepted_key hr
  have hiff := keyFits_iff (fun h => (hbytes 0 h).nul rfl) hlen type
  exact ⟨(hiff 1).trans Nat.succ_le_succ_iff, hiff 0⟩

theorem accepted_letters {n : Nat} (hn : 0 < n) (hlen : n < 2 ^ 16) (letter : Letter) :
    ∃ r, accepted (oneLine (List.replicate n (ch 'a')) letter ++ [0]) 0
      (oneLine (List.replicate n (ch 'a')) letter).length = [r] ∧
      r.key = List.replicate n (ch 'a') ∧ r.type = letter.type := by
  have hne : List.replicate n (ch 'a') ≠ [] := by
    intro h
    have := congrArg List.length h
    rw [List.length_replicate, List.length_nil] at this
    omega
  have hmem : ∀ b ∈ List.replicate n (ch 'a'), b = ch 'a' := fun b hb => List.eq_of_mem_replicate hb
  refine accepted_oneLine letter hne (fun b hb => ?_) ?_ (fun h => ?_) ?_ 0
  · rw [hmem b hb]
    exact ⟨by decide, by decide, by decide⟩
  · rw [hmem _ (List.getLast_mem hne)]
    decide
  · exact absurd (hmem _ h) (by decide)
  · rw [List.length_replicate]
    exact hlen

theorem accepted_key_fits_iff_short :
    ∃ r ∈ accepted (oneLine (List.replicate 1 (ch 'a')) .g ++ [0]) 0 5,
      (KeyFits 1 r.key .gauge ↔ r.key.length + longestSuffix .gauge ≤ 997) ∧
      (KeyFits 0 r.key .gauge ↔ r.key.length + longestSuffix .gauge ≤ 998) := by
  obtain ⟨r, hr, -, -⟩ := accepted_letters (n := 1) (by omega) (by omega) .g
  have hmem : r ∈ accepted (oneLine (List.replicate 1 (ch 'a')) .g ++ [0]) 0 5 := by
    rw [show 5 = (oneLine (List.replicate 1 (ch 'a')) .g).length from rfl, hr]
    exact List.mem_singleton_self r
  exact ⟨r, hmem, accepted_key_fits_iff hmem .gauge⟩

theorem oneLine_length (n : Nat) : (oneLine (List.replicate n (ch 'a')) .g).length = n + 4 := by
  rw [oneLine, List.length_append, List.length_replicate]
  rfl

/-- Two datagrams of one accepted line each. The key of the first, with some value and time, makes a
line of 1025 bytes for the buffer of 1024. The metric of the second gets a block that is larger than a
node of the slab. -/
theorem long_key_overruns :
    (∃ r, accepted (oneLine (List.replicate 999 (ch 'a')) .g ++ [0]) 0
          (oneLine (List.replicate 999 (ch 'a')) .g).length = [r] ∧
        (oneLine (List.replicate 999 (ch 'a')) .g).length = 1003 ∧
        r.type = .gauge ∧ ¬ KeyFits 1 r.key .gauge ∧ ¬ KeyFits 0 r.key .gauge ∧
        (Carbon.plaintextLine r.key 3379831809 4294967295).length = 1025) ∧
      ∃ r, accepted (oneLine (List.replicate 4032 (ch 'a')) .g ++ [0]) 0
          (oneLine (List.replicate 4032 (ch 'a')) .g).length = [r] ∧
        (oneLine (List.replicate 4032 (ch 'a')) .g).length = 4036 ∧
        NODE_SIZE < slabRound (METRIC_SIZE + r.key.length + 1) := by
  have hnul : ∀ n, (0 : Byte) ∉ List.replicate n (ch 'a') := fun n h =>
    absurd (List.eq_of_mem_replicate h) (by decide)
  refine ⟨?_, ?_⟩
  · obtain ⟨r, hr, hkey, htype⟩ := accepted_letters (n := 999) (by omega) (by omega) .g
    have hlong : ∀ spare, ¬ KeyFits spare r.key .gauge := by
      intro spare
      rw [hkey, keyFits_iff (hnul 999) (by rw [List.length_replicate]; omega), List.length_replicate]
      omega
    refine ⟨r, hr, oneLine_length 999, htype, hlong 1, hlong 0, ?_⟩
    rw [hkey, line_length_longest (hnul 999), List.length_replicate]
  · obtain ⟨r, hr, hkey, -⟩ := accepted_letters (n := 4032) (by omega) (by omega) .g
    refine ⟨r, hr, oneLine_length 4032, ?_⟩
    rw [hkey, List.length_replicate]
    decide

end Brubeck
