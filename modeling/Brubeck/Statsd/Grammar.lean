import Brubeck.Statsd.MsgParse
import Mathlib.Data.List.TakeWhile

/-!
# Brubeck.Statsd.Grammar

The grammar of a statsd line, and that `msgParse` accepts exactly it.

* `Line`: the abstract syntax `K ':' N '|' T R? L?`. A value of the type is well formed.
* `parseBody_text`, `parseBody_sound`: the part after the colon, both directions.
* `msgParse_grammar`: for every string in any memory, the return code says whether the string up
  to its first NUL is the text of a line, and if it is the message has the line's meaning.
-/

namespace Brubeck
namespace Statsd

open Lib

inductive Letter where
  | g
  | c
  | C
  | h
  | ms
  deriving DecidableEq, Repr

namespace Letter

def text : Letter → List Byte
  | g => [ch 'g']
  | c => [ch 'c']
  | C => [ch 'C']
  | h => [ch 'h']
  | ms => [ch 'm', ch 's']

def type : Letter → MetricType
  | g => .gauge
  | c => .meter
  | C => .counter
  | h => .histo
  | ms => .timer

end Letter

structure Line where
  key : Key
  value : Numeral
  letter : Letter
  rate : Option Numeral
  newline : Bool
  key_ne : key ≠ []
  key_bytes : ∀ b ∈ key, KeyByte b
  key_dot : key.getLast key_ne ≠ ch '.'
  rate_range : ∀ r, rate = some r → 0 < r.value ∧ r.value ≤ 1

def rateText : Option Numeral → List Byte
  | none => []
  | some r => ch '|' :: ch '@' :: r.text

def newlineText (newline : Bool) : List Byte := if newline then [ch '\n'] else []

def bodyText (value : Numeral) (letter : Letter) (rate : Option Numeral) (newline : Bool) :
    List Byte :=
  value.text ++ ch '|' :: (letter.text ++ (rateText rate ++ newlineText newline))

def rateFreq : Option Numeral → Value
  | none => 1
  | some r => 1 / r.value

namespace Line

def text (l : Line) : List Byte := l.key ++ ch ':' :: bodyText l.value l.letter l.rate l.newline

/-- The modifiers of a line: relative exactly when its value is signed. -/
def modifiers (l : Line) : UInt8 := if l.value.signed then MOD_RELATIVE_VALUE else 0

end Line

/-! ## Bytes that end a numeral -/

theorem ends_bar : EndsNumeral (ch '|') := by constructor <;> decide

theorem ends_nul : EndsNumeral 0 := by constructor <;> decide

theorem ends_newline : EndsNumeral (ch '\n') := by constructor <;> decide

/-! ## The parts after the value -/

theorem parseType_text (t : Letter) (rest : List Byte) :
    parseType (t.text ++ rest) = some (t.type, rest) := by
  cases t <;> rfl

theorem parseType_some {l rest : List Byte} {type : MetricType}
    (h : parseType l = some (type, rest)) : ∃ t : Letter, l = t.text ++ rest ∧ type = t.type := by
  -- a byte the switch tests for is there, so the list is not empty
  have hcons : ∀ {b : Byte} {l : List Byte}, cur l = b → b ≠ 0 → l = b :: l.tail := by
    intro b l hb h0
    cases l with
    | nil => exact absurd hb.symm h0
    | cons c cs => rw [← hb]; rfl
  unfold parseType at h
  split at h
  · rename_i hb; cases h; exact ⟨.g, hcons hb (by decide), rfl⟩
  split at h
  · rename_i hb; cases h; exact ⟨.c, hcons hb (by decide), rfl⟩
  split at h
  · rename_i hb; cases h; exact ⟨.C, hcons hb (by decide), rfl⟩
  split at h
  · rename_i hb; cases h; exact ⟨.h, hcons hb (by decide), rfl⟩
  split at h
  · rename_i hb
    split at h
    · rename_i hs; cases h
      refine ⟨.ms, ?_, rfl⟩
      show l = ch 'm' :: ch 's' :: l.tail.tail
      rw [← hcons hs (by decide), ← hcons hb (by decide)]
    · cases h
  · cases h

theorem atEnd_text (newline : Bool) {rest : List Byte} (h : cur rest = 0) :
    atEnd (newlineText newline ++ rest) = true := by
  cases newline with
  | false => simp [atEnd, newlineText, h]
  | true => simp [atEnd, newlineText, h]

theorem atEnd_sound {l : List Byte} (h : atEnd l = true) :
    ∃ newline rest, l = newlineText newline ++ rest ∧ cur rest = 0 := by
  simp only [atEnd, decide_eq_true_eq] at h
  rcases h with h | ⟨h1, h2⟩
  · exact ⟨false, l, rfl, h⟩
  · cases l with
    | nil => exact absurd h1 (by decide)
    | cons b bs =>
      simp only [cur_cons] at h1
      subst h1
      exact ⟨true, bs, rfl, h2⟩

theorem cur_newline_ends (newline : Bool) {rest : List Byte} (h : cur rest = 0) :
    EndsNumeral (cur (newlineText newline ++ rest)) := by
  cases newline with
  | false => simpa [newlineText, h] using ends_nul
  | true => exact ends_newline

theorem atEnd_ends {l : List Byte} (h : atEnd l = true) : EndsNumeral (cur l) := by
  obtain ⟨newline, rest, rfl, hr⟩ := atEnd_sound h
  exact cur_newline_ends newline hr

theorem parseRate_text {rate : Option Numeral} (hr : ∀ r, rate = some r → 0 < r.value ∧ r.value ≤ 1)
    (newline : Bool) {rest : List Byte} (h : cur rest = 0) :
    parseRate (rateText rate ++ (newlineText newline ++ rest)) =
      some (rateFreq rate, newlineText newline ++ rest) := by
  cases rate with
  | none =>
    have hne : cur (newlineText newline ++ rest) ≠ ch '|' := by
      cases newline with
      | false => simp only [newlineText, List.nil_append, Bool.false_eq_true, if_false, h]; decide
      | true => show ch '\n' ≠ ch '|'; decide
    simp [parseRate, rateText, rateFreq, hne]
  | some r =>
    obtain ⟨h0, h1⟩ := hr r rfl
    have hp := parseFloat_text r (cur_newline_ends newline h) 0
    have hin : ¬ (r.value ≤ 0 ∨ 1 < r.value) := by
      rintro (hx | hx)
      · exact absurd h0 (not_lt.mpr hx)
      · exact absurd h1 (not_le.mpr hx)
    simp only [parseRate, rateText, List.cons_append, cur_cons, List.tail_cons, and_self, if_true,
      hp, if_neg hin, rateFreq]

theorem parseRate_sound {l rest : List Byte} {freq : Value} (h : parseRate l = some (freq, rest))
    (hend : atEnd rest = true) :
    ∃ rate, (∀ r, rate = some r → 0 < r.value ∧ r.value ≤ 1) ∧ l = rateText rate ++ rest ∧
      freq = rateFreq rate := by
  unfold parseRate at h
  split at h
  · rename_i hbar
    generalize hp : parseFloat l.tail.tail 0 = p at h
    obtain ⟨v, mods, r⟩ := p
    dsimp only at h
    split at h
    · cases h
    · rename_i hin
      cases h
      obtain ⟨n, hl, rfl, -⟩ := parseFloat_sound hp (atEnd_ends hend)
      refine ⟨some n, ?_, ?_, rfl⟩
      · rintro r hr
        cases hr
        exact ⟨not_le.mp (fun hx => hin (.inl hx)), not_lt.mp (fun hx => hin (.inr hx))⟩
      · obtain ⟨h1, h2⟩ := hbar
        rcases l with _ | ⟨b, _ | ⟨c, cs⟩⟩
        · exact absurd h1 (by decide)
        · exact absurd (show (0 : Byte) = ch '@' from h2) (by decide)
        · simp only [cur_cons, List.tail_cons] at h1 h2 hl
          subst h1 h2
          rw [hl]; rfl
  · cases h
    exact ⟨none, (fun r hr => by cases hr), rfl, rfl⟩

/-! ## Everything after the colon -/

theorem parseBody_text (msg : Msg) (value : Numeral) (letter : Letter) {rate : Option Numeral}
    (hr : ∀ r, rate = some r → 0 < r.value ∧ r.value ≤ 1) (newline : Bool) {rest : List Byte}
    (h : cur rest = 0) :
    parseBody msg (bodyText value letter rate newline ++ rest) =
      (0, { msg with
        value := value.value
        modifiers := if value.signed then MOD_RELATIVE_VALUE else 0
        type := letter.type
        sample_freq := rateFreq rate }) := by
  have hbody : bodyText value letter rate newline ++ rest =
      value.text ++ (ch '|' :: (letter.text ++ (rateText rate ++ (newlineText newline ++ rest)))) := by
    simp [bodyText]
  have hmods : signMods value.mantissa.sign 0 = if value.signed then MOD_RELATIVE_VALUE else 0 := by
    unfold signMods Numeral.signed
    split <;> simp
  have hfloat : ∀ rest, parseFloat (value.text ++ ch '|' :: rest) 0 =
      (value.value, signMods value.mantissa.sign 0, ch '|' :: rest) := by
    intro rest
    have hends : EndsNumeral (cur (ch '|' :: rest)) := ends_bar
    exact parseFloat_text value hends 0
  rw [hbody]
  simp only [parseBody, hfloat, cur_cons, ne_eq,
    not_true, if_false, List.tail_cons, parseType_text, parseRate_text hr newline h,
    atEnd_text newline h, if_true, hmods]

theorem parseBody_sound {msg : Msg} {l : List Byte} (h : (parseBody msg l).1 = 0) :
    ∃ value letter rate newline rest, (∀ r, rate = some r → 0 < r.value ∧ r.value ≤ 1) ∧
      l = bodyText value letter rate newline ++ rest ∧ cur rest = 0 := by
  unfold parseBody at h
  generalize hp : parseFloat l 0 = p at h
  obtain ⟨v, mods, r1⟩ := p
  dsimp only at h
  split at h
  · simp at h
  rename_i hbar
  rw [not_not] at hbar
  obtain ⟨value, hl, -, -⟩ := parseFloat_sound hp (by rw [hbar]; exact ends_bar)
  split at h
  · simp at h
  rename_i type r2 ht
  obtain ⟨letter, hr1, -⟩ := parseType_some ht
  split at h
  · simp at h
  rename_i freq r3 hrate
  have hend : atEnd r3 = true := by
    by_contra hne
    simp [hne] at h
  obtain ⟨rate, hrange, hr2, -⟩ := parseRate_sound hrate hend
  obtain ⟨newline, rest, hr3, hrest⟩ := atEnd_sound hend
  refine ⟨value, letter, rate, newline, rest, hrange, ?_, hrest⟩
  have hr1' : r1 = ch '|' :: r1.tail := by
    cases r1 with
    | nil => exact absurd hbar (by decide)
    | cons b bs => simp only [cur_cons] at hbar; rw [hbar]; rfl
  rw [hl, hr1', hr1, hr2, hr3]
  simp [bodyText]

/-! ## The line in its memory -/

theorem Line.text_nul (l : Line) : 0 ∉ l.text := by
  have hkey : (0 : Byte) ∉ l.key := fun h => (l.key_bytes 0 h).nul rfl
  have hletter : (0 : Byte) ∉ l.letter.text := by cases l.letter <;> decide
  have hrate : (0 : Byte) ∉ rateText l.rate := by
    cases l.rate with
    | none => simp [rateText]
    | some r =>
      simp [rateText, r.text_nul, show ¬ (0 : Byte) = ch '|' by decide,
        show ¬ (0 : Byte) = ch '@' by decide]
  have hnl : (0 : Byte) ∉ newlineText l.newline := by cases l.newline <;> decide
  simp [Line.text, bodyText, hkey, hletter, hrate, hnl, l.value.text_nul,
    show ¬ (0 : Byte) = ch ':' by decide, show ¬ (0 : Byte) = ch '|' by decide]

/-- A string without NUL before a NUL is determined by the memory it stands in. -/
theorem nulFree_unique {u v w rest : List Byte} (hu : 0 ∉ u) (hv : 0 ∉ v)
    (h : u ++ 0 :: w = v ++ rest) (hr : cur rest = 0) : u = v := by
  induction u generalizing v with
  | nil =>
    cases v with
    | nil => rfl
    | cons b bs =>
      simp only [List.nil_append, List.cons_append, List.cons.injEq] at h
      exact absurd (h.1 ▸ List.mem_cons_self) hv
  | cons a u ih =>
    cases v with
    | nil =>
      -- the rest starts with a byte of `u`, which is not NUL
      rw [List.nil_append] at h
      rw [← h] at hr
      exact absurd (hr ▸ List.mem_cons_self) hu
    | cons b v =>
      simp only [List.cons_append, List.cons.injEq] at h
      obtain ⟨rfl, h⟩ := h
      rw [ih (fun hx => hu (List.mem_cons_of_mem _ hx)) (fun hx => hv (List.mem_cons_of_mem _ hx)) h]

theorem getD_before (pre k rest : List Byte) :
    (pre ++ (k ++ 0 :: rest)).getD (pre.length + k.length - 1) 0 = (pre ++ k).getLastD 0 := by
  rw [← List.append_assoc, ← List.length_append]
  rcases List.eq_nil_or_concat (pre ++ k) with h | ⟨init, b, h⟩
  · rw [h]; rfl
  · rw [h]
    simp [List.getD_eq_getElem?_getD]

/-- The parser on a memory in which a key and a colon stand at the pointer. The look-behind is at
the last byte of the key, or at the byte before the buffer when the key is empty. -/
theorem msgParse_key {msg : Msg} {mem pre k rest : List Byte} {stop : Nat}
    (hmem : mem.set stop 0 = pre ++ (k ++ ch ':' :: rest)) (hk : ∀ b ∈ k, KeyByte b) :
    msgParse msg mem pre.length stop =
      let msg := { msg with key := pre.length, key_len := k.length % 2 ^ 16 }
      let mem := pre ++ (k ++ 0 :: rest)
      if mem.getD (pre.length + k.length % 2 ^ 16 - 1) 0 = ch '.' then ⟨-1, msg, mem⟩
      else ⟨(parseBody msg rest).1, (parseBody msg rest).2, mem⟩ := by
  have hset : (pre ++ (k ++ ch ':' :: rest)).set (pre.length + k.length) 0 =
      pre ++ (k ++ 0 :: rest) := by
    simp
  have hdrop : (pre ++ (k ++ 0 :: rest)).drop (pre.length + k.length + 1) = rest := by
    rw [← List.append_assoc, Nat.add_assoc, ← List.drop_drop, List.append_assoc, List.drop_left]
    simp
  simp only [msgParse, hmem, List.drop_left, scanKey_append hk, hset, hdrop]

/-- The same, from what the parser reads at its pointer. -/
theorem msgParse_at (msg : Msg) {mem k rest : List Byte} {buffer stop : Nat}
    (hmem : (mem.set stop 0).drop buffer = k ++ ch ':' :: rest) (hk : ∀ b ∈ k, KeyByte b) :
    ∃ pre, pre.length = buffer ∧ msgParse msg mem buffer stop =
      let msg := { msg with key := buffer, key_len := k.length % 2 ^ 16 }
      let mem := pre ++ (k ++ 0 :: rest)
      if mem.getD (buffer + k.length % 2 ^ 16 - 1) 0 = ch '.' then ⟨-1, msg, mem⟩
      else ⟨(parseBody msg rest).1, (parseBody msg rest).2, mem⟩ := by
  have hpre : ((mem.set stop 0).take buffer).length = buffer := by
    have : ((mem.set stop 0).drop buffer).length ≠ 0 := by rw [hmem]; simp
    rw [List.length_drop] at this
    rw [List.length_take]
    omega
  have hsplit : mem.set stop 0 = (mem.set stop 0).take buffer ++ (k ++ ch ':' :: rest) := by
    rw [← hmem, List.take_append_drop]
  have hparse := @msgParse_key msg _ _ _ _ _ hsplit hk
  rw [hpre] at hparse
  exact ⟨_, hpre, hparse⟩

def Line.msg (l : Line) (key : Nat) : Msg where
  key := key
  key_len := l.key.length
  type := l.letter.type
  value := l.value.value
  sample_freq := rateFreq l.rate
  modifiers := l.modifiers

/-- A line is accepted wherever it stands, with its meaning. -/
theorem msgParse_line (l : Line) {msg : Msg} {mem pre w : List Byte} {stop : Nat}
    (hmem : mem.set stop 0 = pre ++ (l.text ++ 0 :: w)) (hlen : l.key.length < 2 ^ 16) :
    msgParse msg mem pre.length stop =
      ⟨0, l.msg pre.length,
        pre ++ (l.key ++ 0 :: (bodyText l.value l.letter l.rate l.newline ++ 0 :: w))⟩ := by
  have hmem' : mem.set stop 0 = pre ++ (l.key ++ ch ':' ::
      (bodyText l.value l.letter l.rate l.newline ++ 0 :: w)) := by
    rw [hmem, Line.text]; simp
  have hlast : (pre ++ l.key).getLastD 0 ≠ ch '.' := by
    rw [List.getLastD_eq_getLast?, List.getLast?_append_of_ne_nil _ l.key_ne,
      List.getLast?_eq_some_getLast l.key_ne]
    exact l.key_dot
  have hbody : ∀ msg, parseBody msg (bodyText l.value l.letter l.rate l.newline ++ 0 :: w) = _ :=
    fun msg => parseBody_text msg l.value l.letter l.rate_range l.newline rfl
  rw [msgParse_key hmem' l.key_bytes]
  simp only [Nat.mod_eq_of_lt hlen, getD_before, if_neg hlast, hbody]
  rfl

/-- What the parser accepts is a line, up to the first NUL. -/
theorem msgParse_sound {msg : Msg} {mem pre t w : List Byte} {stop : Nat}
    (hmem : mem.set stop 0 = pre ++ (t ++ 0 :: w)) (hnul : 0 ∉ t) (hcolon : cur t ≠ ch ':')
    (hlen : t.length < 2 ^ 16) (hrc : (msgParse msg mem pre.length stop).rc = 0) :
    ∃ l : Line, t = l.text := by
  cases hs : scanKey (t ++ 0 :: w) with
  | none =>
    simp only [msgParse, hmem, List.drop_left, hs] at hrc
    exact absurd hrc (by decide)
  | some n =>
    obtain ⟨k, rest, htk, rfl, hk⟩ := scanKey_some hs
    have hkne : k ≠ [] := by
      rintro rfl
      cases t with
      | nil => simp [show ¬ (0 : Byte) = ch ':' by decide] at htk
      | cons b bs =>
        simp only [List.cons_append, List.nil_append, List.cons.injEq] at htk
        exact hcolon htk.1
    have hklen : k.length < 2 ^ 16 := Nat.lt_trans (scanKey_lt hs) hlen
    rw [htk] at hmem
    rw [msgParse_key hmem hk] at hrc
    simp only [Nat.mod_eq_of_lt hklen, getD_before] at hrc
    split at hrc
    · exact absurd hrc (by simp)
    · rename_i hdot
      dsimp only at hrc
      obtain ⟨value, letter, rate, newline, rest', hrange, rfl, hr⟩ := parseBody_sound hrc
      have hkdot : k.getLast hkne ≠ ch '.' := by
        intro hx
        apply hdot
        rw [List.getLastD_eq_getLast?, List.getLast?_append_of_ne_nil _ hkne,
          List.getLast?_eq_some_getLast hkne, hx]
        rfl
      let l : Line := ⟨k, value, letter, rate, newline, hkne, hk, hkdot, hrange⟩
      have hsame : t ++ 0 :: w = l.text ++ rest' := by
        rw [htk]
        simp [l, Line.text]
      exact ⟨l, nulFree_unique hnul l.text_nul hsame hr⟩

theorem takeWhile_nul (s post : List Byte) :
    ∃ w, s ++ 0 :: post = s.takeWhile (· ≠ 0) ++ 0 :: w := by
  induction s with
  | nil => exact ⟨post, rfl⟩
  | cons b bs ih =>
    by_cases hb : b = 0
    · exact ⟨bs ++ 0 :: post, by simp [hb]⟩
    · obtain ⟨w, hw⟩ := ih
      exact ⟨w, by simp [hb, hw]⟩

theorem parseBody_rc (msg : Msg) (l : List Byte) :
    (parseBody msg l).1 = 0 ∨ (parseBody msg l).1 = -1 := by
  simp only [parseBody]
  split
  · exact .inr rfl
  split
  · exact .inr rfl
  split
  · exact .inr rfl
  split
  · exact .inl rfl
  · exact .inr rfl

theorem msgParse_rc (msg : Msg) (mem : List Byte) (buffer stop : Nat) :
    (msgParse msg mem buffer stop).rc = 0 ∨ (msgParse msg mem buffer stop).rc = -1 := by
  simp only [msgParse]
  split
  · exact .inr rfl
  split
  · exact .inr rfl
  · dsimp only
    exact parseBody_rc _ _

/-- **The line parser accepts exactly its grammar and returns its meaning.** The string `s`
stands at the pointer in any memory, with any byte at its end. It is accepted exactly when what
precedes its first NUL is the text of a line; the message then has the line's meaning, and its
key is the line's, ended by a NUL. -/
theorem msgParse_grammar (msg : Msg) (pre s post : List Byte) (x : Byte)
    (hlen : s.length < 65536) (hcolon : cur s ≠ ch ':') :
    let r := msgParse msg (pre ++ (s ++ x :: post)) pre.length (pre.length + s.length)
    (r.rc = 0 ↔ ∃ l : Line, s.takeWhile (· ≠ 0) = l.text) ∧ (r.rc ≠ 0 → r.rc = -1) ∧
      ∀ l : Line, s.takeWhile (· ≠ 0) = l.text →
        r.msg.key = pre.length ∧ r.msg.key_len = l.key.length ∧
        (r.mem.drop r.msg.key).take r.msg.key_len = l.key ∧
        r.mem[r.msg.key + r.msg.key_len]? = some 0 ∧
        r.msg.type = l.letter.type ∧ r.msg.value = l.value.value ∧
        r.msg.modifiers = (if l.value.signed then MOD_RELATIVE_VALUE else 0) ∧
        r.msg.sample_freq = rateFreq l.rate := by
  intro r
  -- the string up to its first NUL, and what stands after that NUL
  obtain ⟨t, w, ht, hmem, hnul, htlen⟩ : ∃ t w, s.takeWhile (· ≠ 0) = t ∧
      s ++ 0 :: post = t ++ 0 :: w ∧ 0 ∉ t ∧ t.length ≤ s.length := by
    obtain ⟨w, hw⟩ := takeWhile_nul s post
    refine ⟨_, w, rfl, hw, ?_, (List.takeWhile_sublist _).length_le⟩
    intro h
    simpa using List.mem_takeWhile_imp h
  have hset : (pre ++ (s ++ x :: post)).set (pre.length + s.length) 0 = pre ++ (t ++ 0 :: w) := by
    rw [← hmem]; simp
  have hline : ∀ l : Line, t = l.text →
      r = ⟨0, l.msg pre.length,
        pre ++ (l.key ++ 0 :: (bodyText l.value l.letter l.rate l.newline ++ 0 :: w))⟩ := by
    rintro l rfl
    apply msgParse_line l hset
    simp only [Line.text, List.length_append] at htlen
    omega
  rw [ht]
  refine ⟨⟨fun hrc => ?_, fun ⟨l, hl⟩ => by rw [hline l hl]⟩,
    (msgParse_rc _ _ _ _).resolve_left, fun l hl => ?_⟩
  · have hcur : cur t ≠ ch ':' := by
      intro hx
      apply hcolon
      cases t with
      | nil => exact absurd hx (by decide)
      | cons b bs =>
        cases s with
        | nil => cases ht
        | cons c cs =>
          simp only [List.cons_append, List.cons.injEq] at hmem
          rw [cur_cons, hmem.1]; exact hx
    exact msgParse_sound hset hnul hcur (Nat.lt_of_le_of_lt htlen hlen) hrc
  · rw [hline l hl]
    refine ⟨rfl, rfl, ?_, ?_, rfl, rfl, rfl, rfl⟩
    · simp [Line.msg]
    · simp [Line.msg]

theorem msgParse_grammar_accepts :
    (msgParse ⟨0, 0, .gauge, 0, 0, 0⟩ ([] ++ (str ['a', ':', '1', '|', 'c'] ++ 7 :: [])) 0 5).rc = 0 :=
  (msgParse_grammar ⟨0, 0, .gauge, 0, 0, 0⟩ [] (str ['a', ':', '1', '|', 'c']) [] 7
    (by decide) (by decide)).1.mpr
    ⟨⟨[ch 'a'], ⟨⟨none, [1], none⟩, none, by decide⟩, .c, none, false, by decide,
      by simp [show KeyByte (ch 'a') from ⟨by decide, by decide, by decide⟩], by decide,
      (fun r hr => by cases hr)⟩, by decide⟩

end Statsd
end Brubeck
