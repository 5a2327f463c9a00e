import Brubeck.Basic
import Brubeck.Statsd.ParseFloat

/-!
# Brubeck.Statsd.MsgParse

`brubeck_statsd_msg_parse` of `samplers/statsd.c`.

Memory is a list of bytes and a pointer an index into it; the parser writes two NULs into the
buffer it reads, one at the end of the line and one over the colon. Reading on from a pointer is
reading the list from that index on, so the parts that only read are functions of that list.
-/

namespace Brubeck
namespace Statsd

open Lib

/-- `struct brubeck_statsd_msg`; `key` is a pointer. -/
structure Msg where
  key : Nat
  key_len : Nat
  type : MetricType
  value : Value
  sample_freq : Value
  modifiers : UInt8
  deriving DecidableEq

/-- What a call of the parser leaves: its return code, `*msg`, and the memory. -/
structure Parsed where
  rc : Int
  msg : Msg
  mem : List Byte
  deriving DecidableEq

/-- The loop over the key: how many bytes stand before the first colon, `none` when a space or
the NUL comes first. -/
def scanKey : List Byte → Option Nat
  | [] => none
  | b :: bs =>
    if b ≠ ch ':' ∧ b ≠ 0 then
      if b = ch ' ' then none else (scanKey bs).map (· + 1)
    else if b = 0 then none
    else some 0

/-- The switch on the message type. The case `m` without an `s` after it falls through to the
default. -/
def parseType (buffer : List Byte) : Option (MetricType × List Byte) :=
  if cur buffer = ch 'g' then some (.gauge, buffer.tail)
  else if cur buffer = ch 'c' then some (.meter, buffer.tail)
  else if cur buffer = ch 'C' then some (.counter, buffer.tail)
  else if cur buffer = ch 'h' then some (.histo, buffer.tail)
  else if cur buffer = ch 'm' then
    if cur buffer.tail = ch 's' then some (.timer, buffer.tail.tail) else none
  else none

/-- The sample rate trailer: the sample frequency and the rest, `none` for a rate outside
`(0, 1]`. -/
def parseRate (buffer : List Byte) : Option (Value × List Byte) :=
  if cur buffer = ch '|' ∧ cur buffer.tail = ch '@' then
    let (sample_rate, _, buffer) := parseFloat buffer.tail.tail 0
    if sample_rate ≤ 0 ∨ 1 < sample_rate then none else some (1 / sample_rate, buffer)
  else some (1, buffer)

def atEnd (buffer : List Byte) : Bool :=
  cur buffer = 0 ∨ (cur buffer = ch '\n' ∧ cur buffer.tail = 0)

def parseBody (msg : Msg) (buffer : List Byte) : Int × Msg :=
  let (value, modifiers, buffer) := parseFloat buffer 0
  let msg := { msg with value := value, modifiers := modifiers }
  if cur buffer ≠ ch '|' then (-1, msg)
  else
    match parseType buffer.tail with
    | none => (-1, msg)
    | some (type, buffer) =>
      let msg := { msg with type := type }
      match parseRate buffer with
      | none => (-1, msg)
      | some (sample_freq, buffer) =>
        (if atEnd buffer then 0 else -1, { msg with sample_freq := sample_freq })

/-- `brubeck_statsd_msg_parse(msg, buffer, end)`. The look-behind at the key's last byte reads the
byte before the buffer when the key is empty. -/
def msgParse (msg : Msg) (mem : List Byte) (buffer stop : Nat) : Parsed :=
  let mem := mem.set stop 0
  let msg := { msg with key := buffer, key_len := 0 }
  match scanKey (mem.drop buffer) with
  | none => ⟨-1, msg, mem⟩
  | some n =>
    let msg := { msg with key_len := n % 2 ^ 16 }
    let mem := mem.set (buffer + n) 0
    if mem.getD (msg.key + msg.key_len - 1) 0 = ch '.' then ⟨-1, msg, mem⟩
    else
      let (rc, msg) := parseBody msg (mem.drop (buffer + n + 1))
      ⟨rc, msg, mem⟩

/-! ## The key -/

structure KeyByte (b : Byte) : Prop where
  colon : b ≠ ch ':'
  space : b ≠ ch ' '
  nul : b ≠ 0

theorem scanKey_append {k : List Byte} (h : ∀ b ∈ k, KeyByte b) (rest : List Byte) :
    scanKey (k ++ ch ':' :: rest) = some k.length := by
  induction k with
  | nil => simp [scanKey, show ch ':' ≠ 0 by decide]
  | cons b bs ih =>
    have hb := h b (by simp)
    simp only [List.cons_append, scanKey, hb.colon, hb.space, hb.nul, ne_eq, not_false_eq_true,
      and_self, if_true, if_false, ih (fun c hc => h c (by simp [hc])), Option.map_some,
      List.length_cons]

theorem scanKey_some {l : List Byte} {n : Nat} (h : scanKey l = some n) :
    ∃ k rest, l = k ++ ch ':' :: rest ∧ k.length = n ∧ ∀ b ∈ k, KeyByte b := by
  induction l generalizing n with
  | nil => cases h
  | cons b bs ih =>
    by_cases hc : b = ch ':'
    · subst hc
      have : n = 0 := by simpa [scanKey, show ch ':' ≠ 0 by decide] using h.symm
      subst this
      exact ⟨[], bs, rfl, rfl, by simp⟩
    · by_cases h0 : b = 0
      · simp [scanKey, h0] at h
      · by_cases hs : b = ch ' '
        · rw [scanKey, if_pos ⟨hc, h0⟩, if_pos hs] at h
          cases h
        · rw [scanKey, if_pos ⟨hc, h0⟩, if_neg hs, Option.map_eq_some_iff] at h
          obtain ⟨m, hm, rfl⟩ := h
          obtain ⟨k, rest, rfl, rfl, hk⟩ := ih hm
          refine ⟨b :: k, rest, rfl, rfl, ?_⟩
          intro c hmem
          rcases List.mem_cons.mp hmem with rfl | hmem
          · exact ⟨hc, hs, h0⟩
          · exact hk c hmem

theorem scanKey_lt {t w : List Byte} {n : Nat} (h : scanKey (t ++ 0 :: w) = some n) :
    n < t.length := by
  induction t generalizing n with
  | nil => simp [scanKey] at h
  | cons b bs ih =>
    simp only [List.cons_append, scanKey] at h
    split at h
    · split at h
      · cases h
      · rw [Option.map_eq_some_iff] at h
        obtain ⟨m, hm, rfl⟩ := h
        have := ih hm
        simp only [List.length_cons]
        omega
    · split at h
      · cases h
      · cases h; simp

end Statsd
end Brubeck
