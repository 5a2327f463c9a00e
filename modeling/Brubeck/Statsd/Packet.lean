import Brubeck.Statsd.Grammar
import Brubeck.Store

/-!
# Brubeck.Statsd.Packet

`brubeck_statsd_packet_parse`: a packet as a sequence of lines.

* `segments`: what the parser makes of each line, without the server.
* `packetParse_eq`: a packet is handled by handling its segments in order.
* `accepted_key`, `accepted_type`: what is known of a reading that got through the parser.
* `segments_line`: a packet with one line.
-/

namespace Brubeck
namespace Statsd

open Lib

def MAX_PACKET_SIZE : Nat := 8192

/-- `memchr(buffer, '\n', end - buffer)`, or the end. -/
def statEnd (mem : List Byte) (buffer stop : Nat) : Nat :=
  buffer + ((mem.drop buffer).take (stop - buffer)).idxOf (ch '\n')

/-- The message on the stack before its first use. Its fields are set before they are read. -/
def Msg.blank : Msg := ⟨0, 0, .gauge, 0, 0, 0⟩

/-- What the caller of the parser passes on to `brubeck_metric_find` and `brubeck_metric_record`. -/
def Msg.reading (msg : Msg) (mem : List Byte) : Reading where
  key := (mem.drop msg.key).take msg.key_len
  type := msg.type
  value := msg.value
  sample_freq := msg.sample_freq
  modifiers := msg.modifiers

def Parsed.outcome (parsed : Parsed) : Option Reading :=
  if parsed.rc < 0 then none else some (parsed.msg.reading parsed.mem)

/-- The loop of `brubeck_statsd_packet_parse`. Each round moves past at least one byte. -/
def packetLoop : Nat → Server → Msg → List Byte → Nat → Nat → Option (Server × List Byte)
  | 0, server, _, mem, _, _ => some (server, mem)
  | rounds + 1, server, msg, mem, buffer, stop =>
    if buffer < stop then
      let stat_end := statEnd mem buffer stop
      let parsed := msgParse msg mem buffer stat_end
      match server.handle parsed.outcome with
      | none => none
      | some server => packetLoop rounds server parsed.msg parsed.mem (stat_end + 1) stop
    else some (server, mem)

/-- `brubeck_statsd_packet_parse(server, buffer, end)`: the server and the memory afterwards, or
`none` when a record function is missing. -/
def packetParse (server : Server) (mem : List Byte) (buffer stop : Nat) :
    Option (Server × List Byte) :=
  packetLoop (stop - buffer) server .blank mem buffer stop

/-- The same loop without the server: the outcome of each line, and the memory afterwards. -/
def segmentLoop : Nat → Msg → List Byte → Nat → Nat → List (Option Reading) × List Byte
  | 0, _, mem, _, _ => ([], mem)
  | rounds + 1, msg, mem, buffer, stop =>
    if buffer < stop then
      let stat_end := statEnd mem buffer stop
      let parsed := msgParse msg mem buffer stat_end
      let (rest, mem) := segmentLoop rounds parsed.msg parsed.mem (stat_end + 1) stop
      (parsed.outcome :: rest, mem)
    else ([], mem)

def segments (mem : List Byte) (buffer stop : Nat) : List (Option Reading) × List Byte :=
  segmentLoop (stop - buffer) .blank mem buffer stop

def accepted (mem : List Byte) (buffer stop : Nat) : List Reading :=
  (segments mem buffer stop).1.filterMap id

theorem packetLoop_eq (rounds : Nat) (server : Server) (msg : Msg) (mem : List Byte)
    (buffer stop : Nat) :
    packetLoop rounds server msg mem buffer stop =
      ((segmentLoop rounds msg mem buffer stop).1.foldlM Server.handle server).map
        (·, (segmentLoop rounds msg mem buffer stop).2) := by
  induction rounds generalizing server msg mem buffer with
  | zero => rfl
  | succ rounds ih =>
    simp only [packetLoop, segmentLoop]
    by_cases h : buffer < stop
    · simp only [if_pos h, List.foldlM_cons]
      cases server.handle (msgParse msg mem buffer (statEnd mem buffer stop)).outcome with
      | none => rfl
      | some server => exact ih ..
    · simp only [if_neg h]
      rfl

theorem packetParse_eq (server : Server) (mem : List Byte) (buffer stop : Nat) :
    packetParse server mem buffer stop =
      ((segments mem buffer stop).1.foldlM Server.handle server).map
        (·, (segments mem buffer stop).2) :=
  packetLoop_eq ..

/-! ## What gets through the parser -/

/-- Whatever property each accepted line's outcome has, the accepted readings have. -/
theorem accepted_induction {P : Reading → Prop}
    (hP : ∀ msg mem buffer stop, (msgParse msg mem buffer stop).rc = 0 →
      P ((msgParse msg mem buffer stop).msg.reading (msgParse msg mem buffer stop).mem))
    {mem : List Byte} {buffer stop : Nat} {r : Reading} (h : r ∈ accepted mem buffer stop) : P r := by
  have hloop : ∀ rounds msg mem buffer, ∀ o ∈ (segmentLoop rounds msg mem buffer stop).1,
      ∀ r, o = some r → P r := by
    intro rounds
    induction rounds with
    | zero => intro msg mem buffer o ho; cases ho
    | succ rounds ih =>
      intro msg mem buffer o ho r hr
      rw [segmentLoop] at ho
      split at ho
      · rcases List.mem_cons.mp ho with rfl | ho
        · rw [Parsed.outcome] at hr
          split at hr
          · cases hr
          · rename_i hrc
            cases hr
            apply hP
            exact (msgParse_rc ..).resolve_right fun h => hrc (by rw [h]; decide)
        · exact ih _ _ _ o ho r hr
      · cases ho
  obtain ⟨o, ho, hr⟩ := List.mem_filterMap.mp h
  exact hloop _ _ _ _ o ho r hr

theorem msgParse_accepts {msg : Msg} {mem : List Byte} {buffer stop : Nat}
    (h : (msgParse msg mem buffer stop).rc = 0) :
    ∃ (k : Key) (letter : Letter), (∀ b ∈ k, KeyByte b) ∧
      ((msgParse msg mem buffer stop).msg.reading (msgParse msg mem buffer stop).mem).key =
        k.take (k.length % 2 ^ 16) ∧
      (msgParse msg mem buffer stop).msg.type = letter.type := by
  cases hs : scanKey ((mem.set stop 0).drop buffer) with
  | none =>
    simp only [msgParse, hs] at h
    exact absurd h (by decide)
  | some n =>
    obtain ⟨k, rest, hdrop, rfl, hk⟩ := scanKey_some hs
    obtain ⟨pre, rfl, hparse⟩ := msgParse_at msg hdrop hk
    rw [hparse] at h ⊢
    dsimp only at h ⊢
    split at h
    · exact absurd h (by simp)
    · rename_i hdot
      rw [if_neg hdot]
      dsimp only at h ⊢
      obtain ⟨value, letter, rate, newline, rest', hrange, rfl, hr⟩ := parseBody_sound h
      rw [parseBody_text _ value letter hrange newline hr]
      refine ⟨k, letter, hk, ?_, rfl⟩
      simp only [Msg.reading, List.drop_left]
      exact List.take_append_of_le_length (Nat.mod_le _ _)

theorem accepted_key {mem : List Byte} {buffer stop : Nat} {r : Reading}
    (h : r ∈ accepted mem buffer stop) : (∀ b ∈ r.key, KeyByte b) ∧ r.key.length < 2 ^ 16 := by
  refine accepted_induction (P := fun r => (∀ b ∈ r.key, KeyByte b) ∧ r.key.length < 2 ^ 16) ?_ h
  intro msg mem buffer stop hrc
  obtain ⟨k, -, hk, hkey, -⟩ := msgParse_accepts hrc
  rw [hkey]
  refine ⟨fun b hb => hk b (List.mem_of_mem_take hb), ?_⟩
  rw [List.length_take]
  exact lt_of_le_of_lt (Nat.min_le_left _ _) (Nat.mod_lt _ (by decide))

theorem accepted_type {mem : List Byte} {buffer stop : Nat} {r : Reading}
    (h : r ∈ accepted mem buffer stop) : r.type ≠ .internalStats := by
  refine accepted_induction (P := fun r => r.type ≠ .internalStats) ?_ h
  intro msg mem buffer stop hrc
  obtain ⟨-, letter, -, -, htype⟩ := msgParse_accepts hrc
  show (msgParse msg mem buffer stop).msg.type ≠ _
  rw [htype]
  cases letter <;> decide

/-! ## A packet with one line -/

def Line.reading (l : Line) : Reading where
  key := l.key
  type := l.letter.type
  value := l.value.value
  sample_freq := rateFreq l.rate
  modifiers := l.modifiers

theorem segments_line (l : Line) (hnl : ch '\n' ∉ l.text) (hlen : l.key.length < 2 ^ 16)
    (pre : List Byte) (x : Byte) (post : List Byte) :
    (segments (pre ++ (l.text ++ x :: post)) pre.length (pre.length + l.text.length)).1 =
      [some l.reading] := by
  have hpos : 0 < l.text.length := by simp [Line.text]
  have hend : statEnd (pre ++ (l.text ++ x :: post)) pre.length (pre.length + l.text.length) =
      pre.length + l.text.length := by
    rw [statEnd, List.drop_left, Nat.add_sub_cancel_left, List.take_left, List.idxOf_of_notMem hnl]
  have hset : (pre ++ (l.text ++ x :: post)).set (pre.length + l.text.length) 0 =
      pre ++ (l.text ++ 0 :: post) := by simp
  obtain ⟨n, hn⟩ : ∃ n, l.text.length = n + 1 := ⟨l.text.length - 1, by omega⟩
  rw [segments, Nat.add_sub_cancel_left]
  nth_rewrite 1 [hn]
  rw [segmentLoop, if_pos (by omega)]
  simp only [hend, msgParse_line l hset hlen]
  have hdone : ∀ rounds msg mem, (segmentLoop rounds msg mem (pre.length + l.text.length + 1)
      (pre.length + l.text.length)).1 = [] := by
    intro rounds msg mem
    cases rounds with
    | zero => rfl
    | succ rounds => rw [segmentLoop, if_neg (by omega)]
  rw [hdone]
  simp [Parsed.outcome, Msg.reading, Line.msg, Line.reading]

def oneLine (key : Key) (letter : Letter) : List Byte := key ++ (str [':', '1', '|'] ++ letter.text)

theorem accepted_oneLine {key : Key} (letter : Letter) (hne : key ≠ []) (hbytes : ∀ b ∈ key, KeyByte b)
    (hdot : key.getLast hne ≠ ch '.') (hnl : ch '\n' ∉ key) (hlen : key.length < 2 ^ 16) (x : Byte) :
    ∃ r, accepted (oneLine key letter ++ [x]) 0 (oneLine key letter).length = [r] ∧ r.key = key ∧
      r.type = letter.type := by
  let l : Line := ⟨key, ⟨⟨none, [1], none⟩, none, by decide⟩, letter, none, false, hne, hbytes, hdot,
    fun r hr => by cases hr⟩
  have htext : l.text = oneLine key letter := by
    simp [l, Line.text, oneLine, bodyText, rateText, newlineText, Numeral.text, str]
    rfl
  have hnl' : ch '\n' ∉ l.text := by
    have hletter : ch '\n' ∉ letter.text := by cases letter <;> decide
    rw [htext, oneLine, List.mem_append, List.mem_append]
    exact not_or.mpr ⟨hnl, not_or.mpr ⟨by decide, hletter⟩⟩
  have hsegs := segments_line l hnl' hlen [] x []
  rw [htext] at hsegs
  simp only [List.nil_append, List.length_nil, Nat.zero_add] at hsegs
  exact ⟨l.reading, by rw [accepted, hsegs]; rfl, rfl, rfl⟩

end Statsd
end Brubeck
