import Brubeck.Counters
import Brubeck.Lib.Lines
import Brubeck.Run
import Brubeck.Statsd.Locality

/-!
# Brubeck.Statsd.Lines

A packet is the sum of its lines. The parser overwrites separators in the buffer all lines share,
and looks one byte behind an empty key; nothing of it is seen by the next line.

* `meaning`: what becomes of a line, from its own bytes only.
* `msgParse_meaning`: that is what the parser makes of it wherever it stands, and it writes to the
  line and its terminator only.
* `segments_eq`: a packet is handled by handling the meaning of each of its lines.
* `handleAll_alone`: so it does what its lines do, each alone in a packet of its own. An empty line
  is an error in a packet, and nothing at all alone.
-/

namespace Brubeck
namespace Statsd

open Lib

/-! ## One line -/

def meaning (line : List Byte) : Option Reading :=
  match scanKey (line ++ [0]) with
  | none => none
  | some n =>
    if (line.take n).getLast? = some (ch '.') then none
    else
      let (rc, msg) := parseBody .blank (line.drop (n + 1) ++ [0])
      if rc < 0 then none else some { msg.reading [] with key := line.take n }

/-- The message is set whole before a line is accepted, so nothing of the line before it is left. -/
theorem parseBody_msg (msg msg' : Msg) (l : List Byte) :
    (parseBody msg l).1 = (parseBody msg' l).1 ∧
      ((parseBody msg l).1 = 0 → (parseBody msg l).2 =
        { (parseBody msg' l).2 with key := msg.key, key_len := msg.key_len }) := by
  rcases hvalue : parseFloat l 0 with ⟨value, modifiers, rest⟩
  simp only [parseBody, hvalue]
  by_cases hbar : cur rest ≠ ch '|'
  · simp [hbar]
  · simp only [if_neg hbar]
    cases parseType rest.tail with
    | none => simp
    | some found =>
      obtain ⟨type, rest'⟩ := found
      cases hrate : parseRate rest' with
      | none => simp [hrate]
      | some rate => simp [hrate]

/-- The byte before the end of a key: the key's own last byte, or `look` when the key is empty. -/
theorem lookBehind (pre k rest : List Byte) {look : Byte} (hlook : look ≠ ch '.') :
    (pre ++ [look] ++ (k ++ rest)).getD ((pre ++ [look]).length + k.length - 1) 0 = ch '.' ↔
      k.getLast? = some (ch '.') := by
  rcases List.eq_nil_or_concat k with rfl | ⟨k', b, rfl⟩
  · simp [List.getD_eq_getElem?_getD, hlook]
  · have hsplit : pre ++ [look] ++ (k'.concat b ++ rest) = (pre ++ [look] ++ k') ++ b :: rest := by
      simp
    have hidx : (pre ++ [look]).length + (k'.concat b).length - 1 = (pre ++ [look] ++ k').length := by
      simp only [List.concat_eq_append, List.length_append, List.length_singleton]
      omega
    rw [hsplit, hidx, List.getD_eq_getElem?_getD, List.getElem?_append_right (Nat.le_refl _)]
    simp

/-- A key in a line that has one: the key, the colon, and the rest of the line. -/
theorem scanKey_split {line : List Byte} {n : Nat} (h : scanKey (line ++ [0]) = some n) :
    line = line.take n ++ ch ':' :: line.drop (n + 1) ∧ (line.take n).length = n ∧
      ∀ b ∈ line.take n, KeyByte b := by
  have hlt := scanKey_lt h
  obtain ⟨k, rest, heq, rfl, hk⟩ := scanKey_some h
  have htake : line.take k.length = k := by
    have := congrArg (List.take k.length) heq
    rwa [List.take_append_of_le_length hlt.le, List.take_left] at this
  have hdrop : line.drop k.length ++ [0] = ch ':' :: rest := by
    have := congrArg (List.drop k.length) heq
    rwa [List.drop_append_of_le_length hlt.le, List.drop_left] at this
  have hcolon : line.drop k.length = ch ':' :: line.drop (k.length + 1) := by
    rw [List.drop_eq_getElem_cons hlt] at hdrop ⊢
    rw [List.cons_append, List.cons.injEq] at hdrop
    rw [hdrop.1]
  refine ⟨?_, by rw [htake], by rw [htake]; exact hk⟩
  rw [← hcolon, List.take_append_drop]

/-- A line in any memory, after any other line, with any byte at its end. -/
theorem msgParse_meaning (msg : Msg) (pre line post : List Byte) (x : Byte) {look : Byte}
    (hlook : look ≠ ch '.') (hlen : line.length < 2 ^ 16) {parsed : Parsed}
    (hparsed : msgParse msg (pre ++ [look] ++ (line ++ x :: post)) (pre ++ [look]).length
      ((pre ++ [look]).length + line.length) = parsed) :
    parsed.outcome = meaning line ∧
      ∃ line', line'.length = line.length ∧ parsed.mem = pre ++ [look] ++ (line' ++ 0 :: post) := by
  have hset : ∀ p : List Byte, (p ++ (line ++ x :: post)).set (p.length + line.length) 0 =
      p ++ (line ++ 0 :: post) := by simp
  cases hs : scanKey (line ++ [0]) with
  | none =>
    simp only [msgParse, hset, List.drop_left, scanKey_agree (.of_append line post []), hs] at hparsed
    subst hparsed
    exact ⟨by simp [Parsed.outcome, meaning, hs], line, rfl, rfl⟩
  | some n =>
    obtain ⟨hline, hkey, hbytes⟩ := scanKey_split hs
    have hkn : n < 2 ^ 16 := (scanKey_lt hs).trans hlen
    simp only [meaning, hs]
    generalize line.take n = k at hline hkey hbytes
    generalize line.drop (n + 1) = body at hline
    subst hline hkey
    have hmem : (pre ++ [look] ++ (k ++ ch ':' :: body ++ x :: post)).set
        ((pre ++ [look]).length + (k ++ ch ':' :: body).length) 0 =
        pre ++ [look] ++ (k ++ ch ':' :: (body ++ 0 :: post)) := by rw [hset]; simp
    have hafter : (k ++ 0 :: body).length = (k ++ ch ':' :: body).length := by simp
    rw [msgParse_key hmem hbytes] at hparsed
    simp only [Nat.mod_eq_of_lt hkn, lookBehind pre k (0 :: (body ++ 0 :: post)) hlook] at hparsed
    by_cases hdot : k.getLast? = some (ch '.')
    · rw [if_pos hdot] at hparsed
      subst hparsed
      exact ⟨by simp [Parsed.outcome, hdot], k ++ 0 :: body, hafter, by simp⟩
    · rw [if_neg hdot, parseBody_agree _ (.of_append body post [])] at hparsed
      subst hparsed
      refine ⟨?_, k ++ 0 :: body, hafter, by simp⟩
      obtain ⟨hrc, hmsg⟩ := parseBody_msg
        { msg with key := (pre ++ [look]).length, key_len := k.length } .blank (body ++ [0])
      simp only [Parsed.outcome, hrc, if_neg hdot]
      rcases parseBody_rc .blank (body ++ [0]) with h0 | h1
      · rw [hmsg (hrc.trans h0), h0]
        simp [Msg.reading]
      · simp [h1]

/-- Parsing a line changes nothing outside the line and its terminator. -/
theorem msgParse_frame (msg : Msg) {mem : List Byte} {buffer stop : Nat} (hb : buffer ≤ stop)
    (hstop : stop < mem.length) {i : Nat} (hi : i < buffer ∨ stop < i) :
    (msgParse msg mem buffer stop).mem[i]? = mem[i]? := by
  have hmem : mem.set stop 0 = mem.take stop ++ 0 :: mem.drop (stop + 1) :=
    List.set_eq_take_append_cons_drop.trans (if_pos hstop)
  have hfirst : (mem.set stop 0)[i]? = mem[i]? := List.getElem?_set_ne (by omega)
  simp only [msgParse]
  split
  · exact hfirst
  · rename_i n hn
    have hlt : buffer + n < stop := by
      rw [hmem, List.drop_append_of_le_length (by rw [List.length_take]; omega)] at hn
      have := scanKey_lt hn
      rw [List.length_drop, List.length_take] at this
      omega
    have hsecond : ((mem.set stop 0).set (buffer + n) 0)[i]? = mem[i]? := by
      rw [List.getElem?_set_ne (by omega), hfirst]
    split
    · exact hsecond
    · exact hsecond

/-! ## A packet -/

theorem segmentLoop_done (rounds : Nat) (msg : Msg) (mem : List Byte) {buffer stop : Nat}
    (h : stop ≤ buffer) : segmentLoop rounds msg mem buffer stop = ([], mem) := by
  cases rounds with
  | zero => rfl
  | succ rounds => rw [segmentLoop, if_neg (Nat.not_lt.mpr h)]

/-- The loop ends by itself: more rounds than there are bytes make no difference. -/
theorem segmentLoop_rounds (rounds : Nat) :
    ∀ (rounds' : Nat) (msg : Msg) (mem : List Byte) (buffer stop : Nat), stop - buffer ≤ rounds →
      stop - buffer ≤ rounds' →
      segmentLoop rounds msg mem buffer stop = segmentLoop rounds' msg mem buffer stop := by
  induction rounds with
  | zero =>
    intro rounds' msg mem buffer stop h _
    rw [segmentLoop_done 0 msg mem (by omega), segmentLoop_done rounds' msg mem (by omega)]
  | succ rounds ih =>
    intro rounds' msg mem buffer stop h h'
    by_cases hlt : buffer < stop
    · obtain ⟨n, rfl⟩ : ∃ n, rounds' = n + 1 := ⟨rounds' - 1, by omega⟩
      have hle := (statEnd_le mem hlt.le).1
      rw [segmentLoop, segmentLoop, if_pos hlt, if_pos hlt]
      dsimp only
      rw [ih n _ _ (statEnd mem buffer stop + 1) stop (by omega) (by omega)]
    · rw [segmentLoop_done _ msg mem (Nat.not_lt.mp hlt), segmentLoop_done _ msg mem (Nat.not_lt.mp hlt)]

theorem statEnd_eq (p bytes rest : List Byte) :
    statEnd (p ++ (bytes ++ rest)) p.length (p.length + bytes.length) =
      p.length + bytes.idxOf (ch '\n') := by
  rw [statEnd, List.drop_left, Nat.add_sub_cancel_left, List.take_left]

/-- The loop over a packet, wherever it stands: each line has its own meaning. -/
theorem segmentLoop_meaning (bytes : List Byte) :
    ∀ (rounds : Nat) (msg : Msg) (pre post : List Byte) (x look : Byte), look ≠ ch '.' →
      bytes.length ≤ rounds → bytes.length < 2 ^ 16 →
      (segmentLoop rounds msg (pre ++ [look] ++ (bytes ++ x :: post)) (pre ++ [look]).length
        ((pre ++ [look]).length + bytes.length)).1 = (pieces (ch '\n') bytes).map meaning := by
  induction bytes using pieces_induction (ch '\n') with
  | hnil =>
    intro rounds msg pre post x look _ _ _
    rw [segmentLoop_done _ _ _ (by simp)]
    rfl
  | hlast line hline hne =>
    intro rounds msg pre post x look hlook hrounds hlen
    have hpos := List.length_pos_iff.mpr hne
    obtain ⟨n, rfl⟩ : ∃ n, rounds = n + 1 := ⟨rounds - 1, by omega⟩
    obtain ⟨hout, -⟩ := msgParse_meaning msg pre line post x hlook hlen rfl
    rw [segmentLoop, if_pos (by omega), statEnd_eq, List.idxOf_of_notMem hline, pieces_single hline hne]
    dsimp only
    rw [hout, segmentLoop_done _ _ _ (by omega)]
    rfl
  | hcons line rest hline ih =>
    intro rounds msg pre post x look hlook hrounds hlen
    have hsize : (line ++ ch '\n' :: rest).length = line.length + (rest.length + 1) := by simp
    rw [hsize] at hrounds hlen
    obtain ⟨n, rfl⟩ : ∃ n, rounds = n + 1 := ⟨rounds - 1, by omega⟩
    have hmem : line ++ ch '\n' :: rest ++ x :: post = line ++ ch '\n' :: (rest ++ x :: post) := by simp
    have hidx : (line ++ ch '\n' :: rest).idxOf (ch '\n') = line.length := by
      rw [List.idxOf_append_of_notMem hline, List.idxOf_cons_self, Nat.add_zero]
    obtain ⟨hout, line', hline', hafter⟩ :=
      msgParse_meaning msg pre line (rest ++ x :: post) (ch '\n') hlook (by omega) rfl
    rw [segmentLoop, if_pos (by rw [hsize]; omega), statEnd_eq, hidx, pieces_append hline, hmem]
    dsimp only
    rw [hout, hafter, List.map_cons]
    -- the next line starts after the NUL that ended this one
    have hnext := ih n (msgParse msg (pre ++ [look] ++ (line ++ ch '\n' :: (rest ++ x :: post)))
      (pre ++ [look]).length ((pre ++ [look]).length + line.length)).msg (pre ++ [look] ++ line') post x
      0 (by decide) (by omega) (by omega)
    have hat : (pre ++ [look] ++ line' ++ [0]).length = (pre ++ [look]).length + line.length + 1 := by
      simp only [List.length_append, List.length_singleton, hline']
    have hstop : (pre ++ [look]).length + line.length + 1 + rest.length =
        (pre ++ [look]).length + (line ++ ch '\n' :: rest).length := by rw [hsize]; omega
    have hsame : pre ++ [look] ++ line' ++ [0] ++ (rest ++ x :: post) =
        pre ++ [look] ++ (line' ++ 0 :: (rest ++ x :: post)) := by simp
    rw [hat, hstop, hsame] at hnext
    rw [hnext]

theorem segments_eq (pre bytes post : List Byte) (x : Byte) {look : Byte} (hlook : look ≠ ch '.')
    (hlen : bytes.length < 2 ^ 16) :
    (segments (pre ++ [look] ++ (bytes ++ x :: post)) (pre ++ [look]).length
      ((pre ++ [look]).length + bytes.length)).1 = (pieces (ch '\n') bytes).map meaning :=
  segmentLoop_meaning bytes _ _ _ _ _ _ hlook (by omega) hlen

/-! ## Lines alone -/

/-- A line in a packet of its own. -/
def parseAlone (look : Byte) (server : Server) (line : List Byte) : Option Server :=
  (packetParse server (look :: (line ++ [0])) 1 (1 + line.length)).map Prod.fst

theorem parseAlone_eq {look : Byte} (hlook : look ≠ ch '.') (server : Server) {line : List Byte}
    (hline : ch '\n' ∉ line) (hlen : line.length < 2 ^ 16) :
    parseAlone look server line =
      if line = [] then some server else server.handle (meaning line) := by
  have hsegs : (segments (look :: (line ++ [0])) 1 (1 + line.length)).1 =
      (pieces (ch '\n') line).map meaning := segments_eq [] line [] 0 hlook hlen
  rw [parseAlone, packetParse_eq, Option.map_map, hsegs]
  by_cases hne : line = []
  · rw [if_pos hne, hne]
    rfl
  · rw [if_neg hne, pieces_single hline hne, List.map_singleton, List.foldlM_cons]
    cases server.handle (meaning line) with
    | none => rfl
    | some server₁ => rfl

def errorsBy (n : Nat) : Counters := { Counters.zero with errors := UInt32.ofNat n }

theorem meaning_nil : meaning [] = none := rfl

/-- Lines handled in a row do what they do alone, but that an empty line counts as an error. -/
theorem handleAll_alone {look : Byte} (hlook : look ≠ ch '.') {lines : List (List Byte)}
    (hlines : ∀ line ∈ lines, ch '\n' ∉ line ∧ line.length < 2 ^ 16) (server : Server) :
    (lines.map meaning).foldlM Server.handle server =
      (lines.foldlM (parseAlone look) server).map (Server.credit (errorsBy (lines.count []))) := by
  induction lines generalizing server with
  | nil => exact congrArg some (Server.credit_zero server).symm
  | cons line lines ih =>
    have ih := ih fun l hl => hlines l (List.mem_cons_of_mem _ hl)
    obtain ⟨hline, hlen⟩ := hlines line List.mem_cons_self
    rw [List.map_cons, List.foldlM_cons, List.foldlM_cons, parseAlone_eq hlook server hline hlen]
    by_cases hne : line = []
    · subst hne
      have hone : server.handle (meaning []) = some (server.credit (errorsBy 1)) := by
        simp [meaning_nil, Server.handle, Server.credit, errorsBy, Counters.plus, Counters.zero]
      have hsum : ∀ server₁ : Server, (server₁.credit (errorsBy (lines.count []))).credit (errorsBy 1) =
          server₁.credit (errorsBy (lines.count [] + 1)) := by
        intro server₁
        rw [Server.credit_credit]
        simp [errorsBy, Counters.plus, Counters.zero, UInt32.ofNat_add]
      rw [hone, if_pos rfl, List.count_cons_self]
      show (lines.map meaning).foldlM Server.handle (server.credit (errorsBy 1)) =
        (lines.foldlM (parseAlone look) server).map _
      rw [Server.credit_handleAll, ih, Option.map_map]
      exact congrArg (Option.map · _) (funext hsum)
    · rw [if_neg hne, List.count_cons_of_ne hne]
      cases server.handle (meaning line) with
      | none => rfl
      | some server₁ => exact ih server₁

end Statsd
end Brubeck
