import Brubeck.Statsd.Packet
import Mathlib.Data.List.GetD

/-!
# Brubeck.Statsd.Locality

The parser does not look past the NUL it writes at the end of a line, so what follows a packet in
its memory has no influence on what becomes of the packet.

* `Agree`: two strings that are the same up to and including some NUL. Each part of the parser gives
  the same result on both, and leaves strings that agree.
* `msgParse_agree`: one line, in two memories that are the same below its end.
* `packetParse_agree`: a whole packet.
-/

namespace Brubeck
namespace Statsd

open Lib

/-- The same up to and including some NUL. -/
inductive Agree : List Byte → List Byte → Prop
  | nul (v w : List Byte) : Agree (0 :: v) (0 :: w)
  | cons (b : Byte) {v w : List Byte} : Agree v w → Agree (b :: v) (b :: w)

/-- A result with the same value, and rests that agree. -/
structure Same {α : Type} (x y : α × List Byte) : Prop where
  value : x.1 = y.1
  rest : Agree x.2 y.2

theorem Same.split {α : Type} {x y : α × List Byte} (h : Same x y) :
    ∃ a v w, x = (a, v) ∧ y = (a, w) ∧ Agree v w :=
  ⟨x.1, x.2, y.2, rfl, Prod.ext h.value.symm rfl, h.rest⟩

theorem Agree.cur_eq {v w : List Byte} (h : Agree v w) : cur v = cur w := by
  cases h <;> rfl

theorem Agree.tail {v w : List Byte} (h : Agree v w) (h0 : cur v ≠ 0) : Agree v.tail w.tail := by
  cases h with
  | nul => exact absurd rfl h0
  | cons b h => exact h

theorem Agree.of_append (u v w : List Byte) : Agree (u ++ 0 :: v) (u ++ 0 :: w) := by
  induction u with
  | nil => exact .nul v w
  | cons b u ih => exact .cons b ih

/-! ## Numerals -/

theorem spanDigits_agree {v w : List Byte} (h : Agree v w) : Same (spanDigits v) (spanDigits w) := by
  induction h with
  | nul v w => exact ⟨rfl, .nul v w⟩
  | cons b h ih =>
    by_cases hb : isDigit b = true
    · simp only [spanDigits, hb, if_true]
      exact ⟨by rw [ih.value], ih.rest⟩
    · simp only [spanDigits, hb, if_false, Bool.false_eq_true]
      exact ⟨rfl, .cons b h⟩

theorem scanSign_agree {v w : List Byte} (h : Agree v w) : Same (scanSign v) (scanSign w) := by
  simp only [scanSign, ← h.cur_eq]
  by_cases h1 : cur v = ch '-'
  · simp only [h1, if_true]
    exact ⟨rfl, h.tail (by rw [h1]; decide)⟩
  · by_cases h2 : cur v = ch '+'
    · simp only [h2, if_true, if_neg (show ch '+' ≠ ch '-' by decide)]
      exact ⟨rfl, h.tail (by rw [h2]; decide)⟩
    · simp only [h1, h2, if_false]
      exact ⟨rfl, h⟩

theorem scanFrac_agree {v w : List Byte} (h : Agree v w) : Same (scanFrac v) (scanFrac w) := by
  simp only [scanFrac, ← h.cur_eq]
  by_cases hdot : cur v = ch '.'
  · have hspan := spanDigits_agree (h.tail (by rw [hdot]; decide))
    simp only [hdot, if_true]
    exact ⟨by rw [hspan.value], hspan.rest⟩
  · simp only [hdot, if_false]
    exact ⟨rfl, h⟩

theorem scanMantissa_agree {v w : List Byte} (h : Agree v w) :
    Same (scanMantissa v) (scanMantissa w) := by
  obtain ⟨sign, v₁, w₁, hv₁, hw₁, h₁⟩ := (scanSign_agree h).split
  obtain ⟨whole, v₂, w₂, hv₂, hw₂, h₂⟩ := (spanDigits_agree h₁).split
  obtain ⟨frac, v₃, w₃, hv₃, hw₃, h₃⟩ := (scanFrac_agree h₂).split
  simp only [scanMantissa, hv₁, hv₂, hv₃, hw₁, hw₂, hw₃]
  exact ⟨rfl, h₃⟩

theorem scanExponent_agree {v w : List Byte} (h : Agree v w) :
    Option.Rel Same (scanExponent v) (scanExponent w) := by
  simp only [scanExponent, ← h.cur_eq]
  by_cases hmark : isExpMark (cur v) = true
  · have hne : cur v ≠ 0 := by
      intro h0
      rw [h0] at hmark
      exact absurd hmark (by decide)
    have hsign := scanSign_agree (h.tail hne)
    have hspan := spanDigits_agree hsign.rest
    simp only [hmark, if_true, ← hspan.value, ← hsign.value]
    by_cases hds : (spanDigits (scanSign v.tail).2).1 = []
    · simp only [hds, if_true]
      exact .none
    · simp only [hds, if_false]
      exact .some ⟨rfl, hspan.rest⟩
  · simp only [hmark, if_false, Bool.false_eq_true]
    exact .none

theorem dropSpace_agree {v w : List Byte} (h : Agree v w) :
    Agree (v.dropWhile isSpace) (w.dropWhile isSpace) := by
  induction h with
  | nul v w => exact .nul v w
  | cons b h ih =>
    by_cases hb : isSpace b = true
    · simpa only [List.dropWhile_cons, hb, if_true] using ih
    · simpa only [List.dropWhile_cons, hb, if_false, Bool.false_eq_true] using Agree.cons b h

theorem strtod_agree {v w : List Byte} (h : Agree v w) : Same (strtod v) (strtod w) := by
  obtain ⟨m, v₁, w₁, hv, hw, h₁⟩ := (scanMantissa_agree (dropSpace_agree h)).split
  have hexp := scanExponent_agree h₁
  simp only [strtod, hv, hw]
  by_cases hdigit : m.hasDigit = true
  · simp only [hdigit, if_true]
    generalize scanExponent v₁ = x at hexp ⊢
    generalize scanExponent w₁ = y at hexp ⊢
    cases hexp with
    | none => exact ⟨rfl, h₁⟩
    | some hsame =>
      obtain ⟨e, v₂, w₂, rfl, rfl, h₂⟩ := hsame.split
      exact ⟨rfl, h₂⟩
  · simp only [hdigit, if_false, Bool.false_eq_true]
    exact ⟨rfl, h⟩

theorem parseFloat_agree {v w : List Byte} (h : Agree v w) (mods : UInt8) :
    ∃ value mods' v' w', parseFloat v mods = (value, mods', v') ∧
      parseFloat w mods = (value, mods', w') ∧ Agree v' w' := by
  obtain ⟨m, v₁, w₁, hv₁, hw₁, h₁⟩ := (scanMantissa_agree h).split
  obtain ⟨x, v₂, w₂, hv₂, hw₂, h₂⟩ := (strtod_agree h).split
  rw [parseFloat_eq hv₁, parseFloat_eq hw₁, hv₂, hw₂, ← h₁.cur_eq]
  by_cases hexp : isExpMark (cur v₁) = true
  · rw [if_pos hexp, if_pos hexp]
    exact ⟨x, _, v₂, w₂, rfl, rfl, h₂⟩
  · rw [if_neg hexp, if_neg hexp]
    exact ⟨m.value, _, v₁, w₁, rfl, rfl, h₁⟩

/-! ## The parts of a line -/

theorem scanKey_agree {v w : List Byte} (h : Agree v w) : scanKey v = scanKey w := by
  induction h with
  | nul v w => rfl
  | cons b h ih => simp only [scanKey, ih]

theorem parseType_agree {v w : List Byte} (h : Agree v w) :
    Option.Rel Same (parseType v) (parseType w) := by
  have hone : ∀ (b : Byte) (type : MetricType), cur v = b → b ≠ 0 →
      Option.Rel Same (some (type, v.tail)) (some (type, w.tail)) :=
    fun b type hb h0 => .some ⟨rfl, h.tail (by rw [hb]; exact h0)⟩
  rw [parseType, parseType, ← h.cur_eq]
  by_cases hg : cur v = ch 'g'
  · rw [if_pos hg, if_pos hg]; exact hone _ _ hg (by decide)
  rw [if_neg hg, if_neg hg]
  by_cases hc : cur v = ch 'c'
  · rw [if_pos hc, if_pos hc]; exact hone _ _ hc (by decide)
  rw [if_neg hc, if_neg hc]
  by_cases hC : cur v = ch 'C'
  · rw [if_pos hC, if_pos hC]; exact hone _ _ hC (by decide)
  rw [if_neg hC, if_neg hC]
  by_cases hh : cur v = ch 'h'
  · rw [if_pos hh, if_pos hh]; exact hone _ _ hh (by decide)
  rw [if_neg hh, if_neg hh]
  by_cases hm : cur v = ch 'm'
  · have htail := h.tail (by rw [hm]; decide)
    rw [if_pos hm, if_pos hm, ← htail.cur_eq]
    by_cases hs : cur v.tail = ch 's'
    · rw [if_pos hs, if_pos hs]
      exact .some ⟨rfl, htail.tail (by rw [hs]; decide)⟩
    · rw [if_neg hs, if_neg hs]
      exact .none
  · rw [if_neg hm, if_neg hm]
    exact .none

theorem parseRate_agree {v w : List Byte} (h : Agree v w) :
    Option.Rel Same (parseRate v) (parseRate w) := by
  by_cases hbar : cur v = ch '|'
  · have htail := h.tail (by rw [hbar]; decide)
    simp only [parseRate, ← h.cur_eq, ← htail.cur_eq]
    by_cases hat : cur v = ch '|' ∧ cur v.tail = ch '@'
    · obtain ⟨rate, mods, v', w', hv', hw', hrest⟩ :=
        parseFloat_agree (htail.tail (by rw [hat.2]; decide)) 0
      simp only [hat, and_self, if_true, hv', hw']
      by_cases hrange : rate ≤ 0 ∨ 1 < rate
      · simp only [hrange, if_true]
        exact .none
      · simp only [hrange, if_false]
        exact .some ⟨rfl, hrest⟩
    · simp only [hat, if_false]
      exact .some ⟨rfl, h⟩
  · have hbar' : ¬ cur w = ch '|' := by rw [← h.cur_eq]; exact hbar
    simp only [parseRate, hbar, hbar', false_and, if_false]
    exact .some ⟨rfl, h⟩

theorem atEnd_agree {v w : List Byte} (h : Agree v w) : atEnd v = atEnd w := by
  by_cases hnl : cur v = ch '\n'
  · have htail := h.tail (by rw [hnl]; decide)
    simp only [atEnd, ← h.cur_eq, ← htail.cur_eq]
  · simp only [atEnd, hnl, ← h.cur_eq, false_and]

theorem parseBody_agree (msg : Msg) {v w : List Byte} (h : Agree v w) :
    parseBody msg v = parseBody msg w := by
  obtain ⟨value, mods, v', w', hv', hw', hrest⟩ := parseFloat_agree h 0
  simp only [parseBody, hv', hw', ← hrest.cur_eq]
  by_cases hbar : cur v' = ch '|'
  · have htype := parseType_agree (hrest.tail (by rw [hbar]; decide))
    simp only [hbar, ne_eq, not_true, if_false]
    generalize parseType v'.tail = x at htype ⊢
    generalize parseType w'.tail = y at htype ⊢
    cases htype with
    | none => rfl
    | some hsame =>
      obtain ⟨type, rest, rest', rfl, rfl, hrest⟩ := hsame.split
      have hrate := parseRate_agree hrest
      dsimp only
      generalize parseRate rest = x at hrate ⊢
      generalize parseRate rest' = y at hrate ⊢
      cases hrate with
      | none => rfl
      | some hsame =>
        obtain ⟨freq, last, last', rfl, rfl, hlast⟩ := hsame.split
        simp only [atEnd_agree hlast]
  · simp only [hbar, ne_eq, not_false_eq_true, if_true]

/-! ## A line and a packet in their memory -/

theorem parseBody_key (msg : Msg) (l : List Byte) :
    (parseBody msg l).2.key = msg.key ∧ (parseBody msg l).2.key_len = msg.key_len := by
  simp only [parseBody]
  split
  · exact ⟨rfl, rfl⟩
  split
  · exact ⟨rfl, rfl⟩
  split
  · exact ⟨rfl, rfl⟩
  · exact ⟨rfl, rfl⟩

/-- A line that ends at `p.length`, in two memories that are the same below that: the same return
code and message, the same writes, and a key that lies below the end. -/
theorem msgParse_agree (msg : Msg) (p v w : List Byte) (x y : Byte) {buffer : Nat}
    (hb : buffer ≤ p.length) :
    ∃ rc msg' p', p'.length = p.length ∧
      msgParse msg (p ++ x :: v) buffer p.length = ⟨rc, msg', p' ++ 0 :: v⟩ ∧
      msgParse msg (p ++ y :: w) buffer p.length = ⟨rc, msg', p' ++ 0 :: w⟩ ∧
      msg'.key + msg'.key_len ≤ p.length := by
  have hset : ∀ (x : Byte) (v : List Byte), (p ++ x :: v).set p.length 0 = p ++ 0 :: v := by simp
  have hdrop : ∀ v : List Byte, (p ++ 0 :: v).drop buffer = p.drop buffer ++ 0 :: v :=
    fun v => List.drop_append_of_le_length hb
  cases hs : scanKey (p.drop buffer ++ 0 :: v) with
  | none =>
    have hs' : scanKey (p.drop buffer ++ 0 :: w) = none := by
      rw [← scanKey_agree (.of_append (p.drop buffer) v w), hs]
    exact ⟨-1, { msg with key := buffer, key_len := 0 }, p, rfl,
      by simp only [msgParse, hset, hdrop, hs], by simp only [msgParse, hset, hdrop, hs'], hb⟩
  | some n =>
    have hs' : scanKey (p.drop buffer ++ 0 :: w) = some n := by
      rw [← scanKey_agree (.of_append (p.drop buffer) v w), hs]
    have hn : buffer + n < p.length := by
      have := scanKey_lt hs
      rw [List.length_drop] at this
      omega
    have hmod : n % 2 ^ 16 ≤ n := Nat.mod_le _ _
    -- the NUL over the colon, the look-behind and the body are all below the end
    have hcolon : ∀ v : List Byte, (p ++ 0 :: v).set (buffer + n) 0 = p.set (buffer + n) 0 ++ 0 :: v :=
      fun v => List.set_append_left _ _ hn
    have hlen : (p.set (buffer + n) 0).length = p.length := List.length_set
    generalize p.set (buffer + n) 0 = p' at hcolon hlen
    have hlook : ∀ v : List Byte, (p' ++ 0 :: v).getD (buffer + n % 2 ^ 16 - 1) 0 =
        p'.getD (buffer + n % 2 ^ 16 - 1) 0 :=
      fun v => List.getD_append _ _ _ _ (by omega)
    have hbody : ∀ v : List Byte, (p' ++ 0 :: v).drop (buffer + n + 1) =
        p'.drop (buffer + n + 1) ++ 0 :: v :=
      fun v => List.drop_append_of_le_length (by omega)
    have hkey : buffer + n % 2 ^ 16 ≤ p.length := by omega
    let msg₁ : Msg := { msg with key := buffer, key_len := n % 2 ^ 16 }
    by_cases hdot : p'.getD (buffer + n % 2 ^ 16 - 1) 0 = ch '.'
    · exact ⟨-1, msg₁, p', hlen,
        by simp only [msgParse, hset, hdrop, hs, hcolon, hlook, if_pos hdot, msg₁],
        by simp only [msgParse, hset, hdrop, hs', hcolon, hlook, if_pos hdot, msg₁], hkey⟩
    · have hsame := parseBody_agree msg₁ (.of_append (p'.drop (buffer + n + 1)) v w)
      obtain ⟨hk, hkl⟩ := parseBody_key msg₁ (p'.drop (buffer + n + 1) ++ 0 :: v)
      refine ⟨(parseBody msg₁ (p'.drop (buffer + n + 1) ++ 0 :: v)).1,
        (parseBody msg₁ (p'.drop (buffer + n + 1) ++ 0 :: v)).2, p', hlen,
        by simp only [msgParse, hset, hdrop, hs, hcolon, hlook, if_neg hdot, hbody, msg₁], ?_, ?_⟩
      · rw [hsame]
        simp only [msgParse, hset, hdrop, hs', hcolon, hlook, if_neg hdot, hbody, msg₁]
      · rw [hk, hkl]
        exact hkey

theorem outcome_eq {rc : Int} {msg : Msg} {p v w : List Byte} (h : msg.key + msg.key_len ≤ p.length) :
    Parsed.outcome ⟨rc, msg, p ++ v⟩ = Parsed.outcome ⟨rc, msg, p ++ w⟩ := by
  have hkey : ∀ v : List Byte, ((p ++ v).drop msg.key).take msg.key_len =
      (p.drop msg.key).take msg.key_len := by
    intro v
    rw [List.drop_append_of_le_length (by omega), List.take_append_of_le_length]
    rw [List.length_drop]
    omega
  simp only [Parsed.outcome, Msg.reading, hkey]

theorem line_agree (msg : Msg) (q v w : List Byte) {buffer stat_end : Nat} (hb : buffer ≤ stat_end)
    (hend : stat_end ≤ q.length) (hv : v ≠ []) (hw : w ≠ []) :
    ∃ rc msg' q' v' w', q'.length = q.length ∧ v' ≠ [] ∧ w' ≠ [] ∧
      msgParse msg (q ++ v) buffer stat_end = ⟨rc, msg', q' ++ v'⟩ ∧
      msgParse msg (q ++ w) buffer stat_end = ⟨rc, msg', q' ++ w'⟩ ∧
      msg'.key + msg'.key_len ≤ q'.length := by
  rcases Nat.lt_or_eq_of_le hend with hlt | rfl
  · -- the line ends at a newline of the packet
    have hsplit : ∀ v : List Byte, q ++ v =
        q.take stat_end ++ q.get ⟨stat_end, hlt⟩ :: (q.drop (stat_end + 1) ++ v) := by
      intro v
      rw [← List.cons_append, List.get_eq_getElem, ← List.drop_eq_getElem_cons hlt, ← List.append_assoc,
        List.take_append_drop]
    have htake : (q.take stat_end).length = stat_end := List.length_take_of_le hend
    have hb' : buffer ≤ (q.take stat_end).length := hb.trans_eq htake.symm
    obtain ⟨rc, msg', p', hlen, hpv, hpw, hkey⟩ := msgParse_agree msg (q.take stat_end)
      (q.drop (stat_end + 1) ++ v) (q.drop (stat_end + 1) ++ w) (q.get ⟨stat_end, hlt⟩)
      (q.get ⟨stat_end, hlt⟩) hb'
    rw [← hsplit, htake] at hpv hpw
    rw [htake] at hlen hkey
    refine ⟨rc, msg', p' ++ 0 :: q.drop (stat_end + 1), v, w, ?_, hv, hw, ?_, ?_, ?_⟩
    · simp only [List.length_append, List.length_cons, List.length_drop]
      omega
    · rw [hpv, List.append_assoc, List.cons_append]
    · rw [hpw, List.append_assoc, List.cons_append]
    · rw [List.length_append]
      omega
  · -- the line ends where the packet ends
    obtain ⟨x, v, rfl⟩ := List.exists_cons_of_ne_nil hv
    obtain ⟨y, w, rfl⟩ := List.exists_cons_of_ne_nil hw
    obtain ⟨rc, msg', p', hlen, hpv, hpw, hkey⟩ := msgParse_agree msg q v w x y hb
    exact ⟨rc, msg', p', 0 :: v, 0 :: w, hlen, List.cons_ne_nil _ _, List.cons_ne_nil _ _, hpv, hpw,
      by rw [hlen]; exact hkey⟩

theorem statEnd_append {q : List Byte} {buffer stop : Nat} (hq : q.length = stop) (hb : buffer ≤ stop)
    (v : List Byte) : statEnd (q ++ v) buffer stop = statEnd q buffer stop := by
  rw [statEnd, statEnd, List.drop_append_of_le_length (by omega), List.take_append_of_le_length]
  rw [List.length_drop]
  omega

theorem statEnd_le (mem : List Byte) {buffer stop : Nat} (hb : buffer ≤ stop) :
    buffer ≤ statEnd mem buffer stop ∧ statEnd mem buffer stop ≤ stop := by
  have hidx := List.idxOf_le_length (l := (mem.drop buffer).take (stop - buffer)) (a := ch '\n')
  rw [List.length_take] at hidx
  rw [statEnd]
  omega

theorem segmentLoop_agree {stop : Nat} (rounds : Nat) :
    ∀ (msg : Msg) (q v w : List Byte) (buffer : Nat), q.length = stop → v ≠ [] → w ≠ [] →
      (segmentLoop rounds msg (q ++ v) buffer stop).1 =
        (segmentLoop rounds msg (q ++ w) buffer stop).1 := by
  induction rounds with
  | zero => intro msg q v w buffer _ _ _; rfl
  | succ rounds ih =>
    intro msg q v w buffer hq hv hw
    simp only [segmentLoop]
    by_cases hlt : buffer < stop
    · obtain ⟨hle, hend⟩ := statEnd_le q hlt.le
      obtain ⟨rc, msg', q', v', w', hlen, hv', hw', hpv, hpw, hkey⟩ :=
        line_agree msg q v w hle (by omega) hv hw
      simp only [if_pos hlt, statEnd_append hq hlt.le, hpv, hpw]
      rw [outcome_eq hkey, ih msg' q' v' w' _ (hlen.trans hq) hv' hw']
    · simp only [if_neg hlt]

/-- What follows a packet in its memory has no influence on what the server makes of it. -/
theorem packetParse_agree (server : Server) (q : List Byte) {v w : List Byte} (buffer : Nat)
    (hv : v ≠ []) (hw : w ≠ []) :
    (packetParse server (q ++ v) buffer q.length).map Prod.fst =
      (packetParse server (q ++ w) buffer q.length).map Prod.fst := by
  rw [packetParse_eq, packetParse_eq, Option.map_map, Option.map_map, segments, segments,
    segmentLoop_agree (q.length - buffer) .blank q v w buffer rfl hv hw]
  rfl

/-! ## The memory keeps its size -/

theorem msgParse_length (msg : Msg) (mem : List Byte) (buffer stop : Nat) :
    (msgParse msg mem buffer stop).mem.length = mem.length := by
  simp only [msgParse]
  split
  · simp
  · split <;> simp

theorem segmentLoop_length (rounds : Nat) (msg : Msg) (mem : List Byte) (buffer stop : Nat) :
    (segmentLoop rounds msg mem buffer stop).2.length = mem.length := by
  induction rounds generalizing msg mem buffer with
  | zero => rfl
  | succ rounds ih =>
    rw [segmentLoop]
    split
    · exact (ih ..).trans (msgParse_length ..)
    · rfl

end Statsd
end Brubeck
