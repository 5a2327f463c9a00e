import Brubeck.Statsd.Lines

/-!
# Brubeck.Statsd.Consumed

What `brubeck_statsd_packet_parse` leaves in its buffer, and what a second run over it does.

The parser writes NULs only (`msgParse_bytes`), over each newline that ended a line, so none is left
(`segmentLoop_newline`). Whether the first line had a key or not, there is none at its place afterwards
(`segmentLoop_spent`). So the second run sees one line, and refuses it: `packet_consumed`.
-/

namespace Brubeck
namespace Statsd

open Lib

/-! ## One line -/

/-- Where a line has been, no key is found: its colon is overwritten. -/
theorem scanKey_nul {k : List Byte} (h : ∀ b ∈ k, KeyByte b) (rest : List Byte) :
    scanKey (k ++ 0 :: rest) = none := by
  induction k with
  | nil => rfl
  | cons b k ih =>
    have hb := h b List.mem_cons_self
    rw [List.cons_append, scanKey, if_pos ⟨hb.colon, hb.nul⟩, if_neg hb.space,
      ih fun c hc => h c (List.mem_cons_of_mem b hc)]
    rfl

theorem set_bytes {mem : List Byte} {n i : Nat} (hi : i < mem.length) :
    (mem.set n 0)[i]? = mem[i]? ∨ (mem.set n 0)[i]? = some 0 := by
  by_cases hn : n = i
  · subst hn
    exact .inr (List.getElem?_set_self hi)
  · exact .inl (List.getElem?_set_ne hn)

/-- The parser writes NULs only, one of them at the end of the line. -/
theorem msgParse_bytes (msg : Msg) {mem : List Byte} (buffer : Nat) {stop : Nat}
    (hstop : stop < mem.length) :
    (∀ i < mem.length, (msgParse msg mem buffer stop).mem[i]? = mem[i]? ∨
        (msgParse msg mem buffer stop).mem[i]? = some 0) ∧
      (msgParse msg mem buffer stop).mem[stop]? = some 0 := by
  have hlen : (mem.set stop 0).length = mem.length := List.length_set
  have hend : (mem.set stop 0)[stop]? = some 0 := List.getElem?_set_self hstop
  simp only [msgParse]
  split
  · exact ⟨fun i hi => set_bytes hi, hend⟩
  · rename_i n _
    have hboth : (∀ i < mem.length, ((mem.set stop 0).set (buffer + n) 0)[i]? = mem[i]? ∨
          ((mem.set stop 0).set (buffer + n) 0)[i]? = some 0) ∧
        ((mem.set stop 0).set (buffer + n) 0)[stop]? = some 0 := by
      constructor
      · intro i hi
        rcases set_bytes (n := buffer + n) (hlen.symm ▸ hi) with hsame | hnul
        · rw [hsame]
          exact set_bytes hi
        · exact .inr hnul
      · rcases set_bytes (n := buffer + n) (hlen.symm ▸ hstop) with hsame | hnul
        · rw [hsame]
          exact hend
        · exact hnul
    split
    · exact hboth
    · exact hboth

/-- What is left of a line has no key. -/
theorem msgParse_spent (msg : Msg) (mem : List Byte) (buffer stop : Nat) :
    scanKey ((msgParse msg mem buffer stop).mem.drop buffer) = none := by
  cases hs : scanKey ((mem.set stop 0).drop buffer) with
  | none => simp only [msgParse, hs]
  | some n =>
    obtain ⟨k, rest, hdrop, -, hk⟩ := scanKey_some hs
    obtain ⟨pre, hpre, hparse⟩ := msgParse_at msg hdrop hk
    have hmem : (msgParse msg mem buffer stop).mem = pre ++ (k ++ 0 :: rest) := by
      rw [hparse]
      dsimp only
      split
      · rfl
      · rfl
    rw [hmem, ← hpre, List.drop_left]
    exact scanKey_nul hk rest

/-- One more NUL makes no key where there was none. -/
theorem scanKey_set {l : List Byte} (h : scanKey l = none) (n : Nat) : scanKey (l.set n 0) = none := by
  induction l generalizing n with
  | nil => rfl
  | cons b l ih =>
    cases n with
    | zero => rfl
    | succ n =>
      rw [List.set_cons_succ]
      unfold scanKey at h ⊢
      by_cases hkey : b ≠ ch ':' ∧ b ≠ 0
      · rw [if_pos hkey] at h ⊢
        by_cases hspace : b = ch ' '
        · rw [if_pos hspace]
        · rw [if_neg hspace, Option.map_eq_none_iff] at h
          rw [if_neg hspace, ih h n]
          rfl
      · rw [if_neg hkey] at h ⊢
        exact h

/-! ## The loop over the lines -/

/-- Nothing before the packet is written. -/
theorem segmentLoop_below (rounds : Nat) :
    ∀ (msg : Msg) (mem : List Byte) (buffer stop : Nat), stop < mem.length → ∀ i < buffer,
      (segmentLoop rounds msg mem buffer stop).2[i]? = mem[i]? := by
  induction rounds with
  | zero =>
    intro msg mem buffer stop _ i _
    rfl
  | succ rounds ih =>
    intro msg mem buffer stop hstop i hi
    rw [segmentLoop]
    by_cases hlt : buffer < stop
    · obtain ⟨hle, hend⟩ := statEnd_le mem hlt.le
      have hlen := msgParse_length msg mem buffer (statEnd mem buffer stop)
      rw [if_pos hlt]
      dsimp only
      rw [ih _ _ (statEnd mem buffer stop + 1) stop (by omega) i (by omega)]
      exact msgParse_frame msg hle (by omega) (.inl hi)
    · rw [if_neg hlt]

theorem statEnd_newline {mem : List Byte} {buffer stop i : Nat} (hb : buffer ≤ i)
    (hi : i < statEnd mem buffer stop) (hstop : statEnd mem buffer stop ≤ stop) :
    mem[i]? ≠ some (ch '\n') := by
  intro hnl
  have hat : ((mem.drop buffer).take (stop - buffer))[i - buffer]? = some (ch '\n') := by
    rw [List.getElem?_take_of_lt (by omega), List.getElem?_drop, Nat.add_sub_cancel' hb, hnl]
  have hidx : i - buffer < ((mem.drop buffer).take (stop - buffer)).findIdx (· == ch '\n') := by
    unfold statEnd List.idxOf at hi
    omega
  have hfirst := List.not_of_lt_findIdx hidx
  obtain ⟨hlt, heq⟩ := List.getElem?_eq_some_iff.mp hat
  rw [heq, beq_self_eq_true] at hfirst
  cases hfirst

/-- Each newline of the packet ended a line, so none is left. -/
theorem segmentLoop_newline (rounds : Nat) :
    ∀ (msg : Msg) (mem : List Byte) (buffer stop : Nat), stop < mem.length → stop - buffer ≤ rounds →
      ∀ i, buffer ≤ i → i < stop →
        (segmentLoop rounds msg mem buffer stop).2[i]? ≠ some (ch '\n') := by
  induction rounds with
  | zero =>
    intro msg mem buffer stop _ hrounds i hb hi
    omega
  | succ rounds ih =>
    intro msg mem buffer stop hstop hrounds i hb hi
    have hlt : buffer < stop := by omega
    obtain ⟨hle, hend⟩ := statEnd_le mem hlt.le
    have hlen := msgParse_length msg mem buffer (statEnd mem buffer stop)
    obtain ⟨hline, hnul⟩ :=
      msgParse_bytes msg buffer (by omega : statEnd mem buffer stop < mem.length)
    rw [segmentLoop, if_pos hlt]
    dsimp only
    by_cases hnext : statEnd mem buffer stop < i
    · exact ih _ _ (statEnd mem buffer stop + 1) stop (by omega) (by omega) i hnext hi
    · rw [segmentLoop_below rounds _ _ (statEnd mem buffer stop + 1) stop (by omega) i (by omega)]
      by_cases hat : i = statEnd mem buffer stop
      · rw [hat, hnul]
        decide
      · rcases hline i (by omega) with hsame | hzero
        · rw [hsame]
          exact statEnd_newline hb (by omega) hend
        · rw [hzero]
          decide

/-- Strings that are the same up to and including a NUL at `n`. -/
theorem agree_of_getElem? {v w : List Byte} {n : Nat} (hsame : ∀ i ≤ n, v[i]? = w[i]?)
    (hnul : v[n]? = some 0) : Agree v w := by
  induction n generalizing v w with
  | zero =>
    have hnul' := (hsame 0 (Nat.le_refl 0)).symm.trans hnul
    rw [← List.head?_eq_getElem?, List.head?_eq_some_iff] at hnul hnul'
    obtain ⟨v', rfl⟩ := hnul
    obtain ⟨w', rfl⟩ := hnul'
    exact .nul v' w'
  | succ n ih =>
    cases v with
    | nil => cases hnul
    | cons b v =>
      have hhead := hsame 0 (Nat.zero_le _)
      cases w with
      | nil => cases hhead
      | cons c w =>
        rw [List.getElem?_cons_zero, List.getElem?_cons_zero, Option.some.injEq] at hhead
        subst hhead
        exact .cons b (ih (fun i hi => hsame (i + 1) (by omega)) hnul)

/-- The first line is behind its NUL, and the others are behind it. -/
theorem segmentLoop_spent {rounds : Nat} (msg : Msg) {mem : List Byte} {buffer stop : Nat}
    (hstop : stop < mem.length) (hlt : buffer < stop) (hrounds : stop - buffer ≤ rounds) :
    scanKey ((segmentLoop rounds msg mem buffer stop).2.drop buffer) = none := by
  obtain ⟨n, rfl⟩ : ∃ n, rounds = n + 1 := ⟨rounds - 1, by omega⟩
  obtain ⟨hle, hend⟩ := statEnd_le mem hlt.le
  have hlen := msgParse_length msg mem buffer (statEnd mem buffer stop)
  have hnul := (msgParse_bytes msg buffer (by omega : statEnd mem buffer stop < mem.length)).2
  rw [segmentLoop, if_pos hlt]
  dsimp only
  rw [← msgParse_spent msg mem buffer (statEnd mem buffer stop)]
  refine (scanKey_agree (agree_of_getElem? (n := statEnd mem buffer stop - buffer) ?_ ?_)).symm
  · intro i hi
    rw [List.getElem?_drop, List.getElem?_drop]
    exact (segmentLoop_below n _ _ (statEnd mem buffer stop + 1) stop (by omega) (buffer + i)
      (by omega)).symm
  · rw [List.getElem?_drop, Nat.add_sub_cancel' hle]
    exact hnul

/-! ## The second run -/

/-- A packet without a newline and without a key is one refused line. -/
theorem segments_refused {mem : List Byte} {buffer stop : Nat} (hstop : stop < mem.length)
    (hlt : buffer < stop) (hnl : ∀ i, buffer ≤ i → i < stop → mem[i]? ≠ some (ch '\n'))
    (hkey : scanKey (mem.drop buffer) = none) :
    segments mem buffer stop = ([none], mem.set stop 0) := by
  have hline : ch '\n' ∉ (mem.drop buffer).take (stop - buffer) := by
    intro hmem
    obtain ⟨i, hi⟩ := List.mem_iff_getElem?.mp hmem
    have hlen := (List.getElem?_eq_some_iff.mp hi).1
    rw [List.length_take] at hlen
    rw [List.getElem?_take_of_lt (by omega), List.getElem?_drop] at hi
    exact hnl (buffer + i) (by omega) (by omega) hi
  have hend : statEnd mem buffer stop = stop := by
    rw [statEnd, List.idxOf_of_notMem hline, List.length_take, List.length_drop]
    omega
  have hscan : scanKey ((mem.set stop 0).drop buffer) = none := by
    rw [List.drop_set, if_neg (by omega)]
    exact scanKey_set hkey _
  obtain ⟨n, hn⟩ : ∃ n, stop - buffer = n + 1 := ⟨stop - buffer - 1, by omega⟩
  rw [segments, hn, segmentLoop, if_pos hlt, hend]
  simp only [msgParse, hscan]
  rw [segmentLoop_done n _ _ (by omega)]
  simp [Parsed.outcome]

theorem segments_consumed {mem : List Byte} (buffer : Nat) {stop : Nat} (hstop : stop < mem.length) :
    segments (segments mem buffer stop).2 buffer stop =
      if buffer < stop then ([none], (segments mem buffer stop).2.set stop 0)
      else ([], (segments mem buffer stop).2) := by
  by_cases hlt : buffer < stop
  · rw [if_pos hlt]
    refine segments_refused ?_ hlt ?_ ?_
    · rw [segments, segmentLoop_length]
      exact hstop
    · exact segmentLoop_newline _ _ _ _ _ hstop (Nat.le_refl _)
    · exact segmentLoop_spent _ hstop hlt (Nat.le_refl _)
  · rw [if_neg hlt, segments, segmentLoop_done _ _ _ (Nat.not_lt.mp hlt)]

/-- A consumed packet cannot be recorded again: a second run over the memory that the first one left,
whatever the server is by then, finds no line to accept. The one line it sees is an error. -/
theorem packet_consumed {server server' : Server} {mem mem' : List Byte} {buffer stop : Nat}
    (hstop : stop < mem.length) (hfirst : packetParse server mem buffer stop = some (server', mem')) :
    accepted mem' buffer stop = [] ∧
      ∀ server₁ : Server, packetParse server₁ mem' buffer stop =
        if buffer < stop then
          some (server₁.modifyLive fun live => { live with errors := live.errors + 1 },
            mem'.set stop 0)
        else some (server₁, mem') := by
  rw [packetParse_eq, Option.map_eq_some_iff] at hfirst
  obtain ⟨server₀, -, heq⟩ := hfirst
  rw [Prod.mk.injEq] at heq
  obtain ⟨-, rfl⟩ := heq
  have hsecond := segments_consumed buffer hstop
  by_cases hlt : buffer < stop
  · rw [if_pos hlt] at hsecond
    refine ⟨by rw [accepted, hsecond]; rfl, fun server₁ => ?_⟩
    rw [packetParse_eq, hsecond, if_pos hlt]
    rfl
  · rw [if_neg hlt] at hsecond
    refine ⟨by rw [accepted, hsecond]; rfl, fun server₁ => ?_⟩
    rw [packetParse_eq, hsecond, if_neg hlt]
    rfl

def twoLines : List Byte := str "a:1|c\nb:2|g".toList

theorem packet_consumed_two :
    ∃ server' mem',
      packetParse (Server.boot Server.defaultConfig) (twoLines ++ [0]) 0 11 = some (server', mem') ∧
        (accepted (twoLines ++ [0]) 0 11).map Reading.key = [str ['a'], str ['b']] ∧
        accepted mem' 0 11 = [] ∧
        packetParse server' mem' 0 11 =
          some (server'.modifyLive fun live => { live with errors := live.errors + 1 },
            mem'.set 11 0) := by
  have hfirst : ∃ out,
      packetParse (Server.boot Server.defaultConfig) (twoLines ++ [0]) 0 11 = some out := ⟨_, rfl⟩
  obtain ⟨⟨server', mem'⟩, hfirst⟩ := hfirst
  obtain ⟨hnone, hagain⟩ := packet_consumed (by decide) hfirst
  exact ⟨server', mem', hfirst, by decide, hnone, (hagain server').trans (if_pos (by decide))⟩

end Statsd
end Brubeck
