import Brubeck.Statsd.Locality

/-!
# Brubeck.Statsd.Reads

What `brubeck_statsd_msg_parse` reads, and what it depends on.

`Guarded` has the parser once more, with a guard on every read: the bytes from a pointer on are those
up to the end of the line, and a read behind them, or before the buffer, has no result. The NUL at the
end of the line stops every part that reads on (`Guarded.parseBody_eq`), so all that can go wrong is the
look-behind at the key's last byte.

`parse_local_iff`: the guard never strikes, and nothing around the line has an influence on the return
code or the message, exactly when the key's length, as a `uint16_t`, is not zero.
-/

namespace Brubeck
namespace Statsd

open Lib

namespace Guarded

def digitLoop (value : ℚ) : List Byte → Option (ℚ × List Byte)
  | [] => none
  | b :: bs =>
    if isDigit b then digitLoop (value * 10 + (b.toNat - 48 : Nat)) bs else some (value, b :: bs)

def fracLoop (f : ℚ) (n : Nat) : List Byte → Option (ℚ × Nat × List Byte)
  | [] => none
  | b :: bs =>
    if isDigit b then fracLoop (f * 10 + (b.toNat - 48 : Nat)) (n + 1) bs else some (f, n, b :: bs)

/-- The library function takes a string, and may read all of it. -/
def strtod (start : List Byte) : Option (ℚ × List Byte) :=
  if (0 : Byte) ∈ start then some (Lib.strtod start) else none

def parseFloat (buffer : List Byte) (mods : UInt8) : Option (ℚ × UInt8 × List Byte) := do
  let start := buffer
  let first ← buffer.head?
  let (negative, mods, buffer) :=
    if first = ch '-' then (true, mods ||| MOD_RELATIVE_VALUE, buffer.tail)
    else if first = ch '+' then (false, mods ||| MOD_RELATIVE_VALUE, buffer.tail)
    else (false, mods, buffer)
  let (value, buffer) ← digitLoop 0 buffer
  let dot ← buffer.head?
  let (value, buffer) ←
    if dot = ch '.' then
      (fracLoop 0 0 buffer.tail).map fun (f, n, buffer) => (value + f / 10 ^ n, buffer)
    else some (value, buffer)
  let value := if negative then -value else value
  let mark ← buffer.head?
  if isExpMark mark then (strtod start).map fun (value, buffer) => (value, mods, buffer)
  else some (value, mods, buffer)

/-- The result of a read that went well is `none` for a bad type. -/
def parseType (buffer : List Byte) : Option (Option (MetricType × List Byte)) := do
  let first ← buffer.head?
  if first = ch 'g' then some (some (.gauge, buffer.tail))
  else if first = ch 'c' then some (some (.meter, buffer.tail))
  else if first = ch 'C' then some (some (.counter, buffer.tail))
  else if first = ch 'h' then some (some (.histo, buffer.tail))
  else if first = ch 'm' then do
    let second ← buffer.tail.head?
    some (if second = ch 's' then some (.timer, buffer.tail.tail) else none)
  else some none

def parseRate (buffer : List Byte) : Option (Option (Value × List Byte)) := do
  let first ← buffer.head?
  let trailer ← if first = ch '|' then buffer.tail.head?.map (fun b => decide (b = ch '@')) else some false
  if trailer then do
    let (sample_rate, _, buffer) ← parseFloat buffer.tail.tail 0
    some (if sample_rate ≤ 0 ∨ 1 < sample_rate then none else some (1 / sample_rate, buffer))
  else some (some (1, buffer))

def atEnd (buffer : List Byte) : Option Bool := do
  let first ← buffer.head?
  if first = 0 then some true
  else if first = ch '\n' then buffer.tail.head?.map (fun b => decide (b = 0))
  else some false

def parseBody (msg : Msg) (buffer : List Byte) : Option (Int × Msg) := do
  let (value, modifiers, buffer) ← parseFloat buffer 0
  let msg := { msg with value := value, modifiers := modifiers }
  let bar ← buffer.head?
  if bar ≠ ch '|' then some (-1, msg)
  else
    match ← parseType buffer.tail with
    | none => some (-1, msg)
    | some (type, buffer) =>
      let msg := { msg with type := type }
      match ← parseRate buffer with
      | none => some (-1, msg)
      | some (sample_freq, buffer) => do
        let done ← atEnd buffer
        some (if done then 0 else -1, { msg with sample_freq := sample_freq })

/-- The result of reads that went well is `none` for a line without a key. -/
def scanKey : List Byte → Option (Option Nat)
  | [] => none
  | b :: bs =>
    if b ≠ ch ':' ∧ b ≠ 0 then
      if b = ch ' ' then some none else (scanKey bs).map fun n => n.map (· + 1)
    else if b = 0 then some none
    else some (some 0)

/-- `msg->key[msg->key_len - 1]`. -/
def lookBehind (mem : List Byte) (msg : Msg) (buffer stop : Nat) : Option Byte :=
  let address : Int := msg.key + msg.key_len - 1
  if buffer ≤ address ∧ address ≤ stop then mem[address.toNat]? else none

/-- `brubeck_statsd_msg_parse`, with no read outside `[buffer, end]`. -/
def msgParse (msg : Msg) (mem : List Byte) (buffer stop : Nat) : Option Parsed := do
  let mem := mem.set stop 0
  let msg := { msg with key := buffer, key_len := 0 }
  match ← scanKey ((mem.take (stop + 1)).drop buffer) with
  | none => some ⟨-1, msg, mem⟩
  | some n =>
    let msg := { msg with key_len := n % 2 ^ 16 }
    let mem := mem.set (buffer + n) 0
    let last ← lookBehind mem msg buffer stop
    if last = ch '.' then some ⟨-1, msg, mem⟩
    else
      (parseBody msg ((mem.take (stop + 1)).drop (buffer + n + 1))).map
        fun (rc, msg) => ⟨rc, msg, mem⟩

/-! ## The NUL stops every part -/

theorem head?_eq {l : List Byte} (h : (0 : Byte) ∈ l) : l.head? = some (cur l) := by
  cases l with
  | nil => cases h
  | cons b bs => rfl

theorem mem_tail {l : List Byte} (h : (0 : Byte) ∈ l) (h0 : cur l ≠ 0) : (0 : Byte) ∈ l.tail := by
  cases l with
  | nil => cases h
  | cons b bs => exact (List.mem_cons.mp h).resolve_left (Ne.symm h0)

theorem digitLoop_eq (value : ℚ) {l : List Byte} (h : (0 : Byte) ∈ l) :
    digitLoop value l = some (Statsd.digitLoop value l) ∧
      (0 : Byte) ∈ (Statsd.digitLoop value l).2 := by
  induction l generalizing value with
  | nil => cases h
  | cons b bs ih =>
    unfold digitLoop Statsd.digitLoop
    by_cases hb : isDigit b = true
    · have hne : b ≠ 0 := by
        rintro rfl
        exact absurd hb (by decide)
      simp only [hb, if_true]
      exact ih _ (mem_tail h hne)
    · simp only [hb, if_false, Bool.false_eq_true, true_and]
      exact h

theorem fracLoop_eq (f : ℚ) (n : Nat) {l : List Byte} (h : (0 : Byte) ∈ l) :
    fracLoop f n l = some (Statsd.fracLoop f n l) ∧
      (0 : Byte) ∈ (Statsd.fracLoop f n l).2.2 := by
  induction l generalizing f n with
  | nil => cases h
  | cons b bs ih =>
    unfold fracLoop Statsd.fracLoop
    by_cases hb : isDigit b = true
    · have hne : b ≠ 0 := by
        rintro rfl
        exact absurd hb (by decide)
      simp only [hb, if_true]
      exact ih _ _ (mem_tail h hne)
    · simp only [hb, if_false, Bool.false_eq_true, true_and]
      exact h

/-- A string with a NUL agrees with itself. -/
theorem agree_self {l : List Byte} (h : (0 : Byte) ∈ l) : Agree l l := by
  obtain ⟨u, v, rfl⟩ := List.append_of_mem h
  exact .of_append u v v

theorem mem_of_agree {v w : List Byte} (h : Agree v w) : (0 : Byte) ∈ v := by
  induction h with
  | nul v w => exact List.mem_cons_self
  | cons b h ih => exact List.mem_cons_of_mem b ih

theorem strtod_eq {l : List Byte} (h : (0 : Byte) ∈ l) : strtod l = some (Lib.strtod l) := if_pos h

theorem parseFloat_eq {l : List Byte} (h : (0 : Byte) ∈ l) (mods : UInt8) :
    parseFloat l mods = some (Statsd.parseFloat l mods) ∧
      (0 : Byte) ∈ (Statsd.parseFloat l mods).2.2 := by
  constructor
  · have hsign : (0 : Byte) ∈ (if cur l = ch '-' then (true, mods ||| MOD_RELATIVE_VALUE, l.tail)
        else if cur l = ch '+' then (false, mods ||| MOD_RELATIVE_VALUE, l.tail)
        else (false, mods, l)).2.2 := by
      split
      · rename_i hminus
        exact mem_tail h (by rw [hminus]; decide)
      · split
        · rename_i hplus
          exact mem_tail h (by rw [hplus]; decide)
        · exact h
    simp only [parseFloat, Statsd.parseFloat, head?_eq h, Option.bind_eq_bind, Option.bind_some]
    generalize (if cur l = ch '-' then (true, mods ||| MOD_RELATIVE_VALUE, l.tail)
        else if cur l = ch '+' then (false, mods ||| MOD_RELATIVE_VALUE, l.tail)
        else (false, mods, l)) = signed at hsign ⊢
    obtain ⟨hdigits, hrest⟩ := digitLoop_eq 0 hsign
    simp only [hdigits, Option.bind_some, head?_eq hrest]
    generalize Statsd.digitLoop 0 signed.2.2 = whole at hrest ⊢
    by_cases hdot : cur whole.2 = ch '.'
    · obtain ⟨hfrac, hlast⟩ := fracLoop_eq 0 0 (mem_tail hrest (by rw [hdot]; decide))
      simp only [hdot, if_true, hfrac, Option.map_some, Option.bind_some, head?_eq hlast, strtod_eq h]
      split
      · rfl
      · rfl
    · simp only [hdot, if_false, strtod_eq h, Option.map_some]
      split
      · rfl
      · rfl
  · obtain ⟨value, mods', v, w, hv, -, hagree⟩ := parseFloat_agree (agree_self h) mods
    rw [hv]
    exact mem_of_agree hagree

theorem parseType_eq {l : List Byte} (h : (0 : Byte) ∈ l) : parseType l = some (Statsd.parseType l) := by
  unfold parseType Statsd.parseType
  simp only [head?_eq h, Option.bind_eq_bind, Option.bind_some]
  by_cases hm : cur l = ch 'm'
  · have htail := mem_tail h (by rw [hm]; decide)
    simp only [hm, head?_eq htail, Option.bind_some, if_true]
    rfl
  · simp only [hm, if_false]
    repeat' split
    all_goals rfl

theorem parseRate_eq {l : List Byte} (h : (0 : Byte) ∈ l) : parseRate l = some (Statsd.parseRate l) := by
  unfold parseRate Statsd.parseRate
  simp only [head?_eq h, Option.bind_eq_bind, Option.bind_some]
  by_cases hbar : cur l = ch '|'
  · have htail := mem_tail h (by rw [hbar]; decide)
    simp only [hbar, head?_eq htail, if_true, Option.map_some, Option.bind_some, true_and]
    by_cases hat : cur l.tail = ch '@'
    · obtain ⟨hfloat, -⟩ := parseFloat_eq (mem_tail htail (by rw [hat]; decide)) 0
      simp only [hat, decide_true, if_true, hfloat, Option.bind_some]
    · simp only [hat, decide_false, if_false, Bool.false_eq_true]
  · simp only [hbar, if_false, false_and, Bool.false_eq_true]

theorem atEnd_eq {l : List Byte} (h : (0 : Byte) ∈ l) : atEnd l = some (Statsd.atEnd l) := by
  unfold atEnd Statsd.atEnd
  simp only [head?_eq h, Option.bind_eq_bind, Option.bind_some]
  by_cases hnul : cur l = 0
  · simp [hnul]
  · by_cases hnl : cur l = ch '\n'
    · have htail := mem_tail h hnul
      simp [hnl, head?_eq htail, show ch '\n' ≠ 0 by decide]
    · simp [hnul, hnl]

theorem parseBody_eq (msg : Msg) {l : List Byte} (h : (0 : Byte) ∈ l) :
    parseBody msg l = some (Statsd.parseBody msg l) := by
  obtain ⟨hfloat, hrest⟩ := parseFloat_eq h 0
  unfold parseBody Statsd.parseBody
  simp only [hfloat, Option.bind_eq_bind, Option.bind_some]
  generalize Statsd.parseFloat l 0 = x at hrest ⊢
  simp only [head?_eq hrest, Option.bind_some]
  by_cases hbar : cur x.2.2 = ch '|'
  · have htail := mem_tail hrest (by rw [hbar]; decide)
    have htype := parseType_agree (agree_self htail)
    simp only [hbar, ne_eq, not_true, if_false, parseType_eq htail, Option.bind_some]
    generalize Statsd.parseType x.2.2.tail = found at htype ⊢
    cases htype with
    | none => rfl
    | some hsame =>
      have hmem := mem_of_agree hsame.rest
      rename_i typed
      have hrate := parseRate_agree (agree_self hmem)
      simp only [parseRate_eq hmem, Option.bind_some]
      generalize Statsd.parseRate typed.2 = rated at hrate ⊢
      cases hrate with
      | none => rfl
      | some hsame => simp only [atEnd_eq (mem_of_agree hsame.rest), Option.bind_some]
  · simp only [hbar, ne_eq, not_false_eq_true, if_true]

theorem scanKey_eq {l : List Byte} (h : (0 : Byte) ∈ l) : scanKey l = some (Statsd.scanKey l) := by
  induction l with
  | nil => cases h
  | cons b bs ih =>
    unfold scanKey Statsd.scanKey
    by_cases hkey : b ≠ ch ':' ∧ b ≠ 0
    · simp only [if_pos hkey, ih (mem_tail h hkey.2), Option.map_some]
      split
      · rfl
      · rfl
    · simp only [if_neg hkey]
      split
      · rfl
      · rfl

/-- What may be read of a memory: everything up to the end of the line. -/
theorem take_line (pre m post : List Byte) {n : Nat} (h : n = pre.length + m.length) :
    (pre ++ (m ++ 0 :: post)).take (n + 1) = pre ++ (m ++ [0]) := by
  have hsplit : pre ++ (m ++ 0 :: post) = (pre ++ (m ++ [0])) ++ post := by simp
  have hlen : n + 1 = (pre ++ (m ++ [0])).length := by
    rw [h]
    simp [Nat.add_assoc]
  rw [hsplit, hlen, List.take_left]

/-- Behind a key whose length is not zero, the look-behind stays in the line. -/
theorem lookBehind_eq (msg : Msg) (pre k rest post : List Byte) (hzero : k.length % 2 ^ 16 ≠ 0) :
    lookBehind (pre ++ (k ++ 0 :: rest ++ 0 :: post))
        { msg with key := pre.length, key_len := k.length % 2 ^ 16 } pre.length
        (pre.length + (k ++ ch ':' :: rest).length) =
      some ((pre ++ (k ++ 0 :: (rest ++ 0 :: post))).getD (pre.length + k.length % 2 ^ 16 - 1) 0) := by
  have hmod : k.length % 2 ^ 16 ≤ k.length := Nat.mod_le _ _
  have haddr : ((pre.length : Int) + (k.length % 2 ^ 16 : Nat) - 1).toNat =
      pre.length + k.length % 2 ^ 16 - 1 := by omega
  rw [lookBehind]
  dsimp only
  rw [if_pos (by simp; omega), haddr, List.getD_eq_getElem?_getD, List.append_assoc k, List.cons_append,
    List.getElem?_eq_getElem (by simp; omega)]
  rfl

/-- The guarded parser on a line that has a key. -/
theorem msgParse_key (msg : Msg) (pre post : List Byte) (x : Byte) {k rest : List Byte}
    (hk : ∀ b ∈ k, KeyByte b) :
    msgParse msg (pre ++ (k ++ ch ':' :: rest ++ x :: post)) pre.length
        (pre.length + (k ++ ch ':' :: rest).length) =
      if k.length % 2 ^ 16 = 0 then none
      else some (Statsd.msgParse msg (pre ++ (k ++ ch ':' :: rest ++ x :: post)) pre.length
        (pre.length + (k ++ ch ':' :: rest).length)) := by
  have hset : (pre ++ (k ++ ch ':' :: rest ++ x :: post)).set
      (pre.length + (k ++ ch ':' :: rest).length) 0 = pre ++ (k ++ ch ':' :: rest ++ 0 :: post) := by simp
  have hset' : (pre ++ (k ++ ch ':' :: rest ++ x :: post)).set
      (pre.length + (k ++ ch ':' :: rest).length) 0 = pre ++ (k ++ ch ':' :: (rest ++ 0 :: post)) := by
    rw [hset]
    simp
  have hwindow : ((pre ++ (k ++ ch ':' :: rest ++ 0 :: post)).take
      (pre.length + (k ++ ch ':' :: rest).length + 1)).drop pre.length = k ++ ch ':' :: (rest ++ [0]) := by
    rw [take_line _ _ _ rfl, List.drop_left]
    simp
  have hscan : scanKey (k ++ ch ':' :: (rest ++ [0])) = some (some k.length) := by
    rw [scanKey_eq (by simp), scanKey_append hk]
  have hcolon : (pre ++ (k ++ ch ':' :: rest ++ 0 :: post)).set (pre.length + k.length) 0 =
      pre ++ (k ++ 0 :: rest ++ 0 :: post) := by simp
  have hbody : ((pre ++ (k ++ 0 :: rest ++ 0 :: post)).take
      (pre.length + (k ++ ch ':' :: rest).length + 1)).drop (pre.length + k.length + 1) = rest ++ [0] := by
    rw [take_line _ _ _ (by simp), Nat.add_assoc, ← List.drop_drop, List.drop_left]
    simp
  simp only [msgParse, hset, hwindow, hscan, Option.bind_eq_bind, Option.bind_some, hcolon, hbody]
  by_cases hzero : k.length % 2 ^ 16 = 0
  · rw [if_pos hzero, lookBehind, if_neg (by simp only; omega)]
    rfl
  · have hnul : (0 : Byte) ∈ rest ++ [0] := by simp
    rw [if_neg hzero, lookBehind_eq msg pre k rest post hzero, Statsd.msgParse_key hset' hk]
    simp only [parseBody_agree _ (.of_append rest post []), parseBody_eq _ hnul, Option.bind_some,
      Option.map_some, List.append_assoc, List.cons_append]
    split
    · rfl
    · rfl

/-- Without a key, the line is refused, and read to its end at most. -/
theorem msgParse_noKey (msg : Msg) (pre post : List Byte) (x : Byte) {m : List Byte}
    (hm : Statsd.scanKey (m ++ [0]) = none) :
    Statsd.msgParse msg (pre ++ (m ++ x :: post)) pre.length (pre.length + m.length) =
        ⟨-1, { msg with key := pre.length, key_len := 0 }, pre ++ (m ++ 0 :: post)⟩ ∧
      msgParse msg (pre ++ (m ++ x :: post)) pre.length (pre.length + m.length) =
        some ⟨-1, { msg with key := pre.length, key_len := 0 }, pre ++ (m ++ 0 :: post)⟩ := by
  have hset : (pre ++ (m ++ x :: post)).set (pre.length + m.length) 0 = pre ++ (m ++ 0 :: post) := by simp
  have hscan : Statsd.scanKey (m ++ 0 :: post) = none := by
    rw [scanKey_agree (.of_append m post []), hm]
  have hnul : (0 : Byte) ∈ m ++ [0] := by simp
  constructor
  · simp only [Statsd.msgParse, hset, List.drop_left, hscan]
  · simp only [msgParse, hset, take_line pre m post rfl, List.drop_left, scanKey_eq hnul, hm,
      Option.bind_eq_bind, Option.bind_some]

end Guarded

/-! ## What a line depends on -/

/-- If the message has a key (bytes that are no space and no NUL, with a colon after them), then the
key's length is not zero as a `uint16_t`. -/
def KeyInside (m : List Byte) : Prop :=
  ∀ k rest, m = k ++ ch ':' :: rest → (∀ b ∈ k, KeyByte b) → k.length % 2 ^ 16 ≠ 0

/-- The same return code and message in every memory that holds the message at the same address. -/
def Local (m : List Byte) : Prop :=
  ∀ (msg : Msg) (pre pre' post post' : List Byte) (x x' : Byte), pre.length = pre'.length →
    (msgParse msg (pre ++ (m ++ x :: post)) pre.length (pre.length + m.length)).rc =
        (msgParse msg (pre' ++ (m ++ x' :: post')) pre'.length (pre'.length + m.length)).rc ∧
      (msgParse msg (pre ++ (m ++ x :: post)) pre.length (pre.length + m.length)).msg =
        (msgParse msg (pre' ++ (m ++ x' :: post')) pre'.length (pre'.length + m.length)).msg

/-- Every read is between the buffer and the end of the line. -/
def Inside (m : List Byte) : Prop :=
  ∀ (msg : Msg) (pre post : List Byte) (x : Byte),
    Guarded.msgParse msg (pre ++ (m ++ x :: post)) pre.length (pre.length + m.length) =
      some (msgParse msg (pre ++ (m ++ x :: post)) pre.length (pre.length + m.length))

/-- A line either has a key, or none is found in it. -/
theorem key_cases (m : List Byte) :
    (∃ k rest, m = k ++ ch ':' :: rest ∧ ∀ b ∈ k, KeyByte b) ∨ scanKey (m ++ [0]) = none := by
  cases hs : scanKey (m ++ [0]) with
  | none => exact .inr rfl
  | some n =>
    obtain ⟨k, rest, heq, rfl, hk⟩ := scanKey_some hs
    have hlt := scanKey_lt hs
    cases rest using List.reverseRecOn with
    | nil =>
      have hlast := congrArg List.getLast? heq
      rw [List.getLast?_concat, List.getLast?_concat] at hlast
      exact absurd (Option.some.inj hlast) (by decide)
    | append_singleton rest b =>
      have hinj := List.append_inj' (heq.trans (by simp : k ++ ch ':' :: (rest ++ [b]) =
        (k ++ ch ':' :: rest) ++ [b])) rfl
      exact .inl ⟨k, rest, hinj.1, hk⟩

theorem parseBody_modifiers (msg : Msg) (l : List Byte) :
    (parseBody msg l).2.modifiers = (parseFloat l 0).2.1 := by
  unfold parseBody
  generalize parseFloat l 0 = r
  dsimp only
  split
  · rfl
  split
  · rfl
  split
  · rfl
  · rfl

theorem getD_inside (pre k w : List Byte) {j : Nat} (hj : j < k.length) :
    (pre ++ (k ++ w)).getD (pre.length + j) 0 = k.getD j 0 := by
  rw [List.getD_append_right _ _ _ _ (Nat.le_add_right _ _), Nat.add_sub_cancel_left,
    List.getD_append _ _ _ _ hj]

theorem local_of_inside {m : List Byte} (h : KeyInside m) : Local m := by
  intro msg pre pre' post post' x x' hlen
  rcases key_cases m with ⟨k, rest, rfl, hk⟩ | hnone
  · have hpos := h k rest rfl hk
    have hmod : k.length % 2 ^ 16 ≤ k.length := Nat.mod_le _ _
    have hset : ∀ (p w : List Byte) (y : Byte), (p ++ (k ++ ch ':' :: rest ++ y :: w)).set
        (p.length + (k ++ ch ':' :: rest).length) 0 = p ++ (k ++ ch ':' :: (rest ++ 0 :: w)) := by
      intro p w y
      rw [List.set_append_right _ _ (Nat.le_add_right _ _), Nat.add_sub_cancel_left]
      simp
    have hlook : ∀ p w : List Byte, (p ++ (k ++ 0 :: w)).getD (p.length + k.length % 2 ^ 16 - 1) 0 =
        k.getD (k.length % 2 ^ 16 - 1) 0 := by
      intro p w
      rw [Nat.add_sub_assoc (by omega), getD_inside p k _ (by omega)]
    rw [msgParse_key (hset pre post x) hk, msgParse_key (hset pre' post' x') hk]
    simp only [hlook]
    by_cases hdot : k.getD (k.length % 2 ^ 16 - 1) 0 = ch '.'
    · simp only [if_pos hdot, hlen, and_self]
    · simp only [if_neg hdot, hlen, parseBody_agree _ (.of_append rest post post'), and_self]
  · rw [(Guarded.msgParse_noKey msg pre post x hnone).1, (Guarded.msgParse_noKey msg pre' post' x' hnone).1,
      hlen]
    exact ⟨rfl, rfl⟩

/-- With an empty key (up to `2 ^ 16`), the byte before the buffer decides: after a dot nothing more of
the message is set. -/
theorem not_local {k rest : List Byte} (hk : ∀ b ∈ k, KeyByte b) (hzero : k.length % 2 ^ 16 = 0) :
    ¬ Local (k ++ ch ':' :: rest) := by
  intro h
  have hset : ∀ (b : Byte), ([b] ++ (k ++ ch ':' :: rest ++ 0 :: [])).set
      ([b].length + (k ++ ch ':' :: rest).length) 0 = [b] ++ (k ++ ch ':' :: (rest ++ [0])) := by
    intro b
    rw [List.set_append_right _ _ (Nat.le_add_right _ _), Nat.add_sub_cancel_left]
    simp
  have hlook : ∀ b : Byte,
      ([b] ++ (k ++ 0 :: (rest ++ [0]))).getD ([b].length + k.length % 2 ^ 16 - 1) 0 = b := by
    intro b
    rw [hzero]
    rfl
  -- a message whose modifiers are not those of the line
  obtain ⟨msg, hmods⟩ : ∃ msg : Msg, msg.modifiers ≠ (parseFloat (rest ++ [0]) 0).2.1 :=
    ⟨{ Msg.blank with modifiers := (parseFloat (rest ++ [0]) 0).2.1 + 1 }, by simp⟩
  obtain ⟨-, hmsg⟩ := h msg [ch '.'] [ch 'a'] [] [] 0 0 rfl
  rw [msgParse_key (hset (ch '.')) hk, msgParse_key (hset (ch 'a')) hk] at hmsg
  simp only [hlook, if_true, show ch 'a' ≠ ch '.' by decide, if_false] at hmsg
  have hfield := congrArg Msg.modifiers hmsg
  rw [parseBody_modifiers] at hfield
  exact hmods hfield

/-- The return code and the message depend on the message's bytes only, and nothing but them and the
NUL behind them is read, exactly when the key's length is not zero as a `uint16_t`. -/
theorem parse_local_iff (m : List Byte) : (Local m ↔ KeyInside m) ∧ (Inside m ↔ KeyInside m) := by
  refine ⟨⟨?_, local_of_inside⟩, ⟨?_, ?_⟩⟩
  · intro hlocal k rest heq hk hzero
    subst heq
    exact not_local hk hzero hlocal
  · intro hinside k rest heq hk hzero
    subst heq
    have hguard := hinside Msg.blank [] [] 0
    rw [Guarded.msgParse_key _ _ _ _ hk, if_pos hzero] at hguard
    cases hguard
  · intro h msg pre post x
    rcases key_cases m with ⟨k, rest, rfl, hk⟩ | hnone
    · rw [Guarded.msgParse_key msg pre post x hk, if_neg (h k rest rfl hk)]
    · obtain ⟨hparse, hguard⟩ := Guarded.msgParse_noKey msg pre post x hnone
      rw [hparse, hguard]

/-- The payload `:1|c` of a secure packet, behind two headers that differ in the last byte of the
nonce: one is refused, the other is accepted. -/
theorem nonce_decides :
    (msgParse .blank (List.replicate 43 0 ++ [ch '.'] ++ (str ":1|c".toList ++ [0])) 44 48).rc = -1 ∧
      (msgParse .blank (List.replicate 43 0 ++ [ch 'a'] ++ (str ":1|c".toList ++ [0])) 44 48).rc = 0 ∧
      Guarded.msgParse .blank (List.replicate 43 0 ++ [ch 'a'] ++ (str ":1|c".toList ++ [0])) 44 48 =
        none := by
  refine ⟨?_, ?_, ?_⟩
  · decide +kernel
  · decide +kernel
  · decide +kernel

end Statsd
end Brubeck
