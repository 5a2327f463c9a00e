import Brubeck.Lib.Bytes
import Mathlib.Data.List.Induction

/-!
# Lib.Pickle

The part of the pickle stack machine that lists of tuples of strings and numbers need, and streams
of pickles framed by a four-byte big-endian length.

* `exec`, `load`: the machine, one opcode and a whole pickle.
* `Exec`: a run of opcodes that takes the machine from one state to another, whatever follows it.
  `Exec.trans` composes them; `loadList_of_exec` ends one with the stop opcode.
* `decodeStream`: the lists of all frames of a stream, joined. `decodeStream_frames` reads back a
  stream that is a concatenation of frames.
* `readStream`: the same for a stream that may end inside a frame. `readStream_frames` reads back the
  frames before it.
-/

namespace Lib
namespace Pickle

inductive Val where
  | str (bs : List Byte)
  | int (z : Int)
  | float (bits : Nat)
  | tuple (xs : List Val)
  | list (xs : List Val)

inductive Item where
  | mark
  | val (v : Val)

structure Machine where
  stack : List Item
  memo : List (Byte × Val)

/-- The values above the topmost mark, in the order they were pushed, and what is below it. -/
def popMark : List Item → List Val → Option (List Val × List Item)
  | [], _ => none
  | .mark :: st, acc => some (acc, st)
  | .val v :: st, acc => popMark st (v :: acc)

def Machine.push (m : Machine) (v : Val) : Machine := { m with stack := .val v :: m.stack }

/-- Put the top of the stack into the memo, under the index byte that follows. -/
def put (m : Machine) : List Byte → Option (Machine × List Byte)
  | [] => none
  | i :: bs =>
    match m.stack with
    | .val v :: _ => some ({ m with memo := (i, v) :: m.memo }, bs)
    | _ => none

def pushStr (m : Machine) : List Byte → Option (Machine × List Byte)
  | [] => none
  | n :: bs =>
    if bs.length < n.toNat then none else some (m.push (.str (bs.take n.toNat)), bs.drop n.toNat)

def tuple (m : Machine) : Option Machine :=
  match popMark m.stack [] with
  | none => none
  | some (xs, st) => some { m with stack := .val (.tuple xs) :: st }

def appends (m : Machine) : Option Machine :=
  match popMark m.stack [] with
  | some (xs, .val (.list ys) :: st) => some { m with stack := .val (.list (ys ++ xs)) :: st }
  | _ => none

/-- One opcode other than the stop opcode. -/
def exec (op : Byte) (bs : List Byte) (m : Machine) : Option (Machine × List Byte) :=
  if op = ch ']' then some (m.push (.list []), bs)
  else if op = ch 'q' then put m bs
  else if op = ch '(' then some ({ m with stack := .mark :: m.stack }, bs)
  else if op = ch 'U' then pushStr m bs
  else if op = ch 'J' then
    if bs.length < 4 then none else some (m.push (.int (i32 (leNat (bs.take 4)))), bs.drop 4)
  else if op = ch 'G' then
    if bs.length < 8 then none else some (m.push (.float (beNat (bs.take 8))), bs.drop 8)
  else if op = ch 't' then (tuple m).map (·, bs)
  else if op = ch 'e' then (appends m).map (·, bs)
  else none

/-- Run to the stop opcode: the stack there, and the bytes after it. -/
def loadLoop : Nat → List Byte → Machine → Option (List Item × List Byte)
  | 0, _, _ => none
  | fuel + 1, bs, m =>
    match bs with
    | [] => none
    | op :: bs =>
      if op = ch '.' then some (m.stack, bs)
      else
        match exec op bs m with
        | none => none
        | some (m, bs) => loadLoop fuel bs m

def load (bs : List Byte) : Option (List Item × List Byte) := loadLoop bs.length bs ⟨[], []⟩

/-- The list a payload holds, when it is consumed exactly up to its stop opcode and leaves exactly
that list. -/
def loadList (bs : List Byte) : Option (List Val) :=
  match load bs with
  | some ([.val (.list xs)], []) => some xs
  | _ => none

/-! ## One opcode -/

theorem exec_emptyList (bs : List Byte) (m : Machine) :
    exec (ch ']') bs m = some (m.push (.list []), bs) := rfl

theorem exec_put (i : Byte) (bs : List Byte) (v : Val) (st : List Item)
    (memo : List (Byte × Val)) :
    exec (ch 'q') (i :: bs) ⟨.val v :: st, memo⟩ = some (⟨.val v :: st, (i, v) :: memo⟩, bs) := rfl

theorem exec_mark (bs : List Byte) (m : Machine) :
    exec (ch '(') bs m = some ({ m with stack := .mark :: m.stack }, bs) := rfl

theorem exec_str {n : Byte} {s : List Byte} (hn : s.length = n.toNat) (bs : List Byte)
    (m : Machine) : exec (ch 'U') (n :: (s ++ bs)) m = some (m.push (.str s), bs) := by
  show pushStr m (n :: (s ++ bs)) = _
  simp [pushStr, ← hn]

theorem exec_int {s : List Byte} (hs : s.length = 4) (bs : List Byte) (m : Machine) :
    exec (ch 'J') (s ++ bs) m = some (m.push (.int (i32 (leNat s))), bs) := by
  show (if (s ++ bs).length < 4 then none else _) = _
  simp [← hs]

theorem exec_float {s : List Byte} (hs : s.length = 8) (bs : List Byte) (m : Machine) :
    exec (ch 'G') (s ++ bs) m = some (m.push (.float (beNat s)), bs) := by
  show (if (s ++ bs).length < 8 then none else _) = _
  simp [← hs]

theorem popMark_vals (xs : List Val) (st : List Item) (acc : List Val) :
    popMark ((xs.map .val).reverse ++ .mark :: st) acc = some (xs ++ acc, st) := by
  induction xs using List.reverseRecOn generalizing acc with
  | nil => rfl
  | append_singleton xs x ih => simp [popMark, ih]

theorem exec_tuple (xs : List Val) (st : List Item) (memo : List (Byte × Val)) (bs : List Byte) :
    exec (ch 't') bs ⟨(xs.map .val).reverse ++ .mark :: st, memo⟩ =
      some (⟨.val (.tuple xs) :: st, memo⟩, bs) := by
  show (tuple _).map (·, bs) = _
  simp [tuple, popMark_vals]

theorem exec_appends (xs ys : List Val) (st : List Item) (memo : List (Byte × Val))
    (bs : List Byte) :
    exec (ch 'e') bs ⟨(xs.map .val).reverse ++ .mark :: .val (.list ys) :: st, memo⟩ =
      some (⟨.val (.list (ys ++ xs)) :: st, memo⟩, bs) := by
  show (appends _).map (·, bs) = _
  simp [appends, popMark_vals]

/-! ## Runs of opcodes -/

/-- `bs` is `n` opcodes, at most one a byte, that take the machine from `m` to `m'`. -/
def Exec (n : Nat) (bs : List Byte) (m m' : Machine) : Prop :=
  n ≤ bs.length ∧
    ∀ fuel rest, loadLoop (n + fuel) (bs ++ rest) m = loadLoop fuel rest m'

theorem Exec.nil (m : Machine) : Exec 0 [] m m := ⟨Nat.le_refl _, fun fuel rest => by simp⟩

theorem Exec.trans {n n' : Nat} {bs bs' : List Byte} {m m' m'' : Machine} (h : Exec n bs m m')
    (h' : Exec n' bs' m' m'') : Exec (n + n') (bs ++ bs') m m'' := by
  refine ⟨by rw [List.length_append]; exact Nat.add_le_add h.1 h'.1, fun fuel rest => ?_⟩
  rw [Nat.add_assoc, List.append_assoc, h.2, h'.2]

theorem Exec.single {op : Byte} {args : List Byte} {m m' : Machine} (hop : op ≠ ch '.')
    (h : ∀ rest, exec op (args ++ rest) m = some (m', rest)) :
    Exec 1 (op :: args) m m' := by
  refine ⟨by simp, fun fuel rest => ?_⟩
  rw [Nat.add_comm, List.cons_append]
  simp only [loadLoop, hop, if_false, h rest]

/-- A run of opcodes from the empty machine that leaves one list, then the stop opcode. -/
theorem loadList_of_exec {n : Nat} {bs : List Byte} {xs : List Val} {memo : List (Byte × Val)}
    (h : Exec n bs ⟨[], []⟩ ⟨[.val (.list xs)], memo⟩) :
    loadList (bs ++ [ch '.']) = some xs := by
  have hload : load (bs ++ [ch '.']) = some ([.val (.list xs)], []) := by
    obtain ⟨k, hk⟩ := Nat.exists_eq_add_of_le h.1
    rw [load, List.length_append, List.length_singleton, hk, Nat.add_assoc, h.2]
    rfl
  simp only [loadList, hload]

/-! ## Streams of frames -/

def frame (payload : List Byte) : List Byte := beBytes 4 payload.length ++ payload

/-- Cut a stream into frames and join the lists they hold. -/
def decodeLoop : Nat → List Byte → Option (List Val)
  | 0, bs => if bs = [] then some [] else none
  | fuel + 1, bs =>
    if bs = [] then some []
    else
      let n := beNat (bs.take 4)
      if bs.length < 4 + n then none
      else
        match loadList ((bs.drop 4).take n) with
        | none => none
        | some xs => (decodeLoop fuel ((bs.drop 4).drop n)).map (xs ++ ·)

def decodeStream (bs : List Byte) : Option (List Val) := decodeLoop bs.length bs

theorem decodeLoop_frame {fuel : Nat} {payload rest : List Byte} {xs : List Val}
    (hlen : payload.length < 256 ^ 4) (hload : loadList payload = some xs) :
    decodeLoop (fuel + 1) (frame payload ++ rest) = (decodeLoop fuel rest).map (xs ++ ·) := by
  have htake : (frame payload ++ rest).take 4 = beBytes 4 payload.length := by
    rw [frame, List.append_assoc]
    exact List.take_left' (beBytes_length _ _)
  have hdrop : (frame payload ++ rest).drop 4 = payload ++ rest := by
    rw [frame, List.append_assoc]
    exact List.drop_left' (beBytes_length _ _)
  have hn : beNat (beBytes 4 payload.length) = payload.length := by
    rw [beNat_beBytes, Nat.mod_eq_of_lt hlen]
  have hlen' : (frame payload ++ rest).length = 4 + payload.length + rest.length := by
    simp [frame, Nat.add_assoc]
  have hne : frame payload ++ rest ≠ [] := by
    intro h; rw [h] at hlen'; simp at hlen'; omega
  rw [decodeLoop, if_neg hne]
  simp only [htake, hdrop, hn, List.take_left', List.drop_left', hload]
  rw [if_neg (by omega)]

/-- A stream that is a concatenation of frames decodes to the lists of its frames, in order. -/
theorem decodeStream_frames {frames : List (List Byte × List Val)}
    (h : ∀ f ∈ frames, f.1.length < 256 ^ 4 ∧ loadList f.1 = some f.2) :
    decodeStream (frames.flatMap fun f => frame f.1) = some (frames.flatMap (·.2)) := by
  -- any fuel of at least one round a frame will do
  suffices hs : ∀ fuel, frames.length ≤ fuel →
      decodeLoop fuel (frames.flatMap fun f => frame f.1) = some (frames.flatMap (·.2)) by
    apply hs
    clear hs h
    induction frames with
    | nil => simp
    | cons f fs ih =>
      have : 4 ≤ (frame f.1).length := by simp [frame]
      simp only [List.flatMap_cons, List.length_append, List.length_cons]
      omega
  induction frames with
  | nil => intro fuel _; cases fuel <;> rfl
  | cons f fs ih =>
    intro fuel hfuel
    obtain ⟨fuel, rfl⟩ : ∃ k, fuel = k + 1 := ⟨fuel - 1, by simp at hfuel; omega⟩
    obtain ⟨hlen, hload⟩ := h f (by simp)
    rw [List.flatMap_cons, decodeLoop_frame hlen hload,
      ih (fun g hg => h g (by simp [hg])) fuel (by simpa using hfuel)]
    simp

/-! ## Streams that end inside a frame -/

/-- The whole frames at the front of a stream. -/
def wholeLoop : Nat → List Byte → List Byte
  | 0, _ => []
  | fuel + 1, bs =>
    let n := 4 + beNat (bs.take 4)
    if bs.length < n then [] else bs.take n ++ wholeLoop fuel (bs.drop n)

/-- Decode what has come of a stream. A frame that has not come whole is left out. -/
def readStream (bs : List Byte) : Option (List Val) := decodeStream (wholeLoop bs.length bs)

theorem frame_length (payload : List Byte) : (frame payload).length = 4 + payload.length := by
  rw [frame, List.length_append, beBytes_length]

theorem beNat_take_frame {payload : List Byte} (hlen : payload.length < 256 ^ 4) (rest : List Byte) :
    beNat ((frame payload ++ rest).take 4) = payload.length := by
  rw [frame, List.append_assoc, List.take_left' (beBytes_length _ _), beNat_beBytes,
    Nat.mod_eq_of_lt hlen]

theorem wholeLoop_frame {payload : List Byte} (hlen : payload.length < 256 ^ 4) (fuel : Nat)
    (rest : List Byte) :
    wholeLoop (fuel + 1) (frame payload ++ rest) = frame payload ++ wholeLoop fuel rest := by
  have hsize := frame_length payload
  have henough : ¬ (frame payload ++ rest).length < 4 + payload.length := by
    rw [List.length_append]
    omega
  simp only [wholeLoop, beNat_take_frame hlen, if_neg henough]
  rw [List.take_left' hsize, List.drop_left' hsize]

theorem wholeLoop_torn {payload torn : List Byte} (hlen : payload.length < 256 ^ 4)
    (hfront : torn <+: frame payload) (hproper : torn ≠ frame payload) (fuel : Nat) :
    wholeLoop fuel torn = [] := by
  cases fuel with
  | zero => rfl
  | succ fuel =>
    have hshort : torn.length < 4 + payload.length := by
      rw [← frame_length]
      exact lt_of_le_of_ne hfront.length_le fun heq => hproper (hfront.eq_of_length heq)
    have hcut : torn.length < 4 + beNat (torn.take 4) := by
      by_cases hheader : torn.length < 4
      · omega
      · obtain ⟨rest, hrest⟩ := hfront
        have hn := beNat_take_frame hlen []
        rw [List.append_nil, ← hrest, List.take_append_of_le_length (by omega)] at hn
        omega
    simp only [wholeLoop, if_pos hcut]

theorem readStream_frames {frames : List (List Byte × List Val)}
    (h : ∀ f ∈ frames, f.1.length < 256 ^ 4 ∧ loadList f.1 = some f.2) {torn : List Byte}
    (htorn : torn = [] ∨ ∃ payload, payload.length < 256 ^ 4 ∧ torn <+: frame payload ∧
      torn ≠ frame payload) :
    readStream (frames.flatMap (fun f => frame f.1) ++ torn) = some (frames.flatMap (·.2)) := by
  have hnone : ∀ fuel, wholeLoop fuel torn = [] := by
    intro fuel
    rcases htorn with rfl | ⟨payload, hlen, hfront, hproper⟩
    · cases fuel with
      | zero => rfl
      | succ fuel => simp [wholeLoop]
    · exact wholeLoop_torn hlen hfront hproper fuel
  -- any fuel of at least one round a frame will do
  have hwhole : ∀ fuel, frames.length ≤ fuel →
      wholeLoop fuel (frames.flatMap (fun f => frame f.1) ++ torn) =
        frames.flatMap fun f => frame f.1 := by
    clear htorn
    induction frames with
    | nil => intro fuel _; exact hnone fuel
    | cons f frames ih =>
      intro fuel hfuel
      obtain ⟨fuel, rfl⟩ : ∃ k, fuel = k + 1 := ⟨fuel - 1, by simp at hfuel; omega⟩
      rw [List.flatMap_cons, List.append_assoc, wholeLoop_frame (h f List.mem_cons_self).1,
        ih (fun g hg => h g (List.mem_cons_of_mem _ hg)) fuel (by simpa using hfuel)]
  have hcount : ∀ frames : List (List Byte × List Val),
      frames.length ≤ (frames.flatMap fun f => frame f.1).length := by
    intro frames
    induction frames with
    | nil => exact Nat.le_refl 0
    | cons f frames ih =>
      have hsize := frame_length f.1
      rw [List.flatMap_cons, List.length_append, List.length_cons]
      omega
  rw [readStream, hwhole _ (by rw [List.length_append]; have := hcount frames; omega),
    decodeStream_frames h]

end Pickle
end Lib
