import Brubeck.Utils
import Mathlib.Data.List.Induction

/-!
# Brubeck.Carbon.Basic

The carbon backend of `backends/carbon.c`: its connection, and its two encoders. `conns` is not in
the C struct: it records, newest first, the bytes the socket of each connection accepted.

* `store`: what `memcpy` into a buffer leaves.
* `plaintextEach`, `pickle1Each`, `pickle1Flush`: the callbacks a tick runs.
* `writeInFull_ok`: when no call fails, everything offered is accepted.
-/

namespace Brubeck

open Lib

/-- `strlen`: a C string ends at its first NUL. -/
def strlen (key : List Byte) : Nat := (key.takeWhile (· ≠ 0)).length

/-- A buffer after `bs` has been copied to `pos`. -/
def store (mem : List Byte) (pos : Nat) (bs : List Byte) : List Byte :=
  mem.take pos ++ (bs ++ mem.drop (pos + bs.length))

structure Pickler where
  ptr : List Byte
  pos : Nat
  pt : Nat
  deriving DecidableEq

/-- `struct brubeck_carbon`, with the fields of its `struct brubeck_backend` that the encoders and
the tick use. `pickle` says which encoder was set up, `connected` stands for `out_sock >= 0`, and
`calls` counts the writes made so far. -/
structure Carbon where
  pickle : Bool
  sample_freq : Int
  tick_time : UInt32
  queue : List Nat
  connected : Bool
  pickler : Pickler
  sent : UInt64
  calls : Nat
  conns : List (List Byte)
  deriving DecidableEq

namespace Carbon

def PICKLE_BUFFER_SIZE : Nat := 4096

def pickle1Size (key_len : Nat) : Nat := 32 + key_len

/-- `carbon_connect`. `ok` says whether the kernel grants a new connection. -/
def connect (ok : Bool) (carbon : Carbon) : Int × Carbon :=
  if carbon.connected then (0, carbon)
  else if ok then (0, { carbon with connected := true, conns := [] :: carbon.conns })
  else (-1, carbon)

def disconnect (carbon : Carbon) : Carbon := { carbon with connected := false }

def write (env : Nat → Answer) (carbon : Carbon) (bytes : List Byte) : Int × Carbon :=
  let (wr, accepted, calls) := writeInFull env carbon.calls bytes
  (wr, { carbon with
    calls := calls
    conns := (carbon.conns.headD [] ++ accepted) :: carbon.conns.tail })

/-- What both encoders do with the result of a write. -/
def account (wr : Int) (carbon : Carbon) : Carbon :=
  if wr < 0 then carbon.disconnect
  else { carbon with sent := carbon.sent + UInt64.ofNat wr.toNat }

def plaintextLine (key : List Byte) (value tick_time : UInt32) : List Byte :=
  key.take (strlen key) ++ ch ' ' ::
    (ftoa value.toNat ++ ch ' ' :: (itoaText tick_time.toNat ++ [ch '\n']))

/-- `plaintext_each`; `value` is the pattern of the value converted to `float`. -/
def plaintextEach (env : Nat → Answer) (carbon : Carbon) (key : List Byte) (value : UInt32) :
    Carbon :=
  if ¬ carbon.connected then carbon
  else
    let (wr, carbon) := carbon.write env (plaintextLine key value carbon.tick_time)
    carbon.account wr

def pickle1Int32 (x : UInt32) : List Byte := ch 'J' :: leBytes 4 x.toNat

/-- `pickle1_double`: the bytes of the double from the last to the first. -/
def pickle1Double (x : UInt64) : List Byte := ch 'G' :: (leBytes 8 x.toNat).reverse

def pickle1Entry (pt : Nat) (key : List Byte) (key_len : Nat) (timestamp : UInt32)
    (value : UInt64) : List Byte :=
  [ch '('] ++ ([ch 'U', UInt8.ofNat key_len] ++ key.take key_len) ++
    [ch 'q', UInt8.ofNat pt] ++ [ch '('] ++ pickle1Int32 timestamp ++ pickle1Double value ++
    [ch 't'] ++ [ch 'q', UInt8.ofNat (pt + 1)] ++ [ch 't'] ++ [ch 'q', UInt8.ofNat (pt + 2)]

def pickle1Push (buf : Pickler) (key : List Byte) (key_len : Nat) (timestamp : UInt32)
    (value : UInt64) : Pickler :=
  let entry := pickle1Entry buf.pt key key_len timestamp value
  { ptr := store buf.ptr buf.pos entry
    pos := (buf.pos + entry.length) % 2 ^ 16
    pt := (buf.pt + 3) % 2 ^ 16 }

def lead : List Byte := [ch ']', ch 'q', 0, ch '(']

def trail : List Byte := [ch 'e', ch '.']

def pickle1Init (buf : Pickler) : Pickler := { ptr := store buf.ptr 4 lead, pos := 8, pt := 1 }

def pickle1Flush (env : Nat → Answer) (carbon : Carbon) : Carbon :=
  let buf := carbon.pickler
  if buf.pt = 1 ∨ ¬ carbon.connected then carbon
  else
    let ptr := store buf.ptr buf.pos trail
    let pos := (buf.pos + trail.length) % 2 ^ 16
    let ptr := store ptr 0 (beBytes 4 (pos - 4))
    let (wr, carbon) := carbon.write env (ptr.take pos)
    let carbon := { carbon with pickler := pickle1Init { buf with ptr := ptr } }
    carbon.account wr

/-- `pickle1_each`; `value` is the pattern of the `double`. -/
def pickle1Each (env : Nat → Answer) (carbon : Carbon) (key : List Byte) (value : UInt64) :
    Carbon :=
  let key_len := strlen key % 2 ^ 8
  let carbon :=
    if PICKLE_BUFFER_SIZE ≤ carbon.pickler.pos + pickle1Size key_len then carbon.pickle1Flush env
    else carbon
  if ¬ carbon.connected then carbon
  else
    { carbon with pickler := pickle1Push carbon.pickler key key_len carbon.tick_time value }

/-- `brubeck_carbon_new`; `ptr` is what `malloc` returns for the pickle buffer. -/
def new (pickle : Bool) (frequency : Int) (ptr : List Byte) : Carbon where
  pickle := pickle
  sample_freq := frequency
  tick_time := 0
  queue := []
  connected := false
  pickler := if pickle then pickle1Init ⟨ptr, 0, 0⟩ else ⟨[], 0, 0⟩
  sent := 0
  calls := 0
  conns := []

end Carbon

/-! ## What the encoders leave alone -/

namespace Carbon

/-- The fields that no encoder writes. -/
structure Frame (carbon carbon' : Carbon) : Prop where
  pickle : carbon'.pickle = carbon.pickle
  sample_freq : carbon'.sample_freq = carbon.sample_freq
  tick_time : carbon'.tick_time = carbon.tick_time
  queue : carbon'.queue = carbon.queue

theorem Frame.refl (carbon : Carbon) : Frame carbon carbon := ⟨rfl, rfl, rfl, rfl⟩

theorem Frame.trans {a b c : Carbon} (h : Frame a b) (h' : Frame b c) : Frame a c :=
  ⟨h'.pickle.trans h.pickle, h'.sample_freq.trans h.sample_freq, h'.tick_time.trans h.tick_time,
    h'.queue.trans h.queue⟩

theorem account_frame (wr : Int) (carbon : Carbon) : Frame carbon (carbon.account wr) := by
  rw [account]
  split
  · exact ⟨rfl, rfl, rfl, rfl⟩
  · exact ⟨rfl, rfl, rfl, rfl⟩

theorem plaintextEach_frame (env : Nat → Answer) (carbon : Carbon) (key : List Byte)
    (value : UInt32) : Frame carbon (carbon.plaintextEach env key value) := by
  by_cases h : ¬ carbon.connected
  · rw [plaintextEach, if_pos h]
    exact .refl _
  · rw [plaintextEach, if_neg h]
    dsimp only [write]
    refine Frame.trans ?_ (account_frame _ _)
    exact ⟨rfl, rfl, rfl, rfl⟩

theorem pickle1Flush_frame (env : Nat → Answer) (carbon : Carbon) :
    Frame carbon (carbon.pickle1Flush env) := by
  by_cases h : carbon.pickler.pt = 1 ∨ ¬ carbon.connected
  · rw [pickle1Flush, if_pos h]
    exact .refl _
  · rw [pickle1Flush, if_neg h]
    dsimp only [write]
    refine Frame.trans ?_ (account_frame _ _)
    exact ⟨rfl, rfl, rfl, rfl⟩

theorem pickle1Each_frame (env : Nat → Answer) (carbon : Carbon) (key : List Byte)
    (value : UInt64) : Frame carbon (carbon.pickle1Each env key value) := by
  simp only [pickle1Each]
  generalize hc : (if PICKLE_BUFFER_SIZE ≤ carbon.pickler.pos + pickle1Size (strlen key % 2 ^ 8)
    then carbon.pickle1Flush env else carbon) = c
  have hframe : Frame carbon c := by
    rw [← hc]
    split
    · exact pickle1Flush_frame env carbon
    · exact .refl _
  by_cases h : ¬ c.connected
  · rw [if_pos h]
    exact hframe
  · rw [if_neg h]
    exact hframe.trans ⟨rfl, rfl, rfl, rfl⟩

end Carbon

/-! ## Memory -/

theorem store_append (a b tail bs : List Byte) :
    store (a ++ (b ++ tail)) (a.length + b.length) bs = a ++ (b ++ bs ++ tail.drop bs.length) := by
  have htake : (a ++ (b ++ tail)).take (a.length + b.length) = a ++ b := by
    rw [← List.append_assoc, ← List.length_append, List.take_left]
  have hdrop : (a ++ (b ++ tail)).drop (a.length + b.length + bs.length) = tail.drop bs.length := by
    rw [← List.append_assoc, ← List.length_append, ← List.drop_drop, List.drop_left]
  rw [store, htake, hdrop]
  simp

theorem store_length {mem bs : List Byte} {pos : Nat} (h : pos + bs.length ≤ mem.length) :
    (store mem pos bs).length = mem.length := by
  simp only [store, List.length_append, List.length_take, List.length_drop]
  omega

/-! ## Writing -/

/-- Every call the kernel answers takes at least one byte. -/
def NoFailure (env : Nat → Answer) : Prop := ∀ i, ∃ n, (env i).result = some (n + 1)

theorem writeLoop_ok {env : Nat → Answer} (henv : NoFailure env) :
    ∀ (rounds calls : Nat) (p : List Byte) (total : Nat), p.length ≤ rounds →
      ∃ calls', writeLoop env rounds calls p total = (((total + p.length : Nat) : Int), p, calls') := by
  intro rounds
  induction rounds with
  | zero =>
    intro calls p total hp
    have : p = [] := List.eq_nil_of_length_eq_zero (by omega)
    subst this
    exact ⟨calls, rfl⟩
  | succ rounds ih =>
    intro calls p total hp
    by_cases hnil : p = []
    · subst hnil
      exact ⟨calls, by simp [writeLoop]⟩
    · obtain ⟨n, hn⟩ := henv calls
      have hpos : 0 < p.length := List.length_pos_iff.mpr hnil
      -- the kernel takes `k + 1` bytes, no more than were offered
      obtain ⟨k, hk⟩ : ∃ k, min p.length (n + 1) = k + 1 := ⟨min p.length (n + 1) - 1, by omega⟩
      have hx : xwrite (env calls) p.length = some (k + 1) := by
        rw [xwrite, hn, Option.map_some, hk]
      obtain ⟨calls', hrec⟩ := ih (calls + 1) (p.drop (k + 1)) (total + (k + 1))
        (by rw [List.length_drop]; omega)
      refine ⟨calls', ?_⟩
      simp only [writeLoop, if_neg hnil, hx, hrec, List.take_append_drop, List.length_drop]
      congr 2
      omega

theorem writeInFull_ok {env : Nat → Answer} (henv : NoFailure env) (calls : Nat) (buf : List Byte) :
    ∃ calls', writeInFull env calls buf = ((buf.length : Int), buf, calls') := by
  obtain ⟨calls', h⟩ := writeLoop_ok henv buf.length calls buf 0 (Nat.le_refl _)
  exact ⟨calls', by simpa [writeInFull] using h⟩

end Brubeck
