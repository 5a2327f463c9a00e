import Brubeck.Carbon.Basic
import Brubeck.Lib.Pickle
import Mathlib.Data.Int.ModEq
import Mathlib.Data.List.Forall2

/-!
# Brubeck.Carbon.Pickle

What a carbon relay makes of the pickle encoder's bytes.

* `entry_exec`: the bytes of one `pickle1_push` push one tuple on the unpickler's stack.
* `Half`: a half-built buffer is a run of opcodes that leaves the entries so far above an open
  mark. `half_init` and `half_push` keep it.
* `flush_streams`: flushing a half-built buffer writes one frame that loads to its entries.
* `stream_entries`, `pickle_roundtrip`: the whole stream, over any number of automatic flushes.
-/

namespace Brubeck
namespace Carbon

open Lib Lib.Pickle

/-- The tuple an unpickler makes of one pushed entry. -/
def entryVal (key : List Byte) (key_len : Nat) (timestamp : UInt32) (value : UInt64) : Val :=
  .tuple [.str (key.take key_len), .tuple [.int (i32 timestamp.toNat), .float value.toNat]]

theorem entry_length {key : List Byte} {key_len : Nat} (hk : key_len ≤ key.length) (pt : Nat)
    (timestamp : UInt32) (value : UInt64) :
    (pickle1Entry pt key key_len timestamp value).length = 26 + key_len := by
  simp [pickle1Entry, pickle1Int32, pickle1Double]
  omega

theorem entry_exec {key : List Byte} {key_len : Nat} (hk : key_len ≤ key.length)
    (h8 : key_len < 2 ^ 8) (pt : Nat) (timestamp : UInt32) (value : UInt64) (st : List Item)
    (memo : List (Byte × Val)) :
    ∃ n memo', Exec n (pickle1Entry pt key key_len timestamp value) ⟨st, memo⟩
      ⟨.val (entryVal key key_len timestamp value) :: st, memo'⟩ := by
  have hlen : (key.take key_len).length = (UInt8.ofNat key_len).toNat := by
    rw [List.length_take, UInt8.toNat_ofNat_of_lt' h8]; omega
  have hts : leNat (leBytes 4 timestamp.toNat) = timestamp.toNat := by
    rw [leNat_leBytes]
    exact Nat.mod_eq_of_lt timestamp.toNat_lt
  have hv : beNat (leBytes 8 value.toNat).reverse = value.toNat := by
    rw [beNat, List.reverse_reverse, leNat_leBytes]
    exact Nat.mod_eq_of_lt value.toNat_lt
  let k : Val := .str (key.take key_len)
  let ts : Val := .int (i32 timestamp.toNat)
  let d : Val := .float value.toNat
  have e1 : Exec 1 [ch '('] ⟨st, memo⟩ ⟨.mark :: st, memo⟩ :=
    .single (by decide) fun rest => exec_mark rest _
  have e2 : Exec 1 ([ch 'U', UInt8.ofNat key_len] ++ key.take key_len) ⟨.mark :: st, memo⟩
      ⟨.val k :: .mark :: st, memo⟩ :=
    .single (by decide) fun rest => exec_str hlen rest _
  have e3 : Exec 1 [ch 'q', UInt8.ofNat pt] ⟨.val k :: .mark :: st, memo⟩
      ⟨.val k :: .mark :: st, (UInt8.ofNat pt, k) :: memo⟩ :=
    .single (by decide) fun rest => exec_put _ rest _ _ _
  generalize (UInt8.ofNat pt, k) :: memo = memo1 at e3
  have e4 : Exec 1 [ch '('] ⟨.val k :: .mark :: st, memo1⟩ ⟨.mark :: .val k :: .mark :: st, memo1⟩ :=
    .single (by decide) fun rest => exec_mark rest _
  have e5 : Exec 1 (pickle1Int32 timestamp) ⟨.mark :: .val k :: .mark :: st, memo1⟩
      ⟨.val ts :: .mark :: .val k :: .mark :: st, memo1⟩ := by
    refine .single (by decide) fun rest => ?_
    rw [exec_int (leBytes_length 4 _), hts]; rfl
  have e6 : Exec 1 (pickle1Double value) ⟨.val ts :: .mark :: .val k :: .mark :: st, memo1⟩
      ⟨.val d :: .val ts :: .mark :: .val k :: .mark :: st, memo1⟩ := by
    refine .single (by decide) fun rest => ?_
    rw [exec_float (by simp), hv]; rfl
  have e7 : Exec 1 [ch 't'] ⟨.val d :: .val ts :: .mark :: .val k :: .mark :: st, memo1⟩
      ⟨.val (.tuple [ts, d]) :: .val k :: .mark :: st, memo1⟩ :=
    .single (by decide) fun rest => exec_tuple [ts, d] _ _ rest
  have e8 : Exec 1 [ch 'q', UInt8.ofNat (pt + 1)]
      ⟨.val (.tuple [ts, d]) :: .val k :: .mark :: st, memo1⟩
      ⟨.val (.tuple [ts, d]) :: .val k :: .mark :: st, (UInt8.ofNat (pt + 1), .tuple [ts, d]) :: memo1⟩ :=
    .single (by decide) fun rest => exec_put _ rest _ _ _
  generalize (UInt8.ofNat (pt + 1), .tuple [ts, d]) :: memo1 = memo2 at e8
  have e9 : Exec 1 [ch 't'] ⟨.val (.tuple [ts, d]) :: .val k :: .mark :: st, memo2⟩
      ⟨.val (.tuple [k, .tuple [ts, d]]) :: st, memo2⟩ :=
    .single (by decide) fun rest => exec_tuple [k, .tuple [ts, d]] _ _ rest
  have e10 : Exec 1 [ch 'q', UInt8.ofNat (pt + 2)] ⟨.val (.tuple [k, .tuple [ts, d]]) :: st, memo2⟩
      ⟨.val (.tuple [k, .tuple [ts, d]]) :: st,
        (UInt8.ofNat (pt + 2), .tuple [k, .tuple [ts, d]]) :: memo2⟩ :=
    .single (by decide) fun rest => exec_put _ rest _ _ _
  exact ⟨_, _, ((((((((e1.trans e2).trans e3).trans e4).trans e5).trans e6).trans e7).trans e8).trans
    e9).trans e10⟩

/-- `body` is what the buffer holds after its four bytes for the length: opcodes that leave the
values `vs` above the mark that `pickle1_init` opened. -/
structure Half (buf : Pickler) (body : List Byte) (vs : List Val) : Prop where
  split : ∃ hole tail, buf.ptr = hole ++ (body ++ tail) ∧ hole.length = 4
  size : buf.ptr.length = PICKLE_BUFFER_SIZE
  pos : buf.pos = 4 + body.length
  pos_le : buf.pos ≤ 4089
  fresh : vs = [] → buf.pos = 8
  entries : 26 * vs.length + 4 ≤ body.length
  pt : buf.pt = 1 + 3 * vs.length
  exec : ∃ n memo, Exec n body ⟨[], []⟩ ⟨(vs.map .val).reverse ++ [.mark, .val (.list [])], memo⟩

theorem half_init {buf : Pickler} (hsize : buf.ptr.length = PICKLE_BUFFER_SIZE) :
    Half (pickle1Init buf) lead [] := by
  have hlead : lead.length = 4 := rfl
  simp only [PICKLE_BUFFER_SIZE] at hsize
  refine ⟨⟨buf.ptr.take 4, buf.ptr.drop 8, by simp [pickle1Init, store, hlead], by simp; omega⟩,
    ?_, rfl, by simp [pickle1Init], fun _ => rfl, by simp [hlead], rfl, ?_⟩
  · rw [pickle1Init, store_length (by omega)]; exact hsize
  · have e1 : Exec 1 [ch ']'] ⟨[], []⟩ ⟨[.val (.list [])], []⟩ :=
      .single (by decide) fun rest => exec_emptyList rest _
    have e2 : Exec 1 [ch 'q', 0] ⟨[.val (.list [])], []⟩ ⟨[.val (.list [])], [(0, .list [])]⟩ :=
      .single (by decide) fun rest => exec_put _ rest _ _ _
    have e3 : Exec 1 [ch '('] ⟨[.val (.list [])], [(0, .list [])]⟩
        ⟨[.mark, .val (.list [])], [(0, .list [])]⟩ :=
      .single (by decide) fun rest => exec_mark rest _
    exact ⟨_, _, (e1.trans e2).trans e3⟩

/-- Pushing an entry that the size check lets in. -/
theorem half_push {buf : Pickler} {body : List Byte} {vs : List Val} (h : Half buf body vs)
    {key : List Byte} {key_len : Nat} (hk : key_len ≤ key.length) (h8 : key_len < 2 ^ 8)
    (hroom : buf.pos + pickle1Size key_len < PICKLE_BUFFER_SIZE) (timestamp : UInt32)
    (value : UInt64) :
    Half (pickle1Push buf key key_len timestamp value)
      (body ++ pickle1Entry buf.pt key key_len timestamp value)
      (vs ++ [entryVal key key_len timestamp value]) := by
  have hlen := entry_length hk buf.pt timestamp value
  obtain ⟨hole, tail, hptr, hhole⟩ := h.split
  have hsize := h.size
  have hpos := h.pos
  have hent := h.entries
  have hpt := h.pt
  simp only [PICKLE_BUFFER_SIZE, pickle1Size] at hroom hsize
  obtain ⟨n, memo, hexec⟩ := h.exec
  obtain ⟨n', memo', hentry⟩ := entry_exec hk h8 buf.pt timestamp value
    ((vs.map .val).reverse ++ [.mark, .val (.list [])]) memo
  generalize hE : pickle1Entry buf.pt key key_len timestamp value = entry at hlen hentry
  refine ⟨⟨hole, tail.drop entry.length, ?_, hhole⟩, ?_, ?_, ?_, by simp, ?_, ?_, n + n', memo', ?_⟩
  · simp only [pickle1Push, hE, hptr, hpos, ← hhole, store_append]
  · simp only [pickle1Push, hE]
    rw [store_length (by omega)]; exact hsize
  · simp only [pickle1Push, hE, List.length_append]; omega
  · simp only [pickle1Push, hE]; omega
  · simp only [List.length_append, List.length_singleton]; omega
  · simp only [pickle1Push, List.length_append, List.length_singleton]; omega
  · have := hexec.trans hentry
    simpa using this

theorem half_load {buf : Pickler} {body : List Byte} {vs : List Val} (h : Half buf body vs) :
    loadList (body ++ trail) = some vs := by
  obtain ⟨n, memo, hexec⟩ := h.exec
  have happ : Exec 1 [ch 'e'] ⟨(vs.map .val).reverse ++ [.mark, .val (.list [])], memo⟩
      ⟨[.val (.list vs)], memo⟩ :=
    .single (by decide) fun rest => exec_appends vs [] [] memo rest
  rw [show body ++ trail = (body ++ [ch 'e']) ++ [ch '.'] by simp [trail]]
  exact loadList_of_exec (hexec.trans happ)

/-- What `pickle1_flush` hands to the socket is the payload in its frame. -/
theorem flush_bytes {buf : Pickler} {body : List Byte} {vs : List Val} (h : Half buf body vs) :
    (store (store buf.ptr buf.pos trail) 0 (beBytes 4 (buf.pos + 2 - 4))).take (buf.pos + 2) =
      frame (body ++ trail) := by
  obtain ⟨hole, tail, hptr, hhole⟩ := h.split
  have hpos := h.pos
  have ht : trail.length = 2 := rfl
  have h1 : store buf.ptr buf.pos trail = hole ++ (body ++ trail ++ tail.drop trail.length) := by
    rw [hptr, hpos, ← hhole, store_append]
  have h2 : buf.pos + 2 - 4 = (body ++ trail).length := by rw [List.length_append]; omega
  have h3 : (hole ++ (body ++ trail ++ tail.drop trail.length)).drop 4 =
      body ++ trail ++ tail.drop trail.length := List.drop_left' hhole
  rw [h1, h2, store, List.take_zero, List.nil_append, beBytes_length, Nat.zero_add, h3,
    ← List.append_assoc, frame]
  apply List.take_left'
  simp only [List.length_append, beBytes_length]
  omega

/-- What `pickle1_flush` hands to the socket. -/
def flushUnit (buf : Pickler) : List Byte :=
  let pos := (buf.pos + trail.length) % 2 ^ 16
  (store (store buf.ptr buf.pos trail) 0 (beBytes 4 (pos - 4))).take pos

/-- The buffer that `pickle1_flush` leaves. -/
def flushed (buf : Pickler) : Pickler :=
  let pos := (buf.pos + trail.length) % 2 ^ 16
  pickle1Init { buf with ptr := store (store buf.ptr buf.pos trail) 0 (beBytes 4 (pos - 4)) }

theorem flush_pos {buf : Pickler} {body : List Byte} {vs : List Val} (h : Half buf body vs) :
    (buf.pos + trail.length) % 2 ^ 16 = buf.pos + 2 := by
  have := h.pos_le
  rw [show trail.length = 2 from rfl]
  omega

theorem flushUnit_eq {buf : Pickler} {body : List Byte} {vs : List Val} (h : Half buf body vs) :
    flushUnit buf = frame (body ++ trail) := by
  simp only [flushUnit, flush_pos h, flush_bytes h]

/-- The flush stays inside the buffer. -/
theorem flush_size {buf : Pickler} {body : List Byte} {vs : List Val} (h : Half buf body vs) (n : Nat) :
    (store (store buf.ptr buf.pos trail) 0 (beBytes 4 n)).length = PICKLE_BUFFER_SIZE := by
  have hsize := h.size
  have hpos := h.pos_le
  have hinner : (store buf.ptr buf.pos trail).length = PICKLE_BUFFER_SIZE := by
    rw [store_length, hsize]
    rw [hsize, PICKLE_BUFFER_SIZE, show trail.length = 2 from rfl]
    omega
  rw [store_length, hinner]
  rw [hinner, beBytes_length]
  decide

theorem flushed_half {buf : Pickler} {body : List Byte} {vs : List Val} (h : Half buf body vs) :
    Half (flushed buf) lead [] :=
  half_init (flush_size h _)

structure Call where
  key : List Byte
  value : UInt64
  tick_time : UInt32

def eachCall (env : Nat → Answer) (carbon : Carbon) (calls : List Call) : Carbon :=
  calls.foldl (fun carbon call =>
    pickle1Each env { carbon with tick_time := call.tick_time } call.key call.value) carbon

def Call.key_len (call : Call) : Nat := strlen call.key % 2 ^ 8

def Call.val (call : Call) : Val :=
  entryVal call.key call.key_len call.tick_time call.value

theorem strlen_le (key : List Byte) : strlen key ≤ key.length :=
  (List.takeWhile_sublist _).length_le

theorem Call.key_len_le (call : Call) : call.key_len ≤ call.key.length :=
  (Nat.mod_le _ _).trans (strlen_le call.key)

/-! ## The stream -/

/-- Since it had carried `before`, the connection has carried whole frames that load to `done`, and
the buffer is half built with `vs`. -/
structure Streams (before : List Byte) (carbon : Carbon) (done vs : List Val) : Prop where
  connected : carbon.connected = true
  wire : ∃ frames : List (List Byte × List Val),
    (∀ f ∈ frames, f.1.length < 256 ^ 4 ∧ loadList f.1 = some f.2) ∧
    carbon.conns.headD [] = before ++ frames.flatMap (fun f => frame f.1) ∧
    frames.flatMap (·.2) = done
  half : ∃ body, Half carbon.pickler body vs

/-- A flush whose write succeeds: one more frame on the wire, and an empty buffer. -/
theorem flush_streams {env : Nat → Answer} (henv : NoFailure env) {before : List Byte}
    {carbon : Carbon} {done vs : List Val} (h : Streams before carbon done vs) (hvs : vs ≠ []) :
    Streams before (carbon.pickle1Flush env) (done ++ vs) [] := by
  obtain ⟨body, hhalf⟩ := h.half
  have hbound := hhalf.pos_le
  have hpos := hhalf.pos
  have hpt : carbon.pickler.pt ≠ 1 := by
    have := List.length_pos_iff.mpr hvs
    rw [hhalf.pt]; omega
  have hunit := flushUnit_eq hhalf
  simp only [flushUnit] at hunit
  obtain ⟨calls', hw⟩ := writeInFull_ok henv carbon.calls (frame (body ++ trail))
  obtain ⟨frames, hframes, hwire, hdone⟩ := h.wire
  have hflush : carbon.pickle1Flush env =
      { carbon with
        calls := calls'
        conns := (carbon.conns.headD [] ++ frame (body ++ trail)) :: carbon.conns.tail
        pickler := flushed carbon.pickler
        sent := carbon.sent + UInt64.ofNat (frame (body ++ trail)).length } := by
    simp only [pickle1Flush, hpt, h.connected, not_true, or_self, if_false, hunit, write, hw,
      account, Int.toNat_natCast]
    rw [if_neg (by omega)]
    rfl
  rw [hflush]
  refine ⟨h.connected, ⟨frames ++ [(body ++ trail, vs)], ?_, ?_, ?_⟩, lead, flushed_half hhalf⟩
  · intro f hf
    rcases List.mem_append.mp hf with hf | hf
    · exact hframes f hf
    · rw [List.mem_singleton] at hf
      subst hf
      refine ⟨?_, half_load hhalf⟩
      simp only [List.length_append, show trail.length = 2 from rfl]
      omega
  · rw [List.headD_cons, hwire, List.flatMap_append, List.flatMap_singleton, List.append_assoc]
  · rw [List.flatMap_append, hdone, List.flatMap_singleton]

theorem Streams.room {before : List Byte} {carbon : Carbon} {done : List Val}
    (h : Streams before carbon done []) {key_len : Nat}
    (h8 : key_len < 2 ^ 8) : carbon.pickler.pos + pickle1Size key_len < PICKLE_BUFFER_SIZE := by
  obtain ⟨body, hhalf⟩ := h.half
  rw [hhalf.fresh rfl, pickle1Size, PICKLE_BUFFER_SIZE]
  omega

/-- One call: the entry goes into the buffer, after a flush if there was no room for it. -/
theorem each_streams {env : Nat → Answer} (henv : NoFailure env) {before : List Byte}
    {carbon : Carbon} {done vs : List Val} (h : Streams before carbon done vs) (call : Call) :
    ∃ done' vs', done' ++ vs' = done ++ vs ++ [call.val] ∧
      Streams before (pickle1Each env { carbon with tick_time := call.tick_time } call.key call.value)
        done' vs' := by
  have h8 : call.key_len < 2 ^ 8 := Nat.mod_lt _ (by decide)
  have hpush : ∀ {c : Carbon} {done vs : List Val}, c.tick_time = call.tick_time →
      Streams before c done vs → c.pickler.pos + pickle1Size call.key_len < PICKLE_BUFFER_SIZE →
      Streams before { c with
          pickler := pickle1Push c.pickler call.key call.key_len c.tick_time call.value }
        done (vs ++ [call.val]) := by
    intro c done vs ht hc hroom
    obtain ⟨body, hhalf⟩ := hc.half
    rw [ht]
    exact ⟨hc.connected, hc.wire, _, half_push hhalf call.key_len_le h8 hroom _ _⟩
  have hkl : strlen call.key % 2 ^ 8 = call.key_len := rfl
  generalize hc : ({ carbon with tick_time := call.tick_time } : Carbon) = c
  have hS : Streams before c done vs := by subst hc; exact ⟨h.connected, h.wire, h.half⟩
  have ht : c.tick_time = call.tick_time := by subst hc; rfl
  by_cases hroom : c.pickler.pos + pickle1Size call.key_len < PICKLE_BUFFER_SIZE
  · refine ⟨done, vs ++ [call.val], by simp, ?_⟩
    rw [pickle1Each, hkl, if_neg (Nat.not_le.mpr hroom), if_neg (by simp [hS.connected])]
    exact hpush ht hS hroom
  · have hvs : vs ≠ [] := by
      rintro rfl
      exact hroom (hS.room h8)
    have hF := flush_streams henv hS hvs
    have htF : (c.pickle1Flush env).tick_time = call.tick_time := by
      rw [(pickle1Flush_frame env c).tick_time, ht]
    refine ⟨done ++ vs, [call.val], rfl, ?_⟩
    rw [pickle1Each, hkl, if_pos (Nat.not_lt.mp hroom), if_neg (by simp [hF.connected])]
    exact hpush htF hF (hF.room h8)

theorem eachCall_streams {env : Nat → Answer} (henv : NoFailure env) {before : List Byte}
    (calls : List Call) :
    ∀ {carbon : Carbon} {done vs : List Val}, Streams before carbon done vs →
      ∃ done' vs', done' ++ vs' = done ++ vs ++ calls.map Call.val ∧
        Streams before (eachCall env carbon calls) done' vs' := by
  induction calls with
  | nil =>
    intro carbon done vs h
    exact ⟨done, vs, by simp, h⟩
  | cons call calls ih =>
    intro carbon done vs h
    obtain ⟨done₁, vs₁, heq₁, h₁⟩ := each_streams henv h call
    obtain ⟨done₂, vs₂, heq₂, h₂⟩ := ih h₁
    refine ⟨done₂, vs₂, ?_, h₂⟩
    rw [heq₂, heq₁, List.map_cons, List.append_assoc _ [call.val]]
    rfl

/-- The last flush empties the buffer onto the wire, or finds it empty. -/
theorem lastFlush_streams {env : Nat → Answer} (henv : NoFailure env) {before : List Byte}
    {carbon : Carbon} {done vs : List Val} (h : Streams before carbon done vs) :
    Streams before (carbon.pickle1Flush env) (done ++ vs) [] := by
  by_cases hvs : vs = []
  · subst hvs
    obtain ⟨body, hhalf⟩ := h.half
    have hpt : carbon.pickler.pt = 1 := hhalf.pt
    rw [pickle1Flush, if_pos (Or.inl hpt), List.append_nil]
    exact h
  · exact flush_streams henv h hvs

/-- What the unpickler has to make of a call: the first `key_len` bytes of its key, a time congruent
to that of the tick, and the pattern of the value. -/
def Decodes (call : Call) (v : Val) : Prop :=
  ∃ ts : Int, ts ≡ call.tick_time.toNat [ZMOD 2 ^ 32] ∧
    v = .tuple [.str (call.key.take call.key_len), .tuple [.int ts, .float call.value.toNat]]

theorem i32_modEq (x : Int) : i32 x ≡ x [ZMOD 2 ^ 32] := by
  rw [i32, Int.ModEq, Int.sub_emod, Int.emod_emod_of_dvd _ (Int.dvd_refl _), ← Int.sub_emod]
  congr 1
  omega

theorem Call.decodes (call : Call) : Decodes call call.val :=
  ⟨i32 call.tick_time.toNat, i32_modEq _, rfl⟩

/-- From a fresh buffer on an open connection whose writes succeed, the bytes of any number of calls
and a flush are frames that a pickle machine reads back as the values of the calls. -/
theorem stream_entries {env : Nat → Answer} (henv : NoFailure env) {carbon : Carbon}
    (hconn : carbon.connected = true) {buf : Pickler} (hbuf : buf.ptr.length = PICKLE_BUFFER_SIZE)
    (hinit : carbon.pickler = pickle1Init buf) (calls : List Call) :
    ∃ written,
      ((eachCall env carbon calls).pickle1Flush env).conns.headD [] =
        carbon.conns.headD [] ++ written ∧
      decodeStream written = some (calls.map Call.val) := by
  have hstart : Streams (carbon.conns.headD []) carbon [] [] :=
    ⟨hconn, ⟨[], by simp, by simp, rfl⟩, lead, hinit ▸ half_init hbuf⟩
  obtain ⟨done, vs, hall, hcalls⟩ := eachCall_streams henv calls hstart
  obtain ⟨-, ⟨frames, hframes, hwire, hdone⟩, -⟩ := lastFlush_streams henv hcalls
  refine ⟨_, hwire, ?_⟩
  rw [decodeStream_frames hframes, hdone, hall]
  rfl

/-- The same, call by call: one tuple each, in order, with nothing lost or repeated. -/
theorem pickle_roundtrip {env : Nat → Answer} (henv : NoFailure env) {carbon : Carbon}
    (hconn : carbon.connected = true) {buf : Pickler} (hbuf : buf.ptr.length = PICKLE_BUFFER_SIZE)
    (hinit : carbon.pickler = pickle1Init buf) (calls : List Call) :
    ∃ written entries,
      ((eachCall env carbon calls).pickle1Flush env).conns.headD [] =
        carbon.conns.headD [] ++ written ∧
      decodeStream written = some entries ∧ List.Forall₂ Decodes calls entries := by
  obtain ⟨written, hwire, hdecode⟩ := stream_entries henv hconn hbuf hinit calls
  exact ⟨written, calls.map Call.val, hwire, hdecode,
    List.forall₂_map_right_iff.mpr (List.forall₂_same.mpr fun call _ => call.decodes)⟩

def fresh : Carbon := ((new true 10 (List.replicate PICKLE_BUFFER_SIZE 0)).connect true).2

theorem pickle_roundtrip_two :
    NoFailure (fun _ => ⟨0, some 100⟩) ∧ fresh.connected = true ∧
      ∃ written entries,
        ((eachCall (fun _ => ⟨0, some 100⟩) fresh
          [⟨str ['a', '.', 'b'], 1, 7⟩, ⟨str ['c'], 2, 0x80000001⟩]).pickle1Flush
          (fun _ => ⟨0, some 100⟩)).conns.headD [] = fresh.conns.headD [] ++ written ∧
        decodeStream written = some entries ∧
        List.Forall₂ Decodes [⟨str ['a', '.', 'b'], 1, 7⟩, ⟨str ['c'], 2, 0x80000001⟩] entries :=
  ⟨fun _ => ⟨99, rfl⟩, rfl,
    pickle_roundtrip (fun _ => ⟨99, rfl⟩) rfl (List.length_replicate) rfl _⟩

end Carbon
end Brubeck
