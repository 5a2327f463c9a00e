import Brubeck.Run
import Brubeck.Statsd.Locality

/-!
# Brubeck.Statsd.Recv

The two receive loops of the statsd sampler. `statsd_run_recvmsg` reads one datagram at a time into
one buffer; `statsd_run_recvmmsg` reads up to `SIM_PACKETS` of them into as many buffers. Both keep
their buffers from round to round, with the NULs that the parser left in them.

* `deliver`: what a datagram does to the server, wherever it was read to.
* `recvmmsg_agrees`: the loops agree on every run in which each call fills every buffer.
* `recvmmsg_partial`: they do not when a call fills only some of them.
-/

namespace Brubeck
namespace Statsd

open Lib

/-- What is read into a buffer of `size` bytes: a read leaves room for a NUL. -/
structure Datagram (size : Nat) where
  bytes : List Byte
  fits : bytes.length < size

structure Buffer (size : Nat) where
  mem : List Byte
  length_eq : mem.length = size

/-- The result of `recvmmsg` or `recvfrom`. The caller goes on at once after `EAGAIN` and `EINTR`. -/
inductive Call (α : Type) where
  | retry
  | failed
  | received (a : α)

theorem packetParse_length {server server' : Server} {mem mem' : List Byte} {buffer stop : Nat}
    (h : packetParse server mem buffer stop = some (server', mem')) : mem'.length = mem.length := by
  rw [packetParse_eq] at h
  obtain ⟨server₁, -, heq⟩ := Option.map_eq_some_iff.mp h
  cases heq
  exact segmentLoop_length ..

variable {size : Nat}

namespace Buffer

def fill (buffer : Buffer size) (d : Datagram size) : Buffer size where
  mem := d.bytes ++ buffer.mem.drop d.bytes.length
  length_eq := by
    have := d.fits
    rw [List.length_append, List.length_drop, buffer.length_eq]
    omega

/-- `brubeck_statsd_packet_parse(server, buf + start, buf + len)`. When the first key is empty the
parser looks at the byte before it, so `header` is what comes before the buffer. -/
def parse (header : Byte) (server : Server) (buffer : Buffer size) (start len : Nat) :
    Option (Server × Buffer size) :=
  match h : packetParse server (header :: buffer.mem) (1 + start) (1 + len) with
  | none => none
  | some (server, mem) => some (server, ⟨mem.tail, by
      rw [List.length_tail, packetParse_length h, List.length_cons, buffer.length_eq]
      rfl⟩)

end Buffer

/-- What a datagram does to the server, read into memory of its own. -/
def deliver (header : Byte) (start : Nat) (server : Server) (d : Datagram size) : Option Server :=
  (packetParse server (header :: (d.bytes ++ [0])) (1 + start) (1 + d.bytes.length)).map Prod.fst

theorem Buffer.parse_fst (header : Byte) (server : Server) (buffer : Buffer size) (start len : Nat) :
    (buffer.parse header server start len).map Prod.fst =
      (packetParse server (header :: buffer.mem) (1 + start) (1 + len)).map Prod.fst := by
  rw [Buffer.parse]
  split
  · rename_i h
    rw [h]
    rfl
  · rename_i h
    exact (congrArg (Option.map Prod.fst) h).symm

/-- A datagram does the same in every buffer, whatever the buffer held before. -/
theorem Buffer.parse_fill (header : Byte) (start : Nat) (server : Server) (buffer : Buffer size)
    (d : Datagram size) :
    ((buffer.fill d).parse header server start d.bytes.length).map Prod.fst =
      deliver header start server d := by
  have hlen : (header :: d.bytes).length = 1 + d.bytes.length := by
    rw [List.length_cons, Nat.add_comm]
  have hne : buffer.mem.drop d.bytes.length ≠ [] := by
    intro h
    have hle := List.drop_eq_nil_iff.mp h
    have := d.fits
    rw [buffer.length_eq] at hle
    omega
  rw [Buffer.parse_fst, deliver, ← hlen]
  exact packetParse_agree server (header :: d.bytes) (1 + start) hne (List.cons_ne_nil 0 [])

/-! ## One datagram at a time -/

/-- `statsd_run_recvmsg`: the server, the `inflow` of the sampler, and the buffer. -/
structure Recvmsg where
  server : Server
  inflow : UInt64
  buffer : Buffer MAX_PACKET_SIZE

namespace Recvmsg

def step (header : Byte) (st : Recvmsg) : Call (Datagram MAX_PACKET_SIZE) → Option Recvmsg
  | .retry => some st
  | .failed =>
    some { st with server := st.server.modifyLive fun live => { live with errors := live.errors + 1 } }
  | .received d =>
    match (st.buffer.fill d).parse header st.server 0 d.bytes.length with
    | none => none
    | some (server, buffer) => some ⟨server, st.inflow + 1, buffer⟩

def run (header : Byte) (st : Recvmsg) (calls : List (Call (Datagram MAX_PACKET_SIZE))) :
    Option Recvmsg :=
  calls.foldlM (step header) st

def view (st : Recvmsg) : Server × UInt64 := (st.server, st.inflow)

end Recvmsg

/-! ## Many datagrams at a time -/

structure Slot where
  buffer : Buffer MAX_PACKET_SIZE
  msg_len : Nat

/-- What `recvmmsg` does: it fills the first buffers and leaves the rest alone. -/
def fillSlots : List Slot → List (Datagram MAX_PACKET_SIZE) → List Slot
  | slot :: slots, d :: batch => ⟨slot.buffer.fill d, d.bytes.length⟩ :: fillSlots slots batch
  | slots, _ => slots

/-- The inner loop of `statsd_run_recvmmsg`: it goes over all of `msgs`. -/
def parseSlots (header : Byte) (server : Server) : List Slot → Option (Server × List Slot)
  | [] => some (server, [])
  | slot :: slots =>
    match slot.buffer.parse header server 0 slot.msg_len with
    | none => none
    | some (server, buffer) =>
      (parseSlots header server slots).map fun r => (r.1, { slot with buffer := buffer } :: r.2)

/-- `statsd_run_recvmmsg`: there are `SIM_PACKETS` slots. -/
structure Recvmmsg where
  server : Server
  inflow : UInt64
  slots : List Slot

namespace Recvmmsg

def step (header : Byte) (st : Recvmmsg) : Call (List (Datagram MAX_PACKET_SIZE)) → Option Recvmmsg
  | .retry => some st
  | .failed =>
    some { st with server := st.server.modifyLive fun live => { live with errors := live.errors + 1 } }
  | .received batch =>
    match parseSlots header st.server (fillSlots st.slots batch) with
    | none => none
    | some (server, slots) => some ⟨server, st.inflow + UInt64.ofNat st.slots.length, slots⟩

def run (header : Byte) (st : Recvmmsg) (calls : List (Call (List (Datagram MAX_PACKET_SIZE)))) :
    Option Recvmmsg :=
  calls.foldlM (step header) st

def view (st : Recvmmsg) : Server × UInt64 := (st.server, st.inflow)

end Recvmmsg

/-! ## Full batches -/

/-- The calls of the plain loop that read what one call of the batched loop reads. -/
def Call.single {α : Type} : Call (List α) → List (Call α)
  | .retry => [.retry]
  | .failed => [.failed]
  | .received batch => batch.map .received

theorem Recvmsg.step_received (header : Byte) (st : Recvmsg) (d : Datagram MAX_PACKET_SIZE) :
    (st.step header (.received d)).map view =
      (deliver header 0 st.server d).map (·, st.inflow + 1) := by
  rw [← Buffer.parse_fill header 0 st.server st.buffer d, Recvmsg.step]
  cases (st.buffer.fill d).parse header st.server 0 d.bytes.length with
  | none => rfl
  | some r => rfl

theorem Recvmsg.run_received (header : Byte) (batch : List (Datagram MAX_PACKET_SIZE))
    (st : Recvmsg) :
    (st.run header (batch.map .received)).map view =
      (batch.foldlM (deliver header 0) st.server).map
        (·, st.inflow + UInt64.ofNat batch.length) := by
  induction batch generalizing st with
  | nil => simp [run, view]
  | cons d batch ih =>
    have hstep := st.step_received header d
    simp only [run, List.map_cons, List.foldlM_cons] at ih ⊢
    cases hs : st.step header (.received d) with
    | none =>
      rw [hs] at hstep
      rw [Option.map_eq_none_iff.mp hstep.symm]
      rfl
    | some st₁ =>
      rw [hs] at hstep
      obtain ⟨server₁, hdel, hview⟩ := Option.map_eq_some_iff.mp hstep.symm
      obtain ⟨rfl, hin⟩ := Prod.mk.inj hview
      rw [hdel]
      refine (ih st₁).trans ?_
      have hcount : st₁.inflow + UInt64.ofNat batch.length =
          st.inflow + UInt64.ofNat (d :: batch).length := by
        rw [← hin, List.length_cons, Nat.add_comm, UInt64.ofNat_add, UInt64.add_assoc]
        rfl
      rw [hcount]
      rfl

theorem parseSlots_length {header : Byte} {server server' : Server} {slots slots' : List Slot}
    (h : parseSlots header server slots = some (server', slots')) : slots'.length = slots.length := by
  induction slots generalizing server slots' with
  | nil => cases h; rfl
  | cons slot slots ih =>
    rw [parseSlots] at h
    split at h
    · cases h
    · obtain ⟨r, hr, heq⟩ := Option.map_eq_some_iff.mp h
      cases heq
      rw [List.length_cons, List.length_cons, ih hr]

theorem fillSlots_length (slots : List Slot) (batch : List (Datagram MAX_PACKET_SIZE)) :
    (fillSlots slots batch).length = slots.length := by
  induction slots, batch using fillSlots.induct with
  | case1 slot slots d batch ih => rw [fillSlots, List.length_cons, List.length_cons, ih]
  | case2 slots batch h => rw [fillSlots]; exact h

theorem parseSlots_full (header : Byte) (slots : List Slot)
    (batch : List (Datagram MAX_PACKET_SIZE))
    (hfull : batch.length = slots.length) (server : Server) :
    (parseSlots header server (fillSlots slots batch)).map Prod.fst =
      batch.foldlM (deliver header 0) server := by
  induction slots generalizing batch server with
  | nil =>
    obtain rfl := List.eq_nil_of_length_eq_zero hfull
    rfl
  | cons slot slots ih =>
    cases batch with
    | nil => cases hfull
    | cons d batch =>
      have hone := slot.buffer.parse_fill header 0 server d
      simp only [fillSlots, parseSlots, List.foldlM_cons, ← hone]
      cases (slot.buffer.fill d).parse header server 0 d.bytes.length with
      | none => rfl
      | some r =>
        rw [Option.map_map]
        exact ih batch (Nat.succ.inj hfull) r.1

theorem Recvmmsg.step_slots {header : Byte} {st st' : Recvmmsg}
    {call : Call (List (Datagram MAX_PACKET_SIZE))}
    (h : st.step header call = some st') : st'.slots.length = st.slots.length := by
  cases call with
  | retry => cases h; rfl
  | failed => cases h; rfl
  | received batch =>
    simp only [step] at h
    split at h
    · cases h
    · rename_i hparse
      cases h
      exact (parseSlots_length hparse).trans (fillSlots_length ..)

theorem Recvmmsg.step_agrees (header : Byte) (st : Recvmmsg) (plain : Recvmsg)
    (hview : st.view = plain.view) (call : Call (List (Datagram MAX_PACKET_SIZE)))
    (hfull : ∀ batch, call = .received batch → batch.length = st.slots.length) :
    (st.step header call).map view = (plain.run header call.single).map Recvmsg.view := by
  obtain ⟨hserver, hinflow⟩ := Prod.mk.inj hview
  cases call with
  | retry => exact congrArg some hview
  | failed => simp only [step, hserver, hinflow]; rfl
  | received batch =>
    have hbatch := parseSlots_full header st.slots batch (hfull batch rfl) st.server
    rw [Call.single, Recvmsg.run_received, ← hserver, ← hinflow, ← hbatch, hfull batch rfl, step]
    cases parseSlots header st.server (fillSlots st.slots batch) with
    | none => rfl
    | some r => rfl

/-- When each call fills every buffer, the batched loop and the plain loop reach the same server and
the same `inflow`, whatever the buffers hold at the start. -/
theorem recvmmsg_agrees (header : Byte) (st : Recvmmsg) (plain : Recvmsg)
    (hview : st.view = plain.view) (calls : List (Call (List (Datagram MAX_PACKET_SIZE))))
    (hfull : ∀ batch, .received batch ∈ calls → batch.length = st.slots.length) :
    (st.run header calls).map Recvmmsg.view =
      (plain.run header (calls.flatMap Call.single)).map Recvmsg.view := by
  induction calls generalizing st plain with
  | nil => exact congrArg some hview
  | cons call calls ih =>
    have hstep := st.step_agrees header plain hview call fun batch h => hfull batch (by simp [h])
    simp only [Recvmmsg.run, Recvmsg.run, List.foldlM_cons, List.flatMap_cons, List.foldlM_append]
      at ih hstep ⊢
    cases hs : st.step header call with
    | none =>
      rw [hs] at hstep
      rw [Option.map_eq_none_iff.mp hstep.symm]
      rfl
    | some st₁ =>
      rw [hs] at hstep
      obtain ⟨plain₁, hplain, hview₁⟩ := Option.map_eq_some_iff.mp hstep.symm
      rw [hplain]
      refine ih st₁ plain₁ hview₁.symm fun batch h => ?_
      rw [Recvmmsg.step_slots hs]
      exact hfull batch (List.mem_cons_of_mem _ h)

def one (k : Char) : Datagram MAX_PACKET_SIZE := ⟨str [k, ':', '1', '|', 'c'], by
  rw [str, List.length_map]
  show 5 < MAX_PACKET_SIZE
  decide⟩

def Buffer.blank (size : Nat) : Buffer size := ⟨.replicate size 0, List.length_replicate⟩

/-- The batched loop with `"multimsg": 2`, and the plain loop, when they start. -/
def twoBuffers : Recvmmsg := ⟨Server.started, 0, [⟨.blank _, 0⟩, ⟨.blank _, 0⟩]⟩

def oneBuffer : Recvmsg := ⟨Server.started, 0, .blank _⟩

theorem recvmmsg_agrees_two :
    (twoBuffers.run 0 [.received [one 'a', one 'b'], .received [one 'a', one 'c']]).map
        Recvmmsg.view =
      (oneBuffer.run 0 [.received (one 'a'), .received (one 'b'), .received (one 'a'),
        .received (one 'c')]).map Recvmsg.view :=
  recvmmsg_agrees 0 twoBuffers oneBuffer rfl _ (by simp [twoBuffers])

/-- A call that fills one buffer of two, after one that filled both. The line `b:1|c` of the first
call is still in the second buffer, with a NUL for its colon, and counts as an error now; the
`inflow` counts it again too. -/
theorem recvmmsg_partial :
    ¬ ∀ (header : Byte) (st : Recvmmsg) (plain : Recvmsg)
        (batches : List (List (Datagram MAX_PACKET_SIZE))),
      1 < st.slots.length → st.view = plain.view →
      (∀ batch ∈ batches, 1 ≤ batch.length ∧ batch.length ≤ st.slots.length) →
      (st.run header (batches.map .received)).map Recvmmsg.view =
        (plain.run header (batches.flatten.map .received)).map Recvmsg.view := by
  intro h
  have heq := h 0 twoBuffers oneBuffer [[one 'a', one 'b'], [one 'a']] (by decide) rfl
    (by simp [twoBuffers])
  let counts : Server × UInt64 → UInt32 × UInt64 := fun v => (v.1.internal_stats.live.errors, v.2)
  have htwo : ((twoBuffers.run 0 [.received [one 'a', one 'b'], .received [one 'a']]).map
      Recvmmsg.view).map counts = some (1, 4) := by decide +kernel
  have hone : ((oneBuffer.run 0 [.received (one 'a'), .received (one 'b'), .received (one 'a')]).map
      Recvmsg.view).map counts = some (0, 3) := by decide +kernel
  have hcounts := htwo.symm.trans ((congrArg (Option.map counts) heq).trans hone)
  exact absurd hcounts (by decide)

end Statsd
end Brubeck
