import Brubeck.Carbon.Pickle
import Brubeck.Limits

/-!
# Brubeck.Carbon.Names

Under which name and time a relay files what the pickle encoder sends. The length of a key passes
through a `uint8_t` on its way into the pickle, and the time through a signed opcode.

* `Call.val_eq_exact_iff`: when a call is read back with its full key and its time.
* `pickle_names_iff`: the same for every call of a stream whose keys came from accepted lines.
-/

namespace Brubeck
namespace Carbon

open Lib Lib.Pickle Statsd

/-- A name that a metric whose key came from an accepted line is sampled under. -/
def SampledName (name : Key) : Prop :=
  ∃ (mem : List Byte) (buffer stop : Nat), ∃ r ∈ accepted mem buffer stop,
    ∃ (metric : Metric) (stats : InternalStats) (sample_freq : Int) (value : Value),
      metric.key = r.key ∧ (name, value) ∈ (metric.sample stats sample_freq).1

theorem SampledName.nulFree {name : Key} (h : SampledName name) : (0 : Byte) ∉ name := by
  obtain ⟨mem, buffer, stop, r, hr, metric, stats, sample_freq, value, hkey, hmem⟩ := h
  obtain ⟨hbytes, hlen⟩ := accepted_key hr
  obtain ⟨suffix, hs, hname⟩ := Metric.sample_name (by rw [hkey]; exact hlen) hmem
  rw [show name = metric.key ++ str suffix.toList from hname, hkey, List.mem_append]
  exact not_or.mpr ⟨fun h => (hbytes 0 h).nul rfl, suffix_nul hs⟩

/-- The full key, the time as the non-negative number it is, and the value. -/
def Call.exact (call : Call) : Val :=
  .tuple [.str call.key, .tuple [.int call.tick_time.toNat, .float call.value.toNat]]

theorem take_mod_eq_iff (key : Key) : key.take (key.length % 2 ^ 8) = key ↔ key.length ≤ 255 := by
  constructor
  · intro h
    have hlen := congrArg List.length h
    rw [List.length_take] at hlen
    omega
  · intro h
    rw [Nat.mod_eq_of_lt (by omega), List.take_length]

theorem i32_eq_iff (x : UInt32) : i32 x.toNat = x.toNat ↔ x.toNat < 2 ^ 31 := by
  have hlt := x.toNat_lt
  rw [i32]
  omega

/-- A call is read back exactly when its key has at most 255 bytes and its time 31 bits. -/
theorem Call.val_eq_exact_iff {call : Call} (h : (0 : Byte) ∉ call.key) :
    call.val = call.exact ↔ call.key.length ≤ 255 ∧ call.tick_time.toNat < 2 ^ 31 := by
  rw [Call.val, entryVal, Call.exact, Call.key_len, strlen_of_nulFree h, ← take_mod_eq_iff,
    ← i32_eq_iff]
  simp

/-- In a stream of samples of metrics whose keys came from accepted lines, an entry carries the full
name and the time exactly when the name has at most 255 bytes and the time is below `2 ^ 31`. -/
theorem pickle_names_iff {env : Nat → Answer} (henv : NoFailure env) {carbon : Carbon}
    (hconn : carbon.connected = true) {buf : Pickler} (hbuf : buf.ptr.length = PICKLE_BUFFER_SIZE)
    (hinit : carbon.pickler = pickle1Init buf) {calls : List Call}
    (hcalls : ∀ call ∈ calls, SampledName call.key) :
    ∃ written entries,
      ((eachCall env carbon calls).pickle1Flush env).conns.headD [] =
        carbon.conns.headD [] ++ written ∧
      decodeStream written = some entries ∧
      List.Forall₂ (fun (call : Call) v =>
        v = call.exact ↔ call.key.length ≤ 255 ∧ call.tick_time.toNat < 2 ^ 31) calls entries := by
  obtain ⟨written, hwire, hdecode⟩ := stream_entries henv hconn hbuf hinit calls
  refine ⟨written, calls.map Call.val, hwire, hdecode, List.forall₂_map_right_iff.mpr ?_⟩
  exact List.forall₂_same.mpr fun call hmem => Call.val_eq_exact_iff (hcalls call hmem).nulFree

theorem sampledName_letters {n : Nat} (hn : 0 < n) (hlen : n < 2 ^ 16) :
    SampledName (List.replicate n (ch 'a')) := by
  obtain ⟨r, hr, hkey, -⟩ := accepted_letters hn hlen .g
  refine ⟨_, _, _, r, by rw [hr]; exact List.mem_singleton_self r,
    Server.newMetric (List.replicate n (ch 'a')) .gauge,
    ⟨0, ⟨0, 0, 0, 0, 0, 0, 0⟩, ⟨0, 0, 0, 0, 0, 0, 0⟩⟩, 10, 0, hkey.symm, ?_⟩
  exact List.mem_singleton_self _

def shortCall : Call := ⟨List.replicate 3 (ch 'a'), 1, 7⟩

theorem pickle_names_iff_short :
    ∃ written entries,
      ((eachCall (fun _ => ⟨0, some 100⟩) fresh [shortCall]).pickle1Flush
        (fun _ => ⟨0, some 100⟩)).conns.headD [] = fresh.conns.headD [] ++ written ∧
      decodeStream written = some entries ∧
      List.Forall₂ (fun (call : Call) v =>
        v = call.exact ↔ call.key.length ≤ 255 ∧ call.tick_time.toNat < 2 ^ 31) [shortCall] entries :=
  pickle_names_iff (fun _ => ⟨99, rfl⟩) rfl List.length_replicate rfl (by
    intro call hmem
    rw [List.mem_singleton.mp hmem]
    exact sampledName_letters (by omega) (by omega))

def longCall : Call := ⟨List.replicate 256 (ch 'a'), 1, 7⟩

def lateCall : Call := ⟨List.replicate 3 (ch 'a'), 1, 0x80000000⟩

theorem longCall_val : longCall.val = .tuple [.str [], .tuple [.int 7, .float 1]] := by
  have hnul : (0 : Byte) ∉ longCall.key := fun h => absurd (List.eq_of_mem_replicate h) (by decide)
  have hlong : longCall.key.length = 256 := List.length_replicate
  have hlen : longCall.key_len = 0 := by
    rw [Call.key_len, strlen_of_nulFree hnul, hlong]
    rfl
  have htick : i32 longCall.tick_time.toNat = 7 := by decide
  rw [Call.val, entryVal, hlen, List.take_zero, htick]
  rfl

theorem lateCall_val :
    lateCall.val = .tuple [.str lateCall.key, .tuple [.int (-2147483648), .float 1]] := by
  have hkey : lateCall.key.take lateCall.key_len = lateCall.key := by decide
  have htick : i32 lateCall.tick_time.toNat = -2147483648 := by decide
  rw [Call.val, entryVal, hkey, htick]
  rfl

/-- The name of 256 bytes is read back as the empty name, and the time as a negative one. -/
theorem pickle_names_lost :
    SampledName longCall.key ∧ SampledName lateCall.key ∧
    ∃ written,
      ((eachCall (fun _ => ⟨0, some 100⟩) fresh [longCall, lateCall]).pickle1Flush
        (fun _ => ⟨0, some 100⟩)).conns.headD [] = fresh.conns.headD [] ++ written ∧
      decodeStream written =
        some [.tuple [.str [], .tuple [.int 7, .float 1]],
          .tuple [.str lateCall.key, .tuple [.int (-2147483648), .float 1]]] := by
  refine ⟨sampledName_letters (by omega) (by omega), sampledName_letters (by omega) (by omega), ?_⟩
  have henv : NoFailure fun _ => ⟨0, some 100⟩ := fun _ => ⟨99, rfl⟩
  have hconn : fresh.connected = true := rfl
  obtain ⟨written, hwire, hdecode⟩ := stream_entries henv hconn List.length_replicate rfl
    [longCall, lateCall]
  refine ⟨written, hwire, ?_⟩
  rw [hdecode, List.map_cons, List.map_singleton, longCall_val, lateCall_val]

end Carbon
end Brubeck
