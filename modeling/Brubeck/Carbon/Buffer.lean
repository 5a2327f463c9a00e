import Brubeck.Carbon.Thread

/-!
# Brubeck.Carbon.Buffer

The pickle buffer over whole runs of `backend__thread`, whatever the samples are and however the
connects and writes come out.

* `Buffered`: a half-built buffer, empty while there is no connection, together with the frames
  handed to the socket so far. `Buffered.flush`, `Buffered.makeRoom` and `Buffered.sample` keep it.
* `writes`: the places in the buffer that a call writes to.
* `pickle_buffer`: what holds between any two calls.
-/

namespace Brubeck
namespace Carbon

open Lib Lib.Pickle

/-- The state `pickle1_init` sets up: nothing but the lead after the room for the length. -/
structure Initial (buf : Pickler) : Prop where
  pos : buf.pos = 8
  pt : buf.pt = 1
  lead : (buf.ptr.drop 4).take 4 = lead

theorem init_initial {buf : Pickler} (h : buf.ptr.length = PICKLE_BUFFER_SIZE) :
    Initial (pickle1Init buf) where
  pos := rfl
  pt := rfl
  lead := by
    have htake : (buf.ptr.take 4).length = 4 := by
      rw [List.length_take, h]
      rfl
    rw [pickle1Init, store, List.drop_left' htake]
    exact List.take_left' rfl

/-- The buffer holds the entries `vs`, and none of them while there is no connection. The frames
`done` were handed to the socket before; together they hold all that was ever pushed. -/
structure Buffered (carbon : Carbon) (effects : List Effect) (done : List (List Byte × List Val))
    (body : List Byte) (vs : List Val) : Prop where
  half : Half carbon.pickler body vs
  fresh : vs = [] → Initial carbon.pickler
  offline : carbon.connected = false → vs = []
  framed : offers effects = done.map fun f => frame f.1
  loads : ∀ f ∈ done, f.1.length < 256 ^ 4 ∧ loadList f.1 = some f.2
  pushed : done.flatMap (·.2) ++ vs = pushes effects

theorem Half.pt_eq_one {buf : Pickler} {body : List Byte} {vs : List Val} (h : Half buf body vs) :
    buf.pt = 1 ↔ vs = [] := by
  rw [h.pt, ← List.length_eq_zero_iff]
  omega

/-- A flush leaves no entry in the buffer: they are on their way, or there were none. -/
theorem Buffered.flush {carbon : Carbon} {effects : List Effect}
    {done : List (List Byte × List Val)} {body : List Byte} {vs : List Val}
    (h : Buffered carbon effects done body vs) (env : Nat → Answer) :
    ∃ done' body', Buffered (carbon.pickle1Flush env) (effects ++ carbon.flushEffects) done' body' [] := by
  by_cases hskip : carbon.pickler.pt = 1 ∨ ¬ carbon.connected
  · have hvs : vs = [] := by
      rcases hskip with hpt | hconn
      · exact h.half.pt_eq_one.mp hpt
      · exact h.offline (by simpa using hconn)
    subst hvs
    rw [pickle1Flush_skip env hskip, flushEffects, if_pos hskip, List.append_nil]
    exact ⟨done, body, h⟩
  · obtain ⟨hpt, hconn⟩ := not_or.mp hskip
    obtain ⟨-, hbuf⟩ := pickle1Flush_put env (not_not.mp hconn) hpt
    have hsize : body.length + trail.length < 256 ^ 4 := by
      have h1 := h.half.pos
      have h2 := h.half.pos_le
      rw [show trail.length = 2 from rfl]
      omega
    rw [flushEffects, if_neg hskip, flushUnit_eq h.half]
    refine ⟨done ++ [(body ++ trail, vs)], lead, ?_, ?_, fun _ => rfl, ?_, ?_, ?_⟩
    · rw [hbuf]
      exact flushed_half h.half
    · intro _
      rw [hbuf]
      exact init_initial (flush_size h.half _)
    · rw [offers_append, h.framed, List.map_append]
      rfl
    · intro f hf
      rcases List.mem_append.mp hf with hf | hf
      · exact h.loads f hf
      · obtain rfl := List.mem_singleton.mp hf
        exact ⟨by rw [List.length_append]; exact hsize, half_load h.half⟩
    · rw [pushes_append, ← h.pushed, List.flatMap_append, List.flatMap_singleton, List.append_nil]
      exact (List.append_nil _).symm

theorem Half.room {buf : Pickler} {body : List Byte} (h : Half buf body []) {key_len : Nat}
    (h8 : key_len < 2 ^ 8) : buf.pos + pickle1Size key_len < PICKLE_BUFFER_SIZE := by
  rw [h.fresh rfl, pickle1Size, PICKLE_BUFFER_SIZE]
  omega

theorem Buffered.makeRoom {carbon : Carbon} {effects : List Effect}
    {done : List (List Byte × List Val)} {body : List Byte} {vs : List Val}
    (h : Buffered carbon effects done body vs) (env : Nat → Answer) {key_len : Nat}
    (h8 : key_len < 2 ^ 8) :
    ∃ done' body' vs',
      Buffered (carbon.makeRoom env key_len) (effects ++ carbon.makeRoomEffects key_len) done' body' vs' ∧
      (carbon.makeRoom env key_len).pickler.pos + pickle1Size key_len < PICKLE_BUFFER_SIZE := by
  by_cases hfull : PICKLE_BUFFER_SIZE ≤ carbon.pickler.pos + pickle1Size key_len
  · obtain ⟨done', body', hflush⟩ := h.flush env
    rw [Carbon.makeRoom, makeRoomEffects, if_pos hfull, if_pos hfull]
    exact ⟨done', body', [], hflush, hflush.half.room h8⟩
  · rw [Carbon.makeRoom, makeRoomEffects, if_neg hfull, if_neg hfull, List.append_nil]
    exact ⟨done, body, vs, h, Nat.not_le.mp hfull⟩

theorem Buffered.push {carbon : Carbon} {effects : List Effect}
    {done : List (List Byte × List Val)} {body : List Byte} {vs : List Val}
    (h : Buffered carbon effects done body vs) (hconn : carbon.connected = true) {key : List Byte}
    (hroom : carbon.pickler.pos + pickle1Size (strlen key % 2 ^ 8) < PICKLE_BUFFER_SIZE)
    (value : UInt64) :
    ∃ body', Buffered
      { carbon with
        pickler := pickle1Push carbon.pickler key (strlen key % 2 ^ 8) carbon.tick_time value }
      (effects ++ [.push (entryVal key (strlen key % 2 ^ 8) carbon.tick_time value)]) done body'
      (vs ++ [entryVal key (strlen key % 2 ^ 8) carbon.tick_time value]) := by
  have hk : strlen key % 2 ^ 8 ≤ key.length := (Nat.mod_le _ _).trans (strlen_le key)
  refine ⟨_, half_push h.half hk (Nat.mod_lt _ (by decide)) hroom _ _, ?_, ?_, ?_, h.loads, ?_⟩
  · intro hnil
    simp at hnil
  · intro hoff
    rw [show carbon.connected = false from hoff] at hconn
    cases hconn
  · rw [offers_append, h.framed]
    exact List.append_nil _
  · rw [pushes_append, ← h.pushed, ← List.append_assoc]
    rfl

/-- One sample on a pickle backend. -/
theorem Buffered.sample {carbon : Carbon} {effects : List Effect}
    {done : List (List Byte × List Val)} {body : List Byte} {vs : List Val}
    (h : Buffered carbon effects done body vs) (hpickle : carbon.pickle = true) (patterns : Patterns)
    (env : Nat → Answer) (out : Key × Value) :
    ∃ done' body' vs', Buffered (carbon.sampleCallback patterns env out)
      (effects ++ carbon.sampleEffects patterns env out) done' body' vs' := by
  obtain ⟨done', body', vs', hbuf, hroom⟩ := h.makeRoom env (Nat.mod_lt (strlen out.1) (by decide))
  rw [sampleCallback, if_pos hpickle, pickle1Each_eq, sampleEffects, if_pos hpickle]
  by_cases hoff : ¬ (carbon.makeRoom env (strlen out.1 % 2 ^ 8)).connected
  · simp only [if_pos hoff, List.append_nil]
    exact ⟨done', body', vs', hbuf⟩
  · simp only [if_neg hoff, ← List.append_assoc]
    obtain ⟨body'', hpush⟩ := hbuf.push (not_not.mp hoff) hroom (patterns.double out.2)
    exact ⟨done', body'', _, hpush⟩

/-! ## Whole runs -/

/-- The places that `pickle1_flush` writes to, `pickle1_init` included: offsets and lengths. -/
def flushWrites (carbon : Carbon) : List (Nat × Nat) :=
  if carbon.pickler.pt = 1 ∨ ¬ carbon.connected then []
  else [(carbon.pickler.pos, trail.length), (0, 4), (4, lead.length)]

/-- The places in the pickle buffer that a call writes to. -/
def writes (patterns : Patterns) (carbon : Carbon) : Act → List (Nat × Nat)
  | .wake _ _ | .register _ => []
  | .sample env out =>
    let key_len := strlen out.1 % 2 ^ 8
    let c := carbon.makeRoom env key_len
    (if PICKLE_BUFFER_SIZE ≤ carbon.pickler.pos + pickle1Size key_len then carbon.flushWrites else []) ++
      if ¬ c.connected then []
      else [(c.pickler.pos, (pickle1Entry c.pickler.pt out.1 key_len c.tick_time
        (patterns.double out.2)).length)]
  | .flush _ => carbon.flushWrites

theorem flushWrites_le {carbon : Carbon} {body : List Byte} {vs : List Val}
    (h : Half carbon.pickler body vs) {place : Nat × Nat} (hmem : place ∈ carbon.flushWrites) :
    place.1 + place.2 ≤ PICKLE_BUFFER_SIZE := by
  have hpos := h.pos_le
  rw [flushWrites] at hmem
  split at hmem
  · cases hmem
  · have hsize : PICKLE_BUFFER_SIZE = 4096 := rfl
    simp only [List.mem_cons, List.not_mem_nil, or_false] at hmem
    rcases hmem with rfl | rfl | rfl
    · show carbon.pickler.pos + 2 ≤ _
      omega
    · decide
    · decide

theorem Buffered.writes_le {carbon : Carbon} {effects : List Effect}
    {done : List (List Byte × List Val)} {body : List Byte} {vs : List Val}
    (h : Buffered carbon effects done body vs) {patterns : Patterns} {act : Act}
    {place : Nat × Nat} (hmem : place ∈ carbon.writes patterns act) :
    place.1 + place.2 ≤ PICKLE_BUFFER_SIZE := by
  cases act with
  | wake grant now => cases hmem
  | register id => cases hmem
  | flush env => exact flushWrites_le h.half hmem
  | sample env out =>
    obtain ⟨done', body', vs', hbuf, hroom⟩ :=
      h.makeRoom env (Nat.mod_lt (strlen out.1) (by decide))
    rw [writes] at hmem
    rcases List.mem_append.mp hmem with hmem | hmem
    · split at hmem
      · exact flushWrites_le h.half hmem
      · cases hmem
    · split at hmem
      · cases hmem
      · obtain rfl := List.mem_singleton.mp hmem
        have hk : strlen out.1 % 2 ^ 8 ≤ out.1.length := (Nat.mod_le _ _).trans (strlen_le out.1)
        dsimp only
        rw [entry_length hk]
        rw [pickle1Size] at hroom
        omega

/-- A thread between two calls. Between two ticks the buffer is empty. -/
structure Packed (w : Worker) (effects : List Effect) : Prop where
  pickle : w.carbon.pickle = true
  buffered : ∃ done body vs, Buffered w.carbon effects done body vs ∧ (w.ticking = false → vs = [])

theorem Packed.step {patterns : Patterns} {w w' : Worker} {act : Act} {effects out : List Effect}
    (h : Packed w effects) (hstep : w.step patterns act = some (w', out)) :
    Packed w' (effects ++ out) := by
  obtain ⟨hpickle, done, body, vs, hbuf, hidle⟩ := h
  rcases Worker.step_cases hstep with ⟨-, rfl, rfl⟩ | ⟨hnot, hconn, rfl, now, rfl⟩ |
    ⟨hnot, hconn, rfl, now, rfl⟩ | ⟨-, env, sampled, rfl, rfl⟩ | ⟨-, env, rfl, rfl⟩ | ⟨rfl, id, rfl⟩
  · rw [List.append_nil]
    exact ⟨hpickle, done, body, vs, hbuf, hidle⟩
  · rw [List.append_nil]
    exact ⟨hpickle, done, body, vs, ⟨hbuf.half, hbuf.fresh, hbuf.offline, hbuf.framed, hbuf.loads,
      hbuf.pushed⟩, fun h => by cases h⟩
  · -- nothing was buffered while there was no connection
    obtain rfl := hidle hnot
    rw [List.append_nil]
    exact ⟨hpickle, done, body, [], ⟨hbuf.half, hbuf.fresh, fun _ => rfl, hbuf.framed, hbuf.loads,
      hbuf.pushed⟩, fun _ => rfl⟩
  · obtain ⟨done', body', vs', hsample⟩ := hbuf.sample hpickle patterns env sampled
    exact ⟨(sampleCallback_frame ..).pickle.trans hpickle, done', body', vs', hsample,
      fun h => by cases h⟩
  · obtain ⟨done', body', hflush⟩ := hbuf.flush env
    refine ⟨(flush_frame ..).pickle.trans hpickle, done', body', [], ?_, fun _ => rfl⟩
    rw [Carbon.flush, if_pos hpickle, if_pos hpickle]
    exact hflush
  · rw [List.append_nil]
    exact ⟨hpickle, done, body, vs, ⟨hbuf.half, hbuf.fresh, hbuf.offline, hbuf.framed, hbuf.loads,
      hbuf.pushed⟩, hidle⟩

theorem packed_start {ptr : List Byte} (hptr : ptr.length = PICKLE_BUFFER_SIZE) (frequency : Int) :
    Packed ⟨new true frequency ptr, false⟩ [] where
  pickle := rfl
  buffered := ⟨[], lead, [], ⟨half_init hptr, fun _ => init_initial hptr, fun _ => rfl, rfl,
    (fun f hf => by cases hf), rfl⟩, fun _ => rfl⟩

/-- **The pickle buffer.** Between any two calls of a run, with `entries` the tuples that the buffer
holds: everything the next call writes lies inside the buffer, the position leaves room for the
trailer, `pt` counts the entries without wrapping, there is no entry without a connection, and
between two ticks the buffer is as `pickle1_init` left it. Every entry ever pushed is in the buffer,
or in exactly one of the frames handed to the socket. -/
theorem pickle_buffer {patterns : Patterns} {frequency : Int} {ptr : List Byte}
    (hptr : ptr.length = PICKLE_BUFFER_SIZE) {acts : List Act} {w : Worker} {effects : List Effect}
    (hrun : Machine.run (Worker.step patterns) ⟨new true frequency ptr, false⟩ acts =
      some (w, effects)) :
    ∃ (entries : List Val) (done : List (List Byte × List Val)),
      loadList ((w.carbon.pickler.ptr.take w.carbon.pickler.pos).drop 4 ++ trail) = some entries ∧
      (∀ act, ∀ place ∈ w.carbon.writes patterns act, place.1 + place.2 ≤ PICKLE_BUFFER_SIZE) ∧
      8 ≤ w.carbon.pickler.pos ∧ w.carbon.pickler.pos ≤ 4094 ∧
      w.carbon.pickler.pt = 1 + 3 * entries.length ∧ w.carbon.pickler.pt < 2 ^ 16 ∧
      (w.carbon.pickler.pt = 1 ↔ entries = []) ∧
      (w.carbon.connected = false → entries = []) ∧
      (w.ticking = false → Initial w.carbon.pickler) ∧
      offers effects = done.map (fun f => frame f.1) ∧ (∀ f ∈ done, loadList f.1 = some f.2) ∧
      pushes effects = done.flatMap (·.2) ++ entries := by
  obtain ⟨-, done, body, vs, hbuf, hidle⟩ :=
    Machine.run_history Packed (fun h hstep => h.step hstep) (packed_start hptr frequency) hrun
  have hpos := hbuf.half.pos
  have hle := hbuf.half.pos_le
  have hent := hbuf.half.entries
  have hpt := hbuf.half.pt
  have hbody : (w.carbon.pickler.ptr.take w.carbon.pickler.pos).drop 4 = body := by
    obtain ⟨hole, tail, hsplit, hhole⟩ := hbuf.half.split
    rw [hsplit, hpos, ← List.append_assoc, List.take_left' (by rw [List.length_append, hhole]),
      List.drop_left' hhole]
  refine ⟨vs, done, ?_, fun act place hmem => hbuf.writes_le hmem, ?_, ?_, hpt, ?_,
    hbuf.half.pt_eq_one, hbuf.offline, fun h => hbuf.fresh (hidle h), hbuf.framed,
    fun f hf => (hbuf.loads f hf).2, hbuf.pushed.symm⟩
  · rw [hbody]
    exact half_load hbuf.half
  · omega
  · omega
  · omega

/-- A tick with two samples, the second of which is flushed to a socket that takes three bytes and
then fails. -/
def brokenFlush : List Act :=
  [.wake true 7, .sample (fun _ => ⟨0, none⟩) (str ['a'], 1), .sample (fun _ => ⟨0, none⟩) (str ['b'], 2),
    .flush fun i => ⟨i, if i = 0 then some 3 else none⟩]

theorem pickle_buffer_broken :
    ∃ w effects, Machine.run (Worker.step ⟨fun _ => 0, fun _ => 0⟩)
        ⟨new true 10 (List.replicate PICKLE_BUFFER_SIZE 0), false⟩ brokenFlush = some (w, effects) ∧
      w.ticking = false ∧ Initial w.carbon.pickler := by
  have hsome : (Machine.run (Worker.step ⟨fun _ => 0, fun _ => 0⟩)
      ⟨new true 10 (List.replicate PICKLE_BUFFER_SIZE 0), false⟩ brokenFlush).map
        (fun r => r.1.ticking) = some false := rfl
  obtain ⟨⟨w, effects⟩, hrun, hidle⟩ := Option.map_eq_some_iff.mp hsome
  obtain ⟨entries, done, -, -, -, -, -, -, -, -, hinitial, -⟩ :=
    pickle_buffer List.length_replicate hrun
  exact ⟨w, effects, hrun, hidle, hinitial hidle⟩

end Carbon
end Brubeck
