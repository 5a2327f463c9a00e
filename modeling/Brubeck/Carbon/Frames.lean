import Brubeck.Carbon.Buffer
import Brubeck.Carbon.Relay

/-!
# Brubeck.Carbon.Frames

What a relay reads from a pickle backend: frames of many entries each, that are held back until the
buffer is full or the round ends.

* `pickle1`: the encoder. A frame is a unit, and carries what was in the buffer.
* `pickle_stream`: what the relay has read after a run.
-/

namespace Brubeck
namespace Carbon

open Lib Lib.Pickle

/-- The tuple that the relay makes of a sample. -/
def valOf (patterns : Patterns) (e : Entry) : Val :=
  Call.val ⟨e.sample.name, patterns.double e.sample.value, e.now⟩

/-! ## The encoder -/

def CarriesFrame (patterns : Patterns) (bytes : List Byte) (entries : List Entry) : Prop :=
  ∃ payload, bytes = frame payload ∧ payload.length < 256 ^ 4 ∧
    loadList payload = some (entries.map (valOf patterns))

theorem units_frames {patterns : Patterns} (units : List (List Byte × List Entry))
    (h : ∀ u ∈ units, CarriesFrame patterns u.1 u.2) :
    ∃ frames : List (List Byte × List Val),
      (∀ f ∈ frames, f.1.length < 256 ^ 4 ∧ loadList f.1 = some f.2) ∧
      units.flatMap Prod.fst = frames.flatMap (fun f => frame f.1) ∧
      (units.flatMap Prod.snd).map (valOf patterns) = frames.flatMap (·.2) := by
  induction units with
  | nil => exact ⟨[], fun f hf => absurd hf List.not_mem_nil, rfl, rfl⟩
  | cons u units ih =>
    obtain ⟨payload, hbytes, hlen, hload⟩ := h u List.mem_cons_self
    obtain ⟨frames, hframes, hfst, hsnd⟩ := ih fun u' hu' => h u' (List.mem_cons_of_mem _ hu')
    refine ⟨(payload, u.2.map (valOf patterns)) :: frames, fun f hf => ?_, ?_, ?_⟩
    · rcases List.mem_cons.mp hf with rfl | hf
      · exact ⟨hlen, hload⟩
      · exact hframes f hf
    · rw [List.flatMap_cons, hbytes, hfst, List.flatMap_cons]
    · rw [List.flatMap_cons, List.map_append, hsnd, List.flatMap_cons]

def pickleFraming (patterns : Patterns) : Framing Val where
  pickle := true
  Carries := CarriesFrame patterns
  Held := fun buf pending => ∃ body, Half buf body (pending.map (valOf patterns))
  read := readStream
  value := valOf patterns
  reads := by
    intro units torn hunits htorn
    obtain ⟨frames, hframes, hfst, hsnd⟩ := units_frames units hunits
    rw [hfst, hsnd]
    refine readStream_frames hframes (htorn.imp_right ?_)
    rintro ⟨bytes, entries, ⟨payload, rfl, hlen, -⟩, hfront, hproper⟩
    exact ⟨payload, hlen, hfront, hproper⟩

/-- A flush: the frame of what was in the buffer has come whole, or the connection is closed. -/
theorem Carried.flushed {patterns : Patterns} {carbon : Carbon} {log pending : List Entry}
    (h : Carried (pickleFraming patterns) carbon log pending) (env : Nat → Answer) :
    Carried (pickleFraming patterns) (carbon.pickle1Flush env) (log ++ pending) [] ∨
      ((carbon.pickle1Flush env).connected = false ∧
        Carried (pickleFraming patterns) (carbon.pickle1Flush env) log []) := by
  obtain ⟨body, hhalf⟩ := h.held
  by_cases hskip : carbon.pickler.pt = 1 ∨ ¬ carbon.connected
  · have hnone : pending = [] := by
      rcases hskip with hpt | hconn
      · exact List.map_eq_nil_iff.mp (hhalf.pt_eq_one.mp hpt)
      · exact h.offline (by simpa using hconn)
    subst hnone
    rw [pickle1Flush_skip env hskip, List.append_nil]
    exact .inl h
  · obtain ⟨hpt, hconn⟩ := not_or.mp hskip
    obtain ⟨hput, hbuf⟩ := pickle1Flush_put env (not_not.mp hconn) hpt
    have hunit : CarriesFrame patterns (flushUnit carbon.pickler) pending := by
      refine ⟨body ++ trail, flushUnit_eq hhalf, ?_, half_load hhalf⟩
      have hpos := hhalf.pos
      have hle := hhalf.pos_le
      rw [List.length_append, show trail.length = 2 from rfl]
      omega
    have hheld : (pickleFraming patterns).Held (carbon.pickle1Flush env).pickler [] := by
      rw [hbuf]
      exact ⟨lead, flushed_half hhalf⟩
    rcases h.put (not_not.mp hconn) hunit hput (pickle1Flush_frame env carbon).pickle hheld with
      ⟨-, hmore⟩ | hclosed
    · exact .inl hmore
    · exact .inr hclosed

theorem Carried.pushed {patterns : Patterns} {carbon : Carbon} {log pending : List Entry}
    (h : Carried (pickleFraming patterns) carbon log pending) (hconn : carbon.connected = true)
    {s : Sampled}
    (hroom : carbon.pickler.pos + pickle1Size (strlen s.name % 2 ^ 8) < PICKLE_BUFFER_SIZE) :
    Carried (pickleFraming patterns)
      { carbon with
        pickler := pickle1Push carbon.pickler s.name (strlen s.name % 2 ^ 8) carbon.tick_time
          (patterns.double s.value) }
      log (pending ++ [⟨carbon.tick_time, s⟩]) := by
  obtain ⟨body, hhalf⟩ := h.held
  have hk : strlen s.name % 2 ^ 8 ≤ s.name.length := (Nat.mod_le _ _).trans (strlen_le s.name)
  have hmore := half_push hhalf hk (Nat.mod_lt _ (by decide)) hroom carbon.tick_time
    (patterns.double s.value)
  refine ⟨h.encoder, ?_, fun hoff => ?_, h.links⟩
  · have hheld : ∃ body', Half (pickle1Push carbon.pickler s.name (strlen s.name % 2 ^ 8) carbon.tick_time
        (patterns.double s.value)) body' ((pending ++ [Entry.mk carbon.tick_time s]).map (valOf patterns)) := by
      rw [List.map_append]
      exact ⟨_, hmore⟩
    exact hheld
  · rw [show carbon.connected = false from hoff] at hconn
    cases hconn

theorem Sending.entry {patterns : Patterns} {now : UInt32} {log done : List Entry} {carbon : Carbon}
    (env : Nat → Answer) (h : Sending (pickleFraming patterns) now log done carbon) (s : Sampled) :
    Sending (pickleFraming patterns) now log (done ++ [⟨now, s⟩])
      (carbon.sampleCallback patterns env (s.name, s.value)) := by
  obtain ⟨part, pending, hcarried, hfront, hall⟩ := h.part
  have hpickle : carbon.pickle = true := hcarried.encoder
  have hframe := sampleCallback_frame patterns env carbon (s.name, s.value)
  refine ⟨hframe.tick_time.trans h.time, ?_⟩
  rw [sampleCallback, if_pos hpickle, pickle1Each_eq]
  -- after `makeRoom`, the entry has room, and nothing is lost but with the connection
  have hspace : ∃ part' pending',
      Carried (pickleFraming patterns) (carbon.makeRoom env (strlen s.name % 2 ^ 8)) (log ++ part') pending' ∧
      part' ++ pending' <+: done ∧
      ((carbon.makeRoom env (strlen s.name % 2 ^ 8)).connected = true → part' ++ pending' = done) ∧
      (carbon.makeRoom env (strlen s.name % 2 ^ 8)).pickler.pos + pickle1Size (strlen s.name % 2 ^ 8) <
        PICKLE_BUFFER_SIZE := by
    by_cases hfull : PICKLE_BUFFER_SIZE ≤ carbon.pickler.pos + pickle1Size (strlen s.name % 2 ^ 8)
    · rw [makeRoom, if_pos hfull]
      have hempty : ∀ {log' : List Entry},
          Carried (pickleFraming patterns) (carbon.pickle1Flush env) log' [] →
          (carbon.pickle1Flush env).pickler.pos + pickle1Size (strlen s.name % 2 ^ 8) <
            PICKLE_BUFFER_SIZE := by
        intro log' hflush
        obtain ⟨body, hhalf⟩ := hflush.held
        exact Half.room hhalf (Nat.mod_lt _ (by decide))
      have hopen : (carbon.pickle1Flush env).connected = true → carbon.connected = true := by
        intro hconn
        by_contra hoff
        rw [pickle1Flush_skip env (.inr hoff)] at hconn
        exact hoff hconn
      rcases hcarried.flushed env with hflush | ⟨hclosed, hflush⟩
      · rw [List.append_assoc] at hflush
        exact ⟨part ++ pending, [], hflush, by rwa [List.append_nil],
          fun hconn => by rw [List.append_nil]; exact hall (hopen hconn), hempty hflush⟩
      · refine ⟨part, [], hflush, ?_, fun hconn => ?_, hempty hflush⟩
        · rw [List.append_nil]
          exact (List.prefix_append part pending).trans hfront
        · rw [hclosed] at hconn
          cases hconn
    · rw [makeRoom, if_neg hfull]
      exact ⟨part, pending, hcarried, hfront, hall, Nat.not_le.mp hfull⟩
  obtain ⟨part', pending', hcarried', hfront', hall', hroom⟩ := hspace
  have htime : (carbon.makeRoom env (strlen s.name % 2 ^ 8)).tick_time = now := by
    rw [makeRoom]
    split
    · exact (pickle1Flush_frame env carbon).tick_time.trans h.time
    · exact h.time
  by_cases hconn : (carbon.makeRoom env (strlen s.name % 2 ^ 8)).connected = true
  · simp only [if_neg (not_not.mpr hconn)]
    have hmore := hcarried'.pushed hconn hroom
    rw [htime] at hmore ⊢
    have heq : part' ++ (pending' ++ [⟨now, s⟩]) = done ++ [⟨now, s⟩] := by
      rw [← List.append_assoc, hall' hconn]
    exact ⟨part', _, hmore, heq ▸ List.prefix_rfl, fun _ => heq⟩
  · simp only [if_pos hconn]
    exact ⟨part', pending', hcarried', hfront'.trans (List.prefix_append _ _),
      fun hopen => absurd hopen hconn⟩

/-- `pickle1_each` and `pickle1_flush`. -/
def pickle1 (patterns : Patterns) : Encoder patterns Val where
  toFraming := pickleFraming patterns
  Sends := fun _ => True
  sample := fun env h s _ => h.entry env s
  flush := by
    intro now log done carbon env h
    obtain ⟨part, pending, hcarried, hfront, hall⟩ := h.part
    have hflush : carbon.flush env = carbon.pickle1Flush env := by
      rw [Carbon.flush, if_pos (show carbon.pickle = true from hcarried.encoder)]
    rw [hflush]
    rcases hcarried.flushed env with hmore | ⟨hclosed, hsame⟩
    · rw [List.append_assoc] at hmore
      refine ⟨part ++ pending, hmore, hfront, fun hconn => ?_⟩
      by_cases hopen : carbon.connected = true
      · exact hall hopen
      · rw [pickle1Flush_skip env (.inr hopen)] at hconn
        exact absurd hconn hopen
    · refine ⟨part, hsame, (List.prefix_append part pending).trans hfront, fun hconn => ?_⟩
      rw [hclosed] at hconn
      cases hconn

theorem pickle1_start (patterns : Patterns) (frequency : Int) {ptr : List Byte}
    (hptr : ptr.length = PICKLE_BUFFER_SIZE) :
    Carried (pickle1 patterns).toFraming (Carbon.new true frequency ptr) [] [] :=
  ⟨rfl, ⟨lead, half_init hptr⟩, fun _ => rfl, [], rfl, rfl, fun hc => by cases hc⟩

end Carbon

namespace Server

open Lib Lib.Pickle Statsd Carbon

/-- **The pickle relay.** After every run of a server, whatever the kernel has answered to each
connection and each write, a relay that has read all connections of a pickle backend has got, in order,
a part of what each round of the backend reported: the first samples of the round, and all of them if
the connection was open when the round ended. A frame that was cut short takes its entries with it, and
nothing comes twice or under the time of another round. -/
theorem pickle_stream {patterns : Patterns} {config : Config} {b : Nat} {frequency : Int} {ptr : List Byte}
    (hb : config.backends[b]? = some (Carbon.new true frequency ptr))
    (hptr : ptr.length = PICKLE_BUFFER_SIZE) {overlay : As → As} {before server : Server}
    {early late : List Event} {out out' : List Sampled}
    (hearly : Machine.run (step patterns) (boot config) early = some (before, out))
    (hlate : Machine.run (step patterns) (before.internalInit overlay) late = some (server, out')) :
    ∃ parts carbon, List.Forall₂ Report.Gives (reported patterns b config overlay before early late) parts ∧
      server.backends[b]? = some carbon ∧
      (carbon.conns.reverse.mapM readStream).map List.flatten =
        some (parts.flatten.map (valOf patterns)) :=
  (pickle1 patterns).streams hb (pickle1_start patterns frequency hptr) hearly hlate
    fun _ _ _ _ => trivial

def pickleConfig : Config where
  name := str "brubeck".toList
  backends := [Carbon.new true 10 (List.replicate PICKLE_BUFFER_SIZE 0)]
  backends_pos := by decide
  queues := by
    intro carbon hc
    rw [List.mem_singleton.mp hc]
    rfl

/-- A round whose frame is cut short after five bytes, and a round on a new connection. -/
def tornFrame : List Event :=
  [.tick ⟨0, true, 7, fun i => ⟨0, if i = 0 then some 5 else none⟩⟩,
    .tick ⟨0, true, 8, fun _ => ⟨0, some 5000⟩⟩]

theorem pickle_stream_torn :
    ∃ server out parts carbon,
      Machine.run (step ⟨fun _ => 0, fun _ => 0⟩) ((boot pickleConfig).internalInit id) tornFrame =
        some (server, out) ∧
      (reported ⟨fun _ => 0, fun _ => 0⟩ 0 pickleConfig id (boot pickleConfig) [] tornFrame).map
        Report.opened = [false, true] ∧
      List.Forall₂ Report.Gives
        (reported ⟨fun _ => 0, fun _ => 0⟩ 0 pickleConfig id (boot pickleConfig) [] tornFrame) parts ∧
      server.backends[0]? = some carbon ∧
      (carbon.conns.reverse.mapM readStream).map List.flatten =
        some (parts.flatten.map (valOf ⟨fun _ => 0, fun _ => 0⟩)) := by
  have hb : pickleConfig.backends[0]? =
      some (Carbon.new true 10 (List.replicate PICKLE_BUFFER_SIZE 0)) := rfl
  have hearly : Machine.run (step ⟨fun _ => 0, fun _ => 0⟩) (boot pickleConfig) [] =
      some (boot pickleConfig, []) := rfl
  obtain ⟨⟨server, out⟩, hrun⟩ : ∃ r, Machine.run (step ⟨fun _ => 0, fun _ => 0⟩)
      ((boot pickleConfig).internalInit id) tornFrame = some r := ⟨_, rfl⟩
  obtain ⟨parts, carbon, hgives, hc, hread⟩ :=
    pickle_stream hb List.length_replicate hearly hrun
  exact ⟨server, out, parts, carbon, hrun, by decide +kernel, hgives, hc, hread⟩

end Server
end Brubeck
