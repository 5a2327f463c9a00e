import Brubeck.Lib.Machine
import Brubeck.Queues

/-!
# Brubeck.Load

`load_backends` and `load_samplers`: two loops over the configuration that store pointers into two
arrays of eight, one right after the other in `struct brubeck_server`, at indices that nothing
checks.

* `Loaded`: the words of the struct from the arrays on, and the two counters.
* `run_load`: what a loop leaves. The `n`-th entry of a known type is stored at index `n`.
* `sharding_total_iff`: the configurations for which every store stays in its array and every key
  gets a backend.
* `loaded_shard`: for those, `Server` has the backends that the struct has.
-/

namespace Brubeck
namespace Load

open Lib

/-- The two arrays, in the order of the struct. -/
inductive Region where
  | samplers
  | backends
  deriving DecidableEq

/-- What a word holds: nothing, the `n`-th object made for an array, or some other field's bytes. -/
inductive Word where
  | null
  | object (region : Region) (n : Nat)
  | field
  deriving DecidableEq

def ARRAY_SIZE : Nat := 8

/-- The address of an array, in words from `samplers` on. -/
def Region.base : Region → Nat
  | .samplers => 0
  | .backends => ARRAY_SIZE

/-- The slots and fields of the struct from `samplers` on. -/
inductive Slot where
  | sampler (i : Fin ARRAY_SIZE)
  | backend (i : Fin ARRAY_SIZE)
  | config
  | internalStats (word : Fin 8)

namespace Slot

def addr : Slot → Nat
  | .sampler i => i
  | .backend i => ARRAY_SIZE + i
  | .config => 2 * ARRAY_SIZE
  | .internalStats word => 2 * ARRAY_SIZE + 1 + word

/-- The array and the index that a slot is named by. -/
def names : Slot → Option (Region × Nat)
  | .sampler i => some (.samplers, i)
  | .backend i => some (.backends, i)
  | .config => none
  | .internalStats _ => none

end Slot

/-- An entry of `backends` or `samplers`: the string under `type`, if there is one, and whether its
constructor dies. -/
structure Entry where
  type : Option String
  dies : Bool

structure Loaded where
  memory : Nat → Word
  active : Region → Nat

/-- A store into one of the arrays, with the memory before and after it. -/
structure Write where
  region : Region
  index : Nat
  before : Nat → Word
  after : Nat → Word

/-- `memset`, and the configuration as it was read. -/
def blank : Loaded where
  memory addr := if addr < 2 * ARRAY_SIZE then .null else .field
  active _ := 0

/-- `array[active++] = object`. -/
def push (region : Region) (st : Loaded) : Loaded × List Write :=
  let index := st.active region
  let memory := Function.update st.memory (region.base + index) (.object region index)
  (⟨memory, Function.update st.active region (index + 1)⟩, [⟨region, index, st.memory, memory⟩])

def Entry.known (types : List String) (entry : Entry) : Bool :=
  entry.type.elim false (types.contains ·)

/-- One round of a loop. An entry of another type, or of none, is only logged. -/
def loadEntry (region : Region) (types : List String) (st : Loaded) (entry : Entry) :
    Option (Loaded × List Write) :=
  if entry.known types then if entry.dies then none else some (push region st)
  else some (st, [])

def backendTypes : List String := ["carbon"]

def samplerTypes : List String := ["statsd", "statsd-secure"]

def loadBackends (st : Loaded) (backends : List Entry) : Option (Loaded × List Write) :=
  Machine.run (loadEntry .backends backendTypes) st backends

def loadSamplers (st : Loaded) (samplers : List Entry) : Option (Loaded × List Write) :=
  Machine.run (loadEntry .samplers samplerTypes) st samplers

/-- What `load_config` stores; `none` when a constructor dies. -/
def loadConfig (backends samplers : List Entry) : Option (Loaded × List Write) :=
  match loadBackends blank backends with
  | none => none
  | some (st, writes) => (loadSamplers st samplers).map fun (st, writes') => (st, writes ++ writes')

/-- `brubeck_metric_shard`: the word that is returned for a key. -/
def metricShard (st : Loaded) (name : Key) : Word :=
  st.memory (Region.base .backends + Concurrent.shardOf (st.active .backends) name)

/-! ## What a loop leaves -/

/-- Some more objects of an array in their places. -/
def filled (region : Region) (n : Nat) (st : Loaded) : Loaded where
  memory addr :=
    if region.base + st.active region ≤ addr ∧ addr < region.base + st.active region + n then
      .object region (addr - region.base)
    else st.memory addr
  active := Function.update st.active region (st.active region + n)

/-- A store of the loop over an array: it changes its own word only. -/
structure Write.Of (region : Region) (write : Write) : Prop where
  place : write.region = region
  after : write.after = Function.update write.before (region.base + write.index)
    (.object region write.index)

theorem filled_zero (region : Region) (st : Loaded) : filled region 0 st = st := by
  simp only [filled, Nat.add_zero, Function.update_eq_self]
  congr 1
  funext addr
  rw [if_neg (by omega)]

theorem filled_push (region : Region) (n : Nat) (st : Loaded) :
    filled region n (push region st).1 = filled region (n + 1) st := by
  simp only [filled, push, Function.update_self, Function.update_idem]
  congr 1
  · funext addr
    rw [Function.update_apply]
    by_cases haddr : addr = region.base + st.active region
    · subst haddr
      rw [if_neg (by omega), if_pos rfl, if_pos (by omega), Nat.add_sub_cancel_left]
    · rw [if_neg haddr]
      have hiff : (region.base + (st.active region + 1) ≤ addr ∧
          addr < region.base + (st.active region + 1) + n) ↔
          (region.base + st.active region ≤ addr ∧ addr < region.base + st.active region + (n + 1)) := by
        omega
      simp only [hiff]
  · rw [Nat.add_assoc, Nat.add_comm 1 n]

/-- The whole loop over an array. -/
theorem run_load {region : Region} {types : List String} {entries : List Entry} :
    ∀ {st st' : Loaded} {writes : List Write},
      Machine.run (loadEntry region types) st entries = some (st', writes) →
      st' = filled region (entries.countP (Entry.known types)) st ∧
      (∀ write ∈ writes, Write.Of region write) ∧
      ∀ i, (∃ write ∈ writes, write.index = i) ↔
        st.active region ≤ i ∧ i < st.active region + entries.countP (Entry.known types) := by
  induction entries with
  | nil =>
    intro st st' writes h
    cases h
    exact ⟨(filled_zero region st).symm, by simp, fun i => by simp⟩
  | cons entry entries ih =>
    intro st st' writes h
    obtain ⟨st₁, writes₁, writes₂, hone, hrun, rfl⟩ := Machine.run_cons h
    obtain ⟨hst, hof, hindex⟩ := ih hrun
    rw [loadEntry] at hone
    by_cases hknown : entry.known types = true
    · rw [if_pos hknown] at hone
      rw [List.countP_cons_of_pos hknown]
      split at hone
      · cases hone
      · cases hone
        simp only [Function.update_self] at hindex
        refine ⟨hst.trans (filled_push region _ st), ?_, fun i => ?_⟩
        · intro write hmem
          rcases List.mem_append.mp hmem with hmem | hmem
          · rw [List.mem_singleton.mp hmem]
            exact ⟨rfl, rfl⟩
          · exact hof write hmem
        · constructor
          · rintro ⟨write, hmem, rfl⟩
            rcases List.mem_append.mp hmem with hmem | hmem
            · rw [List.mem_singleton.mp hmem]
              dsimp only
              omega
            · have := (hindex write.index).mp ⟨write, hmem, rfl⟩
              omega
          · rintro ⟨hlo, hhi⟩
            by_cases hi : i = st.active region
            · exact ⟨_, List.mem_append_left _ (List.mem_singleton_self _), hi.symm⟩
            · obtain ⟨write, hmem, heq⟩ := (hindex i).mpr (by omega)
              exact ⟨write, List.mem_append_right _ hmem, heq⟩
    · rw [if_neg hknown] at hone
      cases hone
      rw [List.countP_cons_of_neg hknown]
      exact ⟨hst, hof, hindex⟩

/-! ## The configurations that fit -/

/-- A word at an index below the end of an array is the slot of that name. -/
theorem Slot.names_of_addr {slot : Slot} {region : Region} {i : Nat} (hi : i < ARRAY_SIZE)
    (h : slot.addr = region.base + i) : slot.names = some (region, i) := by
  cases region <;> cases slot <;> simp [addr, names, Region.base] at h ⊢ <;> omega

/-- A store below the end of its array changes no other slot and no field. -/
theorem Write.Of.slots {region : Region} {write : Write} (h : Write.Of region write)
    (hindex : write.index < ARRAY_SIZE) {slot : Slot} (hslot : slot.names ≠ some (region, write.index)) :
    write.after slot.addr = write.before slot.addr := by
  rw [h.after, Function.update_of_ne]
  exact fun haddr => hslot (Slot.names_of_addr hindex haddr)

/-- What a configuration that loads leaves in the struct. -/
theorem loadConfig_spec {backends samplers : List Entry} {st : Loaded} {writes : List Write}
    (h : loadConfig backends samplers = some (st, writes)) :
    st = filled .samplers (samplers.countP (Entry.known samplerTypes))
      (filled .backends (backends.countP (Entry.known backendTypes)) blank) ∧
    (∀ write ∈ writes, Write.Of write.region write) ∧
    (∀ write ∈ writes, write.index < backends.countP (Entry.known backendTypes) ∨
      write.index < samplers.countP (Entry.known samplerTypes)) ∧
    (∀ i, i < backends.countP (Entry.known backendTypes) → ∃ write ∈ writes, write.index = i) ∧
    ∀ i, i < samplers.countP (Entry.known samplerTypes) → ∃ write ∈ writes, write.index = i := by
  simp only [loadConfig] at h
  cases hback : loadBackends blank backends with
  | none => rw [hback] at h; cases h
  | some result =>
    obtain ⟨st₁, writes₁⟩ := result
    rw [hback] at h
    obtain ⟨⟨st₂, writes₂⟩, hsamp, heq⟩ := Option.map_eq_some_iff.mp h
    cases heq
    obtain ⟨hst₁, hof₁, hindex₁⟩ := run_load hback
    obtain ⟨hst₂, hof₂, hindex₂⟩ := run_load hsamp
    have hzero : blank.active .backends = 0 := rfl
    have hzero' : st₁.active .samplers = 0 := by rw [hst₁]; rfl
    rw [hzero] at hindex₁
    rw [hzero'] at hindex₂
    refine ⟨by rw [hst₂, hst₁], ?_, ?_, ?_, ?_⟩
    · intro write hmem
      rcases List.mem_append.mp hmem with hmem | hmem
      · rw [(hof₁ write hmem).place]
        exact hof₁ write hmem
      · rw [(hof₂ write hmem).place]
        exact hof₂ write hmem
    · intro write hmem
      rcases List.mem_append.mp hmem with hmem | hmem
      · have := (hindex₁ write.index).mp ⟨write, hmem, rfl⟩
        omega
      · have := (hindex₂ write.index).mp ⟨write, hmem, rfl⟩
        omega
    · intro i hi
      obtain ⟨write, hmem, heq⟩ := (hindex₁ i).mpr (by omega)
      exact ⟨write, List.mem_append_left _ hmem, heq⟩
    · intro i hi
      obtain ⟨write, hmem, heq⟩ := (hindex₂ i).mpr (by omega)
      exact ⟨write, List.mem_append_right _ hmem, heq⟩

/-- The word that is returned for a key: a sampler when there are enough of them to reach it. -/
theorem metricShard_filled (m n : Nat) (name : Key) :
    metricShard (filled .samplers m (filled .backends n blank)) name =
      if ARRAY_SIZE + Concurrent.shardOf n name < m then
        .object .samplers (ARRAY_SIZE + Concurrent.shardOf n name)
      else if 0 < n then .object .backends (Concurrent.shardOf n name) else .null := by
  have hactive : (filled .samplers m (filled .backends n blank)).active .backends = n := by
    simp [filled, blank]
  have hshard : Concurrent.shardOf n name < n ∨ n = 0 ∧ Concurrent.shardOf n name = 0 := by
    rcases Nat.eq_zero_or_pos n with rfl | hn
    · exact .inr ⟨rfl, rfl⟩
    · exact .inl (Concurrent.shardOf_lt hn name)
  rw [metricShard, hactive]
  generalize Concurrent.shardOf n name = shard at hshard ⊢
  have hsamplers : ∀ addr, (filled .samplers m (filled .backends n blank)).memory addr =
      if addr < m then .object .samplers addr else (filled .backends n blank).memory addr := by
    intro addr
    show (if 0 + 0 ≤ addr ∧ addr < 0 + 0 + m then Word.object .samplers (addr - 0) else _) = _
    simp
  have hbackends : (filled .backends n blank).memory (ARRAY_SIZE + shard) =
      if 0 < n then .object .backends shard else .null := by
    show (if ARRAY_SIZE + 0 ≤ ARRAY_SIZE + shard ∧ ARRAY_SIZE + shard < ARRAY_SIZE + 0 + n then
        Word.object .backends (ARRAY_SIZE + shard - ARRAY_SIZE)
      else if ARRAY_SIZE + shard < 2 * ARRAY_SIZE then .null else .field) = _
    rcases hshard with hlt | ⟨rfl, rfl⟩
    · rw [if_pos (by omega), if_pos (by omega), Nat.add_sub_cancel_left]
    · rfl
  rw [hsamplers, Region.base, hbackends]

/-- **Sharding is total for the configurations that fit.** When the configuration loads, every store
into the arrays is below their end and changes no other slot or field, and every key gets a backend
of the configuration, exactly when there is a backend and at most eight of them, and at most eight
samplers. -/
theorem sharding_total_iff {backends samplers : List Entry} {st : Loaded} {writes : List Write}
    (h : loadConfig backends samplers = some (st, writes)) :
    ((∀ write ∈ writes, write.index < 8 ∧ ∀ slot : Slot,
        slot.names ≠ some (write.region, write.index) → write.after slot.addr = write.before slot.addr) ∧
      ∀ name : Key, ∃ n < backends.countP (Entry.known backendTypes),
        metricShard st name = .object .backends n) ↔
    (0 < backends.countP (Entry.known backendTypes) ∧
      backends.countP (Entry.known backendTypes) ≤ 8) ∧
      samplers.countP (Entry.known samplerTypes) ≤ 8 := by
  obtain ⟨hst, hof, hindex, hbackends, hsamplers⟩ := loadConfig_spec h
  generalize backends.countP (Entry.known backendTypes) = n at *
  generalize samplers.countP (Entry.known samplerTypes) = m at *
  constructor
  · rintro ⟨hwrites, hshard⟩
    have hn : n ≤ 8 := by
      by_contra hlt
      obtain ⟨write, hmem, heq⟩ := hbackends 8 (by omega)
      exact Nat.lt_irrefl 8 (heq ▸ (hwrites write hmem).1)
    have hm : m ≤ 8 := by
      by_contra hlt
      obtain ⟨write, hmem, heq⟩ := hsamplers 8 (by omega)
      exact Nat.lt_irrefl 8 (heq ▸ (hwrites write hmem).1)
    obtain ⟨i, hi, -⟩ := hshard []
    exact ⟨⟨by omega, hn⟩, hm⟩
  · rintro ⟨⟨hpos, hn⟩, hm⟩
    refine ⟨fun write hmem => ?_, fun name => ⟨Concurrent.shardOf n name, ?_, ?_⟩⟩
    · have hlt : write.index < ARRAY_SIZE := by
        have hsize : ARRAY_SIZE = 8 := rfl
        have := hindex write hmem
        omega
      exact ⟨hlt, fun slot hslot => (hof write hmem).slots hlt hslot⟩
    · exact Concurrent.shardOf_lt hpos name
    · have hsize : ARRAY_SIZE = 8 := rfl
      rw [hst, metricShard_filled, if_neg (by omega), if_pos hpos]

/-- For those configurations `Server` and the struct have the same backends. -/
theorem loaded_shard {backends samplers : List Entry} {st : Loaded} {writes : List Write}
    (h : loadConfig backends samplers = some (st, writes))
    (hsamplers : samplers.countP (Entry.known samplerTypes) ≤ 8) {server : Server}
    (hserver : server.backends.length = backends.countP (Entry.known backendTypes)) (metric : Metric) :
    metricShard st metric.name = .object .backends (server.metricShard metric) := by
  obtain ⟨hst, -⟩ := loadConfig_spec h
  have hsize : ARRAY_SIZE = 8 := rfl
  have hpos := server.backends_pos
  rw [hst, metricShard_filled, if_neg (by omega), if_pos (by omega), Server.shardOf_eq, Server.shardOf,
    Server.queues, List.length_map, hserver]

def carbonEntry : Entry := ⟨some "carbon", false⟩

def statsdEntry : Entry := ⟨some "statsd", false⟩

theorem sharding_total_iff_two :
    ∃ st writes, loadConfig [carbonEntry, ⟨none, false⟩, carbonEntry] [statsdEntry] = some (st, writes) ∧
      (∀ write ∈ writes, write.index < 8) ∧
      ∀ name : Key, ∃ n < 2, metricShard st name = .object .backends n := by
  obtain ⟨st, writes, h⟩ : ∃ st writes,
      loadConfig [carbonEntry, ⟨none, false⟩, carbonEntry] [statsdEntry] = some (st, writes) :=
    ⟨_, _, rfl⟩
  obtain ⟨hwrites, hshard⟩ := (sharding_total_iff h).mpr (by decide)
  exact ⟨st, writes, h, fun write hmem => (hwrites write hmem).1, hshard⟩

/-- No backend, nine samplers, and nine backends. -/
theorem sharding_fails :
    (∃ st writes, loadConfig [] [statsdEntry] = some (st, writes) ∧ metricShard st [] = .null) ∧
    (∃ st writes, loadConfig [carbonEntry] (List.replicate 9 statsdEntry) = some (st, writes) ∧
      metricShard st [] = .object .samplers 8) ∧
    ∃ st writes, loadConfig (List.replicate 9 carbonEntry) [] = some (st, writes) ∧
      ∃ write ∈ writes, write.index = 8 ∧ write.before Slot.config.addr = .field ∧
        write.after Slot.config.addr = .object .backends 8 :=
  ⟨⟨_, _, rfl, rfl⟩, ⟨_, _, rfl, rfl⟩, _, _, rfl, _, List.mem_of_getElem? (i := 8) rfl, rfl, rfl, rfl⟩

end Load
end Brubeck
