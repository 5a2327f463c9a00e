import Brubeck.Lib.Lock
import Brubeck.Slab

/-!
# Brubeck.Concurrent.Slab

`brubeck_slab_alloc` one memory access at a time, between `pthread_mutex_lock` and
`pthread_mutex_unlock`, for any number of workers that make metrics at once.

* `pushCode`, `allocCode`: the code under the mutex, in loads and stores. A node is known by its address.
* `exec_allocCode`: with nothing in between, the code is `Slab.alloc`.
* `slab_interleaved`: in every interleaving, no two blocks that workers got meet.
-/

namespace Brubeck
namespace Slab

open Lib Lib.Lock Lib.Lock.Code

/-- `node->alloc`. -/
def allocOf (slab : Slab) (node : Nat) : Nat :=
  ((slab.nodes.find? fun n => n.base = node).map SlabNode.alloc).getD 0

def setAlloc (slab : Slab) (node alloc : Nat) : Slab :=
  { slab with nodes := slab.nodes.replaceF fun n => if n.base = node then some ⟨n.base, alloc⟩ else none }

/-- `push_node`. Nobody can see the new node before the last store. -/
def pushCode (base : Nat) : Code Slab Nat := do
  let next ← load fun slab => slab.nodes
  store fun slab => { slab with nodes := ⟨base, 0⟩ :: next }
  pure base

/-- The end of `brubeck_slab_alloc`, on a node that has room. -/
def takeFrom (call : Call) (node : Nat) : Code Slab (Option Block) := do
  let need := slabMask call.need
  let total ← load fun slab => slab.total_alloc
  store fun slab => { slab with total_alloc := (total + need) % 2 ^ 64 }
  let offset ← load fun slab => slab.allocOf node
  let alloc ← load fun slab => slab.allocOf node
  store fun slab => slab.setAlloc node ((alloc + need) % 2 ^ 64)
  pure (some ⟨node + 16 + offset, call.need, need⟩)

/-- `brubeck_slab_alloc`; `none` is a null pointer followed. -/
def allocCode (call : Call) : Code Slab (Option Block) := do
  let current ← load fun slab => slab.nodes.head?.map SlabNode.base
  match current with
  | none => pure none
  | some current =>
    let alloc ← load fun slab => slab.allocOf current
    if NODE_SIZE < (alloc + slabMask call.need) % 2 ^ 64 then
      let node ← pushCode call.base
      takeFrom call node
    else takeFrom call current

/-! ## With nothing in between -/

theorem allocOf_head (node : SlabNode) (nodes : List SlabNode) (total : Nat) :
    allocOf ⟨node :: nodes, total⟩ node.base = node.alloc := by
  simp [allocOf]

theorem setAlloc_head (node : SlabNode) (nodes : List SlabNode) (total alloc : Nat) :
    setAlloc ⟨node :: nodes, total⟩ node.base alloc = ⟨⟨node.base, alloc⟩ :: nodes, total⟩ := by
  simp [setAlloc]

theorem exec_takeFrom (call : Call) (node : SlabNode) (nodes : List SlabNode) (total : Nat) :
    (takeFrom call node.base).exec ⟨node :: nodes, total⟩ =
      (⟨⟨node.base, (node.alloc + slabMask call.need) % 2 ^ 64⟩ :: nodes,
          (total + slabMask call.need) % 2 ^ 64⟩,
        some ⟨node.heap + node.alloc, call.need, slabMask call.need⟩) := by
  simp only [takeFrom, exec_load_bind, exec_store_bind, allocOf_head, setAlloc_head, exec_pure,
    SlabNode.heap]

theorem exec_allocCode {slab slab' : Slab} {call : Call} {block : Block}
    (h : slab.alloc call = some (slab', [block])) :
    (allocCode call).exec slab = (slab', some block) := by
  obtain ⟨nodes, total⟩ := slab
  cases nodes with
  | nil => simp [alloc, full] at h
  | cons node nodes =>
    simp only [allocCode, exec_load_bind, List.head?_cons, Option.map_some, allocOf_head]
    by_cases hfull : NODE_SIZE < (node.alloc + slabMask call.need) % 2 ^ 64
    · have hpush : full ⟨node :: nodes, total⟩ call.need = true := decide_eq_true hfull
      simp only [alloc, hpush, if_true, pushNode, Option.some.injEq, Prod.mk.injEq, List.cons.injEq,
        and_true] at h
      obtain ⟨rfl, rfl⟩ := h
      rw [if_pos hfull]
      exact exec_takeFrom call ⟨call.base, 0⟩ (node :: nodes) total
    · have hroom : full ⟨node :: nodes, total⟩ call.need = false := decide_eq_false hfull
      simp only [alloc, hroom, Bool.false_eq_true, if_false, Option.some.injEq, Prod.mk.injEq,
        List.cons.injEq, and_true] at h
      obtain ⟨rfl, rfl⟩ := h
      rw [if_neg hfull]
      exact exec_takeFrom call node nodes total

/-! ## The calls one after the other -/

theorem serial_blocks {calls : List (Lock.Call Call)} :
    ∀ {slab : Slab} {log : List Block} {mems : List Slab}
      {results : List (Lock.Call Call × Option Block)}, slab.Inv log →
      Machine.Along alloc Fits slab (calls.map Lock.Call.op) →
      Machine.run (serial fun _ => allocCode) [slab] calls = some (mems, results) →
      ∃ slab' blocks, mems = [slab'] ∧ slab'.Inv (log ++ blocks) ∧
        results.map Prod.fst = calls ∧ results.map Prod.snd = blocks.map some ∧
        blocks.map Block.need = calls.map (·.op.need) ∧ ∀ call ∈ calls, call.object = 0 := by
  induction calls with
  | nil =>
    intro slab log mems results h _ hrun
    cases hrun
    exact ⟨slab, [], rfl, by simpa using h, rfl, rfl, rfl, by simp⟩
  | cons call calls ih =>
    intro slab log mems results h hcalls hrun
    obtain ⟨mems₁, results₁, results₂, hone, hrest, rfl⟩ := Machine.run_cons hrun
    obtain ⟨slab₁, block, halloc, hneed, hinv⟩ := alloc_inv h hcalls.1
    have hobject : call.object = 0 := by
      by_contra hne
      obtain ⟨k, hk⟩ := Nat.exists_eq_succ_of_ne_zero hne
      simp [serial, hk] at hone
    simp only [serial, hobject, List.getElem?_cons_zero, exec_allocCode halloc, List.set_cons_zero,
      Option.some.injEq, Prod.mk.injEq] at hone
    obtain ⟨rfl, rfl⟩ := hone
    obtain ⟨slab₂, blocks, hmems, hinv₂, hfst, hsnd, hneeds, hobjects⟩ :=
      ih hinv (hcalls.2 halloc) hrest
    refine ⟨slab₂, block :: blocks, hmems, by simpa using hinv₂, by simp [hfst], by simp [hsnd], ?_, ?_⟩
    · rw [List.map_cons, List.map_cons, hneeds, hneed]
    · exact List.forall_mem_cons.mpr ⟨hobject, hobjects⟩

/-! ## Every interleaving -/

/-- A block is as large as it has to be, and lies in the heap of one node. -/
theorem Inv.held {slab : Slab} {blocks : List Block} (h : slab.Inv blocks) {block : Block}
    (hblock : block ∈ blocks) :
    block.need ≤ block.size ∧ ∃ node ∈ slab.nodes, node.heap ≤ block.ptr ∧
      block.ptr + block.size ≤ node.base + MALLOC_SIZE ∧ SLAB_SIZE ∣ block.ptr - node.heap := by
  have hnode : NODE_SIZE = 4064 := rfl
  have hmalloc : MALLOC_SIZE = 4096 := rfl
  have hslab : SLAB_SIZE = 32 := rfl
  obtain ⟨node, hmem, hin⟩ := h.inside block hblock
  have hle := h.laid.alloc_le node hmem
  have hlast := hin.last
  unfold SlabNode.heap at hlast
  refine ⟨?_, node, hmem, hin.first, by omega, hin.offset⟩
  rw [h.size block hblock, slabRound, hslab]
  omega

/-- **The slab under its mutex.** Whatever the interleaving of the accesses of any number of workers,
each call that has returned got a block for what it asked, in the heap of one node; no two of these blocks
meet, and no node is used beyond its end. When nobody holds the mutex, `total_alloc` is the sum of the
rounded requests of all calls that have taken it. `Fits` has to hold of the calls in the order in which
they took the mutex: each asks for 1 to `NODE_SIZE` bytes, and the node that `malloc` would give it is a
new one, as `malloc` promises. -/
theorem slab_interleaved {base : Nat} (hbase : base + MALLOC_SIZE ≤ 2 ^ 64) {n : Nat}
    {es : List (Event Call)} {s : State Slab (Option Block) Call} {out : List (Out (Option Block) Call)}
    (hrun : Machine.run (Lock.step fun _ => allocCode) (Lock.start [Slab.init base] n) es = some (s, out))
    (hcalls : Machine.Along alloc Fits (Slab.init base)
      ((out.filterMap Out.entered).map Lock.Call.op)) :
    ∃ (slab : Slab) (blocks : List Block), (out.filterMap Out.left).map Prod.snd = blocks.map some ∧
      blocks.map Block.need = (out.filterMap Out.left).map (fun r => r.1.op.need) ∧
      (∀ block ∈ blocks, block.need ≤ block.size ∧ ∃ node ∈ slab.nodes, node.heap ≤ block.ptr ∧
        block.ptr + block.size ≤ node.base + MALLOC_SIZE ∧ SLAB_SIZE ∣ block.ptr - node.heap) ∧
      (blocks.Pairwise fun a b => Apart a.ptr a.size b.ptr b.size) ∧
      (∀ node ∈ slab.nodes, node.alloc ≤ NODE_SIZE) ∧
      ∀ mem, s.objects[0]? = some ⟨mem, false⟩ → mem = slab ∧
        slab.total_alloc = ((out.filterMap Out.entered).map fun c => slabRound c.op.need).sum := by
  obtain ⟨mems, results, hserial, hagrees⟩ := run_serial hrun
  obtain ⟨slab, blocks, hmems, hinv, hfst, hsnd, hneeds, hobjects⟩ :=
    serial_blocks (init_inv hbase) hcalls hserial
  rw [List.nil_append] at hinv
  have hzero : ∀ r ∈ results, r.1.object = 0 := by
    intro r hr
    refine hobjects r.1 ?_
    rw [← hfst]
    exact List.mem_map_of_mem hr
  -- there is only one slab, so the results of its calls are all the results
  have hall : ∀ {rs : List (Lock.Call Call × Option Block)}, (∀ r ∈ rs, r.1.object = 0) → on 0 rs = rs := by
    intro rs hrs
    refine List.filter_eq_self.mpr fun r hr => ?_
    simpa using hrs r hr
  have hleft : out.filterMap Out.left <+: results := by
    have hobject : ∀ r ∈ out.filterMap Out.left, r.1.object = 0 := by
      intro r hr
      have hon : r ∈ on r.1.object (out.filterMap Out.left) := List.mem_filter.mpr ⟨hr, by simp⟩
      exact hzero r (List.mem_filter.mp ((hagrees.left_prefix r.1.object).subset hon)).1
    have := hagrees.left_prefix 0
    rwa [hall hobject, hall hzero] at this
  have htake := List.prefix_iff_eq_take.mp hleft
  generalize (out.filterMap Out.left).length = k at htake
  refine ⟨slab, blocks.take k, ?_, ?_, fun block hblock => hinv.held (List.mem_of_mem_take hblock),
    hinv.apart.sublist (List.take_sublist _ _), hinv.laid.alloc_le, fun mem hmem => ⟨?_, ?_⟩⟩
  · rw [htake, List.map_take, hsnd, List.map_take]
  · rw [htake, List.map_take, List.map_take, hneeds, ← hfst, List.map_map]
    rfl
  · have hfree := hagrees.free hmem
    rw [hmems] at hfree
    exact (Option.some.inj hfree).symm
  · have hsizes : blocks.map Block.size = (blocks.map Block.need).map slabRound := by
      rw [List.map_map]
      exact List.map_congr_left hinv.size
    rw [hinv.total, hsizes, hneeds, List.map_map]
    rfl

/-- Two workers ask at once; the second waits, and needs a new node. -/
def bothAsk : List (Event Call) :=
  [.call ⟨0, 0, ⟨33, 0⟩⟩, .call ⟨1, 0, ⟨4064, 8192⟩⟩] ++ ([0, 1] ++ List.replicate 8 0 ++ List.replicate 11 1).map .run

theorem slab_interleaved_both :
    ∃ s out, Machine.run (Lock.step fun _ => allocCode) (Lock.start [Slab.init 4096] 2) bothAsk =
        some (s, out) ∧
      ∃ a b, (out.filterMap Out.left).map Prod.snd = [some a, some b] ∧ Apart a.ptr a.size b.ptr b.size := by
  obtain ⟨s, out, hrun, hentered, hleft⟩ : ∃ s out, Machine.run (Lock.step fun _ => allocCode)
      (Lock.start [Slab.init 4096] 2) bothAsk = some (s, out) ∧
      (out.filterMap Out.entered).map Lock.Call.op = [⟨33, 0⟩, ⟨4064, 8192⟩] ∧
      (out.filterMap Out.left).length = 2 := ⟨_, _, rfl, rfl, rfl⟩
  have hmalloc : MALLOC_SIZE = 4096 := rfl
  have hcalls : Machine.Along alloc Fits (Slab.init 4096) ((out.filterMap Out.entered).map Lock.Call.op) := by
    rw [hentered]
    refine ⟨⟨by decide, by decide, fun hfull => absurd hfull (by decide)⟩, ?_⟩
    intro slab out hone
    cases hone
    exact ⟨⟨by decide, by decide, fun _ => ⟨by decide, by simp [Apart, hmalloc]⟩⟩, fun _ => trivial⟩
  obtain ⟨slab, blocks, hblocks, -, -, hapart, -⟩ := slab_interleaved (by decide) hrun hcalls
  have htwo : blocks.length = 2 := by
    have := congrArg List.length hblocks
    rw [List.length_map, List.length_map] at this
    omega
  obtain ⟨a, b, rfl⟩ := List.length_eq_two.mp htwo
  exact ⟨s, out, hrun, a, b, hblocks, by simpa using hapart⟩

end Slab
end Brubeck
