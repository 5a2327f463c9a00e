import Brubeck.Lib.Bytes
import Brubeck.Lib.Intervals
import Brubeck.Lib.Machine
import Mathlib.Algebra.Order.BigOperators.Group.List
import Mathlib.Data.Nat.Bitwise

/-!
# Brubeck.Slab

The allocator of `slab.c` and `slab.h`: metrics get their memory in multiples of 32 bytes, from nodes
of 4096 bytes that are never freed. Calls are whole events, as they hold the slab's mutex.

A pointer is an address. `xmalloc` dies when there is no memory; else a call that needs a new node
takes the address of it from outside, of which only what `malloc` promises is assumed (`Fresh`).

* `slabMask_eq`: the mask of a negative `int` rounds a `size_t` up.
* `Inv`: the nodes are apart, each block handed out lies in the used part of one of them, and no two
  blocks meet. `alloc_inv` is its step lemma.
* `slab_blocks`: any sequence of calls.
-/

namespace Brubeck

open Lib

def SLAB_SIZE : Nat := 32
def SLABS_PER_NODE : Nat := 128
def NODE_SIZE : Nat := SLAB_SIZE * (SLABS_PER_NODE - 1)

/-- `(need + SLAB_SIZE - 1) & ~(SLAB_SIZE - 1)`. -/
def slabRound (need : Nat) : Nat := (need + SLAB_SIZE - 1) / SLAB_SIZE * SLAB_SIZE

/-- The same on a `size_t`. The mask is the `int` -32, as wide as the other operand. -/
def slabMask (need : Nat) : Nat := (need + SLAB_SIZE - 1) % 2 ^ 64 &&& u64 (-SLAB_SIZE)

/-- `struct brubeck_slab_node`, by its address. -/
structure SlabNode where
  base : Nat
  alloc : Nat
  deriving DecidableEq

/-- The `heap` of a node is behind its link and its `alloc`. -/
def SlabNode.heap (node : SlabNode) : Nat := node.base + 16

/-- `struct brubeck_slab`, with the nodes from `current` on, along their links. -/
structure Slab where
  nodes : List SlabNode
  total_alloc : Nat

namespace Slab

/-- What `xmalloc` is asked for. -/
def MALLOC_SIZE : Nat := SLAB_SIZE * SLABS_PER_NODE

/-- `push_node`, when `xmalloc` returns `base`. -/
def pushNode (slab : Slab) (base : Nat) : Slab := { slab with nodes := ⟨base, 0⟩ :: slab.nodes }

/-- `brubeck_slab_init` on the zeroed slab of a server. -/
def init (base : Nat) : Slab := pushNode ⟨[], 0⟩ base

/-- A call that asks for `need` bytes; `base` is the address of the new node, if it needs one. -/
structure Call where
  need : Nat
  base : Nat

/-- What a call returned, for what it was asked, with the size it has set aside. -/
structure Block where
  ptr : Nat
  need : Nat
  size : Nat

/-- `node->alloc + need > NODE_SIZE`. -/
def full (slab : Slab) (need : Nat) : Bool :=
  match slab.nodes with
  | [] => false
  | node :: _ => NODE_SIZE < (node.alloc + slabMask need) % 2 ^ 64

/-- `brubeck_slab_alloc`. -/
def alloc (slab : Slab) (call : Call) : Option (Slab × List Block) :=
  let need := slabMask call.need
  let slab := if slab.full call.need then slab.pushNode call.base else slab
  match slab.nodes with
  | [] => none
  | node :: nodes =>
    some (⟨{ node with alloc := (node.alloc + need) % 2 ^ 64 } :: nodes,
        (slab.total_alloc + need) % 2 ^ 64⟩,
      [⟨node.heap + node.alloc, call.need, need⟩])

/-! ## Rounding -/

theorem mask_eq {x : Nat} (h : x < 2 ^ 64) : x &&& u64 (-SLAB_SIZE) = x / SLAB_SIZE * SLAB_SIZE := by
  have hmask : u64 (-SLAB_SIZE) = (2 ^ 59 - 1) <<< 5 := by decide
  have hsize : SLAB_SIZE = 2 ^ 5 := rfl
  rw [hmask, hsize, ← Nat.shiftRight_eq_div_pow, ← Nat.shiftLeft_eq]
  apply Nat.eq_of_testBit_eq
  intro i
  rw [Nat.testBit_and, Nat.testBit_shiftLeft, Nat.testBit_shiftLeft, Nat.testBit_two_pow_sub_one,
    Nat.testBit_shiftRight]
  by_cases hlow : 5 ≤ i
  · by_cases hhigh : i < 64
    · have hi : 5 + (i - 5) = i := by omega
      have hlt : i - 5 < 59 := by omega
      simp [hlow, hi, hlt]
    · have hzero : x.testBit i = false :=
        Nat.testBit_lt_two_pow (lt_of_lt_of_le h (Nat.pow_le_pow_right (by omega) (by omega)))
      have hi : 5 + (i - 5) = i := by omega
      simp [hi, hzero]
  · simp [hlow]

/-- No request that a node has room for wraps around. -/
theorem slabMask_eq {need : Nat} (h : need ≤ NODE_SIZE) : slabMask need = slabRound need := by
  have hnode : NODE_SIZE = 4064 := rfl
  have hsize : SLAB_SIZE = 32 := rfl
  rw [slabMask, Nat.mod_eq_of_lt (by omega), mask_eq (by omega), slabRound]

theorem slabRound_bounds {need : Nat} (h : need ≤ NODE_SIZE) :
    need ≤ slabRound need ∧ slabRound need ≤ NODE_SIZE ∧ SLAB_SIZE ∣ slabRound need := by
  have hnode : NODE_SIZE = 4064 := rfl
  have hsize : SLAB_SIZE = 32 := rfl
  refine ⟨?_, ?_, Dvd.intro_left _ rfl⟩
  · rw [slabRound, hsize]
    omega
  · rw [slabRound, hsize]
    omega

/-! ## The nodes -/

/-- What `malloc` promises of a new node: it does not meet any block in use, and ends inside the
address space. -/
structure Fresh (slab : Slab) (base : Nat) : Prop where
  below : base + MALLOC_SIZE ≤ 2 ^ 64
  apart : ∀ node ∈ slab.nodes, Apart base MALLOC_SIZE node.base MALLOC_SIZE

/-- Nodes that do not meet, none of them used beyond its end. -/
structure Laid (nodes : List SlabNode) : Prop where
  ne_nil : nodes ≠ []
  below : ∀ node ∈ nodes, node.base + MALLOC_SIZE ≤ 2 ^ 64
  apart : nodes.Pairwise fun a b => Apart a.base MALLOC_SIZE b.base MALLOC_SIZE
  alloc_le : ∀ node ∈ nodes, node.alloc ≤ NODE_SIZE
  alloc_dvd : ∀ node ∈ nodes, SLAB_SIZE ∣ node.alloc

theorem Laid.push {slab : Slab} (h : Laid slab.nodes) {base : Nat} (hfresh : slab.Fresh base) :
    Laid (slab.pushNode base).nodes where
  ne_nil := by simp [pushNode]
  below := List.forall_mem_cons.mpr ⟨hfresh.below, h.below⟩
  apart := List.pairwise_cons.mpr ⟨hfresh.apart, h.apart⟩
  alloc_le := List.forall_mem_cons.mpr ⟨Nat.zero_le _, h.alloc_le⟩
  alloc_dvd := List.forall_mem_cons.mpr ⟨Nat.dvd_zero _, h.alloc_dvd⟩

theorem Laid.grow {node : SlabNode} {nodes : List SlabNode} (h : Laid (node :: nodes)) {size : Nat}
    (hroom : node.alloc + size ≤ NODE_SIZE) (hsize : SLAB_SIZE ∣ size) :
    Laid ({ node with alloc := node.alloc + size } :: nodes) := by
  obtain ⟨hbelow, hbelow'⟩ := List.forall_mem_cons.mp h.below
  obtain ⟨hapart, hapart'⟩ := List.pairwise_cons.mp h.apart
  obtain ⟨-, hle⟩ := List.forall_mem_cons.mp h.alloc_le
  obtain ⟨hdvd, hdvd'⟩ := List.forall_mem_cons.mp h.alloc_dvd
  exact ⟨by simp, List.forall_mem_cons.mpr ⟨hbelow, hbelow'⟩, List.pairwise_cons.mpr ⟨hapart, hapart'⟩,
    List.forall_mem_cons.mpr ⟨hroom, hle⟩, List.forall_mem_cons.mpr ⟨Nat.dvd_add hdvd hsize, hdvd'⟩⟩

/-- All that is in use fits a `size_t`: the nodes do not meet, and each has a header. -/
theorem Laid.sum_lt {nodes : List SlabNode} (h : Laid nodes) :
    (nodes.map SlabNode.alloc).sum < 2 ^ 64 := by
  have hnode : NODE_SIZE = 4064 := rfl
  have hmalloc : MALLOC_SIZE = 4096 := rfl
  have hpos := List.length_pos_iff.mpr h.ne_nil
  have hcount : (nodes.map SlabNode.base).length * MALLOC_SIZE ≤ 2 ^ 64 := by
    apply length_mul_le
    · exact List.pairwise_map.mpr h.apart
    · intro base hbase
      obtain ⟨node, hmem, rfl⟩ := List.mem_map.mp hbase
      exact h.below node hmem
  have hsum : (nodes.map SlabNode.alloc).sum ≤ (nodes.map SlabNode.alloc).length • NODE_SIZE := by
    apply List.sum_le_card_nsmul
    intro alloc halloc
    obtain ⟨node, hmem, rfl⟩ := List.mem_map.mp halloc
    exact h.alloc_le node hmem
  rw [List.length_map, hmalloc] at hcount
  rw [List.length_map, hnode, nsmul_eq_mul, Nat.cast_id] at hsum
  omega

/-! ## The blocks -/

/-- The block lies in the heap of the node, at a multiple of the slab size. -/
structure Block.In (block : Block) (node : SlabNode) : Prop where
  first : node.heap ≤ block.ptr
  last : block.ptr + block.size ≤ node.heap + node.alloc
  offset : SLAB_SIZE ∣ block.ptr - node.heap

theorem Block.In.grow {block : Block} {node : SlabNode} (h : block.In node) (size : Nat) :
    block.In { node with alloc := node.alloc + size } where
  first := h.first
  last := by
    have := h.last
    unfold SlabNode.heap at *
    dsimp only
    omega
  offset := h.offset

/-- The next block of a node. -/
theorem Block.In.next {node : SlabNode} (hdvd : SLAB_SIZE ∣ node.alloc) (need size : Nat) :
    Block.In ⟨node.heap + node.alloc, need, size⟩ { node with alloc := node.alloc + size } where
  first := Nat.le_add_right _ _
  last := by
    unfold SlabNode.heap
    dsimp only
    omega
  offset := by
    show SLAB_SIZE ∣ node.heap + node.alloc - node.heap
    rw [Nat.add_sub_cancel_left]
    exact hdvd

/-- The state of a slab that has handed out `out`. -/
structure Inv (slab : Slab) (out : List Block) : Prop where
  laid : Laid slab.nodes
  inside : ∀ block ∈ out, ∃ node ∈ slab.nodes, block.In node
  size : ∀ block ∈ out, block.size = slabRound block.need
  apart : out.Pairwise fun a b => Apart a.ptr a.size b.ptr b.size
  used : (out.map Block.size).sum = (slab.nodes.map SlabNode.alloc).sum
  total : slab.total_alloc = (out.map Block.size).sum

theorem Inv.push {slab : Slab} {out : List Block} (h : slab.Inv out) {base : Nat}
    (hfresh : slab.Fresh base) : (slab.pushNode base).Inv out where
  laid := h.laid.push hfresh
  inside := by
    intro block hblock
    obtain ⟨node, hmem, hin⟩ := h.inside block hblock
    exact ⟨node, List.mem_cons_of_mem _ hmem, hin⟩
  size := h.size
  apart := h.apart
  used := by
    rw [h.used]
    simp [pushNode]
  total := h.total

/-- A block in the unused part of a node meets no other. -/
theorem Inv.apart_next {node : SlabNode} {nodes : List SlabNode} {total : Nat} {out : List Block}
    (h : Inv ⟨node :: nodes, total⟩ out) {size : Nat} (hroom : node.alloc + size ≤ NODE_SIZE)
    {block : Block} (hblock : block ∈ out) :
    Apart block.ptr block.size (node.heap + node.alloc) size := by
  have hnode : NODE_SIZE = 4064 := rfl
  have hmalloc : MALLOC_SIZE = 4096 := rfl
  obtain ⟨other, hmem, hin⟩ := h.inside block hblock
  have hfirst := hin.first
  have hlast := hin.last
  unfold SlabNode.heap at *
  rcases List.mem_cons.mp hmem with rfl | hmem
  · exact .inl hlast
  · have hother := h.laid.alloc_le other (List.mem_cons_of_mem _ hmem)
    have hapart := (List.pairwise_cons.mp h.laid.apart).1 other hmem
    exact hapart.symm.mono (by omega) (by omega) (by omega) (by omega)

/-- The next block of the current node, if it has room. -/
theorem Inv.place {node : SlabNode} {nodes : List SlabNode} {total : Nat} {out : List Block}
    (h : Inv ⟨node :: nodes, total⟩ out) {need : Nat}
    (hroom : node.alloc + slabRound need ≤ NODE_SIZE) :
    Inv ⟨{ node with alloc := (node.alloc + slabRound need) % 2 ^ 64 } :: nodes,
        (total + slabRound need) % 2 ^ 64⟩
      (out ++ [⟨node.heap + node.alloc, need, slabRound need⟩]) := by
  have hnode : NODE_SIZE = 4064 := rfl
  have hlaid := h.laid.grow hroom (Dvd.intro_left _ rfl)
  have hsum := hlaid.sum_lt
  have hused := h.used
  have htotal := h.total
  simp only [List.map_cons, List.sum_cons] at hsum hused htotal
  rw [Nat.mod_eq_of_lt (by omega), Nat.mod_eq_of_lt (by omega)]
  refine ⟨hlaid, ?_, ?_, ?_, ?_, ?_⟩
  · intro block hblock
    rcases List.mem_append.mp hblock with hold | hnew
    · obtain ⟨other, hmem, hin⟩ := h.inside block hold
      rcases List.mem_cons.mp hmem with rfl | hmem
      · exact ⟨_, List.mem_cons_self, hin.grow _⟩
      · exact ⟨other, List.mem_cons_of_mem _ hmem, hin⟩
    · rw [List.mem_singleton] at hnew
      subst hnew
      exact ⟨_, List.mem_cons_self, .next (h.laid.alloc_dvd node List.mem_cons_self) ..⟩
  · intro block hblock
    rcases List.mem_append.mp hblock with hold | hnew
    · exact h.size block hold
    · rw [List.mem_singleton] at hnew
      subst hnew
      rfl
  · refine List.pairwise_append.mpr ⟨h.apart, List.pairwise_singleton _ _, ?_⟩
    intro block hold next hnew
    rw [List.mem_singleton] at hnew
    subst hnew
    exact h.apart_next hroom hold
  · simp only [List.map_append, List.sum_append, List.map_cons, List.sum_cons, List.map_nil, List.sum_nil]
    omega
  · simp only [List.map_append, List.sum_append, List.map_cons, List.sum_cons, List.map_nil, List.sum_nil]
    omega

/-! ## Any sequence of calls -/

/-- A request of the size that the slab is for, and what `malloc` promises if it needs a new node. -/
structure Fits (slab : Slab) (call : Call) : Prop where
  pos : 1 ≤ call.need
  le : call.need ≤ NODE_SIZE
  fresh : slab.full call.need = true → slab.Fresh call.base

theorem alloc_inv {slab : Slab} {out : List Block} (h : slab.Inv out) {call : Call}
    (hfits : slab.Fits call) :
    ∃ slab' block, slab.alloc call = some (slab', [block]) ∧ block.need = call.need ∧
      slab'.Inv (out ++ [block]) := by
  have hnode : NODE_SIZE = 4064 := rfl
  obtain ⟨-, hround, -⟩ := slabRound_bounds hfits.le
  unfold alloc
  rw [slabMask_eq hfits.le]
  cases hfull : slab.full call.need with
  | true =>
    have hpush := h.push (hfits.fresh hfull)
    exact ⟨_, _, rfl, rfl, hpush.place (by simpa using hround)⟩
  | false =>
    obtain ⟨nodes, total⟩ := slab
    cases nodes with
    | nil => exact absurd rfl h.laid.ne_nil
    | cons node nodes =>
      have hle := h.laid.alloc_le node List.mem_cons_self
      have hroom : node.alloc + slabRound call.need ≤ NODE_SIZE := by
        simp only [full, slabMask_eq hfits.le, decide_eq_false_iff_not, not_lt] at hfull
        rwa [Nat.mod_eq_of_lt (by omega)] at hfull
      exact ⟨_, _, rfl, rfl, h.place hroom⟩

theorem init_inv {base : Nat} (h : base + MALLOC_SIZE ≤ 2 ^ 64) : (init base).Inv [] where
  laid := ⟨by simp [init, pushNode], by simpa [init, pushNode] using h, by simp [init, pushNode],
    by simp [init, pushNode], by simp [init, pushNode]⟩
  inside := by simp
  size := by simp
  apart := .nil
  used := by simp [init, pushNode]
  total := by simp [init, pushNode]

theorem run_inv {calls : List Call} :
    ∀ {slab : Slab} {log : List Block}, slab.Inv log → Machine.Along alloc Fits slab calls →
      ∃ slab' out, Machine.run alloc slab calls = some (slab', out) ∧
        out.map Block.need = calls.map Call.need ∧ slab'.Inv (log ++ out) := by
  induction calls with
  | nil =>
    intro slab log h _
    exact ⟨slab, [], rfl, rfl, by simpa using h⟩
  | cons call calls ih =>
    intro slab log h hcalls
    obtain ⟨slab₁, block, hone, hneed, hinv⟩ := alloc_inv h hcalls.1
    obtain ⟨slab₂, out, hrun, hneeds, hinv₂⟩ := ih hinv (hcalls.2 hone)
    refine ⟨slab₂, [block] ++ out, Machine.run_step hone hrun, ?_, ?_⟩
    · simp [hneed, hneeds]
    · rwa [← List.append_assoc]

/-- Any sequence of requests of 1 to `NODE_SIZE` bytes, on an initialised slab: each is answered with a
block of at least its size, in the heap of one node and at a multiple of 32 in it; no two blocks meet; no
node is used beyond its end; and `total_alloc` is the sum of the rounded requests. -/
theorem slab_blocks {base : Nat} (hbase : base + MALLOC_SIZE ≤ 2 ^ 64) {calls : List Call}
    (hcalls : Machine.Along alloc Fits (init base) calls) :
    ∃ slab out, Machine.run alloc (init base) calls = some (slab, out) ∧
      out.map Block.need = calls.map Call.need ∧
      (∀ block ∈ out, block.need ≤ block.size ∧ ∃ node ∈ slab.nodes, node.heap ≤ block.ptr ∧
        block.ptr + block.size ≤ node.base + MALLOC_SIZE ∧ SLAB_SIZE ∣ block.ptr - node.heap) ∧
      (out.Pairwise fun a b => Apart a.ptr a.size b.ptr b.size) ∧
      (∀ node ∈ slab.nodes, node.alloc ≤ NODE_SIZE) ∧
      slab.total_alloc = (calls.map fun call => slabRound call.need).sum := by
  have hnode : NODE_SIZE = 4064 := rfl
  have hmalloc : MALLOC_SIZE = 4096 := rfl
  have hslab : SLAB_SIZE = 32 := rfl
  obtain ⟨slab, out, hrun, hneeds, hinv⟩ := run_inv (init_inv hbase) hcalls
  rw [List.nil_append] at hinv
  refine ⟨slab, out, hrun, hneeds, ?_, hinv.apart, hinv.laid.alloc_le, ?_⟩
  · intro block hblock
    obtain ⟨node, hmem, hin⟩ := hinv.inside block hblock
    have hle := hinv.laid.alloc_le node hmem
    have hlast := hin.last
    refine ⟨?_, node, hmem, hin.first, ?_, hin.offset⟩
    · rw [hinv.size block hblock, slabRound, hslab]
      omega
    · unfold SlabNode.heap at hlast
      omega
  · have hsizes : out.map Block.size = (out.map Block.need).map slabRound := by
      rw [List.map_map]
      exact List.map_congr_left hinv.size
    rw [hinv.total, hsizes, hneeds, List.map_map]
    rfl

/-- Three requests, of which the second needs a new node. -/
theorem slab_blocks_three :
    ∃ slab out, Machine.run alloc (init 4096) [⟨33, 0⟩, ⟨4064, 8192⟩, ⟨1, 16384⟩] = some (slab, out) ∧
      (out.Pairwise fun a b => Apart a.ptr a.size b.ptr b.size) ∧ slab.total_alloc = 4160 := by
  have hmalloc : MALLOC_SIZE = 4096 := rfl
  have hcalls : Machine.Along alloc Fits (init 4096) [⟨33, 0⟩, ⟨4064, 8192⟩, ⟨1, 16384⟩] := by
    refine ⟨⟨by decide, by decide, fun hfull => absurd hfull (by decide)⟩, ?_⟩
    intro slab out hone
    cases hone
    refine ⟨⟨by decide, by decide, fun _ => ⟨by decide, by simp [Apart, hmalloc]⟩⟩, ?_⟩
    intro slab out hone
    cases hone
    exact ⟨⟨by decide, by decide, fun _ => ⟨by decide, by simp [Apart, hmalloc]⟩⟩, fun _ => trivial⟩
  obtain ⟨slab, out, hrun, -, -, hapart, -, htotal⟩ :=
    slab_blocks (by decide : 4096 + MALLOC_SIZE ≤ 2 ^ 64) hcalls
  exact ⟨slab, out, hrun, hapart, htotal.trans (by decide)⟩

end Slab
end Brubeck
