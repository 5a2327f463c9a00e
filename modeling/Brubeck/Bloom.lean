import Brubeck.Lib.Bits
import Mathlib.Data.Nat.Size

/-!
# Brubeck.Bloom

The rolling bloom filter of `bloom.c`: `multibloom_new`, `multibloom_check`, `multibloom_reset`.
A `none` is undefined behaviour in the C code: a filter index outside the array, a modulus of
zero, a byte outside the filter.

* `checkLoop_spec`: the loop over the hash functions, for every filter content. It finds every
  position set exactly when all of them were set before it started, although it sets positions
  on the way.
* `check_spec`, `reset_spec`: the two operations on the sets of bits the filters hold.
-/

namespace Brubeck

open Lib

structure Multibloom where
  bits : Int
  bytes : Int
  hashes : Int
  filters : List (List Byte)
  deriving DecidableEq, Repr

namespace Multibloom

/-- `x = (a + i*b) % bloom->bits`, in 32-bit unsigned arithmetic. -/
def position (bits a b i : Nat) : Nat := (a + i * b) % 2 ^ 32 % bits

/-- The loop of `multibloom_check`: `n` hash functions left, the next one is `i`. -/
def checkLoop (bits a b : Nat) : Nat → Nat → Nat → List Byte → Option (Nat × List Byte)
  | 0, _, hits, filter => some (hits, filter)
  | n + 1, i, hits, filter =>
    if bits = 0 then none
    else
      let x := position bits a b i
      match filter[x >>> 3]? with
      | none => none
      | some c =>
        let mask := 1 <<< (x % 8)
        if c.toNat &&& mask ≠ 0 then checkLoop bits a b n (i + 1) (hits + 1) filter
        else checkLoop bits a b n (i + 1) hits (filter.set (x >>> 3) (UInt8.ofNat (c.toNat ||| mask)))

def filterAt (bloom : Multibloom) (f : Int) : Option (List Byte) :=
  if f < 0 then none else bloom.filters[f.toNat]?

def check (bloom : Multibloom) (f : Int) (a b : Nat) : Option (Bool × Multibloom) :=
  match bloom.filterAt f with
  | none => none
  | some filter =>
    match checkLoop (u32 bloom.bits) a b (u32 bloom.hashes) 0 0 filter with
    | none => none
    | some (hits, filter') =>
      some (decide ((hits : Int) = bloom.hashes),
        { bloom with filters := bloom.filters.set f.toNat filter' })

def reset (bloom : Multibloom) (f : Int) : Option Multibloom :=
  match bloom.filterAt f with
  | none => none
  | some filter =>
    if bloom.bytes < 0 ∨ (filter.length : Int) < bloom.bytes then none
    else
      some { bloom with
        filters := bloom.filters.set f.toNat
          (List.replicate bloom.bytes.toNat 0 ++ filter.drop bloom.bytes.toNat) }

/-- `x` rounded to the 53 bits of a double, ties to even. -/
def roundDouble (x : Nat) : Nat :=
  let k := x.size - 53
  let q := x / 2 ^ k
  let r := x % 2 ^ k
  if 2 ^ k < 2 * r ∨ (2 * r = 2 ^ k ∧ q % 2 = 1) then (q + 1) * 2 ^ k else q * 2 ^ k

/-- `bpe` for the error rate 0.001 of the only caller, as the double nearest to
`-(log(0.001) / 0.480453013918201)`: this number over `2 ^ 49`. -/
def bpe : Nat := 8093862250619341

/-- `(int)((double)entries * bpe)`. A product that does not fit an `int` converts to `INT_MIN`,
as `cvttsd2si` does. -/
def bitsFor (entries : Int) : Int :=
  let bits : Nat := roundDouble (entries.natAbs * bpe) / 2 ^ 49
  if 2 ^ 31 ≤ bits then -2 ^ 31 else if entries < 0 then -(bits : Int) else bits

def bytesFor (bits : Int) : Int := if bits.tmod 8 ≠ 0 then bits.tdiv 8 + 1 else bits.tdiv 8

/-- `malloc` and `calloc` never return a block of more than `PTRDIFF_MAX` bytes; `xmalloc` and
`xcalloc` then die. -/
def allocFails (size : Int) : Prop := 2 ^ 63 ≤ u64 size

instance (size : Int) : Decidable (allocFails size) := inferInstanceAs (Decidable (_ ≤ _))

/-- `multibloom_new` with the error rate of its caller; `none` when an allocation dies. The
assertion on `entries` is compiled out by `-DNDEBUG`. -/
def new (filters entries : Int) : Option Multibloom :=
  let bits := bitsFor entries
  let bytes := bytesFor bits
  if allocFails (16 + filters * 8) then none
  else if 0 < filters ∧ allocFails bytes then none
  else
    some {
      bits := bits
      bytes := bytes
      hashes := 10
      filters := List.replicate filters.toNat (List.replicate bytes.toNat 0) }

/-! ## The loop over the hash functions -/

theorem position_lt {bits : Nat} (h : 0 < bits) (a b i : Nat) : position bits a b i < bits :=
  Nat.mod_lt _ h

theorem checkLoop_succ {bits a b n i hits : Nat} {filter : List Byte} (hb : 0 < bits)
    (hlen : bits ≤ 8 * filter.length) :
    checkLoop bits a b (n + 1) i hits filter =
      if getBit filter (position bits a b i) then checkLoop bits a b n (i + 1) (hits + 1) filter
      else checkLoop bits a b n (i + 1) hits (setBit filter (position bits a b i)) := by
  have hx := position_lt hb a b i
  generalize hpos : position bits a b i = x at hx
  have hlt : x / 8 < filter.length := by omega
  have hsh : x >>> 3 = x / 8 := Nat.shiftRight_eq_div_pow x 3
  have hget : filter[x / 8]? = some (filter.getD (x / 8) 0) := by
    simp [List.getD_eq_getElem?_getD, hlt]
  rw [checkLoop, if_neg (by omega)]
  simp only [hpos, hsh, hget, Nat.one_shiftLeft]
  by_cases hset : getBit filter x = true
  · rw [if_pos hset, if_pos ((and_two_pow_ne_zero _ _).mpr hset)]
  · rw [if_neg hset, if_neg (fun h => hset ((and_two_pow_ne_zero _ _).mp h))]; rfl

/-- The loop adds the positions of all its hash functions to the filter, and finds all of them
set exactly when the filter it started from had them all. -/
theorem checkLoop_spec {bits a b : Nat} (hb : 0 < bits) :
    ∀ (n i hits : Nat) (filter : List Byte), bits ≤ 8 * filter.length →
      ∃ hits' filter', checkLoop bits a b n i hits filter = some (hits', filter') ∧
        filter'.length = filter.length ∧ hits' ≤ hits + n ∧
        (hits' = hits + n ↔ ∀ k, k < n → getBit filter (position bits a b (i + k)) = true) ∧
        ∀ y, getBit filter' y = true ↔
          getBit filter y = true ∨ ∃ k, k < n ∧ y = position bits a b (i + k) := by
  intro n
  induction n with
  | zero =>
    intro i hits filter _
    exact ⟨hits, filter, rfl, rfl, Nat.le_refl _, by simp, by simp⟩
  | succ n ih =>
    intro i hits filter hlen
    have hx := position_lt hb a b i
    have hnext : ∀ k, position bits a b (i + (k + 1)) = position bits a b (i + 1 + k) := by
      intro k; rw [Nat.add_right_comm i 1 k, Nat.add_assoc]
    rw [checkLoop_succ hb hlen]
    by_cases hset : getBit filter (position bits a b i) = true
    · rw [if_pos hset]
      obtain ⟨hits', filter', he, hl, hle, hall, hbits⟩ := ih (i + 1) (hits + 1) filter hlen
      refine ⟨hits', filter', he, hl, by omega, ?_, ?_⟩
      · rw [Nat.forall_lt_succ_left]
        simp only [Nat.add_zero, hnext]
        constructor
        · intro h; exact ⟨hset, hall.mp (by omega)⟩
        · rintro ⟨_, h⟩; have := hall.mpr h; omega
      · intro y
        rw [hbits, Nat.exists_lt_succ_left]
        simp only [Nat.add_zero, hnext]
        constructor
        · rintro (h | h)
          · exact .inl h
          · exact .inr (.inr h)
        · rintro (h | rfl | h)
          · exact .inl h
          · exact .inl hset
          · exact .inr h
    · rw [if_neg hset]
      have hx8 : position bits a b i / 8 < filter.length := by omega
      obtain ⟨hits', filter', he, hl, hle, -, hbits⟩ :=
        ih (i + 1) hits (setBit filter (position bits a b i)) (by simpa using hlen)
      refine ⟨hits', filter', he, by simpa using hl, by omega, ?_, ?_⟩
      · constructor
        · intro h; omega
        · intro h
          have := h 0 (by omega)
          rw [Nat.add_zero] at this
          exact absurd this hset
      · intro y
        rw [hbits, setBit_iff hx8, Nat.exists_lt_succ_left, or_assoc]
        simp only [Nat.add_zero, hnext]

/-! ## The operations on the sets of bits -/

/-- What `multibloom_new` sets up and every operation keeps. -/
structure Valid (bloom : Multibloom) : Prop where
  bits_pos : 0 < bloom.bits
  bits_lt : bloom.bits < 2 ^ 31
  hashes_pos : 0 < bloom.hashes
  hashes_lt : bloom.hashes < 2 ^ 31
  bytes_nonneg : 0 ≤ bloom.bytes
  bits_le : bloom.bits ≤ 8 * bloom.bytes
  filter_length : ∀ filter ∈ bloom.filters, (filter.length : Int) = bloom.bytes

def bitAt (bloom : Multibloom) (f y : Nat) : Prop :=
  ∃ filter, bloom.filters[f]? = some filter ∧ getBit filter y = true

/-- The positions of the pair `(a, b)` are all set in filter `f`. -/
def Holds (bloom : Multibloom) (f a b : Nat) : Prop :=
  ∀ k, k < bloom.hashes.toNat → bloom.bitAt f (position bloom.bits.toNat a b k)

/-- `bloom'` has the parameters of `bloom` and as many filters. -/
structure SameShape (bloom bloom' : Multibloom) : Prop where
  bits : bloom'.bits = bloom.bits
  bytes : bloom'.bytes = bloom.bytes
  hashes : bloom'.hashes = bloom.hashes
  count : bloom'.filters.length = bloom.filters.length

theorem SameShape.refl (bloom : Multibloom) : bloom.SameShape bloom := ⟨rfl, rfl, rfl, rfl⟩

theorem SameShape.trans {bloom bloom' bloom'' : Multibloom} (h : bloom.SameShape bloom')
    (h' : bloom'.SameShape bloom'') : bloom.SameShape bloom'' :=
  ⟨h'.bits.trans h.bits, h'.bytes.trans h.bytes, h'.hashes.trans h.hashes, h'.count.trans h.count⟩

/-- A check that returns found its filter, and went through all hash functions. -/
theorem check_cases {bloom bloom' : Multibloom} {f : Int} {a b : Nat} {r : Bool}
    (h : bloom.check f a b = some (r, bloom')) :
    ∃ filter hits filter', bloom.filterAt f = some filter ∧
      checkLoop (u32 bloom.bits) a b (u32 bloom.hashes) 0 0 filter = some (hits, filter') ∧
      bloom' = { bloom with filters := bloom.filters.set f.toNat filter' } := by
  unfold check at h
  split at h
  · cases h
  rename_i filter hat
  split at h
  · cases h
  rename_i hits filter' hloop
  cases h
  exact ⟨filter, hits, filter', hat, hloop, rfl⟩

/-- A reset that returns found its filter. -/
theorem reset_cases {bloom bloom' : Multibloom} {f : Int} (h : bloom.reset f = some bloom') :
    ∃ filter filter', bloom.filterAt f = some filter ∧
      bloom' = { bloom with filters := bloom.filters.set f.toNat filter' } := by
  unfold reset at h
  split at h
  · cases h
  rename_i filter hat
  split at h
  · cases h
  cases h
  exact ⟨filter, _, hat, rfl⟩

theorem sameShape_set (bloom : Multibloom) (f : Nat) (filter : List Byte) :
    bloom.SameShape { bloom with filters := bloom.filters.set f filter } :=
  ⟨rfl, rfl, rfl, List.length_set⟩

theorem filterAt_of_lt {bloom : Multibloom} {f : Nat} (hf : f < bloom.filters.length) :
    ∃ filter, bloom.filterAt f = some filter ∧ bloom.filters[f]? = some filter ∧
      filter ∈ bloom.filters := by
  refine ⟨bloom.filters[f], ?_, by simp [hf], List.getElem_mem hf⟩
  simp [filterAt, hf]

theorem Valid.set_filter {bloom : Multibloom} (h : bloom.Valid) {f : Nat} {filter : List Byte}
    (hl : (filter.length : Int) = bloom.bytes) :
    Valid { bloom with filters := bloom.filters.set f filter } := by
  refine ⟨h.bits_pos, h.bits_lt, h.hashes_pos, h.hashes_lt, h.bytes_nonneg, h.bits_le, ?_⟩
  intro g hg
  rcases List.mem_or_eq_of_mem_set hg with hg | rfl
  · exact h.filter_length g hg
  · exact hl

theorem bitAt_set {bloom : Multibloom} {f : Nat} (hf : f < bloom.filters.length)
    (filter : List Byte) (g y : Nat) :
    bitAt { bloom with filters := bloom.filters.set f filter } g y ↔
      (g = f ∧ getBit filter y = true) ∨ (g ≠ f ∧ bloom.bitAt g y) := by
  by_cases hg : f = g
  · subst hg
    simp [bitAt, hf]
  · simp [bitAt, List.getElem?_set_ne hg, Ne.symm hg]

/-- One call of `multibloom_check`: what it makes of the bytes of its filter, and nothing else. -/
theorem check_filter {bloom : Multibloom} (h : bloom.Valid) {f : Nat} {filter : List Byte}
    (hget : bloom.filters[f]? = some filter) (a b : Nat) :
    ∃ r filter', bloom.check f a b =
        some (r, { bloom with filters := bloom.filters.set f filter' }) ∧
      filter'.length = filter.length ∧
      (r = true ↔ ∀ k, k < bloom.hashes.toNat →
        getBit filter (position bloom.bits.toNat a b k) = true) ∧
      ∀ y, getBit filter' y = true ↔ getBit filter y = true ∨
        ∃ k, k < bloom.hashes.toNat ∧ y = position bloom.bits.toNat a b k := by
  have hlen := h.filter_length filter (List.mem_of_getElem? hget)
  have h1 := h.bits_pos; have h2 := h.bits_lt; have h3 := h.bits_le
  have h4 := h.hashes_pos; have h5 := h.hashes_lt
  have hbits : u32 bloom.bits = bloom.bits.toNat := u32_of_lt (by omega) (by omega)
  have hhash : u32 bloom.hashes = bloom.hashes.toNat := u32_of_lt (by omega) (by omega)
  have hat : bloom.filterAt f = some filter := by
    simp [filterAt, hget]
  obtain ⟨hits, filter', he, hl, hle, hall, hbit⟩ :=
    checkLoop_spec (a := a) (b := b) (show 0 < bloom.bits.toNat by omega) bloom.hashes.toNat 0 0
      filter (by omega)
  simp only [Nat.zero_add] at hall hbit
  refine ⟨decide ((hits : Int) = bloom.hashes), filter', ?_, hl, ?_, hbit⟩
  · simp only [check, hat, hbits, hhash, he, Int.toNat_natCast]
  · have hcount : (hits : Int) = bloom.hashes ↔ hits = bloom.hashes.toNat := by omega
    rw [decide_eq_true_eq, hcount, hall]

/-- `multibloom_check` on an index inside the array: it reports presence exactly when every
position of the pair was set, it adds these positions to its filter, and it changes no other. -/
theorem check_spec {bloom : Multibloom} (h : bloom.Valid) {f : Nat}
    (hf : f < bloom.filters.length) (a b : Nat) :
    ∃ r bloom', bloom.check f a b = some (r, bloom') ∧ bloom'.Valid ∧ bloom.SameShape bloom' ∧
      (r = true ↔ bloom.Holds f a b) ∧
      ∀ g y, bloom'.bitAt g y ↔ bloom.bitAt g y ∨
        (g = f ∧ ∃ k, k < bloom.hashes.toNat ∧ y = position bloom.bits.toNat a b k) := by
  obtain ⟨filter, -, hget, hmem⟩ := filterAt_of_lt hf
  obtain ⟨r, filter', hchk, hl, hall, hbit⟩ := check_filter h hget a b
  refine ⟨r, _, hchk, h.set_filter ?_, sameShape_set .., ?_, ?_⟩
  · rw [hl]
    exact h.filter_length filter hmem
  · simp only [hall, Holds, bitAt, hget, Option.some.injEq, exists_eq_left']
  · intro g y
    rw [bitAt_set hf]
    by_cases hg : g = f
    · subst hg
      simp only [hbit, bitAt, hget, Option.some.injEq, exists_eq_left', true_and,
        ne_eq, not_true, false_and, or_false]
    · simp [hg]

theorem holds_of_bits {bloom bloom' : Multibloom} (hs : bloom.SameShape bloom') {f a b : Nat}
    (hb : ∀ y, (∃ k, k < bloom.hashes.toNat ∧ y = position bloom.bits.toNat a b k) →
      bloom'.bitAt f y) : bloom'.Holds f a b := by
  intro k hk
  rw [hs.hashes] at hk
  rw [hs.bits]
  exact hb _ ⟨k, hk, rfl⟩

theorem Holds.mono {bloom bloom' : Multibloom} (hs : bloom.SameShape bloom') {f a b : Nat}
    (hb : ∀ y, bloom.bitAt f y → bloom'.bitAt f y) (h : bloom.Holds f a b) :
    bloom'.Holds f a b := by
  intro k hk
  rw [hs.hashes] at hk
  rw [hs.bits]
  exact hb _ (h k hk)

theorem reset_spec {bloom : Multibloom} (h : bloom.Valid) {f : Nat}
    (hf : f < bloom.filters.length) :
    ∃ bloom', bloom.reset f = some bloom' ∧ bloom'.Valid ∧ bloom.SameShape bloom' ∧
      ∀ g y, bloom'.bitAt g y ↔ g ≠ f ∧ bloom.bitAt g y := by
  obtain ⟨filter, hat, hget, hmem⟩ := filterAt_of_lt hf
  have hlen := h.filter_length filter hmem
  have hnn := h.bytes_nonneg
  have hdrop : filter.drop bloom.bytes.toNat = [] := List.drop_eq_nil_of_le (by omega)
  have hres : bloom.reset f = some { bloom with
      filters := bloom.filters.set f (List.replicate bloom.bytes.toNat 0) } := by
    simp only [reset, hat, hdrop, List.append_nil, Int.toNat_natCast]
    rw [if_neg (by omega)]
  refine ⟨_, hres, h.set_filter (by simp; omega), sameShape_set .., ?_⟩
  intro g y
  rw [bitAt_set hf]
  simp [getBit_zeros]

/-! ## A new filter -/

theorem roundDouble_ge {x : Nat} (hx : 2 ^ 49 ≤ x) : 2 ^ 49 ≤ roundDouble x := by
  have hq : 2 ^ 49 ≤ x / 2 ^ (x.size - 53) * 2 ^ (x.size - 53) := by
    by_cases hk : x.size ≤ 53
    · rw [Nat.sub_eq_zero_of_le hk]; simpa using hx
    · have h1 : 2 ^ (x.size - 1) ≤ x := Nat.lt_size.mp (by omega)
      have h2 : 2 ^ 52 ≤ x / 2 ^ (x.size - 53) := by
        rw [Nat.le_div_iff_mul_le (Nat.two_pow_pos _), ← Nat.pow_add]
        rwa [show 52 + (x.size - 53) = x.size - 1 by omega]
      calc 2 ^ 49 ≤ 2 ^ 52 * 1 := by decide
        _ ≤ _ := Nat.mul_le_mul h2 Nat.one_le_two_pow
  simp only [roundDouble]
  split
  · exact hq.trans (Nat.mul_le_mul_right _ (Nat.le_succ _))
  · exact hq

theorem bytesFor_eq {bits : Int} (h : 0 < bits) : bytesFor bits = (bits + 7) / 8 := by
  have hd : bits.tdiv 8 = bits / 8 := Int.tdiv_eq_ediv_of_nonneg (by omega)
  have hm : bits.tmod 8 = bits % 8 := Int.tmod_eq_emod_of_nonneg (by omega)
  simp only [bytesFor, hd, hm]
  split <;> omega

/-- An entry takes some bits. -/
theorem entry_bits {entries : Int} (he : entries ≠ 0) :
    1 ≤ roundDouble (entries.natAbs * bpe) / 2 ^ 49 := by
  rw [Nat.le_div_iff_mul_le (Nat.two_pow_pos _), Nat.one_mul]
  apply roundDouble_ge
  calc 2 ^ 49 ≤ 1 * bpe := by decide
    _ ≤ _ := Nat.mul_le_mul_right _ (by omega)

theorem bitsFor_range {entries : Int} (he : 0 < entries) :
    bitsFor entries = -2 ^ 31 ∨ (0 < bitsFor entries ∧ bitsFor entries < 2 ^ 31) := by
  have hround := entry_bits (by omega : entries ≠ 0)
  simp only [bitsFor]
  split
  · exact .inl rfl
  · rw [if_neg (by omega)]; exact .inr ⟨by omega, by omega⟩

/-- The modulus of the positions is zero for no entries only. -/
theorem u32_bitsFor (entries : Int) : u32 (bitsFor entries) = 0 ↔ entries = 0 := by
  constructor
  · intro hzero
    by_contra he
    have hround := entry_bits he
    simp only [u32, bitsFor] at hzero
    split at hzero
    · omega
    · split at hzero <;> omega
  · rintro rfl
    rfl

/-- A size in bits and in bytes that belong together, and filters of that size. -/
structure Sized (bloom : Multibloom) : Prop where
  bits : 1 ≤ bloom.bits ∧ bloom.bits < 2 ^ 31
  hashes : 1 ≤ bloom.hashes ∧ bloom.hashes < 2 ^ 31
  bytes : bloom.bytes = (bloom.bits + 7) / 8
  filter_length : ∀ filter ∈ bloom.filters, (filter.length : Int) = bloom.bytes

theorem Sized.valid {bloom : Multibloom} (h : bloom.Sized) : bloom.Valid := by
  have hbits := h.bits
  have hbytes := h.bytes
  exact ⟨hbits.1, hbits.2, h.hashes.1, h.hashes.2, by omega, by omega, h.filter_length⟩

/-- What `multibloom_new` returns when no allocation dies. -/
theorem new_cases {filters entries : Int} {bloom : Multibloom} (h : new filters entries = some bloom) :
    ¬ (0 < filters ∧ allocFails (bytesFor (bitsFor entries))) ∧
      bloom = {
        bits := bitsFor entries
        bytes := bytesFor (bitsFor entries)
        hashes := 10
        filters :=
          List.replicate filters.toNat (List.replicate (bytesFor (bitsFor entries)).toNat 0) } := by
  simp only [new] at h
  split at h
  · cases h
  split at h
  · cases h
  rename_i halloc
  exact ⟨halloc, (Option.some.inj h).symm⟩

/-- With at least one filter and one entry, the filters that come out have their size. -/
theorem new_sized {filters entries : Int} (hf : 1 ≤ filters) (he : 0 < entries)
    {bloom : Multibloom} (h : new filters entries = some bloom) :
    bloom.Sized ∧ bloom.filters.length = filters.toNat := by
  obtain ⟨halloc, rfl⟩ := new_cases h
  have hbits : 0 < bitsFor entries ∧ bitsFor entries < 2 ^ 31 := by
    rcases bitsFor_range he with hb | hb
    · rw [hb] at halloc
      exact absurd ⟨by omega, by decide⟩ halloc
    · exact hb
  have hbytes := bytesFor_eq hbits.1
  refine ⟨⟨hbits, ?_, hbytes, ?_⟩, by simp⟩
  · show (1 : Int) ≤ 10 ∧ (10 : Int) < 2 ^ 31
    decide
  · intro filter hmem
    rw [List.eq_of_mem_replicate hmem, List.length_replicate]
    exact Int.toNat_of_nonneg (by omega)

theorem new_valid {filters entries : Int} (hf : 1 ≤ filters) (he : 0 < entries)
    {bloom : Multibloom} (h : new filters entries = some bloom) :
    bloom.Valid ∧ bloom.filters.length = filters.toNat := by
  obtain ⟨hsized, hlength⟩ := new_sized hf he h
  exact ⟨hsized.valid, hlength⟩

theorem new_empty {filters entries : Int} {bloom : Multibloom} (h : new filters entries = some bloom)
    (f y : Nat) : ¬ bloom.bitAt f y := by
  obtain ⟨-, rfl⟩ := new_cases h
  rintro ⟨filter, hfilter, hbit⟩
  obtain rfl := List.eq_of_mem_replicate (List.mem_of_getElem? hfilter)
  rw [getBit_zeros] at hbit
  cases hbit

end Multibloom
end Brubeck
