import Brubeck.Lib.Decimal
import Brubeck.Lib.Loop
import Brubeck.Utils

/-!
# Brubeck.Itoa

`brubeck_itoa` in the caller's buffer: digits from the last one to the first, and then swaps from both
ends until the pointers meet.

* `Digits.round`, `Ends.round`: one round of each loop, as the code has it.
* `itoa_eq`: the memory it leaves. Only the bytes of the digits are written, so they are all the room
  it needs.
* `ItoaEnds`: the same two loops without a bound on their rounds. `itoa_ends`: they end, and the bounds
  of `itoa` are never met.
* `itoa_prints`: what is in the buffer afterwards.
-/

namespace Brubeck

open Lib

/-! ## The two rounds -/

/-- Between two rounds of the first loop. -/
structure Digits where
  mem : List Byte
  ptr : Nat
  number : Nat

/-- `*ptr++ = '0' + (number % 10); number /= 10;` -/
def Digits.round (s : Digits) : Digits :=
  { mem := s.mem.set s.ptr (UInt8.ofNat (48 + s.number % 10)), ptr := s.ptr + 1, number := s.number / 10 }

/-- Between two rounds of the second loop. -/
structure Ends where
  mem : List Byte
  origin : Nat
  ptr : Nat

/-- `char t = *ptr; *ptr-- = *origin; *origin++ = t;` -/
def Ends.round (s : Ends) : Ends :=
  let t := s.mem.getD s.ptr 0
  let mem := s.mem.set s.ptr (s.mem.getD s.origin 0)
  { mem := mem.set s.origin t, origin := s.origin + 1, ptr := s.ptr - 1 }

theorem Digits.round_eq (pre post room : List Byte) (c : Byte) (n : Nat) :
    Digits.round ⟨pre ++ c :: room ++ post, pre.length, n⟩ =
      ⟨(pre ++ [digitByte (Fin.ofNat 10 n)]) ++ room ++ post,
        (pre ++ [digitByte (Fin.ofNat 10 n)]).length, n / 10⟩ := by
  have hbyte : UInt8.ofNat (48 + n % 10) = digitByte (Fin.ofNat 10 n) := rfl
  unfold Digits.round
  rw [hbyte, List.append_assoc, List.cons_append, set_length]
  simp

/-- The bytes at both ends change places, and the pointers meet the ones between them. -/
theorem Ends.round_eq (pre mid post : List Byte) (a b : Byte) :
    Ends.round ⟨pre ++ a :: (mid ++ [b]) ++ post, pre.length, (pre ++ a :: mid).length⟩ =
      ⟨(pre ++ [b]) ++ mid ++ (a :: post), (pre ++ [b]).length, (pre ++ [b]).length + mid.length - 1⟩ := by
  have hmem : pre ++ a :: (mid ++ [b]) ++ post = (pre ++ a :: mid) ++ b :: post := by simp
  have hfirst : ((pre ++ a :: mid) ++ b :: post).getD pre.length 0 = a := by
    rw [List.append_assoc, List.cons_append, getD_length]
  unfold Ends.round
  simp only [hmem, getD_length, hfirst]
  rw [set_length, List.append_assoc, List.cons_append, set_length]
  simp

/-! ## The loops -/

theorem itoaDigits_succ (rounds : Nat) (mem : List Byte) (ptr n : Nat) :
    itoaDigits (rounds + 1) mem ptr n =
      if n / 10 ≠ 0 then
        itoaDigits rounds (Digits.round ⟨mem, ptr, n⟩).mem (Digits.round ⟨mem, ptr, n⟩).ptr (n / 10)
      else ((Digits.round ⟨mem, ptr, n⟩).mem, (Digits.round ⟨mem, ptr, n⟩).ptr) := rfl

theorem itoaReverse_succ (rounds : Nat) (mem : List Byte) (origin ptr : Nat) :
    itoaReverse (rounds + 1) mem origin ptr =
      if origin < ptr then
        itoaReverse rounds (Ends.round ⟨mem, origin, ptr⟩).mem (Ends.round ⟨mem, origin, ptr⟩).origin
          (Ends.round ⟨mem, origin, ptr⟩).ptr
      else mem := rfl

/-- The digits go out from the last one to the first. -/
theorem itoaDigits_eq (rounds : Nat) :
    ∀ (pre post : List Byte) {room : List Byte} {n : Nat}, n < 10 ^ (rounds + 1) →
      room.length = (decimal n).length →
      itoaDigits (rounds + 1) (pre ++ room ++ post) pre.length n =
        (pre ++ digitText (decimal n).reverse ++ post, pre.length + (decimal n).length) := by
  induction rounds with
  | zero =>
    intro pre post room n hn hroom
    have hdiv : n / 10 = 0 := by omega
    rw [decimal_eq, hdiv] at hroom ⊢
    obtain ⟨c, rfl⟩ := List.length_eq_one_iff.mp hroom
    rw [itoaDigits_succ, Digits.round_eq, if_neg (not_not.mpr hdiv)]
    simp
  | succ rounds ih =>
    intro pre post room n hn hroom
    have hdecimal := decimal_eq n
    rw [hdecimal, List.length_append, List.length_singleton] at hroom
    obtain ⟨c, room, rfl⟩ := List.exists_cons_of_length_eq_add_one hroom
    rw [itoaDigits_succ, Digits.round_eq]
    by_cases hdiv : n / 10 = 0
    · rw [if_neg (not_not.mpr hdiv)] at hdecimal hroom ⊢
      have hnil : room = [] := List.length_eq_zero_iff.mp (by simpa using hroom)
      rw [hdecimal, hnil]
      simp
    · rw [if_pos hdiv] at hdecimal hroom ⊢
      have hlt : n / 10 < 10 ^ (rounds + 1) := by
        rw [Nat.pow_succ] at hn
        omega
      rw [ih _ post hlt (by simpa using hroom), hdecimal]
      simp [digitText, Nat.add_assoc, Nat.add_comm 1]

/-- The swaps turn the bytes between the two pointers around. -/
theorem itoaReverse_eq (rounds : Nat) :
    ∀ (pre mid post : List Byte), mid.length ≤ rounds →
      itoaReverse rounds (pre ++ mid ++ post) pre.length (pre.length + mid.length - 1) =
        pre ++ mid.reverse ++ post := by
  induction rounds with
  | zero =>
    intro pre mid post h
    have hnil : mid = [] := List.length_eq_zero_iff.mp (by omega)
    subst hnil
    rfl
  | succ rounds ih =>
    intro pre mid post h
    rw [itoaReverse_succ]
    -- the pointers have met when at most one byte is left between them
    cases mid with
    | nil =>
      rw [if_neg (by simp)]
      rfl
    | cons a mid =>
      cases mid using List.reverseRecOn with
      | nil =>
        rw [if_neg (by simp)]
        rfl
      | append_singleton mid b =>
        have hptr : pre.length + (a :: (mid ++ [b])).length - 1 = (pre ++ a :: mid).length := by simp
        rw [hptr, if_pos (by simp), Ends.round_eq, ih (pre ++ [b]) mid (a :: post) (by simp at h; omega)]
        simp

/-- The digits of the number, taken as a `uint32_t`, come into their own room. -/
theorem itoa_eq (pre post : List Byte) {room : List Byte} {n : Nat}
    (hroom : room.length = (decimal (n % 2 ^ 32)).length) :
    itoa (pre ++ room ++ post) pre.length n =
      (pre ++ digitText (decimal (n % 2 ^ 32)) ++ post, (decimal (n % 2 ^ 32)).length) := by
  have hlt : n % 2 ^ 32 < 10 ^ (9 + 1) := by omega
  have hdigits := itoaDigits_eq 9 pre post hlt hroom
  generalize decimal (n % 2 ^ 32) = ds at hdigits ⊢
  have hturn := itoaReverse_eq ds.length pre (digitText ds.reverse) post (by simp [digitText_length])
  rw [digitText_length, List.length_reverse] at hturn
  unfold itoa
  simp only [hdigits, Nat.add_sub_cancel_left, hturn]
  simp [digitText]

theorem itoa_take {mem : List Byte} {ptr n : Nat}
    (hroom : ptr + (decimal (n % 2 ^ 32)).length ≤ mem.length) :
    itoa mem ptr n =
      (mem.take ptr ++ digitText (decimal (n % 2 ^ 32)) ++ mem.drop (ptr + (decimal (n % 2 ^ 32)).length),
        (decimal (n % 2 ^ 32)).length) := by
  generalize hlength : (decimal (n % 2 ^ 32)).length = size at hroom ⊢
  have hpre : (mem.take ptr).length = ptr := List.length_take_of_le (by omega)
  have hmid : ((mem.drop ptr).take size).length = size :=
    List.length_take_of_le (by rw [List.length_drop]; omega)
  have hmem : mem = mem.take ptr ++ (mem.drop ptr).take size ++ mem.drop (ptr + size) := by
    rw [List.append_assoc, ← List.drop_drop, List.take_append_drop, List.take_append_drop]
  have heq := itoa_eq (mem.take ptr) (mem.drop (ptr + size)) (hmid.trans hlength.symm)
  rw [hpre, ← hmem, hlength] at heq
  exact heq

/-! ## Without a bound on the rounds -/

/-- `brubeck_itoa(ptr, number)` ends, with `mem'` in the memory, and returns `size`. -/
def ItoaEnds (mem : List Byte) (ptr : Nat) (number : UInt32) (mem' : List Byte) (size : Nat) : Prop :=
  ∃ (s : Digits) (t : Ends),
    While (fun s : Digits => s.number ≠ 0) Digits.round (Digits.round ⟨mem, ptr, number.toNat⟩) s ∧
    While (fun s : Ends => s.origin < s.ptr) Ends.round ⟨s.mem, ptr, s.ptr - 1⟩ t ∧
    mem' = t.mem ∧ size = s.ptr - ptr

theorem itoaDigits_ends (rounds : Nat) :
    ∀ (mem : List Byte) (ptr : Nat) {n : Nat}, n < 10 ^ (rounds + 1) →
      While (fun s : Digits => s.number ≠ 0) Digits.round (Digits.round ⟨mem, ptr, n⟩)
        ⟨(itoaDigits (rounds + 1) mem ptr n).1, (itoaDigits (rounds + 1) mem ptr n).2, 0⟩ := by
  induction rounds with
  | zero =>
    intro mem ptr n hn
    have hdiv : n / 10 = 0 := by omega
    simp only [itoaDigits, Digits.round, hdiv]
    exact .done (by simp)
  | succ rounds ih =>
    intro mem ptr n hn
    rw [itoaDigits_succ]
    by_cases hdiv : n / 10 = 0
    · simp only [Digits.round, hdiv]
      exact .done (by simp)
    · have hlt : n / 10 < 10 ^ (rounds + 1) := by
        rw [Nat.pow_succ] at hn
        omega
      rw [if_pos hdiv]
      exact .next hdiv (ih _ _ hlt)

theorem itoaReverse_ends (rounds : Nat) :
    ∀ (mem : List Byte) (origin ptr : Nat), ptr - origin ≤ rounds →
      ∃ t : Ends, While (fun s : Ends => s.origin < s.ptr) Ends.round ⟨mem, origin, ptr⟩ t ∧
        t.mem = itoaReverse rounds mem origin ptr := by
  induction rounds with
  | zero =>
    intro mem origin ptr h
    exact ⟨_, .done (by simp only; omega), rfl⟩
  | succ rounds ih =>
    intro mem origin ptr h
    rw [itoaReverse_succ]
    by_cases hlt : origin < ptr
    · obtain ⟨t, hloop, hmem⟩ := ih (Ends.round ⟨mem, origin, ptr⟩).mem (origin + 1) (ptr - 1) (by omega)
      rw [if_pos hlt]
      exact ⟨t, .next hlt hloop, hmem⟩
    · rw [if_neg hlt]
      exact ⟨_, .done hlt, rfl⟩

/-- The loops end, and the bounds of `itoa` are not met. -/
theorem itoa_ends (mem : List Byte) (ptr : Nat) (number : UInt32) (mem' : List Byte) (size : Nat) :
    ItoaEnds mem ptr number mem' size ↔ itoa mem ptr number.toNat = (mem', size) := by
  have hnumber : number.toNat % 2 ^ 32 = number.toNat := Nat.mod_eq_of_lt number.toNat_lt
  have hlt : number.toNat < 10 ^ (9 + 1) := by
    have := number.toNat_lt
    omega
  have hdigits := itoaDigits_ends 9 mem ptr hlt
  unfold itoa
  rw [hnumber]
  generalize itoaDigits 10 mem ptr number.toNat = r at hdigits ⊢
  obtain ⟨t, hswaps, hmem⟩ := itoaReverse_ends (r.2 - ptr) r.1 ptr (r.2 - 1) (by omega)
  constructor
  · rintro ⟨s, t', hs, ht, rfl, rfl⟩
    cases hs.unique hdigits
    rw [ht.unique hswaps, hmem]
  · intro h
    cases h
    exact ⟨_, t, hdigits, hswaps, hmem.symm, rfl⟩

/-! ## What it prints -/

/-- For every number and every content of the memory with room for its digits, `brubeck_itoa` ends.
The digits are at `ptr`, the rest of the memory is as before, and the size is returned. The text is the
canonical one. -/
theorem itoa_prints (n : UInt32) (mem : List Byte) (ptr : Nat)
    (hroom : ptr + (decimal n.toNat).length ≤ mem.length) :
    ∃ text : List Byte,
      (∀ mem' size, ItoaEnds mem ptr n mem' size ↔
        mem' = mem.take ptr ++ text ++ mem.drop (ptr + text.length) ∧ size = text.length) ∧
      0 < text.length ∧ text.length ≤ 10 ∧ (∀ b ∈ text, isDigit b = true) ∧
      (text.head? = some (ch '0') → n = 0 ∧ text = [ch '0']) ∧
      natVal (text.map digitOf) = n.toNat := by
  have hnumber : n.toNat % 2 ^ 32 = n.toNat := Nat.mod_eq_of_lt n.toNat_lt
  have hlt : n.toNat < 10 ^ 10 := by
    have := n.toNat_lt
    omega
  have hitoa := itoa_take (n := n.toNat) (by rw [hnumber]; exact hroom)
  rw [hnumber] at hitoa
  refine ⟨digitText (decimal n.toNat), ?_, ?_, ?_, ?_, ?_, ?_⟩
  · intro mem' size
    rw [itoa_ends, hitoa, Prod.mk.injEq, eq_comm, @eq_comm _ _ size, digitText_length]
  · rw [digitText_length]
    exact List.length_pos_iff.mpr (decimal_ne_nil _)
  · rw [digitText_length]
    exact decimal_length_le (by omega) hlt
  · intro b hb
    obtain ⟨d, -, rfl⟩ := List.mem_map.mp hb
    exact isDigit_digitByte d
  · intro hhead
    have hzero : (decimal n.toNat).head? = some 0 := by
      rw [digitText, List.head?_map] at hhead
      obtain ⟨d, hd, hbyte⟩ := Option.map_eq_some_iff.mp hhead
      rw [hd, (digitByte_eq_zero d).mp hbyte]
    have hn : n.toNat = 0 := not_imp_comm.mp decimal_canonical (not_not.mpr hzero)
    refine ⟨UInt32.toNat_inj.mp hn, ?_⟩
    rw [hn]
    rfl
  · rw [map_digitOf, natVal_decimal]

theorem itoa_prints_max :
    ∃ text : List Byte,
      (∀ mem' size, ItoaEnds (List.replicate 12 (ch ' ')) 1 (UInt32.ofNat (2 ^ 32 - 1)) mem' size ↔
        mem' = (List.replicate 12 (ch ' ')).take 1 ++ text ++
          (List.replicate 12 (ch ' ')).drop (1 + text.length) ∧ size = text.length) ∧
      0 < text.length ∧ text.length ≤ 10 ∧ (∀ b ∈ text, isDigit b = true) ∧
      (text.head? = some (ch '0') → UInt32.ofNat (2 ^ 32 - 1) = 0 ∧ text = [ch '0']) ∧
      natVal (text.map digitOf) = (UInt32.ofNat (2 ^ 32 - 1)).toNat := by
  refine itoa_prints (UInt32.ofNat (2 ^ 32 - 1)) (List.replicate 12 (ch ' ')) 1 ?_
  have hlength : (decimal (2 ^ 32 - 1)).length ≤ 10 := decimal_length_le (by omega) (by omega)
  rw [List.length_replicate]
  exact Nat.add_le_add_left hlength 1 |>.trans (by omega)

end Brubeck
