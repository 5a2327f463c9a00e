import Brubeck.Bloom
import Brubeck.Carbon.Basic
import Brubeck.Flow
import Brubeck.Lib.Decimal
import Mathlib.Algebra.Order.BigOperators.Group.List

/-!
# Brubeck.Title

The process title of `update_proctitle` and `setproctitle`: what each backend has sent and what each
sampler receives, printed piece by piece into a buffer of 2048 bytes, and copied from there over the
memory of `argv`. Nothing checks that `pos` stays in the buffer, nor that the unit of a size is in its
table.

* `puts`: `snprintf` behind what is there. `none` is a byte outside of the buffer.
* `updateProctitle`, `setproctitle`: the functions.
* `scale_spec`: the unit of a size is always in the table, and the size in it is less than 1024.
* `proctitle_written`: for a name of up to 1698 bytes no byte is written outside, and the memory of
  `argv` holds the title, cut to the room there is.
-/

namespace Brubeck
namespace Title

open Lib

/-! ## The texts -/

def UPARROW : List Byte := [0xe2, 0x86, 0x91]

def DOWNARROW : List Byte := [0xe2, 0x86, 0x93]

def sizeSuffix : List String := ["b", "kb", "mb", "gb", "tb", "pb", "eb"]

/-- The loop over `j`. Dividing a `double` by 1024 is exact. -/
def scale : (rounds j : Nat) → (sent : Value) → Value × Nat
  | 0, j, sent => (sent, j)
  | rounds + 1, j, sent => if 1024 ≤ sent then scale rounds (j + 1) (sent / 1024) else (sent, j)

/-- The nearest integer, ties to even. -/
def roundEven (x : Value) : Nat :=
  let n := x.floor.toNat
  let rest := x - n
  if 1 / 2 < rest ∨ (rest = 1 / 2 ∧ n % 2 = 1) then n + 1 else n

/-- `%d`. -/
def intText (n : Int) : List Byte :=
  (if n < 0 then [ch '-'] else []) ++ digitText (decimal n.natAbs)

/-- `%.1f`. -/
def tenthText (x : Value) : List Byte :=
  digitText (decimal (roundEven (10 * x) / 10)) ++ [ch '.', digitByte (Fin.ofNat 10 (roundEven (10 * x)))]

def comma (i : Nat) : List Byte := if 0 < i then [ch ','] else []

/-- `none` is a read outside of `size_suffix`. -/
def backendText (i : Nat) (carbon : Carbon) : Option (List Byte) :=
  let (sent, j) := scale 7 0 (Multibloom.roundDouble carbon.sent.toNat)
  sizeSuffix[j]?.map fun suffix =>
    comma i ++ str [' ', '#'] ++ intText (i + 1) ++ [ch ' '] ++ tenthText sent ++ str suffix.toList ++
      if carbon.connected then [] else str " (dc)".toList

def samplerText (i : Nat) (sampler : Flow.Sampler) : List Byte :=
  comma i ++ str [' ', ':'] ++ intText sampler.port.toNat ++ [ch ' '] ++
    intText (i32 sampler.current_flow.toNat) ++ str ['/', 's']

/-! ## The buffer -/

def TITLE_SIZE : Nat := 2048

structure Line where
  buf : List Byte
  pos : Nat

/-- `PUTS`. The room is a `size_t`, and the position is added to whether or not there is room. -/
def puts (line : Line) (text : List Byte) : Option Line :=
  let size := u64 (TITLE_SIZE - line.pos)
  let bytes := if size = 0 then [] else text.take (size - 1) ++ [0]
  if line.pos + bytes.length ≤ TITLE_SIZE then
    some ⟨store line.buf line.pos bytes, line.pos + text.length⟩
  else none

/-- The memory from `argv0[0]` on, and the length that `initproctitle` found. -/
structure Argv where
  area : List Byte
  argv_lth : Nat
  deriving DecidableEq

/-- `memset` and `strcpy`. -/
def Argv.copy (argv : Argv) (title : List Byte) : Option Argv :=
  if argv.argv_lth ≤ argv.area.length ∧ title.length + 1 ≤ argv.area.length then
    some { argv with
      area := store (store argv.area 0 (List.replicate argv.argv_lth 0)) 0 (title ++ [0]) }
  else none

/-- `setproctitle`, without the store of `NULL` into `argv0[1]`, which is no part of the title's memory;
`argv0` is null when `initproctitle` had no memory. A negative index of `buf` is a `none`. -/
def setproctitle (argv0 : Option Argv) (prog txt : List Byte) : Option (Option Argv) :=
  match argv0 with
  | none => some none
  | some argv =>
    if TITLE_SIZE < prog.length + txt.length + 5 then some (some argv)
    else
      let buf := prog ++ str " -- ".toList ++ txt
      if (argv.argv_lth : Int) - 2 < buf.length then
        if argv.argv_lth < 2 then none else (argv.copy (buf.take (argv.argv_lth - 2))).map some
      else (argv.copy buf).map some

/-- The two loops of `update_proctitle`. -/
def putBackends (line : Line) (backends : List Carbon) : Option Line :=
  backends.zipIdx.foldlM (fun line entry => (backendText entry.2 entry.1).bind (puts line)) line

def putSamplers (line : Line) (samplers : List Flow.Sampler) : Option Line :=
  samplers.zipIdx.foldlM (fun line entry => puts line (samplerText entry.2 entry.1)) line

/-- `update_proctitle`; `buf` is what the stack holds. -/
def updateProctitle (config_name : List Byte) (backends : List Carbon) (samplers : List Flow.Sampler)
    (buf : List Byte) (argv0 : Option Argv) : Option (Option Argv) := do
  let line ← puts ⟨buf, 0⟩ (str ['['] ++ config_name ++ str "] [ ".toList ++ UPARROW)
  let line ← putBackends line backends
  let line ← puts line (str " ] [ ".toList ++ DOWNARROW)
  let line ← putSamplers line samplers
  let line ← puts line (str " ]".toList)
  setproctitle argv0 (str "brubeck".toList) (line.buf.take (strlen line.buf))

/-- `get_config_name`: the last component of the path, without its extension. -/
def baseName (path : List Byte) : List Byte := (path.reverse.takeWhile (· ≠ ch '/')).reverse

def getConfigName (path : List Byte) : List Byte :=
  let name := baseName path
  if ch '.' ∈ name then ((name.reverse.dropWhile (· ≠ ch '.')).drop 1).reverse else name

/-! ## Sizes -/

theorem roundDouble_le {x : Nat} (h : x < 2 ^ 64) : Multibloom.roundDouble x ≤ 2 ^ 64 := by
  have hsize : x.size ≤ 64 := Nat.size_le.mpr h
  have hx : x < 2 ^ x.size := Nat.lt_size_self x
  simp only [Multibloom.roundDouble]
  by_cases hk : x.size ≤ 53
  · have hzero : x.size - 53 = 0 := by omega
    have hrest : x % 2 ^ 0 = 0 := by rw [pow_zero, Nat.mod_one]
    rw [hzero, hrest, if_neg (by omega), pow_zero, Nat.div_one, Nat.mul_one]
    omega
  · have hq : x / 2 ^ (x.size - 53) < 2 ^ 53 := by
      rw [Nat.div_lt_iff_lt_mul (Nat.two_pow_pos _), ← Nat.pow_add]
      rwa [show 53 + (x.size - 53) = x.size by omega]
    have hup : (x / 2 ^ (x.size - 53) + 1) * 2 ^ (x.size - 53) ≤ 2 ^ 64 := by
      calc (x / 2 ^ (x.size - 53) + 1) * 2 ^ (x.size - 53)
          ≤ 2 ^ 53 * 2 ^ (x.size - 53) := Nat.mul_le_mul_right _ hq
        _ = 2 ^ x.size := by rw [← Nat.pow_add, show 53 + (x.size - 53) = x.size by omega]
        _ ≤ 2 ^ 64 := Nat.pow_le_pow_right (by omega) hsize
    split
    · exact hup
    · exact (Nat.mul_le_mul_right _ (Nat.le_succ _)).trans hup

/-- The loop ends below 1024, before its bound on `j` does. -/
theorem scale_spec (rounds j : Nat) {sent : Value} (h0 : 0 ≤ sent) (h : sent < 1024 ^ (rounds + 1)) :
    0 ≤ (scale (rounds + 1) j sent).1 ∧ (scale (rounds + 1) j sent).1 < 1024 ∧
      (scale (rounds + 1) j sent).2 ≤ j + rounds := by
  induction rounds generalizing j sent with
  | zero =>
    rw [zero_add, pow_one] at h
    rw [scale, if_neg (not_le.mpr h)]
    exact ⟨h0, h, le_refl _⟩
  | succ rounds ih =>
    rw [scale]
    split
    · have hlt : sent / 1024 < 1024 ^ (rounds + 1) := by
        rw [div_lt_iff₀ (by norm_num)]
        rwa [pow_succ] at h
      obtain ⟨hpos, hsize, hunit⟩ := ih (j + 1) (div_nonneg h0 (by norm_num)) hlt
      exact ⟨hpos, hsize, by omega⟩
    · case _ hlt => exact ⟨h0, not_le.mp hlt, by omega⟩

theorem roundEven_le {x : Value} (h0 : 0 ≤ x) {n : Nat} (h : x < n) : roundEven x ≤ n := by
  have hn : 0 < n := by exact_mod_cast h0.trans_lt h
  have hfloor : x.floor.toNat < n := by
    have hlt : x.floor < n := by
      rw [Rat.floor_lt_iff]
      exact_mod_cast h
    omega
  rw [roundEven]
  split <;> omega

/-! ## The pieces -/

/-- A text of a C string of up to `n` bytes. -/
structure Piece (n : Nat) (text : List Byte) : Prop where
  length : text.length ≤ n
  nul : (0 : Byte) ∉ text

theorem Piece.append {m n : Nat} {a b : List Byte} (ha : Piece m a) (hb : Piece n b) :
    Piece (m + n) (a ++ b) where
  length := by
    have := ha.length
    have := hb.length
    rw [List.length_append]
    omega
  nul := by
    rw [List.mem_append]
    exact not_or.mpr ⟨ha.nul, hb.nul⟩

theorem Piece.mono {m n : Nat} {text : List Byte} (h : Piece m text) (hle : m ≤ n) : Piece n text :=
  ⟨h.length.trans hle, h.nul⟩

theorem piece_digits {ds : List (Fin 10)} {k : Nat} (h : ds.length ≤ k) : Piece k (digitText ds) where
  length := by rwa [digitText_length]
  nul := digitText_nul ds

theorem piece_nat {n k : Nat} (hk : 0 < k) (h : n < 10 ^ k) : Piece k (intText n) := by
  rw [intText, if_neg (by omega), List.nil_append, Int.natAbs_natCast]
  exact piece_digits (decimal_length_le hk h)

theorem piece_int {n : Int} {k : Nat} (hk : 0 < k) (h : n.natAbs < 10 ^ k) : Piece (1 + k) (intText n) := by
  rw [intText]
  refine Piece.append ?_ (piece_digits (decimal_length_le hk h))
  split
  · exact ⟨by simp, by decide⟩
  · exact ⟨by simp, by simp⟩

theorem piece_tenth {x : Value} (h0 : 0 ≤ x) (h : x < 1024) : Piece 6 (tenthText x) := by
  have hround : roundEven (10 * x) ≤ 10240 := by
    refine roundEven_le (mul_nonneg (by norm_num) h0) ?_
    calc 10 * x < 10 * 1024 := by linarith
      _ = (10240 : Nat) := by norm_num
  have hlast : Piece 1 (digitText [Fin.ofNat 10 (roundEven (10 * x))]) := piece_digits (by simp)
  have hpoint : Piece 1 [ch '.'] := ⟨by simp, by decide⟩
  have hdigits : Piece 4 (digitText (decimal (roundEven (10 * x) / 10))) :=
    piece_digits (decimal_length_le (by omega) (by omega))
  exact hdigits.append (hpoint.append hlast)

theorem piece_comma (i : Nat) : Piece 1 (comma i) := by
  rw [comma]
  split
  · exact ⟨by simp, by decide⟩
  · exact ⟨by simp, by simp⟩

theorem piece_suffix {j : Nat} {suffix : String} (h : sizeSuffix[j]? = some suffix) :
    Piece 2 (str suffix.toList) := by
  have hall : ∀ suffix ∈ sizeSuffix, (str suffix.toList).length ≤ 2 ∧ (0 : Byte) ∉ str suffix.toList := by
    decide
  obtain ⟨hlength, hnul⟩ := hall suffix (List.mem_of_getElem? h)
  exact ⟨hlength, hnul⟩

/-- The piece of a backend. There always is one: a `size_t` is less than `1024 ^ 7`. -/
theorem piece_backend {i : Nat} (hi : i < 8) (carbon : Carbon) :
    ∃ text, backendText i carbon = some text ∧ Piece 18 text := by
  have hsent : ((Multibloom.roundDouble carbon.sent.toNat : Nat) : Value) < 1024 ^ (6 + 1) := by
    have hle := roundDouble_le carbon.sent.toNat_lt
    have hlt : Multibloom.roundDouble carbon.sent.toNat < 1024 ^ 7 := hle.trans_lt (by norm_num)
    exact_mod_cast hlt
  have hscale := scale_spec 6 0 (Nat.cast_nonneg _) hsent
  rcases heq : scale (6 + 1) 0 (Multibloom.roundDouble carbon.sent.toNat) with ⟨sent, j⟩
  rw [heq] at hscale
  obtain ⟨h0, hsize, hunit⟩ := hscale
  have hlt : j < sizeSuffix.length := by
    have : sizeSuffix.length = 7 := rfl
    omega
  obtain ⟨suffix, hsuffix⟩ : ∃ suffix, sizeSuffix[j]? = some suffix := ⟨_, List.getElem?_eq_getElem hlt⟩
  have htext : backendText i carbon = some (comma i ++ str [' ', '#'] ++ intText (i + 1) ++ [ch ' '] ++
      tenthText sent ++ str suffix.toList ++ if carbon.connected then [] else str " (dc)".toList) := by
    simp only [backendText, heq, hsuffix, Option.map_some]
  refine ⟨_, htext, ?_⟩
  have hnumber : Piece 1 (intText ((i + 1 : Nat) : Int)) := piece_nat (by omega) (by omega)
  have hdc : Piece 5 (if carbon.connected then [] else str " (dc)".toList) := by
    split
    · exact ⟨by simp, by simp⟩
    · exact ⟨by decide, by decide⟩
  have hhash : Piece 2 (str [' ', '#']) := ⟨by decide, by decide⟩
  have hspace : Piece 1 [ch ' '] := ⟨by decide, by decide⟩
  exact (((((piece_comma i).append hhash).append hnumber).append hspace).append
    (piece_tenth h0 hsize)).append (piece_suffix hsuffix) |>.append hdc

theorem piece_sampler (i : Nat) (sampler : Flow.Sampler) : Piece 22 (samplerText i sampler) := by
  have hport : Piece 5 (intText sampler.port.toNat) := by
    have := sampler.port.toNat_lt
    exact piece_nat (by omega) (by omega)
  have hflow : Piece 11 (intText (i32 sampler.current_flow.toNat)) := by
    refine piece_int (k := 10) (by omega) ?_
    have hlow : -2 ^ 31 ≤ i32 sampler.current_flow.toNat := by
      rw [i32]
      omega
    have hhigh : i32 sampler.current_flow.toNat < 2 ^ 31 := by
      rw [i32]
      omega
    omega
  have hcolon : Piece 2 (str [' ', ':']) := ⟨by decide, by decide⟩
  have hspace : Piece 1 [ch ' '] := ⟨by decide, by decide⟩
  have hunit : Piece 2 (str ['/', 's']) := ⟨by decide, by decide⟩
  exact ((((piece_comma i).append hcolon).append hport).append hspace).append hflow |>.append hunit

/-! ## The buffer -/

/-- The buffer holds the text, as far as `pos`. -/
structure Holds (line : Line) (text : List Byte) : Prop where
  pos : line.pos = text.length
  length : line.buf.length = TITLE_SIZE
  text : ∃ rest, line.buf = text ++ rest

/-- A text that there is room for is written behind the other, with a NUL behind it. -/
theorem Holds.puts {line : Line} {text : List Byte} (h : Holds line text) (new : List Byte)
    (hroom : text.length + new.length < TITLE_SIZE) :
    ∃ line', Title.puts line new = some line' ∧ Holds line' (text ++ new) ∧
      ∃ rest, line'.buf = text ++ new ++ 0 :: rest := by
  obtain ⟨rest, hrest⟩ := h.text
  have htitle : TITLE_SIZE = 2048 := rfl
  have hsize : u64 (TITLE_SIZE - line.pos) = TITLE_SIZE - text.length := by
    rw [h.pos, u64, Int.emod_eq_of_lt (by omega) (by omega)]
    omega
  have hbytes : (if u64 (TITLE_SIZE - line.pos) = 0 then []
      else new.take (u64 (TITLE_SIZE - line.pos) - 1) ++ [0]) = new ++ [0] := by
    rw [hsize, if_neg (by omega), List.take_of_length_le (by omega)]
  have hlen : (new ++ [(0 : Byte)]).length = new.length + 1 := by simp
  have hfit : line.pos + (new ++ [(0 : Byte)]).length ≤ TITLE_SIZE := by
    rw [hlen, h.pos]
    omega
  have hstore : store line.buf line.pos (new ++ [0]) =
      text ++ new ++ 0 :: rest.drop (new ++ [(0 : Byte)]).length := by
    have := store_append [] text rest (new ++ [0])
    simp only [List.nil_append, List.length_nil, Nat.zero_add] at this
    rw [hrest, h.pos, this]
    simp
  refine ⟨⟨store line.buf line.pos (new ++ [0]), line.pos + new.length⟩, ?_, ⟨?_, ?_, ?_⟩, _, hstore⟩
  · simp only [Title.puts, hbytes]
    rw [if_pos hfit]
  · rw [List.length_append, h.pos]
  · show (store line.buf line.pos (new ++ [0])).length = TITLE_SIZE
    rw [store_length (by rw [h.length]; exact hfit), h.length]
  · exact ⟨_, hstore⟩

theorem Holds.puts_all (texts : List (List Byte)) :
    ∀ {line : Line} {text : List Byte}, Holds line text →
      text.length + texts.flatten.length < TITLE_SIZE →
      ∃ line', texts.foldlM Title.puts line = some line' ∧ Holds line' (text ++ texts.flatten) := by
  induction texts with
  | nil =>
    intro line text h _
    exact ⟨line, rfl, by simpa using h⟩
  | cons new texts ih =>
    intro line text h hroom
    rw [List.flatten_cons, List.length_append] at hroom
    obtain ⟨line₁, hone, hholds, -⟩ := h.puts new (by omega)
    obtain ⟨line₂, hrest, hholds₂⟩ := ih hholds (by rw [List.length_append]; omega)
    refine ⟨line₂, ?_, by simpa using hholds₂⟩
    rw [List.foldlM_cons, hone]
    exact hrest

/-- Pieces one after the other. -/
theorem piece_flatten {n : Nat} {texts : List (List Byte)} (h : ∀ text ∈ texts, Piece n text) :
    Piece (texts.length * n) texts.flatten where
  length := by
    rw [List.length_flatten]
    have := List.sum_le_card_nsmul (texts.map List.length) n (by
      intro l hl
      obtain ⟨text, htext, rfl⟩ := List.mem_map.mp hl
      exact (h text htext).length)
    simpa using this
  nul := by
    intro hmem
    obtain ⟨text, htext, hnul⟩ := List.mem_flatten.mp hmem
    exact (h text htext).nul hnul

theorem cstring_eq {buf text rest : List Byte} (hbuf : buf = text ++ 0 :: rest) (h : (0 : Byte) ∉ text) :
    buf.take (strlen buf) = text := by
  have hall : ∀ b ∈ text, decide (b ≠ 0) = true := by
    intro b hb
    have : b ≠ 0 := fun h0 => h (h0 ▸ hb)
    simpa using this
  have hstop : (0 :: rest).takeWhile (fun b : Byte => decide (b ≠ 0)) = [] := by simp
  rw [strlen, hbuf, List.takeWhile_append_of_pos hall, hstop, List.append_nil, List.take_left]

/-- The memory of `argv` after a title that it has room for. -/
theorem Argv.copy_eq {argv : Argv} {title : List Byte} (harea : argv.argv_lth ≤ argv.area.length)
    (htitle : title.length + 1 ≤ argv.argv_lth) :
    argv.copy title = some { argv with area := title ++
      (List.replicate (argv.argv_lth - title.length) 0 ++ argv.area.drop argv.argv_lth) } := by
  rw [Argv.copy, if_pos ⟨harea, htitle.trans harea⟩]
  have hclear : store argv.area 0 (List.replicate argv.argv_lth 0) =
      List.replicate argv.argv_lth 0 ++ argv.area.drop argv.argv_lth := by
    simp [store]
  have hzeros : (List.replicate argv.argv_lth (0 : Byte)).drop (title.length + 1) =
      List.replicate (argv.argv_lth - (title.length + 1)) 0 := by simp
  have hnul : (0 : Byte) :: List.replicate (argv.argv_lth - (title.length + 1)) 0 =
      List.replicate (argv.argv_lth - title.length) 0 := by
    rw [← List.replicate_succ]
    congr 1
    omega
  have hlen : (title ++ [(0 : Byte)]).length = title.length + 1 := by simp
  rw [hclear, store, hlen, Nat.zero_add, List.take_zero, List.nil_append,
    List.drop_append_of_le_length (by simpa using htitle), hzeros, ← hnul]
  simp

/-! ## The whole title -/

/-- The name is cut from the path. -/
theorem getConfigName_sublist (path : List Byte) :
    (getConfigName path).Sublist (baseName path) ∧ (baseName path).Sublist path := by
  constructor
  · rw [getConfigName]
    split
    · rw [← List.reverse_sublist, List.reverse_reverse]
      exact (List.drop_sublist _ _).trans (List.dropWhile_sublist _)
    · exact .refl _
  · rw [baseName, ← List.reverse_sublist, List.reverse_reverse]
    exact List.takeWhile_sublist _

def backendTexts (backends : List Carbon) : List (List Byte) :=
  backends.zipIdx.map fun entry => (backendText entry.2 entry.1).getD []

def samplerTexts (samplers : List Flow.Sampler) : List (List Byte) :=
  samplers.zipIdx.map fun entry => samplerText entry.2 entry.1

def titleText (config_name : List Byte) (backends : List Carbon) (samplers : List Flow.Sampler) :
    List Byte :=
  str ['['] ++ config_name ++ str "] [ ".toList ++ UPARROW ++ (backendTexts backends).flatten ++
    (str " ] [ ".toList ++ DOWNARROW) ++ (samplerTexts samplers).flatten ++ str " ]".toList

theorem zipIdx_lt {α : Type} {xs : List α} {entry : α × Nat} (h : entry ∈ xs.zipIdx) :
    entry.2 < xs.length := by
  obtain ⟨x, i⟩ := entry
  have := List.mem_zipIdx h
  omega

theorem putBackends_eq {backends : List Carbon} (hb : backends.length ≤ 8) (line : Line) :
    putBackends line backends = (backendTexts backends).foldlM puts line := by
  have hloop : ∀ (entries : List (Carbon × Nat)) (line : Line), (∀ entry ∈ entries, entry.2 < 8) →
      entries.foldlM (fun line entry => (backendText entry.2 entry.1).bind (puts line)) line =
        (entries.map fun entry => (backendText entry.2 entry.1).getD []).foldlM puts line := by
    intro entries
    induction entries with
    | nil => intro line _; rfl
    | cons entry entries ih =>
      intro line h
      obtain ⟨text, hsome, -⟩ := piece_backend (h entry List.mem_cons_self) entry.1
      rw [List.foldlM_cons, List.map_cons, List.foldlM_cons, hsome]
      refine Option.bind_congr fun line' _ => ?_
      exact ih line' fun e he => h e (List.mem_cons_of_mem _ he)
  refine hloop _ line fun entry hentry => ?_
  have := zipIdx_lt hentry
  omega

theorem piece_backends {backends : List Carbon} (hb : backends.length ≤ 8) :
    Piece (8 * 18) (backendTexts backends).flatten := by
  refine (piece_flatten (n := 18) ?_).mono ?_
  · intro text htext
    obtain ⟨entry, hentry, rfl⟩ := List.mem_map.mp htext
    have hi := zipIdx_lt hentry
    obtain ⟨text, hsome, hpiece⟩ := piece_backend (by omega : entry.2 < 8) entry.1
    rw [hsome]
    exact hpiece
  · rw [backendTexts, List.length_map, List.length_zipIdx]
    omega

theorem piece_samplers {samplers : List Flow.Sampler} (hs : samplers.length ≤ 8) :
    Piece (8 * 22) (samplerTexts samplers).flatten := by
  refine (piece_flatten (n := 22) ?_).mono ?_
  · intro text htext
    obtain ⟨entry, -, rfl⟩ := List.mem_map.mp htext
    exact piece_sampler entry.2 entry.1
  · rw [samplerTexts, List.length_map, List.length_zipIdx]
    omega

theorem piece_title {config_name : List Byte} {backends : List Carbon} {samplers : List Flow.Sampler}
    (hname : Piece 1698 config_name) (hb : backends.length ≤ 8) (hs : samplers.length ≤ 8) :
    Piece (TITLE_SIZE - 12) (titleText config_name backends samplers) := by
  have hopen : Piece 1 (str ['[']) := ⟨by decide, by decide⟩
  have hclose : Piece 4 (str "] [ ".toList) := ⟨by decide, by decide⟩
  have hup : Piece 3 UPARROW := ⟨by decide, by decide⟩
  have hmiddle : Piece 8 (str " ] [ ".toList ++ DOWNARROW) := ⟨by decide, by decide⟩
  have hend : Piece 2 (str " ]".toList) := ⟨by decide, by decide⟩
  exact ((((((hopen.append hname).append hclose).append hup).append (piece_backends hb)).append
    hmiddle).append (piece_samplers hs)).append hend |>.mono (by decide)

/-- The pieces end up in the buffer one after the other. -/
theorem puts_title {config_name : List Byte} {backends : List Carbon} {samplers : List Flow.Sampler}
    (hname : Piece 1698 config_name) (hb : backends.length ≤ 8) (hs : samplers.length ≤ 8)
    {buf : List Byte} (hbuf : buf.length = TITLE_SIZE) (argv0 : Option Argv) :
    updateProctitle config_name backends samplers buf argv0 =
      setproctitle argv0 (str "brubeck".toList) (titleText config_name backends samplers) := by
  have htitle : TITLE_SIZE = 2048 := rfl
  have hpiece := piece_title hname hb hs
  have hlength := hpiece.length
  simp only [titleText, List.length_append] at hlength
  have hstart : Holds ⟨buf, 0⟩ [] := ⟨rfl, hbuf, buf, rfl⟩
  obtain ⟨line₁, h₁, hholds₁, -⟩ := hstart.puts
    (str ['['] ++ config_name ++ str "] [ ".toList ++ UPARROW)
    (by simp only [List.length_append, List.length_nil]; omega)
  obtain ⟨line₂, h₂, hholds₂⟩ := hholds₁.puts_all (backendTexts backends)
    (by simp only [List.length_append, List.length_nil]; omega)
  obtain ⟨line₃, h₃, hholds₃, -⟩ := hholds₂.puts (str " ] [ ".toList ++ DOWNARROW)
    (by simp only [List.length_append, List.length_nil]; omega)
  obtain ⟨line₄, h₄, hholds₄⟩ := hholds₃.puts_all (samplerTexts samplers)
    (by simp only [List.length_append, List.length_nil]; omega)
  obtain ⟨line₅, h₅, -, rest, hrest⟩ := hholds₄.puts (str " ]".toList)
    (by simp only [List.length_append, List.length_nil]; omega)
  have hsamplers : putSamplers line₃ samplers = some line₄ := by
    rw [putSamplers, ← h₄, samplerTexts, List.foldlM_map]
  rw [← putBackends_eq hb] at h₂
  rw [List.nil_append] at hrest
  have hcstring : line₅.buf.take (strlen line₅.buf) = titleText config_name backends samplers :=
    cstring_eq hrest hpiece.nul
  simp only [updateProctitle, h₁, h₂, h₃, hsamplers, h₅, hcstring, Option.bind_eq_bind,
    Option.bind_some]

/-- The memory of `argv` with a title in it. -/
def Argv.shows (argv : Argv) (title : List Byte) : Argv :=
  { argv with area :=
      title ++ (List.replicate (argv.argv_lth - title.length) 0 ++ argv.area.drop argv.argv_lth) }

theorem updateProctitle_eq {config_name : List Byte} (hname : Piece 1698 config_name)
    {backends : List Carbon} (hb : backends.length ≤ 8) {samplers : List Flow.Sampler}
    (hs : samplers.length ≤ 8) {buf : List Byte} (hbuf : buf.length = TITLE_SIZE) {argv : Argv}
    (hlth : 2 ≤ argv.argv_lth) (harea : argv.argv_lth ≤ argv.area.length) :
    updateProctitle config_name backends samplers buf (some argv) =
      some (some (argv.shows ((str "brubeck -- ".toList ++
        titleText config_name backends samplers).take (argv.argv_lth - 2)))) := by
  have hlength := (piece_title hname hb hs).length
  have htitle : TITLE_SIZE = 2048 := rfl
  have hprog : (str "brubeck".toList).length = 7 := rfl
  have happend : str "brubeck".toList ++ str " -- ".toList = str "brubeck -- ".toList := by decide
  rw [puts_title hname hb hs hbuf, setproctitle, if_neg (by omega), happend]
  generalize str "brubeck -- ".toList ++ titleText config_name backends samplers = text
  dsimp only
  split
  · rw [if_neg (by omega), Argv.copy_eq harea (by rw [List.length_take]; omega)]
    rfl
  · rw [List.take_of_length_le (by omega), Argv.copy_eq harea (by omega)]
    rfl

/-- **The process title.** For every state of up to eight backends and eight samplers, and every
configuration file whose name has up to 1698 bytes, no byte is written outside of the buffer or of the
memory of `argv`, and the unit of every size is in its table. The memory of `argv` then holds the title,
cut to leave two bytes, and NULs up to its end; what is behind it is as it was. -/
theorem proctitle_written {path : List Byte} (hpath : (0 : Byte) ∉ path)
    (hname : (baseName path).length ≤ 1698) {backends : List Carbon} (hb : backends.length ≤ 8)
    {samplers : List Flow.Sampler} (hs : samplers.length ≤ 8) {buf : List Byte}
    (hbuf : buf.length = TITLE_SIZE) {argv : Argv} (hlth : 2 ≤ argv.argv_lth)
    (harea : argv.argv_lth ≤ argv.area.length) :
    ∃ title, title = (str "brubeck -- ".toList ++
        titleText (getConfigName path) backends samplers).take (argv.argv_lth - 2) ∧
      updateProctitle (getConfigName path) backends samplers buf (some argv) =
        some (some { argv with area := title ++
          (List.replicate (argv.argv_lth - title.length) 0 ++ argv.area.drop argv.argv_lth) }) := by
  obtain ⟨hcut, hbase⟩ := getConfigName_sublist path
  have hconfig : Piece 1698 (getConfigName path) :=
    ⟨hcut.length_le.trans hname, fun hmem => hpath (hbase.subset (hcut.subset hmem))⟩
  exact ⟨_, rfl, updateProctitle_eq hconfig hb hs hbuf hlth harea⟩

/-- One backend that is connected and has sent 1536 bytes, and one sampler. -/
def sentBackend : Carbon := { Carbon.new false 10 [] with connected := true, sent := 1536 }

theorem proctitle_written_short :
    titleText (getConfigName (str "/etc/b.json".toList)) [sentBackend] [⟨8126, 3, 250⟩] =
        str "[b] [ ".toList ++ UPARROW ++ str " #1 1.5kb ] [ ".toList ++ DOWNARROW ++
          str " :8126 250/s ]".toList ∧
      ∃ title, title = (str "brubeck -- ".toList ++
          titleText (getConfigName (str "/etc/b.json".toList)) [sentBackend] [⟨8126, 3, 250⟩]).take (16 - 2) ∧
        updateProctitle (getConfigName (str "/etc/b.json".toList)) [sentBackend] [⟨8126, 3, 250⟩]
            (List.replicate 2048 7) (some ⟨List.replicate 20 1, 16⟩) =
          some (some ⟨title ++ (List.replicate (16 - title.length) 0 ++
            (List.replicate 20 (1 : Byte)).drop 16), 16⟩) := by
  refine ⟨by decide +kernel, ?_⟩
  exact @proctitle_written (str "/etc/b.json".toList) (by decide) (by decide) [sentBackend] (by decide)
    [⟨8126, 3, 250⟩] (by decide) (List.replicate 2048 7) List.length_replicate ⟨List.replicate 20 1, 16⟩
    (by decide) (by decide)

end Title
end Brubeck
