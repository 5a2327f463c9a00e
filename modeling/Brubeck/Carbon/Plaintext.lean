import Mathlib.Data.List.DropRight
import Brubeck.Carbon.Relay
import Brubeck.Lib.Lines
import Brubeck.Limits
import Brubeck.Names

/-!
# Brubeck.Carbon.Plaintext

What a relay reads from a plaintext backend: lines of a name, a value and a time, with one space
between them.

* `readRelay`: the relay. It takes the lines that have come whole.
* `plaintext`: the encoder. Every sample is a unit of its own, and nothing is held back.
* `step_types`: where the type of a key comes from, and so how long the names of the samples are.
* `relay_stream`: what the relay has read after a run.
-/

namespace Brubeck
namespace Carbon

open Lib Statsd

/-- A line as the relay takes it: the name, the text of the value, and the time. -/
structure Record where
  name : Key
  value : List Byte
  time : Nat
  deriving DecidableEq

def readRecord (line : List Byte) : Option Record :=
  match pieces (ch ' ') line with
  | [name, value, time] =>
    if time.all isDigit then some ⟨name, value, natVal (time.map digitOf)⟩ else none
  | _ => none

def readRelay (text : List Byte) : Option (List Record) :=
  (pieces (ch '\n') (text.rdropWhile fun b => b ≠ ch '\n')).mapM readRecord

/-! ## One line -/

theorem digitByte_clean (d : Fin 10) : CleanByte (digitByte d) := by
  have hdigit := isDigit_digitByte d
  refine ⟨?_, ?_, ?_⟩ <;> intro h <;> rw [h] at hdigit <;> exact absurd hdigit (by decide)

theorem digitText_clean (ds : List (Fin 10)) : CleanKey (digitText ds) := by
  intro b hb
  obtain ⟨d, -, rfl⟩ := List.mem_map.mp hb
  exact digitByte_clean d

theorem CleanKey.append {a b : Key} (ha : CleanKey a) (hb : CleanKey b) : CleanKey (a ++ b) := by
  intro x hx
  rcases List.mem_append.mp hx with hx | hx
  · exact ha x hx
  · exact hb x hx

theorem ftoa_clean (x : Nat) : CleanKey (ftoa x) := by
  have hsign : CleanKey (signText (printedSign x)) := by
    intro b hb
    rw [printedSign] at hb
    split at hb
    · rw [signText, List.mem_singleton] at hb
      rw [hb]
      exact ⟨by decide, by decide, by decide⟩
    · cases hb
  have hfrac : ∀ ds, CleanKey (fracText ds) := by
    intro ds b hb
    cases ds with
    | none => cases hb
    | some ds =>
      rcases List.mem_cons.mp hb with rfl | hb
      · exact ⟨by decide, by decide, by decide⟩
      · exact digitText_clean ds b hb
  rw [ftoa_eq]
  refine CleanKey.append hsign ?_
  rw [magnitudeText]
  split
  · exact digitText_clean [0]
  split
  · exact CleanKey.append (digitText_clean _) (hfrac _)
  · exact digitText_clean _

/-- What `plaintext_each` writes for a sample. -/
def lineOf (patterns : Patterns) (e : Entry) : List Byte :=
  plaintextLine e.sample.name (patterns.float e.sample.value) e.now

def recordOf (patterns : Patterns) (e : Entry) : Record :=
  ⟨e.sample.name, ftoa (patterns.float e.sample.value).toNat, e.now.toNat⟩

/-- The line without its newline. -/
def bodyOf (patterns : Patterns) (e : Entry) : List Byte :=
  e.sample.name ++ ch ' ' :: (ftoa (patterns.float e.sample.value).toNat ++
    ch ' ' :: digitText (decimal e.now.toNat))

def Entry.Clean (e : Entry) : Prop := CleanKey e.sample.name

theorem lineOf_eq (patterns : Patterns) {e : Entry} (h : e.Clean) :
    lineOf patterns e = bodyOf patterns e ++ [ch '\n'] := by
  have hnul : (0 : Byte) ∉ e.sample.name := fun h0 => (h 0 h0).nul rfl
  rw [lineOf, plaintextLine, strlen_of_nulFree hnul, List.take_length, itoaText_eq,
    Nat.mod_eq_of_lt e.now.toNat_lt]
  simp [bodyOf]

theorem newline_notMem_bodyOf (patterns : Patterns) {e : Entry} (h : e.Clean) :
    ch '\n' ∉ bodyOf patterns e := by
  simp only [bodyOf, List.mem_append, List.mem_cons, not_or]
  exact ⟨fun hmem => (h _ hmem).newline rfl, by decide, fun hmem => (ftoa_clean _ _ hmem).newline rfl,
    by decide, fun hmem => (digitText_clean _ _ hmem).newline rfl⟩

/-- The newline is the last byte of a line. -/
theorem newline_notMem_torn {patterns : Patterns} {e : Entry} (h : e.Clean) {torn : List Byte}
    (hfront : torn <+: lineOf patterns e) (hproper : torn ≠ lineOf patterns e) : ch '\n' ∉ torn := by
  obtain ⟨rest, heq⟩ := hfront
  rcases List.eq_nil_or_concat' rest with rfl | ⟨front, b, rfl⟩
  · rw [List.append_nil] at heq
    exact absurd heq hproper
  · rw [lineOf_eq patterns h, ← List.append_assoc] at heq
    have hfront : torn ++ front = bodyOf patterns e := List.append_inj_left' heq rfl
    intro hmem
    refine newline_notMem_bodyOf patterns h ?_
    rw [← hfront]
    exact List.mem_append_left front hmem

theorem readRecord_body (patterns : Patterns) {e : Entry} (h : e.Clean) :
    readRecord (bodyOf patterns e) = some (recordOf patterns e) := by
  have hspace : ∀ {key : Key}, CleanKey key → ch ' ' ∉ key := fun h hmem => (h _ hmem).space rfl
  have htime : digitText (decimal e.now.toNat) ≠ [] := by
    intro hnil
    exact decimal_ne_nil e.now.toNat (List.map_eq_nil_iff.mp hnil)
  have hdigits : (digitText (decimal e.now.toNat)).all isDigit = true := by
    rw [List.all_eq_true]
    intro b hb
    obtain ⟨d, -, rfl⟩ := List.mem_map.mp hb
    exact isDigit_digitByte d
  rw [readRecord, bodyOf, pieces_append (hspace h), pieces_append (hspace (ftoa_clean _)),
    pieces_single (hspace (digitText_clean _)) htime]
  simp only [if_pos hdigits, map_digitOf, natVal_decimal]
  rfl

/-! ## Many lines -/

theorem pieces_lines (patterns : Patterns) (log : List Entry) (h : ∀ e ∈ log, e.Clean) :
    (pieces (ch '\n') (log.flatMap (lineOf patterns))).mapM readRecord =
      some (log.map (recordOf patterns)) := by
  induction log with
  | nil => rfl
  | cons e log ih =>
    have he : e.Clean := h e List.mem_cons_self
    have hrest := ih fun e' he' => h e' (List.mem_cons_of_mem _ he')
    rw [List.flatMap_cons, lineOf_eq patterns he, List.append_assoc, List.singleton_append,
      pieces_append (newline_notMem_bodyOf patterns he), List.mapM_cons, readRecord_body patterns he,
      hrest]
    rfl

/-- What comes after the last newline is left out. -/
theorem rdropWhile_torn {text torn : List Byte} (htext : text = [] ∨ ∃ front, text = front ++ [ch '\n'])
    (htorn : ch '\n' ∉ torn) : (text ++ torn).rdropWhile (fun b => b ≠ ch '\n') = text := by
  induction torn using List.reverseRecOn with
  | nil =>
    rw [List.append_nil]
    rcases htext with rfl | ⟨front, rfl⟩
    · rfl
    · exact List.rdropWhile_concat_neg _ _ _ (by simp)
  | append_singleton torn b ih =>
    rw [List.mem_append, not_or, List.mem_singleton] at htorn
    rw [← List.append_assoc, List.rdropWhile_concat_pos _ _ _ (by simpa using Ne.symm htorn.2)]
    exact ih htorn.1

theorem readRelay_lines (patterns : Patterns) {log : List Entry} (h : ∀ e ∈ log, e.Clean)
    {torn : List Byte} (htorn : ch '\n' ∉ torn) :
    readRelay (log.flatMap (lineOf patterns) ++ torn) = some (log.map (recordOf patterns)) := by
  have hends : log.flatMap (lineOf patterns) = [] ∨
      ∃ front, log.flatMap (lineOf patterns) = front ++ [ch '\n'] := by
    rcases List.eq_nil_or_concat' log with rfl | ⟨log, e, rfl⟩
    · exact .inl rfl
    · refine .inr ⟨log.flatMap (lineOf patterns) ++ bodyOf patterns e, ?_⟩
      rw [List.flatMap_append, List.flatMap_singleton, lineOf_eq patterns (h e (by simp)),
        List.append_assoc]
  rw [readRelay, rdropWhile_torn hends htorn, pieces_lines patterns log h]

/-! ## The encoder -/

def CarriesLine (patterns : Patterns) (bytes : List Byte) (entries : List Entry) : Prop :=
  ∃ e : Entry, e.Clean ∧ bytes = lineOf patterns e ∧ entries = [e]

theorem units_lines {patterns : Patterns} (units : List (List Byte × List Entry))
    (h : ∀ u ∈ units, CarriesLine patterns u.1 u.2) :
    units.flatMap Prod.fst = (units.flatMap Prod.snd).flatMap (lineOf patterns) ∧
      ∀ e ∈ units.flatMap Prod.snd, e.Clean := by
  induction units with
  | nil => exact ⟨rfl, fun e he => by cases he⟩
  | cons u units ih =>
    obtain ⟨e, hclean, hbytes, hentries⟩ := h u List.mem_cons_self
    obtain ⟨htext, hall⟩ := ih fun u' hu' => h u' (List.mem_cons_of_mem _ hu')
    rw [List.flatMap_cons, List.flatMap_cons, hbytes, hentries, List.singleton_append]
    refine ⟨by rw [htext, List.flatMap_cons], fun e' he' => ?_⟩
    rcases List.mem_cons.mp he' with rfl | he'
    · exact hclean
    · exact hall e' he'

def plaintextFraming (patterns : Patterns) : Framing Record where
  pickle := false
  Carries := CarriesLine patterns
  Held := fun _ pending => pending = []
  read := readRelay
  value := recordOf patterns
  reads := by
    intro units torn hunits htorn
    obtain ⟨htext, hclean⟩ := units_lines units hunits
    rw [htext]
    refine readRelay_lines patterns hclean ?_
    rcases htorn with rfl | ⟨bytes, entries, ⟨e, he, rfl, -⟩, hfront, hproper⟩
    · exact List.not_mem_nil
    · exact newline_notMem_torn he hfront hproper

theorem Sending.line {patterns : Patterns} {now : UInt32} {log done : List Entry} {carbon : Carbon}
    (env : Nat → Answer) (h : Sending (plaintextFraming patterns) now log done carbon) {s : Sampled}
    (hclean : CleanKey s.name) :
    Sending (plaintextFraming patterns) now log (done ++ [⟨now, s⟩])
      (carbon.sampleCallback patterns env (s.name, s.value)) := by
  obtain ⟨part, pending, hcarried, hfront, hall⟩ := h.part
  obtain rfl : pending = [] := hcarried.held
  rw [List.append_nil] at hfront hall
  have hframe := sampleCallback_frame patterns env carbon (s.name, s.value)
  have hpickle : ¬ carbon.pickle = true := by rw [hcarried.encoder]; exact Bool.false_ne_true
  by_cases hconn : carbon.connected = true
  · obtain rfl := hall hconn
    have hput : Put carbon (lineOf patterns ⟨now, s⟩)
        (carbon.sampleCallback patterns env (s.name, s.value)) := by
      rw [sampleCallback, if_neg hpickle, ← h.time]
      exact plaintextEach_put env hconn s.name (patterns.float s.value)
    refine ⟨hframe.tick_time.trans h.time, ?_⟩
    rcases hcarried.put hconn ⟨⟨now, s⟩, hclean, rfl, rfl⟩ hput hframe.pickle rfl with
      ⟨-, hmore⟩ | ⟨hclosed, hsame⟩
    · rw [List.append_assoc] at hmore
      exact ⟨_, [], hmore, by rw [List.append_nil], fun _ => List.append_nil _⟩
    · refine ⟨part, [], hsame, by rw [List.append_nil]; exact List.prefix_append _ _, fun hopen => ?_⟩
      rw [hclosed] at hopen
      cases hopen
  · have hsame : carbon.sampleCallback patterns env (s.name, s.value) = carbon := by
      rw [sampleCallback, if_neg hpickle, plaintextEach, if_pos hconn]
    rw [hsame]
    refine ⟨h.time, part, [], hcarried, ?_, fun hopen => absurd hopen hconn⟩
    rw [List.append_nil]
    exact hfront.trans (List.prefix_append _ _)

/-- `plaintext_each`, and no `flush`. -/
def plaintext (patterns : Patterns) : Encoder patterns Record where
  toFraming := plaintextFraming patterns
  Sends := fun s => CleanKey s.name
  sample := Sending.line
  flush := by
    intro now log done carbon env h
    obtain ⟨part, pending, hcarried, hfront, hall⟩ := h.part
    obtain rfl : pending = [] := hcarried.held
    rw [List.append_nil] at hfront hall
    have hflush : carbon.flush env = carbon := by
      rw [Carbon.flush, if_neg (by rw [hcarried.encoder]; exact Bool.false_ne_true)]
    rw [hflush]
    exact ⟨part, hcarried, hfront, hall⟩

end Carbon

namespace Server

open Lib Statsd Carbon

/-! ## Keys and types -/

theorem typeOf_of_table {server server' : Server} (hgood : server.Good) (hgrows : Grows server server')
    (htable : server'.table = server.table) {key : Key} {type : MetricType}
    (h : server'.typeOf key = some type) : server.typeOf key = some type := by
  cases hold : server.typeOf key with
  | some old => rw [← h, hgrows.old hold]
  | none =>
    have hid : server.table.lookup key = none := by
      cases hid : server.table.lookup key with
      | none => rfl
      | some id =>
        obtain ⟨metric, hmetric, -⟩ := hgood.table hid
        rw [typeOf, metricOf_eq hid, hmetric] at hold
        cases hold
    rw [typeOf, metricOf_none (by rw [htable]; exact hid)] at h
    cases h

/-- A key has the type it had, or a line of the packet gives it. -/
theorem step_types {patterns : Patterns} {server server' : Server} {e : Event} {out : List Sampled}
    (hgood : server.Good) (hstep : step patterns server e = some (server', out)) {key : Key}
    {type : MetricType} (h : server'.typeOf key = some type) :
    server.typeOf key = some type ∨ ∃ mem buffer stop, e = .packet mem buffer stop ∧
      ∃ r ∈ accepted mem buffer stop, r.key = key ∧ r.type = type := by
  obtain ⟨-, hgrows⟩ := step_good hgood hstep
  cases e with
  | packet mem buffer stop =>
    obtain ⟨hfold, -⟩ := step_packet hstep
    have hrel : server'.typeOf key = some type → server.typeOf key = some type ∨
        ∃ r ∈ accepted mem buffer stop, r.key = key ∧ r.type = type := by
      refine handleAll_rel
        (R := fun a b => b.typeOf key = some type → a.typeOf key = some type ∨
          ∃ r ∈ accepted mem buffer stop, r.key = key ∧ r.type = type)
        (fun _ h => .inl h) (fun hab hbc hc => (hbc hc).elim hab .inr) segments_readable ?_ hgood hfold
      intro o a b ho ha hhandle hb
      cases o with
      | none =>
        obtain ⟨a', heq, -, hview⟩ := ha.handle_error
        rw [hhandle] at heq
        cases heq
        rw [typeOf, hview] at hb
        exact .inl hb
      | some r =>
        obtain ⟨-, hline⟩ := ha.handle_line (segments_readable r ho).key hhandle
        rw [typeOf, line_type hline key] at hb
        by_cases hk : key = r.key
        · rw [if_pos hk, ← hk] at hb
          cases hold : a.typeOf key with
          | none =>
            rw [show (a.metricOf key).map Metric.type = none from hold] at hb
            exact .inr ⟨r, mem_accepted.mpr ho, hk.symm, Option.some.inj hb⟩
          | some old =>
            rw [show (a.metricOf key).map Metric.type = some old from hold] at hb
            exact .inl hb
        · rw [if_neg hk] at hb
          exact .inl hb
    rcases hrel h with h | h
    · exact .inl h
    · exact .inr ⟨mem, buffer, stop, rfl, h⟩
  | expire =>
    cases hstep
    exact .inl (typeOf_of_table hgood hgrows (expireTick_same server).1 h)
  | httpExpire k =>
    cases hstep
    exact .inl (typeOf_of_table hgood hgrows (httpExpire_same server k).1 h)
  | tick t =>
    rw [step, Option.some.injEq] at hstep
    have htable := (tick_same server patterns t).1
    rw [hstep] at htable
    exact .inl (typeOf_of_table hgood hgrows htable h)

/-- Every key leaves room in the line buffer for the longest suffix of its metric's type, the longest
value and the longest time. -/
def Fitting (server : Server) : Prop :=
  ∀ key type, server.typeOf key = some type → key.length + longestSuffix type ≤ 998

/-- The same for the lines of a packet. -/
def Event.Fits : Event → Prop
  | .packet mem buffer stop =>
    ∀ r ∈ accepted mem buffer stop, r.key.length + longestSuffix r.type ≤ 998
  | _ => True

theorem step_fitting {patterns : Patterns} {server server' : Server} {e : Event} {out : List Sampled}
    (hgood : server.Good) (h : server.Fitting) (he : e.Fits)
    (hstep : step patterns server e = some (server', out)) : server'.Fitting := by
  intro key type htype
  rcases step_types hgood hstep htype with hold | ⟨mem, buffer, stop, rfl, r, hr, rfl, rfl⟩
  · exact h key type hold
  · exact he r hr

theorem internalInit_fitting {server : Server} (hgood : server.Good) (h : server.Fitting)
    (hname : server.name.length + longestSuffix .internalStats ≤ 998) (overlay : As → As) :
    (server.internalInit overlay).Fitting := by
  intro key type htype
  rw [internalInit_types hgood] at htype
  split at htype
  · rename_i hk
    cases htype
    rw [hk.1, hashKey_eq (by omega)]
    exact hname
  · exact h key type htype

/-! ## The names of the samples -/

theorem suffix_clean {type : MetricType} {suffix : String} (h : suffix ∈ Metric.suffixes type) :
    CleanKey (str suffix.toList) := by
  have hall : ∀ type, ∀ suffix ∈ Metric.suffixes type, CleanKey (str suffix.toList) := by
    intro type
    cases type <;> decide
  exact hall type suffix h

/-- A clean name, and short enough for the line buffer with any value and time. -/
structure Sendable (s : Sampled) : Prop where
  clean : CleanKey s.name
  room : ∀ value now, (plaintextLine s.name value now).length ≤ PLAINTEXT_BUFFER

theorem sample_sendable {metric : Metric} (hlen : metric.key.length < 2 ^ 16)
    (hclean : CleanKey metric.key) (hfit : metric.key.length + longestSuffix metric.type ≤ 998)
    {stats : InternalStats} {sample_freq : Int} {out : Key × Value}
    (h : out ∈ (metric.sample stats sample_freq).1) (source : Key) :
    Sendable ⟨source, out.1, out.2⟩ := by
  obtain ⟨suffix, hs, hname⟩ := Metric.sample_name hlen h
  have hout : CleanKey out.1 := by
    rw [hname]
    exact CleanKey.append hclean (suffix_clean hs)
  have hsuffix := suffix_length_le hs
  have hlength : out.1.length = metric.key.length + (str suffix.toList).length := by
    rw [hname, List.length_append]
  refine ⟨hout, fun value now => ?_⟩
  have hsize := line_length_le (fun h0 => (hout 0 h0).nul rfl) value now
  rw [PLAINTEXT_BUFFER]
  show (plaintextLine out.1 value now).length ≤ 1024
  omega

/-- What the names of a round rest on. -/
structure Tidy (server : Server) : Prop where
  good : server.Good
  named : server.Named
  fitting : server.Fitting

/-- One turn of the loop. -/
theorem Tidy.turn {patterns : Patterns} {st : Visiting} (h : Tidy st.server) (env : Nat → Answer)
    {key : Key} {id : Nat} (hid : st.server.table.lookup key = some id)
    (hlog : ∀ s ∈ st.log, Sendable s) :
    Tidy (visit patterns env st id).server ∧ ∀ s ∈ (visit patterns env st id).log, Sendable s := by
  obtain ⟨metric, hm, -⟩ := h.good.table hid
  have hheld : st.server.metricOf key = some metric := by rw [metricOf_eq hid, hm]
  obtain ⟨hkey, hclean⟩ := h.named key metric hheld
  have hfit := h.fitting key metric.type (by rw [typeOf, hheld, Option.map_some])
  obtain ⟨hgood, -, hview⟩ := visit_view patterns env h.good hid hheld
  have hmetric : ∀ {k m}, (visit patterns env st id).server.metricOf k = some m →
      ∃ m', st.server.metricOf k = some m' ∧ m.key = m'.key ∧ m.type = m'.type := by
    intro k m hk
    rw [hview] at hk
    split at hk
    · rw [Function.update_apply] at hk
      split at hk
      · cases hk
        rename_i hk
        exact ⟨metric, hk ▸ hheld, metric.sample_key .., metric.sample_type ..⟩
      · exact ⟨m, hk, rfl, rfl⟩
    · exact ⟨m, hk, rfl, rfl⟩
  refine ⟨⟨hgood, ?_, ?_⟩, ?_⟩
  · intro k m hk
    obtain ⟨m', hold, hsame, -⟩ := hmetric hk
    exact ⟨hsame.trans (h.named k m' hold).1, (h.named k m' hold).2⟩
  · intro k type hk
    obtain ⟨m, hm, rfl⟩ := Option.map_eq_some_iff.mp hk
    obtain ⟨m', hold, -, htype⟩ := hmetric hm
    exact h.fitting k m.type (by rw [typeOf, hold, Option.map_some, htype])
  · rcases visit_cases patterns env hm with ⟨-, hv⟩ | ⟨-, out, metric', stats, hsample, hv⟩
    · rw [hv]
      exact hlog
    · rw [hv]
      intro s hs
      rcases List.mem_append.mp hs with hs | hs
      · exact hlog s hs
      · obtain ⟨o, ho, rfl⟩ := List.mem_map.mp hs
        have hmem : o ∈ (metric.sample st.server.internal_stats st.carbon.sample_freq).1 := by
          rw [hsample]
          exact ho
        refine sample_sendable ?_ (by rw [hkey]; exact hclean) (by rw [hkey]; exact hfit) hmem metric.name
        rw [hkey]
        omega

theorem Tidy.turns {patterns : Patterns} (env : Nat → Answer) (queue : List Nat) :
    ∀ {st : Visiting}, Tidy st.server → (∀ s ∈ st.log, Sendable s) →
      (∀ id ∈ queue, ∃ key, st.server.table.lookup key = some id) →
      ∀ s ∈ (visits patterns env st queue).log, Sendable s := by
  induction queue with
  | nil => intro st _ hlog _; exact hlog
  | cons id queue ih =>
    intro st h hlog hqueue
    obtain ⟨key, hid⟩ := hqueue id List.mem_cons_self
    obtain ⟨htidy, hlog'⟩ := h.turn env hid hlog
    refine ih htidy hlog' fun j hj => ?_
    rw [(visit_frame patterns env st id).2.1]
    exact hqueue j (List.mem_cons_of_mem _ hj)

theorem Tidy.tick {patterns : Patterns} {server : Server} (h : Tidy server) (t : Tick) :
    ∀ s ∈ (server.tick patterns t).2, Sendable s := by
  rcases tick_cases patterns server t with heq | ⟨carbon, hc, heq⟩
  · rw [heq]
    intro s hs
    cases hs
  · rw [heq]
    exact Tidy.turns t.env carbon.queue h (fun s hs => by cases hs) fun id hid =>
      h.good.queued (List.mem_of_getElem? hc) hid

/-! ## Whole runs -/

/-- All that has been reported so far can be sent. -/
structure Reporting (server : Server) (rs : List Report) : Prop where
  tidy : Tidy server
  placed : server.Placed
  sendable : ∀ r ∈ rs, ∀ s ∈ r.samples, Sendable s

theorem Reporting.run {patterns : Patterns} {b : Nat} {server server' : Server} {rs : List Report}
    {es : List Event} {out : List Sampled} (h : Reporting server rs) (hes : ∀ e ∈ es, e.Fits)
    (hrun : Machine.run (step patterns) server es = some (server', out)) :
    Reporting server' (rs ++ Machine.trace (step patterns) (reports patterns b) server es) := by
  refine Machine.trace_history Reporting (fun {s e s' log out} he h hstep => ?_) h hrun
  obtain ⟨⟨hgood, hnamed, hfitting⟩, hplaced, hsendable⟩ := h
  refine ⟨⟨(step_good hgood hstep).1, step_named hgood hplaced hnamed hstep,
    step_fitting hgood hfitting (hes e he) hstep⟩, step_placed hgood hplaced hstep, fun r hr => ?_⟩
  rcases List.mem_append.mp hr with hr | hr
  · exact hsendable r hr
  · cases e with
    | tick t =>
      rw [reports] at hr
      split at hr
      · rw [List.mem_singleton.mp hr]
        exact Tidy.tick ⟨hgood, hnamed, hfitting⟩ t
      · cases hr
    | packet mem buffer stop => cases hr
    | expire => cases hr
    | httpExpire key => cases hr

theorem boot_reporting (config : Config) : Reporting (boot config) [] := by
  refine ⟨⟨boot_good config, fun key metric hm => ?_, fun key type ht => ?_⟩, boot_placed config,
    fun r hr => ?_⟩
  · cases hm
  · cases ht
  · cases hr

theorem Reporting.internalInit {server : Server} {rs : List Report} (h : Reporting server rs)
    (hname : server.name.length + longestSuffix .internalStats ≤ 998) (hclean : CleanKey server.name)
    (overlay : As → As) : Reporting (server.internalInit overlay) rs := by
  obtain ⟨⟨hgood, hnamed, hfitting⟩, hplaced, hsendable⟩ := h
  exact ⟨⟨(internalInit_view hgood overlay).1, internalInit_named hgood hnamed (by omega) hclean overlay,
    internalInit_fitting hgood hfitting hname overlay⟩, internalInit_placed hgood hplaced overlay,
    hsendable⟩

theorem plaintext_start (patterns : Patterns) (frequency : Int) :
    Carried (plaintext patterns).toFraming (Carbon.new false frequency []) [] [] :=
  ⟨rfl, rfl, fun _ => rfl, [], rfl, rfl, fun hc => by cases hc⟩

/-- **The plaintext relay.** Take a run in which the key of every line is short enough for the line
buffer with the longest suffix of the line's type, of a server whose own name is one that a line could
have, and short enough in the same way. After it, whatever the kernel has answered to each connection and
each write, a relay that has read all connections of a plaintext backend has got, in order, a part of what
each round of the backend reported: the first samples of the round, and all of them if the connection was
open when the round ended. Each came with its name, the text of its value and the second of its round, and
nothing came twice. No line that a round composes leaves the buffer. -/
theorem relay_stream {patterns : Patterns} {config : Config} {b : Nat} {frequency : Int}
    (hb : config.backends[b]? = some (Carbon.new false frequency []))
    (hname : config.name.length + longestSuffix .internalStats ≤ 998) (hclean : CleanKey config.name)
    {overlay : As → As} {before server : Server} {early late : List Event} {out out' : List Sampled}
    (hearly : Machine.run (step patterns) (boot config) early = some (before, out))
    (hlate : Machine.run (step patterns) (before.internalInit overlay) late = some (server, out'))
    (hfits : ∀ e ∈ early ++ late, e.Fits) :
    ∃ parts carbon, List.Forall₂ Report.Gives (reported patterns b config overlay before early late) parts ∧
      server.backends[b]? = some carbon ∧
      (carbon.conns.reverse.mapM readRelay).map List.flatten =
        some (parts.flatten.map (recordOf patterns)) ∧
      ∀ r ∈ reported patterns b config overlay before early late, ∀ s ∈ r.samples,
        (lineOf patterns ⟨r.now, s⟩).length ≤ PLAINTEXT_BUFFER := by
  have hbefore := (boot_reporting config).run (b := b)
    (fun e he => hfits e (List.mem_append_left late he)) hearly
  have hown : before.name = config.name := (run_good (boot_good config) hearly).2.name
  have hinit := hbefore.internalInit (by rw [hown]; exact hname) (by rw [hown]; exact hclean) overlay
  have hlast := hinit.run (b := b) (fun e he => hfits e (List.mem_append_right early he)) hlate
  obtain ⟨parts, carbon, hgives, hc, hread⟩ :=
    (plaintext patterns).streams hb (plaintext_start patterns frequency) hearly hlate
      fun r hr s hs => (hlast.sendable r hr s hs).clean
  exact ⟨parts, carbon, hgives, hc, hread, fun r hr s hs => (hlast.sendable r hr s hs).room _ r.now⟩

/-- A line, a round in which the second write fails, and a round on a new connection. -/
def tornRun : List Event :=
  [.packet (str "a:1|c".toList ++ [0]) 0 5,
    .tick ⟨0, true, 7, fun i => ⟨0, if i = 0 then some 100 else none⟩⟩,
    .tick ⟨0, true, 8, fun _ => ⟨0, some 100⟩⟩]

theorem relay_stream_torn :
    ∃ server out parts carbon,
      Machine.run (step ⟨fun _ => 0, fun _ => 0⟩) started tornRun = some (server, out) ∧
      (reported ⟨fun _ => 0, fun _ => 0⟩ 0 defaultConfig id (boot defaultConfig) [] tornRun).map
        Report.opened = [false, true] ∧
      List.Forall₂ Report.Gives
        (reported ⟨fun _ => 0, fun _ => 0⟩ 0 defaultConfig id (boot defaultConfig) [] tornRun) parts ∧
      server.backends[0]? = some carbon ∧
      (carbon.conns.reverse.mapM readRelay).map List.flatten =
        some (parts.flatten.map (recordOf ⟨fun _ => 0, fun _ => 0⟩)) := by
  have hshort : ∀ e ∈ [] ++ tornRun, e.Fits := by
    intro e he
    simp only [tornRun, List.nil_append, List.mem_cons, List.not_mem_nil, or_false] at he
    rcases he with rfl | rfl | rfl
    · have hline : ∀ r ∈ accepted (str "a:1|c".toList ++ [0]) 0 5,
          r.key.length + longestSuffix r.type ≤ 998 := by decide +kernel
      exact hline
    · trivial
    · trivial
  obtain ⟨⟨server, out⟩, hrun⟩ := Option.isSome_iff_exists.mp
    (show (Machine.run (step ⟨fun _ => 0, fun _ => 0⟩) started tornRun).isSome by decide +kernel)
  have hearly : Machine.run (step ⟨fun _ => 0, fun _ => 0⟩) (boot defaultConfig) [] =
      some (boot defaultConfig, []) := rfl
  have hb : defaultConfig.backends[0]? = some (Carbon.new false 10 []) := rfl
  obtain ⟨parts, carbon, hgives, hc, hread, -⟩ :=
    relay_stream hb (by decide) (by decide) hearly hrun hshort
  exact ⟨server, out, parts, carbon, hrun, by decide +kernel, hgives, hc, hread⟩

end Server
end Brubeck
