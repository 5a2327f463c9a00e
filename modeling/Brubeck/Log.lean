import Brubeck.Lib.Bytes
import Brubeck.Lib.Machine

/-!
# Brubeck.Log

`log.c`: where messages go. The program opens its log once, when it starts, and again at each `SIGHUP`;
any of these may fail. The functions have no lock, and are taken one at a time here.

* `ghLogOpen`, `ghLogReopen`, `ghLogWrite`: the static variables, and what is done to files.
* `stdio`: a file may be written to or closed only while it is open.
* `Mode.Takes`: where a message has to go, given what was done before it.
* `log_runs`: every run tries each reopening of a file, writes each message once, to the file opened last
  or to the place that the start has settled, and leaves no file open but the current one.
-/

namespace Brubeck

open Lib

/-- The static variables of `log.c`. Files are numbered in the order in which `fopen` made them, and
`handles` is the next number. -/
structure Log where
  path : Option (List Byte)
  file : Option Nat
  syslog : Bool
  handles : Nat
  deriving DecidableEq

namespace Log

inductive Dest where
  | stderr
  | syslog
  | file (handle : Nat)
  deriving DecidableEq

/-- `failed` is the message of a failed `fopen`, which goes to `stderr` itself. -/
inductive Effect where
  | openlog
  | closelog
  | fopen (path : List Byte) (handle : Nat)
  | fclose (handle : Nat)
  | failed (path : List Byte)
  | write (dest : Dest) (message : List Byte)
  deriving DecidableEq

def init : Log := ⟨none, none, false, 0⟩

def SYSLOG : List Byte := str "syslog".toList

/-- `gh_log_open`; `ok` says whether `fopen` opens the file. -/
def ghLogOpen (log : Log) (path : Option (List Byte)) (ok : Bool) : Log × List Effect :=
  match path with
  | none => ({ log with syslog := false, file := none }, [])
  | some path =>
    if path = SYSLOG then ({ log with syslog := true }, [.openlog])
    else if ¬ ok then (log, [.failed path])
    else
      ({ path := some path, file := some log.handles, syslog := false, handles := log.handles + 1 },
        .fopen path log.handles ::
          (log.file.toList.map .fclose ++ if log.syslog then [.closelog] else []))

def ghLogReopen (log : Log) (ok : Bool) : Log × List Effect :=
  match log.path with
  | none => (log, [])
  | some path => log.ghLogOpen (some path) ok

/-- `gh_log_write`, with the message as it is formatted. -/
def ghLogWrite (log : Log) (message : List Byte) : List Effect :=
  if log.syslog then [.write .syslog message]
  else
    match log.file with
    | some handle => [.write (.file handle) message]
    | none => [.write .stderr message]

/-- What the program does with its log after it has opened it. -/
inductive Use where
  | reopen (ok : Bool)
  | write (message : List Byte)

def use (log : Log) : Use → Option (Log × List Effect)
  | .reopen ok => some (log.ghLogReopen ok)
  | .write message => some (log, log.ghLogWrite message)

/-- What can be seen of a log: the messages, and the attempts to open a file. -/
inductive Shown where
  | message (text : List Byte)
  | attempt (path : List Byte) (ok : Bool)

def Effect.shown : Effect → Option Shown
  | .write _ message => some (.message message)
  | .fopen path _ => some (.attempt path true)
  | .failed path => some (.attempt path false)
  | _ => none

/-- The file that an effect opens. -/
def Effect.opens : Effect → Option (List Byte × Nat)
  | .fopen path handle => some (path, handle)
  | _ => none

/-- The open files. `none` is a file opened twice, or written to or closed when it is not open. -/
def stdio (opened : List Nat) : Effect → Option (List Nat)
  | .fopen _ handle => if handle ∈ opened then none else some (handle :: opened)
  | .fclose handle => if handle ∈ opened then some (opened.erase handle) else none
  | .write (.file handle) _ => if handle ∈ opened then some opened else none
  | _ => some opened

/-! ## One use -/

/-- What the start settles: the file at a path, or one of the other two places. -/
inductive Mode where
  | stderr
  | syslog
  | file (path : List Byte)

/-- What a use shows. Without a path, there is nothing to reopen. -/
def Mode.shown (mode : Mode) : Use → Option Shown
  | .write message => some (.message message)
  | .reopen ok =>
    match mode with
    | .file path => some (.attempt path ok)
    | _ => none

/-- Where a message goes after `done`: in the last mode, to the file that was opened last. -/
def Mode.Takes (done : List Effect) : Mode → Dest → Prop
  | .stderr, dest => dest = .stderr
  | .syslog, dest => dest = .syslog
  | .file path, dest =>
    ∃ handle, dest = .file handle ∧ (done.filterMap Effect.opens).getLast? = some (path, handle)

/-- The variables in each mode. -/
def Mode.Holds (out : List Effect) (log : Log) : Mode → Prop
  | .stderr => log.path = none ∧ log.file = none ∧ log.syslog = false
  | .syslog => log.path = none ∧ log.file = none ∧ log.syslog = true
  | .file path => path ≠ SYSLOG ∧ log.path = some path ∧ log.syslog = false ∧
      ∃ handle, log.file = some handle ∧ handle < log.handles ∧
        (out.filterMap Effect.opens).getLast? = some (path, handle)

/-- Only an `fopen` changes where messages go. -/
theorem Mode.Holds.append {mode : Mode} {out new : List Effect} {log : Log} (h : mode.Holds out log)
    (hnew : new.filterMap Effect.opens = []) : mode.Holds (out ++ new) log := by
  have hopens : (out ++ new).filterMap Effect.opens = out.filterMap Effect.opens := by
    rw [List.filterMap_append, hnew, List.append_nil]
  cases mode with
  | stderr => exact h
  | syslog => exact h
  | file path =>
    rw [Mode.Holds, hopens]
    exact h

/-- A log that has had these effects. -/
structure Kept (mode : Mode) (log : Log) (out : List Effect) : Prop where
  holds : mode.Holds out log
  opened : out.foldlM stdio [] = some log.file.toList
  dest : ∀ done dest message rest, out = done ++ .write dest message :: rest → mode.Takes done dest

/-- A write among old effects and new ones. -/
theorem split_write {out new done rest : List Effect} {dest : Dest} {message : List Byte}
    (h : out ++ new = done ++ .write dest message :: rest) :
    (∃ rest', out = done ++ .write dest message :: rest') ∨
      ∃ mid rest', new = mid ++ .write dest message :: rest' ∧ done = out ++ mid := by
  rcases List.append_eq_append_iff.mp h with ⟨mid, hdone, hnew⟩ | ⟨mid, hout, hrest⟩
  · exact .inr ⟨mid, rest, hnew, hdone⟩
  · cases mid with
    | nil =>
      rw [List.append_nil] at hout
      exact .inr ⟨[], rest, hrest.symm, by rw [hout, List.append_nil]⟩
    | cons e mid =>
      rw [List.cons_append, List.cons.injEq] at hrest
      exact .inl ⟨mid, by rw [hout, ← hrest.1]⟩

theorem Kept.write {mode : Mode} {log : Log} {out : List Effect} (h : Kept mode log out)
    (message : List Byte) : Kept mode log (out ++ log.ghLogWrite message) ∧
      (log.ghLogWrite message).filterMap Effect.shown = [Shown.message message] := by
  obtain ⟨dest, hwrite, htakes, hstdio⟩ : ∃ dest, log.ghLogWrite message = [.write dest message] ∧
      mode.Takes out dest ∧ stdio log.file.toList (.write dest message) = some log.file.toList := by
    cases mode with
    | stderr =>
      obtain ⟨-, hfile, hsyslog⟩ := h.holds
      exact ⟨.stderr, by simp [ghLogWrite, hfile, hsyslog], rfl, rfl⟩
    | syslog =>
      obtain ⟨-, -, hsyslog⟩ := h.holds
      exact ⟨.syslog, by simp [ghLogWrite, hsyslog], rfl, rfl⟩
    | file path =>
      obtain ⟨-, -, hsyslog, handle, hfile, -, hlast⟩ := h.holds
      exact ⟨.file handle, by simp [ghLogWrite, hfile, hsyslog], ⟨handle, rfl, hlast⟩, by
        simp [stdio, hfile]⟩
  rw [hwrite]
  refine ⟨⟨?_, ?_, ?_⟩, rfl⟩
  · exact h.holds.append rfl
  · rw [List.foldlM_append, h.opened]
    simp [hstdio]
  · intro done dest' message' rest heq
    rcases split_write heq with ⟨rest', hold⟩ | ⟨mid, rest', hnew, rfl⟩
    · exact h.dest done dest' message' rest' hold
    · obtain ⟨rfl, hwrites⟩ : mid = [] ∧ Effect.write dest message = .write dest' message' := by
        cases mid with
        | nil => exact ⟨rfl, (List.cons.inj hnew).1⟩
        | cons e mid => simp at hnew
      cases hwrites
      rwa [List.append_nil]

theorem takes_of_quiet (mode : Mode) {out : List Effect}
    (h : ∀ dest message, Effect.write dest message ∉ out) :
    ∀ done dest message rest, out = done ++ .write dest message :: rest → mode.Takes done dest := by
  rintro done dest message rest rfl
  exact absurd (by simp) (h dest message)

/-- Effects without a message among them. -/
theorem Kept.quiet {mode : Mode} {log log' : Log} {out new : List Effect} (h : Kept mode log out)
    (hholds : mode.Holds (out ++ new) log')
    (hopened : new.foldlM stdio log.file.toList = some log'.file.toList)
    (hnew : ∀ dest message, Effect.write dest message ∉ new) : Kept mode log' (out ++ new) := by
  refine ⟨hholds, ?_, fun done dest message rest heq => ?_⟩
  · rw [List.foldlM_append, h.opened]
    exact hopened
  · rcases split_write heq with ⟨rest', hold⟩ | ⟨mid, rest', rfl, -⟩
    · exact h.dest done dest message rest' hold
    · exact absurd (by simp) (hnew dest message)

/-- A file that can be opened takes the place of the one before it, which is closed; one that cannot
changes nothing. -/
theorem Kept.reopen {mode : Mode} {log : Log} {out : List Effect} (h : Kept mode log out) (ok : Bool) :
    Kept mode (log.ghLogReopen ok).1 (out ++ (log.ghLogReopen ok).2) ∧
      (log.ghLogReopen ok).2.filterMap Effect.shown = (mode.shown (.reopen ok)).toList := by
  have hsame : log.path = none → log.ghLogReopen ok = (log, []) := by
    intro hpath
    rw [ghLogReopen, hpath]
  cases mode with
  | stderr =>
    rw [hsame h.holds.1, List.append_nil]
    exact ⟨h, rfl⟩
  | syslog =>
    rw [hsame h.holds.1, List.append_nil]
    exact ⟨h, rfl⟩
  | file path =>
    obtain ⟨hpath, hlog, hsyslog, handle, hfile, hlt, hlast⟩ := h.holds
    cases ok with
    | false =>
      have hfailed : log.ghLogReopen false = (log, [.failed path]) := by
        simp [ghLogReopen, hlog, ghLogOpen, hpath]
      rw [hfailed]
      exact ⟨h.quiet (h.holds.append rfl) rfl (by simp), rfl⟩
    | true =>
      have hnew : log.ghLogReopen true =
          (⟨some path, some log.handles, false, log.handles + 1⟩,
            [.fopen path log.handles, .fclose handle]) := by
        simp [ghLogReopen, hlog, ghLogOpen, hpath, hfile, hsyslog]
      have hne : log.handles ≠ handle := by omega
      rw [hnew]
      refine ⟨h.quiet ⟨hpath, rfl, rfl, log.handles, rfl, Nat.lt_succ_self _, ?_⟩ ?_ (by simp), rfl⟩
      · have hopens : [Effect.fopen path log.handles, .fclose handle].filterMap Effect.opens =
            [(path, log.handles)] := rfl
        rw [List.filterMap_append, hopens, List.getLast?_concat]
      · rw [hfile]
        simp [stdio, hne]

theorem Kept.run {mode : Mode} (uses : List Use) :
    ∀ {log : Log} {out : List Effect}, Kept mode log out →
      ∃ log' out', Machine.run use log uses = some (log', out') ∧ Kept mode log' (out ++ out') ∧
        out'.filterMap Effect.shown = uses.filterMap mode.shown := by
  induction uses with
  | nil =>
    intro log out h
    exact ⟨log, [], rfl, by rwa [List.append_nil], rfl⟩
  | cons u uses ih =>
    intro log out h
    obtain ⟨log₁, out₁, hone, hkept, hshown⟩ : ∃ log₁ out₁, use log u = some (log₁, out₁) ∧
        Kept mode log₁ (out ++ out₁) ∧ out₁.filterMap Effect.shown = (mode.shown u).toList := by
      cases u with
      | reopen ok => exact ⟨_, _, rfl, (h.reopen ok).1, (h.reopen ok).2⟩
      | write message => exact ⟨_, _, rfl, (h.write message).1, (h.write message).2⟩
    obtain ⟨log₂, out₂, hrun, hkept₂, hrest⟩ := ih hkept
    refine ⟨log₂, out₁ ++ out₂, Machine.run_step hone hrun, by rwa [← List.append_assoc], ?_⟩
    rw [List.filterMap_append, hshown, hrest, List.filterMap_cons]
    cases mode.shown u <;> rfl

/-! ## Every run -/

/-- What `--log` asks for, and whether its file could be opened. -/
def modeOf (path : Option (List Byte)) (ok : Bool) : Mode :=
  match path with
  | none => .stderr
  | some path => if path = SYSLOG then .syslog else if ok then .file path else .stderr

theorem kept_open (path : Option (List Byte)) (ok : Bool) :
    Kept (modeOf path ok) (init.ghLogOpen path ok).1 (init.ghLogOpen path ok).2 := by
  cases path with
  | none => exact ⟨⟨rfl, rfl, rfl⟩, rfl, takes_of_quiet _ (by simp [ghLogOpen])⟩
  | some path =>
    by_cases hpath : path = SYSLOG
    · simp only [modeOf, ghLogOpen, if_pos hpath]
      exact ⟨⟨rfl, rfl, rfl⟩, rfl, takes_of_quiet _ (by simp)⟩
    · cases ok with
      | false =>
        simp only [modeOf, ghLogOpen, if_neg hpath]
        exact ⟨⟨rfl, rfl, rfl⟩, rfl, takes_of_quiet _ (by simp)⟩
      | true =>
        simp only [modeOf, ghLogOpen, if_neg hpath]
        exact ⟨⟨hpath, rfl, rfl, 0, rfl, by simp [init], rfl⟩, rfl, takes_of_quiet _ (by simp [init])⟩

/-- **The log.** Whatever path the program was started with, whether or not it could be opened, and
whichever of the later `SIGHUP`s found it openable: each message is written once, and each reopening of a
file is tried, in order. All messages go to `stderr` when no path was given or the first open failed, all
to syslog when that was asked for, and else each to the file that was opened last at the path, so a failed
reopen keeps the file that is open. No file is written to or closed when it is not open, and no file is
open in the end but the current one. -/
theorem log_runs (path : Option (List Byte)) (ok : Bool) (uses : List Use) :
    ∃ log out, Machine.run use (init.ghLogOpen path ok).1 uses = some (log, out) ∧
      out.filterMap Effect.shown = uses.filterMap (modeOf path ok).shown ∧
      ((init.ghLogOpen path ok).2 ++ out).foldlM stdio [] = some log.file.toList ∧
      ∀ done dest message rest,
        (init.ghLogOpen path ok).2 ++ out = done ++ .write dest message :: rest →
        (modeOf path ok).Takes done dest := by
  obtain ⟨log, out, hrun, hkept, hshown⟩ := (kept_open path ok).run uses
  exact ⟨log, out, hrun, hshown, hkept.opened, hkept.dest⟩

end Log
end Brubeck
