import Brubeck.Order
import Brubeck.Statsd.Traffic
import Mathlib.Algebra.Order.Group.Multiset

/-!
# Brubeck.Statsd.Pool

Lines split among workers. A worker counts a line, finds its metric and records the line in it; each
of the three is atomic, and the workers take turns in any order.

* `Pool.step`: the next step of one worker. A worker alone handles its lines as `Server.handle` does
  (`run_alone`).
* `settled`: what a metric is after some lines have been found and some recorded. Which line made the
  metric is not seen, and neither is who recorded what.
* `step_inv`: every unfinished worker can go on, and every key stays settled.
* `order_independent`: the workers' shares and their turns make no difference.
-/

namespace Brubeck

open Lib

namespace Server

/-- A key that is in the table stays under its metric. -/
theorem metricFind_lookup {server : Server} {k : Key} {id : Nat} (h : server.table.lookup k = some id)
    (key : Key) (type : MetricType) :
    (server.metricFind key type).2.table.lookup k = some id := by
  cases hfind : server.hashtableFind key with
  | some other => simp only [metricFind, hfind]; exact h
  | none =>
    by_cases hcap : server.at_capacity = true
    · simp only [metricFind, hfind, hcap, if_true]; exact h
    · have hne : k ≠ hashKey key := by
        rintro rfl
        rw [show server.table.lookup (hashKey key) = none from hfind] at h
        cases h
      simp only [metricFind, hfind, hcap, Bool.false_eq_true, if_false, metricNew_new hfind]
      rw [added_lookup, if_neg hne]
      exact h

end Server

namespace Statsd

/-- Some line that fits in a packet says `r`. -/
def Accepted (r : Reading) : Prop :=
  ∃ line : List Byte, line.length < MAX_PACKET_SIZE ∧ meaning line = some r

theorem Accepted.spec {r : Reading} (h : Accepted r) :
    r.key.length < 2 ^ 16 ∧ r.type ≠ .internalStats ∧ 0 ≤ r.sample_freq := by
  obtain ⟨line, hlen, hline⟩ := h
  rw [meaning] at hline
  cases hscan : scanKey (line ++ [0]) with
  | none => rw [hscan] at hline; cases hline
  | some n =>
    have hn : n < line.length := scanKey_lt hscan
    simp only [hscan] at hline
    split at hline
    · cases hline
    · split at hline
      · cases hline
      · rename_i hrc
        have hzero : (parseBody .blank (line.drop (n + 1) ++ [0])).1 = 0 :=
          (parseBody_rc _ _).resolve_right fun h => hrc (by rw [h]; decide)
        obtain ⟨value, letter, rate, newline, rest, hrange, hbody, hrest⟩ := parseBody_sound hzero
        rw [hbody, parseBody_text _ value letter hrange newline hrest] at hline
        cases hline
        refine ⟨?_, ?_, ?_⟩
        · show (line.take n).length < 2 ^ 16
          have hshort : (line.take n).length ≤ n := List.length_take_le n line
          simp only [MAX_PACKET_SIZE] at hlen
          omega
        · show letter.type ≠ .internalStats
          cases letter <;> decide
        · cases rate with
          | none => exact zero_le_one
          | some rate => exact one_div_nonneg.mpr (hrange rate rfl).1.le

/-! ## Workers -/

inductive Stage where
  | idle
  | counted (r : Reading)
  | found (r : Reading) (id : Nat)

/-- Where a worker is with its line, and the lines after that. -/
structure Worker where
  stage : Stage
  rest : List Reading

structure Pool where
  server : Server
  workers : List Worker

/-- What a step has done with a line. -/
inductive Mark where
  | found (r : Reading)
  | recorded (r : Reading)

/-- The next step of a worker; `none` when it has nothing left, or calls a missing function. -/
def Pool.step (pool : Pool) (i : Nat) : Option (Pool × List Mark) :=
  match pool.workers[i]? with
  | some ⟨.idle, r :: rest⟩ =>
    some (⟨pool.server.countLine (some r), pool.workers.set i ⟨.counted r, rest⟩⟩, [])
  | some ⟨.counted r, rest⟩ =>
    match pool.server.metricFind r.key r.type with
    | (none, server) => some (⟨server, pool.workers.set i ⟨.idle, rest⟩⟩, [])
    | (some id, server) => some (⟨server, pool.workers.set i ⟨.found r id, rest⟩⟩, [.found r])
  | some ⟨.found r id, rest⟩ =>
    (pool.server.metricRecord id r.value r.sample_freq r.modifiers).map fun server =>
      (⟨server, pool.workers.set i ⟨.idle, rest⟩⟩, [.recorded r])
  | _ => none

/-- The workers before they start. -/
def Pool.start (server : Server) (shares : List (List Reading)) : Pool :=
  ⟨server, shares.map fun rest => ⟨.idle, rest⟩⟩

def Pool.Done (pool : Pool) : Prop := ∀ worker ∈ pool.workers, worker = ⟨.idle, []⟩

/-- A worker alone handles its lines in order. -/
theorem run_alone (lines : List Reading) (server : Server) :
    ∃ turns, (Machine.run Pool.step (Pool.start server [lines]) turns).map Prod.fst =
      ((lines.map some).foldlM Server.handle server).map fun server => Pool.start server [[]] := by
  induction lines generalizing server with
  | nil => exact ⟨[], rfl⟩
  | cons r lines ih =>
    rw [List.map_cons, List.foldlM_cons, Server.handle_some, Server.recordReading]
    cases hfind : (server.countLine (some r)).metricFind r.key r.type with
    | mk found server₁ =>
      cases found with
      | none =>
        obtain ⟨turns, hturns⟩ := ih server₁
        refine ⟨0 :: 0 :: turns, ?_⟩
        simp only [Pool.start, List.map_cons, List.map_nil, Machine.run, Pool.step,
          List.getElem?_cons_zero, List.set_cons_zero, hfind, Option.map_map, List.nil_append] at hturns ⊢
        exact hturns
      | some id =>
        cases hrecord : server₁.metricRecord id r.value r.sample_freq r.modifiers with
        | none =>
          refine ⟨[0, 0, 0], ?_⟩
          simp only [Pool.start, List.map_cons, List.map_nil, Machine.run, Pool.step,
            List.getElem?_cons_zero, List.set_cons_zero, hfind, hrecord, Option.map_none]
          rfl
        | some server₂ =>
          obtain ⟨turns, hturns⟩ := ih server₂
          refine ⟨0 :: 0 :: 0 :: turns, ?_⟩
          simp only [Pool.start, List.map_cons, List.map_nil, Machine.run, Pool.step,
            List.getElem?_cons_zero, List.set_cons_zero, hfind, hrecord, Option.map_some,
            Option.map_map] at hturns ⊢
          exact hturns

/-! ## What becomes of a metric -/

/-- A metric after some of its lines have been found and some have been recorded. -/
def settled (before : Option Metric) (founds records : List Reading) : Option Metric :=
  match founds with
  | [] => before
  | r :: _ =>
    let metric := before.getD (Server.newMetric r.key r.type)
    some { metric with expire := EXPIRE_ACTIVE, as := applies records metric.as }

theorem settled_find {store : Store} {before : Option Metric} {founds records : List Reading}
    {r : Reading} (h : store r.key = settled before founds records)
    (hnone : founds = [] → records = []) :
    settled before (founds ++ [r]) records = some (store.find r) := by
  cases founds with
  | nil =>
    rw [hnone rfl, Store.find, h]
    cases before <;> rfl
  | cons first founds =>
    rw [Store.find, h]
    rfl

theorem settled_record {before : Option Metric} {founds records : List Reading} {metric : Metric}
    (hne : founds ≠ []) (h : settled before founds records = some metric) (r : Reading) :
    settled before founds (records ++ [r]) = some { metric with as := r.apply metric.as } := by
  cases founds with
  | nil => exact absurd rfl hne
  | cons first founds =>
    cases h
    simp only [settled, applies, List.foldl_append, List.foldl_cons, List.foldl_nil]

/-! ## What every turn keeps -/

def Mark.foundOf : Mark → Option Reading
  | .found r => some r
  | .recorded _ => none

def Mark.recordedOf : Mark → Option Reading
  | .found _ => none
  | .recorded r => some r

def founds (log : List Mark) : List Reading := log.filterMap Mark.foundOf

def records (log : List Mark) : List Reading := log.filterMap Mark.recordedOf

def Worker.todo (worker : Worker) : Multiset Reading :=
  match worker.stage with
  | .idle => worker.rest
  | .counted r => r ::ₘ worker.rest
  | .found _ _ => worker.rest

def Worker.unrecorded (worker : Worker) : Multiset Reading :=
  match worker.stage with
  | .idle => worker.rest
  | .counted r => r ::ₘ worker.rest
  | .found r _ => r ::ₘ worker.rest

/-- How many turns a worker needs. -/
def Worker.turns (worker : Worker) : Nat :=
  3 * worker.rest.length +
    match worker.stage with
    | .idle => 0
    | .counted _ => 2
    | .found _ _ => 1

/-- Lines that give each key one type, and the type it has. -/
structure Uniform (before : Server) (lines : Multiset Reading) : Prop where
  readable : ∀ r ∈ lines, Server.Readable r
  single : ∀ r ∈ lines, ∀ r' ∈ lines, r.key = r'.key → r.type = r'.type
  old : ∀ r ∈ lines, ∀ metric, before.metricOf r.key = some metric → metric.type = r.type

def ofKey (key : Key) (lines : List Reading) : List Reading := lines.filter (·.key = key)

theorem ofKey_append (key : Key) (lines : List Reading) (r : Reading) :
    ofKey key (lines ++ [r]) = if key = r.key then ofKey key lines ++ [r] else ofKey key lines := by
  rw [ofKey, List.filter_append]
  by_cases h : key = r.key
  · rw [if_pos h, List.filter_cons_of_pos (by simp [h])]
    rfl
  · rw [if_neg h, List.filter_cons_of_neg (by simp [Ne.symm h])]
    exact List.append_nil _

/-- After the steps of `log` from `before`, with `lines` for all workers together. -/
structure Pool.Inv (before : Server) (lines : Multiset Reading) (pool : Pool) (log : List Mark) :
    Prop where
  good : pool.server.Good
  view : ∀ key, pool.server.metricOf key =
    settled (before.metricOf key) (ofKey key (founds log)) (ofKey key (records log))
  linked : ∀ {worker r id}, worker ∈ pool.workers → worker.stage = .found r id →
    pool.server.table.lookup r.key = some id ∧ r ∈ founds log
  recorded : records log ⊆ founds log
  todo : (founds log : Multiset Reading) + (pool.workers.map Worker.todo).sum = lines
  unrecorded : (records log : Multiset Reading) + (pool.workers.map Worker.unrecorded).sum = lines

theorem sum_set_same (f : Worker → Multiset Reading) {workers : List Worker} {i : Nat} {old : Worker}
    (h : workers[i]? = some old) (new : Worker) (hf : f new = f old) :
    ((workers.set i new).map f).sum = (workers.map f).sum := by
  have hset := Machine.sum_set f h new
  rw [hf] at hset
  exact add_right_cancel hset

theorem sum_set_cons (f : Worker → Multiset Reading) {workers : List Worker} {i : Nat} {old : Worker}
    (h : workers[i]? = some old) (new : Worker) {r : Reading} (hf : f old = r ::ₘ f new) :
    (workers.map f).sum = r ::ₘ ((workers.set i new).map f).sum := by
  have hset := Machine.sum_set f h new
  rw [hf, Multiset.add_cons, ← Multiset.cons_add] at hset
  exact (add_right_cancel hset).symm

section

variable {before : Server} {lines : Multiset Reading} {pool : Pool} {log : List Mark}

theorem Pool.Inv.count (h : pool.Inv before lines log) {i : Nat} {r : Reading} {rest : List Reading}
    (hw : pool.workers[i]? = some ⟨.idle, r :: rest⟩) :
    Pool.Inv before lines
      ⟨pool.server.countLine (some r), pool.workers.set i ⟨.counted r, rest⟩⟩ log where
  good := h.good.modifyLive fun live => { live with metrics := live.metrics + 1 }
  view := h.view
  linked := by
    intro worker r' id hworker hstage
    rcases List.mem_or_eq_of_mem_set hworker with hold | rfl
    · exact h.linked hold hstage
    · cases hstage
  recorded := h.recorded
  todo := by
    rw [sum_set_same Worker.todo hw ⟨.counted r, rest⟩ rfl]
    exact h.todo
  unrecorded := by
    rw [sum_set_same Worker.unrecorded hw ⟨.counted r, rest⟩ rfl]
    exact h.unrecorded

theorem Pool.Inv.find (h : pool.Inv before lines log) (hu : Uniform before lines) {i : Nat}
    {r : Reading} {rest : List Reading} (hw : pool.workers[i]? = some ⟨.counted r, rest⟩) :
    ∃ id server, pool.server.metricFind r.key r.type = (some id, server) ∧
      Pool.Inv before lines ⟨server, pool.workers.set i ⟨.found r id, rest⟩⟩ (log ++ [.found r]) := by
  have hr : r ∈ lines := by
    rw [← h.todo, Multiset.mem_add]
    rw [sum_set_cons Worker.todo hw ⟨.idle, rest⟩ rfl]
    exact .inr (Multiset.mem_cons_self r _)
  obtain ⟨id, server, hfind, hgood, hid, hview⟩ := h.good.metricFind (hu.readable r hr).key
  have hfounds : founds (log ++ [.found r]) = founds log ++ [r] := List.filterMap_append
  have hrecords : records (log ++ [.found r]) = records log := by
    rw [records, List.filterMap_append]
    exact List.append_nil _
  refine ⟨id, server, hfind, hgood, ?_, ?_, ?_, ?_, ?_⟩
  · intro key
    rw [hview, hfounds, hrecords, ofKey_append, Function.update_apply]
    by_cases hkey : key = r.key
    · subst hkey
      rw [if_pos rfl, if_pos rfl]
      refine (settled_find (h.view r.key) fun hnone => ?_).symm
      -- no line of the key is found, so none is recorded
      rw [ofKey, List.filter_eq_nil_iff] at hnone ⊢
      exact fun r' hr' => hnone r' (h.recorded hr')
    · rw [if_neg hkey, if_neg hkey]
      exact h.view key
  · intro worker r' id' hworker hstage
    rw [hfounds]
    rcases List.mem_or_eq_of_mem_set hworker with hold | rfl
    · obtain ⟨hlook, hmem⟩ := h.linked hold hstage
      have hkeep := Server.metricFind_lookup hlook r.key r.type
      rw [hfind] at hkeep
      exact ⟨hkeep, List.mem_append_left _ hmem⟩
    · cases hstage
      exact ⟨hid, List.mem_append_right _ (List.mem_singleton_self r)⟩
  · rw [hfounds, hrecords]
    exact fun r' hr' => List.mem_append_left _ (h.recorded hr')
  · rw [← h.todo, sum_set_cons Worker.todo hw ⟨.found r id, rest⟩ rfl, hfounds, ← Multiset.coe_add, add_assoc, Multiset.coe_singleton,
      Multiset.singleton_add]
  · rw [hrecords, sum_set_same Worker.unrecorded hw ⟨.found r id, rest⟩ rfl]
    exact h.unrecorded

theorem Pool.Inv.mem_lines (h : pool.Inv before lines log) {r : Reading} (hr : r ∈ founds log) :
    r ∈ lines := by
  rw [← h.todo, Multiset.mem_add]
  exact .inl hr

/-- The metric of a line has the type of the line: it had the type before, or has it from the line
that made it. -/
theorem Pool.Inv.found_type (h : pool.Inv before lines log) (hu : Uniform before lines) {r : Reading}
    (hr : r ∈ founds log) : ∃ metric, pool.server.metricOf r.key = some metric ∧
      metric.type = r.type := by
  have hview := h.view r.key
  have hkey : r ∈ ofKey r.key (founds log) := List.mem_filter.mpr ⟨hr, decide_eq_true rfl⟩
  cases hfounds : ofKey r.key (founds log) with
  | nil => exact absurd hfounds (List.ne_nil_of_mem hkey)
  | cons first others =>
    rw [hfounds] at hview
    refine ⟨_, hview, ?_⟩
    have hfirst : first ∈ ofKey r.key (founds log) := by rw [hfounds]; exact List.mem_cons_self
    obtain ⟨hfirst, hsame⟩ := List.mem_filter.mp hfirst
    cases hbefore : before.metricOf r.key with
    | none =>
      exact hu.single first (h.mem_lines hfirst) r (h.mem_lines hr) (of_decide_eq_true hsame)
    | some metric => exact hu.old r (h.mem_lines hr) metric hbefore

theorem Pool.Inv.record (h : pool.Inv before lines log) (hu : Uniform before lines) {i : Nat}
    {r : Reading} {id : Nat} {rest : List Reading}
    (hw : pool.workers[i]? = some ⟨.found r id, rest⟩) :
    ∃ server, pool.server.metricRecord id r.value r.sample_freq r.modifiers = some server ∧
      Pool.Inv before lines ⟨server, pool.workers.set i ⟨.idle, rest⟩⟩ (log ++ [.recorded r]) := by
  obtain ⟨hid, hfound⟩ := h.linked (List.mem_of_getElem? hw) rfl
  obtain ⟨metric, hmetric, htype⟩ := h.found_type hu hfound
  have hrline := h.mem_lines hfound
  have hne : ofKey r.key (founds log) ≠ [] :=
    List.ne_nil_of_mem (List.mem_filter.mpr ⟨hfound, decide_eq_true rfl⟩)
  have hrecord := h.good.metricRecord hid hmetric r.value r.sample_freq r.modifiers
  rw [record_apply htype (hu.readable r hrline).type] at hrecord
  obtain ⟨server, hserver, hgood, hview⟩ := hrecord
  have htable : server.table = pool.server.table := by
    obtain ⟨metric, rfl⟩ := Server.metricRecord_some hserver
    rfl
  have hfounds : founds (log ++ [.recorded r]) = founds log := by
    rw [founds, List.filterMap_append]
    exact List.append_nil _
  have hrecords : records (log ++ [.recorded r]) = records log ++ [r] := List.filterMap_append
  refine ⟨server, hserver, hgood, ?_, ?_, ?_, ?_, ?_⟩
  · intro key
    rw [hview, hfounds, hrecords, ofKey_append, Function.update_apply]
    by_cases hk : key = r.key
    · subst hk
      rw [if_pos rfl, if_pos rfl]
      exact (settled_record hne ((h.view r.key).symm.trans hmetric) r).symm
    · rw [if_neg hk, if_neg hk]
      exact h.view key
  · intro worker r' id' hworker hstage
    rw [hfounds, htable]
    rcases List.mem_or_eq_of_mem_set hworker with hold | rfl
    · exact h.linked hold hstage
    · cases hstage
  · rw [hfounds, hrecords]
    intro r' hr'
    rcases List.mem_append.mp hr' with hr' | hr'
    · exact h.recorded hr'
    · rw [List.mem_singleton.mp hr']
      exact hfound
  · rw [hfounds, sum_set_same Worker.todo hw ⟨.idle, rest⟩ rfl]
    exact h.todo
  · rw [← h.unrecorded, sum_set_cons Worker.unrecorded hw ⟨.idle, rest⟩ rfl, hrecords, ← Multiset.coe_add, add_assoc,
      Multiset.coe_singleton, Multiset.singleton_add]

/-- Every unfinished worker can go on, and keeps the invariant. -/
theorem step_inv (h : pool.Inv before lines log) (hu : Uniform before lines) {i : Nat}
    {worker : Worker} (hw : pool.workers[i]? = some worker) (hmore : worker ≠ ⟨.idle, []⟩) :
    ∃ server worker' out, pool.step i = some (⟨server, pool.workers.set i worker'⟩, out) ∧
      Pool.Inv before lines ⟨server, pool.workers.set i worker'⟩ (log ++ out) ∧
      worker.turns = worker'.turns + 1 := by
  obtain ⟨stage, rest⟩ := worker
  cases stage with
  | idle =>
    cases rest with
    | nil => exact absurd rfl hmore
    | cons r rest =>
      refine ⟨pool.server.countLine (some r), ⟨.counted r, rest⟩, [], by simp only [Pool.step, hw],
        ?_, ?_⟩
      · rw [List.append_nil]
        exact h.count hw
      · simp only [Worker.turns, List.length_cons]
        omega
  | counted r =>
    obtain ⟨id, server, hfind, hinv⟩ := h.find hu hw
    exact ⟨server, ⟨.found r id, rest⟩, [.found r], by simp only [Pool.step, hw, hfind], hinv, rfl⟩
  | found r id =>
    obtain ⟨server, hrecord, hinv⟩ := h.record hu hw
    exact ⟨server, ⟨.idle, rest⟩, [.recorded r],
      by simp only [Pool.step, hw, hrecord, Option.map_some], hinv, rfl⟩

/-- Only an unfinished worker has a step. -/
theorem step_worker {i : Nat} {pool' : Pool} {out : List Mark} (h : pool.step i = some (pool', out)) :
    ∃ worker, pool.workers[i]? = some worker ∧ worker ≠ ⟨.idle, []⟩ := by
  cases hw : pool.workers[i]? with
  | none => simp [Pool.step, hw] at h
  | some worker =>
    refine ⟨worker, rfl, ?_⟩
    rintro rfl
    simp [Pool.step, hw] at h

theorem run_inv (hu : Uniform before lines) {pool' : Pool} {turns : List Nat} {out : List Mark}
    (h : pool.Inv before lines []) (hrun : Machine.run Pool.step pool turns = some (pool', out)) :
    pool'.Inv before lines out := by
  refine Machine.run_history (Pool.Inv before lines) ?_ h hrun
  intro pool i pool' log out hinv hstep
  obtain ⟨worker, hw, hmore⟩ := step_worker hstep
  obtain ⟨server, worker', out', hstep', hinv', -⟩ := step_inv hinv hu hw hmore
  rw [hstep] at hstep'
  cases hstep'
  exact hinv'

/-- The workers can finish. -/
theorem run_done (hu : Uniform before lines) (h : pool.Inv before lines log) :
    ∃ turns pool' out, Machine.run Pool.step pool turns = some (pool', out) ∧ pool'.Done := by
  induction hn : (pool.workers.map Worker.turns).sum using Nat.strong_induction_on
    generalizing pool log with
  | _ n ih =>
    by_cases hdone : pool.Done
    · exact ⟨[], pool, [], rfl, hdone⟩
    · simp only [Pool.Done, not_forall] at hdone
      obtain ⟨worker, hworker, hmore⟩ := hdone
      obtain ⟨i, hw⟩ := List.mem_iff_getElem?.mp hworker
      obtain ⟨server, worker', out, hstep, hinv, hturns⟩ := step_inv h hu hw hmore
      have hset := Machine.sum_set Worker.turns hw worker'
      obtain ⟨turns, pool', out', hrun, hdone⟩ := ih
        ((pool.workers.set i worker').map Worker.turns).sum (by omega) hinv rfl
      exact ⟨i :: turns, pool', out ++ out', Machine.run_step hstep hrun, hdone⟩

end

theorem sum_start (f : Worker → Multiset Reading) (hf : ∀ rest, f ⟨.idle, rest⟩ = rest)
    (shares : List (List Reading)) :
    ((shares.map fun rest => (⟨.idle, rest⟩ : Worker)).map f).sum = shares.flatten := by
  induction shares with
  | nil => rfl
  | cons share shares ih =>
    rw [List.map_cons, List.map_cons, List.sum_cons, ih, hf, List.flatten_cons, Multiset.coe_add]

theorem start_inv {before : Server} (hgood : before.Good) (shares : List (List Reading)) :
    (Pool.start before shares).Inv before shares.flatten [] where
  good := hgood
  view := fun _ => rfl
  linked := by
    intro worker r id hworker hstage
    obtain ⟨rest, -, rfl⟩ := List.mem_map.mp hworker
    cases hstage
  recorded := fun _ hr => hr
  todo := (zero_add _).trans (sum_start Worker.todo (fun _ => rfl) shares)
  unrecorded := (zero_add _).trans (sum_start Worker.unrecorded (fun _ => rfl) shares)

/-- When all are done, every line has been found and recorded. -/
theorem sum_done {pool : Pool} (h : pool.Done) (f : Worker → Multiset Reading)
    (hf : f ⟨.idle, []⟩ = 0) : (pool.workers.map f).sum = 0 := by
  have hzero : ∀ {workers : List Worker}, (∀ worker ∈ workers, worker = ⟨.idle, []⟩) →
      (workers.map f).sum = 0 := by
    intro workers
    induction workers with
    | nil => intro _; rfl
    | cons worker workers ih =>
      intro hall
      rw [List.map_cons, List.sum_cons, ih fun w hw => hall w (List.mem_cons_of_mem _ hw),
        hall worker List.mem_cons_self, hf, add_zero]
  exact hzero h

theorem Pool.Inv.done {before : Server} {lines : List Reading} {pool : Pool} {log : List Mark}
    (h : pool.Inv before lines log) (hdone : pool.Done) :
    (founds log).Perm lines ∧ (records log).Perm lines := by
  have htodo := h.todo
  have hunrecorded := h.unrecorded
  rw [sum_done hdone _ rfl, add_zero] at htodo hunrecorded
  exact ⟨Multiset.coe_eq_coe.mp htodo, Multiset.coe_eq_coe.mp hunrecorded⟩

/-! ## Any order, any split -/

/-- How many values a key's histogram holds. -/
def held (server : Server) (key : Key) : Nat :=
  ((server.metricOf key).map fun metric => metric.as.histogram.values.length).getD 0

/-- The same lines found and recorded in another order leave metrics that differ in the order of
their values only. -/
theorem settled_alike {before : Server} {lines founds founds' records records' : List Reading}
    (hu : Uniform before lines) (hfreq : ∀ r ∈ lines, 0 ≤ r.sample_freq)
    (horderless : ∀ r ∈ lines, r.type ∈ orderless)
    (hroom : ∀ r ∈ lines, r.type ≠ .meter →
      held before r.key + (ofKey r.key lines).length ≤ USHRT_MAX)
    (hf : founds.Perm lines) (hf' : founds'.Perm lines) (hr : records.Perm lines)
    (hr' : records'.Perm lines) {key : Key} (hkey : ∃ r ∈ lines, r.key = key) :
    ∃ metric metric',
      settled (before.metricOf key) (ofKey key founds) (ofKey key records) = some metric ∧
      settled (before.metricOf key) (ofKey key founds') (ofKey key records') = some metric' ∧
      metric.key = metric'.key ∧ metric.type = metric'.type ∧ As.Alike metric.as metric'.as := by
  obtain ⟨r, hrline, rfl⟩ := hkey
  have hmem : ∀ {l : List Reading}, l.Perm lines → ∀ r' ∈ ofKey r.key l, r'.key = r.key ∧
      r'.type = r.type ∧ 0 ≤ r'.sample_freq := by
    intro l hl r' hr'
    obtain ⟨hr', hsame⟩ := List.mem_filter.mp hr'
    have hline := hl.mem_iff.mp hr'
    exact ⟨of_decide_eq_true hsame, hu.single r' hline r hrline (of_decide_eq_true hsame),
      hfreq r' hline⟩
  have hhead : ∀ {l : List Reading}, l.Perm lines → ∃ first rest, ofKey r.key l = first :: rest ∧
      Server.newMetric first.key first.type = Server.newMetric r.key r.type := by
    intro l hl
    have hin : r ∈ ofKey r.key l := List.mem_filter.mpr ⟨hl.mem_iff.mpr hrline, decide_eq_true rfl⟩
    obtain ⟨first, rest, heq⟩ := List.exists_cons_of_ne_nil (List.ne_nil_of_mem hin)
    obtain ⟨hk, ht, -⟩ := hmem hl first (by rw [heq]; exact List.mem_cons_self)
    exact ⟨first, rest, heq, by rw [hk, ht]⟩
  obtain ⟨first, rest, hfirst, hnew⟩ := hhead hf
  obtain ⟨first', rest', hfirst', hnew'⟩ := hhead hf'
  rw [hfirst, hfirst']
  refine ⟨_, _, rfl, rfl, by rw [hnew, hnew'], by rw [hnew, hnew'], ?_⟩
  dsimp only
  rw [hnew, hnew']
  have hperm : (ofKey r.key records).Perm (ofKey r.key records') := (hr.trans hr'.symm).filter _
  refine applies_alike hperm (horderless r hrline) (fun r' h => (hmem hr r' h).2.1)
    (fun r' h => (hmem hr r' h).2.2) fun hmeter => ?_
  have hlength : (ofKey r.key records).length = (ofKey r.key lines).length := (hr.filter _).length_eq
  rw [hlength]
  refine le_trans (Nat.add_le_add_right (Nat.le_of_eq ?_) _) (hroom r hrline hmeter)
  rw [held]
  cases before.metricOf r.key <;> rfl

/-- **The order of the lines does not matter.** The lines are accepted ones for meters, histograms and
timers, each key with one type, which is also the type of a metric the server has under the key, and
no histogram gets more values than it has room for. However they are split among workers and
whatever turns these take, they can finish, and then every key has the same meter and the same
statistics, and is sampled alike. -/
theorem order_independent {patterns : Patterns} {config : Server.Config} {before server : Server}
    (h : Server.Reaches patterns config before server) {shares shares' : List (List Reading)}
    (hperm : shares.flatten.Perm shares'.flatten) (haccepted : ∀ r ∈ shares.flatten, Accepted r)
    (horderless : ∀ r ∈ shares.flatten, r.type ∈ orderless)
    (hsingle : ∀ r ∈ shares.flatten, ∀ r' ∈ shares.flatten, r.key = r'.key → r.type = r'.type)
    (hold : ∀ r ∈ shares.flatten, ∀ metric, server.metricOf r.key = some metric →
      metric.type = r.type)
    (hroom : ∀ r ∈ shares.flatten, r.type ≠ .meter →
      held server r.key + (ofKey r.key shares.flatten).length ≤ USHRT_MAX) :
    (∀ {turns pool log}, Machine.run Pool.step (Pool.start server shares) turns = some (pool, log) →
      ∃ turns' pool' log', Machine.run Pool.step pool turns' = some (pool', log') ∧ pool'.Done) ∧
    ∀ {turns turns' pool pool' log log'},
      Machine.run Pool.step (Pool.start server shares) turns = some (pool, log) → pool.Done →
      Machine.run Pool.step (Pool.start server shares') turns' = some (pool', log') → pool'.Done →
      ∀ key,
        (pool.server.metricOf key).map (fun m => (m.type, m.as.value, m.as.histogram.sample.1)) =
          (pool'.server.metricOf key).map (fun m => (m.type, m.as.value, m.as.histogram.sample.1)) ∧
        ∀ stats sample_freq,
          (pool.server.metricOf key).map (fun m => (m.sample stats sample_freq).1) =
            (pool'.server.metricOf key).map (fun m => (m.sample stats sample_freq).1) := by
  have hgood := (h.internal []).1
  have hu : Uniform server shares.flatten :=
    ⟨fun r hr => ⟨(haccepted r hr).spec.1, (haccepted r hr).spec.2.1⟩, hsingle, hold⟩
  have hstart' := start_inv hgood shares'
  rw [← Multiset.coe_eq_coe.mpr hperm] at hstart'
  refine ⟨fun hrun => run_done hu (run_inv hu (start_inv hgood shares) hrun), ?_⟩
  intro turns turns' pool pool' log log' hrun hdone hrun' hdone' key
  have hinv := run_inv hu (start_inv hgood shares) hrun
  have hinv' := run_inv hu hstart' hrun'
  obtain ⟨hf, hr⟩ := hinv.done hdone
  obtain ⟨hf', hr'⟩ := hinv'.done hdone'
  rw [hinv.view key, hinv'.view key]
  by_cases hkey : ∃ r ∈ shares.flatten, r.key = key
  · obtain ⟨metric, metric', hmetric, hmetric', hk, ht, has⟩ := settled_alike hu
      (fun r hr => (haccepted r hr).spec.2.2) horderless hroom hf hf' hr hr' hkey
    rw [hmetric, hmetric']
    refine ⟨?_, fun stats sample_freq => ?_⟩
    · rw [Option.map_some, Option.map_some, ht, has.value, Histo.sample_eq has.histogram]
    · rw [Option.map_some, Option.map_some, Metric.sample_alike hk ht has]
  · -- a key that no line names is as it was
    have hnone : ∀ {l : List Reading}, l.Perm shares.flatten → ofKey key l = [] := by
      intro l hl
      refine List.filter_eq_nil_iff.mpr fun r hr hsame => hkey ⟨r, hl.mem_iff.mp hr, ?_⟩
      exact of_decide_eq_true hsame
    rw [hnone hf, hnone hf']
    exact ⟨rfl, fun _ _ => rfl⟩

/-- Two lines for one meter and two for one timer. -/
def twoKeys : List Reading :=
  [⟨str "a".toList, .meter, 1, 1, 0⟩, ⟨str "a".toList, .meter, 2, 1, 0⟩,
   ⟨str "t".toList, .timer, 5, 2, 0⟩, ⟨str "t".toList, .timer, 4, 1, 0⟩]

theorem twoKeys_accepted : ∀ r ∈ twoKeys, Accepted r := by
  simp only [twoKeys, List.forall_mem_cons]
  refine ⟨⟨str "a:1|c".toList, by decide, by decide +kernel⟩,
    ⟨str "a:2|c".toList, by decide, by decide +kernel⟩,
    ⟨str "t:5|ms|@0.5".toList, by decide, by decide +kernel⟩,
    ⟨str "t:4|ms".toList, by decide, by decide +kernel⟩, ?_⟩
  simp

/-- One worker with the four lines, and two with two lines each in another order. -/
theorem order_independent_two :
    ∃ turns turns' pool pool' log log',
      Machine.run Pool.step (Pool.start Server.started [twoKeys]) turns = some (pool, log) ∧
      Machine.run Pool.step (Pool.start Server.started [twoKeys.drop 2, twoKeys.take 2]) turns' =
        some (pool', log') ∧
      ∀ key, (pool.server.metricOf key).map (fun m => m.as.histogram.sample.1) =
        (pool'.server.metricOf key).map (fun m => m.as.histogram.sample.1) := by
  have hperm : [twoKeys.drop 2, twoKeys.take 2].flatten.Perm twoKeys := by decide
  have horderless : ∀ r ∈ twoKeys, r.type ∈ orderless := by decide
  have hsingle : ∀ r ∈ twoKeys, ∀ r' ∈ twoKeys, r.key = r'.key → r.type = r'.type := by decide
  have hnew : ∀ r ∈ twoKeys, Server.started.metricOf r.key = none := by decide
  -- what the theorem asks of the lines, for any split of them
  have hagree := fun (shares shares' : List (List Reading)) (hshares : shares.flatten.Perm twoKeys)
      (hshares' : shares.flatten.Perm shares'.flatten) =>
    order_independent (Server.started_reached ⟨fun _ => 0, fun _ => 0⟩) hshares'
      (fun r hr => twoKeys_accepted r (hshares.mem_iff.mp hr))
      (fun r hr => horderless r (hshares.mem_iff.mp hr))
      (fun r hr r' hr' => hsingle r (hshares.mem_iff.mp hr) r' (hshares.mem_iff.mp hr'))
      (fun r hr metric hmetric => by
        rw [hnew r (hshares.mem_iff.mp hr)] at hmetric
        cases hmetric)
      (fun r hr _ => by
        rw [held, hnew r (hshares.mem_iff.mp hr), Option.map_none, Option.getD_none, zero_add]
        exact (List.length_filter_le _ _).trans (by rw [hshares.length_eq]; decide))
  have hone : [twoKeys].flatten.Perm twoKeys := by decide
  obtain ⟨hdone, hsame⟩ := hagree [twoKeys] _ hone (hone.trans hperm.symm)
  obtain ⟨hdone', -⟩ := hagree _ _ hperm (List.Perm.refl _)
  have hempty : ∀ pool, Machine.run Pool.step pool [] = some (pool, []) := fun _ => rfl
  obtain ⟨turns, pool, log, hrun, hpool⟩ := hdone (hempty _)
  obtain ⟨turns', pool', log', hrun', hpool'⟩ := hdone' (hempty _)
  refine ⟨turns, turns', pool, pool', log, log', hrun, hrun', fun key => ?_⟩
  have hkey := (hsame hrun hpool hrun' hpool' key).1
  have hsnd := congrArg (Option.map fun observed => observed.2.2) hkey
  rwa [Option.map_map, Option.map_map] at hsnd

end Statsd
end Brubeck
