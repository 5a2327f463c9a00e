import Brubeck.Limits
import Brubeck.Lib.Lines
import Brubeck.Names

/-!
# Brubeck.Dump

The dump of all metrics that `SIGUSR2` asks for: a line `key|type` for each metric in the table. The
table may be walked in any order.

* `readDump`: what a reader makes of it, who cuts each line at its last bar.
* `readDump_lines`: lines of clean keys are read back.
* `dump_roundtrip`: the dump of any state that a server reaches holds the key and the type of each of its
  metrics once, and nothing else.
-/

namespace Brubeck
namespace Server

open Lib Statsd

/-- `METRIC_NAMES`. -/
def metricNames : MetricType → List Byte
  | .gauge => str ['g']
  | .meter => str ['c']
  | .counter => str ['C']
  | .histo => str ['h']
  | .timer => str ['m', 's']
  | .internalStats => str "internal".toList

/-- `dump_metric`: the key is printed as a C string. -/
def dumpMetric (metric : Metric) : List Byte :=
  metric.key.take (strlen metric.key) ++ ch '|' :: (metricNames metric.type ++ [ch '\n'])

/-- `dump_all_metrics`, with the entries of the table in the order in which they are walked. -/
def dumpAllMetrics (server : Server) (entries : List (Key × Nat)) : List Byte :=
  entries.flatMap fun entry => (server.heap[entry.2]?.map dumpMetric).getD []

/-! ## The reader -/

def types : List MetricType := [.gauge, .meter, .counter, .histo, .timer, .internalStats]

def readType (name : List Byte) : Option MetricType := types.find? fun type => metricNames type = name

/-- A line is cut at its last bar: a key may have bars of its own. -/
def readLine (line : List Byte) : Option (Key × MetricType) :=
  match line.reverse.span (· ≠ ch '|') with
  | (_, []) => none
  | (name, _ :: key) => (readType name.reverse).map fun type => (key.reverse, type)

def readDump (text : List Byte) : Option (List (Key × MetricType)) :=
  (pieces (ch '\n') text).mapM readLine

theorem readType_metricNames (type : MetricType) : readType (metricNames type) = some type := by
  cases type <;> decide

theorem metricNames_plain (type : MetricType) :
    ch '|' ∉ metricNames type ∧ ch '\n' ∉ metricNames type := by
  cases type <;> decide

theorem span_of_notMem {p : Byte} {l : List Byte} (h : p ∉ l) (rest : List Byte) :
    (l ++ p :: rest).span (· ≠ p) = (l, p :: rest) := by
  rw [List.span_eq_takeWhile_dropWhile]
  have hall : ∀ b ∈ l, decide (b ≠ p) = true := by
    intro b hb
    have : b ≠ p := fun heq => h (heq ▸ hb)
    simpa using this
  rw [List.takeWhile_append_of_pos hall, List.dropWhile_append_of_pos hall]
  simp

theorem readLine_line (key : Key) (type : MetricType) :
    readLine (key ++ ch '|' :: metricNames type) = some (key, type) := by
  have hrev : (key ++ ch '|' :: metricNames type).reverse =
      (metricNames type).reverse ++ ch '|' :: key.reverse := by simp
  have hplain : ch '|' ∉ (metricNames type).reverse := by
    rw [List.mem_reverse]
    exact (metricNames_plain type).1
  rw [readLine, hrev, span_of_notMem hplain]
  simp only [List.reverse_reverse, readType_metricNames, Option.map_some]

/-- Lines of keys without a newline are read back. -/
theorem readDump_lines (lines : List (Key × MetricType)) (h : ∀ line ∈ lines, ch '\n' ∉ line.1) :
    readDump (lines.flatMap fun line => line.1 ++ ch '|' :: (metricNames line.2 ++ [ch '\n'])) =
      some lines := by
  induction lines with
  | nil => rfl
  | cons line lines ih =>
    have hnl : ch '\n' ∉ line.1 ++ ch '|' :: metricNames line.2 := by
      rw [List.mem_append, List.mem_cons]
      exact not_or.mpr ⟨h line List.mem_cons_self,
        not_or.mpr ⟨by decide, (metricNames_plain line.2).2⟩⟩
    have hcut : (line :: lines).flatMap
        (fun line => line.1 ++ ch '|' :: (metricNames line.2 ++ [ch '\n'])) =
        (line.1 ++ ch '|' :: metricNames line.2) ++ ch '\n' ::
          lines.flatMap fun line => line.1 ++ ch '|' :: (metricNames line.2 ++ [ch '\n']) := by
      simp
    have hrest := ih fun l hl => h l (List.mem_cons_of_mem _ hl)
    rw [readDump] at hrest
    rw [hcut, readDump, pieces_append hnl, List.mapM_cons, readLine_line, hrest]
    rfl

/-! ## Every state of a server -/

/-- What the table holds, in the order in which it is walked. -/
def listing (server : Server) (entries : List (Key × Nat)) : List (Key × MetricType) :=
  entries.filterMap fun entry => (server.typeOf entry.1).map fun type => (entry.1, type)

theorem dumpAllMetrics_eq {server : Server} (hgood : server.Good) (h : server.Named)
    {entries : List (Key × Nat)}
    (hentries : ∀ entry ∈ entries, server.table.lookup entry.1 = some entry.2) :
    server.dumpAllMetrics entries = (server.listing entries).flatMap
      (fun line => line.1 ++ ch '|' :: (metricNames line.2 ++ [ch '\n'])) ∧
    (server.listing entries).map Prod.fst = entries.map Prod.fst ∧
    ∀ line ∈ server.listing entries, ch '\n' ∉ line.1 := by
  induction entries with
  | nil => exact ⟨rfl, rfl, fun line hline => by cases hline⟩
  | cons entry entries ih =>
    have hid := hentries entry List.mem_cons_self
    obtain ⟨htext, hkeys, hclean⟩ := ih fun e he => hentries e (List.mem_cons_of_mem _ he)
    obtain ⟨metric, hm, -⟩ := hgood.table hid
    have hheld : server.metricOf entry.1 = some metric := by rw [metricOf_eq hid, hm]
    obtain ⟨hkey, hbytes⟩ := h entry.1 metric hheld
    have htype : server.typeOf entry.1 = some metric.type := by rw [typeOf, hheld, Option.map_some]
    have hlisting : server.listing (entry :: entries) =
        (entry.1, metric.type) :: server.listing entries := by
      simp [listing, htype]
    have hnul : (0 : Byte) ∉ metric.key := by
      rw [hkey]
      exact fun h0 => (hbytes 0 h0).nul rfl
    have hline : dumpMetric metric = entry.1 ++ ch '|' :: (metricNames metric.type ++ [ch '\n']) := by
      rw [dumpMetric, strlen_of_nulFree hnul, List.take_length, hkey]
    rw [hlisting]
    refine ⟨?_, by simp [hkeys], ?_⟩
    · rw [List.flatMap_cons, ← hline, ← htext, dumpAllMetrics, List.flatMap_cons, hm]
      rfl
    · intro line hmem
      rcases List.mem_cons.mp hmem with rfl | hmem
      · exact fun hnl => (hbytes _ hnl).newline rfl
      · exact hclean line hmem

/-- **The dump.** In every state that a server reaches, whatever the order in which its table is walked,
what a reader makes of the dump has each key of the table once, and a key with a type exactly when the
metric of the key has that type. The server's own name has to be one that a line could have. -/
theorem dump_roundtrip {patterns : Patterns} {config : Config} {before server : Server}
    (h : Reaches patterns config before server) (hshort : config.name.length < 2 ^ 16)
    (hclean : CleanKey config.name) {entries : List (Key × Nat)} (hwalk : entries.Perm server.table) :
    ∃ lines, readDump (server.dumpAllMetrics entries) = some lines ∧
      (lines.map Prod.fst).Perm (server.table.map Prod.fst) ∧ (lines.map Prod.fst).Nodup ∧
      ∀ key type, (key, type) ∈ lines ↔ server.typeOf key = some type := by
  obtain ⟨hgood, -, hnamed⟩ := h.named hshort hclean
  have hentries : ∀ entry ∈ entries, server.table.lookup entry.1 = some entry.2 := by
    intro entry hentry
    exact Assoc.lookup_of_mem hgood.keys (hwalk.mem_iff.mp hentry)
  obtain ⟨htext, hkeys, hlines⟩ := dumpAllMetrics_eq hgood hnamed hentries
  have hperm : ((server.listing entries).map Prod.fst).Perm (server.table.map Prod.fst) := by
    rw [hkeys]
    exact hwalk.map _
  refine ⟨server.listing entries, by rw [htext, readDump_lines _ hlines], hperm,
    hperm.nodup_iff.mpr hgood.keys, fun key type => ?_⟩
  constructor
  · intro hmem
    obtain ⟨entry, -, heq⟩ := List.mem_filterMap.mp hmem
    obtain ⟨type', htype, heq⟩ := Option.map_eq_some_iff.mp heq
    cases heq
    exact htype
  · intro htype
    obtain ⟨metric, hm, -⟩ := Option.map_eq_some_iff.mp htype
    obtain ⟨id, hid, -⟩ := metricOf_some hm
    exact List.mem_filterMap.mpr ⟨(key, id), hwalk.mem_iff.mpr (Assoc.mem_of_lookup hid),
      by rw [htype]; rfl⟩

theorem dump_roundtrip_started :
    ∃ lines, readDump (started.dumpAllMetrics started.table) = some lines ∧
      (lines.map Prod.fst).Perm (started.table.map Prod.fst) ∧ (lines.map Prod.fst).Nodup ∧
      ∀ key type, (key, type) ∈ lines ↔ started.typeOf key = some type := by
  have hclean : CleanKey defaultConfig.name := by decide
  exact dump_roundtrip (started_reached ⟨fun _ => 0, fun _ => 0⟩) (by decide) hclean (.refl _)

end Server
end Brubeck
