import Brubeck.Queues
import Brubeck.Statsd.Consumed

/-!
# Brubeck.Names

The keys that a server holds. They end up in lines of text, in the dump of all metrics and on the wire,
so it matters which bytes they are made of.

* `accepted_clean`: the key of an accepted line has no space, no newline and no NUL.
* `Named`: every metric in the table is under its own key, and every key is clean. Every step keeps it
  (`step_named`), and a server whose own name is clean starts with it.
* `run_named`: so it holds in every state of every run.
-/

namespace Brubeck
namespace Statsd

open Lib

structure CleanByte (b : Byte) : Prop where
  nul : b ≠ 0
  space : b ≠ ch ' '
  newline : b ≠ ch '\n'

def CleanKey (key : Key) : Prop := ∀ b ∈ key, CleanByte b

instance (b : Byte) : Decidable (CleanByte b) :=
  decidable_of_iff (b ≠ 0 ∧ b ≠ ch ' ' ∧ b ≠ ch '\n')
    ⟨fun h => ⟨h.1, h.2.1, h.2.2⟩, fun h => ⟨h.nul, h.space, h.newline⟩⟩

instance (key : Key) : Decidable (CleanKey key) := List.decidableBAll CleanByte key

/-- The key of an accepted line stands at the front of the line. -/
theorem msgParse_reading {msg : Msg} {mem : List Byte} {buffer stop : Nat}
    (h : (msgParse msg mem buffer stop).rc = 0) :
    ∃ k rest, (mem.set stop 0).drop buffer = k ++ ch ':' :: rest ∧ (∀ b ∈ k, KeyByte b) ∧
      ((msgParse msg mem buffer stop).msg.reading (msgParse msg mem buffer stop).mem).key =
        k.take (k.length % 2 ^ 16) := by
  cases hs : scanKey ((mem.set stop 0).drop buffer) with
  | none =>
    simp only [msgParse, hs] at h
    exact absurd h (by decide)
  | some n =>
    obtain ⟨k, rest, hdrop, rfl, hk⟩ := scanKey_some hs
    refine ⟨k, rest, hdrop, hk, ?_⟩
    obtain ⟨pre, rfl, hparse⟩ := msgParse_at msg hdrop hk
    rw [hparse] at h ⊢
    dsimp only at h ⊢
    split at h
    · exact absurd h (by simp)
    · rename_i hdot
      obtain ⟨hkey, hlen⟩ := parseBody_key
        { msg with key := pre.length, key_len := k.length % 2 ^ 16 } rest
      rw [if_neg hdot]
      dsimp only
      simp only [Msg.reading, hkey, hlen, List.drop_left]
      exact List.take_append_of_le_length (Nat.mod_le _ _)

/-- A key lies before the end of its line, and so before the first newline. -/
theorem key_newline {mem k rest : List Byte} {buffer stop : Nat} (hb : buffer ≤ stop)
    (hdrop : (mem.set (statEnd mem buffer stop) 0).drop buffer = k ++ ch ':' :: rest)
    (hk : ∀ b ∈ k, KeyByte b) : ch '\n' ∉ k := by
  intro hmem
  obtain ⟨i, hi⟩ := List.mem_iff_getElem?.mp hmem
  obtain ⟨hle, hend⟩ := statEnd_le mem hb
  generalize hstat : statEnd mem buffer stop = stat at *
  have hat : ∀ {j b}, k[j]? = some b → (mem.set stat 0)[buffer + j]? = some b := by
    intro j b hj
    rw [← List.getElem?_drop, hdrop,
      List.getElem?_append_left (List.getElem?_eq_some_iff.mp hj).1, hj]
  have hbyte := hat hi
  rcases Nat.lt_trichotomy (buffer + i) stat with hlt | heq | hgt
  · rw [List.getElem?_set_ne (by omega)] at hbyte
    exact statEnd_newline (Nat.le_add_right _ _) (by rw [hstat]; exact hlt) (by rw [hstat]; exact hend)
      hbyte
  · rw [heq, List.getElem?_set_self'] at hbyte
    obtain ⟨b, -, hb0⟩ := Option.map_eq_some_iff.mp hbyte
    exact absurd (show (0 : Byte) = ch '\n' from hb0) (by decide)
  · -- the NUL at the end of the line would be part of the key
    have hlt : i < k.length := (List.getElem?_eq_some_iff.mp hi).1
    have hin : stat - buffer < k.length := by omega
    have hnul := hat (List.getElem?_eq_getElem hin)
    rw [Nat.add_sub_cancel' hle, List.getElem?_set_self'] at hnul
    obtain ⟨b, -, hb0⟩ := Option.map_eq_some_iff.mp hnul
    exact (hk _ (List.getElem_mem hin)).nul hb0.symm

theorem accepted_clean {mem : List Byte} {buffer stop : Nat} {r : Reading}
    (h : r ∈ accepted mem buffer stop) : CleanKey r.key := by
  have hloop : ∀ rounds msg mem buffer, ∀ r,
      some r ∈ (segmentLoop rounds msg mem buffer stop).1 → CleanKey r.key := by
    intro rounds
    induction rounds with
    | zero => intro msg mem buffer r hr; cases hr
    | succ rounds ih =>
      intro msg mem buffer r hr
      rw [segmentLoop] at hr
      split at hr
      · rename_i hlt
        rcases List.mem_cons.mp hr with hr | hr
        · rw [Parsed.outcome] at hr
          split at hr
          · cases hr
          · rename_i hrc
            cases hr
            have hzero := (msgParse_rc msg mem buffer (statEnd mem buffer stop)).resolve_right
              fun h => hrc (by rw [h]; decide)
            obtain ⟨k, rest, hdrop, hk, hkey⟩ := msgParse_reading hzero
            rw [hkey]
            intro b hb
            have hbk := List.mem_of_mem_take hb
            refine ⟨(hk b hbk).nul, (hk b hbk).space, ?_⟩
            rintro rfl
            exact key_newline hlt.le hdrop hk hbk
        · exact ih _ _ _ r hr
      · cases hr
  obtain ⟨o, ho, hr⟩ := List.mem_filterMap.mp h
  exact hloop _ _ _ _ r (by rw [← hr]; exact ho)

end Statsd

namespace Server

open Lib Statsd

/-- Every metric in the table is under its own key, and every key is clean. -/
def Named (server : Server) : Prop :=
  ∀ key metric, server.metricOf key = some metric → metric.key = key ∧ CleanKey key

theorem Named.handle {server server' : Server} (h : server.Named) (hgood : server.Good)
    {o : Option Reading} (ho : ∀ r, o = some r → Readable r ∧ CleanKey r.key)
    (hhandle : server.handle o = some server') : server'.Named := by
  cases o with
  | none =>
    obtain ⟨server₁, heq, -, hview⟩ := hgood.handle_error
    rw [hhandle] at heq
    cases heq
    rw [Named, hview]
    exact h
  | some r =>
    obtain ⟨hread, hclean⟩ := ho r rfl
    obtain ⟨-, hline⟩ := hgood.handle_line hread.key hhandle
    obtain ⟨metric, hrecord, hstore⟩ := Option.map_eq_some_iff.mp hline
    obtain ⟨record, -, rfl⟩ := Option.map_eq_some_iff.mp hrecord
    intro key metric' hm
    rw [← hstore, Function.update_apply] at hm
    by_cases hk : key = r.key
    · subst hk
      rw [if_pos rfl] at hm
      cases hm
      refine ⟨?_, hclean⟩
      show (Store.find server.metricOf r).key = r.key
      rw [Store.find]
      split
      · rename_i old hold
        exact (h r.key old hold).1
      · rfl
    · rw [if_neg hk] at hm
      exact h key metric' hm

theorem Named.tick {server : Server} (h : server.Named) (hgood : server.Good) (hplaced : server.Placed)
    (patterns : Patterns) (t : Tick) : (server.tick patterns t).1.Named := by
  intro key metric' hm
  cases hold : server.metricOf key with
  | none =>
    have hid : server.table.lookup key = none := by
      cases hid : server.table.lookup key with
      | none => rfl
      | some id =>
        obtain ⟨metric, hmetric, -⟩ := hgood.table hid
        rw [metricOf_eq hid, hmetric] at hold
        cases hold
    rw [metricOf_none (by rw [(tick_same server patterns t).1]; exact hid)] at hm
    cases hm
  | some metric =>
    obtain ⟨stats, sample_freq, htick⟩ := tick_metricOf hgood hplaced hold patterns t
    rw [htick, Option.some.injEq] at hm
    have hkey : metric'.key = metric.key := by
      rw [← hm]
      split
      · exact metric.sample_key stats sample_freq
      · rfl
    exact ⟨hkey.trans (h key metric hold).1, (h key metric hold).2⟩

theorem step_named {patterns : Patterns} {server server' : Server} {e : Event} {out : List Sampled}
    (hgood : server.Good) (hplaced : server.Placed) (h : server.Named)
    (hstep : step patterns server e = some (server', out)) : server'.Named := by
  cases e with
  | packet mem buffer stop =>
    obtain ⟨hfold, -⟩ := step_packet hstep
    refine handleAll_rel (R := fun a b => a.Named → b.Named) (fun _ h => h) (fun h h' hn => h' (h hn))
      segments_readable (fun {o a b} ho hgood hhandle hn => ?_) hgood hfold h
    refine hn.handle hgood (fun r hr => ?_) hhandle
    subst hr
    exact ⟨segments_readable r ho, accepted_clean (mem_accepted.mpr ho)⟩
  | expire =>
    cases hstep
    intro key metric' hm
    rw [hgood.expireTick.2, Store.expire] at hm
    obtain ⟨metric, hold, rfl⟩ := Option.map_eq_some_iff.mp hm
    refine ⟨?_, (h key metric hold).2⟩
    rw [expireMetric]
    split
    · exact (h key metric hold).1
    · exact (h key metric hold).1
  | httpExpire k =>
    cases hstep
    intro key metric' hm
    rw [(hgood.httpExpire k).2, Store.disable, Function.update_apply] at hm
    split at hm
    · rename_i hk
      obtain ⟨metric, hold, rfl⟩ := Option.map_eq_some_iff.mp hm
      rw [← hk] at hold
      exact h key metric hold
    · exact h key metric' hm
  | tick t =>
    rw [step, Option.some.injEq] at hstep
    have hnamed := h.tick hgood hplaced patterns t
    rwa [hstep] at hnamed

theorem internalInit_named {server : Server} (hgood : server.Good) (h : server.Named)
    (hshort : server.name.length < 2 ^ 16) (hclean : CleanKey server.name) (overlay : As → As) :
    (server.internalInit overlay).Named := by
  intro key metric' hm
  rw [(internalInit_view hgood overlay).2, Function.update_apply, hashKey_eq hshort] at hm
  split at hm
  · rename_i hk
    subst hk
    cases hm
    refine ⟨?_, hclean⟩
    cases hold : server.metricOf server.name with
    | none => rfl
    | some metric => exact (h _ metric hold).1
  · exact h key metric' hm

/-- What the names of a server are in every state of every run. -/
theorem run_named {patterns : Patterns} {server server' : Server} {events : List Event}
    {out : List Sampled} (hgood : server.Good) (hplaced : server.Placed) (h : server.Named)
    (hrun : Machine.run (step patterns) server events = some (server', out)) :
    server'.Good ∧ server'.Placed ∧ server'.Named := by
  refine Machine.run_invariant (fun s => s.Good ∧ s.Placed ∧ s.Named) ?_ ⟨hgood, hplaced, h⟩ hrun
  rintro s e s' out ⟨hs, hp, hn⟩ hstep
  exact ⟨(step_good hs hstep).1, step_placed hs hp hstep, step_named hs hp hn hstep⟩

theorem Reaches.named {patterns : Patterns} {config : Config} {before server : Server}
    (h : Reaches patterns config before server) (hshort : config.name.length < 2 ^ 16)
    (hclean : CleanKey config.name) : server.Good ∧ server.Placed ∧ server.Named := by
  obtain ⟨early, out, hearly⟩ := h.early
  obtain ⟨overlay, late, out', hlate⟩ := h.late
  have hboot : (boot config).Named := fun key metric hm => by cases hm
  obtain ⟨hgood, hplaced, hnamed⟩ := run_named (boot_good config) (boot_placed config) hboot hearly
  have hname : before.name = config.name := (run_good (boot_good config) hearly).2.name
  exact run_named (internalInit_view hgood overlay).1 (internalInit_placed hgood hplaced overlay)
    (internalInit_named hgood hnamed (by rw [hname]; exact hshort) (by rw [hname]; exact hclean) overlay)
    hlate

end Server
end Brubeck
