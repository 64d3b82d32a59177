/-
# The store on disk is a map

Over every run of calls, reopenings and crashes on a disk that does not fail,
`FileOffsets` has for every group the offset that `MemOffsets` has after the
calls that returned `Ok`, and after the first records of a call that a crash
cut short (`fetch_refines_mem`).

The invariant (`Stores`) is that the handle is on the log, the log is whole
records, and the log and the map give every group the same offset.  A commit
adds the same records to both, a compaction writes the map's records in place of
the log's, and a torn record is a tail that `open` cuts off.
-/

import Datarail.Offsets.Steps

namespace Datarail.Offsets

open Lib List FileOffsets

/-- A call, on the map. -/
def MemOffsets.run (m : MemOffsets) : Call → MemOffsets
  | .commit group offset => m.commit group offset
  | .commitMany values => values.foldl (fun m value => m.commit value.1 value.2) m
  | .restoreMany snapshots => ⟨restored m.map snapshots⟩

/-- A call of which only the first `k` records count; a restoration counts as a whole or not at all. -/
def MemOffsets.runFirst (m : MemOffsets) (k : ℕ) : Call → MemOffsets
  | .commit group offset => m.run (.commitMany ([(group, offset)].take k))
  | .commitMany values => m.run (.commitMany (values.take k))
  | .restoreMany snapshots => if k = 0 then m else m.run (.restoreMany snapshots)

/-- What may happen to the map: a call is applied as a whole, unless it asks for a name that cannot be written. -/
inductive MemStep (m : MemOffsets) : Event → Option (Except IoError Unit) → MemOffsets → Prop
  | applied (c : Call) (h : Named (m.run c).map) : MemStep m (.call c none) (some (.ok ())) (m.run c)
  | refused (c : Call) (h : ¬ Named (m.run c).map) : MemStep m (.call c none) (some (.error nameTooLong)) m
  | cut (c : Call) (fate : Fate) (k : ℕ) : MemStep m (.crash c fate) none (m.runFirst k c)
  | reopened : MemStep m .reopen none m

/-- The maps that a history of events and answers may lead to. -/
inductive MemRun : List (Event × Option (Except IoError Unit)) → MemOffsets → Prop
  | new : MemRun [] .new
  | step {history m e answer m'} (h : MemRun history m) (hstep : MemStep m e answer m') :
      MemRun (history ++ [(e, answer)]) m'

/-- The disk fails no call. -/
def Event.Calm : Event → Prop
  | .call _ fault => fault = none
  | _ => True

instance : ∀ e : Event, Decidable e.Calm
  | .call _ fault => inferInstanceAs (Decidable (fault = none))
  | .crash _ _ => inferInstanceAs (Decidable True)
  | .reopen => inferInstanceAs (Decidable True)

theorem map_run_commitMany (m : MemOffsets) (values : List (String × UInt64)) :
    (m.run (.commitMany values)).map = insertAll m.map values := by
  induction values generalizing m with
  | nil => rfl
  | cons value values ih => exact ih (m.commit value.1 value.2)

/-- The log and the map of a store both give every group what `m` gives it. -/
structure Stores (f : FileOffsets) (m : MemOffsets) : Prop where
  attached : f.attached = true
  whole : recordCodec.tail f.log = []
  logged : ∀ group, (logged f.log).lookup group = m.map.lookup group
  mapped : ∀ group, f.map.lookup group = m.map.lookup group

namespace Stores

variable {f : FileOffsets} {m : MemOffsets}

theorem named (h : Stores f m) : Named m.map := (named_logged f.log).congr fun group => (h.logged group).symm

theorem open_of_logged {log : Bytes} (h : ∀ group, (Offsets.logged log).lookup group = m.map.lookup group) :
    Stores (.open log) m := by
  have hfits := recordCodec.fits_records log
  have hrecords := (Codec.records_frames (K := recordCodec) hfits Codec.parse_nil).1
  rw [append_nil] at hrecords
  rw [open_eq]
  refine ⟨rfl, tail_frames hfits, fun group => ?_, h⟩
  rw [Offsets.logged, hrecords]
  exact h group

theorem reopen (h : Stores f m) : Stores (.open f.log) m := open_of_logged h.logged

theorem new : Stores (.open []) .new := open_of_logged fun _ => rfl

theorem rewritten {map : OffsetMap} (h : ∀ group, map.lookup group = m.map.lookup group) (hnamed : Named map)
    (records : ℕ) : Stores ⟨recordCodec.frames (entriesOf map), true, map, records⟩ m where
  attached := rfl
  whole := tail_frames (named_iff.1 hnamed)
  logged group := by rw [lookup_logged_entriesOf (named_iff.1 hnamed), h]
  mapped := h

/-- The log with some bytes of more records. -/
theorem log_write (h : Stores f m) (bytes : Bytes) : (f.write bytes).log = f.log ++ bytes := by
  rw [write, if_pos h.attached]

variable {values : List (String × UInt64)}

theorem lookup_logged_append (h : Stores f m) {t : Bytes}
    (hfits : ∀ value ∈ values, NameFits value.1) (ht : recordCodec.parse t = none) (group : String) :
    (Offsets.logged (f.log ++ (recordCodec.frames values ++ t))).lookup group =
      (m.run (.commitMany values)).map.lookup group := by
  rw [logged_append h.whole hfits ht, map_run_commitMany]
  exact lookup_insertAll_congr h.logged values group

theorem recorded (h : Stores f m) (hfits : ∀ value ∈ values, NameFits value.1) :
    Stores (f.recorded values (recordCodec.frames values)) (m.run (.commitMany values)) := by
  have hlog : (f.recorded values (recordCodec.frames values)).log = f.log ++ (recordCodec.frames values ++ []) := by
    rw [append_nil]
    exact h.log_write _
  refine ⟨?_, ?_, fun group => ?_, fun group => ?_⟩
  · change (f.write _).attached = true
    rw [write, if_pos h.attached]
    exact h.attached
  · rw [hlog, (Codec.records_append (K := recordCodec) _ h.whole hfits Codec.parse_nil).2]
  · rw [hlog]
    exact h.lookup_logged_append hfits Codec.parse_nil group
  · rw [map_run_commitMany]
    exact lookup_insertAll_congr h.mapped values group

/-- Rewriting the log to a map that can be written succeeds. -/
theorem rewriteMap {m' : MemOffsets} {map : OffsetMap} (hmap : ∀ group, map.lookup group = m'.map.lookup group)
    (hnamed : Named map) : (f.rewriteMap map none).2 = .ok () ∧ Stores (f.rewriteMap map none).1 m' := by
  rcases rewriteMap_cases f map none with ⟨e, -, h⟩ | ⟨-, ⟨h, -⟩ | ⟨h, -⟩ | ⟨-, h⟩⟩
  · exact absurd hnamed (h rfl).1
  · cases h
  · cases h
  · rw [h]
    exact ⟨rfl, rewritten hmap hnamed _⟩

theorem maybeCompact (h : Stores f m) (T : Trigger) :
    (f.maybeCompact T none).2 = .ok () ∧ Stores (f.maybeCompact T none).1 m := by
  rw [FileOffsets.maybeCompact]
  split_ifs
  · exact rewriteMap h.mapped (h.named.congr h.mapped)
  · exact ⟨rfl, h⟩

/-- Commits are refused as a whole or applied as a whole. -/
theorem commitMany (h : Stores f m) (T : Trigger) (values : List (String × UInt64)) :
    (Named (m.run (.commitMany values)).map ∧ (f.commitMany T values none).2 = .ok () ∧
      Stores (f.commitMany T values none).1 (m.run (.commitMany values))) ∨
    (¬ Named (m.run (.commitMany values)).map ∧ (f.commitMany T values none).2 = .error nameTooLong ∧
      Stores (f.commitMany T values none).1 m) := by
  rw [map_run_commitMany, named_insertAll_iff h.named]
  rcases commitMany_cases T f values none with ⟨hfits, heq⟩ | ⟨hfits, ⟨n, hne, -⟩ | ⟨-, heq⟩⟩
  · exact .inr ⟨hfits, by rw [heq], by rw [heq]; exact h⟩
  · exact absurd (.inl rfl) hne
  · rw [heq]
    exact .inl ⟨hfits, (h.recorded hfits).maybeCompact T⟩

theorem restoreMany (h : Stores f m) (snapshots : List OffsetSnapshot) :
    (Named (m.run (.restoreMany snapshots)).map ∧ (f.restoreMany snapshots none).2 = .ok () ∧
      Stores (f.restoreMany snapshots none).1 (m.run (.restoreMany snapshots))) ∨
    (¬ Named (m.run (.restoreMany snapshots)).map ∧ (f.restoreMany snapshots none).2 = .error nameTooLong ∧
      Stores (f.restoreMany snapshots none).1 m) := by
  have hmap : ∀ group, (restored f.map snapshots).lookup group = (m.run (.restoreMany snapshots)).map.lookup group := by
    intro group
    simp only [MemOffsets.run, restored_eq, lookup_assignAll, h.mapped]
  by_cases hnamed : Named (m.run (.restoreMany snapshots)).map
  · exact .inl ⟨hnamed, rewriteMap hmap (hnamed.congr hmap)⟩
  · refine .inr ⟨hnamed, ?_⟩
    rcases rewriteMap_cases f (restored f.map snapshots) none with ⟨e, heq, herr⟩ | ⟨h', -⟩
    · change (f.rewriteMap _ none).2 = _ ∧ Stores (f.rewriteMap _ none).1 m
      rw [heq, (herr rfl).2]
      exact ⟨rfl, h⟩
    · exact absurd (h'.congr fun group => (hmap group).symm) hnamed

/-- **A crash in an append keeps the first records of it.** -/
theorem crash_append (h : Stores f m) (T : Trigger) (values : List (String × UInt64)) (fate : Fate) :
    ∃ k, Stores (.open (f.logAfterAppend T values fate)) (m.run (.commitMany (values.take k))) := by
  -- A fault that is met before the log is rewritten leaves a prefix of the records, as a crash does.
  have htorn : ∀ fault, (∀ at', fault ≠ .rewrite at') → ∃ k,
      Stores (.open (f.commitMany T values (some fault)).1.log) (m.run (.commitMany (values.take k))) := by
    intro fault hfault
    rcases commitMany_cases T f values (some fault) with ⟨-, heq⟩ | ⟨hfits, ⟨n, -, heq⟩ | ⟨hnone | ⟨at', hat⟩, -⟩⟩
    · exact ⟨0, by rw [heq]; exact h.reopen⟩
    · obtain ⟨k, t, htake, ht⟩ := Codec.exists_take_frames (K := recordCodec) hfits n
      refine ⟨k, open_of_logged fun group => ?_⟩
      rw [heq, h.log_write, htake]
      exact h.lookup_logged_append (fun value hvalue => hfits value (mem_of_mem_take hvalue)) ht group
    · cases hnone
    · exact absurd (Option.some.inj hat) (hfault at')
  cases fate with
  | torn n => exact htorn (.write n) nofun
  | synced => exact htorn .sync nofun
  | renamed =>
    rcases h.commitMany T values with ⟨-, -, hstores⟩ | ⟨-, -, hstores⟩
    · exact ⟨values.length, by rw [take_length]; exact hstores.reopen⟩
    · exact ⟨0, hstores.reopen⟩

theorem crash (h : Stores f m) (T : Trigger) (c : Call) (fate : Fate) :
    ∃ k, Stores (.open (f.logAfter T c fate)) (m.runFirst k c) := by
  cases c with
  | commit group offset => exact h.crash_append T [(group, offset)] fate
  | commitMany values => exact h.crash_append T values fate
  | restoreMany snapshots =>
    cases fate with
    | torn n => exact ⟨0, h.reopen⟩
    | synced => exact ⟨0, h.reopen⟩
    | renamed =>
      rcases h.restoreMany snapshots with ⟨-, -, hstores⟩ | ⟨-, -, hstores⟩
      · exact ⟨1, hstores.reopen⟩
      · exact ⟨0, hstores.reopen⟩

/-- Every step of the store is a step of the map. -/
theorem step (h : Stores f m) (T : Trigger) {e : Event} (hcalm : e.Calm) :
    ∃ m', MemStep m e ((fileMachine T).step f e).2 m' ∧ Stores ((fileMachine T).step f e).1 m' := by
  have hcall : ∀ c, ((Named (m.run c).map ∧ (f.call T none c).2 = .ok () ∧ Stores (f.call T none c).1 (m.run c)) ∨
      (¬ Named (m.run c).map ∧ (f.call T none c).2 = .error nameTooLong ∧ Stores (f.call T none c).1 m)) := by
    intro c
    cases c with
    | commit group offset => exact h.commitMany T [(group, offset)]
    | commitMany values => exact h.commitMany T values
    | restoreMany snapshots => exact h.restoreMany snapshots
  cases e with
  | call c fault =>
    obtain rfl : fault = none := hcalm
    change ∃ m', MemStep m (.call c none) (some (f.call T none c).2) m' ∧ Stores (f.call T none c).1 m'
    rcases hcall c with ⟨hnamed, hanswer, hstores⟩ | ⟨hnamed, hanswer, hstores⟩
    · exact ⟨m.run c, by rw [hanswer]; exact .applied c hnamed, hstores⟩
    · exact ⟨m, by rw [hanswer]; exact .refused c hnamed, hstores⟩
  | crash c fate =>
    obtain ⟨k, hstores⟩ := h.crash T c fate
    exact ⟨m.runFirst k c, .cut c fate k, hstores⟩
  | reopen => exact ⟨m, .reopened, h.reopen⟩

end Stores

/-- **`restore_many` takes the groups of a snapshot back** to where they were, in the log too, and leaves the other
groups where they are; if it refuses, nothing changes. -/
theorem restoreMany_snapshot (f f' : FileOffsets) (groups : List String) (group : String) :
    let g := f'.restoreMany (f.snapshot groups) none
    g = (f', .error nameTooLong) ∨
      g.2 = .ok () ∧ g.1.fetch group = (if group ∈ groups then f.fetch group else f'.fetch group) ∧
        (FileOffsets.open g.1.log).fetch group = g.1.fetch group := by
  intro g
  set map := restored f'.map (f.snapshot groups) with hdef
  have hagree : ∀ u ∈ (f.snapshot groups).map fun s => (s.group, s.offset), f.map.lookup u.1 = u.2 := by
    simp [snapshot]
  rcases rewriteMap_cases f' map none with ⟨e, heq, herr⟩ | ⟨hnamed, ⟨hn, -⟩ | ⟨hn, -⟩ | ⟨-, heq⟩⟩
  · exact .inl ((herr rfl).2 ▸ heq)
  · cases hn
  · cases hn
  · have hstores : Stores _ ⟨map⟩ := .rewritten (fun _ => rfl) hnamed map.entries.length
    right
    rw [show g = _ from heq]
    refine ⟨rfl, ?_, hstores.reopen.mapped group⟩
    rw [fetch, hdef, restored_eq, lookup_assignAll_of_agree hagree]
    simp [snapshot, Function.comp_def, fetch]

/-- **Committed offsets are a map in which the last write wins.**  In every run of a new store in which the
disk fails no call, whatever the compaction trigger, every group has the offset that the store in memory has
after the calls that returned `Ok`, a call that a crash cut short counting with its first records only. -/
theorem fetch_refines_mem (T : Trigger) (events : List Event) (hcalm : ∀ e ∈ events, e.Calm) :
    ∃ m, MemRun ((fileMachine T).trace (.open []) events) m ∧
      ∀ group, ((fileMachine T).final (.open []) events).fetch group = m.fetch group := by
  have hguard : (fileMachine T).Guarded (fun _ e => e.Calm) (.open []) events :=
    Machine.guarded_of_take _ _ _ fun k e he => hcalm e (mem_of_getElem? he)
  obtain ⟨m, hrun, hstores⟩ := (fileMachine T).invariant_of_step (fun _ e => e.Calm)
    (fun history f => ∃ m, MemRun history m ∧ Stores f m)
    (fun history f e he ⟨m, hrun, hstores⟩ => by
      obtain ⟨m', hstep, hstores'⟩ := hstores.step T he
      exact ⟨m', hrun.step hstep, hstores'⟩)
    (.open []) events [] hguard ⟨.new, .new, .new⟩
  exact ⟨m, hrun, hstores.mapped⟩

/-- A log that is compacted from the third record on. -/
def eager : Trigger := ⟨3, 1⟩

/-- Commits with a compaction, a batch of which a crash leaves one record and a half, and a reopening. -/
def crashedBatch : List Event :=
  [.call (.commit "g" 1) none, .call (.commit "g" 2) none, .call (.commit "h" 3) none,
    .crash (.commitMany [("g", 5), ("h", 6)]) (.torn 20), .call (.restoreMany [⟨"h", none⟩]) none, .reopen]

/-- The hypothesis is satisfiable, and the offsets are the ones to expect. -/
theorem fetch_refines_mem_crashed_batch : (∃ m, MemRun ((fileMachine eager).trace (.open []) crashedBatch) m ∧
      ∀ group, ((fileMachine eager).final (.open []) crashedBatch).fetch group = m.fetch group) ∧
    ((fileMachine eager).final (.open []) crashedBatch).fetch "g" = some 5 ∧
    ((fileMachine eager).final (.open []) crashedBatch).fetch "h" = none :=
  ⟨fetch_refines_mem eager crashedBatch (by decide), by decide +kernel, by decide +kernel⟩

end Datarail.Offsets
