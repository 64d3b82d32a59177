/-
# Commits behind a failed one

A commit that the disk fails half way leaves the beginning of a record in the
log, and the store goes on appending behind it.  `open` stops there: what was
committed since, with `Ok`, is gone (`commit_behind_torn_record_lost`).

It is kept in every run in which each commit finds the log in order, or is the
one that compacts it (`Ready`): then what a group has after closing and opening
the store is what the last call that returned `Ok` gave it, or what a failed
call since may have written (`ok_commit_survives`).  A log is in order if the
handle is on it and it is whole records (`InOrder`); opening the store puts it
in order, and so does every rewriting of the log.

In the running process a call that fails is not seen, except for a commit that
fails when it compacts the log: `commit_many` has changed the map by then
(`failed_call_unseen_iff`).
-/

import Datarail.Offsets.Steps

namespace Datarail.Offsets

open Lib List FileOffsets

/-- What a call assigns, one after the other. -/
def Call.updates : Call → List (String × Option UInt64)
  | .commit group offset => settings [(group, offset)]
  | .commitMany values => settings values
  | .restoreMany snapshots => snapshots.map fun snapshot => (snapshot.group, snapshot.offset)

/-- What a group may have after one more call, given what it may have had: what a call that returned `Ok`
gave it, or anything that a failed call may have written. -/
def candidatesAfter (group : String) (before : List (Option UInt64)) :
    Event × Option (Except IoError Unit) → List (Option UInt64)
  | (.call c _, some (.ok _)) => ((latest c.updates group).map fun v => [v]).getD before
  | (.call c _, some (.error _)) => before ++ (c.updates.filter fun u => u.1 = group).map Prod.snd
  | _ => before

/-- What a group may have after a history of calls and answers. -/
def candidates (group : String) (history : List (Event × Option (Except IoError Unit))) : List (Option UInt64) :=
  history.foldl (candidatesAfter group) [none]

namespace FileOffsets

/-- The handle is on the log, and the log is whole records. -/
def InOrder (f : FileOffsets) : Prop := f.attached = true ∧ recordCodec.tail f.log = []

instance (f : FileOffsets) : Decidable f.InOrder := inferInstanceAs (Decidable (_ ∧ _))

/-- With that many more records the log has outgrown its groups, and the disk does not fail. -/
def Compacts (T : Trigger) (f : FileOffsets) (values : List (String × UInt64)) (fault : Option Fault) : Prop :=
  fault = none ∧ ¬ (f.records + values.length < T.minRecords ∨
    f.records + values.length ≤ T.growthFactor * max (insertAll f.map values).entries.length 1)

instance (T : Trigger) (f : FileOffsets) (values : List (String × UInt64)) (fault : Option Fault) :
    Decidable (f.Compacts T values fault) := inferInstanceAs (Decidable (_ ∧ _))

/-- A commit finds the log in order or rewrites it; no process dies. -/
def Ready (T : Trigger) (f : FileOffsets) : Event → Prop
  | .call (.commit group offset) fault => f.InOrder ∨ f.Compacts T [(group, offset)] fault
  | .call (.commitMany values) fault => f.InOrder ∨ f.Compacts T values fault
  | .call (.restoreMany _) _ => True
  | .crash _ _ => False
  | .reopen => True

instance (T : Trigger) (f : FileOffsets) : ∀ e, Decidable (f.Ready T e)
  | .call (.commit _ _) _ => inferInstanceAs (Decidable (_ ∨ _))
  | .call (.commitMany _) _ => inferInstanceAs (Decidable (_ ∨ _))
  | .call (.restoreMany _) _ => inferInstanceAs (Decidable True)
  | .crash _ _ => inferInstanceAs (Decidable False)
  | .reopen => inferInstanceAs (Decidable True)

end FileOffsets

/-- The map and the log of a store give every group one of its candidates. -/
structure Keeps (may : String → List (Option UInt64)) (f : FileOffsets) : Prop where
  named : Named f.map
  mapped : ∀ group, f.map.lookup group ∈ may group
  logged : ∀ group, (logged f.log).lookup group ∈ may group

namespace Keeps

variable {may may' : String → List (Option UInt64)} {f : FileOffsets}

theorem mono (h : Keeps may f) (hsub : ∀ group, may group ⊆ may' group) : Keeps may' f where
  named := h.named
  mapped group := hsub group (h.mapped group)
  logged group := hsub group (h.logged group)

theorem reopen (h : Keeps may f) : Keeps may (.open f.log) := by
  have hrecords := (Codec.records_frames (K := recordCodec) (recordCodec.fits_records f.log) Codec.parse_nil).1
  rw [append_nil] at hrecords
  rw [open_eq]
  refine ⟨named_logged f.log, h.logged, fun group => ?_⟩
  rw [Offsets.logged, hrecords]
  exact h.logged group

/-- The log becomes a map's records. -/
theorem rewritten {map map' : OffsetMap} (hnamed : Named map) (hmap : ∀ group, map.lookup group ∈ may group)
    (hnamed' : Named map') (hmap' : ∀ group, map'.lookup group ∈ may group) (attached : Bool) (records : ℕ) :
    Keeps may ⟨recordCodec.frames (entriesOf map), attached, map', records⟩ where
  named := hnamed'
  mapped := hmap'
  logged group := by
    rw [lookup_logged_entriesOf (named_iff.1 hnamed)]
    exact hmap group

end Keeps

section Candidates

variable {group : String} {before : List (Option UInt64)} {c : Call} {fault : Option Fault} {v : Option UInt64}

/-- What the first assignments of a failed call leave is a candidate. -/
theorem assigned_mem_error {us : List (String × Option UInt64)} (hus : us ⊆ c.updates)
    (hv : v ∈ before) (e : IoError) :
    (latest us group).getD v ∈ candidatesAfter group before (.call c fault, some (.error e)) := by
  rcases hlatest : latest us group with _ | v'
  · exact mem_append_left _ hv
  · refine mem_append_right _ (mem_map.2 ⟨(group, v'), ?_, rfl⟩)
    exact mem_filter.2 ⟨hus (mem_of_latest hlatest), decide_eq_true rfl⟩

/-- What all assignments of a call leave is a candidate, whatever it answers. -/
theorem assigned_mem (hv : v ∈ before) (answer : Except IoError Unit) :
    (latest c.updates group).getD v ∈ candidatesAfter group before (.call c fault, some answer) := by
  cases answer with
  | error e => exact assigned_mem_error (Subset.refl _) hv e
  | ok u =>
    rw [candidatesAfter]
    rcases latest c.updates group with _ | v'
    · exact hv
    · exact mem_singleton_self v'

theorem subset_error (e : IoError) : before ⊆ candidatesAfter group before (.call c fault, some (.error e)) :=
  fun _ => mem_append_left _

end Candidates

section Steps

variable {may : String → List (Option UInt64)} {f : FileOffsets} {fault : Option Fault}

/-- The candidates after a call. -/
def mayAfter (may : String → List (Option UInt64)) (c : Call) (fault : Option Fault)
    (answer : Except IoError Unit) : String → List (Option UInt64) :=
  fun group => candidatesAfter group (may group) (.call c fault, some answer)

theorem Keeps.restoreMany (h : Keeps may f) (snapshots : List OffsetSnapshot) :
    Keeps (mayAfter may (.restoreMany snapshots) fault (f.restoreMany snapshots fault).2)
      (f.restoreMany snapshots fault).1 := by
  have hmap : ∀ answer group, (restored f.map snapshots).lookup group ∈
      mayAfter may (.restoreMany snapshots) fault answer group := by
    intro answer group
    rw [restored_eq, lookup_assignAll]
    exact assigned_mem (c := .restoreMany snapshots) (h.mapped group) answer
  have hold : ∀ e, Keeps (mayAfter may (.restoreMany snapshots) fault (.error e)) f := fun e =>
    h.mono fun group => subset_error e
  rw [FileOffsets.restoreMany]
  rcases rewriteMap_cases f (restored f.map snapshots) (Fault.onRewrite fault) with
    ⟨e, heq, -⟩ | ⟨hnamed, ⟨-, heq⟩ | ⟨-, heq⟩ | ⟨-, heq⟩⟩
  · rw [heq]
    exact hold e
  · rw [heq]
    exact .rewritten hnamed (hmap _) h.named (hold .disk).mapped _ _
  · rw [heq]
    exact .rewritten hnamed (hmap _) h.named (hold .disk).mapped _ _
  · rw [heq]
    exact .rewritten hnamed (hmap _) hnamed (hmap _) _ _

variable {values : List (String × UInt64)} {c : Call}

/-- The log with the first records of a call, and no more than a tail behind them. -/
theorem Keeps.torn (h : Keeps may f) (hready : f.InOrder)
    (hc : c.updates = settings values) (hfits : ∀ value ∈ values, NameFits value.1) (n : ℕ) (e : IoError) :
    Keeps (mayAfter may c fault (.error e)) (f.write ((recordCodec.frames values).take n)) := by
  obtain ⟨k, t, htake, ht⟩ := Codec.exists_take_frames (K := recordCodec) hfits n
  have hold : Keeps (mayAfter may c fault (.error e)) f := h.mono fun group => subset_error e
  rw [write, if_pos hready.1, htake]
  refine ⟨hold.named, hold.mapped, fun group => ?_⟩
  have hfits' : ∀ value ∈ values.take k, NameFits value.1 := fun value hvalue =>
    hfits value (mem_of_mem_take hvalue)
  rw [logged_append hready.2 hfits' ht, insertAll_eq, lookup_assignAll]
  refine assigned_mem_error ?_ (h.logged group) e
  rw [hc]
  exact map_subset _ (take_subset k values)

/-- What the records of a call give the groups of a map is a candidate. -/
theorem insertAll_mem {map : OffsetMap} (hmap : ∀ group, map.lookup group ∈ may group)
    (hc : c.updates = settings values) (answer : Except IoError Unit)
    (group : String) : (insertAll map values).lookup group ∈ mayAfter may c fault answer group := by
  rw [insertAll_eq, lookup_assignAll, ← hc]
  exact assigned_mem (hmap group) answer

/-- The store once the records are written and synced, if its log was in order. -/
theorem Keeps.recorded (h : Keeps may f) (hready : f.InOrder)
    (hc : c.updates = settings values) (hfits : ∀ value ∈ values, NameFits value.1)
    (answer : Except IoError Unit) :
    Keeps (mayAfter may c fault answer) (f.recorded values (recordCodec.frames values)) := by
  refine ⟨h.named.insertAll hfits, insertAll_mem h.mapped hc answer, fun group => ?_⟩
  have hlog : (f.recorded values (recordCodec.frames values)).log = f.log ++ (recordCodec.frames values ++ []) := by
    rw [append_nil]
    change (f.write _).log = _
    rw [write, if_pos hready.1]
  rw [hlog, logged_append hready.2 hfits Codec.parse_nil]
  exact insertAll_mem h.logged hc answer group

/-- **Commits keep the candidates**, if they find the log in order or rewrite it. -/
theorem Keeps.commitMany (h : Keeps may f) (T : Trigger)
    (hc : c.updates = settings values) (hready : f.InOrder ∨ f.Compacts T values fault) :
    Keeps (mayAfter may c fault (f.commitMany T values fault).2) (f.commitMany T values fault).1 := by
  rcases commitMany_cases T f values fault with ⟨-, heq⟩ | ⟨hfits, ⟨n, hfault, heq⟩ | ⟨-, heq⟩⟩
  · rw [heq]
    exact h.mono fun group => subset_error _
  · rw [heq]
    exact h.torn (hready.resolve_right fun hcompacts => hfault (.inl hcompacts.1)) hc hfits n _
  · rw [heq, maybeCompact]
    have hnamed : Named (insertAll f.map values) := h.named.insertAll hfits
    split_ifs with hout
    · change Keeps (mayAfter may c fault (rewriteMap _ (insertAll f.map values) _).2)
        (rewriteMap _ (insertAll f.map values) _).1
      rcases rewriteMap_cases (f.recorded values (recordCodec.frames values)) (insertAll f.map values)
        (Fault.onRewrite fault) with ⟨e, heq', herr⟩ | ⟨-, ⟨-, heq'⟩ | ⟨-, heq'⟩ | ⟨-, heq'⟩⟩
      · have horder : f.InOrder := hready.resolve_right fun hcompacts =>
          (herr (by rw [hcompacts.1]; rfl)).1 hnamed
        rw [heq']
        exact h.recorded horder hc hfits _
      all_goals
        rw [heq']
        exact .rewritten hnamed (insertAll_mem h.mapped hc _) hnamed (insertAll_mem h.mapped hc _) _ _
    · exact h.recorded (hready.resolve_right fun hcompacts => hout hcompacts.2) hc hfits _

end Steps

section Runs

variable (T : Trigger)

/-- What an event assigns. -/
def Event.updates : Event → List (String × Option UInt64)
  | .call c _ => c.updates
  | _ => []

/-- What a group is given in some events. -/
def givenIn (group : String) (events : List Event) : List (Option UInt64) :=
  ((events.flatMap Event.updates).filter fun u => u.1 = group).map Prod.snd

theorem givenIn_cons (group : String) (e : Event) (events : List Event) :
    givenIn group (e :: events) = givenIn group [e] ++ givenIn group events := by
  rw [givenIn, givenIn, givenIn, ← map_append, ← filter_append, ← flatMap_append]
  rfl

theorem candidatesAfter_subset (group : String) (before : List (Option UInt64))
    (entry : Event × Option (Except IoError Unit)) :
    candidatesAfter group before entry ⊆ before ++ givenIn group [entry.1] := by
  obtain ⟨e, answer⟩ := entry
  intro v hv
  rcases e with ⟨c, fault⟩ | ⟨c, fate⟩ | _
  · have hgiven : givenIn group [.call c fault] = (c.updates.filter fun u => u.1 = group).map Prod.snd := by
      rw [givenIn, flatMap_cons, flatMap_nil, append_nil]
      rfl
    rcases answer with _ | (e | u)
    · exact mem_append_left _ hv
    · rw [hgiven]
      exact hv
    · rw [candidatesAfter] at hv
      rcases hlatest : latest c.updates group with _ | v'
      · rw [hlatest] at hv
        exact mem_append_left _ hv
      · rw [hlatest] at hv
        obtain rfl := mem_singleton.1 hv
        rw [hgiven]
        refine mem_append_right _ (mem_map.2 ⟨(group, v), ?_, rfl⟩)
        exact mem_filter.2 ⟨mem_of_latest hlatest, decide_eq_true rfl⟩
  · exact mem_append_left _ hv
  · exact mem_append_left _ hv

/-- A history gives a group nothing but what its events give it. -/
theorem foldl_candidates_subset (group : String) (before : List (Option UInt64))
    (history : List (Event × Option (Except IoError Unit))) :
    history.foldl (candidatesAfter group) before ⊆ before ++ givenIn group (history.map Prod.fst) := by
  induction history generalizing before with
  | nil => exact subset_append_left _ _
  | cons entry history ih =>
    intro v hv
    rw [map_cons, givenIn_cons]
    rcases mem_append.1 (ih _ hv) with hv | hv
    · rw [← append_assoc]
      exact mem_append_left _ (candidatesAfter_subset group before entry hv)
    · exact mem_append_right _ (mem_append_right _ hv)

/-- The candidates of a run are kept. -/
theorem keeps_run (events : List Event) (hready : (fileMachine T).Guarded (FileOffsets.Ready T) (.open []) events) :
    Keeps (fun group => candidates group ((fileMachine T).trace (.open []) events))
      ((fileMachine T).final (.open []) events) := by
  have hnew : Keeps (fun group => candidates group []) (.open []) :=
    ⟨named_logged [], fun _ => mem_singleton_self none, fun _ => mem_singleton_self none⟩
  refine (fileMachine T).invariant_of_step (FileOffsets.Ready T)
    (fun history f => Keeps (fun group => candidates group history) f) ?_ (.open []) events [] hready hnew
  intro history f e hok h
  simp only [candidates, foldl_append, foldl_cons, foldl_nil] at h ⊢
  rcases e with ⟨c, fault⟩ | ⟨c, fate⟩ | _
  · cases c with
    | commit group offset => exact h.commitMany T (c := .commit group offset) rfl hok
    | commitMany values => exact h.commitMany T (c := .commitMany values) rfl hok
    | restoreMany snapshots => exact h.restoreMany snapshots
  · exact hok.elim
  · exact h.reopen

/-- **A commit that returned `Ok` survives.**  In every run in which each commit finds the log in order or
compacts it, what a call that returned `Ok` gave a group is what the group has when the store is closed and
opened again, unless a later call gave it something else. -/
theorem ok_commit_survives (before after : List Event) (c : Call) (fault : Option Fault)
    (hready : (fileMachine T).Guarded (FileOffsets.Ready T) (.open []) (before ++ .call c fault :: after))
    (hok : ((fileMachine T).step ((fileMachine T).final (.open []) before) (.call c fault)).2 = some (.ok ()))
    {group : String} {v : Option UInt64} (hv : latest c.updates group = some v) :
    (FileOffsets.open ((fileMachine T).final (.open []) (before ++ .call c fault :: after)).log).fetch group ∈
      v :: givenIn group after := by
  have hkept := (keeps_run T _ hready).reopen.mapped group
  rw [Machine.trace_append, Machine.trace_cons, hok, candidates, foldl_append, foldl_cons] at hkept
  have hone : ∀ may, candidatesAfter group may (.call c fault, some (.ok ())) = [v] := fun may => by
    rw [candidatesAfter, hv]
    rfl
  rw [hone] at hkept
  have hmem := foldl_candidates_subset group [v] _ hkept
  rwa [Machine.map_fst_trace] at hmem

/-- A commit fails after one byte, the store is opened again, and two commits follow of which one fails. -/
theorem ok_commit_survives_reopened : (FileOffsets.open ((fileMachine compaction).final (.open [])
      [.call (.commit "g" 1) (some (.write 1)), .reopen, .call (.commit "g" 2) none,
        .call (.commit "h" 3) (some .sync)]).log).fetch "g" ∈ [some 2] :=
  ok_commit_survives compaction [.call (.commit "g" 1) (some (.write 1)), .reopen]
    [.call (.commit "h" 3) (some .sync)] (.commit "g" 2) none (by decide +kernel) (by decide +kernel)
    (by decide +kernel)

/-- **An `Ok` that is lost.**  A commit fails after one byte of its record; the next one returns `Ok`, and is
gone when the store is opened again. -/
theorem commit_behind_torn_record_lost :
    let events : List Event := [.call (.commit "g" 1) (some (.write 1)), .call (.commit "g" 2) none]
    ((fileMachine compaction).trace (.open []) events).map Prod.snd = [some (.error .disk), some (.ok ())] ∧
    ((fileMachine compaction).final (.open []) events).fetch "g" = some 2 ∧
    (FileOffsets.open ((fileMachine compaction).final (.open []) events).log).fetch "g" = none := by
  decide +kernel

end Runs

section Running

variable (T : Trigger) (f : FileOffsets)

/-- Rewriting the log fails and leaves the map alone, or succeeds. -/
theorem rewriteMap_failed (map : OffsetMap) (fault : Option RewriteFault) :
    ((fault ≠ none ∨ ¬ Named map) ∧ (∃ e, (f.rewriteMap map fault).2 = .error e) ∧
      (f.rewriteMap map fault).1.map = f.map) ∨
    (fault = none ∧ Named map ∧ (f.rewriteMap map fault).2 = .ok ()) := by
  rcases rewriteMap_cases f map fault with ⟨e, heq, herr⟩ | ⟨hnamed, ⟨hfault, heq⟩ | ⟨hfault, heq⟩ | ⟨hfault, heq⟩⟩
  · refine .inl ⟨?_, ⟨e, by rw [heq]⟩, by rw [heq]⟩
    by_cases hfault : fault = none
    · exact .inr (herr hfault).1
    · exact .inl hfault
  · exact .inl ⟨.inl (by rw [hfault]; nofun), ⟨.disk, by rw [heq]⟩, by rw [heq]⟩
  · exact .inl ⟨.inl (by rw [hfault]; nofun), ⟨.disk, by rw [heq]⟩, by rw [heq]⟩
  · exact .inr ⟨hfault, hnamed, by rw [heq]⟩

/-- The records of a commit are in the log, the log is to be compacted and cannot be: the disk fails, or the
map has a name that cannot be written. -/
def FileOffsets.StopsInCompaction (values : List (String × UInt64)) (fault : Option Fault) : Prop :=
  (∀ value ∈ values, NameFits value.1) ∧ (fault = none ∨ ∃ at', fault = some (.rewrite at')) ∧
    ¬ (f.records + values.length < T.minRecords ∨
      f.records + values.length ≤ T.growthFactor * max (insertAll f.map values).entries.length 1) ∧
    (Fault.onRewrite fault ≠ none ∨ ¬ Named (insertAll f.map values))

/-- A commit that fails has changed the map if it failed in the compaction, and not otherwise. -/
theorem commitMany_failed (values : List (String × UInt64)) (fault : Option Fault) :
    (f.StopsInCompaction T values fault ∧ (∃ e, (f.commitMany T values fault).2 = .error e) ∧
      (f.commitMany T values fault).1.map = insertAll f.map values) ∨
    (¬ f.StopsInCompaction T values fault ∧
      ((∃ e, (f.commitMany T values fault).2 = .error e) → (f.commitMany T values fault).1.map = f.map)) := by
  rcases commitMany_cases T f values fault with ⟨hfits, heq⟩ | ⟨hfits, ⟨n, hfault, heq⟩ | ⟨hfault, heq⟩⟩
  · exact .inr ⟨fun hstops => hfits hstops.1, fun _ => by rw [heq]⟩
  · exact .inr ⟨fun hstops => hfault hstops.2.1, fun _ => by rw [heq, write]; split_ifs <;> rfl⟩
  · rw [heq, maybeCompact]
    split_ifs with hout
    · rcases rewriteMap_failed (f.recorded values (recordCodec.frames values)) (insertAll f.map values)
        (Fault.onRewrite fault) with ⟨hstop, herr, hmap⟩ | ⟨hnone, hnamed, hok⟩
      · exact .inl ⟨⟨hfits, hfault, hout, hstop⟩, herr, hmap⟩
      · refine .inr ⟨fun hstops => hstops.2.2.2.elim (· hnone) (· hnamed), fun ⟨e, he⟩ => ?_⟩
        cases hok.symm.trans he
    · exact .inr ⟨fun hstops => hout hstops.2.2.1, fun ⟨e, he⟩ => by cases he⟩

/-- The records that a call appends. -/
def Call.appended : Call → List (String × UInt64)
  | .commit group offset => [(group, offset)]
  | .commitMany values => values
  | .restoreMany _ => []

/-- **A failed call is not seen in the running process**, whatever step of it failed, unless it is a commit
that gives a group something new and fails when it compacts the log. -/
theorem failed_call_unseen_iff (c : Call) (fault : Option Fault) :
    ((∃ e, (f.call T fault c).2 = .error e) → ∀ group, (f.call T fault c).1.fetch group = f.fetch group) ↔
      ¬ f.StopsInCompaction T c.appended fault ∨
        ∀ group, (insertAll f.map c.appended).lookup group = f.fetch group := by
  have hcommit : ∀ values, ((∃ e, (f.commitMany T values fault).2 = .error e) →
      ∀ group, (f.commitMany T values fault).1.fetch group = f.fetch group) ↔
      ¬ f.StopsInCompaction T values fault ∨ ∀ group, (insertAll f.map values).lookup group = f.fetch group := by
    intro values
    rcases commitMany_failed T f values fault with ⟨hstops, herr, hmap⟩ | ⟨hgoes, hmap⟩
    · simp only [herr, hstops, fetch, hmap, forall_const, not_true_eq_false, false_or]
    · exact ⟨fun _ => .inl hgoes, fun _ herr group => by rw [fetch, hmap herr]; rfl⟩
  cases c with
  | commit group offset => exact hcommit [(group, offset)]
  | commitMany values => exact hcommit values
  | restoreMany snapshots =>
    refine ⟨fun _ => .inr fun _ => rfl, fun _ ⟨e, he⟩ group => ?_⟩
    rcases rewriteMap_failed f (restored f.map snapshots) (Fault.onRewrite fault) with
      ⟨-, -, hmap⟩ | ⟨-, -, hok⟩
    · exact congrArg (AList.lookup group) hmap
    · cases hok.symm.trans he

/-- **A failed commit that is seen.**  One more record for a group that has 1023: the log is compacted, the new
file cannot be renamed, and the call fails with the new offset in the map. -/
theorem failed_compaction_is_seen :
    let f : FileOffsets := ⟨(replicate 1023 (recordBytes ("g", 1))).flatten, true, insertAll ∅ [("g", 1)], 1023⟩
    (f.commitMany compaction [("g", 2)] (some (.rewrite .rename))).2 = .error .disk ∧
    f.fetch "g" = some 1 ∧
    (f.commitMany compaction [("g", 2)] (some (.rewrite .rename))).1.fetch "g" = some 2 := by
  decide +kernel

end Running

end Datarail.Offsets
