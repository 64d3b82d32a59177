/-
# What a consumer group receives

The history of a server is what was asked and answered.  From it one reads what was produced, what each group has
committed and received, and the offsets that polls have returned.

`Sound` says how the state of a server goes with a history: the log holds what was produced, the store has what was
committed, these offsets are where records start or end, and each group stands before a record.  It needs that no
commit is at any other place (`Aligned`).  `Sound.step` keeps it, and `Sound.follow` says how a step moves a group:
by the records that the group receives in it.

`delivery` puts this together.  A group receives, from its first poll after a restart on, the records behind its
committed offset, without a gap; a poll without a member changes nothing; and what other groups do makes no
difference to what a group receives, which needs no condition on commits at all.
-/

import Datarail.Topics.Cursor

namespace Datarail.Topics

open Lib List Option AList Server Offsets
open Replaylog (ReplayLog wire)
open Offsets (FileOffsets MemOffsets Trigger Stores)

section History

/-- What was asked, and answered. -/
abbrev History := List (Event × Option Response)

/-- The record that an event adds. -/
def producedBy : Event → Option Response → List (Bytes × Bytes)
  | .request (.produce key payload) _, some (.produced _) => [(key, payload)]
  | _, _ => []

/-- The record that a group receives in an event. -/
def receivedBy (name : String) : Event → Option Response → List (Bytes × Bytes)
  | .request (.poll group) _, some (.record (some (_, key, payload))) => if group = name then [(key, payload)] else []
  | _, _ => []

/-- The offset that an event commits for a group. -/
def committedBy (name : String) : Event → Option Response → Option UInt64
  | .request (.commit group offset) _, some .committed => if group = name then some offset else none
  | _, _ => none

/-- The offset that a poll returns, at which the group goes on. -/
def returnedBy : Event → Option Response → Option ℕ
  | .request (.poll _) _, some (.record (some (offset, _, _))) => some offset
  | _, _ => none

/-- All that was produced. -/
def produced (h : History) : List (Bytes × Bytes) := h.flatMap fun x => producedBy x.1 x.2

/-- All that a group has received. -/
def received (name : String) (h : History) : List (Bytes × Bytes) := h.flatMap fun x => receivedBy name x.1 x.2

/-- The last offset that was committed for a group. -/
def committed (name : String) (h : History) : Option UInt64 := (h.filterMap fun x => committedBy name x.1 x.2).getLast?

/-- The offsets that polls have returned. -/
def returned (h : History) : List ℕ := h.filterMap fun x => returnedBy x.1 x.2

/-- The records as they are stored. -/
def stored (ps : List (Bytes × Bytes)) : List Bytes := ps.map fun p => recordOf p.1 p.2

/-- An offset at which a record starts, or the last one ends. -/
def Boundary (ps : List (Bytes × Bytes)) (offset : ℕ) : Prop := ∃ i ≤ ps.length, offset = offsetOf (stored ps) i

/-- A commit is at a boundary, if it is not behind the end of the topic. -/
def Aligned (ps : List (Bytes × Bytes)) : Event → Prop
  | .request (.commit _ offset) _ => offset.toNat ≤ offsetOf (stored ps) ps.length → Boundary ps offset.toNat
  | _ => True

end History

section Stored

variable {ps : List (Bytes × Bytes)}

@[simp] theorem length_stored (ps : List (Bytes × Bytes)) : (stored ps).length = ps.length := length_map _

theorem stored_append (ps qs : List (Bytes × Bytes)) : stored (ps ++ qs) = stored ps ++ stored qs := map_append

theorem Boundary.append {offset : ℕ} (h : Boundary ps offset) (qs : List (Bytes × Bytes)) :
    Boundary (ps ++ qs) offset := by
  obtain ⟨i, hi, rfl⟩ := h
  refine ⟨i, ?_, ?_⟩
  · rw [length_append]
    exact hi.trans (Nat.le_add_right _ _)
  · rw [stored_append, offsetOf_append (by rwa [length_stored])]

theorem wellFormed_stored (h : ∀ p ∈ ps, p.1.length < 2 ^ 32) : WellFormed (stored ps) := by
  intro x hx
  obtain ⟨p, hp, rfl⟩ := mem_map.1 hx
  exact ⟨p, splitRecord_recordOf (h p hp) p.2⟩

/-- The record with a number is the one that was produced. -/
theorem eq_of_stored (h : ∀ p ∈ ps, p.1.length < 2 ^ 32) {i : ℕ} {x : Bytes} {record : Bytes × Bytes}
    (hx : (stored ps)[i]? = some x) (hsplit : splitRecord x = some record) : ps[i]? = some record := by
  rw [stored, getElem?_map, map_eq_some_iff] at hx
  obtain ⟨p, hp, rfl⟩ := hx
  rw [splitRecord_recordOf (h p (mem_of_getElem? hp))] at hsplit
  rw [hp, ← some.inj hsplit]

end Stored

/-- The state of a server after `ps` was produced, with the committed offsets `m`. -/
structure Sound (s : Server) (ps : List (Bytes × Bytes)) (m : MemOffsets) : Prop where
  log : HoldsAll s.topic.log (stored ps)
  keys : ∀ p ∈ ps, p.1.length < 2 ^ 32
  offsets : Stores s.offsets m
  boundary : ∀ group offset, m.map.lookup group = some offset → Boundary ps offset.toNat
  groups : ∀ group g, s.groups.lookup group = some g → ∃ i, At s.topic.log (stored ps) g i

/-- The step of a request is what `handle` does. -/
theorem step_request {T : Trigger} {s s' : Server} {req : Request} {short : ℕ} {a : Response}
    (h : s.handle T short req = (s', a)) : (serverMachine T).step s (.request req short) = (s', some a) := by
  simp only [serverMachine, h]

namespace Sound

variable {s : Server} {ps : List (Bytes × Bytes)} {m : MemOffsets}

theorem endOffset (h : Sound s ps m) : s.topic.endOffset = offsetOf (stored ps) ps.length := by
  obtain ⟨full, last, hl, hrs⟩ := h.log
  rw [Topic.endOffset, hl.writeOffset, offsetOf, ← length_stored, take_length, hrs, Codec.size_append]

variable {name : String}

/-- Where a group goes on that has not polled yet. -/
theorem at_new (h : Sound s ps m) (hnone : s.groups.lookup name = none) :
    ∃ i, At s.topic.log (stored ps) (s.groupFor name) i ∧
      offsetOf (stored ps) i = ((m.map.lookup name).map UInt64.toNat).getD 0 := by
  have hfetch : s.offsets.fetch name = m.map.lookup name := h.offsets.mapped name
  have hgroup : s.groupFor name = (Group.new [0]).seek (((m.map.lookup name).map UInt64.toNat).getD 0) := by
    rw [groupFor, hnone, ← hfetch]
  rw [hgroup]
  rcases hlookup : m.map.lookup name with _ | offset
  · exact ⟨0, ⟨Nat.zero_le _, rfl, nofun⟩, rfl⟩
  · obtain ⟨i, hi, heq⟩ := h.boundary name offset hlookup
    exact ⟨i, ⟨by rwa [length_stored], heq, nofun⟩, heq.symm⟩

theorem at_groupFor (h : Sound s ps m) (name : String) : ∃ i, At s.topic.log (stored ps) (s.groupFor name) i := by
  rcases hlookup : s.groups.lookup name with _ | g
  · obtain ⟨i, hat, -⟩ := h.at_new hlookup
    exact ⟨i, hat⟩
  · rw [groupFor, hlookup]
    exact h.groups name g hlookup

/-- **A produce** adds its record, or changes nothing. -/
theorem produce (h : Sound s ps m) (T : Trigger) (short : ℕ) (key payload : Bytes) :
    (∃ log offset, s.handle T short (.produce key payload) = ({ s with topic := ⟨log⟩ }, .produced offset) ∧
      key.length < 2 ^ 32 ∧ HoldsAll log (stored (ps ++ [(key, payload)])) ∧
      ∀ g i, At s.topic.log (stored ps) g i → At log (stored (ps ++ [(key, payload)])) g i) ∨
    ∃ e, s.handle T short (.produce key payload) = (s, .err e) ∧
      (2 ^ 32 ≤ key.length ∨ Replaylog.maxRecord < (recordOf key payload).length) := by
  by_cases hkey : 2 ^ 32 ≤ key.length
  · refine .inr ⟨.topic .corrupt, ?_, .inl hkey⟩
    simp only [handle, Topic.produce, if_pos hkey]
  · by_cases hlen : Replaylog.maxRecord < (recordOf key payload).length
    · have happ : s.topic.log.append .none (recordOf key payload) =
          (s.topic.log, .error (.tooLarge (recordOf key payload).length)) := if_pos hlen
      refine .inr ⟨.topic (.log (.tooLarge (recordOf key payload).length)), ?_, .inr hlen⟩
      simp only [handle, Topic.produce, if_neg hkey, happ]
    · obtain ⟨full, last, hl, hrs⟩ := h.log
      obtain ⟨l', full', last', happ, hl', hsame, hext⟩ := hl.append_none hlen
      have hl'' : Replaylog.Holds (l'.sync .none).1 full' last' [] := hl'.of_segments rfl rfl rfl rfl
      have hstored : stored (ps ++ [(key, payload)]) = stored ps ++ [recordOf key payload] := stored_append _ _
      refine .inl ⟨(l'.sync .none).1, s.topic.log.writeOffset, ?_, Nat.not_le.1 hkey, ?_, fun g i hat => ?_⟩
      · simp only [handle, Topic.produce, if_neg hkey, happ]
        rfl
      · exact ⟨full', last', hl'', by rw [hstored, hrs, hsame]⟩
      · rw [hstored]
        exact hat.grown fun r es hr => hr.grown hl hl'' hext

/-- **A poll** with a member returns the record before which the group stands, or nothing; the group stands behind
what was returned.  Without a member it is an error, and the group is as it was. -/
theorem poll (h : Sound s ps m) (T : Trigger) (short : ℕ) {i : ℕ}
    (hat : At s.topic.log (stored ps) (s.groupFor name) i) :
    (∃ g' record, s.handle T short (.poll name) =
        ({ s with groups := s.groups.insert name g' }, .record (some (offsetOf (stored ps) (i + 1), record))) ∧
      ps[i]? = some record ∧ At s.topic.log (stored ps) g' (i + 1) ∧ (s.groupFor name).router.nodes ≠ []) ∨
    (∃ g', s.handle T short (.poll name) = ({ s with groups := s.groups.insert name g' }, .record none) ∧
      At s.topic.log (stored ps) g' i ∧ g'.replay = none ∧ g'.router = (s.groupFor name).router ∧
      (s.groupFor name).router.nodes ≠ [] ∧ ((s.groupFor name).replay = none → i = ps.length)) ∨
    ((s.groupFor name).router.nodes = [] ∧ s.handle T short (.poll name) =
      ({ s with groups := s.groups.insert name (s.groupFor name) }, .err (.topic .noMembers))) := by
  by_cases hmembers : (s.groupFor name).router.nodes = []
  · refine .inr (.inr ⟨hmembers, ?_⟩)
    have hdispatch : s.topic.dispatchNext short (s.groupFor name) = (s.groupFor name, .error .noMembers) :=
      if_pos hmembers
    simp only [handle, hdispatch]
  · rcases hat.dispatchNext h.log (wellFormed_stored h.keys) hmembers short with
      ⟨g', x, d, hdispatch, hx, hsplit, hat', -⟩ | ⟨hdispatch, hend⟩
    · refine .inl ⟨g', (d.key, d.payload), ?_, eq_of_stored h.keys hx hsplit, hat', hmembers⟩
      simp only [handle, hdispatch, hat'.cursor]
    · refine .inr (.inl ⟨_, ?_, hat.forget, rfl, rfl, hmembers, fun hnone => ?_⟩)
      · change s.topic.dispatchNext short (s.groupFor name) = _ at hdispatch
        simp only [handle, hdispatch]
      · rw [hend hnone, length_stored]

/-- A commit of one offset. -/
theorem commit_eq {f : FileOffsets} {T : Trigger} {offset : UInt64} {out : Except IoError Unit}
    (h : (f.commitMany T [(name, offset)] none).2 = out) :
    f.commit T name offset none = ((f.commitMany T [(name, offset)] none).1, out) := Prod.ext rfl h

/-- **A commit** that is not behind the end is recorded, unless the name of the group is too long. -/
theorem commit (h : Sound s ps m) (T : Trigger) (short : ℕ) (name : String) (offset : UInt64) :
    (∃ offsets, s.handle T short (.commit name offset) = ({ s with offsets }, .committed) ∧
      offset.toNat ≤ offsetOf (stored ps) ps.length ∧ Stores offsets (m.commit name offset)) ∨
    (∃ offsets e, s.handle T short (.commit name offset) = ({ s with offsets }, .err e) ∧ Stores offsets m) := by
  by_cases htail : s.topic.endOffset < offset.toNat
  · refine .inr ⟨s.offsets, .pastTail, ?_, h.offsets⟩
    simp only [handle, if_pos htail]
  · rcases h.offsets.commitMany T [(name, offset)] with ⟨-, hok, hstores⟩ | ⟨-, herr, hstores⟩
    · refine .inl ⟨_, by rw [handle, if_neg htail, commit_eq hok], ?_, hstores⟩
      rw [← h.endOffset]
      exact Nat.not_lt.1 htail
    · exact .inr ⟨_, .offsets nameTooLong, by rw [handle, if_neg htail, commit_eq herr], hstores⟩

end Sound

section Groups

variable {s : Server} {name group : String}

theorem groupFor_of_lookup {g : Group} (h : s.groups.lookup name = some g) : s.groupFor name = g := by
  rw [groupFor, h]

theorem groupFor_insert (s : Server) (g : Group) (name group : String) :
    ({ s with groups := s.groups.insert group g } : Server).groupFor name =
      if name = group then g else s.groupFor name := by
  rw [groupFor, lookup_insert_ite]
  split_ifs with heq
  · rfl
  · rfl

/-- A change to a group: it is there as before, with other members. -/
theorem change_cases (s : Server) (group : String) (f : Group → Group) :
    (s.groups.lookup group = none ∧ s.change group f = s) ∨
      ∃ g, s.groups.lookup group = some g ∧ s.change group f = { s with groups := s.groups.insert group (f g) } := by
  rcases hlookup : s.groups.lookup group with _ | g
  · exact .inl ⟨rfl, by rw [change, hlookup]⟩
  · exact .inr ⟨g, rfl, by rw [change, hlookup]⟩

/-- A produce changes the topic only. -/
theorem handle_produce (s : Server) (T : Trigger) (short : ℕ) (key payload : Bytes) :
    ∃ topic, (s.handle T short (.produce key payload)).1 = { s with topic } := by
  rw [handle]
  rcases s.topic.produce key payload with ⟨topic, e | offset⟩
  · exact ⟨topic, rfl⟩
  · rcases hsync : topic.sync with ⟨topic', e | ⟨⟩⟩
    · exact ⟨topic', by simp only [hsync]⟩
    · exact ⟨topic', by simp only [hsync]⟩

/-- A poll changes its group only. -/
theorem handle_poll (s : Server) (T : Trigger) (short : ℕ) (group : String) :
    ∃ g, (s.handle T short (.poll group)).1 = { s with groups := s.groups.insert group g } := by
  rw [handle]
  rcases hdispatch : s.topic.dispatchNext short (s.groupFor group) with ⟨g, e | _ | d⟩
  · exact ⟨g, by simp only⟩
  · exact ⟨g, by simp only⟩
  · exact ⟨g, by simp only⟩

/-- A commit changes the offsets only. -/
theorem handle_commit (s : Server) (T : Trigger) (short : ℕ) (group : String) (offset : UInt64) :
    ∃ offsets, (s.handle T short (.commit group offset)).1 = { s with offsets } := by
  rw [handle]
  split_ifs
  · exact ⟨s.offsets, rfl⟩
  · rcases s.offsets.commit T group offset none with ⟨offsets, e | ⟨⟩⟩
    · exact ⟨offsets, rfl⟩
    · exact ⟨offsets, rfl⟩

/-- What an event does to a group that is there and not polled. -/
def Event.regroup (name : String) : Event → Group → Group
  | .join group id, g => if group = name then g.addMember id else g
  | .leave group id, g => if group = name then g.removeMember id else g
  | _, g => g

theorem lookup_change (s : Server) (group name : String) (f : Group → Group) :
    (s.change group f).groups.lookup name = (s.groups.lookup name).map fun g => if group = name then f g else g := by
  by_cases hname : group = name
  · subst hname
    rcases change_cases s group f with ⟨hnone, heq⟩ | ⟨g, hg, heq⟩
    · rw [heq, hnone, Option.map_none]
    · rw [heq, hg, Option.map_some, if_pos rfl]
      exact lookup_insert _
  · simp only [if_neg hname, Option.map_id']
    rcases change_cases s group f with ⟨-, heq⟩ | ⟨g, -, heq⟩
    · rw [heq]
    · rw [heq]
      exact lookup_insert_ne (Ne.symm hname)

/-- **A group that is not polled** changes its members at most. -/
theorem lookup_step {T : Trigger} {e : Event} (hpoll : ∀ short, e ≠ .request (.poll name) short)
    (hrestart : ∀ n, e ≠ .restart n) :
    ((serverMachine T).step s e).1.groups.lookup name = (s.groups.lookup name).map (e.regroup name) := by
  cases e with
  | request req short =>
    refine Eq.trans ?_ Option.map_id'.symm
    change (s.handle T short req).1.groups.lookup name = _
    cases req with
    | produce key payload =>
      obtain ⟨topic, heq⟩ := handle_produce s T short key payload
      rw [heq]
    | poll group =>
      obtain ⟨g, heq⟩ := handle_poll s T short group
      rw [heq]
      exact lookup_insert_ne fun hname => hpoll short (by rw [hname])
    | commit group offset =>
      obtain ⟨offsets, heq⟩ := handle_commit s T short group offset
      rw [heq]
  | join group id => exact lookup_change s group name _
  | leave group id => exact lookup_change s group name _
  | restart n => exact absurd rfl (hrestart n)

theorem topic_change (s : Server) (group : String) (f : Group → Group) : (s.change group f).topic = s.topic := by
  rcases change_cases s group f with ⟨-, heq⟩ | ⟨g, -, heq⟩ <;> rw [heq]

theorem receivedBy_eq_nil {e : Event} (hpoll : ∀ short, e ≠ .request (.poll name) short) (a : Option Response) :
    receivedBy name e a = [] := by
  unfold receivedBy
  split
  · exact if_neg fun hname => hpoll _ (by rw [hname])
  · rfl

theorem At.regroup {l : ReplayLog} {rs : List Bytes} {g : Group} {i : ℕ} (h : At l rs g i) (e : Event) (name : String) :
    At l rs (e.regroup name g) i := by
  unfold Event.regroup
  split
  · split_ifs <;> exact { h with }
  · split_ifs <;> exact { h with }
  · exact h

end Groups

namespace Sound

variable {s : Server} {ps : List (Bytes × Bytes)} {m : MemOffsets} {i : ℕ}

/-- One more group, or another state of one. -/
theorem insert (h : Sound s ps m) {name : String} {g : Group} (hat : At s.topic.log (stored ps) g i) :
    Sound { s with groups := s.groups.insert name g } ps m where
  log := h.log
  keys := h.keys
  offsets := h.offsets
  boundary := h.boundary
  groups group g' hg' := by
    rw [lookup_insert_ite] at hg'
    split_ifs at hg' with heq
    · obtain rfl := some.inj hg'
      exact ⟨i, hat⟩
    · exact h.groups group g' hg'

theorem change (h : Sound s ps m) (group : String) {f : Group → Group}
    (hf : ∀ g i, At s.topic.log (stored ps) g i → At s.topic.log (stored ps) (f g) i) : Sound (s.change group f) ps m := by
  rcases change_cases s group f with ⟨-, heq⟩ | ⟨g, hg, heq⟩
  · rw [heq]
    exact h
  · rw [heq]
    obtain ⟨i, hat⟩ := h.groups group g hg
    exact h.insert (hf g i hat)

theorem restart (h : Sound s ps m) (segmentBytes : ℕ) : Sound (s.restart segmentBytes) ps m where
  log := by
    obtain ⟨full, last, hl, hrs⟩ := h.log
    exact ⟨full, last, Replaylog.holds_open hl.layout segmentBytes, hrs⟩
  keys := h.keys
  offsets := h.offsets.reopen
  boundary := h.boundary
  groups group g hg := by
    change (∅ : AList fun _ : String => Group).lookup group = some g at hg
    cases hg

variable {e : Event}

/-- **Every step keeps the state sound**, adds what it produces, and records what it commits. -/
theorem step (h : Sound s ps m) (T : Trigger) (haligned : Aligned ps e) :
    ∃ m', Sound ((serverMachine T).step s e).1 (ps ++ producedBy e ((serverMachine T).step s e).2) m' ∧
      (∀ name, m'.map.lookup name = (committedBy name e ((serverMachine T).step s e).2).or (m.map.lookup name)) ∧
      ∀ o, returnedBy e ((serverMachine T).step s e).2 = some o →
        Boundary (ps ++ producedBy e ((serverMachine T).step s e).2) o := by
  have hsame : ∀ {s' : Server} {m' : MemOffsets}, Sound s' ps m' → Sound s' (ps ++ []) m' := fun hs => by
    rwa [append_nil]
  cases e with
  | request req short =>
    cases req with
    | produce key payload =>
      rcases h.produce T short key payload with ⟨log, offset, heq, hkey, hlog, hgrown⟩ | ⟨e, heq, -⟩
      · rw [step_request heq]
        refine ⟨m, ⟨hlog, forall_mem_append.2 ⟨h.keys, forall_mem_singleton.2 hkey⟩, h.offsets,
          fun group o ho => (h.boundary group o ho).append _, fun group g hg => ?_⟩, fun name => rfl, nofun⟩
        obtain ⟨i, hat⟩ := h.groups group g hg
        exact ⟨i, hgrown g i hat⟩
      · rw [step_request heq]
        exact ⟨m, hsame h, fun name => rfl, nofun⟩
    | poll name =>
      obtain ⟨i, hat⟩ := h.at_groupFor name
      rcases h.poll T short hat with ⟨g', record, heq, hrecord, hat', -⟩ | ⟨g', heq, hat', -⟩ | ⟨-, heq⟩
      · rw [step_request heq]
        refine ⟨m, hsame (h.insert hat'), fun name => rfl, fun o ho => ?_⟩
        obtain rfl := some.inj ho
        change Boundary (ps ++ []) _
        rw [append_nil]
        exact ⟨i + 1, by have := hat'.le; rwa [length_stored] at this, rfl⟩
      · rw [step_request heq]
        exact ⟨m, hsame (h.insert hat'), fun name => rfl, nofun⟩
      · rw [step_request heq]
        exact ⟨m, hsame (h.insert hat), fun name => rfl, nofun⟩
    | commit name offset =>
      rcases h.commit T short name offset with ⟨offsets, heq, hle, hstores⟩ | ⟨offsets, e, heq, hstores⟩
      · rw [step_request heq]
        refine ⟨m.commit name offset, hsame ⟨h.log, h.keys, hstores, fun group o ho => ?_, h.groups⟩, fun name' => ?_,
          nofun⟩
        · change (m.map.insert name offset).lookup group = some o at ho
          rw [lookup_insert_ite] at ho
          split_ifs at ho with hgroup
          · obtain rfl := some.inj ho
            exact haligned hle
          · exact h.boundary group o ho
        · change (m.map.insert name offset).lookup name' = (if name = name' then some offset else none).or _
          rw [lookup_insert_ite]
          by_cases hname : name = name'
          · rw [if_pos hname.symm, if_pos hname, some_or]
          · rw [if_neg (Ne.symm hname), if_neg hname, none_or]
      · rw [step_request heq]
        exact ⟨m, hsame ⟨h.log, h.keys, hstores, h.boundary, h.groups⟩, fun name => rfl, nofun⟩
  | join group id => exact ⟨m, hsame (h.change group fun g i hat => { hat with }), fun name => rfl, nofun⟩
  | leave group id => exact ⟨m, hsame (h.change group fun g i hat => { hat with }), fun name => rfl, nofun⟩
  | restart segmentBytes => exact ⟨m, hsame (h.restart segmentBytes), fun name => rfl, nofun⟩

/-- What a step adds to the log does not move a group. -/
theorem carried (h : Sound s ps m) (T : Trigger) (hrestart : ∀ n, e ≠ .restart n) {g : Group}
    (hat : At s.topic.log (stored ps) g i) : At ((serverMachine T).step s e).1.topic.log
      (stored (ps ++ producedBy e ((serverMachine T).step s e).2)) g i := by
  have hsame : ∀ {topic : Topic}, topic = s.topic → At topic.log (stored (ps ++ [])) g i := by
    rintro _ rfl
    rwa [append_nil]
  cases e with
  | request req short =>
    cases req with
    | produce key payload =>
      rcases h.produce T short key payload with ⟨log, offset, heq, -, -, hgrown⟩ | ⟨e, heq, -⟩
      · rw [step_request heq]
        exact hgrown g i hat
      · rw [step_request heq]
        exact hsame rfl
    | poll group =>
      obtain ⟨g', heq⟩ := handle_poll s T short group
      have htopic := congrArg Server.topic heq
      exact hsame htopic
    | commit group offset =>
      obtain ⟨offsets, heq⟩ := handle_commit s T short group offset
      have htopic := congrArg Server.topic heq
      exact hsame htopic
  | join group id => exact hsame (topic_change s group _)
  | leave group id => exact hsame (topic_change s group _)
  | restart n => exact absurd rfl (hrestart n)

/-- **How a step moves a group**: by what the group receives in it, which is the record before which it stood. -/
theorem follow (h : Sound s ps m) (T : Trigger) {name : String}
    (hat : At s.topic.log (stored ps) (s.groupFor name) i) (hrestart : ∀ n, e ≠ .restart n)
    (hthere : (s.groups.lookup name).isSome = true ∨ ∃ short, e = .request (.poll name) short) :
    (((serverMachine T).step s e).1.groups.lookup name).isSome = true ∧
      At ((serverMachine T).step s e).1.topic.log (stored (ps ++ producedBy e ((serverMachine T).step s e).2))
        (((serverMachine T).step s e).1.groupFor name) (i + (receivedBy name e ((serverMachine T).step s e).2).length) ∧
      receivedBy name e ((serverMachine T).step s e).2 =
        (ps.drop i).take (receivedBy name e ((serverMachine T).step s e).2).length := by
  by_cases hpoll : ∃ short, e = .request (.poll name) short
  · obtain ⟨short, rfl⟩ := hpoll
    have hself : ∀ {g : Group} {j : ℕ}, At s.topic.log (stored ps) g j →
        ((s.groups.insert name g).lookup name).isSome = true ∧ At s.topic.log (stored (ps ++ []))
          (({ s with groups := s.groups.insert name g } : Server).groupFor name) j := fun {g j} hg =>
      ⟨by rw [lookup_insert]; rfl, by rwa [groupFor_insert, if_pos rfl, append_nil]⟩
    rcases h.poll T short hat with ⟨g', record, heq, hrecord, hat', -⟩ | ⟨g', heq, hat', -⟩ | ⟨-, heq⟩
    · have hreceived : receivedBy name (.request (.poll name) short)
          (some (.record (some (offsetOf (stored ps) (i + 1), record)))) = [record] := if_pos rfl
      rw [step_request heq, hreceived]
      obtain ⟨hlt, hget⟩ := List.getElem?_eq_some_iff.1 hrecord
      exact ⟨(hself hat').1, (hself hat').2, by rw [drop_eq_getElem_cons hlt, hget]; rfl⟩
    · rw [step_request heq]
      exact ⟨(hself hat').1, (hself hat').2, rfl⟩
    · rw [step_request heq]
      exact ⟨(hself hat).1, (hself hat).2, rfl⟩
  · -- the group receives nothing, and only its members may change
    have hnot : ∀ short, e ≠ .request (.poll name) short := fun short heq => hpoll ⟨short, heq⟩
    obtain ⟨g, hg⟩ := isSome_iff_exists.1 (hthere.resolve_right hpoll)
    have hlookup := lookup_step (s := s) (T := T) hnot hrestart
    rw [hg, Option.map_some] at hlookup
    rw [receivedBy_eq_nil hnot, groupFor_of_lookup hlookup, hlookup]
    rw [groupFor_of_lookup hg] at hat
    exact ⟨rfl, h.carried T hrestart (hat.regroup e name), rfl⟩

end Sound

/-- A server with its history. -/
def logged (T : Trigger) : Machine (Server × History) Event (Option Response) where
  step x e := ((((serverMachine T).step x.1 e).1, x.2 ++ [(e, ((serverMachine T).step x.1 e).2)]),
    ((serverMachine T).step x.1 e).2)

/-- A new server, to which nothing has happened. -/
def unused (segmentBytes : ℕ) : Server × History := (fresh segmentBytes, [])

/-- A commit is at an offset that a poll has returned. -/
def Resumes (h : History) : Event → Prop
  | .request (.commit _ offset) _ => offset.toNat ∈ returned h
  | _ => True

/-- The state goes with the history. -/
def Consistent (x : Server × History) : Prop :=
  ∃ m, Sound x.1 (produced x.2) m ∧ (∀ name, m.map.lookup name = committed name x.2) ∧
    ∀ o ∈ returned x.2, Boundary (produced x.2) o

section Run

variable {T : Trigger} {x : Server × History} {name : String}

theorem produced_concat (h : History) (e : Event) (a : Option Response) :
    produced (h ++ [(e, a)]) = produced h ++ producedBy e a := by
  rw [produced, flatMap_append, flatMap_singleton]
  rfl

theorem committed_concat (name : String) (h : History) (e : Event) (a : Option Response) :
    committed name (h ++ [(e, a)]) = (committedBy name e a).or (committed name h) := by
  rw [committed, filterMap_append]
  rcases hby : committedBy name e a with _ | offset
  · rw [filterMap_cons, hby, filterMap_nil, append_nil, none_or]
    rfl
  · rw [filterMap_cons, hby, filterMap_nil, getLast?_concat, some_or]

theorem Consistent.step (h : Consistent x) {e : Event} (haligned : Aligned (produced x.2) e) :
    Consistent ((logged T).step x e).1 := by
  obtain ⟨m, hsound, hcommitted, hreturned⟩ := h
  obtain ⟨m', hsound', hlookup, hboundary⟩ := hsound.step T haligned
  refine ⟨m', ?_, fun name => ?_, fun o ho => ?_⟩
  · change Sound _ (produced (x.2 ++ [_])) m'
    rw [produced_concat]
    exact hsound'
  · change _ = committed name (x.2 ++ [_])
    rw [committed_concat, hlookup, hcommitted]
  · change Boundary (produced (x.2 ++ [_])) o
    change o ∈ returned (x.2 ++ [_]) at ho
    rw [produced_concat]
    rw [returned, filterMap_append, mem_append] at ho
    rcases ho with ho | ho
    · exact (hreturned o ho).append _
    · obtain ⟨y, hy, hby⟩ := mem_filterMap.1 ho
      obtain rfl := mem_singleton.1 hy
      exact hboundary o hby

theorem consistent_unused (segmentBytes : ℕ) : Consistent (unused segmentBytes) := by
  refine ⟨.new, ⟨⟨[], [], Replaylog.holds_open_empty segmentBytes, rfl⟩, ?_, Stores.new, ?_, ?_⟩, fun _ => rfl, ?_⟩
  · exact nofun
  · intro group offset ho
    cases ho
  · intro group g hg
    cases hg
  · exact nofun

/-- A commit at an offset that a poll has returned is at a boundary. -/
theorem Consistent.aligned (h : Consistent x) {e : Event} (hresumes : Resumes x.2 e) : Aligned (produced x.2) e := by
  obtain ⟨m, -, -, hreturned⟩ := h
  cases e with
  | request req short =>
    cases req with
    | produce key payload => trivial
    | poll group => trivial
    | commit group offset => exact fun _ => hreturned _ hresumes
  | join group id => trivial
  | leave group id => trivial
  | restart segmentBytes => trivial

variable {events : List Event}

theorem Consistent.final (h : Consistent x)
    (haligned : (logged T).Guarded (fun x e => Aligned (produced x.2) e) x events) :
    Consistent ((logged T).final x events) := by
  induction events generalizing x with
  | nil => exact h
  | cons e events ih => exact ih (h.step haligned.1) haligned.2

theorem Consistent.guarded (h : Consistent x) (hresumes : (logged T).Guarded (fun x e => Resumes x.2 e) x events) :
    (logged T).Guarded (fun x e => Aligned (produced x.2) e) x events := by
  induction events generalizing x with
  | nil => trivial
  | cons e events ih =>
    have haligned := h.aligned hresumes.1
    exact ⟨haligned, ih (h.step haligned) hresumes.2⟩

/-- The history only grows. -/
theorem logged_final_snd (x : Server × History) (events : List Event) :
    ((logged T).final x events).2 = x.2 ++ (serverMachine T).trace x.1 events := by
  induction events generalizing x with
  | nil => exact (append_nil _).symm
  | cons e events ih =>
    have hrest := ih ((logged T).step x e).1
    change ((logged T).final ((logged T).step x e).1 events).2 = _
    rw [hrest]
    change (x.2 ++ [_]) ++ _ = _
    rw [append_assoc]
    rfl

/-- What is produced while something happens. -/
theorem produced_final (x : Server × History) (events : List Event) :
    produced ((logged T).final x events).2 = produced x.2 ++ produced ((serverMachine T).trace x.1 events) := by
  rw [logged_final_snd, produced, flatMap_append]
  rfl

/-- **What a group receives while the server runs** is what was produced, from where the group stood on. -/
theorem Consistent.received (h : Consistent x) {i : ℕ}
    (haligned : (logged T).Guarded (fun x e => Aligned (produced x.2) e) x events)
    (hat : At x.1.topic.log (stored (produced x.2)) (x.1.groupFor name) i) (hrestart : ∀ e ∈ events, ∀ n, e ≠ .restart n)
    (hthere : (x.1.groups.lookup name).isSome = true ∨ ∃ short rest, events = .request (.poll name) short :: rest) :
    Topics.received name ((serverMachine T).trace x.1 events) = ((produced ((logged T).final x events).2).drop i).take
        (Topics.received name ((serverMachine T).trace x.1 events)).length := by
  induction events generalizing x i with
  | nil => rfl
  | cons e events ih =>
    obtain ⟨m, hsound, -⟩ := id h
    have hpoll : (x.1.groups.lookup name).isSome = true ∨ ∃ short, e = .request (.poll name) short :=
      hthere.imp_right fun ⟨short, _, heq⟩ => ⟨short, (cons.inj heq).1⟩
    obtain ⟨hsome, hat', hgot⟩ := hsound.follow T hat (hrestart e mem_cons_self) hpoll
    have hle := hat'.le
    have hnext : At ((logged T).step x e).1.1.topic.log (stored (produced ((logged T).step x e).1.2))
        (((logged T).step x e).1.1.groupFor name)
        (i + (receivedBy name e ((serverMachine T).step x.1 e).2).length) := by
      change At _ (stored (produced (x.2 ++ [_]))) _ _
      rw [produced_concat]
      exact hat'
    have hrest := ih (h.step haligned.1) haligned.2 hnext (fun e he => hrestart e (mem_cons_of_mem _ he)) (.inl hsome)
    have hall := produced_final (T := T) x (e :: events)
    have hsplit : Topics.received name ((serverMachine T).trace x.1 (e :: events)) =
        receivedBy name e ((serverMachine T).step x.1 e).2 ++
          Topics.received name ((serverMachine T).trace ((serverMachine T).step x.1 e).1 events) := rfl
    -- the record of this step is among all that was produced
    have hfirst : receivedBy name e ((serverMachine T).step x.1 e).2 =
        ((produced ((logged T).final x (e :: events)).2).drop i).take
          (receivedBy name e ((serverMachine T).step x.1 e).2).length := by
      have hlen : (receivedBy name e ((serverMachine T).step x.1 e).2).length ≤ ((produced x.2).drop i).length := by
        have := congrArg length hgot
        rw [length_take] at this
        omega
      by_cases hi : i ≤ (produced x.2).length
      · rw [hall, drop_append_of_le_length hi, take_append_of_le_length hlen]
        exact hgot
      · rw [drop_eq_nil_of_le (by omega), length_nil, Nat.le_zero] at hlen
        rw [hlen, take_zero]
        exact length_eq_zero_iff.1 hlen
    rw [hsplit, length_append, take_add, drop_drop, ← hfirst]
    exact congrArg _ hrest

end Run

section Frame

variable {T : Trigger} {s t : Server} {name : String} {short : ℕ}

/-- Only its own poll makes a group. -/
theorem lookup_step_none (h : s.groups.lookup name = none) {e : Event} (he : ∀ short, e ≠ .request (.poll name) short) :
    ((serverMachine T).step s e).1.groups.lookup name = none := by
  cases e with
  | restart n => rfl
  | _ => rw [lookup_step he (fun _ => nofun), h, Option.map_none]

theorem lookup_final_none {x : Server × History} (h : x.1.groups.lookup name = none) {events : List Event}
    (hevents : ∀ e ∈ events, ∀ short, e ≠ .request (.poll name) short) :
    ((logged T).final x events).1.groups.lookup name = none := by
  induction events generalizing x with
  | nil => exact h
  | cons e events ih =>
    exact ih (lookup_step_none h (hevents e mem_cons_self)) fun e he => hevents e (mem_cons_of_mem _ he)

/-- **A poll that finds no member changes nothing.** -/
theorem poll_without_member {g : Group} (hg : s.groups.lookup name = some g) (hmembers : g.router.nodes = []) :
    (s.handle T short (.poll name)).2 = .err (.topic .noMembers) ∧
      (s.handle T short (.poll name)).1.topic = s.topic ∧ (s.handle T short (.poll name)).1.offsets = s.offsets ∧
      ∀ group, (s.handle T short (.poll name)).1.groups.lookup group = s.groups.lookup group := by
  have hdispatch : s.topic.dispatchNext short (s.groupFor name) = (g, .error .noMembers) := by
    rw [groupFor_of_lookup hg]
    exact if_pos hmembers
  have hhandle : s.handle T short (.poll name) =
      ({ s with groups := s.groups.insert name g }, .err (.topic .noMembers)) := by
    simp only [handle, hdispatch]
  rw [hhandle]
  refine ⟨rfl, rfl, rfl, fun group => ?_⟩
  rw [lookup_insert_ite]
  split_ifs with heq
  · rw [heq, hg]
  · rfl

end Frame

section Independence

variable {T : Trigger} {s t : Server} {name : String}

/-- The events that a group can notice: its own, the produces and the restarts. -/
def concerns (name : String) : Event → Bool
  | .request (.produce _ _) _ => true
  | .request (.poll group) _ => decide (group = name)
  | .request (.commit group _) _ => decide (group = name)
  | .join group _ => decide (group = name)
  | .leave group _ => decide (group = name)
  | .restart _ => true

theorem lookup_insert_same {V : Type} (m m' : AList fun _ : String => V) (k : String) (v : V) :
    (m.insert k v).lookup k = (m'.insert k v).lookup k := by
  rw [lookup_insert, lookup_insert]

/-- Two servers are the same to a group. -/
def Alike (name : String) (s t : Server) : Prop :=
  s.topic = t.topic ∧ s.groups.lookup name = t.groups.lookup name ∧
    ∃ m m', Stores s.offsets m ∧ Stores t.offsets m' ∧ m.map.lookup name = m'.map.lookup name

theorem Alike.groupFor (h : Alike name s t) : s.groupFor name = t.groupFor name := by
  obtain ⟨-, hgroups, m, m', hs, ht, hsame⟩ := h
  have hfetch : s.offsets.fetch name = t.offsets.fetch name :=
    (hs.mapped name).trans (hsame.trans (ht.mapped name).symm)
  rw [Server.groupFor, Server.groupFor, hgroups, hfetch]

/-- What other groups do is not noticed. -/
theorem Alike.skip (h : Alike name s t) {e : Event} (he : concerns name e = false) :
    Alike name ((serverMachine T).step s e).1 t := by
  obtain ⟨htopic, hgroups, m, m', hs, ht, hsame⟩ := h
  have hchange : ∀ group f, group ≠ name → Alike name (s.change group f) t := by
    intro group f hne
    rcases change_cases s group f with ⟨-, heq⟩ | ⟨g, -, heq⟩
    · rw [heq]
      exact ⟨htopic, hgroups, m, m', hs, ht, hsame⟩
    · rw [heq]
      exact ⟨htopic, (lookup_insert_ne (Ne.symm hne)).trans hgroups, m, m', hs, ht, hsame⟩
  cases e with
  | request req short =>
    cases req with
    | produce key payload => cases he
    | poll group =>
      have hne : group ≠ name := of_decide_eq_false he
      obtain ⟨g, heq⟩ := handle_poll s T short group
      change Alike name (s.handle T short _).1 t
      rw [heq]
      exact ⟨htopic, (lookup_insert_ne (Ne.symm hne)).trans hgroups, m, m', hs, ht, hsame⟩
    | commit group offset =>
      have hne : group ≠ name := of_decide_eq_false he
      change Alike name (s.handle T short _).1 t
      rw [handle]
      split_ifs
      · exact ⟨htopic, hgroups, m, m', hs, ht, hsame⟩
      · rcases hs.commitMany T [(group, offset)] with ⟨-, hok, hstores⟩ | ⟨-, herr, hstores⟩
        · rw [Sound.commit_eq hok]
          refine ⟨htopic, hgroups, m.commit group offset, m', hstores, ht, ?_⟩
          exact (lookup_insert_ne (Ne.symm hne)).trans hsame
        · rw [Sound.commit_eq herr]
          exact ⟨htopic, hgroups, m, m', hstores, ht, hsame⟩
  | join group id => exact hchange group _ (of_decide_eq_false he)
  | leave group id => exact hchange group _ (of_decide_eq_false he)
  | restart segmentBytes => cases he

theorem Alike.change (h : Alike name s t) (f : Group → Group) : Alike name (s.change name f) (t.change name f) := by
  obtain ⟨htopic, hgroups, m, m', hs, ht, hsame⟩ := h
  rcases change_cases s name f with ⟨hnone, heq⟩ | ⟨g, hg, heq⟩ <;>
    rcases change_cases t name f with ⟨hnone', heq'⟩ | ⟨g', hg', heq'⟩
  · rw [heq, heq']
    exact ⟨htopic, hgroups, m, m', hs, ht, hsame⟩
  · rw [hgroups, hg'] at hnone
    cases hnone
  · rw [hgroups, hnone'] at hg
    cases hg
  · obtain rfl : g = g' := some.inj (hg.symm.trans (hgroups.trans hg'))
    rw [heq, heq']
    exact ⟨htopic, lookup_insert_same _ _ _ _, m, m', hs, ht, hsame⟩

/-- Servers that are the same to a group answer it alike, and stay so. -/
theorem Alike.step (h : Alike name s t) {e : Event} (he : concerns name e = true) :
    ((serverMachine T).step s e).2 = ((serverMachine T).step t e).2 ∧
      Alike name ((serverMachine T).step s e).1 ((serverMachine T).step t e).1 := by
  have hfor := h.groupFor
  obtain ⟨htopic, hgroups, m, m', hs, ht, hsame⟩ := id h
  cases e with
  | request req short =>
    change some (s.handle T short req).2 = some (t.handle T short req).2 ∧
      Alike name (s.handle T short req).1 (t.handle T short req).1
    cases req with
    | produce key payload =>
      simp only [handle, htopic]
      rcases t.topic.produce key payload with ⟨topic, e | offset⟩
      · exact ⟨rfl, rfl, hgroups, m, m', hs, ht, hsame⟩
      · rcases hsync : topic.sync with ⟨topic', e | ⟨⟩⟩
        · simp only [hsync]
          exact ⟨trivial, rfl, hgroups, m, m', hs, ht, hsame⟩
        · simp only [hsync]
          exact ⟨trivial, rfl, hgroups, m, m', hs, ht, hsame⟩
    | poll group =>
      obtain rfl : group = name := of_decide_eq_true he
      simp only [handle, htopic, hfor]
      have hinsert : ∀ g : Group, Alike group { s with groups := s.groups.insert group g }
          { t with groups := t.groups.insert group g } := fun g =>
        ⟨htopic, lookup_insert_same _ _ _ _, m, m', hs, ht, hsame⟩
      rcases t.topic.dispatchNext short (t.groupFor group) with ⟨g, e | _ | d⟩
      · exact ⟨rfl, htopic ▸ hinsert g⟩
      · exact ⟨rfl, htopic ▸ hinsert g⟩
      · exact ⟨rfl, htopic ▸ hinsert g⟩
    | commit group offset =>
      obtain rfl : group = name := of_decide_eq_true he
      have hnamed : Offsets.Named (m.run (.commitMany [(group, offset)])).map ↔
          Offsets.Named (m'.run (.commitMany [(group, offset)])).map := by
        rw [map_run_commitMany, map_run_commitMany, named_insertAll_iff hs.named, named_insertAll_iff ht.named]
      rw [handle, handle, htopic]
      by_cases htail : t.topic.endOffset < offset.toNat
      · rw [if_pos htail, if_pos htail]
        exact ⟨rfl, h⟩
      · rw [if_neg htail, if_neg htail]
        rcases hs.commitMany T [(group, offset)] with ⟨hn, hok, hstores⟩ | ⟨hn, herr, hstores⟩ <;>
          rcases ht.commitMany T [(group, offset)] with ⟨hn', hok', hstores'⟩ | ⟨hn', herr', hstores'⟩
        · rw [Sound.commit_eq hok, Sound.commit_eq hok']
          exact ⟨rfl, rfl, hgroups, m.commit group offset, m'.commit group offset, hstores, hstores',
            lookup_insert_same _ _ _ _⟩
        · exact absurd (hnamed.1 hn) hn'
        · exact absurd (hnamed.2 hn') hn
        · rw [Sound.commit_eq herr, Sound.commit_eq herr']
          exact ⟨rfl, rfl, hgroups, m, m', hstores, hstores', hsame⟩
  | join group id =>
    obtain rfl : group = name := of_decide_eq_true he
    exact ⟨rfl, h.change _⟩
  | leave group id =>
    obtain rfl : group = name := of_decide_eq_true he
    exact ⟨rfl, h.change _⟩
  | restart segmentBytes =>
    refine ⟨rfl, ?_, rfl, m, m', hs.reopen, ht.reopen, hsame⟩
    change Topic.open s.topic.log.files segmentBytes = Topic.open t.topic.log.files segmentBytes
    rw [htopic]

/-- **A group does not notice what other groups do.** -/
theorem Alike.trace (h : Alike name s t) (events : List Event) :
    ((serverMachine T).trace s events).filter (fun x => concerns name x.1) =
      (serverMachine T).trace t (events.filter (concerns name)) := by
  induction events generalizing s t with
  | nil => rfl
  | cons e events ih =>
    rw [Machine.trace_cons, filter_cons, filter_cons]
    by_cases he : concerns name e = true
    · obtain ⟨hanswer, hnext⟩ := h.step he
      rw [if_pos he, if_pos he, Machine.trace_cons, ih hnext, hanswer]
    · rw [if_neg he, if_neg he]
      exact ih (h.skip (Bool.eq_false_iff.2 he))

end Independence

instance (h : History) : ∀ e : Event, Decidable (Resumes h e)
  | .request (.commit _ offset) _ => inferInstanceAs (Decidable (offset.toNat ∈ returned h))
  | .request (.produce _ _) _ => inferInstanceAs (Decidable True)
  | .request (.poll _) _ => inferInstanceAs (Decidable True)
  | .join _ _ => inferInstanceAs (Decidable True)
  | .leave _ _ => inferInstanceAs (Decidable True)
  | .restart _ => inferInstanceAs (Decidable True)

/-- **Delivery.**  Take any run in which commits are at offsets that polls have returned, and a group.
* From its first poll after a restart on, up to the next restart, the group receives the records behind its last
  committed offset (or all of them), in order and without a gap.
* A poll that finds no member is an error and changes nothing.
* The answers to the group, and to the producers, are those of the run without the other groups. -/
theorem delivery (T : Trigger) (segmentBytes : ℕ) (events : List Event) (name : String)
    (hresumes : (logged T).Guarded (fun x e => Resumes x.2 e) (unused segmentBytes) events) :
    (∀ earlier idle short rest, events = (earlier ++ idle) ++ .request (.poll name) short :: rest →
      (earlier = [] ∨ ∃ before n, earlier = before ++ [.restart n]) →
      (∀ e ∈ idle, ∀ short', e ≠ .request (.poll name) short') → (∀ e ∈ rest, ∀ n, e ≠ .restart n) →
      ∃ i ≤ (produced ((logged T).final (unused segmentBytes) (earlier ++ idle)).2).length,
        offsetOf (stored (produced ((logged T).final (unused segmentBytes) (earlier ++ idle)).2)) i =
          ((committed name ((logged T).final (unused segmentBytes) (earlier ++ idle)).2).map UInt64.toNat).getD 0 ∧
        received name ((serverMachine T).trace ((logged T).final (unused segmentBytes) (earlier ++ idle)).1
            (.request (.poll name) short :: rest)) =
          ((produced ((logged T).final (unused segmentBytes) events).2).drop i).take
            (received name ((serverMachine T).trace ((logged T).final (unused segmentBytes) (earlier ++ idle)).1
              (.request (.poll name) short :: rest))).length) ∧
    (∀ short g, ((logged T).final (unused segmentBytes) events).1.groups.lookup name = some g → g.router.nodes = [] →
      (((logged T).final (unused segmentBytes) events).1.handle T short (.poll name)).2 = .err (.topic .noMembers) ∧
        (((logged T).final (unused segmentBytes) events).1.handle T short (.poll name)).1.topic =
          ((logged T).final (unused segmentBytes) events).1.topic ∧
        (((logged T).final (unused segmentBytes) events).1.handle T short (.poll name)).1.offsets =
          ((logged T).final (unused segmentBytes) events).1.offsets ∧
        ∀ group, (((logged T).final (unused segmentBytes) events).1.handle T short (.poll name)).1.groups.lookup group =
          ((logged T).final (unused segmentBytes) events).1.groups.lookup group) ∧
    ((serverMachine T).trace (fresh segmentBytes) events).filter (fun x => concerns name x.1) =
      (serverMachine T).trace (fresh segmentBytes) (events.filter (concerns name)) := by
  refine ⟨fun earlier idle short rest hevents hearlier hidle hrest => ?_,
    fun short g hg hmembers => poll_without_member hg hmembers,
    Alike.trace ⟨rfl, rfl, .new, .new, Stores.new, Stores.new, rfl⟩ events⟩
  have haligned := (consistent_unused segmentBytes).guarded hresumes
  rw [hevents, Machine.guarded_append] at haligned
  have hconsistent := (consistent_unused segmentBytes).final haligned.1
  -- the group is not there yet
  have hnone : ((logged T).final (unused segmentBytes) (earlier ++ idle)).1.groups.lookup name = none := by
    rw [Machine.final_append]
    refine lookup_final_none ?_ hidle
    rcases hearlier with rfl | ⟨before, n, rfl⟩
    · rfl
    · rw [Machine.final_append]
      rfl
  obtain ⟨m, hsound, hcommitted, -⟩ := id hconsistent
  obtain ⟨i, hat, hoffset⟩ := hsound.at_new hnone
  have hle := hat.le
  rw [length_stored] at hle
  refine ⟨i, hle, by rw [hoffset, hcommitted], ?_⟩
  have hgot := hconsistent.received haligned.2 hat (forall_mem_cons.2 ⟨fun _ => nofun, hrest⟩) (.inr ⟨short, rest, rfl⟩)
  rw [hevents, (logged T).final_append (unused segmentBytes) (earlier ++ idle)]
  exact hgot

/-- Two records, one of which is received and committed before a restart. -/
def resumed : List Event :=
  [.request (.produce [1] [2]) 0, .request (.produce [3] [4]) 0, .request (.poll "a") 0, .request (.commit "a" 14) 0,
    .restart 1024]

/-- After the restart the group goes on with the second record. -/
theorem delivery_resumed : ∃ i, offsetOf (stored [([1], [2]), ([3], [4])]) i = 14 ∧
      received "a" ((serverMachine compaction).trace
        ((logged compaction).final (unused 1024) (resumed ++ [])).1 [.request (.poll "a") 0]) =
        ([([1], [2]), ([3], [4])].drop i).take 1 := by
  obtain ⟨i, -, hoffset, hreceived⟩ := (delivery compaction 1024 ((resumed ++ []) ++ [.request (.poll "a") 0]) "a"
    (by decide +kernel)).1 resumed [] 0 [] rfl (.inr ⟨resumed.dropLast, 1024, rfl⟩)
    nofun nofun
  have hproduced : produced ((logged compaction).final (unused 1024) (resumed ++ [])).2 = [([1], [2]), ([3], [4])] := by
    decide +kernel
  have hcommitted : committed "a" ((logged compaction).final (unused 1024) (resumed ++ [])).2 = some 14 := by
    decide +kernel
  have hall : produced ((logged compaction).final (unused 1024)
      ((resumed ++ []) ++ [.request (.poll "a") 0])).2 = [([1], [2]), ([3], [4])] := by decide +kernel
  have hcount : (received "a" ((serverMachine compaction).trace
      ((logged compaction).final (unused 1024) (resumed ++ [])).1 [.request (.poll "a") 0])).length = 1 := by
    decide +kernel
  rw [hproduced, hcommitted] at hoffset
  rw [hall, hcount] at hreceived
  exact ⟨i, hoffset, hreceived⟩

end Datarail.Topics
