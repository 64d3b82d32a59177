/-
# What a successful join says

A `JoinGroup` reads its outcome off the group when its wait is over.  The generation it returns is the
group's then, and the leader is a member if there are any (`Led`).

That the caller is a member itself is another matter: while it waits, a sweep or a `LeaveGroup` may take it
out, and the call succeeds all the same.  The protocol is the one that was selected when the window closed
(`Selected`), unless the leader on record has assigned before.  It is a name that all members had in common
at that time; where there is none, `select_protocol` takes the first name of the first member, which others
need not have.

`join_is_membership` says which part of this holds when: the generation and the leader always, the caller's
membership if no request takes it out meanwhile (`Dismisses`), and the protocol if no leader assigns in an
open window (`closedFirst`).
-/

import Datarail.Groups.Authority
import Datarail.Groups.Parking

namespace Datarail.Groups

open Lib List

section Leaders

variable {t : Timing} {name : String} {g : Group}

/-- The leader is a member, and a group whose window is closed has one if it has members. -/
structure Led (g : Group) : Prop where
  leader : ∀ l ∈ g.leader, l ∈ g.members
  leaderless : g.Closed → g.leader = none → g.members.entries = []

namespace Led

/-- A new group has no leader. -/
theorem new : Led .new := ⟨nofun, fun _ _ => rfl⟩

/-- While the window is open only the leader on record matters. -/
theorem of_open (hleader : ∀ l ∈ g.leader, l ∈ g.members) (hopen : ¬ g.Closed) : Led g :=
  ⟨hleader, fun h => absurd h hopen⟩

/-- A sweep that evicts the leader clears it. -/
theorem expireStale (hg : Led g) (now : ℕ) : Led (g.expireStale now) := by
  refine ⟨leader_expireStale hg.leader, fun hclosed hnone => ?_⟩
  rw [members_expireStale]
  rcases expireStale_cases g now with ⟨hstate, hleader, -⟩ | ⟨-, -, hgone, -⟩ | ⟨-, -, hleader⟩
  · unfold Group.Closed at hclosed
    rw [hstate] at hclosed
    rw [hleader] at hnone
    change g.members.entries.filter _ = []
    rw [hg.leaderless hclosed hnone, filter_nil]
  · exact hgone
  · rw [hleader] at hnone
    exact entries_eq_nil_of_firstMember (g := { g with members := g.survivors now }) hnone

/-- The start of a rebalance keeps the leader on record. -/
theorem prepare (hleader : ∀ l ∈ g.leader, l ∈ g.members) (now : ℕ) : Led (g.prepare t now) := by
  refine of_open (fun l hl => mem_prepare.2 (hleader l hl)) ?_
  rintro (h | h) <;> cases h

/-- A registration keeps members, up to its sweep. -/
theorem register (hg : Led g) (request : JoinMember) (now : ℕ) : Led (g.registerMember t name request now).1 := by
  have hswept := hg.expireStale now
  obtain ⟨g', mid, m, hmembers, -, -, -, hleader, -, -, heq⟩ := registerMember_cases t name request now g
  have hmember : ∀ l ∈ g'.leader, l ∈ g'.members := by
    intro l hl
    rw [hmembers, AList.mem_insert]
    rw [hleader] at hl
    exact .inr (hswept.leader l hl)
  rw [heq]
  split
  · refine of_open hmember ?_
    unfold Group.Closed
    simp [*]
  · exact prepare hmember now

/-- A heartbeat evicts by its sweep only. -/
theorem beaten (hg : Led g) (member : String) (generation : ℤ) (now : ℕ) :
    Led (g.heartbeat member generation now).1 := by
  have hswept := hg.expireStale now
  refine heartbeat_of hswept fun m hm =>
    ⟨fun l hl => (AList.mem_insert _).2 (.inr (hswept.leader l hl)), fun hclosed hnone => ?_⟩
  exact absurd (mem_of_lookup hm) (notMem_of_entries_eq_nil (hswept.leaderless hclosed hnone) member)

/-- A leader that leaves is cleared. -/
theorem left (hg : Led g) (member : String) (now : ℕ) : Led (g.leave t member now).1 := by
  rcases leave_cases t member now g with hleft | ⟨hleft, hempty⟩ | ⟨g', hmembers, -, hleader, hleft⟩ <;> rw [hleft]
  · exact hg
  · exact ⟨nofun, fun _ _ => hempty⟩
  · refine prepare (fun l hl => ?_) now
    rcases hleader l hl with ⟨hold, hne⟩ | hnew
    · rw [hmembers, AList.mem_erase]
      exact ⟨hne, hg.leader l hold⟩
    · exact hnew

/-- The leader on record is a member after every call. -/
theorem preserved (t : Timing) (name : String) : Preserved t unguarded name fun _ g => Led g where
  refused _ hg := hg
  register request now _ hg := hg.register request now
  close _ _ _ := ⟨fun _ hl => mem_of_firstMember hl, fun _ hnone => entries_eq_nil_of_firstMember hnone⟩
  joined _ _ hg := hg
  assign assignments _ hleader _ hg :=
    ⟨fun l hl => (mem_assignAll assignments _ l).2 (hg.leader l hl), fun _ hnone =>
      absurd (hleader.symm.trans hnone) (Option.some_ne_none _)⟩
  synced _ _ _ _ hg := hg
  beaten member generation now _ hg := hg.beaten member generation now
  left member now _ hg := hg.left member now

end Led

end Leaders

section Protocols

variable {t : Timing} {name : String} {g c : Group}

/-- A name that all members advertise. -/
def Group.Common (g : Group) (p : String) : Prop := ∀ id m, g.members.lookup id = some m → p ∈ m.protocols

/-- What `select_protocol` falls back to: the first name of the first member. -/
def Group.fallback (g : Group) : Option String :=
  (g.firstMember.bind g.members.lookup).bind fun first => first.protocols.head?

/-- The check of `select_protocol` is `Common`. -/
theorem all_contains_iff (g : Group) (p : String) :
    (g.members.entries.all fun e => e.2.protocols.contains p) = true ↔ g.Common p := by
  rw [all_eq_true]
  constructor
  · intro h id m hm
    exact contains_iff_mem.1 (h ⟨id, m⟩ (AList.mem_lookup_iff.1 hm))
  · rintro h ⟨id, m⟩ hm
    exact contains_iff_mem.2 (h id m (AList.mem_lookup_iff.2 hm))

/-- **`select_protocol`**: a common name if there is one, else the fallback. -/
theorem selectProtocol_cases (g : Group) :
    (∃ p, g.selectProtocol = some p ∧ g.Common p) ∨ (¬ ∃ p, g.Common p) ∧ g.selectProtocol = g.fallback ∨
      g.members.entries = [] ∧ g.selectProtocol = none := by
  unfold Group.selectProtocol Group.fallback
  cases hfirst : g.firstMember.bind g.members.lookup with
  | none =>
    refine .inr (.inr ⟨?_, rfl⟩)
    cases hid : g.firstMember with
    | none => exact entries_eq_nil_of_firstMember hid
    | some id =>
      rw [hid] at hfirst
      have hmem := AList.lookup_isSome.2 (mem_of_firstMember hid)
      rw [show g.members.lookup id = none from hfirst] at hmem
      cases hmem
  | some first =>
    dsimp only
    cases hfind : first.protocols.find? fun p => g.members.entries.all fun e => e.2.protocols.contains p with
    | some p =>
      have hall := find?_some hfind
      exact .inl ⟨p, rfl, (all_contains_iff g p).1 hall⟩
    | none =>
      refine .inr (.inl ⟨?_, rfl⟩)
      rintro ⟨p, hp⟩
      obtain ⟨id, -, hid⟩ := Option.bind_eq_some_iff.1 hfirst
      have hnot := find?_eq_none.1 hfind p (hp id first hid)
      exact hnot ((all_contains_iff g p).2 hp)

/-- The group `c` is as it was when the window closed: its protocol is that of `g`, and who is a member of `g` was
one of `c` and advertised the same names. -/
structure Selected (c g : Group) : Prop where
  generation : g.generation = c.generation
  protocol : g.protocol = c.selectProtocol
  members : ∀ id m, g.members.lookup id = some m → ∃ m', c.members.lookup id = some m' ∧ m'.protocols = m.protocols

/-- When its window closes, a group selects for the members of that time. -/
theorem Selected.close (g : Group) : Selected g.close g.close :=
  ⟨rfl, rfl, fun _ m hm => ⟨m, hm, rfl⟩⟩

/-- Assignments leave the selection alone. -/
theorem Selected.assign (hg : Selected c g) (assignments : List (String × Bytes)) :
    Selected c (g.assign assignments) := by
  refine ⟨hg.generation, hg.protocol, fun id m hm => ?_⟩
  change (Group.assignAll assignments g.members).lookup id = some m at hm
  rw [lookup_assign] at hm
  obtain ⟨x, hx, rfl⟩ := Option.map_eq_some_iff.1 hm
  obtain ⟨m', hm', hsame⟩ := hg.members id x hx
  refine ⟨m', hm', hsame.trans ?_⟩
  cases latest assignments id <;> rfl

/-- A heartbeat leaves it alone too. -/
theorem Selected.beaten (hg : Selected c g) (member : String) (generation : ℤ) (now : ℕ) :
    Selected c (g.heartbeat member generation now).1 := by
  have hswept : ∀ id m, (g.expireStale now).members.lookup id = some m →
      ∃ m', c.members.lookup id = some m' ∧ m'.protocols = m.protocols := by
    intro id m hm
    rw [members_expireStale, lookup_survivors, Option.filter_eq_some_iff] at hm
    exact hg.members id m hm.1
  have hgeneration := (@generation_expireStale g now).trans hg.generation
  have hprotocol := (@protocol_expireStale g now).trans hg.protocol
  refine heartbeat_of ⟨hgeneration, hprotocol, hswept⟩ fun x hx => ⟨hgeneration, hprotocol, fun id m hm => ?_⟩
  change ((g.expireStale now).members.insert member { x with lastHeartbeat := now }).lookup id = some m at hm
  rw [lookup_insert_ite] at hm
  split at hm
  · subst id
    obtain ⟨m', hm', hsame⟩ := hswept member x hx
    exact ⟨m', hm', by rw [hsame, ← Option.some.inj hm]⟩
  · exact hswept id m hm

/-- **The protocol of a closed window**: a name of all members, if there was one in common when the window closed. -/
theorem Selected.common (hg : Selected c g) (mid : String) :
    ((∃ p, c.Common p) → g.Common (g.joinOutcome mid).protocol) ∧
      ((¬ ∃ p, c.Common p) → (g.joinOutcome mid).protocol = c.fallback.getD "") := by
  have hprotocol : (g.joinOutcome mid).protocol = c.selectProtocol.getD "" := congrArg (·.getD "") hg.protocol
  rw [hprotocol]
  have hnobody (hempty : c.members.entries = []) (id : String) (m : Member) : c.members.lookup id ≠ some m :=
    fun hm => notMem_of_entries_eq_nil hempty id (mem_of_lookup hm)
  rcases selectProtocol_cases c with ⟨p, hp, hcommon⟩ | ⟨hnone, hfallback⟩ | ⟨hempty, -⟩
  · refine ⟨fun _ id m hm => ?_, fun h => absurd ⟨p, hcommon⟩ h⟩
    obtain ⟨m', hm', hsame⟩ := hg.members id m hm
    rw [hp, ← hsame]
    exact hcommon id m' hm'
  · exact ⟨fun h => absurd h hnone, fun _ => by rw [hfallback]⟩
  · -- nobody was left when the window closed, so nobody is a member now
    refine ⟨fun _ id m hm => ?_, fun h => absurd ⟨"", fun id m hm => absurd hm (hnobody hempty id m)⟩ h⟩
    obtain ⟨m', hm', -⟩ := hg.members id m hm
    exact absurd hm' (hnobody hempty id m')

end Protocols

section Steps

variable {t : Timing} {w : World} {name : String}

/-- No leader assigns while the window of its group is open. -/
def closedFirst : Guard where
  join _ _ := True
  assign g := g.Closed
  heartbeat _ _ := True
  leave _ := True

instance (now : ℕ) (g : Group) : Decidable (closedFirst.join now g) := inferInstanceAs (Decidable True)

instance (g : Group) : Decidable (closedFirst.assign g) := inferInstanceAs (Decidable g.Closed)

instance (now : ℕ) (g : Group) : Decidable (closedFirst.heartbeat now g) := inferInstanceAs (Decidable True)

instance (g : Group) : Decidable (closedFirst.leave g) := inferInstanceAs (Decidable True)

/-- The request takes a member with a parked call out of its group: its own `LeaveGroup`, or a sweep when the clock
is past its session, unless the sweep is that of the member's own `JoinGroup`. -/
def JoinWait.Ends (wait : JoinWait) (m : Member) : Call → Prop
  | .join name request now _ => name = wait.group ∧ ¬ m.Fresh now ∧
      (request.memberId = wait.memberId → request.memberId = "")
  | .heartbeat name _ _ now => name = wait.group ∧ ¬ m.Fresh now
  | .leave name member _ => name = wait.group ∧ member = wait.memberId
  | _ => False

instance (wait : JoinWait) (m : Member) : ∀ call, Decidable (wait.Ends m call)
  | .join _ _ _ _ => inferInstanceAs (Decidable (_ ∧ ¬ _ ∧ (_ → _)))
  | .heartbeat _ _ _ _ => inferInstanceAs (Decidable (_ ∧ ¬ _))
  | .leave _ _ _ => inferInstanceAs (Decidable (_ ∧ _))
  | .wakeJoin _ _ | .sync _ _ _ _ _ _ | .wakeSync _ _ => inferInstanceAs (Decidable False)

/-- A request that ends the membership of a caller whose `JoinGroup` is parked. -/
def Dismisses (w : World) (call : Call) : Prop :=
  ∃ ticket < w.ticket, ∃ wait ∈ w.joins.get ticket,
    ∃ m ∈ (w.group wait.group).members.lookup wait.memberId, wait.Ends m call

instance (w : World) (call : Call) : Decidable (Dismisses w call) :=
  inferInstanceAs (Decidable (∃ ticket < w.ticket, ∃ wait ∈ w.joins.get ticket,
    ∃ m ∈ (w.group wait.group).members.lookup wait.memberId, wait.Ends m call))

/-- A sweep keeps who is within the session. -/
theorem mem_expireStale {g : Group} {id : String} {m : Member} {now : ℕ} (hm : g.members.lookup id = some m)
    (hfresh : m.Fresh now) : id ∈ (g.expireStale now).members := by
  refine mem_of_lookup (show (g.expireStale now).members.lookup id = some m from ?_)
  rw [members_expireStale, lookup_survivors, hm]
  exact Option.filter_eq_some_iff.2 ⟨rfl, decide_eq_true hfresh⟩

/-- Who is a member stays one when another member registers, if the sweep keeps it. -/
theorem mem_registerMember_of_mem {g : Group} {id : String} (request : JoinMember) {now : ℕ}
    (hid : id ∈ (g.expireStale now).members) : id ∈ (g.registerMember t name request now).1.members := by
  obtain ⟨g', mid, m, hmembers, -, -, -, -, -, -, heq⟩ := registerMember_cases t name request now g
  have hmember : id ∈ g'.members := by
    rw [hmembers, AList.mem_insert]
    exact .inr hid
  rw [heq]
  split
  · exact hmember
  · exact mem_prepare.2 hmember

/-- **A parked caller stays a member** through every request that does not end its membership. -/
theorem JoinWait.mem_step {wait : JoinWait} {m : Member} {call : Call}
    (hm : (w.group wait.group).members.lookup wait.memberId = some m) (hok : ¬ wait.Ends m call) :
    wait.memberId ∈ ((w.step t call).1.group wait.group).members := by
  have hmember := mem_of_lookup hm
  rcases @World.group_step w wait.group t call with hsame | ⟨request, now, later, rfl, hjoin⟩ | ⟨-, -, -, -, hclose⟩ |
    ⟨member, assignments, now, later, rfl, -, -, -, hassign⟩ | ⟨member, generation, now, rfl, hbeat⟩ |
    ⟨member, now, rfl, hleft⟩
  · rwa [hsame]
  · have hregistered : wait.memberId ∈ ((w.group wait.group).registerMember t wait.group request now).1.members := by
      by_cases hfresh : m.Fresh now
      · exact mem_registerMember_of_mem request (mem_expireStale hm hfresh)
      · obtain ⟨hown, hid⟩ := Classical.not_imp.1 fun h => hok ⟨rfl, hfresh, h⟩
        have hself := mem_registerMember t wait.group request now (w.group wait.group)
        rwa [show ((w.group wait.group).registerMember t wait.group request now).2 = request.memberId by
          simp only [Group.registerMember, Group.memberId, if_neg hid], hown] at hself
    rcases hjoin with heq | heq <;> rw [heq] <;> exact hregistered
  · rwa [hclose]
  · rw [hassign]
    exact (mem_assignAll assignments _ _).2 hmember
  · have hswept := mem_expireStale hm (by_contra fun h => hok ⟨rfl, h⟩)
    rw [hbeat]
    exact heartbeat_of (P := (wait.memberId ∈ ·.members)) hswept fun _ _ => (AList.mem_insert _).2 (.inr hswept)
  · have hstays : wait.memberId ∈ (w.group wait.group).members.erase member :=
      (AList.mem_erase).2 ⟨fun h => hok ⟨rfl, h.symm⟩, hmember⟩
    rw [hleft]
    rcases leave_cases t member now (w.group wait.group) with heq | ⟨heq, -⟩ | ⟨g', hmembers, -, -, heq⟩ <;> rw [heq]
    · exact hmember
    · exact hstays
    · rw [mem_prepare, hmembers]
      exact hstays

/-- **Where the protocol of a closed window comes from.** -/
theorem exists_selected {calls : List Call} (hok : (coordinator t).Guarded closedFirst.Ok .new calls) (k : ℕ)
    (hclosed : (groupAfter t (calls.take k) name).Closed) :
    ∃ i < k, (groupAfter t (calls.take (i + 1)) name).state = .completingRebalance ∧
      Selected (groupAfter t (calls.take (i + 1)) name) (groupAfter t (calls.take k) name) := by
  induction k with
  | zero => rcases hclosed with h | h <;> cases h
  | succ k ih =>
    -- what was selected before is still
    have hkeep : (groupAfter t (calls.take k) name).Closed →
        (∀ c, Selected c (groupAfter t (calls.take k) name) → Selected c (groupAfter t (calls.take (k + 1)) name)) →
        ∃ i < k + 1, (groupAfter t (calls.take (i + 1)) name).state = .completingRebalance ∧
          Selected (groupAfter t (calls.take (i + 1)) name) (groupAfter t (calls.take (k + 1)) name) := by
      intro hbefore hsame
      obtain ⟨i, hi, hstate, hselected⟩ := ih hbefore
      exact ⟨i, by omega, hstate, hsame _ hselected⟩
    cases hcall : calls[k]? with
    | none =>
      rw [groupAfter_succ_of_none hcall] at hclosed hkeep ⊢
      exact hkeep hclosed fun c hc => hc
    | some call =>
      have hnow := (coordinator t).ok_of_guarded hok hcall
      rw [groupAfter_succ hcall] at hclosed hkeep
      rcases World.closed_step_cases hclosed with ⟨hsame, -⟩ | ⟨g, hclose⟩ |
        ⟨member, assignments, now, later, rfl, hmember, hne, hleader, hassign⟩ |
        ⟨member, generation, now, rfl, hstate, hbeat⟩
      · rw [hsame] at hclosed hkeep
        rw [groupAfter_succ hcall, hsame]
        exact hkeep hclosed fun c hc => hc
      · refine ⟨k, by omega, ?_⟩
        rw [groupAfter_succ hcall, hclose]
        exact ⟨rfl, Selected.close g⟩
      · rw [hassign] at hkeep
        rw [groupAfter_succ hcall, hassign]
        exact hkeep (hnow hmember rfl hne hleader) fun c hc => hc.assign assignments
      · rw [hbeat] at hclosed hkeep
        rw [groupAfter_succ hcall, hbeat]
        refine hkeep ?_ fun c hc => hc.beaten member generation now
        unfold Group.Closed at hclosed ⊢
        rwa [hstate] at hclosed

/-- Every call that is parked has a ticket that was issued, and its caller is a member. -/
structure Enrolled (w : World) : Prop where
  issued : ∀ i wait, w.joins.get i = some wait → i < w.ticket
  member : ∀ i wait, w.joins.get i = some wait → wait.memberId ∈ (w.group wait.group).members

/-- Nobody is parked at first. -/
theorem Enrolled.new : Enrolled .new := ⟨nofun, nofun⟩

/-- A parked caller stays a member through a call that dismisses nobody. -/
theorem Enrolled.step (hw : Enrolled w) {call : Call} (hok : ¬ Dismisses w call) : Enrolled (w.step t call).1 := by
  obtain ⟨hticket, hjoins⟩ := World.joins_step (t := t) (w := w) call
  refine ⟨fun i wait hi => ?_, fun i wait hi => ?_⟩
  · rcases hjoins i wait hi with hold | ⟨hlt, -⟩
    · exact lt_of_lt_of_le (hw.issued i wait hold) hticket
    · exact hlt
  · rcases hjoins i wait hi with hold | ⟨-, request, now, later, rfl, hmid⟩
    · obtain ⟨m, hm⟩ := Option.isSome_iff_exists.1 (AList.lookup_isSome.2 (hw.member i wait hold))
      exact wait.mem_step hm fun hends => hok ⟨i, hw.issued i wait hold, wait, hold, m, hm, hends⟩
    · have hmember := mem_registerMember t wait.group request now (w.group wait.group)
      rw [← hmid] at hmember
      rcases @World.group_join w wait.group t request now later with heq | heq
      · rwa [heq]
      · rwa [heq]

end Steps

/-- Two members join with these protocols. -/
def joinPair (first second : List String) : List Call :=
  [.join "g" ⟨"a", 60000, 60000, "consumer", first.map (·, [])⟩ 0 0,
    .join "g" ⟨"b", 60000, 60000, "consumer", second.map (·, [])⟩ 5 5, .wakeJoin 0 10, .wakeJoin 1 11]

/-- The session of the first member runs out before the window closes. -/
def evictedJoin : List Call :=
  [.join "g" (joiner "a" 1) 0 0, .join "g" (joiner "b" 1000) 1000000 1000000, .wakeJoin 1 4000000, .wakeJoin 0 4000000]

/-- The leader of the first generation assigns in the open window of the second. -/
def assignedJoin : List Call :=
  [.join "g" ⟨"a", 60000, 60000, "consumer", [("range", []), ("sticky", [])]⟩ 0 0, .wakeJoin 0 10,
    .join "g" ⟨"b", 60000, 60000, "consumer", [("sticky", [])]⟩ 11 11, .sync "g" "a" 2 [("a", [1])] 12 12, .wakeJoin 1 13]

end Datarail.Groups
