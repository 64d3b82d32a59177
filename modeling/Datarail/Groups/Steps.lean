/-
# Steps of the coordinator

What a step can do to one group, said once.

A registration, a heartbeat and a leave are a few operations each
(`registerMember_cases`, `heartbeat_cases`, `leave_cases`), and the first two begin with a sweep
(`expireStale_cases`).  `World.group_step` reads off a step which of them it applies to a group.

`Preserved` is the induction rule for what holds of a group and the replies about it: a property that
each operation keeps, from states the `Guard` allows, holds at the end of every run
(`Preserved.run`).
-/

import Datarail.Groups.Coordinator

namespace Datarail.Groups

open Lib List World Groups.Group

/-- The join window of a group's generation is closed. -/
def Group.Closed (g : Group) : Prop := g.state = .completingRebalance ∨ g.state = .stable

instance (g : Group) : Decidable g.Closed := inferInstanceAs (Decidable (_ ∨ _))

/-- What a round of the loop of `join` does. -/
theorem Group.pollJoin_cases (now : ℕ) (g : Group) : (g.Closed ∧ g.pollJoin now = (g, true)) ∨
      (¬ g.Closed ∧ g.deadline ≠ none ∧ g.pollJoin now = (g.close, true)) ∨ g.pollJoin now = (g, false) := by
  unfold pollJoin
  cases hstate : g.state with
  | completingRebalance => exact .inl ⟨.inl hstate, rfl⟩
  | stable => exact .inl ⟨.inr hstate, rfl⟩
  | _ =>
    have hopen : ¬ g.Closed := by simp [Closed, hstate]
    cases g.deadline with
    | none => exact .inr (.inr rfl)
    | some deadline =>
      dsimp only
      split
      · exact .inr (.inl ⟨hopen, Option.some_ne_none _, rfl⟩)
      · exact .inr (.inr rfl)

variable {member : String} {generation : ℤ} {assignments : List (String × Bytes)}

theorem Group.startSync_ok {g g' : Group} (h : g.startSync member generation assignments = .ok g') :
    g' = g ∨ g' = g.assign assignments ∧ member ∈ g.members ∧ g.generation = generation ∧ assignments ≠ [] ∧
      g.leader = some member := by
  unfold startSync at h
  split_ifs at h with h₁ h₂ h₃
  · exact .inr ⟨(Except.ok.inj h).symm, h₁, not_ne_iff.1 h₂, h₃.1, h₃.2⟩
  · exact .inl (Except.ok.inj h).symm

theorem Group.startSync_error {g : Group}
    {outcome : SyncOutcome} (h : g.startSync member generation assignments = .error outcome) :
    outcome.errorCode ≠ codeNone := by
  unfold startSync at h
  split_ifs at h <;> cases h
  · exact (by decide : illegalGeneration ≠ codeNone)
  · exact (by decide : unknownMemberId ≠ codeNone)

/-- A member whose session has not run out. -/
def Member.Fresh (m : Member) (now : ℕ) : Prop := now - m.lastHeartbeat < m.sessionTimeout

instance (m : Member) (now : ℕ) : Decidable (m.Fresh now) := inferInstanceAs (Decidable (_ < _))

/-- The leader's session has not run out. -/
def Group.LeaderFresh (g : Group) (now : ℕ) : Prop :=
  ∀ l ∈ g.leader, ∀ m ∈ g.members.lookup l, m.Fresh now

instance (g : Group) (now : ℕ) : Decidable (g.LeaderFresh now) :=
  inferInstanceAs (Decidable (∀ l ∈ g.leader, ∀ m ∈ g.members.lookup l, m.Fresh now))

section Sweep

variable {g : Group} {now : ℕ}

theorem lookup_survivors (id : String) :
    (g.survivors now).lookup id = (g.members.lookup id).filter fun m => decide (m.Fresh now) :=
  lookup_retainEntries g.members _ id

@[simp] theorem members_expireStale : (g.expireStale now).members = g.survivors now := by
  unfold expireStale
  dsimp only
  split_ifs <;> rfl

@[simp] theorem generation_expireStale : (g.expireStale now).generation = g.generation := by
  unfold expireStale
  dsimp only
  split_ifs <;> rfl

@[simp] theorem protocol_expireStale : (g.expireStale now).protocol = g.protocol := by
  unfold expireStale
  dsimp only
  split_ifs <;> rfl

@[simp] theorem deadline_expireStale : (g.expireStale now).deadline = g.deadline := by
  unfold expireStale
  dsimp only
  split_ifs <;> rfl

/-- **What a sweep does to state and leader**: nothing; or the group is empty; or the leader is
gone and another member takes its place. -/
theorem expireStale_cases (g : Group) (now : ℕ) :
    ((g.expireStale now).state = g.state ∧ (g.expireStale now).leader = g.leader ∧
        ∀ l ∈ g.leader, l ∈ g.members → l ∈ g.survivors now) ∨
      ((g.expireStale now).state = .empty ∧ (g.expireStale now).leader = none ∧
        (g.survivors now).entries = [] ∧ g.members.entries ≠ []) ∨
      ((g.expireStale now).state = g.state ∧ (∃ l, g.leader = some l ∧ l ∉ g.survivors now) ∧
        (g.expireStale now).leader = (sortedKeys (g.survivors now)).head?) := by
  unfold expireStale
  by_cases hsame : (g.survivors now).entries.length = g.members.entries.length
  · rw [if_pos hsame]
    refine .inl ⟨rfl, rfl, fun l _ hl => ?_⟩
    rw [show g.survivors now = g.members from AList.ext (filter_sublist.eq_of_length hsame)]
    exact hl
  · rw [if_neg hsame]
    by_cases hempty : (g.survivors now).entries = []
    · rw [if_pos hempty]
      refine .inr (.inl ⟨rfl, rfl, hempty, fun hnone => hsame ?_⟩)
      rw [hempty, hnone]
    · rw [if_neg hempty]
      by_cases hleader : ∃ l ∈ g.leader, l ∉ g.survivors now
      · rw [if_pos hleader]
        obtain ⟨l, hl, hgone⟩ := hleader
        exact .inr (.inr ⟨rfl, ⟨l, hl, hgone⟩, rfl⟩)
      · rw [if_neg hleader]
        exact .inl ⟨rfl, rfl, fun l hl _ => not_not.1 fun hgone => hleader ⟨l, hl, hgone⟩⟩

/-- A sweep keeps the state, or leaves nobody. -/
theorem state_expireStale (g : Group) (now : ℕ) : (g.expireStale now).state = g.state ∨
    (g.expireStale now).state = .empty ∧ (g.survivors now).entries = [] := by
  rcases expireStale_cases g now with ⟨hsame, -⟩ | ⟨hempty, -, hgone, -⟩ | ⟨hsame, -⟩
  · exact .inl hsame
  · exact .inr ⟨hempty, hgone⟩
  · exact .inl hsame

/-- A sweep that evicts all members leaves an empty group. -/
theorem expireStale_of_survivors_nil (hnone : (g.survivors now).entries = []) (hsome : g.members.entries ≠ []) :
    (g.expireStale now).state = .empty := by
  have hlen : (g.survivors now).entries.length ≠ g.members.entries.length := by
    rw [hnone]
    exact fun h => hsome (length_eq_zero_iff.1 h.symm)
  unfold expireStale
  rw [if_neg hlen, if_pos hnone]

/-- A sweep that keeps the leader keeps state and leader. -/
theorem expireStale_of_fresh (hmember : ∀ l ∈ g.leader, l ∈ g.members) (hfresh : g.LeaderFresh now)
    (hleader : g.leader = none → g.members.entries = []) :
    (g.expireStale now).state = g.state ∧ (g.expireStale now).leader = g.leader := by
  have hkept : ∀ l ∈ g.leader, l ∈ g.survivors now := by
    intro l hl
    obtain ⟨m, hm⟩ := Option.isSome_iff_exists.1 (AList.lookup_isSome.2 (hmember l hl))
    refine AList.lookup_isSome.1 ?_
    rw [lookup_survivors, hm, Option.filter_some, if_pos (decide_eq_true (hfresh l hl m hm))]
    rfl
  rcases expireStale_cases g now with ⟨hstate, hsame, -⟩ | ⟨-, -, hempty, hsome⟩ | ⟨-, ⟨l, hl, hgone⟩, -⟩
  · exact ⟨hstate, hsame⟩
  · exfalso
    cases hl : g.leader with
    | none => exact hsome (hleader hl)
    | some l => exact notMem_of_entries_eq_nil hempty l (hkept l hl)
  · exact absurd (hkept l hl) hgone

variable {g : Group}

theorem mem_of_firstMember {l : String} (h : g.firstMember = some l) : l ∈ g.members :=
  mem_sortedKeys.1 (mem_of_mem_head? h)

theorem entries_eq_nil_of_firstMember (h : g.firstMember = none) : g.members.entries = [] := by
  have hkeys : sortedKeys g.members = [] := head?_eq_none_iff.1 h
  have hlen := length_insertionSort (· ≤ ·) g.members.keys
  unfold sortedKeys at hkeys
  rw [hkeys] at hlen
  exact length_eq_zero_iff.1 (by simpa [AList.keys, keys] using hlen.symm)

/-- After a sweep the leader is a member. -/
theorem leader_expireStale (hmember : ∀ l ∈ g.leader, l ∈ g.members) :
    ∀ l ∈ (g.expireStale now).leader, l ∈ (g.expireStale now).members := by
  intro l hl
  rw [members_expireStale]
  rcases expireStale_cases g now with ⟨-, hleader, hkept⟩ | ⟨-, hleader, -⟩ | ⟨-, -, hleader⟩ <;>
    rw [hleader] at hl
  · exact hkept l hl (hmember l hl)
  · cases hl
  · exact mem_sortedKeys.1 (mem_of_mem_head? hl)

theorem mem_assignAll (assignments : List (String × Bytes)) (members : AList fun _ : String => Member) (id : String) :
    id ∈ assignAll assignments members ↔ id ∈ members := by
  induction assignments generalizing members with
  | nil => exact Iff.rfl
  | cons a rest ih =>
    rw [Group.assignAll]
    cases hm : members.lookup a.1 with
    | none => exact ih members
    | some m =>
      rw [ih, AList.mem_insert, or_iff_right_iff_imp]
      rintro rfl
      exact mem_of_lookup hm

/-- **What a registration does**: a sweep, a member without an assignment, and a new generation unless
a window is open. -/
theorem registerMember_cases (t : Timing) (name : String) (request : JoinMember) (now : ℕ) (g : Group) :
    ∃ (g' : Group) (mid : String) (m : Member), g'.members = (g.expireStale now).members.insert mid m ∧
      m.assignment = none ∧ g'.state = (g.expireStale now).state ∧ g'.generation = g.generation ∧
      g'.leader = (g.expireStale now).leader ∧ g'.protocol = g.protocol ∧ g'.deadline = g.deadline ∧
      (g.registerMember t name request now).1 = if g'.state = .preparingRebalance then g' else g'.prepare t now := by
  obtain ⟨seq, mid, hmid⟩ : ∃ (seq : ℕ) (mid : String), (g.expireStale now).memberId name request =
      ({ g.expireStale now with memberSeq := seq }, mid) := by
    by_cases hid : request.memberId = ""
    · exact ⟨_, _, if_pos hid⟩
    · exact ⟨(g.expireStale now).memberSeq, request.memberId, if_neg hid⟩
  refine ⟨enroll mid request now { g.expireStale now with memberSeq := seq }, mid, newMember request now,
    rfl, rfl, rfl, generation_expireStale, rfl, protocol_expireStale, deadline_expireStale, ?_⟩
  simp only [registerMember, hmid]

theorem mem_prepare {t : Timing} {id : String} : id ∈ (g.prepare t now).members ↔ id ∈ g.members := by
  rw [← AList.lookup_isSome, ← AList.lookup_isSome]
  change ((mapValues g.members _).lookup id).isSome = true ↔ _
  rw [lookup_mapValues, Option.isSome_map]

/-- Whoever registers is a member. -/
theorem mem_registerMember (t : Timing) (name : String) (request : JoinMember) (now : ℕ) (g : Group) :
    (g.registerMember t name request now).2 ∈ (g.registerMember t name request now).1.members := by
  unfold registerMember
  rcases (g.expireStale now).memberId name request with ⟨g', mid⟩
  have henroll : mid ∈ (g'.enroll mid request now).members := (AList.mem_insert _).2 (.inl rfl)
  dsimp only
  split
  · exact henroll
  · exact mem_prepare.2 henroll

/-- Whoever registers finds or opens a window. -/
theorem state_registerMember (t : Timing) (name : String) (request : JoinMember) (now : ℕ) (g : Group) :
    (g.registerMember t name request now).1.state = .preparingRebalance := by
  obtain ⟨g', mid, m, -, -, -, -, -, -, -, heq⟩ := registerMember_cases t name request now g
  rw [heq]
  split
  · assumption
  · rfl

/-- **What a heartbeat does**: a sweep, and a member is touched; it succeeds in a stable group. -/
theorem heartbeat_cases (member : String) (generation : ℤ) (now : ℕ) (g : Group) :
    (g.heartbeat member generation now).2 ≠ codeNone ∧ (g.heartbeat member generation now).1 = g.expireStale now ∨
      ∃ m, (g.expireStale now).members.lookup member = some m ∧
        (g.heartbeat member generation now).1 = (g.expireStale now).touch member m now ∧
        ((g.heartbeat member generation now).2 = codeNone →
          (g.expireStale now).state = .stable ∧ g.generation = generation) := by
  unfold heartbeat
  dsimp only
  cases hm : (g.expireStale now).members.lookup member with
  | none => exact .inl ⟨(by decide : unknownMemberId ≠ codeNone), rfl⟩
  | some m =>
    refine .inr ⟨m, rfl, ?_⟩
    dsimp only
    by_cases hgeneration : ((g.expireStale now).touch member m now).generation ≠ generation
    · rw [if_pos hgeneration]
      exact ⟨rfl, fun h => absurd h (by decide : illegalGeneration ≠ codeNone)⟩
    · rw [if_neg hgeneration]
      have hsame : g.generation = generation := by
        rw [← @generation_expireStale g now]
        exact not_ne_iff.1 hgeneration
      have hstate : ((g.expireStale now).touch member m now).state = (g.expireStale now).state := rfl
      rw [hstate]
      cases (g.expireStale now).state with
      | stable => exact ⟨rfl, fun _ => ⟨rfl, hsame⟩⟩
      | preparingRebalance => exact ⟨rfl, fun h => absurd h (by decide : rebalanceInProgress ≠ codeNone)⟩
      | completingRebalance => exact ⟨rfl, fun h => absurd h (by decide : rebalanceInProgress ≠ codeNone)⟩
      | empty => exact ⟨rfl, fun h => absurd h (by decide : unknownMemberId ≠ codeNone)⟩

/-- What holds after the sweep and after a member is touched holds after a heartbeat. -/
theorem heartbeat_of {P : Group → Prop} (hswept : P (g.expireStale now))
    (htouch : ∀ m, (g.expireStale now).members.lookup member = some m → P ((g.expireStale now).touch member m now)) :
    P (g.heartbeat member generation now).1 := by
  rcases heartbeat_cases member generation now g with ⟨-, hbeat⟩ | ⟨m, hm, hbeat, -⟩ <;> rw [hbeat]
  · exact hswept
  · exact htouch m hm

@[simp] theorem generation_heartbeat : (g.heartbeat member generation now).1.generation = g.generation :=
  heartbeat_of (P := (·.generation = _)) generation_expireStale fun _ _ => generation_expireStale

theorem state_heartbeat : (g.heartbeat member generation now).1.state = (g.expireStale now).state :=
  heartbeat_of (P := (·.state = _)) rfl fun _ _ => rfl

/-- **What a leave does**: nothing, or the group is empty, or a new generation without the member. -/
theorem leave_cases (t : Timing) (member : String) (now : ℕ) (g : Group) : (g.leave t member now).1 = g ∨
      ((g.leave t member now).1 =
          { g with members := g.members.erase member, state := .empty, leader := none, deadline := none } ∧
        (g.members.erase member).entries = []) ∨
      ∃ g' : Group, g'.members = g.members.erase member ∧ g'.generation = g.generation ∧
        (∀ l ∈ g'.leader, l ∈ g.leader ∧ l ≠ member ∨ l ∈ g'.members) ∧
        (g.leave t member now).1 = g'.prepare t now := by
  unfold leave
  by_cases hmember : member ∉ g.members
  · rw [if_pos hmember]
    exact .inl rfl
  · rw [if_neg hmember]
    by_cases hempty : (g.members.erase member).entries = []
    · rw [if_pos hempty]
      exact .inr (.inl ⟨rfl, hempty⟩)
    · rw [if_neg hempty]
      refine .inr (.inr ⟨{ g with
        members := g.members.erase member
        leader := if g.leader = some member then { g with members := g.members.erase member }.firstMember
          else g.leader }, rfl, rfl, fun l hl => ?_, rfl⟩)
      by_cases hleader : g.leader = some member
      · rw [if_pos hleader] at hl
        exact .inr (mem_of_firstMember hl)
      · rw [if_neg hleader] at hl
        refine .inl ⟨hl, ?_⟩
        rintro rfl
        exact hleader hl

end Sweep

section Steps

variable {w : World} {name : String} {t : Timing}

theorem World.group_put_eq (target : String) (g : Group) :
    (w.put target g).group name = if target = name then g else w.group name := by
  split
  · subst target
    exact group_put w name g
  · exact group_put_of_ne w target name g (Ne.symm ‹_›)

/-- One round of a `join`. -/
inductive World.JoinRound (w : World) (target mid : String) (ticket : ℕ) : World × Reply → Prop
  | parked : JoinRound w target mid ticket ({ w with joins := w.joins.insert ticket ⟨target, mid⟩ }, .parked ticket)
  | unknown : JoinRound w target mid ticket
      ({ w with joins := w.joins.erase ticket }, .joined target (unknownJoin mid))
  | closed (hclosed : (w.group target).Closed) : JoinRound w target mid ticket
      ({ w.put target (w.group target) with joins := w.joins.erase ticket },
        .joined target ((w.group target).joinOutcome mid))
  | closes (hopen : ¬ (w.group target).Closed) (hdeadline : (w.group target).deadline ≠ none) :
      JoinRound w target mid ticket ({ w.put target (w.group target).close with joins := w.joins.erase ticket },
        .joined target ((w.group target).close.joinOutcome mid))

theorem World.joinRound (w : World) (target mid : String) (now ticket : ℕ) :
    w.JoinRound target mid ticket (w.continueJoin target mid now ticket) := by
  cases hget : w.groups.get target with
  | none =>
    simp only [continueJoin, hget]
    exact .unknown
  | some g =>
    obtain rfl : w.group target = g := group_of_get hget
    rcases (w.group target).pollJoin_cases now with ⟨hclosed, hpoll⟩ | ⟨hopen, hdeadline, hpoll⟩ | hpoll <;>
      simp only [continueJoin, hget, hpoll]
    · exact .closed hclosed
    · exact .closes hopen hdeadline
    · exact .parked

/-- One round of a `sync`. -/
inductive World.SyncRound (w : World) (wait : SyncWait) (ticket : ℕ) : World × Reply → Prop
  | parked : SyncRound w wait ticket ({ w with syncs := w.syncs.insert ticket wait }, .parked ticket)
  | refused {code : ℤ} (hcode : code ≠ codeNone) : SyncRound w wait ticket
      ({ w with syncs := w.syncs.erase ticket }, .synced wait.group wait.memberId wait.generation ⟨code, []⟩)
  | answered {outcome : SyncOutcome}
      (hpoll : (w.group wait.group).pollSync wait.memberId wait.generation = some outcome) : SyncRound w wait ticket
      ({ w with syncs := w.syncs.erase ticket }, .synced wait.group wait.memberId wait.generation outcome)

theorem World.syncRound (w : World) (wait : SyncWait) (now ticket : ℕ) :
    w.SyncRound wait ticket (w.continueSync wait now ticket) := by
  cases hget : w.groups.get wait.group with
  | none =>
    simp only [continueSync, hget]
    exact .refused (by decide : unknownMemberId ≠ codeNone)
  | some g =>
    obtain rfl : w.group wait.group = g := group_of_get hget
    cases hpoll : (w.group wait.group).pollSync wait.memberId wait.generation with
    | some outcome =>
      simp only [continueSync, hget, hpoll]
      exact .answered hpoll
    | none =>
      simp only [continueSync, hget, hpoll]
      split
      · exact .refused (by decide : rebalanceInProgress ≠ codeNone)
      · exact .parked

/-- **What a step can do.** -/
inductive World.Does (t : Timing) (w : World) : Call → World × Reply → Prop
  | refused {call : Call} {r : Reply} (hr : r.Refused) : Does t w call (w, r)
  | join {target : String} {request : JoinMember} {now later : ℕ} {r : World × Reply}
      (hround : { w.put target ((w.group target).registerMember t target request now).1 with
        ticket := w.ticket + 1 }.JoinRound target ((w.group target).registerMember t target request now).2
          w.ticket r) : Does t w (.join target request now later) r
  | wakeJoin {ticket now : ℕ} {wait : JoinWait} {r : World × Reply} (hwait : w.joins.get ticket = some wait)
      (hround : w.JoinRound wait.group wait.memberId ticket r) : Does t w (.wakeJoin ticket now) r
  | sync {target member : String} {generation : ℤ} {assignments : List (String × Bytes)} {now later deadline : ℕ}
      {g : Group} {r : World × Reply} (hstart : (w.group target).startSync member generation assignments = .ok g)
      (hround : { w.put target g with ticket := w.ticket + 1 }.SyncRound ⟨target, member, generation, deadline⟩
        w.ticket r) : Does t w (.sync target member generation assignments now later) r
  | wakeSync {ticket now : ℕ} {wait : SyncWait} {r : World × Reply} (hround : w.SyncRound wait ticket r) :
      Does t w (.wakeSync ticket now) r
  | heartbeat {target member : String} {generation : ℤ} {now : ℕ} : Does t w (.heartbeat target member generation now)
      (w.put target ((w.group target).heartbeat member generation now).1,
        .beaten target member generation ((w.group target).heartbeat member generation now).2)
  | leave {target member : String} {now : ℕ} : Does t w (.leave target member now)
      (w.put target ((w.group target).leave t member now).1,
        .left target member ((w.group target).leave t member now).2)

theorem World.does (t : Timing) (w : World) (call : Call) : World.Does t w call (w.step t call) := by
  have hunknown : unknownMemberId ≠ codeNone := by decide
  cases call with
  | join target request now later => exact .join (joinRound _ _ _ _ _)
  | wakeJoin ticket now =>
    cases hwait : w.joins.get ticket with
    | none =>
      simp only [step, hwait]
      exact .refused trivial
    | some wait =>
      simp only [step, hwait]
      exact .wakeJoin hwait (w.joinRound _ _ _ _)
  | sync target member generation assignments now later =>
    cases hget : w.groups.get target with
    | none =>
      simp only [step, hget]
      exact .refused hunknown
    | some g =>
      obtain rfl : w.group target = g := group_of_get hget
      cases hstart : (w.group target).startSync member generation assignments with
      | error outcome =>
        simp only [step, hget, hstart]
        exact .refused (startSync_error hstart)
      | ok g' =>
        simp only [step, hget, hstart]
        exact .sync hstart (syncRound _ _ _ _)
  | wakeSync ticket now =>
    cases hwait : w.syncs.get ticket with
    | none =>
      simp only [step, hwait]
      exact .refused trivial
    | some wait =>
      simp only [step, hwait]
      exact .wakeSync (w.syncRound _ _ _)
  | heartbeat target member generation now =>
    cases hget : w.groups.get target with
    | none =>
      simp only [step, hget]
      exact .refused hunknown
    | some g =>
      obtain rfl : w.group target = g := group_of_get hget
      simp only [step, hget]
      exact .heartbeat
  | leave target member now =>
    cases hget : w.groups.get target with
    | none =>
      simp only [step, hget]
      exact .refused hunknown
    | some g =>
      obtain rfl : w.group target = g := group_of_get hget
      simp only [step, hget]
      exact .leave

variable {r : World × Reply} {target mid : String} {ticket : ℕ}

theorem World.JoinRound.group_eq (h : w.JoinRound target mid ticket r) : r.1.group name = w.group name ∨
      target = name ∧ ¬ (w.group name).Closed ∧ r.1.group name = (w.group name).close := by
  cases h with
  | parked => exact .inl rfl
  | unknown => exact .inl rfl
  | closed hclosed =>
    exact .inl ((group_put_eq target _).trans (ite_eq_right_iff.2 fun h => h ▸ rfl))
  | closes hopen hdeadline =>
    by_cases hname : target = name
    · subst target
      exact .inr ⟨rfl, hopen, group_put w name _⟩
    · exact .inl ((group_put_eq target _).trans (if_neg hname))

theorem World.SyncRound.group_eq {wait : SyncWait} (h : w.SyncRound wait ticket r) : r.1.group name = w.group name := by
  cases h <;> rfl

/-- A `join` that succeeds is read off the group as the round leaves it. -/
theorem World.JoinRound.joined (h : w.JoinRound target mid ticket r) {o : JoinOutcome} (hr : r.2 = .joined name o)
    (hcode : o.errorCode = codeNone) :
    target = name ∧ (r.1.group name).Closed ∧ o = (r.1.group name).joinOutcome mid ∧
      (r.1.group name).members = (w.group name).members := by
  cases h with
  | parked => cases hr
  | unknown =>
    cases hr
    exact absurd hcode (by decide : unknownMemberId ≠ codeNone)
  | closed hclosed =>
    obtain ⟨rfl, rfl⟩ := Reply.joined.inj hr
    have hafter : group { w.put target (w.group target) with joins := w.joins.erase ticket } target =
      w.group target := group_put w target _
    rw [hafter]
    exact ⟨rfl, hclosed, rfl, rfl⟩
  | closes hopen hdeadline =>
    obtain ⟨rfl, rfl⟩ := Reply.joined.inj hr
    have hafter : group { w.put target (w.group target).close with joins := w.joins.erase ticket } target =
      (w.group target).close := group_put w target _
    rw [hafter]
    exact ⟨rfl, .inl rfl, rfl, rfl⟩

/-- A `join` registers its member, and the window may close at once. -/
theorem World.JoinRound.registered {g : Group} (h : { w.put name g with ticket := ticket }.JoinRound name mid w.ticket r) :
    r.1.group name = g ∨ r.1.group name = g.close := by
  have hput := group_put w name g
  rcases h.group_eq with hsame | ⟨-, -, hclose⟩
  · exact .inl (hsame.trans hput)
  · exact .inr (hclose.trans (congrArg close hput))

/-- **What a join does to its group**: a registration, and the window may close at once. -/
theorem World.group_join (request : JoinMember) (now later : ℕ) :
    (w.step t (.join name request now later)).1.group name = ((w.group name).registerMember t name request now).1 ∨
      (w.step t (.join name request now later)).1.group name =
        ((w.group name).registerMember t name request now).1.close :=
  (joinRound _ _ _ _ _).registered

/-- What a leave does to its group, be there one or not. -/
theorem World.group_leave (member : String) (now : ℕ) :
    (w.step t (.leave name member now)).1.group name = ((w.group name).leave t member now).1 := by
  cases hget : w.groups.get name with
  | none =>
    simp only [step, hget, group, Option.getD_none]
    rfl
  | some g =>
    rw [group_of_get hget]
    simp only [step, hget, group_put]

/-- The leader of a group hands in assignments, and they are taken over. -/
def World.Assigns (w : World) (name : String) (call : Call) (w' : World) : Prop :=
  ∃ member assignments now later, call = .sync name member (w.group name).generation assignments now later ∧
    member ∈ (w.group name).members ∧ assignments ≠ [] ∧ (w.group name).leader = some member ∧
    w'.group name = (w.group name).assign assignments

/-- **What a step does to a group.** -/
theorem World.group_step (call : Call) : (w.step t call).1.group name = w.group name ∨
      (∃ request now later, call = .join name request now later ∧
        ((w.step t call).1.group name = ((w.group name).registerMember t name request now).1 ∨
          (w.step t call).1.group name = ((w.group name).registerMember t name request now).1.close)) ∨
      (∃ ticket now, call = .wakeJoin ticket now ∧ ¬ (w.group name).Closed ∧
        (w.step t call).1.group name = (w.group name).close) ∨ w.Assigns name call (w.step t call).1 ∨
      (∃ member generation now, call = .heartbeat name member generation now ∧
        (w.step t call).1.group name = ((w.group name).heartbeat member generation now).1) ∨
      ∃ member now, call = .leave name member now ∧
        (w.step t call).1.group name = ((w.group name).leave t member now).1 := by
  have hdoes := w.does t call
  generalize w.step t call = r at hdoes ⊢
  cases hdoes with
  | refused hr => exact .inl rfl
  | @join target request now later _ hround =>
    by_cases hname : target = name
    · subst target
      exact .inr (.inl ⟨request, now, later, rfl, hround.registered⟩)
    · rcases hround.group_eq with hsame | ⟨heq, -⟩
      · exact .inl (hsame.trans (group_put_of_ne _ _ _ _ (Ne.symm hname)))
      · exact absurd heq hname
  | @wakeJoin ticket now wait _ hwait hround =>
    rcases hround.group_eq with hsame | ⟨-, hopen, hclose⟩
    · exact .inl hsame
    · exact .inr (.inr (.inl ⟨ticket, now, rfl, hopen, hclose⟩))
  | @sync target member generation assignments now later deadline g _ hstart hround =>
    have hgroup : r.1.group name = if target = name then g else w.group name :=
      hround.group_eq.trans (group_put_eq target g)
    by_cases hname : target = name
    · subst target
      rw [if_pos rfl] at hgroup
      rcases startSync_ok hstart with rfl | ⟨rfl, hmember, rfl, hne, hleader⟩
      · exact .inl hgroup
      · exact .inr (.inr (.inr (.inl ⟨member, assignments, now, later, rfl, hmember, hne, hleader, hgroup⟩)))
    · rw [if_neg hname] at hgroup
      exact .inl hgroup
  | wakeSync hround => exact .inl hround.group_eq
  | @heartbeat target member generation now =>
    by_cases hname : target = name
    · subst target
      exact .inr (.inr (.inr (.inr (.inl ⟨member, generation, now, rfl, group_put w name _⟩))))
    · exact .inl (group_put_of_ne w target name _ (Ne.symm hname))
  | @leave target member now =>
    by_cases hname : target = name
    · subst target
      exact .inr (.inr (.inr (.inr (.inr ⟨member, now, rfl, group_put w name _⟩))))
    · exact .inl (group_put_of_ne w target name _ (Ne.symm hname))

variable {call : Call}

/-- **What leads to a closed window**: nothing happens to the group, the window closes, the leader assigns, or a
heartbeat sweeps the group. -/
theorem World.closed_step_cases (hclosed : ((w.step t call).1.group name).Closed) :
    ((w.step t call).1.group name = w.group name ∧ ∀ request now later, call ≠ .join name request now later) ∨
      (∃ g : Group, (w.step t call).1.group name = g.close) ∨ w.Assigns name call (w.step t call).1 ∨
      ∃ member generation now, call = .heartbeat name member generation now ∧
        ((w.group name).heartbeat member generation now).1.state = (w.group name).state ∧
        (w.step t call).1.group name = ((w.group name).heartbeat member generation now).1 := by
  have hjoin : ∀ request now later, call = .join name request now later →
      ∃ g : Group, (w.step t call).1.group name = g.close := by
    rintro request now later rfl
    rcases @group_join w name t request now later with heq | heq
    · unfold Group.Closed at hclosed
      rw [heq, state_registerMember] at hclosed
      exact absurd hclosed (by simp)
    · exact ⟨_, heq⟩
  rcases @group_step w name t call with hsame | ⟨request, now, later, heq, -⟩ | ⟨-, -, -, -, hclose⟩ | hassign |
    ⟨member, generation, now, heq, hbeat⟩ | ⟨member, now, rfl, hleft⟩
  · by_cases hcall : ∃ request now later, call = .join name request now later
    · obtain ⟨request, now, later, heq⟩ := hcall
      exact .inr (.inl (hjoin request now later heq))
    · exact .inl ⟨hsame, fun request now later heq => hcall ⟨request, now, later, heq⟩⟩
  · exact .inr (.inl (hjoin request now later heq))
  · exact .inr (.inl ⟨_, hclose⟩)
  · exact .inr (.inr (.inl hassign))
  · refine .inr (.inr (.inr ⟨member, generation, now, heq, ?_, hbeat⟩))
    unfold Group.Closed at hclosed
    rw [hbeat, state_heartbeat] at hclosed
    rw [state_heartbeat]
    rcases state_expireStale (w.group name) now with hsame | ⟨hgone, -⟩
    · exact hsame
    · rw [hgone] at hclosed
      exact absurd hclosed (by simp)
  · rcases leave_cases t member now (w.group name) with heq | ⟨heq, -⟩ | ⟨g', -, -, -, heq⟩
    · exact .inl ⟨hleft.trans heq, nofun⟩
    all_goals
      rw [hleft, heq] at hclosed
      exact absurd hclosed (by rintro (h | h) <;> cases h)

/-- **What leads to a stable group**: nothing happens to it, its leader assigns, or a heartbeat sweeps it. -/
theorem World.stable_step_cases (hstable : ((w.step t call).1.group name).state = .stable) :
    ((w.step t call).1.group name = w.group name ∧ ∀ request now later, call ≠ .join name request now later) ∨
      w.Assigns name call (w.step t call).1 ∨
      ∃ member generation now, call = .heartbeat name member generation now ∧ (w.group name).state = .stable ∧
        (w.step t call).1.group name = ((w.group name).heartbeat member generation now).1 := by
  rcases closed_step_cases (.inr hstable) with hsame | ⟨g, hclose⟩ | hassign |
    ⟨member, generation, now, heq, hstate, hbeat⟩
  · exact .inl hsame
  · rw [hclose] at hstable
    cases hstable
  · exact .inr (.inl hassign)
  · rw [hbeat] at hstable
    exact .inr (.inr ⟨member, generation, now, heq, hstate.symm.trans hstable, hbeat⟩)

/-- **Where a successful `join` comes from**: it just came in, or it was parked. -/
theorem World.step_joined {o : JoinOutcome} (h : (w.step t call).2 = .joined name o) (hcode : o.errorCode = codeNone) :
    ((w.step t call).1.group name).Closed ∧ ∃ mid, o = ((w.step t call).1.group name).joinOutcome mid ∧
      (mid ∈ ((w.step t call).1.group name).members ∨ ∃ ticket, w.joins.get ticket = some ⟨name, mid⟩ ∧
          ((w.step t call).1.group name).members = (w.group name).members) := by
  have hdoes := w.does t call
  generalize w.step t call = r at hdoes h ⊢
  cases hdoes with
  | refused hr =>
    cases h
    exact absurd hcode hr
  | @join target request now later _ hround =>
    obtain ⟨rfl, hclosed, ho, hmembers⟩ := hround.joined h hcode
    refine ⟨hclosed, _, ho, .inl ?_⟩
    have hput : ((w.put target ((w.group target).registerMember t target request now).1).group target).members =
        ((w.group target).registerMember t target request now).1.members := congrArg _ (group_put w target _)
    rw [hmembers.trans hput]
    exact mem_registerMember t target request now (w.group target)
  | @wakeJoin ticket now wait _ hwait hround =>
    obtain ⟨rfl, hclosed, ho, hmembers⟩ := hround.joined h hcode
    exact ⟨hclosed, wait.memberId, ho, .inr ⟨ticket, hwait, hmembers⟩⟩
  | sync hstart hround => cases hround <;> cases h
  | wakeSync hround => cases hround <;> cases h
  | heartbeat => cases h
  | leave => cases h

/-- A `sync` that succeeds is read off the group as the step leaves it. -/
theorem World.step_synced {bytes : Bytes} (h : (w.step t call).2 = .synced name member generation ⟨codeNone, bytes⟩) :
    ((w.step t call).1.group name).pollSync member generation = some ⟨codeNone, bytes⟩ := by
  have hround : ∀ {w : World} {wait ticket r}, w.SyncRound wait ticket r →
      r.2 = .synced name member generation ⟨codeNone, bytes⟩ →
      (r.1.group name).pollSync member generation = some ⟨codeNone, bytes⟩ := by
    intro w wait ticket r hround h
    cases hround with
    | parked => cases h
    | refused hcode =>
      cases h
      exact absurd rfl hcode
    | answered hpoll =>
      cases h
      exact hpoll
  have hdoes := w.does t call
  generalize w.step t call = r at hdoes h ⊢
  cases hdoes with
  | refused hr =>
    cases h
    exact absurd rfl hr
  | join hjoin => cases hjoin <;> cases h
  | wakeJoin hwait hjoin => cases hjoin <;> cases h
  | sync hstart hsync => exact hround hsync h
  | wakeSync hsync => exact hround hsync h
  | heartbeat => cases h
  | leave => cases h

/-- A heartbeat that succeeds. -/
theorem World.step_beaten (h : (w.step t call).2 = .beaten name member generation codeNone) :
    ∃ now, call = .heartbeat name member generation now ∧
      ((w.group name).heartbeat member generation now).2 = codeNone ∧
      (w.step t call).1.group name = ((w.group name).heartbeat member generation now).1 := by
  have hdoes := w.does t call
  generalize w.step t call = r at hdoes h ⊢
  cases hdoes with
  | refused hr =>
    cases h
    exact absurd rfl hr
  | join hround => cases hround <;> cases h
  | wakeJoin hwait hround => cases hround <;> cases h
  | sync hstart hround => cases hround <;> cases h
  | wakeSync hround => cases hround <;> cases h
  | @heartbeat target member generation now =>
    obtain ⟨rfl, rfl, rfl, hcode⟩ := Reply.beaten.inj h
    exact ⟨now, rfl, hcode, group_put w target _⟩
  | leave => cases h

end Steps

/-- What a run is allowed to do to a group, by the operation and the state it finds. -/
structure Guard where
  /-- A member registers, at a time. -/
  join : ℕ → Group → Prop
  /-- The assignments of the leader are taken over. -/
  assign : Group → Prop
  /-- A heartbeat, at a time. -/
  heartbeat : ℕ → Group → Prop
  leave : Group → Prop

/-- A step that a guard allows. -/
def Guard.Ok (G : Guard) (w : World) : Call → Prop
  | .join name _ now _ => G.join now (w.group name)
  | .wakeJoin _ _ => True
  | .sync name member generation assignments _ _ =>
    member ∈ (w.group name).members → (w.group name).generation = generation → assignments ≠ [] →
      (w.group name).leader = some member → G.assign (w.group name)
  | .wakeSync _ _ => True
  | .heartbeat name _ _ now => G.heartbeat now (w.group name)
  | .leave name _ _ => G.leave (w.group name)

instance (G : Guard) [∀ now g, Decidable (G.join now g)] [∀ g, Decidable (G.assign g)]
    [∀ now g, Decidable (G.heartbeat now g)] [∀ g, Decidable (G.leave g)] (w : World) :
    ∀ call, Decidable (G.Ok w call)
  | .join name _ now _ => inferInstanceAs (Decidable (G.join now (w.group name)))
  | .wakeJoin _ _ => inferInstanceAs (Decidable True)
  | .sync name member generation assignments _ _ =>
    inferInstanceAs (Decidable (member ∈ (w.group name).members → (w.group name).generation = generation →
      assignments ≠ [] → (w.group name).leader = some member → G.assign (w.group name)))
  | .wakeSync _ _ => inferInstanceAs (Decidable True)
  | .heartbeat name _ _ now => inferInstanceAs (Decidable (G.heartbeat now (w.group name)))
  | .leave name _ _ => inferInstanceAs (Decidable (G.leave (w.group name)))

/-- A property of a group and the replies about it that each operation keeps. -/
structure Preserved (t : Timing) (G : Guard) (name : String) (Inv : List Reply → Group → Prop) : Prop where
  refused : ∀ {h g r}, r.Refused → Inv h g → Inv (h ++ [r]) g
  register : ∀ {h g} request now, G.join now g → Inv h g → Inv h (g.registerMember t name request now).1
  close : ∀ {h g}, ¬ g.Closed → g.deadline ≠ none → Inv h g → Inv h g.close
  joined : ∀ {h g} mid, g.Closed → Inv h g → Inv (h ++ [.joined name (g.joinOutcome mid)]) g
  assign : ∀ {h g member} assignments, member ∈ g.members → g.leader = some member → G.assign g → Inv h g →
    Inv h (g.assign assignments)
  synced : ∀ {h g} member generation outcome, g.pollSync member generation = some outcome → Inv h g →
    Inv (h ++ [.synced name member generation outcome]) g
  beaten : ∀ {h g} member generation now, G.heartbeat now g → Inv h g →
    Inv (h ++ [.beaten name member generation (g.heartbeat member generation now).2])
      (g.heartbeat member generation now).1
  left : ∀ {h g} member now, G.leave g → Inv h g →
    Inv (h ++ [.left name member (g.leave t member now).2]) (g.leave t member now).1

namespace Preserved

variable {t : Timing} {G : Guard} {name : String} {Inv : List Reply → Group → Prop}

/-- A reply about another group, or about none, changes nothing. -/
theorem filter_snoc (h : List Reply) (r : Reply) : (h ++ [r]).filter (Reply.about name) =
      if r.about name = true then h.filter (Reply.about name) ++ [r] else h.filter (Reply.about name) := by
  rw [filter_append, filter_singleton]
  cases r.about name <;> simp

variable {h : List Reply}

/-- A refusal is kept whatever group it is about. -/
theorem refuse (P : Preserved t G name Inv) {g : Group} {r : Reply} (hr : r.Refused)
    (hinv : Inv (h.filter (Reply.about name)) g) : Inv ((h ++ [r]).filter (Reply.about name)) g := by
  rw [filter_snoc]
  split
  · exact P.refused hr hinv
  · exact hinv

/-- An operation on a group, answered at once. -/
theorem answer {w w' : World} {target : String} {g' : Group} {r : Reply}
    (hgroups : w'.groups = w.groups.insert target g') (habout : r.about name = decide (target = name))
    (hinv : Inv (h.filter (Reply.about name)) (w.group name))
    (hself : target = name → Inv (h.filter (Reply.about name) ++ [r]) g') :
    Inv ((h ++ [r]).filter (Reply.about name)) (w'.group name) := by
  rw [filter_snoc, habout]
  unfold group
  rw [hgroups, Table.get_insert]
  by_cases hname : target = name
  · rw [if_pos (decide_eq_true hname), if_pos hname.symm, Option.getD_some]
    exact hself hname
  · rw [if_neg (by simpa using hname), if_neg (Ne.symm hname)]
    exact hinv

variable {w : World} {r : World × Reply}

theorem joinRound (P : Preserved t G name Inv) {target mid : String} {ticket : ℕ}
    (hround : w.JoinRound target mid ticket r)
    (hinv : Inv (h.filter (Reply.about name)) (w.group name)) :
    Inv ((h ++ [r.2]).filter (Reply.about name)) (r.1.group name) := by
  cases hround with
  | parked => exact P.refuse (r := .parked ticket) trivial hinv
  | unknown => exact P.refuse (r := .joined target (unknownJoin mid)) (by decide : unknownMemberId ≠ codeNone) hinv
  | closed hclosed =>
    refine answer rfl rfl hinv fun hname => ?_
    subst hname
    exact P.joined mid hclosed hinv
  | closes hopen hdeadline =>
    refine answer rfl rfl hinv fun hname => ?_
    subst hname
    exact P.joined mid (.inl rfl) (P.close hopen hdeadline hinv)

theorem syncRound (P : Preserved t G name Inv) {wait : SyncWait} {ticket : ℕ} (hround : w.SyncRound wait ticket r)
    (hinv : Inv (h.filter (Reply.about name)) (w.group name)) :
    Inv ((h ++ [r.2]).filter (Reply.about name)) (r.1.group name) := by
  cases hround with
  | parked => exact P.refuse (r := .parked ticket) trivial hinv
  | @refused code hcode =>
    exact P.refuse (r := .synced wait.group wait.memberId wait.generation ⟨code, []⟩) hcode hinv
  | @answered outcome hpoll =>
    rw [filter_snoc]
    split
    · rename_i hname
      obtain rfl : wait.group = name := by simpa [Reply.about] using hname
      exact P.synced wait.memberId wait.generation outcome hpoll hinv
    · exact hinv

/-- A group is put back before the call goes on. -/
theorem group_put_inv {target : String} {g : Group}
    (hinv : Inv h (w.group name)) (hself : target = name → Inv h g) : Inv h ((w.put target g).group name) := by
  by_cases hname : target = name
  · subst hname
    rw [group_put]
    exact hself rfl
  · rwa [group_put_of_ne _ _ _ _ (Ne.symm hname)]

/-- Each step keeps what the operations keep. -/
theorem step (P : Preserved t G name Inv) {call : Call} (hok : G.Ok w call)
    (hinv : Inv (h.filter (Reply.about name)) (w.group name)) :
    Inv ((h ++ [(w.step t call).2]).filter (Reply.about name)) ((w.step t call).1.group name) := by
  have hdoes := w.does t call
  generalize w.step t call = r at hdoes ⊢
  cases hdoes with
  | refused hr => exact P.refuse hr hinv
  | @join target request now later _ hround =>
    refine P.joinRound hround (group_put_inv (w := w) hinv fun hname => ?_)
    subst hname
    exact P.register request now hok hinv
  | wakeJoin hwait hround => exact P.joinRound hround hinv
  | @sync target member generation assignments now later deadline g _ hstart hround =>
    refine P.syncRound hround (group_put_inv (w := w) hinv fun hname => ?_)
    subst hname
    rcases startSync_ok hstart with rfl | ⟨rfl, hmember, hgeneration, hne, hleader⟩
    · exact hinv
    · exact P.assign assignments hmember hleader (hok hmember hgeneration hne hleader) hinv
  | wakeSync hround => exact P.syncRound hround hinv
  | @heartbeat target member generation now =>
    refine answer rfl rfl hinv fun hname => ?_
    subst hname
    exact P.beaten member generation now hok hinv
  | @leave target member now =>
    refine answer rfl rfl hinv fun hname => ?_
    subst hname
    exact P.left member now hok hinv

/-- **What the operations on a group keep holds at the end of every run.** -/
theorem run (P : Preserved t G name Inv) {calls : List Call}
    (hok : (coordinator t).Guarded G.Ok w calls) (hinv : Inv [] (w.group name)) :
    Inv ((((coordinator t).trace w calls).map Prod.snd).filter (Reply.about name))
      (((coordinator t).final w calls).group name) := by
  refine (coordinator t).invariant_of_step G.Ok
    (fun h w => Inv ((h.map Prod.snd).filter (Reply.about name)) (w.group name)) ?_ w calls [] hok hinv
  intro h w call hcall hinv
  rw [map_append]
  exact P.step hcall hinv

end Preserved

/-- Everything is allowed. -/
def unguarded : Guard where
  join _ _ := True
  assign _ := True
  heartbeat _ _ := True
  leave _ := True

theorem unguarded_ok (w : World) (call : Call) : unguarded.Ok w call := by
  cases call with
  | sync group member generation assignments now later => exact fun _ _ _ _ => trivial
  | _ => trivial

/-- What the operations on a group keep in all states holds in all runs. -/
theorem Preserved.groupAfter {t : Timing} {name : String} {Inv : List Reply → Group → Prop}
    (P : Preserved t unguarded name Inv) (hnew : Inv [] .new) (calls : List Call) :
    Inv ((replies t calls).filter (Reply.about name)) (groupAfter t calls name) :=
  P.run ((coordinator t).guarded_of_take _ _ fun _ _ _ => unguarded_ok _ _) hnew

end Datarail.Groups
