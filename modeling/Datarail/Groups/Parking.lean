/-
# Parked joins

A `JoinGroup` that waits looks at two things when it wakes: whether the window of its group is closed,
and whether the deadline has passed.  In a group whose window is open and that has no deadline it waits
for another call to come.

A window that is open has a deadline (`Windowed`), so that this is so in an empty group only.  Two steps
lead there while a call is parked (`Strands`): the last member leaves, which takes the deadline away, and
a heartbeat evicts all members of a group whose leader had assigned before the window was closed.  All
other steps keep every parked call waiting for a deadline, or for nothing (`parked_joins_return_iff`).
-/

import Datarail.Groups.Steps

namespace Datarail.Groups

open Lib World

section Windows

variable {t : Timing} {name : String} {g : Group}

/-- An open window has a deadline. -/
def Windowed (g : Group) : Prop := g.state = .preparingRebalance → g.deadline ≠ none

theorem Windowed.expireStale (hg : Windowed g) (now : ℕ) : Windowed (g.expireStale now) := by
  intro hstate
  rw [deadline_expireStale]
  refine hg ?_
  rcases state_expireStale g now with hsame | ⟨hgone, -⟩
  · rw [← hsame, hstate]
  · rw [hgone] at hstate
    cases hstate

theorem Windowed.prepare (t : Timing) (now : ℕ) (g : Group) : Windowed (g.prepare t now) :=
  fun _ => Option.some_ne_none _

theorem Windowed.register (hg : Windowed g) (request : JoinMember) (now : ℕ) :
    Windowed (g.registerMember t name request now).1 := by
  have hswept := hg.expireStale now
  obtain ⟨g', mid, m, -, -, hstate, -, -, -, hdeadline, heq⟩ := registerMember_cases t name request now g
  rw [heq]
  split
  · intro hopen
    rw [hstate] at hopen
    rw [hdeadline, ← @deadline_expireStale g now]
    exact hswept hopen
  · exact Windowed.prepare t now g'

theorem Windowed.beaten (hg : Windowed g) (member : String) (generation : ℤ) (now : ℕ) :
    Windowed (g.heartbeat member generation now).1 :=
  heartbeat_of (hg.expireStale now) fun _ _ => hg.expireStale now

theorem Windowed.left (hg : Windowed g) (member : String) (now : ℕ) : Windowed (g.leave t member now).1 := by
  rcases leave_cases t member now g with hleft | ⟨hleft, -⟩ | ⟨g', -, -, -, hleft⟩ <;> rw [hleft]
  · exact hg
  · exact nofun
  · exact Windowed.prepare t now g'

theorem Windowed.preserved (t : Timing) (name : String) : Preserved t unguarded name fun _ g => Windowed g where
  refused _ hg := hg
  register request now _ hg := hg.register request now
  close _ _ _ := nofun
  joined _ _ hg := hg
  assign _ _ _ _ _ := nofun
  synced _ _ _ _ hg := hg
  beaten member generation now _ hg := hg.beaten member generation now
  left member now _ hg := hg.left member now

/-- A call that waits on the group has something to wait for. -/
def Group.Waits (g : Group) : Prop := g.Closed ∨ g.deadline ≠ none

instance (g : Group) : Decidable g.Waits := inferInstanceAs (Decidable (_ ∨ _))

variable {now : ℕ}

/-- When the deadline has passed, the wait is over. -/
theorem Group.Waits.pollJoin (hg : g.Waits) (hnow : ∀ d ∈ g.deadline, d ≤ now) : (g.pollJoin now).2 = true := by
  unfold Group.pollJoin
  rcases hg with (hstate | hstate) | hdeadline
  · rw [hstate]
  · rw [hstate]
  · obtain ⟨deadline, hd⟩ := Option.ne_none_iff_exists'.1 hdeadline
    split
    · rfl
    · rfl
    · rw [hd]
      dsimp only
      rw [if_pos (hnow deadline hd)]

/-- A member that registers waits for something. -/
theorem Group.Waits.register (hg : Windowed g) (request : JoinMember) (now : ℕ) :
    (g.registerMember t name request now).1.Waits := by
  have hwindow : Windowed (g.registerMember t name request now).1 := hg.register request now
  obtain ⟨g', mid, m, -, -, -, -, -, -, -, heq⟩ := registerMember_cases t name request now g
  rw [heq] at hwindow ⊢
  by_cases hopen : g'.state = .preparingRebalance
  · rw [if_pos hopen] at hwindow ⊢
    exact .inr (hwindow hopen)
  · rw [if_neg hopen]
    exact .inr (Option.some_ne_none _)

/-- A sweep that leaves somebody, or a deadline. -/
theorem Group.Waits.beaten (hg : g.Waits) (member : String) (generation : ℤ)
    (h : ¬ (g.deadline = none ∧ g.members.entries ≠ [] ∧ (g.survivors now).entries = [])) :
    (g.heartbeat member generation now).1.Waits := by
  have hswept : (g.expireStale now).Waits := by
    unfold Group.Waits Group.Closed at hg ⊢
    rw [deadline_expireStale]
    rcases expireStale_cases g now with ⟨hsame, -⟩ | ⟨-, -, hgone, hsome⟩ | ⟨hsame, -⟩
    · rwa [hsame]
    · exact .inr fun hnone => h ⟨hnone, hsome, hgone⟩
    · rwa [hsame]
  exact heartbeat_of hswept fun _ _ => hswept

/-- A member that leaves others behind. -/
theorem Group.Waits.left (hg : g.Waits) (member : String) (now : ℕ)
    (h : ¬ (member ∈ g.members ∧ (g.members.erase member).entries = [])) : (g.leave t member now).1.Waits := by
  unfold Group.leave
  by_cases hmember : member ∈ g.members
  · have hrest : (g.members.erase member).entries ≠ [] := fun hnone => h ⟨hmember, hnone⟩
    rw [if_neg (not_not.2 hmember)]
    rw [if_neg hrest]
    exact .inr (Option.some_ne_none _)
  · rw [if_pos hmember]
    exact hg

/-- The last member leaves, and nothing is left to wait for. -/
theorem not_waits_of_last {member : String} (hmember : member ∈ g.members)
    (hrest : (g.members.erase member).entries = []) (now : ℕ) : ¬ (g.leave t member now).1.Waits := by
  unfold Group.leave
  rw [if_neg (not_not.2 hmember)]
  rw [if_pos hrest]
  rintro ((h | h) | h)
  · cases h
  · cases h
  · exact h rfl

/-- All members are evicted, and there is no deadline. -/
theorem not_waits_of_evicted (hdeadline : g.deadline = none) (hsome : g.members.entries ≠ [])
    (hgone : (g.survivors now).entries = []) (member : String) (generation : ℤ) :
    ¬ (g.heartbeat member generation now).1.Waits := by
  have hempty := expireStale_of_survivors_nil hgone hsome
  have hswept : ¬ (g.expireStale now).Waits := by
    unfold Group.Waits Group.Closed
    rw [hempty, deadline_expireStale, hdeadline]
    simp
  exact heartbeat_of (P := (¬ ·.Waits)) hswept fun _ _ => hswept

end Windows

section Tickets

variable {t : Timing} {w : World}

/-- A `JoinGroup` is parked on the group. -/
def ParkedOn (w : World) (name : String) : Prop := ∃ ticket < w.ticket, ∃ wait ∈ w.joins.get ticket, wait.group = name

instance (w : World) (name : String) : Decidable (ParkedOn w name) :=
  inferInstanceAs (Decidable (∃ ticket < w.ticket, ∃ wait ∈ w.joins.get ticket, wait.group = name))

/-- A step that takes from a parked call what it waits for. -/
def Strands (w : World) : Call → Prop
  | .leave name member _ => ParkedOn w name ∧ member ∈ (w.group name).members ∧
      ((w.group name).members.erase member).entries = []
  | .heartbeat name _ _ now => ParkedOn w name ∧ (w.group name).deadline = none ∧
      (w.group name).members.entries ≠ [] ∧ ((w.group name).survivors now).entries = []
  | .join _ _ _ _ => False
  | .wakeJoin _ _ => False
  | .sync _ _ _ _ _ _ => False
  | .wakeSync _ _ => False

instance (w : World) : ∀ call, Decidable (Strands w call)
  | .leave _ _ _ => inferInstanceAs (Decidable (_ ∧ _ ∧ _))
  | .heartbeat _ _ _ _ => inferInstanceAs (Decidable (_ ∧ _ ∧ _ ∧ _))
  | .join _ _ _ _ => inferInstanceAs (Decidable False)
  | .wakeJoin _ _ => inferInstanceAs (Decidable False)
  | .sync _ _ _ _ _ _ => inferInstanceAs (Decidable False)
  | .wakeSync _ _ => inferInstanceAs (Decidable False)

variable {r : World × Reply}

theorem World.JoinRound.joins_get {target mid : String} {ticket : ℕ}
    (h : w.JoinRound target mid ticket r) : r.1.ticket = w.ticket ∧ ∀ i wait, r.1.joins.get i = some wait →
      w.joins.get i = some wait ∨ i = ticket ∧ wait = ⟨target, mid⟩ := by
  have herase : ∀ i wait, (w.joins.erase ticket).get i = some wait → w.joins.get i = some wait := by
    intro i wait hi
    rw [Table.get_erase] at hi
    split at hi
    · cases hi
    · exact hi
  cases h with
  | parked =>
    refine ⟨rfl, fun i wait hi => ?_⟩
    rw [Table.get_insert] at hi
    split at hi
    · exact .inr ⟨‹_›, (Option.some.inj hi).symm⟩
    · exact .inl hi
  | unknown => exact ⟨rfl, fun i wait hi => .inl (herase i wait hi)⟩
  | closed hclosed => exact ⟨rfl, fun i wait hi => .inl (herase i wait hi)⟩
  | closes hopen hdeadline => exact ⟨rfl, fun i wait hi => .inl (herase i wait hi)⟩

theorem World.SyncRound.joins_eq {wait : SyncWait} {ticket : ℕ} (h : w.SyncRound wait ticket r) :
    r.1.joins = w.joins ∧ r.1.ticket = w.ticket := by
  cases h <;> exact ⟨rfl, rfl⟩

/-- **Who is parked after a step**: who was, and a `join` that just came in. -/
theorem World.joins_step (call : Call) : w.ticket ≤ (w.step t call).1.ticket ∧
    ∀ i wait, (w.step t call).1.joins.get i = some wait → w.joins.get i = some wait ∨
      i < (w.step t call).1.ticket ∧ ∃ request now later, call = .join wait.group request now later ∧
        wait.memberId = ((w.group wait.group).registerMember t wait.group request now).2 := by
  have hdoes := w.does t call
  generalize w.step t call = r at hdoes ⊢
  cases hdoes with
  | refused hr => exact ⟨le_refl _, fun i wait hi => .inl hi⟩
  | @join target request now later _ hround =>
    obtain ⟨hticket, hjoins⟩ := hround.joins_get
    refine ⟨hticket ▸ Nat.le_succ _, fun i wait hi => ?_⟩
    rcases hjoins i wait hi with hold | ⟨rfl, rfl⟩
    · exact .inl hold
    · exact .inr ⟨hticket ▸ Nat.lt_succ_self _, request, now, later, rfl, rfl⟩
  | @wakeJoin ticket now waiting _ hwait hround =>
    obtain ⟨hticket, hjoins⟩ := hround.joins_get
    refine ⟨hticket.ge, fun i wait hi => ?_⟩
    rcases hjoins i wait hi with hold | ⟨rfl, rfl⟩
    · exact .inl hold
    · exact .inl hwait
  | sync hstart hround =>
    obtain ⟨hjoins, hticket⟩ := hround.joins_eq
    exact ⟨hticket ▸ Nat.le_succ _, fun i wait hi => .inl (by rwa [hjoins] at hi)⟩
  | wakeSync hround =>
    obtain ⟨hjoins, hticket⟩ := hround.joins_eq
    exact ⟨hticket.ge, fun i wait hi => .inl (by rwa [hjoins] at hi)⟩
  | heartbeat => exact ⟨le_refl _, fun i wait hi => .inl hi⟩
  | leave => exact ⟨le_refl _, fun i wait hi => .inl hi⟩

/-- Every call that is parked has a ticket that was issued, and something to wait for. -/
structure Attended (w : World) : Prop where
  issued : ∀ i wait, w.joins.get i = some wait → i < w.ticket
  waits : ∀ i wait, w.joins.get i = some wait → (w.group wait.group).Waits
  windowed : ∀ name, Windowed (w.group name)

theorem Attended.new : Attended .new :=
  ⟨nofun, nofun, nofun⟩

variable {call : Call}

/-- A group on which a call is parked has something to wait for after a step as well. -/
theorem Attended.waits_step (hw : Attended w) (hok : ¬ Strands w call) {i : ℕ} {wait : JoinWait}
    (hi : w.joins.get i = some wait) : ((w.step t call).1.group wait.group).Waits := by
  have hwaits := hw.waits i wait hi
  have hparked : ParkedOn w wait.group := ⟨i, hw.issued i wait hi, wait, hi, rfl⟩
  rcases @group_step w wait.group t call with hsame | ⟨request, now, later, rfl, hjoin⟩ | ⟨-, -, -, -, hclose⟩ |
    ⟨member, assignments, now, later, rfl, -, -, -, hassign⟩ | ⟨member, generation, now, rfl, hbeat⟩ |
    ⟨member, now, rfl, hleft⟩
  · rwa [hsame]
  · rcases hjoin with heq | heq
    · rw [heq]
      exact Group.Waits.register (hw.windowed wait.group) request now
    · rw [heq]
      exact .inl (.inl rfl)
  · rw [hclose]
    exact .inl (.inl rfl)
  · rw [hassign]
    exact .inl (.inr rfl)
  · rw [hbeat]
    exact hwaits.beaten member generation fun h => hok ⟨hparked, h⟩
  · rw [hleft]
    exact hwaits.left member now fun h => hok ⟨hparked, h⟩

/-- A step that strands nobody. -/
theorem Attended.step (hw : Attended w) (hok : ¬ Strands w call) : Attended (w.step t call).1 := by
  obtain ⟨hticket, hjoins⟩ := joins_step (t := t) (w := w) call
  refine ⟨fun i wait hi => ?_, fun i wait hi => ?_, fun name => ?_⟩
  · rcases hjoins i wait hi with hold | ⟨hlt, -⟩
    · exact lt_of_lt_of_le (hw.issued i wait hold) hticket
    · exact hlt
  · rcases hjoins i wait hi with hold | ⟨-, request, now, later, rfl, -⟩
    · exact hw.waits_step hok hold
    · rcases @group_join w wait.group t request now later with heq | heq
      · rw [heq]
        exact Group.Waits.register (hw.windowed wait.group) request now
      · rw [heq]
        exact .inl (.inl rfl)
  · exact (Windowed.preserved t name).step (h := []) (unguarded_ok w call) (hw.windowed name)

/-- A call that has something to wait for returns when the deadline has passed. -/
theorem World.returns_of_waits {i : ℕ} {wait : JoinWait} (hi : w.joins.get i = some wait)
    (hwaits : (w.group wait.group).Waits) {now : ℕ} (hnow : ∀ d ∈ (w.group wait.group).deadline, d ≤ now) :
    ∃ outcome, (w.step t (.wakeJoin i now)).2 = .joined wait.group outcome := by
  simp only [step, hi]
  cases hget : w.groups.get wait.group with
  | none => exact ⟨unknownJoin wait.memberId, by simp only [continueJoin, hget]⟩
  | some g =>
    rw [group_of_get hget] at hwaits hnow
    have helapsed := hwaits.pollJoin hnow
    rcases hpoll : g.pollJoin now with ⟨g', elapsed⟩
    rw [hpoll] at helapsed
    obtain rfl : elapsed = true := helapsed
    exact ⟨_, by simp only [continueJoin, hget, hpoll]; rfl⟩

/-- A call that is stranded has nothing to wait for. -/
theorem exists_stranded (h : Strands w call) :
    ∃ i wait, (w.step t call).1.joins.get i = some wait ∧ ¬ ((w.step t call).1.group wait.group).Waits := by
  cases call with
  | leave name member now =>
    obtain ⟨⟨i, -, wait, hi, rfl⟩, hmember, hrest⟩ := h
    refine ⟨i, wait, ?_, ?_⟩
    · cases hget : w.groups.get wait.group <;> simp only [step, hget] <;> exact hi
    · rw [group_leave]
      exact not_waits_of_last hmember hrest now
  | heartbeat name member generation now =>
    obtain ⟨⟨i, -, wait, hi, rfl⟩, hdeadline, hsome, hgone⟩ := h
    cases hget : w.groups.get wait.group with
    | none =>
      refine absurd ?_ hsome
      rw [group, hget]
      rfl
    | some g =>
      rw [group_of_get hget] at hdeadline hsome hgone
      simp only [step, hget]
      refine ⟨i, wait, hi, ?_⟩
      rw [group_put]
      exact not_waits_of_evicted hdeadline hsome hgone member generation
  | join name request now later => exact h.elim
  | wakeJoin ticket now => exact h.elim
  | sync name member generation assignments now later => exact h.elim
  | wakeSync ticket now => exact h.elim

end Tickets

/-- **No joiner is parked forever**, in exactly the runs without a step that strands one: there every parked call
finds its window closed or a deadline set, and returns when the clock has passed it. -/
theorem parked_joins_return_iff (t : Timing) (calls : List Call) :
    (∀ k i wait, ((coordinator t).final .new (calls.take k)).joins.get i = some wait →
      ((groupAfter t (calls.take k) wait.group).Closed ∨ (groupAfter t (calls.take k) wait.group).deadline ≠ none) ∧
      ∀ now, (∀ d ∈ (groupAfter t (calls.take k) wait.group).deadline, d ≤ now) →
        ∃ outcome, (((coordinator t).final .new (calls.take k)).step t (.wakeJoin i now)).2 =
          .joined wait.group outcome) ↔
      (coordinator t).Guarded (fun w call => ¬ Strands w call) .new calls := by
  refine ⟨fun h => ?_, fun hok k i wait hi => ?_⟩
  · refine (coordinator t).guarded_of_take _ _ fun k call hcall hstrands => ?_
    obtain ⟨i, wait, hi, hnot⟩ := exists_stranded (t := t) hstrands
    have hnext := (coordinator t).final_take_succ (s := .new) hcall
    refine hnot ?_
    have hwaits := (h (k + 1) i wait (by rw [hnext]; exact hi)).1
    rwa [groupAfter_succ hcall] at hwaits
  · have hattended : Attended ((coordinator t).final .new (calls.take k)) :=
      (coordinator t).invariant_of_step _ (fun _ w => Attended w) (fun _ _ _ hok hw => hw.step hok) .new _ []
        ((coordinator t).guarded_take hok k) Attended.new
    exact ⟨hattended.waits i wait hi, fun now hnow => returns_of_waits hi (hattended.waits i wait hi) hnow⟩

/-- One of two members leaves while both are parked: the other one still has a deadline. -/
theorem parked_joins_return_after_leave :
    let calls : List Call :=
      [.join "g" (joiner "a" 1000) 0 0, .join "g" (joiner "b" 1000) 5 5, .leave "g" "a" 6]
    ∃ outcome, (((coordinator ⟨10, 100⟩).final .new (calls.take 3)).step ⟨10, 100⟩ (.wakeJoin 1 16)).2 =
      .joined "g" outcome := by
  intro calls
  have hreturns := (parked_joins_return_iff ⟨10, 100⟩ calls).2 (by decide +kernel)
  exact (hreturns 3 1 ⟨"g", "b"⟩ (by decide +kernel)).2 16 (by decide +kernel)

/-- The only member leaves while its `JoinGroup` is parked: the call has no deadline and no closed window to wait
for, and a second later it is parked still.  The same, after the leader has assigned in an open window and
all sessions have run out. -/
theorem last_leave_strands_join :
    let left : List Call := [.join "g" (joiner "a" 1000) 0 0, .leave "g" "a" 1]
    let evicted : List Call :=
      [.join "g" (joiner "a" 1) 0 0, .wakeJoin 0 10, .join "g" (joiner "b" 1) 11 11,
        .sync "g" "a" 2 [("a", [1])] 12 12, .heartbeat "g" "a" 2 2000000]
    (((coordinator ⟨10, 100⟩).final .new left).joins.get 0 = some ⟨"g", "a"⟩ ∧
      ¬ (groupAfter ⟨10, 100⟩ left "g").Closed ∧ (groupAfter ⟨10, 100⟩ left "g").deadline = none ∧
      (replies ⟨10, 100⟩ (left ++ [.wakeJoin 0 1000000000])).getLast? = some (.parked 0)) ∧
    ((coordinator ⟨10, 100⟩).final .new evicted).joins.get 1 = some ⟨"g", "b"⟩ ∧
      ¬ (groupAfter ⟨10, 100⟩ evicted "g").Closed ∧ (groupAfter ⟨10, 100⟩ evicted "g").deadline = none := by
  decide +kernel

end Datarail.Groups
