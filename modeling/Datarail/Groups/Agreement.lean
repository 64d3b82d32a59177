/-
# Agreement on leader and protocol

All `JoinGroup` outcomes of a generation are read off the group after its window has closed,
some of them late.  They agree as long as nothing changes the leader in between.

`Agrees` is the invariant: an outcome belongs to a generation up to the group's, and one of the
group's own generation shows its leader and protocol.  A member that leaves starts a new
generation.  A member that is evicted does not, and if it is the leader another takes its place
in the same generation: outcomes that are read later show another leader than those before.
The other exception is the counter, which goes from the largest `i32` back to 1.
-/

import Datarail.Groups.Steps

namespace Datarail.Groups

open Lib List

/-- A step that starts a generation does not meet the last one; the sweep of a heartbeat to a group whose window
is closed finds the leader alive.  A join may evict it, since it starts a generation then. -/
def steady : Guard where
  join _ g := g.generation < i32Max
  assign _ := True
  heartbeat now g := g.Closed → g.LeaderFresh now
  leave g := g.generation < i32Max

instance (now : ℕ) (g : Group) : Decidable (steady.join now g) :=
  inferInstanceAs (Decidable (g.generation < i32Max))

instance (g : Group) : Decidable (steady.assign g) := inferInstanceAs (Decidable True)

instance (now : ℕ) (g : Group) : Decidable (steady.heartbeat now g) :=
  inferInstanceAs (Decidable (g.Closed → g.LeaderFresh now))

instance (g : Group) : Decidable (steady.leave g) := inferInstanceAs (Decidable (g.generation < i32Max))

/-- The outcomes of a group agree with each other, and those of its generation with the group. -/
structure Agrees (name : String) (h : List Reply) (g : Group) : Prop where
  bound : ∀ o, .joined name o ∈ h → o.errorCode = codeNone → o.generation ≤ g.generation
  current : ∀ o, .joined name o ∈ h → o.errorCode = codeNone → o.generation = g.generation →
    (g.Closed ∧ o.leader = g.leader.getD "" ∧ o.protocol = g.protocol.getD "") ∨ (g.state = .empty ∧ g.deadline = none)
  agree : ∀ o o', .joined name o ∈ h → .joined name o' ∈ h → o.errorCode = codeNone → o'.errorCode = codeNone →
    o.generation = o'.generation → o.leader = o'.leader ∧ o.protocol = o'.protocol
  leader : ∀ l ∈ g.leader, l ∈ g.members
  /-- A closed window without a leader is one without members. -/
  leaderless : g.Closed → g.leader = none → g.members.entries = []
  vacant : g.state = .empty → g.members.entries = []

namespace Agrees

variable {t : Timing} {name : String} {h : List Reply} {g : Group}

/-- Replies that are no successful joins. -/
theorem snoc (hg : Agrees name h g) {r : Reply} (hr : ∀ o, r = .joined name o → o.errorCode ≠ codeNone) :
    Agrees name (h ++ [r]) g := by
  have hold : ∀ o, .joined name o ∈ h ++ [r] → o.errorCode = codeNone → .joined name o ∈ h := by
    intro o ho hcode
    rcases mem_append.1 ho with ho | ho
    · exact ho
    · exact absurd hcode (hr o (mem_singleton.1 ho).symm)
  exact ⟨fun o ho hcode => hg.bound o (hold o ho hcode) hcode, fun o ho hcode => hg.current o (hold o ho hcode) hcode,
    fun o o' ho ho' hcode hcode' => hg.agree o o' (hold o ho hcode) (hold o' ho' hcode') hcode hcode',
    hg.leader, hg.leaderless, hg.vacant⟩

/-- A change that no outcome shows. -/
theorem same (hg : Agrees name h g) {g' : Group} (hgeneration : g'.generation = g.generation)
    (hstate : g'.state = g.state) (hleader : g'.leader = g.leader) (hprotocol : g'.protocol = g.protocol)
    (hdeadline : g'.deadline = g.deadline) (hmember : ∀ l ∈ g.leader, l ∈ g'.members)
    (hnil : g.members.entries = [] → g'.members.entries = []) : Agrees name h g' := by
  refine ⟨?_, ?_, hg.agree, ?_, ?_, ?_⟩
  · rw [hgeneration]
    exact hg.bound
  · unfold Group.Closed
    rw [hgeneration, hstate, hleader, hprotocol, hdeadline]
    exact hg.current
  · rw [hleader]
    exact hmember
  · unfold Group.Closed
    rw [hstate, hleader]
    exact fun hclosed hnone => hnil (hg.leaderless hclosed hnone)
  · rw [hstate]
    exact fun hempty => hnil (hg.vacant hempty)

/-- Outcomes of a generation exist only after its window has closed. -/
theorem no_current (hg : Agrees name h g) (hstate : ¬ g.Closed) (hopen : g.state ≠ .empty ∨ g.deadline ≠ none) :
    ∀ o, .joined name o ∈ h → o.errorCode = codeNone → o.generation ≠ g.generation := by
  intro o ho hcode heq
  rcases hg.current o ho hcode heq with ⟨hclosed, -⟩ | ⟨hempty, hnone⟩
  · exact hstate hclosed
  · rcases hopen with hopen | hopen
    · exact hopen hempty
    · exact hopen hnone

/-- A sweep. -/
theorem expireStale (hg : Agrees name h g) {now : ℕ} (hfresh : g.Closed → g.LeaderFresh now) :
    Agrees name h (g.expireStale now) := by
  have hnil : g.members.entries = [] → (g.expireStale now).members.entries = [] := by
    intro hnone
    rw [members_expireStale]
    change g.members.entries.filter _ = []
    rw [hnone, filter_nil]
  have hmember := @leader_expireStale now g hg.leader
  by_cases hclosed : g.Closed
  · obtain ⟨hstate, hleader⟩ := expireStale_of_fresh hg.leader (hfresh hclosed) (hg.leaderless hclosed)
    rw [hleader] at hmember
    exact hg.same generation_expireStale hstate hleader protocol_expireStale deadline_expireStale hmember hnil
  · have hopen : ¬ (g.expireStale now).Closed := by
      unfold Group.Closed at hclosed ⊢
      rcases state_expireStale g now with hstate | ⟨hstate, -⟩ <;> rw [hstate]
      · exact hclosed
      · simp
    refine ⟨?_, ?_, hg.agree, hmember, fun hc => absurd hc hopen, fun hempty => ?_⟩
    · rw [generation_expireStale]
      exact hg.bound
    · rw [generation_expireStale]
      intro o ho hcode heq
      rcases hg.current o ho hcode heq with ⟨hc, -⟩ | ⟨hempty, hnone⟩
      · exact absurd hc hclosed
      · refine .inr ⟨?_, by rw [deadline_expireStale, hnone]⟩
        exact (state_expireStale g now).elim (·.trans hempty) And.left
    · rcases state_expireStale g now with hstate | ⟨-, hnone⟩
      · exact hnil (hg.vacant (hstate ▸ hempty))
      · rw [members_expireStale, hnone]

/-- A new generation. -/
theorem prepare (hbound : ∀ o, .joined name o ∈ h → o.errorCode = codeNone → o.generation ≤ g.generation)
    (hagree : ∀ o o', .joined name o ∈ h → .joined name o' ∈ h → o.errorCode = codeNone → o'.errorCode = codeNone →
      o.generation = o'.generation → o.leader = o'.leader ∧ o.protocol = o'.protocol)
    (hleader : ∀ l ∈ g.leader, l ∈ g.members) (hmax : g.generation < i32Max) (now : ℕ) :
    Agrees name h (g.prepare t now) := by
  have hgeneration : (g.prepare t now).generation = g.generation + 1 := if_pos hmax
  refine ⟨?_, ?_, hagree, ?_, ?_, ?_⟩
  · intro o ho hcode
    have := hbound o ho hcode
    omega
  · intro o ho hcode heq
    have := hbound o ho hcode
    omega
  · intro l hl
    refine AList.lookup_isSome.1 ?_
    change ((mapValues g.members _).lookup l).isSome = true
    rw [lookup_mapValues, Option.isSome_map]
    exact AList.lookup_isSome.2 (hleader l hl)
  · rintro (hstate | hstate) <;> cases hstate
  · intro hstate
    cases hstate

/-- A successful join. -/
theorem joined (hg : Agrees name h g) (hclosed : g.Closed) (mid : String) :
    Agrees name (h ++ [.joined name (g.joinOutcome mid)]) g := by
  -- an outcome is an old one or shows the group as it is
  have hcases : ∀ o, .joined name o ∈ h ++ [.joined name (g.joinOutcome mid)] →
      .joined name o ∈ h ∨ o = g.joinOutcome mid := by
    intro o ho
    rcases mem_append.1 ho with ho | ho
    · exact .inl ho
    · exact .inr (Reply.joined.inj (mem_singleton.1 ho)).2
  have hshown : ∀ o, .joined name o ∈ h → o.errorCode = codeNone → o.generation = g.generation →
      o.leader = g.leader.getD "" ∧ o.protocol = g.protocol.getD "" := by
    intro o ho hcode heq
    rcases hg.current o ho hcode heq with ⟨-, hsame⟩ | ⟨hempty, -⟩
    · exact hsame
    · unfold Group.Closed at hclosed
      rw [hempty] at hclosed
      exact absurd hclosed (by simp)
  refine ⟨fun o ho hcode => ?_, fun o ho hcode heq => ?_, fun o o' ho ho' hcode hcode' heq => ?_, hg.leader,
    hg.leaderless, hg.vacant⟩
  · rcases hcases o ho with ho | rfl
    · exact hg.bound o ho hcode
    · exact le_refl _
  · rcases hcases o ho with ho | rfl
    · exact hg.current o ho hcode heq
    · exact .inl ⟨hclosed, rfl, rfl⟩
  · rcases hcases o ho with ho | rfl
    · rcases hcases o' ho' with ho' | rfl
      · exact hg.agree o o' ho ho' hcode hcode' heq
      · exact hshown o ho hcode heq
    · rcases hcases o' ho' with ho' | rfl
      · obtain ⟨hleader, hprotocol⟩ := hshown o' ho' hcode' heq.symm
        exact ⟨hleader.symm, hprotocol.symm⟩
      · exact ⟨rfl, rfl⟩

/-- A window closes. -/
theorem close (hg : Agrees name h g) (hopen : ¬ g.Closed) (hdeadline : g.deadline ≠ none) : Agrees name h g.close where
  bound := hg.bound
  current o ho hcode heq := absurd heq (hg.no_current hopen (.inr hdeadline) o ho hcode)
  agree := hg.agree
  leader _ hl := mem_of_firstMember hl
  leaderless _ hnone := entries_eq_nil_of_firstMember hnone
  vacant hempty := by cases hempty

/-- The leader's assignments; an outcome of an open window is yet to be given. -/
theorem assign (hg : Agrees name h g) {member : String} (hleader : g.leader = some member)
    (assignments : List (String × Bytes)) : Agrees name h (g.assign assignments) where
  bound := hg.bound
  current o ho hcode heq := by
    rcases hg.current o ho hcode heq with ⟨-, hsame⟩ | ⟨hempty, hnone⟩
    · exact .inl ⟨.inr rfl, hsame⟩
    · exact absurd (hg.leader member hleader) (notMem_of_entries_eq_nil (hg.vacant hempty) member)
  agree := hg.agree
  leader l hl := (mem_assignAll assignments g.members l).2 (hg.leader l hl)
  leaderless _ hnone := by
    change g.leader = none at hnone
    rw [hleader] at hnone
    cases hnone
  vacant hempty := by cases hempty

/-- A member is touched. -/
theorem touch (hg : Agrees name h g) {member : String} {m : Member} (hm : g.members.lookup member = some m)
    (now : ℕ) : Agrees name h (g.touch member m now) := by
  refine hg.same rfl rfl rfl rfl rfl (fun l hl => ?_) fun hnone => ?_
  · exact (AList.mem_insert _).2 (.inr (hg.leader l hl))
  · exact absurd (mem_of_lookup hm) (notMem_of_entries_eq_nil hnone member)

theorem register (hg : Agrees name h g) (request : JoinMember) (now : ℕ) (hok : steady.join now g) :
    Agrees name h (g.registerMember t name request now).1 := by
  obtain ⟨g', mid, m, hmembers, -, hstate, hgeneration, hleader, hprotocol, hdeadline, heq⟩ :=
    registerMember_cases t name request now g
  have hmember : ∀ l ∈ g'.leader, l ∈ g'.members := by
    intro l hl
    rw [hmembers, AList.mem_insert]
    rw [hleader] at hl
    exact .inr (leader_expireStale hg.leader l hl)
  have hbound := hg.bound
  rw [← hgeneration] at hbound
  rw [heq]
  split
  · rename_i hopen
    -- the sweep empties a group or leaves its state, so the window was open before it
    have hbefore : g.state = .preparingRebalance := by
      rw [hstate] at hopen
      rcases state_expireStale g now with hsame | ⟨hempty, -⟩
      · exact hsame.symm.trans hopen
      · cases hempty.symm.trans hopen
    refine ⟨hbound, fun o ho hcode hgen => ?_, hg.agree, hmember, ?_, ?_⟩
    · have hnotclosed : ¬ g.Closed := by
        unfold Group.Closed
        rw [hbefore]
        simp
      rw [hgeneration] at hgen
      exact absurd hgen (hg.no_current hnotclosed (.inl (by rw [hbefore]; simp)) o ho hcode)
    · unfold Group.Closed
      rw [hopen]
      simp
    · rw [hopen]
      simp
  · have hmax : g'.generation < i32Max := hgeneration ▸ hok
    exact prepare hbound hg.agree hmember hmax now

theorem left (hg : Agrees name h g) (member : String) (now : ℕ) (hmax : g.generation < i32Max) :
    Agrees name h (g.leave t member now).1 := by
  rcases leave_cases t member now g with hsame | ⟨hleft, hempty⟩ | ⟨g', hmembers, hgeneration, hleader, hleft⟩
  · rw [hsame]
    exact hg
  · rw [hleft]
    exact ⟨hg.bound, fun _ _ _ _ => .inr ⟨rfl, rfl⟩, hg.agree, nofun, fun _ _ => hempty, fun _ => hempty⟩
  · rw [hleft]
    rw [← hgeneration] at hmax
    refine prepare ?_ hg.agree (fun l hl => ?_) hmax now
    · rw [hgeneration]
      exact hg.bound
    · rcases hleader l hl with ⟨hold, hne⟩ | hnew
      · rw [hmembers, AList.mem_erase]
        exact ⟨hne, hg.leader l hold⟩
      · exact hnew

theorem beaten (hg : Agrees name h g) (member : String) (generation : ℤ) (now : ℕ)
    (hfresh : g.Closed → g.LeaderFresh now) : Agrees name h (g.heartbeat member generation now).1 := by
  have hswept := hg.expireStale hfresh
  exact heartbeat_of hswept fun m hm => hswept.touch hm now

theorem new (name : String) : Agrees name [] .new :=
  ⟨nofun, nofun, nofun, nofun, fun _ _ => rfl, fun _ => rfl⟩

theorem preserved (t : Timing) (name : String) : Preserved t steady name (Agrees name) where
  refused hr hg := hg.snoc fun o heq => by
    rw [heq] at hr
    exact hr
  register request now hok hg := hg.register request now hok
  close hopen hdeadline hg := hg.close hopen hdeadline
  joined mid hclosed hg := hg.joined hclosed mid
  assign assignments _ hleader _ hg := hg.assign hleader assignments
  synced _ _ _ _ hg := hg.snoc nofun
  beaten member generation now hok hg := (hg.beaten member generation now hok).snoc nofun
  left member now hok hg := (hg.left member now hok).snoc nofun

end Agrees

/-- **Agreement.**  In a run in which no heartbeat evicts a leader whose window has closed, the members of a
generation are told the same leader and the same protocol, and at most one of them that it leads. -/
theorem join_outcomes_agree (t : Timing) (calls : List Call) (hok : (coordinator t).Guarded steady.Ok .new calls)
    (name : String) (o o' : JoinOutcome) (ho : .joined name o ∈ replies t calls) (ho' : .joined name o' ∈ replies t calls)
    (hcode : o.errorCode = codeNone) (hcode' : o'.errorCode = codeNone) (hgeneration : o.generation = o'.generation) :
    o.leader = o'.leader ∧ o.protocol = o'.protocol ∧
      (o.leader = o.memberId → o'.leader = o'.memberId → o.memberId = o'.memberId) := by
  have hagrees := (Agrees.preserved t name).run hok (Agrees.new name)
  have habout : ∀ x, .joined name x ∈ replies t calls →
      .joined name x ∈ (replies t calls).filter (Reply.about name) := fun x hx =>
    mem_filter.2 ⟨hx, decide_eq_true rfl⟩
  obtain ⟨hleader, hprotocol⟩ := hagrees.agree o o' (habout o ho) (habout o' ho') hcode hcode' hgeneration
  refine ⟨hleader, hprotocol, fun hself hself' => ?_⟩
  rw [← hself, ← hself', hleader]

/-- Two members join in one window; a heartbeat falls between the outcomes they are told. -/
def lateJoiner (beat : ℕ) : List Call :=
  [.join "g" (joiner "a" 1) 0 0, .join "g" (joiner "b" 1000) 5 5, .wakeJoin 0 10, .heartbeat "g" "b" 1 beat,
    .wakeJoin 1 (beat + 1)]

/-- Within the sessions, both are told one leader. -/
theorem join_outcomes_agree_in_session : (coordinator ⟨10, 100⟩).Guarded steady.Ok .new (lateJoiner 20) ∧
      ∃ o o' : JoinOutcome, .joined "g" o ∈ replies ⟨10, 100⟩ (lateJoiner 20) ∧
        .joined "g" o' ∈ replies ⟨10, 100⟩ (lateJoiner 20) ∧ o.memberId = "a" ∧ o'.memberId = "b" ∧
        o.leader = o'.leader := by
  refine ⟨by decide +kernel, ⟨codeNone, 1, "range", "a", "a", [("a", []), ("b", [])]⟩,
    ⟨codeNone, 1, "range", "a", "b", []⟩, by decide +kernel, by decide +kernel, rfl, rfl, ?_⟩
  exact (join_outcomes_agree ⟨10, 100⟩ (lateJoiner 20) (by decide +kernel) "g" _ _ (by decide +kernel)
    (by decide +kernel) rfl rfl rfl).1

/-- The heartbeat comes after the leader's session has run out: both members are told that they lead
generation 1. -/
theorem evicted_leader_replaced_in_generation :
    ∃ o o' : JoinOutcome, .joined "g" o ∈ replies ⟨10, 100⟩ (lateJoiner 2000000) ∧
      .joined "g" o' ∈ replies ⟨10, 100⟩ (lateJoiner 2000000) ∧
      o.errorCode = codeNone ∧ o'.errorCode = codeNone ∧ o.generation = o'.generation ∧
      o.leader = o.memberId ∧ o'.leader = o'.memberId ∧ o.memberId ≠ o'.memberId :=
  ⟨⟨codeNone, 1, "range", "a", "a", [("a", []), ("b", [])]⟩, ⟨codeNone, 1, "range", "b", "b", [("b", [])]⟩,
    by decide +kernel, by decide +kernel, rfl, rfl, rfl, rfl, rfl, by decide⟩

end Datarail.Groups
