/-
# Stable groups

A group is `Stable` from the leader's assignments on until its generation ends, and only there do
its members hold assignments (`Placed`).  `Since` says what a fact about the members of a stable
group becomes as the run goes on: the group is past the generation, or still stable and the fact
holds, or everybody is gone.

Two facts are followed that way.  A member that holds an assignment is a member as long as the
generation lasts (`assigned_still_member`), and its assignment is the one it has been told
(`one_assignment`).  Neither is so in every run: a sweep of a heartbeat may take a member out of a
stable group without a new generation, and the leader may assign twice, or before the window has
closed.
-/

import Datarail.Groups.Steps

namespace Datarail.Groups

open Lib List Option

/-- Assignments are held in a stable group only; a stable group has no window, an empty one no members. -/
structure Placed (g : Group) : Prop where
  stable : ∀ x m, g.members.lookup x = some m → m.assignment ≠ none → g.state = .stable
  settled : g.state = .stable → g.deadline = none
  vacant : g.state = .empty → g.members.entries = []

namespace Placed

variable {g : Group}

theorem new : Placed .new :=
  ⟨fun _ _ h => absurd h (some_ne_none _).symm, nofun, fun _ => rfl⟩

theorem expireStale (hg : Placed g) (now : ℕ) : Placed (g.expireStale now) := by
  have hold : ∀ x m, (g.expireStale now).members.lookup x = some m → g.members.lookup x = some m := by
    intro x m hm
    rw [members_expireStale, lookup_survivors, filter_eq_some_iff] at hm
    exact hm.1
  have hkept : (g.expireStale now).state = g.state → Placed (g.expireStale now) := by
    intro hstate
    refine ⟨fun x m hm hsome => ?_, fun hstable => ?_, fun hempty => ?_⟩
    · rw [hstate]
      exact hg.stable x m (hold x m hm) hsome
    · rw [deadline_expireStale]
      exact hg.settled (hstate ▸ hstable)
    · rw [members_expireStale]
      change g.members.entries.filter _ = []
      rw [hg.vacant (hstate ▸ hempty), filter_nil]
  rcases state_expireStale g now with hstate | ⟨hstate, hnone⟩
  · exact hkept hstate
  · refine ⟨fun x m hm => ?_, fun hstable => ?_, fun _ => ?_⟩
    · rw [members_expireStale] at hm
      exact absurd (mem_of_lookup hm) (notMem_of_entries_eq_nil hnone x)
    · rw [hstate] at hstable
      cases hstable
    · rw [members_expireStale, hnone]

/-- A new generation starts without assignments. -/
theorem prepare (t : Timing) (now : ℕ) (g : Group) : Placed (g.prepare t now) := by
  refine ⟨fun x m hm hsome => ?_, nofun, nofun⟩
  change (mapValues g.members _).lookup x = some m at hm
  rw [lookup_mapValues] at hm
  obtain ⟨m', -, rfl⟩ := map_eq_some_iff.1 hm
  exact absurd rfl hsome

theorem register (hg : Placed g) (t : Timing) (name : String) (request : JoinMember) (now : ℕ) :
    Placed (g.registerMember t name request now).1 := by
  have hswept := hg.expireStale now
  obtain ⟨g', mid, m, hmembers, hm, hstate, -, -, -, -, heq⟩ := registerMember_cases t name request now g
  rw [heq]
  split
  · rename_i hopen
    refine ⟨fun x m' hm' hsome => ?_, fun h => ?_, fun h => ?_⟩
    · rw [hmembers, lookup_insert_ite] at hm'
      split at hm'
      · rw [some.inj hm'] at hm
        exact absurd hm hsome
      · rw [hstate]
        exact hswept.stable x m' hm' hsome
    · rw [hopen] at h
      cases h
    · rw [hopen] at h
      cases h
  · exact prepare t now g'

theorem close (hg : Placed g) (hopen : ¬ g.Closed) : Placed g.close :=
  ⟨fun x m hm hsome => absurd (.inr (hg.stable x m hm hsome)) hopen, nofun, nofun⟩

theorem assign (g : Group) (assignments : List (String × Bytes)) : Placed (g.assign assignments) :=
  ⟨fun _ _ _ _ => rfl, fun _ => rfl, nofun⟩

theorem touch (hg : Placed g) {member : String} {m : Member} (hm : g.members.lookup member = some m) (now : ℕ) :
    Placed (g.touch member m now) := by
  refine ⟨fun x m' hm' hsome => ?_, hg.settled, fun hempty => ?_⟩
  · change (g.members.insert member { m with lastHeartbeat := now }).lookup x = some m' at hm'
    rw [lookup_insert_ite] at hm'
    split at hm'
    · rw [← some.inj hm'] at hsome
      exact hg.stable member m hm hsome
    · exact hg.stable x m' hm' hsome
  · exact absurd (mem_of_lookup hm) (notMem_of_entries_eq_nil (hg.vacant hempty) member)

theorem beaten (hg : Placed g) (member : String) (generation : ℤ) (now : ℕ) :
    Placed (g.heartbeat member generation now).1 :=
  heartbeat_of (hg.expireStale now) fun _ hm => (hg.expireStale now).touch hm now

theorem left (hg : Placed g) (t : Timing) (member : String) (now : ℕ) : Placed (g.leave t member now).1 := by
  rcases leave_cases t member now g with hleft | ⟨hleft, hempty⟩ | ⟨g', -, -, -, hleft⟩ <;> rw [hleft]
  · exact hg
  · refine ⟨fun x m hm => ?_, nofun, fun _ => hempty⟩
    exact absurd (mem_of_lookup hm) (notMem_of_entries_eq_nil hempty x)
  · exact prepare t now g'

/-- Assignments are held in stable groups only, after every call. -/
theorem preserved (t : Timing) (name : String) : Preserved t unguarded name fun _ g => Placed g where
  refused _ hg := hg
  register request now _ hg := hg.register t name request now
  close hopen _ hg := hg.close hopen
  joined _ _ hg := hg
  assign assignments _ _ _ _ := assign _ assignments
  synced _ _ _ _ hg := hg
  beaten member generation now _ hg := hg.beaten member generation now
  left member now _ hg := hg.left t member now

end Placed

/-- What became of a fact about the members of a group that was stable in generation `γ`. -/
def Since (γ : ℤ) (P : (AList fun _ : String => Member) → Prop) (g : Group) : Prop :=
  γ < g.generation ∨ g.generation = γ ∧ (g.state = .stable ∧ P g.members ∨ g.state = .empty ∧ g.deadline = none)

namespace Since

variable {γ : ℤ} {P : (AList fun _ : String => Member) → Prop} {g : Group}

/-- A group does not go back behind the generation. -/
theorem le (hg : Since γ P g) : γ ≤ g.generation := by
  rcases hg with hlt | ⟨heq, -⟩ <;> omega

/-- A rebalance leaves the generation behind. -/
theorem prepare (t : Timing) (now : ℕ) (hle : γ ≤ g.generation) (hmax : g.generation < i32Max) :
    Since γ P (g.prepare t now) := by
  refine .inl ?_
  change γ < nextGeneration g.generation
  rw [nextGeneration, if_pos hmax]
  omega

/-- A window is open in a later generation only. -/
theorem lt_of_open (hg : Since γ P g) (hstable : g.state ≠ .stable) (hwindow : g.state ≠ .empty ∨ g.deadline ≠ none) :
    γ < g.generation := by
  rcases hg with hlt | ⟨-, ⟨h, -⟩ | ⟨hempty, hnone⟩⟩
  · exact hlt
  · exact absurd h hstable
  · rcases hwindow with h | h
    · exact absurd hempty h
    · exact absurd hnone h

theorem register (hg : Since γ P g) (hmax : g.generation < i32Max) (t : Timing) (name : String)
    (request : JoinMember) (now : ℕ) : Since γ P (g.registerMember t name request now).1 := by
  obtain ⟨g', mid, m, -, -, hstate, hgeneration, -, -, -, heq⟩ := registerMember_cases t name request now g
  rw [heq]
  split
  · rename_i hopen
    rw [hstate] at hopen
    have hbefore : g.state = .preparingRebalance := by
      rcases state_expireStale g now with hsame | ⟨hempty, -⟩
      · rw [← hsame, hopen]
      · rw [hempty] at hopen
        cases hopen
    refine .inl ?_
    rw [hgeneration]
    exact hg.lt_of_open (by rw [hbefore]; simp) (.inl (by rw [hbefore]; simp))
  · rw [← hgeneration] at hmax
    exact prepare t now (hgeneration ▸ hg.le) hmax

theorem close (hg : Since γ P g) (hopen : ¬ g.Closed) (hdeadline : g.deadline ≠ none) : Since γ P g.close :=
  .inl (hg.lt_of_open (fun h => hopen (.inr h)) (.inr hdeadline))

/-- The fact survives the leader's assignments if they keep it. -/
theorem assign (hg : Since γ P g) (hplaced : Placed g) {member : String} (hmember : member ∈ g.members)
    (assignments : List (String × Bytes))
    (hP : g.state = .stable → P g.members → P (Group.assignAll assignments g.members)) :
    Since γ P (g.assign assignments) := by
  rcases hg with hlt | ⟨heq, ⟨hstable, hmembers⟩ | ⟨hempty, -⟩⟩
  · exact .inl hlt
  · exact .inr ⟨heq, .inl ⟨rfl, hP hstable hmembers⟩⟩
  · exact absurd hmember (notMem_of_entries_eq_nil (hplaced.vacant hempty) member)

/-- It survives a sweep that keeps it or empties the group. -/
theorem expireStale (hg : Since γ P g) (hplaced : Placed g) (now : ℕ)
    (hP : g.state = .stable → P g.members → (g.expireStale now).state = .empty ∨ P (g.survivors now)) :
    Since γ P (g.expireStale now) := by
  have hempty : g.generation = γ → (g.state = .stable ∨ g.state = .empty ∧ g.deadline = none) →
      (g.expireStale now).state = .empty → Since γ P (g.expireStale now) := by
    intro heq hstate hgone
    refine .inr ⟨generation_expireStale.trans heq, .inr ⟨hgone, ?_⟩⟩
    rw [deadline_expireStale]
    exact hstate.elim hplaced.settled And.right
  rcases hg with hlt | ⟨heq, ⟨hstable, hmembers⟩ | ⟨hvacant, hnone⟩⟩
  · refine .inl ?_
    rwa [generation_expireStale]
  · rcases hP hstable hmembers with hgone | hkept
    · exact hempty heq (.inl hstable) hgone
    · rcases state_expireStale g now with hsame | ⟨hgone, -⟩
      · refine .inr ⟨generation_expireStale.trans heq, .inl ⟨hsame.trans hstable, ?_⟩⟩
        rwa [members_expireStale]
      · exact hempty heq (.inl hstable) hgone
  · exact hempty heq (.inr ⟨hvacant, hnone⟩) ((state_expireStale g now).elim (·.trans hvacant) And.left)

theorem touch (hg : Since γ P g) {member : String} {m : Member} (now : ℕ)
    (hP : P g.members → P (g.members.insert member { m with lastHeartbeat := now })) :
    Since γ P (g.touch member m now) := by
  rcases hg with hlt | ⟨heq, ⟨hstable, hmembers⟩ | hvacant⟩
  · exact .inl hlt
  · exact .inr ⟨heq, .inl ⟨hstable, hP hmembers⟩⟩
  · exact .inr ⟨heq, .inr hvacant⟩

theorem beaten (hg : Since γ P g) (hplaced : Placed g) (member : String) (generation : ℤ) (now : ℕ)
    (hsweep : g.state = .stable → P g.members → (g.expireStale now).state = .empty ∨ P (g.survivors now))
    (htouch : ∀ members m, members.lookup member = some m → P members →
      P (members.insert member { m with lastHeartbeat := now })) :
    Since γ P (g.heartbeat member generation now).1 := by
  have hswept := hg.expireStale hplaced now hsweep
  exact heartbeat_of hswept fun m hm => hswept.touch now (htouch _ m hm)

theorem left (hg : Since γ P g) (hmax : g.generation < i32Max) (t : Timing) (member : String) (now : ℕ) :
    Since γ P (g.leave t member now).1 := by
  rcases leave_cases t member now g with hleft | ⟨hleft, -⟩ | ⟨g', -, hgeneration, -, hleft⟩ <;> rw [hleft]
  · exact hg
  · rcases hg with hlt | ⟨heq, -⟩
    · exact .inl hlt
    · exact .inr ⟨heq, .inr ⟨rfl, rfl⟩⟩
  · rw [← hgeneration] at hmax
    exact prepare t now (hgeneration ▸ hg.le) hmax

end Since

/-- What an answer to a `sync` says about the group. -/
theorem pollSync_none {g : Group} {member : String} {generation : ℤ} {bytes : Bytes}
    (h : g.pollSync member generation = some ⟨codeNone, bytes⟩) :
    g.generation = generation ∧ ∃ m, g.members.lookup member = some m ∧ m.assignment.getD [] = bytes ∧
      (m.assignment = none → g.state = .stable) := by
  unfold Group.pollSync at h
  by_cases hgeneration : g.generation ≠ generation
  · rw [if_pos hgeneration] at h
    exact absurd (congrArg SyncOutcome.errorCode (some.inj h)) (by decide : rebalanceInProgress ≠ codeNone)
  · rw [if_neg hgeneration] at h
    refine ⟨not_ne_iff.1 hgeneration, ?_⟩
    cases hm : g.members.lookup member with
    | none =>
      rw [hm] at h
      exact absurd (congrArg SyncOutcome.errorCode (some.inj h)) (by decide : unknownMemberId ≠ codeNone)
    | some m =>
      rw [hm] at h
      refine ⟨m, rfl, ?_⟩
      dsimp only at h
      cases ha : m.assignment with
      | some a =>
        rw [ha] at h
        exact ⟨congrArg SyncOutcome.assignment (some.inj h), nofun⟩
      | none =>
        rw [ha] at h
        dsimp only at h
        split at h
        · exact ⟨congrArg SyncOutcome.assignment (some.inj h), fun _ => ‹_›⟩
        · cases h

section Departures

variable {t : Timing} {name : String} {g : Group}

/-- A step that starts a generation does not meet the last one; a heartbeat that finds a stable group
evicts nobody who holds an assignment, or everybody. -/
def attended : Guard where
  join _ g := g.generation < i32Max
  assign _ := True
  heartbeat now g := g.state = .stable →
    (g.survivors now).entries = [] ∨ ∀ e ∈ g.members.entries, e.2.assignment ≠ none → e.2.Fresh now
  leave g := g.generation < i32Max

instance (now : ℕ) (g : Group) : Decidable (attended.join now g) := inferInstanceAs (Decidable (g.generation < i32Max))

instance (g : Group) : Decidable (attended.assign g) := inferInstanceAs (Decidable True)

instance (now : ℕ) (g : Group) : Decidable (attended.heartbeat now g) :=
  inferInstanceAs (Decidable (g.state = .stable →
    (g.survivors now).entries = [] ∨ ∀ e ∈ g.members.entries, e.2.assignment ≠ none → e.2.Fresh now))

instance (g : Group) : Decidable (attended.leave g) := inferInstanceAs (Decidable (g.generation < i32Max))

/-- A member holds an assignment, be it an empty one. -/
def HasAssignment (x : String) (members : AList fun _ : String => Member) : Prop :=
  ∃ m, members.lookup x = some m ∧ m.assignment ≠ none

variable {members : AList fun _ : String => Member}

/-- The assignments of the leader take none away. -/
theorem HasAssignment.assignAll {x : String} (assignments : List (String × Bytes))
    (h : HasAssignment x members) :
    HasAssignment x (Group.assignAll assignments members) := by
  induction assignments generalizing members with
  | nil => exact h
  | cons a rest ih =>
    rw [Group.assignAll]
    cases hm : members.lookup a.1 with
    | none => exact ih h
    | some m =>
      refine ih ?_
      obtain ⟨m', hm', hsome⟩ := h
      by_cases hx : x = a.1
      · refine ⟨{ m with assignment := some a.2 }, ?_, some_ne_none _⟩
        rw [lookup_insert_ite, if_pos hx]
      · refine ⟨m', ?_, hsome⟩
        rw [lookup_insert_ite, if_neg hx, hm']

/-- Nor does a heartbeat. -/
theorem HasAssignment.touch {x member : String} {m : Member}
    (hm : members.lookup member = some m) (now : ℕ) (h : HasAssignment x members) :
    HasAssignment x (members.insert member { m with lastHeartbeat := now }) := by
  obtain ⟨m', hm', hsome⟩ := h
  by_cases hx : x = member
  · subst hx
    rw [hm] at hm'
    obtain rfl := some.inj hm'
    refine ⟨{ m with lastHeartbeat := now }, ?_, hsome⟩
    rw [lookup_insert_ite, if_pos rfl]
  · refine ⟨m', ?_, hsome⟩
    rw [lookup_insert_ite, if_neg hx, hm']

/-- The sweep of a heartbeat the guard allows. -/
theorem HasAssignment.sweep {x : String} {now : ℕ} (hok : attended.heartbeat now g) (hstable : g.state = .stable)
    (h : HasAssignment x g.members) : (g.expireStale now).state = .empty ∨ HasAssignment x (g.survivors now) := by
  obtain ⟨m, hm, hsome⟩ := h
  rcases hok hstable with hnone | hfresh
  · refine .inl (expireStale_of_survivors_nil hnone fun hempty => ?_)
    exact notMem_of_entries_eq_nil hempty x (mem_of_lookup hm)
  · refine .inr ⟨m, ?_, hsome⟩
    have halive : m.Fresh now := hfresh ⟨x, m⟩ (AList.mem_lookup_iff.1 hm) hsome
    rw [lookup_survivors, hm, filter_some, if_pos (decide_eq_true halive)]

/-- Who was told an assignment, or is known to hold one, is followed from there on. -/
def Followed (name : String) (S : String → ℤ → Prop) (h : List Reply) (g : Group) : Prop :=
  Placed g ∧ ∀ x γ, (S x γ ∨ ∃ bytes, bytes ≠ [] ∧ .synced name x γ ⟨codeNone, bytes⟩ ∈ h) → Since γ (HasAssignment x) g

/-- One more answer, followed if it is an assignment. -/
theorem Followed.snoc {S : String → ℤ → Prop} {h : List Reply} {r : Reply} (hg : Followed name S h g)
    (hr : ∀ x γ bytes, bytes ≠ [] → r = .synced name x γ ⟨codeNone, bytes⟩ → Since γ (HasAssignment x) g) :
    Followed name S (h ++ [r]) g := by
  refine ⟨hg.1, fun x γ hx => ?_⟩
  rcases hx with hx | ⟨bytes, hne, hmem⟩
  · exact hg.2 x γ (.inl hx)
  · rcases mem_append.1 hmem with hmem | hmem
    · exact hg.2 x γ (.inr ⟨bytes, hne, hmem⟩)
    · exact hr x γ bytes hne (mem_singleton.1 hmem).symm

/-- Who was told an assignment is followed through every call. -/
theorem Followed.preserved (t : Timing) (name : String) (S : String → ℤ → Prop) :
    Preserved t attended name (Followed name S) where
  refused hr hg := hg.snoc fun x γ bytes _ heq => by
    rw [heq] at hr
    exact absurd rfl hr
  register request now hok hg :=
    ⟨hg.1.register t name request now, fun x γ hx => (hg.2 x γ hx).register hok t name request now⟩
  close hopen hdeadline hg := ⟨hg.1.close hopen, fun x γ hx => (hg.2 x γ hx).close hopen hdeadline⟩
  joined _ _ hg := hg.snoc nofun
  assign assignments hmember _ _ hg :=
    ⟨Placed.assign _ assignments, fun x γ hx =>
      (hg.2 x γ hx).assign hg.1 hmember assignments fun _ hheld => hheld.assignAll assignments⟩
  synced member generation outcome hpoll hg := hg.snoc fun x γ bytes hne heq => by
    obtain ⟨-, rfl, rfl, rfl⟩ := Reply.synced.inj heq
    obtain ⟨hgeneration, m, hm, hbytes, -⟩ := pollSync_none hpoll
    have hsome : m.assignment ≠ none := by
      intro hnone
      rw [hnone] at hbytes
      exact hne hbytes.symm
    exact .inr ⟨hgeneration, .inl ⟨hg.1.stable member m hm hsome, m, hm, hsome⟩⟩
  beaten member generation now hok hg := by
    refine Followed.snoc ⟨hg.1.beaten member generation now, fun x γ hx => ?_⟩ nofun
    exact (hg.2 x γ hx).beaten hg.1 member generation now (fun hstable hheld => hheld.sweep hok hstable)
      fun members m hm hheld => hheld.touch hm now
  left member now hok hg := by
    refine Followed.snoc ⟨hg.1.left t member now, fun x γ hx => ?_⟩ nofun
    exact (hg.2 x γ hx).left hok t member now

end Departures

/-- In the first `k` steps of a run, a member was given a non-empty assignment in a generation: it was told
so, or the group after the `k` steps has it. -/
def Assigned (t : Timing) (calls : List Call) (k : ℕ) (name x : String) (γ : ℤ) : Prop :=
  (∃ bytes, bytes ≠ [] ∧ .synced name x γ ⟨codeNone, bytes⟩ ∈ replies t (calls.take k)) ∨
    (groupAfter t (calls.take k) name).generation = γ ∧
      ∃ m bytes, (groupAfter t (calls.take k) name).members.lookup x = some m ∧ m.assignment = some bytes ∧ bytes ≠ []

/-- A heartbeat that succeeds finds the group stable in its generation. -/
theorem stable_of_beaten {t : Timing} {calls : List Call} {name member : String} {γ : ℤ} {j : ℕ}
    (hbeat : (replies t calls)[j]? = some (.beaten name member γ codeNone)) :
    (groupAfter t (calls.take (j + 1)) name).state = .stable ∧
      (groupAfter t (calls.take (j + 1)) name).generation = γ := by
  rw [replies, getElem?_map, Machine.getElem?_trace, Option.map_map] at hbeat
  obtain ⟨call, hcall, hreply⟩ := map_eq_some_iff.1 hbeat
  obtain ⟨now, -, hcode, hgroup⟩ := World.step_beaten hreply
  rw [groupAfter_succ hcall, hgroup]
  rcases heartbeat_cases member γ now (((coordinator t).final .new (calls.take j)).group name) with
    ⟨hne, -⟩ | ⟨m, -, hbeat, hstate⟩
  · exact absurd hcode hne
  · rw [hbeat]
    exact ⟨(hstate hcode).1, generation_expireStale.trans (hstate hcode).2⟩

/-- **No survivor goes on alone.**  In a run in which no heartbeat evicts only part of those that hold
assignments in a stable group, a heartbeat that succeeds finds every member that was given a non-empty
assignment in its generation still in the group. -/
theorem assigned_still_member (t : Timing) (calls : List Call) (hok : (coordinator t).Guarded attended.Ok .new calls)
    (name x member : String) (γ : ℤ) (i j : ℕ) (hij : i ≤ j) (hgiven : Assigned t calls i name x γ)
    (hbeat : (replies t calls)[j]? = some (.beaten name member γ codeNone)) :
    x ∈ (groupAfter t (calls.take (j + 1)) name).members := by
  have hpre : calls.take i ++ (calls.take (j + 1)).drop i = calls.take (j + 1) := by
    have htake := take_append_drop i (calls.take (j + 1))
    rwa [take_take, min_eq_left (by omega)] at htake
  have hguarded : (coordinator t).Guarded attended.Ok .new (calls.take i ++ (calls.take (j + 1)).drop i) := by
    rw [hpre]
    exact (coordinator t).guarded_take hok (j + 1)
  obtain ⟨hbefore, hafter⟩ := ((coordinator t).guarded_append _ _ _).1 hguarded
  obtain ⟨hplaced, htold⟩ := (Followed.preserved t name fun _ _ => False).run hbefore ⟨Placed.new, by simp⟩
  have hsince : Since γ (HasAssignment x) (groupAfter t (calls.take i) name) := by
    rcases hgiven with ⟨bytes, hne, hmem⟩ | ⟨hgeneration, m, bytes, hm, hbytes, -⟩
    · exact htold x γ (.inr ⟨bytes, hne, mem_filter.2 ⟨hmem, decide_eq_true rfl⟩⟩)
    · have hsome : m.assignment ≠ none := by
        rw [hbytes]
        exact some_ne_none bytes
      exact .inr ⟨hgeneration, .inl ⟨hplaced.stable x m hm hsome, m, hm, hsome⟩⟩
  -- From there on only this member is followed.
  have hfollowed : Followed name (fun y δ => y = x ∧ δ = γ) [] (groupAfter t (calls.take i) name) := by
    refine ⟨hplaced, ?_⟩
    rintro y δ (⟨rfl, rfl⟩ | ⟨bytes, -, hmem⟩)
    · exact hsince
    · cases hmem
  have hend := ((Followed.preserved t name fun y δ => y = x ∧ δ = γ).run hafter hfollowed).2 x γ (.inl ⟨rfl, rfl⟩)
  rw [← Machine.final_append, hpre] at hend
  change Since γ (HasAssignment x) (groupAfter t (calls.take (j + 1)) name) at hend
  obtain ⟨hstable, hgeneration⟩ := stable_of_beaten hbeat
  rcases hend with hlt | ⟨-, ⟨-, m, hm, -⟩ | ⟨hempty, -⟩⟩
  · omega
  · exact mem_of_lookup hm
  · rw [hstable] at hempty
    cases hempty

/-- Two members share a generation and are assigned something each; then one of them sends a heartbeat. -/
def survivorBeats (beat : ℕ) : List Call :=
  [.join "g" (joiner "a" 1000) 0 0, .join "g" (joiner "b" 1) 5 5, .wakeJoin 0 10, .wakeJoin 1 10,
    .sync "g" "a" 1 [("a", [1]), ("b", [2])] 11 11, .sync "g" "b" 1 [] 12 12, .heartbeat "g" "a" 1 beat]

/-- Within the sessions, the assigned member still is one. -/
theorem assigned_still_member_in_session : (coordinator ⟨10, 100⟩).Guarded attended.Ok .new (survivorBeats 20) ∧
      "b" ∈ (groupAfter ⟨10, 100⟩ ((survivorBeats 20).take 7) "g").members :=
  ⟨by decide +kernel, assigned_still_member ⟨10, 100⟩ (survivorBeats 20) (by decide +kernel) "g" "b" "a" 1 6 6 le_rfl
    (.inl ⟨[2], by decide, by decide +kernel⟩) (by decide +kernel)⟩

/-- The heartbeat evicts the other member, and succeeds. -/
theorem survivor_goes_on_alone :
    .synced "g" "b" 1 ⟨codeNone, [2]⟩ ∈ replies ⟨10, 100⟩ ((survivorBeats 2000000).take 6) ∧
      (replies ⟨10, 100⟩ (survivorBeats 2000000))[6]? = some (.beaten "g" "a" 1 codeNone) ∧
      "b" ∉ (groupAfter ⟨10, 100⟩ (survivorBeats 2000000) "g").members := by
  decide +kernel

section Assignments

variable {t : Timing} {name : String} {g : Group}

/-- A step that starts a generation does not meet the last one; the leader's assignments come when the
window is closed, and once. -/
def prompt : Guard where
  join _ g := g.generation < i32Max
  assign g := g.state = .completingRebalance
  heartbeat _ _ := True
  leave g := g.generation < i32Max

instance (now : ℕ) (g : Group) : Decidable (prompt.join now g) := inferInstanceAs (Decidable (g.generation < i32Max))

instance (g : Group) : Decidable (prompt.assign g) :=
  inferInstanceAs (Decidable (g.state = .completingRebalance))

instance (now : ℕ) (g : Group) : Decidable (prompt.heartbeat now g) := inferInstanceAs (Decidable True)

instance (g : Group) : Decidable (prompt.leave g) := inferInstanceAs (Decidable (g.generation < i32Max))

/-- A member, if it is one, would be told `bytes`. -/
def Tells (x : String) (bytes : Bytes) (members : AList fun _ : String => Member) : Prop :=
  ∀ m, members.lookup x = some m → m.assignment.getD [] = bytes

variable {bytes : Bytes}

theorem Tells.touch {x member : String} {m : Member} {members : AList fun _ : String => Member}
    (hm : members.lookup member = some m) (now : ℕ) (h : Tells x bytes members) :
    Tells x bytes (members.insert member { m with lastHeartbeat := now }) := by
  intro m' hm'
  rw [lookup_insert_ite] at hm'
  split at hm'
  · subst x
    rw [← some.inj hm']
    exact h m hm
  · exact h m' hm'

/-- A sweep changes no assignment. -/
theorem Tells.survivors {x : String} (now : ℕ) (h : Tells x bytes g.members) :
    Tells x bytes (g.survivors now) := by
  intro m hm
  rw [lookup_survivors, filter_eq_some_iff] at hm
  exact h m hm.1

/-- What members were told in a generation is one thing, and what they would be told in it still. -/
structure Told (name : String) (h : List Reply) (g : Group) : Prop where
  placed : Placed g
  since : ∀ x γ bytes, .synced name x γ ⟨codeNone, bytes⟩ ∈ h → Since γ (Tells x bytes) g
  unique : ∀ x γ bytes bytes', .synced name x γ ⟨codeNone, bytes⟩ ∈ h → .synced name x γ ⟨codeNone, bytes'⟩ ∈ h →
    bytes = bytes'

/-- An answer that is no assignment. -/
theorem Told.snoc {h : List Reply} {r : Reply} (hg : Told name h g)
    (hr : ∀ x γ bytes, r ≠ .synced name x γ ⟨codeNone, bytes⟩) : Told name (h ++ [r]) g := by
  have hold : ∀ x γ bytes, .synced name x γ ⟨codeNone, bytes⟩ ∈ h ++ [r] → .synced name x γ ⟨codeNone, bytes⟩ ∈ h := by
    intro x γ bytes hmem
    rcases mem_append.1 hmem with hmem | hmem
    · exact hmem
    · exact absurd (mem_singleton.1 hmem).symm (hr x γ bytes)
  exact ⟨hg.placed, fun x γ bytes hmem => hg.since x γ bytes (hold x γ bytes hmem),
    fun x γ bytes bytes' hmem hmem' => hg.unique x γ bytes bytes' (hold x γ bytes hmem) (hold x γ bytes' hmem')⟩

/-- An answer is what all answers in the generation were. -/
theorem Told.synced {h : List Reply} (hg : Told name h g) {member : String} {generation : ℤ}
    (hpoll : g.pollSync member generation = some ⟨codeNone, bytes⟩) :
    Told name (h ++ [.synced name member generation ⟨codeNone, bytes⟩]) g := by
  obtain ⟨hgeneration, m, hm, hbytes, hstable⟩ := pollSync_none hpoll
  have hsame : ∀ bytes', .synced name member generation ⟨codeNone, bytes'⟩ ∈ h → bytes = bytes' := by
    intro bytes' hmem
    rcases hg.since member generation bytes' hmem with hlt | ⟨-, ⟨-, htells⟩ | ⟨hempty, -⟩⟩
    · omega
    · rw [← hbytes]
      exact htells m hm
    · exact absurd (mem_of_lookup hm) (notMem_of_entries_eq_nil (hg.placed.vacant hempty) member)
  have hcases : ∀ {x : String} {γ : ℤ} {bytes' : Bytes},
      .synced name x γ ⟨codeNone, bytes'⟩ ∈ h ++ [.synced name member generation ⟨codeNone, bytes⟩] →
        .synced name x γ ⟨codeNone, bytes'⟩ ∈ h ∨ x = member ∧ γ = generation ∧ bytes' = bytes := by
    intro x γ bytes' hmem
    rcases mem_append.1 hmem with hmem | hmem
    · exact .inl hmem
    · obtain ⟨-, hx, hγ, ho⟩ := Reply.synced.inj (mem_singleton.1 hmem)
      exact .inr ⟨hx, hγ, congrArg SyncOutcome.assignment ho⟩
  refine ⟨hg.placed, fun x γ bytes' hmem => ?_, fun x γ bytes₁ bytes₂ hmem₁ hmem₂ => ?_⟩
  · rcases hcases hmem with hmem | ⟨rfl, rfl, rfl⟩
    · exact hg.since x γ bytes' hmem
    · refine .inr ⟨hgeneration, .inl ⟨?_, fun m' hm' => ?_⟩⟩
      · by_cases hnone : m.assignment = none
        · exact hstable hnone
        · exact hg.placed.stable x m hm hnone
      · rw [hm] at hm'
        rw [← some.inj hm', hbytes]
  · rcases hcases hmem₁ with hold₁ | ⟨rfl, rfl, rfl⟩
    · rcases hcases hmem₂ with hold₂ | ⟨rfl, rfl, rfl⟩
      · exact hg.unique x γ bytes₁ bytes₂ hold₁ hold₂
      · exact (hsame bytes₁ hold₁).symm
    · rcases hcases hmem₂ with hold₂ | ⟨-, -, rfl⟩
      · exact hsame bytes₂ hold₂
      · rfl

/-- What members were told stays one thing, through every call. -/
theorem Told.preserved (t : Timing) (name : String) : Preserved t prompt name (Told name) where
  refused hr hg := hg.snoc fun x γ bytes heq => by
    rw [heq] at hr
    exact absurd rfl hr
  register request now hok hg :=
    ⟨hg.placed.register t name request now,
      fun x γ bytes hmem => (hg.since x γ bytes hmem).register hok t name request now, hg.unique⟩
  close hopen hdeadline hg :=
    ⟨hg.placed.close hopen, fun x γ bytes hmem => (hg.since x γ bytes hmem).close hopen hdeadline, hg.unique⟩
  joined _ _ hg := hg.snoc nofun
  assign assignments hmember _ hcompleting hg := by
    refine ⟨Placed.assign _ assignments, fun x γ bytes hmem => ?_, hg.unique⟩
    refine (hg.since x γ bytes hmem).assign hg.placed hmember assignments fun hstable => ?_
    rw [hcompleting] at hstable
    cases hstable
  synced member generation outcome hpoll hg := by
    by_cases hcode : outcome.errorCode = codeNone
    · obtain ⟨code, bytes⟩ := outcome
      subst hcode
      exact hg.synced hpoll
    · refine hg.snoc fun x γ bytes heq => hcode ?_
      rw [(Reply.synced.inj heq).2.2.2]
  beaten member generation now _ hg := by
    refine Told.snoc ⟨hg.placed.beaten member generation now, fun x γ bytes hmem => ?_, hg.unique⟩ nofun
    exact (hg.since x γ bytes hmem).beaten hg.placed member generation now
      (fun _ htells => .inr (htells.survivors now)) fun members m hm htells => htells.touch hm now
  left member now hok hg := by
    refine Told.snoc ⟨hg.placed.left t member now, fun x γ bytes hmem => ?_, hg.unique⟩ nofun
    exact (hg.since x γ bytes hmem).left hok t member now

/-- A step after which a group is stable finds it stable, or with the window closed. -/
theorem stable_step {w : World} {call : Call} (hok : prompt.Ok w call)
    (hstable : ((w.step t call).1.group name).state = .stable) :
    ((w.group name).state = .stable ∨ (w.group name).state = .completingRebalance) ∧
      ((w.step t call).1.group name).generation = (w.group name).generation := by
  rcases World.stable_step_cases hstable with ⟨hsame, -⟩ |
    ⟨member, assignments, now, later, rfl, hmember, hne, hleader, hassign⟩ | ⟨member, generation, now, -, hbefore, hbeat⟩
  · rw [hsame] at hstable ⊢
    exact ⟨.inl hstable, rfl⟩
  · rw [hassign]
    exact ⟨.inr (hok hmember rfl hne hleader), rfl⟩
  · rw [hbeat]
    exact ⟨.inl hbefore, generation_heartbeat⟩

/-- A group is stable in a generation only after its window was closed. -/
theorem completing_before_stable {calls : List Call} (hok : (coordinator t).Guarded prompt.Ok .new calls) (j : ℕ)
    (hstable : (groupAfter t (calls.take j) name).state = .stable) :
    ∃ i < j, (groupAfter t (calls.take i) name).state = .completingRebalance ∧
      (groupAfter t (calls.take i) name).generation = (groupAfter t (calls.take j) name).generation := by
  induction j with
  | zero => cases hstable
  | succ j ih =>
    by_cases hj : j < calls.length
    · have hcall : calls[j]? = some calls[j] := getElem?_eq_getElem hj
      rw [groupAfter_succ hcall] at hstable ⊢
      obtain ⟨hbefore, hgeneration⟩ := stable_step ((coordinator t).ok_of_guarded hok hcall) hstable
      rcases hbefore with hbefore | hbefore
      · obtain ⟨i, hi, hcompleting, hsame⟩ := ih hbefore
        exact ⟨i, by omega, hcompleting, hsame.trans hgeneration.symm⟩
      · exact ⟨j, by omega, hbefore, hgeneration.symm⟩
    · rw [groupAfter_succ_of_none (getElem?_eq_none (Nat.le_of_not_lt hj))] at hstable ⊢
      obtain ⟨i, hi, hcompleting⟩ := ih hstable
      exact ⟨i, by omega, hcompleting⟩

end Assignments

/-- **One assignment.**  In a run in which assignments come in a closed window only, a member is told one
assignment in a generation, and a group is stable in a generation only after its window was closed. -/
theorem one_assignment (t : Timing) (calls : List Call) (hok : (coordinator t).Guarded prompt.Ok .new calls)
    (name : String) :
    (∀ x γ bytes bytes', .synced name x γ ⟨codeNone, bytes⟩ ∈ replies t calls →
        .synced name x γ ⟨codeNone, bytes'⟩ ∈ replies t calls → bytes = bytes') ∧
      ∀ j, (groupAfter t (calls.take j) name).state = .stable →
        ∃ i < j, (groupAfter t (calls.take i) name).state = .completingRebalance ∧
          (groupAfter t (calls.take i) name).generation = (groupAfter t (calls.take j) name).generation := by
  have hnew : Told name [] .new :=
    ⟨Placed.new, nofun, nofun⟩
  have htold := (Told.preserved t name).run hok hnew
  refine ⟨fun x γ bytes bytes' hmem hmem' => ?_, fun j hstable => completing_before_stable hok j hstable⟩
  exact htold.unique x γ bytes bytes' (mem_filter.2 ⟨hmem, decide_eq_true rfl⟩)
    (mem_filter.2 ⟨hmem', decide_eq_true rfl⟩)

/-- The only member of a group leads it, and assigns something to itself. -/
def leaderAssigns : List Call := [.join "g" (joiner "a" 1000) 0 0, .wakeJoin 0 10, .sync "g" "a" 1 [("a", [1])] 11 11]

/-- A member that asks again is told the same. -/
theorem one_assignment_asked_again :
    (coordinator ⟨10, 100⟩).Guarded prompt.Ok .new (leaderAssigns ++ [.sync "g" "a" 1 [] 12 12]) ∧
      ∀ bytes, .synced "g" "a" 1 ⟨codeNone, bytes⟩ ∈
        replies ⟨10, 100⟩ (leaderAssigns ++ [.sync "g" "a" 1 [] 12 12]) → bytes = [1] :=
  ⟨by decide +kernel, fun bytes hmem => (one_assignment ⟨10, 100⟩ (leaderAssigns ++ [.sync "g" "a" 1 [] 12 12])
    (by decide +kernel) "g").1 "a" 1 bytes [1] hmem (by decide +kernel)⟩

/-- Another member opens a window for generation 2, and the leader assigns in that generation at once. -/
def leaderAssignsEarly : List Call :=
  leaderAssigns ++ [.join "g" (joiner "b" 1000) 12 12, .sync "g" "a" 2 [("a", [1])] 13 13]

/-- The leader assigns again, and a member is told two assignments in generation 1; it assigns early, and
the group is stable in generation 2 before the window is closed. -/
theorem leader_assigns_again_and_early :
    (.synced "g" "a" 1 ⟨codeNone, [1]⟩ ∈ replies ⟨10, 100⟩ (leaderAssigns ++ [.sync "g" "a" 1 [("a", [2])] 12 12]) ∧
        .synced "g" "a" 1 ⟨codeNone, [2]⟩ ∈ replies ⟨10, 100⟩ (leaderAssigns ++ [.sync "g" "a" 1 [("a", [2])] 12 12])) ∧
      (groupAfter ⟨10, 100⟩ leaderAssignsEarly "g").state = .stable ∧
      (groupAfter ⟨10, 100⟩ leaderAssignsEarly "g").generation = 2 ∧
      ∀ i < 6, (groupAfter ⟨10, 100⟩ (leaderAssignsEarly.take i) "g").state = .completingRebalance →
        (groupAfter ⟨10, 100⟩ (leaderAssignsEarly.take i) "g").generation = 1 := by
  decide +kernel

end Datarail.Groups
