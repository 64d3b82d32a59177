/-
# Who assigns

Three facts about every run of the coordinator.  What a member is told with its assignment comes from a
`SyncGroup` of the generation's leader after the member last joined (`GrantedAt`).  A `SyncGroup` by
anybody else changes no group.  And the generations of a group are numbered upwards: the counter is the
number of generations opened so far (`generation_eq_openings`), as long as these fit an `i32`.

Assignments do not outlive their generation because each step that opens one drops them all.
-/

import Datarail.Groups.Stability

namespace Datarail.Groups

open Lib List Option

section Openings

/-- A step that opens a generation of a group: a member joins and no window is open, or a member leaves
others behind. -/
def Opens (w : World) (name : String) : Call → Prop
  | .join group _ now _ => group = name ∧ ((w.group name).expireStale now).state ≠ .preparingRebalance
  | .leave group member _ =>
    group = name ∧ member ∈ (w.group name).members ∧ ((w.group name).members.erase member).entries ≠ []
  | .wakeJoin _ _ => False
  | .sync _ _ _ _ _ _ => False
  | .wakeSync _ _ => False
  | .heartbeat _ _ _ _ => False

instance (w : World) (name : String) : ∀ call, Decidable (Opens w name call)
  | .join _ _ _ _ => inferInstanceAs (Decidable (_ ∧ _))
  | .leave _ _ _ => inferInstanceAs (Decidable (_ ∧ _ ∧ _))
  | .wakeJoin _ _ => inferInstanceAs (Decidable False)
  | .sync _ _ _ _ _ _ => inferInstanceAs (Decidable False)
  | .wakeSync _ _ => inferInstanceAs (Decidable False)
  | .heartbeat _ _ _ _ => inferInstanceAs (Decidable False)

variable {t : Timing} {name : String}

theorem generation_registerMember (request : JoinMember) (now : ℕ) (g : Group) :
    (g.registerMember t name request now).1.generation =
      if (g.expireStale now).state ≠ .preparingRebalance then nextGeneration g.generation else g.generation := by
  obtain ⟨g', mid, m, -, -, hstate, hgeneration, -, -, -, heq⟩ := registerMember_cases t name request now g
  rw [heq, ← hstate, ← hgeneration]
  by_cases hopen : g'.state = .preparingRebalance
  · rw [if_pos hopen, if_neg (not_not.2 hopen)]
  · rw [if_neg hopen, if_pos hopen]
    rfl

theorem generation_leave (member : String) (now : ℕ) (g : Group) : (g.leave t member now).1.generation =
      if member ∈ g.members ∧ (g.members.erase member).entries ≠ [] then nextGeneration g.generation
      else g.generation := by
  unfold Group.leave
  by_cases hmember : member ∈ g.members
  · by_cases hrest : (g.members.erase member).entries = []
    · rw [if_neg (not_not.2 hmember), if_pos hrest, if_neg fun h => h.2 hrest]
    · refine Eq.trans ?_ (if_pos ⟨hmember, hrest⟩).symm
      rw [if_neg (not_not.2 hmember), if_neg hrest]
      rfl
  · rw [if_pos hmember, if_neg fun h => hmember h.1]

/-- **What a step does to the generation.** -/
theorem World.generation_step (w : World) (call : Call) : ((w.step t call).1.group name).generation =
      if Opens w name call then nextGeneration (w.group name).generation else (w.group name).generation := by
  by_cases hopens : Opens w name call
  · rw [if_pos hopens]
    cases call with
    | join group request now later =>
      obtain ⟨rfl, hstate⟩ := hopens
      have hgeneration := @generation_registerMember t group request now (w.group group)
      rw [if_pos hstate] at hgeneration
      rcases @World.group_join w group t request now later with heq | heq
      · rw [heq, hgeneration]
      · rw [heq]
        exact hgeneration
    | leave group member now =>
      obtain ⟨rfl, hrest⟩ := hopens
      rw [World.group_leave, generation_leave, if_pos hrest]
    | wakeJoin ticket now => exact hopens.elim
    | sync group member generation assignments now later => exact hopens.elim
    | wakeSync ticket now => exact hopens.elim
    | heartbeat group member generation now => exact hopens.elim
  · rw [if_neg hopens]
    rcases @World.group_step w name t call with hsame | ⟨request, now, later, rfl, hjoin⟩ | ⟨-, -, -, -, hclose⟩ |
      ⟨member, assignments, now, later, rfl, -, -, -, hassign⟩ | ⟨member, generation, now, rfl, hbeat⟩ |
      ⟨member, now, rfl, hleft⟩
    · rw [hsame]
    · have hgeneration := @generation_registerMember t name request now (w.group name)
      rw [if_neg fun h => hopens ⟨rfl, h⟩] at hgeneration
      rcases hjoin with heq | heq
      · rw [heq, hgeneration]
      · rw [heq]
        exact hgeneration
    · rw [hclose]
      rfl
    · rw [hassign]
      rfl
    · rw [hbeat, generation_heartbeat]
    · rw [hleft, generation_leave, if_neg fun h => hopens ⟨rfl, h⟩]

/-- The step at a position of a run opens a generation. -/
def OpensAt (t : Timing) (calls : List Call) (name : String) (k : ℕ) : Prop :=
  ∃ call ∈ calls[k]?, Opens ((coordinator t).final .new (calls.take k)) name call

instance (t : Timing) (calls : List Call) (name : String) (k : ℕ) : Decidable (OpensAt t calls name k) :=
  inferInstanceAs (Decidable (∃ call ∈ calls[k]?, Opens ((coordinator t).final .new (calls.take k)) name call))

/-- The number of generations opened in the first `k` steps. -/
def openings (t : Timing) (calls : List Call) (name : String) (k : ℕ) : ℕ :=
  ((range k).filter fun i => decide (OpensAt t calls name i)).length

theorem openings_succ (calls : List Call) (k : ℕ) : openings t calls name (k + 1) =
    openings t calls name k + if OpensAt t calls name k then 1 else 0 := by
  rw [openings, range_succ, filter_append, length_append, filter_singleton]
  by_cases h : OpensAt t calls name k
  · rw [if_pos h, decide_eq_true h]
    rfl
  · rw [if_neg h, decide_eq_false h]
    rfl

theorem openings_le {calls : List Call} {i j : ℕ} (h : i ≤ j) : openings t calls name i ≤ openings t calls name j := by
  induction j, h using Nat.le_induction with
  | base => exact Nat.le_refl _
  | succ j _ ih =>
    rw [openings_succ]
    exact Nat.le_trans ih (Nat.le_add_right _ _)

/-- Nothing is opened when the run is over. -/
theorem openings_le_length (calls : List Call) (k : ℕ) :
    openings t calls name k ≤ openings t calls name calls.length := by
  rcases Nat.le_total k calls.length with h | h
  · exact openings_le h
  · induction k, h using Nat.le_induction with
    | base => exact Nat.le_refl _
    | succ k hk ih =>
      have hnone : ¬ OpensAt t calls name k := by
        rintro ⟨call, hmem, -⟩
        rw [getElem?_eq_none hk] at hmem
        cases hmem
      rw [openings_succ, if_neg hnone]
      exact ih

/-- **The generation is the number of generations opened**, as long as it fits. -/
theorem generation_eq_openings (calls : List Call) (k : ℕ) (h : (openings t calls name k : ℤ) ≤ i32Max) :
    (groupAfter t (calls.take k) name).generation = openings t calls name k := by
  induction k with
  | zero => rfl
  | succ k ih =>
    have hle : (openings t calls name k : ℤ) ≤ openings t calls name (k + 1) :=
      Int.ofNat_le.2 (openings_le (Nat.le_succ k))
    have hbefore := ih (hle.trans h)
    cases hcall : calls[k]? with
    | none =>
      have hnone : ¬ OpensAt t calls name k := by
        rintro ⟨call, hmem, -⟩
        rw [hcall] at hmem
        cases hmem
      rw [openings_succ, if_neg hnone, groupAfter_succ_of_none hcall]
      exact hbefore
    | some call =>
      have hopens : OpensAt t calls name k ↔ Opens ((coordinator t).final .new (calls.take k)) name call := by
        rw [OpensAt, hcall]
        exact ⟨fun ⟨_, hmem, h⟩ => some.inj hmem ▸ h, fun h => ⟨call, rfl, h⟩⟩
      rw [openings_succ] at h ⊢
      rw [groupAfter_succ hcall, World.generation_step]
      change (if _ then nextGeneration (groupAfter t (calls.take k) name).generation
        else (groupAfter t (calls.take k) name).generation) = _
      rw [hbefore]
      by_cases hnow : OpensAt t calls name k
      · rw [if_pos hnow] at h ⊢
        rw [if_pos (hopens.1 hnow), nextGeneration, if_pos (by omega)]
        omega
      · rw [if_neg hnow, if_neg (fun h => hnow (hopens.2 h)), Nat.add_zero]

end Openings

section Grants

/-- At a position of a run the group's leader, a member, gives `m` these bytes in generation `γ`.  Of
several entries for one member the last one counts. -/
def GrantedAt (t : Timing) (calls : List Call) (name m : String) (γ : ℤ) (bytes : Bytes) (j : ℕ) : Prop :=
  ∃ leader assignments now later, calls[j]? = some (.sync name leader γ assignments now later) ∧
    (groupAfter t (calls.take j) name).leader = some leader ∧
    leader ∈ (groupAfter t (calls.take j) name).members ∧ (groupAfter t (calls.take j) name).generation = γ ∧
    latest assignments m = some bytes

/-- At a position of a run a `JoinGroup` registers `m`. -/
def JoinsAt (t : Timing) (calls : List Call) (name m : String) (i : ℕ) : Prop :=
  ∃ request now later, calls[i]? = some (.join name request now later) ∧
    ((groupAfter t (calls.take i) name).registerMember t name request now).2 = m

/-- The last entry for a member is what it is assigned. -/
theorem lookup_assign (assignments : List (String × Bytes)) (members : AList fun _ : String => Member) (m : String) :
    (Group.assignAll assignments members).lookup m = (members.lookup m).map fun x =>
      (latest assignments m).elim x fun bytes => { x with assignment := some bytes } := by
  induction assignments generalizing members with
  | nil => exact map_id'.symm
  | cons a rest ih =>
    rw [Group.assignAll, latest]
    by_cases hid : a.1 = m
    · subst hid
      rw [if_pos rfl]
      cases hm : members.lookup a.1 with
      | none =>
        rw [ih, hm]
        rfl
      | some x =>
        rw [ih, lookup_insert_ite, if_pos rfl]
        cases latest rest a.1 <;> rfl
    · rw [if_neg hid, or_none]
      cases members.lookup a.1 with
      | none => exact ih members
      | some x =>
        rw [ih, lookup_insert_ite, if_neg (Ne.symm hid)]

/-- A heartbeat gives nobody an assignment. -/
theorem assignment_heartbeat {g : Group} {member m : String} {generation : ℤ} {now : ℕ} {x : Member}
    (h : (g.heartbeat member generation now).1.members.lookup m = some x) :
    ∃ y, g.members.lookup m = some y ∧ y.assignment = x.assignment := by
  have hswept : ∀ y, (g.expireStale now).members.lookup m = some y → g.members.lookup m = some y := by
    intro y hy
    rw [members_expireStale, lookup_survivors, filter_eq_some_iff] at hy
    exact hy.1
  rcases heartbeat_cases member generation now g with ⟨-, hbeat⟩ | ⟨z, hz, hbeat, -⟩
  · rw [hbeat] at h
    exact ⟨x, hswept x h, rfl⟩
  · rw [hbeat] at h
    change ((g.expireStale now).members.insert member { z with lastHeartbeat := now }).lookup m = some x at h
    rw [lookup_insert_ite] at h
    split at h
    · subst m
      rw [← some.inj h]
      exact ⟨z, hswept z hz, rfl⟩
    · exact ⟨x, hswept x h, rfl⟩

variable {t : Timing} {name : String}

/-- **Where an assignment comes from**: the leader granted it in this generation, and the member has not joined
since. -/
theorem exists_grant (calls : List Call) (k : ℕ) {m : String} {x : Member} {bytes : Bytes}
    (hm : (groupAfter t (calls.take k) name).members.lookup m = some x) (hx : x.assignment = some bytes) :
    ∃ j < k, GrantedAt t calls name m (groupAfter t (calls.take k) name).generation bytes j ∧
      ∀ i < k, JoinsAt t calls name m i → i < j := by
  induction k generalizing x with
  | zero => cases hm
  | succ k ih =>
    -- a grant among the first `k` steps still is the last word if step `k` is no join
    have hkeep : (∀ request now later, calls[k]? ≠ some (.join name request now later)) → ∀ y,
        (groupAfter t (calls.take k) name).members.lookup m = some y → y.assignment = some bytes →
        ∃ j < k + 1, GrantedAt t calls name m (groupAfter t (calls.take k) name).generation bytes j ∧
          ∀ i < k + 1, JoinsAt t calls name m i → i < j := by
      intro hcall y hy hbytes
      obtain ⟨j, hj, hgrant, hlast⟩ := ih hy hbytes
      refine ⟨j, by omega, hgrant, fun i hi hjoins => ?_⟩
      rcases Nat.lt_succ_iff_lt_or_eq.1 hi with hi | rfl
      · exact hlast i hi hjoins
      · obtain ⟨request, now, later, hjoin, -⟩ := hjoins
        exact absurd hjoin (hcall request now later)
    cases hcall : calls[k]? with
    | none =>
      rw [groupAfter_succ_of_none hcall] at hm ⊢
      exact hkeep (by rw [hcall]; exact nofun) x hm hx
    | some call =>
      have hplaced := (Placed.preserved t name).groupAfter Placed.new (calls.take (k + 1))
      have hstable := hplaced.stable m x hm (by rw [hx]; exact some_ne_none bytes)
      rw [groupAfter_succ hcall] at hm hstable ⊢
      rw [hcall] at hkeep
      rcases World.stable_step_cases hstable with ⟨hsame, hjoin⟩ |
        ⟨leader, assignments, now, later, rfl, hmember, -, hleader, hassign⟩ | ⟨member, generation, now, rfl, -, hbeat⟩
      · rw [hsame] at hm ⊢
        exact hkeep (fun request now later h => hjoin request now later (some.inj h)) x hm hx
      · rw [hassign] at hm ⊢
        change (Group.assignAll assignments _).lookup m = some x at hm
        rw [lookup_assign] at hm
        obtain ⟨y, hy, hyx⟩ := map_eq_some_iff.1 hm
        cases hlast : latest assignments m with
        | none =>
          rw [hlast] at hyx
          rw [← hyx] at hx
          exact hkeep nofun y hy hx
        | some granted =>
          rw [hlast] at hyx
          rw [← hyx] at hx
          obtain rfl := some.inj hx
          refine ⟨k, by omega, ⟨leader, assignments, now, later, hcall, hleader, hmember, rfl, hlast⟩, fun i hi hjoins => ?_⟩
          rcases Nat.lt_succ_iff_lt_or_eq.1 hi with hi | rfl
          · exact hi
          · obtain ⟨request, now', later', hjoin, -⟩ := hjoins
            rw [hcall] at hjoin
            cases hjoin
      · rw [hbeat] at hm ⊢
        obtain ⟨y, hy, hsame⟩ := assignment_heartbeat hm
        rw [generation_heartbeat]
        exact hkeep nofun y hy (by rw [hsame, hx])

/-- A `SyncGroup` that is not the leader's, or not of this generation, changes no group. -/
theorem World.group_sync_of_not_leader (w : World) (target member : String) (generation : ℤ)
    (assignments : List (String × Bytes)) (now later : ℕ)
    (h : ¬ (member ∈ (w.group target).members ∧ (w.group target).generation = generation ∧
      (w.group target).leader = some member)) :
    (w.step t (.sync target member generation assignments now later)).1.group name = w.group name := by
  rcases @World.group_step w name t (.sync target member generation assignments now later) with hsame |
    ⟨_, _, _, heq, -⟩ | ⟨_, _, heq, -⟩ | ⟨_, _, _, _, heq, hmember, -, hleader, -⟩ | ⟨_, _, _, heq, -⟩ | ⟨_, _, heq, -⟩
  · exact hsame
  · cases heq
  · cases heq
  · cases heq
    exact absurd ⟨hmember, rfl, hleader⟩ h
  · cases heq
  · cases heq

end Grants

/-- **Only the leader assigns.**  In every run, bytes that a member is told come from a `SyncGroup` of its
generation by the leader on record, a member, which gave them to it after it last joined; a `SyncGroup`
of somebody else, or of another generation, changes no group; and if fewer than 2^31 - 1 generations are
opened, each has a larger number than those before. -/
theorem only_leader_assigns (t : Timing) (calls : List Call) (name : String) :
    (∀ k m γ bytes, (replies t calls)[k]? = some (.synced name m γ ⟨codeNone, bytes⟩) →
      bytes = [] ∨ ∃ j ≤ k, GrantedAt t calls name m γ bytes j ∧ ∀ i ≤ k, JoinsAt t calls name m i → i < j) ∧
    (∀ k m γ assignments now later, calls[k]? = some (.sync name m γ assignments now later) →
      ¬ (m ∈ (groupAfter t (calls.take k) name).members ∧ (groupAfter t (calls.take k) name).generation = γ ∧
        (groupAfter t (calls.take k) name).leader = some m) →
      ∀ other, groupAfter t (calls.take (k + 1)) other = groupAfter t (calls.take k) other) ∧
    (openings t calls name calls.length < 2 ^ 31 - 1 → (∀ i j, i ≤ j →
        (groupAfter t (calls.take i) name).generation ≤ (groupAfter t (calls.take j) name).generation) ∧
      ∀ k, OpensAt t calls name k →
        (groupAfter t (calls.take k) name).generation < (groupAfter t (calls.take (k + 1)) name).generation) := by
  refine ⟨fun k m γ bytes hreply => ?_, fun k m γ assignments now later hcall hother other => ?_, fun hfew => ?_⟩
  · rw [replies, getElem?_map, Machine.getElem?_trace, Option.map_map] at hreply
    obtain ⟨call, hcall, hsynced⟩ := map_eq_some_iff.1 hreply
    have hpoll := World.step_synced hsynced
    rw [← groupAfter_succ hcall] at hpoll
    obtain ⟨rfl, x, hx, hbytes, -⟩ := pollSync_none hpoll
    cases hassignment : x.assignment with
    | none =>
      rw [hassignment] at hbytes
      exact .inl hbytes.symm
    | some given =>
      rw [hassignment] at hbytes
      obtain rfl : given = bytes := hbytes
      obtain ⟨j, hj, hgrant, hlast⟩ := exists_grant calls (k + 1) hx hassignment
      exact .inr ⟨j, Nat.le_of_lt_succ hj, hgrant, fun i hi => hlast i (Nat.lt_succ_of_le hi)⟩
  · rw [groupAfter_succ hcall]
    exact World.group_sync_of_not_leader _ name m γ assignments now later hother
  · have hgeneration : ∀ k, (groupAfter t (calls.take k) name).generation = openings t calls name k := by
      intro k
      refine generation_eq_openings calls k ?_
      have hle := @openings_le_length t name calls k
      have hmax : i32Max = 2 ^ 31 - 1 := rfl
      omega
    refine ⟨fun i j hij => ?_, fun k hopens => ?_⟩
    · rw [hgeneration, hgeneration]
      exact Int.ofNat_le.2 (openings_le hij)
    · rw [hgeneration, hgeneration, openings_succ, if_pos hopens]
      omega

/-- The leader of two members assigns; the other one is told what it gave. -/
def sharedAssignment : List Call :=
  [.join "g" (joiner "a" 1000) 0 0, .join "g" (joiner "b" 1000) 5 5, .wakeJoin 0 10, .wakeJoin 1 10,
    .sync "g" "b" 1 [("b", [9])] 11 11, .sync "g" "a" 1 [("a", [1]), ("b", [2])] 12 12, .wakeSync 2 13,
    .join "g" (joiner "c" 1000) 14 14]

/-- Only the leader's assignments count, and the join of a third member starts a generation. -/
theorem only_leader_assigns_shared : (∃ j ≤ 6, GrantedAt ⟨10, 100⟩ sharedAssignment "g" "b" 1 [2] j ∧
      ∀ i ≤ 6, JoinsAt ⟨10, 100⟩ sharedAssignment "g" "b" i → i < j) ∧
    (groupAfter ⟨10, 100⟩ (sharedAssignment.take 5) "g").state =
      (groupAfter ⟨10, 100⟩ (sharedAssignment.take 4) "g").state ∧
    (groupAfter ⟨10, 100⟩ (sharedAssignment.take 7) "g").generation <
      (groupAfter ⟨10, 100⟩ (sharedAssignment.take 8) "g").generation := by
  obtain ⟨hgranted, hother, hupwards⟩ := only_leader_assigns ⟨10, 100⟩ sharedAssignment "g"
  refine ⟨(hgranted 6 "b" 1 [2] (by decide +kernel)).resolve_left (by decide), ?_, ?_⟩
  · rw [hother 4 "b" 1 [("b", [9])] 11 11 rfl (by decide +kernel) "g"]
  · exact (hupwards (by decide +kernel)).2 7 (by decide +kernel)

end Datarail.Groups
