/-
# Ids and metadata of the members

A member registers under the id it brings along, or under a generated one, the group's name with a counter.
Both kinds are keys of one map.  A generated id is fresh in every run in which no client brings an id that is
still to be generated (`generated_id_fresh`); one that does, say an id from before a restart, loses its entry
to the next newcomer (`generated_id_taken`).

What a member registers with is a list of protocols, each with its metadata.  `split_protocols` keeps the names
and the metadata of the first.  The protocol is selected later, among the names that all members have, and then
the leader is told the metadata of each member's first protocol, which need not be the selected one
(`leader_sees_metadata_iff`).
-/

import Datarail.Groups.Membership
import Datarail.Lib.Text

namespace Datarail.Groups

open Lib List Option AList Groups.Group

section Ids

variable {t : Timing} {name : String} {g g' : Group} {now : ℕ}

/-- The id that is generated with this count. -/
def generatedId (name : String) (n : ℕ) : String := "datarail-" ++ name ++ "-" ++ toString n

theorem generatedId_inj {m n : ℕ} (h : generatedId name m = generatedId name n) : m = n := by
  have hlist := congrArg String.toList h
  simp only [generatedId, String.toList_append, Nat.toString_eq_ofList_toDigits, String.toList_ofList] at hlist
  exact toDigits_inj (append_cancel_left hlist)

/-- No member has an id that is still to be generated. -/
def Unissued (name : String) (g : Group) : Prop := ∀ n, g.memberSeq < n → generatedId name n ∉ g.members

/-- The count stays and nobody comes in. -/
structure Shrinks (g g' : Group) : Prop where
  seq : g'.memberSeq = g.memberSeq
  members : ∀ id, id ∈ g'.members → id ∈ g.members

theorem Unissued.shrinks (h : Unissued name g) (hless : Shrinks g g') : Unissued name g' := fun n hn hmem =>
  h n (hless.seq ▸ hn) (hless.members _ hmem)

theorem shrinks_expireStale (g : Group) (now : ℕ) : Shrinks g (g.expireStale now) where
  seq := by
    unfold expireStale
    dsimp only
    split_ifs <;> rfl
  members id hid := by
    obtain ⟨m, hm⟩ := isSome_iff_exists.1 (lookup_isSome.2 hid)
    rw [members_expireStale, lookup_survivors, filter_eq_some_iff] at hm
    exact mem_of_lookup hm.1

theorem shrinks_heartbeat (member : String) (generation : ℤ) : Shrinks g (g.heartbeat member generation now).1 := by
  have hswept := shrinks_expireStale g now
  refine heartbeat_of hswept fun m hm => ⟨hswept.seq, fun id hid => hswept.members id ?_⟩
  rcases (mem_insert _).1 hid with rfl | hid
  · exact mem_of_lookup hm
  · exact hid

theorem shrinks_leave (member : String) : Shrinks g (g.leave t member now).1 := by
  unfold leave
  split
  · exact ⟨rfl, fun _ => id⟩
  · dsimp only
    split
    · exact ⟨rfl, fun _ hid => (mem_erase.1 hid).2⟩
    · exact ⟨rfl, fun _ hid => (mem_erase.1 (mem_prepare.1 hid)).2⟩

/-- A request brings no id that is still to be generated. -/
def Brings (name : String) (request : JoinMember) (g : Group) : Prop :=
  request.memberId ≠ "" → ∀ n, g.memberSeq < n → request.memberId ≠ generatedId name n

/-- A registration adds one member to those that the sweep leaves, and counts if it generates the id. -/
theorem registerMember_id (t : Timing) (name : String) (request : JoinMember) (now : ℕ) (g : Group) :
    (request.memberId = "" ∧ (g.registerMember t name request now).2 = generatedId name (g.memberSeq + 1) ∧
        (g.registerMember t name request now).1.memberSeq = g.memberSeq + 1 ∨
      request.memberId ≠ "" ∧ (g.registerMember t name request now).2 = request.memberId ∧
        (g.registerMember t name request now).1.memberSeq = g.memberSeq) ∧
    ∀ id, id ∈ (g.registerMember t name request now).1.members →
      id = (g.registerMember t name request now).2 ∨ id ∈ g.members := by
  have hswept := shrinks_expireStale g now
  have hregister : ∀ seq mid, (g.expireStale now).memberId name request =
      ({ g.expireStale now with memberSeq := seq }, mid) →
      (g.registerMember t name request now).2 = mid ∧ (g.registerMember t name request now).1.memberSeq = seq ∧
      ∀ id, id ∈ (g.registerMember t name request now).1.members → id = mid ∨ id ∈ g.members := by
    intro seq mid hmid
    have henroll : ∀ id, id ∈ (g.expireStale now).members.insert mid (newMember request now) →
        id = mid ∨ id ∈ g.members := fun id hid => ((mem_insert _).1 hid).imp_right (hswept.members id)
    simp only [registerMember, hmid]
    split
    · exact ⟨trivial, rfl, henroll⟩
    · exact ⟨trivial, rfl, fun id hid => henroll id (mem_prepare.1 hid)⟩
  by_cases hempty : request.memberId = ""
  · obtain ⟨hid, hseq, hmembers⟩ := hregister _ _ (if_pos hempty)
    rw [hswept.seq] at hid hseq
    exact ⟨.inl ⟨hempty, hid, hseq⟩, by rwa [hid, ← hswept.seq]⟩
  · obtain ⟨hid, hseq, hmembers⟩ := hregister _ _ (if_neg hempty)
    exact ⟨.inr ⟨hempty, hid, hseq.trans hswept.seq⟩, by rwa [hid]⟩

variable {request : JoinMember}

theorem Unissued.register (h : Unissued name g) (hbrings : Brings name request g) :
    Unissued name (g.registerMember t name request now).1 := by
  obtain ⟨hid, hmembers⟩ := registerMember_id t name request now g
  intro n hn hmem
  rcases hid with ⟨-, hid, hseq⟩ | ⟨hne, hid, hseq⟩
  · rcases hmembers _ hmem with heq | hmem
    · have := generatedId_inj (heq.trans hid)
      omega
    · exact h n (by omega) hmem
  · rcases hmembers _ hmem with heq | hmem
    · exact hbrings hne n (by omega) (hid.symm.trans heq.symm)
    · exact h n (by omega) hmem

/-- No client brings an id that is still to be generated. -/
def OwnIds (w : World) : Call → Prop
  | .join name request _ _ => Brings name request (w.group name)
  | _ => True

theorem Unissued.step {w : World} {call : Call} (hok : OwnIds w call) (h : Unissued name (w.group name)) :
    Unissued name ((w.step t call).1.group name) := by
  rcases @World.group_step w name t call with hsame | ⟨request, now, later, rfl, hreg | hreg⟩ |
    ⟨-, -, -, -, hclose⟩ | ⟨member, assignments, -, -, -, -, -, -, hassign⟩ |
    ⟨member, generation, now, -, hbeat⟩ | ⟨member, now, -, hleft⟩
  · rwa [hsame]
  · rw [hreg]
    exact h.register hok
  · rw [hreg]
    exact h.register hok
  · rw [hclose]
    exact h
  · rw [hassign]
    exact h.shrinks ⟨rfl, fun id => (mem_assignAll assignments _ id).1⟩
  · rw [hbeat]
    exact h.shrinks (shrinks_heartbeat member generation)
  · rw [hleft]
    exact h.shrinks (shrinks_leave member)

/-- A member that the sweep leaves keeps its entry, but for its assignment, if the newcomer has another id. -/
theorem lookup_registerMember {id : String} {m : Member}
    (hne : id ≠ (g.registerMember t name request now).2) (hm : (g.survivors now).lookup id = some m) :
    ∃ a, (g.registerMember t name request now).1.members.lookup id = some { m with assignment := a } := by
  obtain ⟨g', mid, hmid, hmembers⟩ : ∃ g' mid, (g.expireStale now).memberId name request = (g', mid) ∧
      g'.members = g.survivors now := by
    unfold memberId
    split
    · exact ⟨_, _, rfl, members_expireStale⟩
    · exact ⟨_, _, rfl, members_expireStale⟩
  simp only [registerMember, hmid] at hne ⊢
  have henroll : (g'.enroll mid request now).members.lookup id = some m := by
    rw [← hm, ← hmembers]
    exact (lookup_insert_ite _ _ _ _).trans (if_neg hne)
  split
  · exact ⟨m.assignment, henroll⟩
  · refine ⟨none, ?_⟩
    change (mapValues (g'.enroll mid request now).members _).lookup id = _
    rw [lookup_mapValues, henroll]
    rfl

/-- **Generated ids are fresh.**  In every run in which no client brings an id that is still to be generated, a
`JoinGroup` without an id is given one that no member of the group has, and every member keeps its entry. -/
theorem generated_id_fresh (t : Timing) (calls : List Call) (hok : (coordinator t).Guarded OwnIds .new calls)
    (name : String) (request : JoinMember) (hempty : request.memberId = "") (now : ℕ) :
    let g := groupAfter t calls name
    (g.registerMember t name request now).2 ∉ g.members ∧ ∀ id m, (g.survivors now).lookup id = some m →
        ∃ a, (g.registerMember t name request now).1.members.lookup id = some { m with assignment := a } := by
  intro g
  have hfresh : Unissued name g := (coordinator t).invariant_of_step OwnIds (fun _ w => Unissued name (w.group name))
    (fun _ _ _ hok h => h.step hok) .new calls [] hok fun _ _ hmem => absurd hmem (notMem_empty _)
  have hnot : (g.registerMember t name request now).2 ∉ g.members := by
    rcases (registerMember_id t name request now g).1 with ⟨-, hid, -⟩ | ⟨hne, -⟩
    · rw [hid]
      exact hfresh _ (Nat.lt_succ_self _)
    · exact absurd hempty hne
  refine ⟨hnot, fun id m hm => lookup_registerMember ?_ hm⟩
  rintro rfl
  have hswept := (shrinks_expireStale g now).members _ (by
    rw [members_expireStale, ← lookup_isSome, hm]
    rfl)
  exact hnot hswept

/-- A member that joins with these protocols. -/
def advertiser (memberId : String) (protocols : List (String × Bytes)) : JoinMember :=
  ⟨memberId, 60000, 60000, "consumer", protocols⟩

/-- A client joins again under the id that was generated for it, and another one comes in. -/
theorem generated_id_fresh_rejoined :
    let calls : List Call := [.join "g" (advertiser "" []) 0 0, .join "g" (advertiser "datarail-g-1" []) 1 1]
    ((groupAfter ⟨10, 100⟩ calls "g").registerMember ⟨10, 100⟩ "g" (advertiser "" []) 2).2 = "datarail-g-2" ∧
      "datarail-g-2" ∉ (groupAfter ⟨10, 100⟩ calls "g").members := by
  intro calls
  have hid : ((groupAfter ⟨10, 100⟩ calls "g").registerMember ⟨10, 100⟩ "g" (advertiser "" []) 2).2 =
      "datarail-g-2" := by decide +kernel
  have hok : (coordinator ⟨10, 100⟩).Guarded OwnIds .new calls := by
    refine ⟨fun h => absurd rfl h, fun _ n hn heq => ?_, trivial⟩
    have hseq : ((((coordinator ⟨10, 100⟩).step .new (.join "g" (advertiser "" []) 0 0)).1).group "g").memberSeq = 1 := by
      decide +kernel
    have : 1 = n := @generatedId_inj "g" 1 n heq
    omega
  exact ⟨hid, hid ▸ (generated_id_fresh ⟨10, 100⟩ calls hok "g" (advertiser "" []) rfl 2).1⟩

/-- **An id is generated twice.**  A client brings the id it was given before the broker was started again, and the
first newcomer is given the same one: the entry is the newcomer's. -/
theorem generated_id_taken :
    let g := groupAfter ⟨10, 100⟩ [.join "g" (advertiser "datarail-g-1" [("range", [1])]) 0 0] "g"
    let r := g.registerMember ⟨10, 100⟩ "g" (advertiser "" [("range", [2])]) 1
    r.2 = "datarail-g-1" ∧ ((g.survivors 1).lookup r.2).map Member.subscription = some [1] ∧
      (r.1.members.lookup r.2).map Member.subscription = some [2] := by
  decide +kernel

end Ids

section Metadata

variable {g : Group} {ads : String → List (String × Bytes)} {p : String}

/-- What each member has advertised: protocols, each with its metadata. -/
def Advertises (ads : String → List (String × Bytes)) (g : Group) : Prop :=
  ∀ id m, g.members.lookup id = some m → (m.protocols, m.subscription) = splitProtocols (ads id)

/-- A registration advertises the protocols of its request. -/
theorem Advertises.enroll (h : Advertises ads g) (mid : String) (request : JoinMember) (now : ℕ) :
    Advertises (Function.update ads mid request.protocols) (g.enroll mid request now) := by
  intro id m hm
  change (g.members.insert mid (newMember request now)).lookup id = some m at hm
  rw [lookup_insert_ite] at hm
  split_ifs at hm with hid
  · rw [← some.inj hm, hid, Function.update_self]
    rfl
  · rw [Function.update_of_ne hid]
    exact h id m hm

/-- The first of the first member's names that all members advertise. -/
def Group.Preferred (g : Group) (p : String) : Prop :=
  ∃ first before after, g.firstMember.bind g.members.lookup = some first ∧ first.protocols = before ++ p :: after ∧
    g.Common p ∧ ∀ q ∈ before, ¬ g.Common q

theorem preferred_iff : g.Preferred p ↔ g.selectProtocol = some p ∧ g.Common p := by
  unfold selectProtocol
  constructor
  · rintro ⟨first, before, after, hfirst, hnames, hcommon, hnone⟩
    refine ⟨?_, hcommon⟩
    have hfind : (first.protocols.find? fun name => g.members.entries.all fun e => e.2.protocols.contains name) =
        some p := find?_eq_some_iff_append.2 ⟨(all_contains_iff g p).2 hcommon, before, after, hnames, fun q hq => by
          simpa using fun h => hnone q hq ((all_contains_iff g q).1 h)⟩
    rw [hfirst]
    simp only [hfind]
  · rintro ⟨hselect, hcommon⟩
    cases hfirst : g.firstMember.bind g.members.lookup with
    | none =>
      rw [hfirst] at hselect
      cases hselect
    | some first =>
      rw [hfirst] at hselect
      obtain ⟨id, -, hid⟩ := bind_eq_some_iff.1 hfirst
      cases hfind : first.protocols.find? fun name => g.members.entries.all fun e => e.2.protocols.contains name with
      | none => exact absurd ((all_contains_iff g p).2 hcommon) (find?_eq_none.1 hfind p (hcommon id first hid))
      | some q =>
        simp only [hfind] at hselect
        obtain rfl := some.inj hselect
        obtain ⟨-, before, after, hnames, hbefore⟩ := find?_eq_some_iff_append.1 hfind
        refine ⟨first, before, after, hfirst, hnames, hcommon, fun q hq h => ?_⟩
        have hnot := hbefore q hq
        rw [(all_contains_iff g q).2 h] at hnot
        cases hnot

/-- The leader is told of all members. -/
theorem mem_members_joinOutcome {mid id : String} {bytes : Bytes} (hleader : g.leader = some mid) :
    (id, bytes) ∈ (g.joinOutcome mid).members ↔ ∃ m, g.members.lookup id = some m ∧ m.subscription = bytes := by
  rw [joinOutcome, if_pos hleader]
  simp only [mem_filterMap, map_eq_some_iff, Prod.mk.injEq]
  constructor
  · rintro ⟨id', -, m, hm, rfl, rfl⟩
    exact ⟨m, hm, rfl⟩
  · rintro ⟨m, hm, rfl⟩
    exact ⟨id, mem_sortedKeys.2 (mem_of_lookup hm), m, hm, rfl, rfl⟩

/-- **What the leader sees when the window closes** is each member's metadata for the selected protocol, and that
protocol is common to all members if one is, exactly if there are no members or the preferred common name is one
under which each member advertises the metadata of its first protocol. -/
theorem leader_sees_metadata_iff (ads : String → List (String × Bytes)) (g : Group) (hads : Advertises ads g) :
    (∀ mid, g.firstMember = some mid → (∀ id bytes, (id, bytes) ∈ (g.close.joinOutcome mid).members →
        ((g.close.joinOutcome mid).protocol, bytes) ∈ ads id) ∧
      ((∃ p, g.Common p) → g.Common (g.close.joinOutcome mid).protocol)) ↔
    g.members.entries = [] ∨ ∃ p, g.Preferred p ∧ ∀ id ∈ g.members, ∀ pair ∈ (ads id).head?, (p, pair.2) ∈ ads id := by
  have hprotocol : ∀ mid, (g.close.joinOutcome mid).protocol = g.selectProtocol.getD "" := fun _ => rfl
  have hnames : ∀ {id m}, g.members.lookup id = some m → m.protocols = (ads id).map Prod.fst ∧
      m.subscription = ((ads id).head?.map Prod.snd).getD [] := fun hm => Prod.mk.inj (hads _ _ hm)
  constructor
  · intro h
    cases hfirst : g.firstMember with
    | none => exact .inl (entries_eq_nil_of_firstMember hfirst)
    | some mid =>
      obtain ⟨hmembers, -⟩ := h mid hfirst
      have hall : ∀ id m, g.members.lookup id = some m → (g.selectProtocol.getD "", m.subscription) ∈ ads id :=
        fun id m hm => hmembers id _ ((mem_members_joinOutcome (g := g.close) hfirst).2 ⟨m, hm, rfl⟩)
      have hcommon : g.Common (g.selectProtocol.getD "") := fun id m hm => by
        rw [(hnames hm).1]
        exact mem_map_of_mem (hall id m hm)
      rcases selectProtocol_cases g with ⟨p, hp, -⟩ | ⟨hnone, -⟩ | ⟨hempty, -⟩
      · rw [hp] at hall hcommon
        refine .inr ⟨p, preferred_iff.2 ⟨hp, hcommon⟩, fun id hid pair hpair => ?_⟩
        obtain ⟨m, hm⟩ := isSome_iff_exists.1 (lookup_isSome.2 hid)
        have hmem := hall id m hm
        rw [(hnames hm).2, mem_def.1 hpair] at hmem
        exact hmem
      · exact absurd ⟨_, hcommon⟩ hnone
      · exact .inl hempty
  · rintro (hempty | ⟨p, hpreferred, hfirst⟩) mid hmid
    · exact absurd (mem_of_firstMember hmid) (notMem_of_entries_eq_nil hempty mid)
    · obtain ⟨hselect, hcommon⟩ := preferred_iff.1 hpreferred
      rw [hprotocol, hselect]
      refine ⟨fun id bytes hmem => ?_, fun _ => hcommon⟩
      obtain ⟨m, hm, rfl⟩ := (mem_members_joinOutcome (g := g.close) hmid).1 hmem
      have hid : id ∈ g.members := mem_of_lookup hm
      have hin := hcommon id m hm
      rw [(hnames hm).1] at hin
      rw [(hnames hm).2]
      cases hhead : (ads id).head? with
      | none =>
        rw [head?_eq_none_iff.1 hhead] at hin
        cases hin
      | some pair => exact hfirst id hid pair hhead

/-- Two members that put `range` first, one of them before another protocol, and the leader's view of them. -/
theorem leader_sees_metadata_shared :
    let ads := Function.update (Function.update (fun _ => []) "a" [("range", [1]), ("sticky", [2])]) "b" [("range", [3])]
    let g := (new.enroll "a" (advertiser "a" (ads "a")) 0).enroll "b" (advertiser "b" (ads "b")) 1
    (g.close.joinOutcome "a").members = [("a", [1]), ("b", [3])] ∧ (g.close.joinOutcome "a").protocol = "range" ∧
      ∀ id bytes, (id, bytes) ∈ (g.close.joinOutcome "a").members → ("range", bytes) ∈ ads id := by
  intro ads g
  have hads : Advertises ads g :=
    (Advertises.enroll (fun _ _ hm => by cases hm) "a" (advertiser "a" (ads "a")) 0).enroll "b" (advertiser "b" (ads "b")) 1
  have hcommon : g.Common "range" := (all_contains_iff g "range").1 (by decide +kernel)
  have hprotocol : (g.close.joinOutcome "a").protocol = "range" := by decide +kernel
  refine ⟨by decide +kernel, hprotocol, ?_⟩
  rw [← hprotocol]
  refine ((leader_sees_metadata_iff ads g hads).2 ?_ "a" (by decide +kernel)).1
  refine .inr ⟨"range", preferred_iff.2 ⟨by decide +kernel, hcommon⟩, fun id hid pair hpair => ?_⟩
  rcases mem_insert _ |>.1 hid with rfl | hid
  · obtain rfl := some.inj hpair
    exact mem_cons_self
  · rcases mem_insert _ |>.1 hid with rfl | hid
    · obtain rfl := some.inj hpair
      exact mem_cons_self
    · exact absurd hid (notMem_empty _)

/-- **The leader is told the metadata of another protocol.**  The members have `sticky` in common, which the leader
names second: the group selects it, and the leader is told what it advertises for `range` itself. -/
theorem leader_sees_other_metadata : .joined "g" ⟨codeNone, 1, "sticky", "a", "a", [("a", [1]), ("b", [3])]⟩ ∈
      replies ⟨10, 100⟩ [.join "g" (advertiser "a" [("range", [1]), ("sticky", [2])]) 0 0,
        .join "g" (advertiser "b" [("sticky", [3])]) 1 1, .wakeJoin 0 1000] := by
  decide +kernel

end Metadata

end Datarail.Groups
