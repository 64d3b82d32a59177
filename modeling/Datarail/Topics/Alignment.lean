/-
# Commits inside a record

`Commit` takes any offset up to the end of the topic, and a group that is made after it starts to read there.
`replay_from` asks its caller for an offset at which a record starts or the last one ends, and does not check it.  So
with an offset inside a record the bytes of a payload are read as a frame: a client can have a record returned that
nobody has produced, or leave a group before bytes that are no frame, where it receives nothing any more
(`commit_inside_record`).

With commits at record boundaries only, each record that is returned was produced, and a group before which there
are records receives the next one, at the latest in its second poll (`polls_return_produced`).
-/

import Datarail.Topics.Delivery

namespace Datarail.Topics

open Lib List Offsets
open Offsets (Trigger)
open Replaylog (wire)

/-- Events without a change of members: what clients can ask for, and restarts. -/
def FromClients : Event → Prop
  | .request _ _ => True
  | .restart _ => True
  | _ => False

instance : ∀ e : Event, Decidable (FromClients e)
  | .request _ _ => inferInstanceAs (Decidable True)
  | .join _ _ => inferInstanceAs (Decidable False)
  | .leave _ _ => inferInstanceAs (Decidable False)
  | .restart _ => inferInstanceAs (Decidable True)

instance (ps : List (Bytes × Bytes)) (offset : ℕ) : Decidable (Boundary ps offset) :=
  inferInstanceAs (Decidable (∃ i, i ≤ ps.length ∧ offset = offsetOf (stored ps) i))

instance (ps : List (Bytes × Bytes)) : ∀ e : Event, Decidable (Aligned ps e)
  | .request (.commit _ offset) _ =>
    inferInstanceAs (Decidable (offset.toNat ≤ offsetOf (stored ps) ps.length → Boundary ps offset.toNat))
  | .request (.produce _ _) _ => inferInstanceAs (Decidable True)
  | .request (.poll _) _ => inferInstanceAs (Decidable True)
  | .join _ _ => inferInstanceAs (Decidable True)
  | .leave _ _ => inferInstanceAs (Decidable True)
  | .restart _ => inferInstanceAs (Decidable True)

section Members

variable {T : Trigger} {s : Server}

/-- Each group has a member. -/
def Staffed (s : Server) : Prop := ∀ name, (s.groupFor name).router.nodes ≠ []

theorem staffed_of_lookup (h : ∀ name g, s.groups.lookup name = some g → g.router.nodes ≠ []) : Staffed s := by
  intro name
  rcases hlookup : s.groups.lookup name with _ | g
  · rw [Server.groupFor, hlookup]
    exact cons_ne_nil _ _
  · rw [groupFor_of_lookup hlookup]
    exact h name g hlookup

theorem Staffed.lookup (h : Staffed s) {name : String} {g : Group} (hg : s.groups.lookup name = some g) :
    g.router.nodes ≠ [] := by
  have := h name
  rwa [groupFor_of_lookup hg] at this

/-- A poll leaves the members as they are. -/
theorem router_dispatchNext (t : Topic) (short : ℕ) (g : Group) : (t.dispatchNext short g).1.router = g.router := by
  by_cases hmembers : g.router.nodes = []
  · rw [Topic.dispatchNext, if_pos hmembers]
  · rcases hreader : t.reader (during t.log.files short) g with e | r
    · simp only [Topic.dispatchNext, if_neg hmembers, hreader]
    · rcases hread : r.readNext (during t.log.files short) with e | ⟨r', _ | ⟨offset, x⟩⟩
      · simp only [Topic.dispatchNext, if_neg hmembers, hreader, hread]
      · simp only [Topic.dispatchNext, if_neg hmembers, hreader, hread]
      · rcases hsplit : splitRecord x with _ | ⟨key, payload⟩
        · simp only [Topic.dispatchNext, if_neg hmembers, hreader, hread, hsplit]
        · rcases hroute : g.router.route key with _ | member
          · simp only [Topic.dispatchNext, if_neg hmembers, hreader, hread, hsplit, hroute]
          · simp only [Topic.dispatchNext, if_neg hmembers, hreader, hread, hsplit, hroute]

theorem staffed_handle (h : Staffed s) (short : ℕ) (req : Request) : Staffed (s.handle T short req).1 := by
  cases req with
  | produce key payload =>
    obtain ⟨topic, heq⟩ := handle_produce s T short key payload
    rw [heq]
    exact h
  | poll name =>
    have hgroups : (s.handle T short (.poll name)).1.groups =
        s.groups.insert name (s.topic.dispatchNext short (s.groupFor name)).1 := by
      rw [Server.handle]
      rcases s.topic.dispatchNext short (s.groupFor name) with ⟨g, e | _ | d⟩ <;> rfl
    refine staffed_of_lookup fun group g hg => ?_
    rw [hgroups, lookup_insert_ite] at hg
    split_ifs at hg with heq
    · rw [← Option.some.inj hg, router_dispatchNext]
      exact h name
    · exact h.lookup hg
  | commit name offset =>
    obtain ⟨offsets, heq⟩ := handle_commit s T short name offset
    rw [heq]
    exact staffed_of_lookup fun group g hg => h.lookup hg

/-- Clients cannot take the members of a group away. -/
theorem Staffed.step (h : Staffed s) {e : Event} (he : FromClients e) : Staffed ((serverMachine T).step s e).1 := by
  cases e with
  | request req short => exact staffed_handle h short req
  | join group id => exact he.elim
  | leave group id => exact he.elim
  | restart segmentBytes =>
    refine staffed_of_lookup fun group g hg => ?_
    cases hg

theorem Staffed.final {x : Server × History} (h : Staffed x.1) {events : List Event}
    (hclients : ∀ e ∈ events, FromClients e) : Staffed ((logged T).final x events).1 := by
  induction events generalizing x with
  | nil => exact h
  | cons e events ih =>
    have hstep : Staffed ((logged T).step x e).1.1 := h.step (hclients e mem_cons_self)
    exact ih hstep fun e he => hclients e (mem_cons_of_mem _ he)

end Members

section Progress

variable {T : Trigger} {s : Server} {ps : List (Bytes × Bytes)} {m : Offsets.MemOffsets}

/-- **A group before which there are records receives the next one**, in this poll or, if its reader was at its end,
in the one after it. -/
theorem Sound.progress (h : Sound s ps m) (hstaffed : Staffed s) {name : String}
    (hbefore : (s.groupFor name).cursor < s.topic.endOffset) (short short' : ℕ) :
    (∃ r, (s.handle T short (.poll name)).2 = .record (some r)) ∨
      ∃ r, ((s.handle T short (.poll name)).1.handle T short' (.poll name)).2 = .record (some r) := by
  obtain ⟨i, hat⟩ := h.at_groupFor name
  have hlt : i ≠ ps.length := by
    rintro rfl
    rw [hat.cursor, h.endOffset] at hbefore
    exact lt_irrefl _ hbefore
  rcases h.poll T short hat with ⟨g', record, heq, -⟩ | ⟨g', heq, hat', hreplay, hrouter, -⟩ | ⟨hnone, -⟩
  · exact .inl ⟨_, by rw [heq]⟩
  · -- the reader is gone, so the next poll makes a new one
    refine .inr ?_
    have hself : ({ s with groups := s.groups.insert name g' } : Server).groupFor name = g' := by
      rw [groupFor_insert, if_pos rfl]
    have hat'' : At ({ s with groups := s.groups.insert name g' } : Server).topic.log (stored ps)
        (({ s with groups := s.groups.insert name g' } : Server).groupFor name) i := by
      rw [hself]
      exact hat'
    rw [heq]
    rcases (h.insert hat').poll T short' hat'' with ⟨g'', record, heq', -⟩ | ⟨g'', -, -, -, -, -, hend⟩ | ⟨hnone, -⟩
    · exact ⟨_, by rw [heq']⟩
    · rw [hself] at hend
      exact absurd (hend hreplay) hlt
    · rw [hself, hrouter] at hnone
      exact absurd hnone (hstaffed name)
  · exact absurd hnone (hstaffed name)

/-- What a group receives in a step was produced. -/
theorem Sound.mem_produced (h : Sound s ps m) {e : Event} {name : String} {record : Bytes × Bytes}
    (hrecord : record ∈ receivedBy name e ((serverMachine T).step s e).2) : record ∈ ps := by
  by_cases hpoll : ∃ short, e = .request (.poll name) short
  · obtain ⟨i, hat⟩ := h.at_groupFor name
    obtain ⟨-, -, hgot⟩ := h.follow T hat (by rintro n rfl; obtain ⟨_, heq⟩ := hpoll; cases heq) (.inr hpoll)
    rw [hgot] at hrecord
    exact mem_of_mem_drop (mem_of_mem_take hrecord)
  · rw [receivedBy_eq_nil fun short heq => hpoll ⟨short, heq⟩] at hrecord
    cases hrecord

/-- Everything received so far was produced. -/
def Genuine (h : History) : Prop := ∀ name, ∀ record ∈ received name h, record ∈ produced h

theorem Consistent.genuine {x : Server × History} (h : Consistent x) (hgenuine : Genuine x.2) {events : List Event}
    (haligned : (logged T).Guarded (fun x e => Aligned (produced x.2) e) x events) :
    Genuine ((logged T).final x events).2 := by
  induction events generalizing x with
  | nil => exact hgenuine
  | cons e events ih =>
    refine ih (h.step haligned.1) (fun name record hrecord => ?_) haligned.2
    obtain ⟨m, hsound, -⟩ := h
    change record ∈ Topics.received name (x.2 ++ [_]) at hrecord
    change record ∈ produced (x.2 ++ [_])
    rw [produced_concat]
    rw [Topics.received, flatMap_append, flatMap_singleton, mem_append] at hrecord
    rcases hrecord with hrecord | hrecord
    · exact mem_append_left _ (hgenuine name record hrecord)
    · exact mem_append_left _ (hsound.mem_produced hrecord)

end Progress

/-- **With commits at record boundaries polls return what was produced.**  In every run of client requests and
restarts in which each commit that is not behind the end of the topic is at an offset at which a record starts or the
last one ends: each record that a poll returned was produced, and a group before which there are records receives one
in its next poll or in the one after it. -/
theorem polls_return_produced (T : Trigger) (segmentBytes : ℕ) (events : List Event)
    (hclients : ∀ e ∈ events, FromClients e)
    (haligned : (logged T).Guarded (fun x e => Aligned (produced x.2) e) (unused segmentBytes) events) :
    (∀ name, ∀ record ∈ received name ((logged T).final (unused segmentBytes) events).2,
      record ∈ produced ((logged T).final (unused segmentBytes) events).2) ∧
    ∀ name short short', (((logged T).final (unused segmentBytes) events).1.groupFor name).cursor <
        ((logged T).final (unused segmentBytes) events).1.topic.endOffset →
      (∃ r, (((logged T).final (unused segmentBytes) events).1.handle T short (.poll name)).2 = .record (some r)) ∨
        ∃ r, ((((logged T).final (unused segmentBytes) events).1.handle T short (.poll name)).1.handle T short'
          (.poll name)).2 = .record (some r) := by
  have hconsistent := consistent_unused segmentBytes
  refine ⟨hconsistent.genuine nofun haligned, fun name short short' hbefore => ?_⟩
  obtain ⟨m, hsound, -⟩ := hconsistent.final haligned
  have hstaffed : Staffed ((logged T).final (unused segmentBytes) events).1 :=
    Staffed.final (staffed_of_lookup fun _ _ hg => by cases hg) hclients
  exact hsound.progress hstaffed hbefore short short'

/-- Two records are produced, and the end of the first is committed. -/
def commitBetween : List Event :=
  [.request (.produce [1] [2]) 0, .request (.produce [3] [4]) 0, .request (.commit "a" 14) 0, .restart 1024]

/-- After the restart, one of two polls returns a record. -/
theorem polls_return_produced_between :
    (∃ r, (((logged compaction).final (unused 1024) commitBetween).1.handle compaction 0
        (.poll "a")).2 = .record (some r)) ∨
      ∃ r, ((((logged compaction).final (unused 1024) commitBetween).1.handle compaction 0
        (.poll "a")).1.handle compaction 0 (.poll "a")).2 = .record (some r) :=
  (polls_return_produced compaction 1024 commitBetween (by decide) (by decide +kernel)).2 "a" 0 0 (by decide +kernel)

/-- A payload that is itself a frame, and a commit at the place where that frame starts. -/
def forging : List Event :=
  [.request (.produce [] (wire.frame (recordOf [] [7]))) 0, .request (.commit "a" 8) 0, .restart 1024,
    .request (.poll "a") 0]

/-- Two records, and a commit one byte into the first. -/
def stranding : List Event :=
  [.request (.produce [1] [2]) 0, .request (.produce [3] [4]) 0, .request (.commit "a" 1) 0, .restart 1024,
    .request (.poll "a") 0, .request (.poll "a") 0, .request (.produce [5] [6]) 0, .request (.poll "a") 0,
    .request (.poll "a") 0]

/-- A commit inside a record is accepted.  In one run the group then receives a record that was never produced; in
another one it receives nothing, poll after poll, with three records in the topic. -/
theorem commit_inside_record : (received "a" ((logged compaction).final (unused 1024) forging).2 = [([], [7])] ∧
      ([], [7]) ∉ produced ((logged compaction).final (unused 1024) forging).2) ∧
    received "a" ((logged compaction).final (unused 1024) stranding).2 = [] ∧
      produced ((logged compaction).final (unused 1024) stranding).2 = [([1], [2]), ([3], [4]), ([5], [6])] := by
  decide +kernel

end Datarail.Topics
