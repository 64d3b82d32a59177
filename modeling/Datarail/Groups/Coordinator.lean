/-
# The group coordinator

`GroupCoordinator` of `crates/datarail-kafka/src/coordinator.rs`: the state machine behind
`JoinGroup`, `SyncGroup`, `Heartbeat` and `LeaveGroup`.

        first join            window closes                leader's sync
    Empty ──► PreparingRebalance ──► CompletingRebalance ──► Stable

All groups are behind one mutex.  `join` and `sync` give it up while they wait, so a call is
one step or more: what it does when it comes in, and what it does each time it is woken.  A
waiting call has a ticket, and any call may be woken at any time.  Each step reads the clock,
which may stand anywhere.

`World.group` is a group as the map has it, new where there is none.
-/

import Datarail.Lib.Collections
import Datarail.Lib.MachineInt
import Datarail.Lib.Run
import Mathlib.Data.String.Basic

namespace Datarail.Groups

open Lib List

abbrev Bytes := List UInt8

/-- `NONE`. -/
def codeNone : ℤ := 0

/-- `ILLEGAL_GENERATION`. -/
def illegalGeneration : ℤ := 22

/-- `UNKNOWN_MEMBER_ID`. -/
def unknownMemberId : ℤ := 25

/-- `REBALANCE_IN_PROGRESS`. -/
def rebalanceInProgress : ℤ := 27

/-- `GroupState`. -/
inductive GroupState where
  | empty
  | preparingRebalance
  | completingRebalance
  | stable
  deriving DecidableEq, Repr

/-- `Member`; times are in nanoseconds. -/
structure Member where
  subscription : Bytes
  protocols : List String
  assignment : Option Bytes
  lastHeartbeat : ℕ
  sessionTimeout : ℕ
  rebalanceTimeout : ℕ
  deriving DecidableEq, Repr

/-- `Group`. -/
structure Group where
  state : GroupState
  generation : ℤ
  protocolType : String
  protocol : Option String
  leader : Option String
  members : AList fun _ : String => Member
  /-- When the open join window closes. -/
  deadline : Option ℕ
  memberSeq : ℕ

/-- `JoinMember`: the request of a `join`. -/
structure JoinMember where
  memberId : String
  sessionTimeoutMs : ℤ
  rebalanceTimeoutMs : ℤ
  protocolType : String
  protocols : List (String × Bytes)
  deriving DecidableEq, Repr

/-- `JoinOutcome`. -/
structure JoinOutcome where
  errorCode : ℤ
  generation : ℤ
  protocol : String
  leader : String
  memberId : String
  members : List (String × Bytes)
  deriving DecidableEq, Repr

/-- `SyncOutcome`. -/
structure SyncOutcome where
  errorCode : ℤ
  assignment : Bytes
  deriving DecidableEq, Repr

/-- The two durations of a coordinator. -/
structure Timing where
  rebalanceDelay : ℕ
  syncTimeout : ℕ

/-- `Duration::from_millis`. -/
def millis (n : ℕ) : ℕ := n * 1000000

/-- A timeout a client asks for: 30 s if it is negative, else clamped to between 1 ms and 1 h. -/
def clientTimeout (ms : ℤ) : ℕ := millis (if ms < 0 then 30000 else min (max ms.toNat 1) 3600000)

/-- `split_protocols`. -/
def splitProtocols (protocols : List (String × Bytes)) : List String × Bytes :=
  (protocols.map Prod.fst, (protocols.head?.map Prod.snd).getD [])

/-- `unknown_join`. -/
def unknownJoin (memberId : String) : JoinOutcome :=
  { errorCode := unknownMemberId, generation := -1, protocol := "", leader := "", memberId, members := [] }

/-- `generation.checked_add(1).unwrap_or(1)`. -/
def nextGeneration (generation : ℤ) : ℤ := if generation < i32Max then generation + 1 else 1

namespace Group

/-- `Group::new`. -/
def new : Group :=
  { state := .empty, generation := 0, protocolType := "", protocol := none, leader := none, members := ∅
    deadline := none, memberSeq := 0 }

/-- `members.keys().next()`. -/
def firstMember (g : Group) : Option String := (sortedKeys g.members).head?

/-- The members a sweep at `now` keeps. -/
def survivors (g : Group) (now : ℕ) : AList fun _ : String => Member :=
  retainEntries g.members fun _ m => decide (now - m.lastHeartbeat < m.sessionTimeout)

/-- `expire_stale`. -/
def expireStale (now : ℕ) (g : Group) : Group :=
  let members := g.survivors now
  if members.entries.length = g.members.entries.length then { g with members }
  else if members.entries = [] then { g with members, state := .empty, leader := none }
  else if ∃ l ∈ g.leader, l ∉ members then
    { g with members, leader := (sortedKeys members).head? }
  else { g with members }

/-- `select_protocol`. -/
def selectProtocol (g : Group) : Option String :=
  match g.firstMember.bind g.members.lookup with
  | none => none
  | some first =>
    match first.protocols.find? fun name => g.members.entries.all fun e => e.2.protocols.contains name with
    | some name => some name
    | none => first.protocols.head?

/-- The assignments of all members are dropped. -/
def clearAssignments (g : Group) : Group :=
  { g with members := mapValues g.members fun m => { m with assignment := none } }

/-- A new generation, with an open window. -/
def prepare (t : Timing) (now : ℕ) (g : Group) : Group :=
  { g with
    state := .preparingRebalance
    generation := nextGeneration g.generation
    deadline := some (now + t.rebalanceDelay) }.clearAssignments

/-- The id of a member that registers: its own, or the next generated one. -/
def memberId (name : String) (request : JoinMember) (g : Group) : Group × String :=
  if request.memberId = "" then
    ({ g with memberSeq := g.memberSeq + 1 }, "datarail-" ++ name ++ "-" ++ toString (g.memberSeq + 1))
  else (g, request.memberId)

/-- The member a request asks for. -/
def newMember (request : JoinMember) (now : ℕ) : Member :=
  { subscription := (splitProtocols request.protocols).2
    protocols := (splitProtocols request.protocols).1
    assignment := none
    lastHeartbeat := now
    sessionTimeout := clientTimeout request.sessionTimeoutMs
    rebalanceTimeout := clientTimeout request.rebalanceTimeoutMs }

/-- A member is put into the group. -/
def enroll (mid : String) (request : JoinMember) (now : ℕ) (g : Group) : Group :=
  { g with
    members := g.members.insert mid (newMember request now)
    protocolType := if request.protocolType = "" then g.protocolType else request.protocolType }

/-- `register_member`: the group and the id of the member. -/
def registerMember (t : Timing) (name : String) (request : JoinMember) (now : ℕ) (g : Group) : Group × String :=
  let (g, mid) := (g.expireStale now).memberId name request
  let g := g.enroll mid request now
  (if g.state = .preparingRebalance then g else g.prepare t now, mid)

/-- The window closes: the generation gets its leader and its protocol. -/
def close (g : Group) : Group :=
  { g with state := .completingRebalance, leader := g.firstMember, protocol := g.selectProtocol }

/-- One round of the loop of `join`: whether the wait is over. -/
def pollJoin (now : ℕ) (g : Group) : Group × Bool :=
  match g.state with
  | .completingRebalance => (g, true)
  | .stable => (g, true)
  | _ =>
    match g.deadline with
    | some deadline => if deadline ≤ now then (g.close, true) else (g, false)
    | none => (g, false)

/-- The outcome of a `join` whose wait is over. -/
def joinOutcome (mid : String) (g : Group) : JoinOutcome :=
  { errorCode := codeNone
    generation := g.generation
    protocol := g.protocol.getD ""
    leader := g.leader.getD ""
    memberId := mid
    members :=
      if g.leader = some mid then
        (sortedKeys g.members).filterMap fun id => (g.members.lookup id).map fun m => (id, m.subscription)
      else [] }

/-- The assignments of the leader, one after the other. -/
def assignAll : List (String × Bytes) → AList (fun _ : String => Member) → AList fun _ : String => Member
  | [], members => members
  | (mid, bytes) :: rest, members =>
    match members.lookup mid with
    | none => assignAll rest members
    | some m => assignAll rest (members.insert mid { m with assignment := some bytes })

/-- The leader's assignments are taken over. -/
def assign (assignments : List (String × Bytes)) (g : Group) : Group :=
  { g with members := assignAll assignments g.members, state := .stable, deadline := none }

/-- What `sync` does when it comes in: refuse, or take over the assignments of the leader. -/
def startSync (member : String) (generation : ℤ) (assignments : List (String × Bytes)) (g : Group) :
    Except SyncOutcome Group :=
  if member ∉ g.members then .error ⟨unknownMemberId, []⟩
  else if g.generation ≠ generation then .error ⟨illegalGeneration, []⟩
  else if assignments ≠ [] ∧ g.leader = some member then .ok (g.assign assignments)
  else .ok g

/-- One round of the loop of `sync`. -/
def pollSync (member : String) (generation : ℤ) (g : Group) : Option SyncOutcome :=
  if g.generation ≠ generation then some ⟨rebalanceInProgress, []⟩
  else
    match g.members.lookup member with
    | some m =>
      match m.assignment with
      | some a => some ⟨codeNone, a⟩
      | none => if g.state = .stable then some ⟨codeNone, []⟩ else none
    | none => some ⟨unknownMemberId, []⟩

/-- The member is alive. -/
def touch (member : String) (m : Member) (now : ℕ) (g : Group) : Group :=
  { g with members := g.members.insert member { m with lastHeartbeat := now } }

/-- `heartbeat` on a group that exists. -/
def heartbeat (member : String) (generation : ℤ) (now : ℕ) (g : Group) : Group × ℤ :=
  let g := g.expireStale now
  match g.members.lookup member with
  | none => (g, unknownMemberId)
  | some m =>
    let g := g.touch member m now
    if g.generation ≠ generation then (g, illegalGeneration)
    else
      match g.state with
      | .stable => (g, codeNone)
      | .preparingRebalance => (g, rebalanceInProgress)
      | .completingRebalance => (g, rebalanceInProgress)
      | .empty => (g, unknownMemberId)

/-- `leave` on a group that exists. -/
def leave (t : Timing) (member : String) (now : ℕ) (g : Group) : Group × ℤ :=
  if member ∉ g.members then (g, unknownMemberId)
  else
    let g := { g with members := g.members.erase member }
    if g.members.entries = [] then ({ g with state := .empty, leader := none, deadline := none }, codeNone)
    else ({ g with leader := if g.leader = some member then g.firstMember else g.leader }.prepare t now, codeNone)

end Group

/-- A `join` that waits. -/
structure JoinWait where
  group : String
  memberId : String
  deriving DecidableEq, Repr

/-- A `sync` that waits, and until when. -/
structure SyncWait where
  group : String
  memberId : String
  generation : ℤ
  deadline : ℕ

/-- The groups, and the calls that wait. -/
structure World where
  groups : Table String Group
  joins : Table ℕ JoinWait
  syncs : Table ℕ SyncWait
  /-- The next ticket. -/
  ticket : ℕ

/-- A step, under the lock.  A call that comes in reads the clock twice. -/
inductive Call where
  | join (group : String) (request : JoinMember) (now later : ℕ)
  | wakeJoin (ticket now : ℕ)
  | sync (group memberId : String) (generation : ℤ) (assignments : List (String × Bytes)) (now later : ℕ)
  | wakeSync (ticket now : ℕ)
  | heartbeat (group memberId : String) (generation : ℤ) (now : ℕ)
  | leave (group memberId : String) (now : ℕ)
  deriving DecidableEq, Repr

/-- What a step answers. -/
inductive Reply where
  /-- The call waits, with a ticket. -/
  | parked (ticket : ℕ)
  /-- There was nobody to wake. -/
  | idle
  | joined (group : String) (outcome : JoinOutcome)
  | synced (group memberId : String) (generation : ℤ) (outcome : SyncOutcome)
  | beaten (group memberId : String) (generation : ℤ) (code : ℤ)
  | left (group memberId : String) (code : ℤ)
  deriving DecidableEq, Repr

namespace World

/-- No groups, and nobody waits. -/
def new : World := { groups := .empty, joins := .empty, syncs := .empty, ticket := 0 }

/-- A group, new where there is none. -/
def group (w : World) (name : String) : Group := (w.groups.get name).getD .new

/-- A group is put back. -/
def put (w : World) (name : String) (g : Group) : World := { w with groups := w.groups.insert name g }

/-- A `join` looks whether its wait is over; `ticket` is the one it waits with. -/
def continueJoin (w : World) (name mid : String) (now ticket : ℕ) : World × Reply :=
  match w.groups.get name with
  | none => ({ w with joins := w.joins.erase ticket }, .joined name (unknownJoin mid))
  | some g =>
    match g.pollJoin now with
    | (g, true) => ({ w.put name g with joins := w.joins.erase ticket }, .joined name (g.joinOutcome mid))
    | (_, false) => ({ w with joins := w.joins.insert ticket ⟨name, mid⟩ }, .parked ticket)

/-- A `sync` looks whether its wait is over. -/
def continueSync (w : World) (wait : SyncWait) (now ticket : ℕ) : World × Reply :=
  let done (outcome : SyncOutcome) : World × Reply :=
    ({ w with syncs := w.syncs.erase ticket }, .synced wait.group wait.memberId wait.generation outcome)
  match w.groups.get wait.group with
  | none => done ⟨unknownMemberId, []⟩
  | some g =>
    match g.pollSync wait.memberId wait.generation with
    | some outcome => done outcome
    | none =>
      if wait.deadline ≤ now then done ⟨rebalanceInProgress, []⟩
      else ({ w with syncs := w.syncs.insert ticket wait }, .parked ticket)

/-- A step of the coordinator. -/
def step (t : Timing) (w : World) : Call → World × Reply
  | .join name request now later =>
    let (g, mid) := (w.group name).registerMember t name request now
    { w.put name g with ticket := w.ticket + 1 }.continueJoin name mid later w.ticket
  | .wakeJoin ticket now =>
    match w.joins.get ticket with
    | none => (w, .idle)
    | some wait => w.continueJoin wait.group wait.memberId now ticket
  | .sync name member generation assignments now later =>
    match w.groups.get name with
    | none => (w, .synced name member generation ⟨unknownMemberId, []⟩)
    | some g =>
      match g.startSync member generation assignments with
      | .error outcome => (w, .synced name member generation outcome)
      | .ok g =>
        let parkFor := ((g.members.lookup member).map Member.rebalanceTimeout).getD t.syncTimeout
        { w.put name g with ticket := w.ticket + 1 }.continueSync
          ⟨name, member, generation, now + parkFor⟩ later w.ticket
  | .wakeSync ticket now =>
    match w.syncs.get ticket with
    | none => (w, .idle)
    | some wait => w.continueSync wait now ticket
  | .heartbeat name member generation now =>
    match w.groups.get name with
    | none => (w, .beaten name member generation unknownMemberId)
    | some g =>
      let (g, code) := g.heartbeat member generation now
      (w.put name g, .beaten name member generation code)
  | .leave name member now =>
    match w.groups.get name with
    | none => (w, .left name member unknownMemberId)
    | some g =>
      let (g, code) := g.leave t member now
      (w.put name g, .left name member code)

end World

/-- The coordinator over time. -/
def coordinator (t : Timing) : Machine World Call Reply where
  step := World.step t

/-- The replies of a run that are about a group. -/
def Reply.about (name : String) : Reply → Bool
  | .parked _ => false
  | .idle => false
  | .joined group _ => group = name
  | .synced group _ _ _ => group = name
  | .beaten group _ _ _ => group = name
  | .left group _ _ => group = name

/-- A reply without success. -/
def Reply.Refused : Reply → Prop
  | .parked _ => True
  | .idle => True
  | .joined _ outcome => outcome.errorCode ≠ codeNone
  | .synced _ _ _ outcome => outcome.errorCode ≠ codeNone
  | .beaten _ _ _ code => code ≠ codeNone
  | .left _ _ code => code ≠ codeNone

/-- The replies of a run. -/
def replies (t : Timing) (calls : List Call) : List Reply := ((coordinator t).trace .new calls).map Prod.snd

/-- A group after a run. -/
def groupAfter (t : Timing) (calls : List Call) (name : String) : Group :=
  ((coordinator t).final .new calls).group name

variable {calls : List Call}

/-- A group one step further. -/
theorem groupAfter_succ {t : Timing} {name : String} {k : ℕ} {call : Call}
    (h : calls[k]? = some call) : groupAfter t (calls.take (k + 1)) name =
      (((coordinator t).final .new (calls.take k)).step t call).1.group name :=
  congrArg (World.group · name) ((coordinator t).final_take_succ h)

/-- A group when the run is over. -/
theorem groupAfter_succ_of_none {t : Timing} {name : String} {k : ℕ} (h : calls[k]? = none) :
    groupAfter t (calls.take (k + 1)) name = groupAfter t (calls.take k) name := by
  rw [take_add_one, h, Option.toList_none, append_nil]

/-- A member that asks for a session of some milliseconds. -/
def joiner (memberId : String) (sessionTimeoutMs : ℤ) : JoinMember :=
  ⟨memberId, sessionTimeoutMs, 60000, "consumer", [("range", [])]⟩

section Worlds

variable (w : World) (name other : String) (g : Group)

@[simp] theorem World.group_put : (w.put name g).group name = g := by
  simp [World.group, World.put]

@[simp] theorem World.group_put_of_ne (h : other ≠ name) : (w.put name g).group other = w.group other := by
  simp [World.group, World.put, h]

theorem World.group_of_get {w : World} {name : String} {g : Group} (h : w.groups.get name = some g) :
    w.group name = g := by
  rw [World.group, h, Option.getD_some]

end Worlds

end Datarail.Groups
