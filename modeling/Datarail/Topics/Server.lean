/-
# The topic server

`Server` of `crates/datarail-broker/src/lib.rs`: a topic, the committed offsets of the consumer groups and, for each
group that has polled since the server was started, a `Group`.  `handle` answers one request.

A group is made by its first `Poll`, with the member 0, at its committed offset or at the start.  The offset in the
answer to a `Poll` is where the group goes on.  A `Commit` is refused if its offset is behind the end of the topic,
and for no other reason of the offset.

`Event` is what happens to a server over time: requests, members that join or leave a group that is there (for
which `Group` has operations and the protocol no request), and restarts.  The offsets are in a `FileOffsets`.  The
disk does not fail.
-/

import Datarail.Offsets.Refinement
import Datarail.Topics.Topic

namespace Datarail.Topics

open Lib
open Replaylog (ReplayLog ReplayError Files)
open Offsets (FileOffsets MemOffsets Trigger)

/-- `Request`. -/
inductive Request where
  | produce (key payload : Bytes)
  | poll (group : String)
  | commit (group : String) (offset : UInt64)
  deriving DecidableEq, Repr

/-- Why `handle` answers with an error. -/
inductive ServerError where
  | topic (e : TopicError)
  | pastTail
  | vanished
  | offsets (e : IoError)
  deriving DecidableEq

/-- `Response`; of an error the text is sent. -/
inductive Response where
  | produced (offset : ℕ)
  | record (record : Option (ℕ × Bytes × Bytes))
  | committed
  | err (e : ServerError)
  deriving DecidableEq

structure Server where
  topic : Topic
  offsets : FileOffsets
  groups : AList fun _ : String => Group

namespace Server

/-- `Server::new`. -/
def new (topic : Topic) (offsets : FileOffsets) : Server := ⟨topic, offsets, ∅⟩

/-- The group of a `Poll`, made if it is not there. -/
def groupFor (s : Server) (group : String) : Group :=
  match s.groups.lookup group with
  | some g => g
  | none => (Group.new [0]).seek ((s.offsets.fetch group).map UInt64.toNat |>.getD 0)

variable (T : Trigger)

/-- `handle`; in a `Poll` each read is shorter than a chunk by `short` bytes. -/
def handle (s : Server) (short : ℕ) : Request → Server × Response
  | .produce key payload =>
    match s.topic.produce key payload with
    | (topic, .error e) => ({ s with topic }, .err (.topic e))
    | (topic, .ok offset) =>
      match topic.sync with
      | (topic, .error e) => ({ s with topic }, .err (.topic e))
      | (topic, .ok ()) => ({ s with topic }, .produced offset)
  | .poll group =>
    let (g, out) := s.topic.dispatchNext short (s.groupFor group)
    let s := { s with groups := s.groups.insert group g }
    match out with
    | .error e => (s, .err (.topic e))
    | .ok none => (s, .record none)
    | .ok (some d) => (s, .record (some (g.cursor, d.key, d.payload)))
  | .commit group offset =>
    if s.topic.endOffset < offset.toNat then (s, .err .pastTail)
    else
      match s.offsets.commit T group offset none with
      | (offsets, .error e) => ({ s with offsets }, .err (.offsets e))
      | (offsets, .ok ()) => ({ s with offsets }, .committed)

/-- A change to a group that is there. -/
def change (s : Server) (group : String) (f : Group → Group) : Server :=
  match s.groups.lookup group with
  | some g => { s with groups := s.groups.insert group (f g) }
  | none => s

/-- The server is stopped, and started on the same files. -/
def restart (s : Server) (segmentBytes : ℕ) : Server :=
  .new (.open s.topic.log.files segmentBytes) (.open s.offsets.log)

end Server

/-- What happens to a server. -/
inductive Event where
  | request (req : Request) (short : ℕ)
  | join (group : String) (id : UInt64)
  | leave (group : String) (id : UInt64)
  | restart (segmentBytes : ℕ)
  deriving DecidableEq, Repr

/-- A server over time. -/
def serverMachine (T : Trigger) : Machine Server Event (Option Response) where
  step s
    | .request req short => ((s.handle T short req).1, some (s.handle T short req).2)
    | .join group id => (s.change group (·.addMember id), none)
    | .leave group id => (s.change group (·.removeMember id), none)
    | .restart segmentBytes => (s.restart segmentBytes, none)

/-- A server on empty directories. -/
def fresh (segmentBytes : ℕ) : Server := .new (.open .empty segmentBytes) (.open [])

end Datarail.Topics
