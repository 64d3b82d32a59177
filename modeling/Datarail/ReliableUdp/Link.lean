/-
# Two ends of a reliable datagram mover

`FaspLink` of `crates/datarail-rail/src/reliable_udp.rs`, with its peer set.  A link numbers what it sends,
keeps it until it is acknowledged, and sends it again when it is due; it acknowledges what it receives within
its window and hands it out in order.

What a call finds at the socket is part of the call: the datagrams that have arrived, the sends that
fail, the messages whose timeout has passed, and whether the congestion window admits another message.
The delay controller and the clock decide the last two and nothing else, so they are not modelled further.
Nor are the counters that are only reported.
-/

import Datarail.Lib.Collections
import Datarail.Lib.IoError
import Datarail.Lib.Run
import Datarail.ReliableUdp.Frame

namespace Datarail.ReliableUdp

open Lib

/-- One of the two ends. -/
inductive Side where
  | left
  | right
  deriving DecidableEq

/-- The other end. -/
def Side.other : Side → Side
  | .left => .right
  | .right => .left

@[simp] theorem Side.other_other (x : Side) : x.other.other = x := by cases x <;> rfl

theorem Side.other_ne (x : Side) : x.other ≠ x := by cases x <;> decide

/-- A socket address. -/
inductive Addr where
  | of (side : Side)
  | elsewhere (n : ℕ)
  deriving DecidableEq

/-- `FaspCfg`, as far as it decides what is sent and kept. -/
structure FaspCfg where
  maxInflight : ℕ
  recvWindow : ℕ
  lossSimDropEvery : ℕ

/-- `FaspError`. -/
inductive FaspError where
  | io (e : IoError)
  | tooLarge (n : ℕ)
  deriving DecidableEq

/-- `ACK_FRAME_LEN`. -/
def ackFrameLen : ℕ := headerLen + crcLen

/-- `ACK_DGRAM_BUDGET`. -/
def ackDgramBudget : ℕ := maxFaspPayload

/-- `ACK_FLUSH_THRESHOLD`. -/
def ackFlushThreshold : ℕ := ackDgramBudget / ackFrameLen

/-- `u64::MAX`. -/
def u64Max : ℕ := 2 ^ 64 - 1

/-- What `recv_from` returns, `WouldBlock` apart. -/
inductive Incoming where
  | datagram (bytes : Bytes) (source : Addr)
  | interrupted
  | failed (e : IoError)
  deriving DecidableEq

/-- What one `pump` finds. -/
structure Script where
  /-- What has arrived. -/
  incoming : List Incoming
  /-- The errors of the socket's sends, one after the other; `none` where a send goes out. -/
  failures : List (Option IoError)
  /-- What is past its timeout. -/
  due : List ℕ

/-- `FaspLink`. -/
structure FaspLink where
  nextSeq : ℕ
  /-- The frames that are not acknowledged. -/
  inflight : AList fun _ : ℕ => Bytes
  txCount : ℕ
  pendingAcks : List ℕ
  nextDeliver : ℕ
  reorder : AList fun _ : ℕ => Bytes
  ready : List Bytes
  /-- The datagrams the socket has sent. -/
  wire : List Bytes
  /-- The errors of the socket's next sends. -/
  failures : List (Option IoError)

namespace FaspLink

/-- `bind` and `set_peer`. -/
def new : FaspLink := ⟨0, ∅, 0, [], 0, ∅, [], [], []⟩

variable (cfg : FaspCfg)

/-- `?`: the rest of a call, unless what came before it failed. -/
def andThen {α : Type} (x : FaspLink × Except FaspError Unit) (rest : FaspLink → FaspLink × Except FaspError α) :
    FaspLink × Except FaspError α :=
  match x with
  | (l, .error e) => (l, .error e)
  | (l, .ok ()) => rest l

/-- `wire_send`. -/
def wireSend (dgram : Bytes) (l : FaspLink) : FaspLink × Except FaspError Unit :=
  let l := { l with txCount := l.txCount + 1 }
  if cfg.lossSimDropEvery ≠ 0 ∧ l.txCount % cfg.lossSimDropEvery = 0 then (l, .ok ())
  else
    match l.failures.headD none with
    | some e => ({ l with failures := l.failures.tail }, .error (.io e))
    | none => ({ l with failures := l.failures.tail, wire := l.wire ++ [dgram] }, .ok ())

/-- `can_send`, when the congestion window admits another message or not. -/
def canSend (window : Bool) (l : FaspLink) : Bool := decide (l.inflight.keys.length < cfg.maxInflight) && window

/-- The loop that moves messages in order to `ready`; each round takes one out of `reorder`. -/
def deliver : (rounds : ℕ) → FaspLink → FaspLink
  | 0, l => l
  | rounds + 1, l =>
    match l.reorder.lookup l.nextDeliver with
    | none => l
    | some bytes =>
      deliver rounds { l with
        reorder := l.reorder.erase l.nextDeliver
        ready := l.ready ++ [bytes]
        nextDeliver := l.nextDeliver + 1 }

/-- A data frame. -/
def onData (l : FaspLink) (f : Frame) : FaspLink :=
  let base := l.nextDeliver - l.ready.length
  if min (base + cfg.recvWindow) u64Max ≤ f.seq then l
  else
    let l := { l with pendingAcks := l.pendingAcks ++ [f.seq] }
    if l.nextDeliver ≤ f.seq ∧ f.seq ∉ l.reorder then
      deliver (l.reorder.keys.length + 1) { l with reorder := l.reorder.insert f.seq f.payload }
    else l

/-- One frame of `on_datagram`. -/
def onFrame (l : FaspLink) (f : Frame) : FaspLink :=
  if f.kind = kindData then onData cfg l f
  else if f.kind = kindAck then { l with inflight := l.inflight.erase f.seq }
  else l

/-- `on_datagram`. -/
def onDatagram (peer : Addr) (l : FaspLink) (dgram : Bytes) (source : Addr) : FaspLink :=
  if source ≠ peer then l else (framesOf dgram).foldl (onFrame cfg) l

/-- The loop of `flush_acks` over the acknowledgements that are left, with the datagram so far. -/
def packAcks : List ℕ → Bytes → FaspLink → FaspLink × Except FaspError Unit
  | [], dgram, l => if dgram = [] then (l, .ok ()) else wireSend cfg dgram l
  | seq :: acks, dgram, l =>
    if dgram ≠ [] ∧ ackDgramBudget < dgram.length + ackFrameLen then
      andThen (wireSend cfg dgram l) fun l => packAcks acks (encodeFrame ⟨seq, kindAck, []⟩) l
    else packAcks acks (dgram ++ encodeFrame ⟨seq, kindAck, []⟩) l

/-- `flush_acks`. -/
def flushAcks (l : FaspLink) : FaspLink × Except FaspError Unit :=
  if l.pendingAcks = [] then (l, .ok ())
  else packAcks cfg l.pendingAcks [] { l with pendingAcks := [] }

/-- The loop of `retransmit_due`. -/
def resend : List ℕ → FaspLink → FaspLink × Except FaspError Unit
  | [], l => (l, .ok ())
  | seq :: due, l =>
    match l.inflight.lookup seq with
    | none => resend due l
    | some frame => andThen (wireSend cfg frame l) fun l => resend due l

/-- `retransmit_due`. -/
def retransmitDue (due : List ℕ) (l : FaspLink) : FaspLink × Except FaspError Unit :=
  resend cfg ((sortedKeys l.inflight).filter (· ∈ due)) l

/-- Acknowledgements that fill a datagram are sent at once. -/
def flushLong (l : FaspLink) : FaspLink × Except FaspError Unit :=
  if ackFlushThreshold ≤ l.pendingAcks.length then flushAcks cfg l else (l, .ok ())

/-- The first loop of `pump`. -/
def drain (peer : Addr) : List Incoming → FaspLink → FaspLink × Except FaspError Unit
  | [], l => (l, .ok ())
  | .failed e :: _, l => (l, .error (.io e))
  | .interrupted :: incoming, l => andThen (flushLong cfg l) fun l => drain peer incoming l
  | .datagram bytes source :: incoming, l =>
    andThen (flushLong cfg (onDatagram cfg peer l bytes source)) fun l => drain peer incoming l

/-- `pump`. -/
def pump (peer : Addr) (script : Script) (l : FaspLink) : FaspLink × Except FaspError Unit :=
  andThen (drain cfg peer script.incoming { l with failures := script.failures }) fun l =>
    andThen (flushAcks cfg l) fun l => retransmitDue cfg script.due l

/-- `recv`. -/
def recv (peer : Addr) (script : Script) (l : FaspLink) : FaspLink × Except FaspError (Option Bytes) :=
  andThen (pump cfg peer script l) fun l => ({ l with ready := l.ready.tail }, .ok l.ready.head?)

/-- One round of waiting for room in `send`. -/
structure Round where
  /-- The congestion window admits another message. -/
  window : Bool
  script : Script
  /-- It does after the `pump`. -/
  windowAfter : Bool
  /-- The deadline has passed. -/
  timedOut : Bool

/-- The error of a `send` whose deadline has passed. -/
def timedOut : FaspError :=
  .io ⟨.timedOut, "fasp send blocked: in-flight window will not drain (peer not acknowledging)"⟩

/-- The first loop of `send`.  When the rounds are over, the congestion window admits the message or the deadline
has passed. -/
def awaitRoom (peer : Addr) : List Round → FaspLink → FaspLink × Except FaspError Unit
  | [], l => if canSend cfg true l then (l, .ok ()) else (l, .error timedOut)
  | round :: rounds, l =>
    if canSend cfg round.window l then (l, .ok ())
    else
      andThen (pump cfg peer round.script l) fun l =>
        if canSend cfg round.windowAfter l = false ∧ round.timedOut then (l, .error timedOut)
        else awaitRoom peer rounds l

/-- The rest of `send`: the message gets its number and goes out, or the socket's send fails.  The number is
checked as in a build with overflow checks. -/
def sendData (payload : Bytes) (failure : Option IoError) (l : FaspLink) : FaspLink × Except FaspError Unit :=
  if u64Max ≤ l.nextSeq then (l, .error (.io ⟨.other, "attempt to add with overflow"⟩))
  else
    let seq := l.nextSeq
    let frame := encodeFrame ⟨seq, kindData, payload⟩
    andThen (wireSend cfg frame { l with nextSeq := seq + 1, failures := [failure] }) fun l =>
      ({ l with inflight := l.inflight.insert seq frame }, .ok ())

/-- `send`. -/
def send (peer : Addr) (payload : Bytes) (rounds : List Round) (failure : Option IoError) (l : FaspLink) :
    FaspLink × Except FaspError Unit :=
  if maxFaspPayload < payload.length then (l, .error (.tooLarge payload.length))
  else andThen (awaitRoom cfg peer rounds l) fun l => sendData cfg payload failure l

variable {α : Type}

@[simp] theorem andThen_error (l : FaspLink) (e : FaspError)
    (rest : FaspLink → FaspLink × Except FaspError α) : andThen (l, .error e) rest = (l, .error e) := rfl

@[simp] theorem andThen_ok (l : FaspLink) (u : Unit)
    (rest : FaspLink → FaspLink × Except FaspError α) : andThen (l, .ok u) rest = rest l := rfl

theorem andThen_of_ok {x : FaspLink × Except FaspError Unit} (hx : x.2 = .ok ())
    (rest : FaspLink → FaspLink × Except FaspError α) : andThen x rest = rest x.1 := by
  obtain ⟨l, result⟩ := x
  cases hx
  rfl

end FaspLink

open FaspLink

/-- Both ends. -/
abbrev World := Side → FaspLink

/-- A call. -/
inductive Event where
  | send (x : Side) (payload : Bytes) (rounds : List Round) (failure : Option IoError)
  | recv (x : Side) (script : Script)
  | pump (x : Side) (script : Script)

/-- What a call returns. -/
inductive Answer where
  | sent (x : Side) (payload : Bytes) (result : Except FaspError Unit)
  | received (x : Side) (result : Except FaspError (Option Bytes))
  | pumped (x : Side) (result : Except FaspError Unit)

/-- Calls at both ends. -/
def machine (cfg : Side → FaspCfg) : Machine World Event Answer where
  step w
    | .send x payload rounds failure =>
      let r := FaspLink.send (cfg x) (.of x.other) payload rounds failure (w x)
      (Function.update w x r.1, .sent x payload r.2)
    | .recv x script =>
      let r := FaspLink.recv (cfg x) (.of x.other) script (w x)
      (Function.update w x r.1, .received x r.2)
    | .pump x script =>
      let r := FaspLink.pump (cfg x) (.of x.other) script (w x)
      (Function.update w x r.1, .pumped x r.2)

/-- Two links that know each other. -/
def initial : World := fun _ => FaspLink.new

/-- The payloads whose `send` returned `Ok` at an end, in order. -/
def accepted (h : List (Event × Answer)) (x : Side) : List Bytes :=
  h.filterMap fun e => match e.2 with
    | .sent y payload (.ok ()) => if y = x then some payload else none
    | _ => none

/-- The messages `recv` has returned at an end, in order. -/
def returned (h : List (Event × Answer)) (x : Side) : List Bytes :=
  h.filterMap fun e => match e.2 with
    | .received y (.ok (some payload)) => if y = x then some payload else none
    | _ => none

/-! ### The network -/

/-- The link has sent this frame. -/
def Heard (l : FaspLink) (f : Frame) : Prop := ∃ dgram ∈ l.wire, f ∈ framesOf dgram

/-- **What the network may do.**  Datagrams are lost, repeated, reordered, cut and changed, and anything may come
from other addresses; but since the checksum detects every change, a frame that is read under the peer's address
is one that the peer has sent. -/
def Plausible (peer : Side) (l : FaspLink) (incoming : List Incoming) : Prop :=
  ∀ bytes, .datagram bytes (.of peer) ∈ incoming → ∀ f ∈ framesOf bytes, Heard l f

/-- What arrives during a call. -/
def Event.incoming : Event → List Incoming
  | .send _ _ rounds _ => rounds.flatMap fun round => round.script.incoming
  | .recv _ script => script.incoming
  | .pump _ script => script.incoming

/-- The error of the first transmission of a message. -/
def Event.failure : Event → Option IoError
  | .send _ _ _ failure => failure
  | _ => none

/-- A call of `send`. -/
def Event.IsSend : Event → Prop
  | .send .. => True
  | _ => False

/-- Where a call is made. -/
def Event.side : Event → Side
  | .send x _ _ _ => x
  | .recv x _ => x
  | .pump x _ => x

/-- A call in which the network does what it may. -/
def Allowed (w : World) (e : Event) : Prop := Plausible e.side.other (w e.side.other) e.incoming

end Datarail.ReliableUdp
