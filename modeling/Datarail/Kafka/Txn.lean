/-
# The transaction coordinator

`TxnCoordinator` of `crates/datarail-kafka/src/txn.rs`: the state behind a
transactional producer.  Per transactional id it keeps the current
`(producer_id, epoch)`, the partitions and the consumer offsets of the open
transaction; beside it the partition claims of all ids and the reverse index
from producer ids.

Every method takes the one mutex for its whole body, so each is a function from
the coordinator to the coordinator and its result.  `txnMachine` is the
coordinator under any sequence of method calls.
-/

import Datarail.Lib.Collections
import Datarail.Lib.MachineInt
import Datarail.Lib.Run
import Mathlib.Data.String.Basic
import Mathlib.Data.Prod.Lex

namespace Datarail.Kafka

open Lib List

/-- A partition of a topic. -/
structure TopicPartition where
  /-- The topic's name. -/
  topic : String
  /-- The partition's number, an `i32` of the wire. -/
  partition : ℤ
  deriving DecidableEq, Repr

/-- The order of the pair `(String, i32)`. -/
instance : LinearOrder TopicPartition :=
  LinearOrder.lift' (fun tp => toLex (tp.topic, tp.partition)) (by
    rintro ⟨t, p⟩ ⟨t', p'⟩ h
    simpa using h)

/-- `NONE`. -/
def errorNone : ℤ := 0

/-- `INVALID_PRODUCER_EPOCH`: the pair is fenced by a newer incarnation. -/
def invalidProducerEpoch : ℤ := 47

/-- `INVALID_TXN_STATE`: the operation is not valid in the current state. -/
def invalidTxnState : ℤ := 48

/-- `CONCURRENT_TRANSACTIONS`: another open transaction holds a partition. -/
def concurrentTransactions : ℤ := 51

/-- Per-`transactional_id` coordinator state. -/
structure TxnState where
  /-- The producer id of the current incarnation. -/
  producerId : ℤ
  /-- The epoch of the current incarnation. -/
  epoch : ℤ
  /-- Whether a transaction is open. -/
  ongoing : Bool
  /-- The partitions enrolled in the open transaction. -/
  partitions : SortedSet TopicPartition
  /-- The consumer group whose offsets the transaction commits. -/
  group : Option String
  /-- The staged `(topic, partition, offset)`s. -/
  stagedOffsets : List (TopicPartition × ℤ)

namespace TxnState

/-- `TxnState::new`. -/
def new (producerId : ℤ) : TxnState :=
  { producerId, epoch := 0, ongoing := false, partitions := .empty, group := none,
    stagedOffsets := [] }

/-- `reset_txn`. -/
def resetTxn (st : TxnState) : TxnState :=
  { st with ongoing := false, partitions := .empty, group := none, stagedOffsets := [] }

/-- The current incarnation, the pair every request is fenced against. -/
def pair (st : TxnState) : ℤ × ℤ := (st.producerId, st.epoch)

/-- An incarnation with no open transaction. -/
def idle (pair : ℤ × ℤ) : TxnState := { TxnState.new pair.1 with epoch := pair.2 }

theorem resetTxn_eq_idle (st : TxnState) : st.resetTxn = idle st.pair := rfl

@[simp] theorem pair_idle (pair : ℤ × ℤ) : (idle pair).pair = pair := rfl

end TxnState

/-- The result of `end_txn`. -/
structure EndTxnOutcome where
  /-- Error code, `0` for none. -/
  errorCode : ℤ
  /-- Whether the transaction commits. -/
  committed : Bool
  /-- The partitions to flush or discard. -/
  partitions : List TopicPartition
  /-- On commit, the consumer group. -/
  group : Option String
  /-- On commit, the offsets to commit durably. -/
  offsets : List (TopicPartition × ℤ)

/-- `TxnCoordinator`, with the fields of `TxnInner` beside the id counter. -/
structure TxnCoordinator where
  /-- The state of each transactional id. -/
  txns : Table String TxnState
  /-- The transactional id that holds each partition. -/
  claimed : Table TopicPartition String
  /-- The transactional id of each producer id. -/
  byProducer : Table ℤ String
  /-- The next producer id, an `AtomicI64`. -/
  nextProducerId : ℤ

namespace TxnCoordinator

/-- `TxnCoordinator::new`. -/
def new (firstProducerId : ℤ) : TxnCoordinator :=
  { txns := .empty, claimed := .empty, byProducer := .empty, nextProducerId := firstProducerId }

/-- `release_claims`: drop every claim of one transactional id. -/
def releaseClaims (claimed : Table TopicPartition String) (t : String) :
    Table TopicPartition String :=
  claimed.retain fun _ holder => holder != t

/-- The counter after a `fetch_add(1)`. -/
def bumpedCounter (c : TxnCoordinator) : ℤ := wrapI64 (c.nextProducerId + 1)

/-- The epoch bump of `init_producer_id` on a known id, with the counter it
leaves: the next epoch, or a fresh producer id at epoch `0` when there is none. -/
def bumpEpoch (c : TxnCoordinator) (st : TxnState) : TxnState × ℤ :=
  match checkedSuccI16 st.epoch with
  | some next => ({ st with epoch := next }, c.nextProducerId)
  | none => ({ st with producerId := c.nextProducerId, epoch := 0 }, c.bumpedCounter)

/-- `init_producer_id`. -/
def initProducerId (c : TxnCoordinator) (t : String) : TxnCoordinator × (ℤ × ℤ) :=
  match c.txns.get t with
  | some st =>
    let (bumped, counter) := c.bumpEpoch st
    let st' := bumped.resetTxn
    ({ txns := c.txns.insert t st'
       claimed := releaseClaims c.claimed t
       byProducer := c.byProducer.insert st'.producerId t
       nextProducerId := counter }, st'.pair)
  | none =>
    let st := TxnState.new c.nextProducerId
    ({ c with
       txns := c.txns.insert t st
       byProducer := c.byProducer.insert c.nextProducerId t
       nextProducerId := c.bumpedCounter }, st.pair)

/-- `produce_check`: fence a transactional Produce batch. -/
def produceCheck (c : TxnCoordinator) (producerId epoch : ℤ) (tp : TopicPartition) : ℤ :=
  match c.byProducer.get producerId with
  | none => invalidProducerEpoch
  | some t =>
    match c.txns.get t with
    | none => invalidProducerEpoch
    | some st =>
      if st.producerId ≠ producerId ∨ st.epoch ≠ epoch then invalidProducerEpoch
      else if !st.ongoing ∨ tp ∉ st.partitions then invalidTxnState
      else errorNone

/-- `fence`. -/
def fence (st : TxnState) (producerId epoch : ℤ) : ℤ :=
  if st.producerId = producerId ∧ st.epoch = epoch then errorNone else invalidProducerEpoch

/-- The opening lines of the four transaction requests: look the id up and
fence the pair, or answer the error code. -/
def fencedState (c : TxnCoordinator) (t : String) (producerId epoch : ℤ) : Except ℤ TxnState :=
  match c.txns.get t with
  | none => .error invalidProducerEpoch
  | some st =>
    let code := fence st producerId epoch
    if code ≠ errorNone then .error code else .ok st

/-- `add_partitions`: enroll partitions in the open transaction, opening it. -/
def addPartitions (c : TxnCoordinator) (t : String) (producerId epoch : ℤ)
    (partitions : List TopicPartition) : TxnCoordinator × ℤ :=
  match c.fencedState t producerId epoch with
  | .error code => (c, code)
  | .ok st =>
    if partitions.any fun p => (c.claimed.get p).any (· != t) then
      (c, concurrentTransactions)
    else
      ({ c with
         txns := c.txns.insert t { st with
           ongoing := true, partitions := partitions.foldl SortedSet.insert st.partitions }
         claimed := partitions.foldl (fun m p => m.insert p t) c.claimed }, errorNone)

/-- `add_offsets`: record the consumer group, opening the transaction. -/
def addOffsets (c : TxnCoordinator) (t : String) (producerId epoch : ℤ) (group : String) : TxnCoordinator × ℤ :=
  match c.fencedState t producerId epoch with
  | .error code => (c, code)
  | .ok st =>
    ({ c with txns := c.txns.insert t { st with ongoing := true, group := some group } }, errorNone)

/-- `stage_offsets`: stage offsets for the commit.  Neither the open flag nor
the group of the request is looked at. -/
def stageOffsets (c : TxnCoordinator) (t : String) (producerId epoch : ℤ)
    (offsets : List (TopicPartition × ℤ)) : TxnCoordinator × ℤ :=
  match c.fencedState t producerId epoch with
  | .error code => (c, code)
  | .ok st =>
    ({ c with txns := c.txns.insert t { st with stagedOffsets := st.stagedOffsets ++ offsets } }, errorNone)

/-- The outcome of a rejected `end_txn`. -/
def rejectedEnd (code : ℤ) (commit : Bool) : EndTxnOutcome :=
  { errorCode := code, committed := commit, partitions := [], group := none, offsets := [] }

/-- `end_txn`: validate the pair against an open transaction and report what to
flush.  The coordinator does not change. -/
def endTxn (c : TxnCoordinator) (t : String) (producerId epoch : ℤ) (commit : Bool) :
    EndTxnOutcome :=
  match c.fencedState t producerId epoch with
  | .error code => rejectedEnd code commit
  | .ok st =>
    if !st.ongoing then rejectedEnd invalidTxnState commit
    else
      { errorCode := errorNone
        committed := commit
        partitions := st.partitions.toList
        group := if commit then st.group else none
        offsets := if commit then st.stagedOffsets else [] }

/-- `finish_txn`: reset a resolved transaction and free its claims, unless a
newer incarnation has taken over. -/
def finishTxn (c : TxnCoordinator) (t : String) (producerId epoch : ℤ) : TxnCoordinator :=
  match c.txns.get t with
  | none => c
  | some st =>
    if st.producerId = producerId ∧ st.epoch = epoch then
      { c with txns := c.txns.insert t st.resetTxn, claimed := releaseClaims c.claimed t }
    else c

/-! ### What each method can do -/

variable {c : TxnCoordinator} {t : String} {p e : ℤ}

/-- Whether `init_producer_id` draws a fresh producer id. -/
def mints (c : TxnCoordinator) (t : String) : Bool :=
  match c.txns.get t with
  | some st => (checkedSuccI16 st.epoch).isNone
  | none => true

/-- **`init_producer_id`.**  The id becomes an idle incarnation under the pair
that is returned, its claims go and the index follows it.  The pair is the next
epoch of the same producer id, or a fresh producer id at epoch `0`. -/
theorem initProducerId_spec (c : TxnCoordinator) (t : String) : ∃ claimed counter pair, c.initProducerId t =
        ({ txns := c.txns.insert t (.idle pair)
           claimed := claimed
           byProducer := c.byProducer.insert pair.1 t
           nextProducerId := counter }, pair) ∧
      (claimed = releaseClaims c.claimed t ∨ c.txns.get t = none ∧ claimed = c.claimed) ∧
      ((∃ st, c.txns.get t = some st ∧ pair = (st.producerId, st.epoch + 1) ∧ counter = c.nextProducerId) ∨
        (c.mints t = true ∧ pair = (c.nextProducerId, 0) ∧ counter = c.bumpedCounter)) := by
  cases hg : c.txns.get t with
  | none =>
    refine ⟨c.claimed, c.bumpedCounter, (c.nextProducerId, 0), ?_, .inr ⟨rfl, rfl⟩, .inr ⟨?_, rfl, rfl⟩⟩
    · simp only [initProducerId, hg]
      rfl
    · simp only [mints, hg]
  | some st =>
    refine ⟨releaseClaims c.claimed t, (c.bumpEpoch st).2, (c.bumpEpoch st).1.pair, ?_, .inl rfl, ?_⟩
    · simp only [initProducerId, hg, TxnState.resetTxn_eq_idle]
      rfl
    · cases he : checkedSuccI16 st.epoch with
      | some next =>
        obtain rfl := checkedSuccI16_eq_some he
        exact .inl ⟨st, rfl, by simp [bumpEpoch, he, TxnState.pair], by simp [bumpEpoch, he]⟩
      | none =>
        exact .inr ⟨by simp [mints, hg, he], by simp [bumpEpoch, he, TxnState.pair], by simp [bumpEpoch, he]⟩

theorem fencedState_eq_ok {st : TxnState} :
    c.fencedState t p e = .ok st ↔ c.txns.get t = some st ∧ st.pair = (p, e) := by
  unfold fencedState
  cases hg : c.txns.get t with
  | none => simp
  | some st' =>
    by_cases hp : st'.producerId = p ∧ st'.epoch = e
    · simp only [fence, if_pos hp, ne_eq, not_true, if_false, Except.ok.injEq, Option.some.injEq]
      constructor
      · rintro rfl
        exact ⟨rfl, Prod.ext hp.1 hp.2⟩
      · exact And.left
    · simp only [fence, if_neg hp, Option.some.injEq]
      constructor
      · intro h
        simp [invalidProducerEpoch, errorNone] at h
      · rintro ⟨rfl, h⟩
        exact absurd ⟨congrArg Prod.fst h, congrArg Prod.snd h⟩ hp

/-- **The fence.**  A request is turned away with `INVALID_PRODUCER_EPOCH`, or
it carries the current pair of its id. -/
theorem fencedState_cases (c : TxnCoordinator) (t : String) (p e : ℤ) :
    c.fencedState t p e = .error invalidProducerEpoch ∨
    ∃ st, c.txns.get t = some st ∧ st.pair = (p, e) ∧ c.fencedState t p e = .ok st := by
  cases hg : c.txns.get t with
  | none => exact .inl (by simp only [fencedState, hg])
  | some st =>
    by_cases hp : st.producerId = p ∧ st.epoch = e
    · have hpair : st.pair = (p, e) := Prod.ext hp.1 hp.2
      exact .inr ⟨st, rfl, hpair, fencedState_eq_ok.2 ⟨hg, hpair⟩⟩
    · refine .inl ?_
      simp only [fencedState, hg, fence, if_neg hp]
      rfl

/-- A pair that is not the id's current one does not pass the fence. -/
theorem fencedState_of_ne (h : ∀ st, c.txns.get t = some st → st.pair ≠ (p, e)) :
    c.fencedState t p e = .error invalidProducerEpoch := by
  rcases fencedState_cases c t p e with hf | ⟨st, hg, hp, -⟩
  · exact hf
  · exact absurd hp (h st hg)

/-- **`produce_check`.**  A batch that passes carries the current pair of an id
that has the partition enrolled in its open transaction. -/
theorem produceCheck_passed {tp : TopicPartition} (h : c.produceCheck p e tp = errorNone) :
    ∃ t st, c.byProducer.get p = some t ∧ c.txns.get t = some st ∧ st.pair = (p, e) ∧
      st.ongoing = true ∧ tp ∈ st.partitions := by
  unfold produceCheck at h
  split at h
  · cases h
  · rename_i t hi
    split at h
    · cases h
    · rename_i st hg
      split_ifs at h with hp ho
      · cases h
      · cases h
      · rw [not_or, not_not, not_not] at hp
        rw [not_or, not_not] at ho
        exact ⟨t, st, hi, hg, Prod.ext hp.1 hp.2, by simpa using ho.1, ho.2⟩

/-- **`add_partitions`.**  All or nothing: either a non-zero code and no change,
or the transaction is open with every requested partition enrolled and claimed,
none of them having been another id's. -/
theorem addPartitions_cases (c : TxnCoordinator) (t : String) (p e : ℤ) (ps : List TopicPartition) :
    (∃ code, code ≠ errorNone ∧ c.addPartitions t p e ps = (c, code)) ∨
    ∃ st, c.txns.get t = some st ∧ st.pair = (p, e) ∧ (∀ q ∈ ps, ∀ holder, c.claimed.get q = some holder → holder = t) ∧
      c.addPartitions t p e ps = ({ c with
           txns := c.txns.insert t { st with
             ongoing := true, partitions := ps.foldl SortedSet.insert st.partitions }
           claimed := ps.foldl (fun m q => m.insert q t) c.claimed }, errorNone) := by
  rcases fencedState_cases c t p e with hf | ⟨st, hg, hp, hf⟩
  · exact .inl ⟨invalidProducerEpoch, by decide, by simp only [addPartitions, hf]⟩
  · by_cases hc : (ps.any fun q => (c.claimed.get q).any (· != t)) = true
    · exact .inl ⟨concurrentTransactions, by decide, by simp only [addPartitions, hf, if_pos hc]⟩
    · refine .inr ⟨st, hg, hp, ?_, by simp only [addPartitions, hf, if_neg hc]⟩
      intro q hq holder hh
      by_contra hne
      exact hc (any_eq_true.2 ⟨q, hq, by simp [hh, hne]⟩)

/-- **`add_offsets`.**  A non-zero code and no change, or the transaction is
open with the group recorded. -/
theorem addOffsets_cases (c : TxnCoordinator) (t : String) (p e : ℤ) (g : String) :
    c.addOffsets t p e g = (c, invalidProducerEpoch) ∨
    ∃ st, c.txns.get t = some st ∧ st.pair = (p, e) ∧ c.addOffsets t p e g =
        ({ c with txns := c.txns.insert t { st with ongoing := true, group := some g } }, errorNone) := by
  rcases fencedState_cases c t p e with hf | ⟨st, hg, hp, hf⟩
  · exact .inl (by simp only [addOffsets, hf])
  · exact .inr ⟨st, hg, hp, by simp only [addOffsets, hf]⟩

/-- **`stage_offsets`.**  A non-zero code and no change, or the offsets join
the staged list, whether or not a transaction is open. -/
theorem stageOffsets_cases (c : TxnCoordinator) (t : String) (p e : ℤ) (os : List (TopicPartition × ℤ)) :
    c.stageOffsets t p e os = (c, invalidProducerEpoch) ∨
    ∃ st, c.txns.get t = some st ∧ st.pair = (p, e) ∧ c.stageOffsets t p e os =
        ({ c with txns := c.txns.insert t { st with stagedOffsets := st.stagedOffsets ++ os } }, errorNone) := by
  rcases fencedState_cases c t p e with hf | ⟨st, hg, hp, hf⟩
  · exact .inl (by simp only [stageOffsets, hf])
  · exact .inr ⟨st, hg, hp, by simp only [stageOffsets, hf]⟩

/-- **`end_txn`.**  It is rejected, or it reports what the open transaction of
the current incarnation holds. -/
theorem endTxn_cases (c : TxnCoordinator) (t : String) (p e : ℤ) (commit : Bool) :
    (∃ code, (code = invalidProducerEpoch ∨ code = invalidTxnState) ∧ c.endTxn t p e commit = rejectedEnd code commit) ∨
    ∃ st, c.txns.get t = some st ∧ st.pair = (p, e) ∧ st.ongoing = true ∧ c.endTxn t p e commit =
        { errorCode := errorNone
          committed := commit
          partitions := st.partitions.toList
          group := if commit then st.group else none
          offsets := if commit then st.stagedOffsets else [] } := by
  rcases fencedState_cases c t p e with hf | ⟨st, hg, hp, hf⟩
  · exact .inl ⟨_, .inl rfl, by simp only [endTxn, hf]⟩
  · cases ho : st.ongoing with
    | false => exact .inl ⟨_, .inr rfl, by simp [endTxn, hf, ho]⟩
    | true => exact .inr ⟨st, hg, hp, ho, by simp [endTxn, hf, ho]⟩

/-- **`finish_txn`.**  Nothing, or the current incarnation becomes idle and its
claims go. -/
theorem finishTxn_cases (c : TxnCoordinator) (t : String) (p e : ℤ) :
    (c.finishTxn t p e = c ∧ ∀ st, c.txns.get t = some st → st.pair ≠ (p, e)) ∨
    (∃ st, c.txns.get t = some st ∧ st.pair = (p, e) ∧ c.finishTxn t p e = { c with
          txns := c.txns.insert t (.idle (p, e)), claimed := releaseClaims c.claimed t }) := by
  cases hg : c.txns.get t with
  | none => exact .inl ⟨by simp only [finishTxn, hg], by simp⟩
  | some st =>
    by_cases hp : st.producerId = p ∧ st.epoch = e
    · have hpair : st.pair = (p, e) := Prod.ext hp.1 hp.2
      refine .inr ⟨st, rfl, hpair, ?_⟩
      simp only [finishTxn, hg, if_pos hp, TxnState.resetTxn_eq_idle, hpair]
    · refine .inl ⟨by simp only [finishTxn, hg, if_neg hp], ?_⟩
      rintro _ ⟨⟩ h
      exact hp ⟨congrArg Prod.fst h, congrArg Prod.snd h⟩

end TxnCoordinator

/-! ### The coordinator under any sequence of calls -/

/-- A method call with its arguments. -/
inductive TxnOp where
  | initProducerId (t : String)
  | produceCheck (producerId epoch : ℤ) (tp : TopicPartition)
  | addPartitions (t : String) (producerId epoch : ℤ) (partitions : List TopicPartition)
  | addOffsets (t : String) (producerId epoch : ℤ) (group : String)
  | stageOffsets (t : String) (producerId epoch : ℤ) (offsets : List (TopicPartition × ℤ))
  | endTxn (t : String) (producerId epoch : ℤ) (commit : Bool)
  | finishTxn (t : String) (producerId epoch : ℤ)

/-- What a method call returns. -/
inductive TxnReply where
  | granted (pair : ℤ × ℤ)
  | code (errorCode : ℤ)
  | ended (outcome : EndTxnOutcome)
  | finished

/-- The error code a reply carries, where the method has one. -/
def TxnReply.errorCode? : TxnReply → Option ℤ
  | .granted _ => none
  | .code errorCode => some errorCode
  | .ended outcome => some outcome.errorCode
  | .finished => none

/-- The coordinator as a machine over its method calls. -/
def txnMachine : Machine TxnCoordinator TxnOp TxnReply where
  step c
    | .initProducerId t => let (c', pair) := c.initProducerId t; (c', .granted pair)
    | .produceCheck p e tp => (c, .code (c.produceCheck p e tp))
    | .addPartitions t p e ps => let (c', code) := c.addPartitions t p e ps; (c', .code code)
    | .addOffsets t p e g => let (c', code) := c.addOffsets t p e g; (c', .code code)
    | .stageOffsets t p e os => let (c', code) := c.stageOffsets t p e os; (c', .code code)
    | .endTxn t p e commit => (c, .ended (c.endTxn t p e commit))
    | .finishTxn t p e => (c.finishTxn t p e, .finished)

end Datarail.Kafka
