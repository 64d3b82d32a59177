/-
# The request handlers of the broker

`handle_broker_request` and `dispatch_txn_api` of
`crates/datarail-kafka/src/serve.rs`, over the transaction coordinator and the
broker store.  A handler runs to its end here; what other connections may do
between two of its calls is the subject of `Datarail.Kafka.Schedule`.

A `Produce` request is its partition entries one after the other: the handler
keeps nothing from one entry to the next but the table of results it answers
from.  A store call that returns an error is answered with a code; one that
panics ends the connection without an answer; one that kills the process leaves
what is on disk to the process that takes its place.
-/

import Datarail.Kafka.BrokerStore

namespace Datarail.Kafka

open Lib BrokerStore

/-- `EosCoord`: the idempotent producer's identity of a single v2 batch. -/
structure EosCoord where
  /-- The broker-assigned producer id. -/
  producerId : ℤ
  /-- The producer epoch. -/
  producerEpoch : ℤ
  /-- The sequence number of the batch's first record. -/
  baseSequence : ℤ
  /-- The number of records of the batch. -/
  count : ℤ
  /-- Whether the transactional bit of the attributes is set. -/
  transactional : Bool
  deriving DecidableEq, Repr

/-- `ProducedPartition`, with the name of the topic it stands under. -/
structure ProducedPartition (ρ : Type) where
  /-- The topic and the partition index. -/
  tp : TopicPartition
  /-- The record values, in order. -/
  values : List ρ
  /-- The identity of the batch, if the blob is a single idempotent batch. -/
  eos : Option EosCoord
  /-- The error code set while parsing. -/
  errorCode : Option ℤ

/-- The broker process: coordinator, store and the idempotent id counter. -/
structure Broker {ρ : Type} (S : RecordStore ρ) where
  /-- The transaction coordinator. -/
  txn : TxnCoordinator
  /-- The store. -/
  store : BrokerStore S
  /-- `next_producer_id` of `serve_broker`. -/
  nextProducerId : ℤ

/-- A request, as its parser hands it on. -/
inductive Request (ρ : Type) where
  | initProducerId (t : Option String)
  | addPartitions (t : String) (producerId epoch : ℤ) (partitions : List TopicPartition)
  | addOffsets (t : String) (producerId epoch : ℤ) (group : String)
  | txnOffsetCommit (t group : String) (producerId epoch : ℤ) (offsets : List (TopicPartition × ℤ))
  | endTxn (t : String) (producerId epoch : ℤ) (commit : Bool)
  | produce (entry : ProducedPartition ρ)
  | fetch (tp : TopicPartition) (offset maxBytes : ℤ)
  /-- Not a request: the process ends and another takes its place. -/
  | restart

/-- What the environment does while a request is handled. -/
structure Env where
  /-- During a commit. -/
  commit : CommitEnv
  /-- The disk under a produce. -/
  disk : DiskFault

/-- An environment in which nothing goes wrong. -/
def Env.calm : Env where
  commit :=
    { order := ⟨id, fun _ => .refl _⟩, disk := fun _ => .none, offsetStop := fun _ => none }
  disk := .none

/-- The answer to a request. -/
inductive Reply (ρ : Type) where
  | granted (producerId epoch : ℤ)
  | code (errorCode : ℤ)
  | produced (base errorCode : ℤ)
  /-- An entry the parser rejected is not looked at again. -/
  | skipped
  | fetched (errorCode : ℤ) (records : List ρ)
  /-- No answer: the handler's thread panicked. -/
  | dropped
  /-- No answer: the process is gone, and another has taken its place. -/
  | died
  deriving DecidableEq

namespace Broker

variable {ρ : Type} {S : RecordStore ρ}

/-- A broker process on an empty data directory. -/
def new (S : RecordStore ρ) : Broker S :=
  { txn := .new 1099511627776, store := .new S, nextProducerId := 1 }

/-- The process ends and another takes its place. -/
def restart (b : Broker S) : Broker S :=
  { txn := .new 1099511627776, store := b.store.restart, nextProducerId := 1 }

/-- `produce_error_code`. -/
def produceErrorCode : ErrorKind → ℤ
  | .invalidData => 87
  | .invalidInput => 10
  | _ => 56

/-- Run a store call and answer from its outcome. -/
def answer {α : Type} (b : Broker S) (x : Action ErrorKind (BrokerStore S) α)
    (onOk : Broker S → α → Broker S × Reply ρ) (onErr : ErrorKind → Reply ρ) : Broker S × Reply ρ :=
  match x.run b.store with
  | (.ok a, store) => onOk { b with store := store } a
  | (.stop (.failed kind), store) => ({ b with store := store }, onErr kind)
  | (.stop .panicked, store) => ({ b with store := store }, .dropped)
  | (.stop .died, store) => (restart { b with store := store }, .died)

/-- `API_INIT_PRODUCER_ID`. -/
def initProducerId (b : Broker S) : Option String → Broker S × Reply ρ
  | some t =>
    let (txn, pair) := b.txn.initProducerId t
    ({ b with txn := txn, store := b.store.abortTxn pair.1 pair.2 [] }, .granted pair.1 pair.2)
  | none =>
    ({ b with nextProducerId := wrapI64 (b.nextProducerId + 1) }, .granted b.nextProducerId 0)

/-- The loop body of `produce_results`. -/
def produceEntry (b : Broker S) (env : Env) (p : ProducedPartition ρ) : Broker S × Reply ρ :=
  if p.errorCode.isSome then (b, .skipped)
  else
    match p.eos.filter (·.transactional) with
    | some eos =>
      let code := b.txn.produceCheck eos.producerId eos.producerEpoch p.tp
      if code = 0 then
        b.answer (bufferTxn env.disk ⟨eos.producerId, eos.producerEpoch, p.tp⟩ p.values)
          (fun b base => (b, .produced base 0)) (fun e => .produced (-1) (produceErrorCode e))
      else (b, .produced (-1) code)
    | none =>
      b.answer (produce env.disk p.tp p.values)
        (fun b base => (b, .produced base 0)) (fun e => .produced (-1) (produceErrorCode e))

/-- `API_END_TXN`: prepare, flush or discard, and only then finish. -/
def endTxn (b : Broker S) (env : Env) (t : String) (p e : ℤ) (commit : Bool) : Broker S × Reply ρ :=
  let out := b.txn.endTxn t p e commit
  if out.errorCode ≠ 0 then (b, .code out.errorCode)
  else if out.committed then
    b.answer (commitTxnWithOffsets env.commit p e out.partitions out.group out.offsets)
      (fun b _ => ({ b with txn := b.txn.finishTxn t p e }, .code 0)) (fun _ => .code 56)
  else
    ({ b with store := b.store.abortTxn p e out.partitions, txn := b.txn.finishTxn t p e }, .code 0)

/-- One partition of `fetch_results`. -/
def fetch (b : Broker S) (tp : TopicPartition) (offset maxBytes : ℤ) : Broker S × Reply ρ :=
  b.answer (onRecords (S.fetch tp offset maxBytes)) (fun b rs => (b, .fetched 0 rs))
    (fun e => .fetched (if e = .invalidData then 2 else 1) [])

/-- Handle one request. -/
def handle (b : Broker S) (env : Env) : Request ρ → Broker S × Reply ρ
  | .initProducerId t => b.initProducerId t
  | .addPartitions t p e ps =>
    let (txn, code) := b.txn.addPartitions t p e ps
    ({ b with txn := txn }, .code code)
  | .addOffsets t p e g =>
    let (txn, code) := b.txn.addOffsets t p e g
    ({ b with txn := txn }, .code code)
  | .txnOffsetCommit t _group p e os =>
    let (txn, code) := b.txn.stageOffsets t p e os
    ({ b with txn := txn }, .code code)
  | .endTxn t p e commit => b.endTxn env t p e commit
  | .produce p => b.produceEntry env p
  | .fetch tp o m => b.fetch tp o m
  | .restart => (b.restart, .died)

/-! ### What the handlers do -/

/-- **A handler that makes one store call**, by how the call ends. -/
theorem answer_cases {α : Type} (b : Broker S) (x : Action ErrorKind (BrokerStore S) α)
    (onOk : Broker S → α → Broker S × Reply ρ) (onErr : ErrorKind → Reply ρ) :
    (∃ a store, x.run b.store = (.ok a, store) ∧ b.answer x onOk onErr = onOk { b with store := store } a) ∨
    (∃ kind store, x.run b.store = (.stop (.failed kind), store) ∧
      b.answer x onOk onErr = ({ b with store := store }, onErr kind)) ∨
    (∃ store, x.run b.store = (.stop .panicked, store) ∧
      b.answer x onOk onErr = ({ b with store := store }, .dropped)) ∨
    (∃ store, x.run b.store = (.stop .died, store) ∧
      b.answer x onOk onErr = (restart { b with store := store }, .died)) := by
  rcases hrun : x.run b.store with ⟨a | w, store⟩
  · exact .inl ⟨a, store, rfl, by simp only [answer, hrun]⟩
  · cases w with
    | failed kind => exact .inr (.inl ⟨kind, store, rfl, by simp only [answer, hrun]⟩)
    | panicked => exact .inr (.inr (.inl ⟨store, rfl, by simp only [answer, hrun]⟩))
    | died => exact .inr (.inr (.inr ⟨store, rfl, by simp only [answer, hrun]⟩))

/-- **`EndTxn`.**  It is rejected and nothing changes, or it finds the open
transaction of the current incarnation: an abort discards and finishes, a commit
flushes and finishes only if the flush returned. -/
theorem endTxn_cases (b : Broker S) (env : Env) (t : String) (p e : ℤ) (commit : Bool) :
    (∃ code, (code = invalidProducerEpoch ∨ code = invalidTxnState) ∧ b.endTxn env t p e commit = (b, .code code)) ∨
    ∃ st, b.txn.txns.get t = some st ∧ st.pair = (p, e) ∧ st.ongoing = true ∧
      (commit = false ∧ b.endTxn env t p e commit =
          ({ b with store := b.store.abortTxn p e st.partitions.toList
                    txn := b.txn.finishTxn t p e }, .code 0) ∨
        commit = true ∧ b.endTxn env t p e commit =
          b.answer (commitTxnWithOffsets env.commit p e st.partitions.toList st.group
            st.stagedOffsets) (fun b _ => ({ b with txn := b.txn.finishTxn t p e }, .code 0))
            (fun _ => .code 56)) := by
  rcases b.txn.endTxn_cases t p e commit with ⟨code, hcode, heq⟩ | ⟨st, hg, hp, ho, heq⟩
  · refine .inl ⟨code, hcode, ?_⟩
    rcases hcode with rfl | rfl <;>
      simp [endTxn, heq, TxnCoordinator.rejectedEnd, invalidProducerEpoch, invalidTxnState]
  · refine .inr ⟨st, hg, hp, ho, ?_⟩
    cases commit with
    | false => exact .inl ⟨rfl, by simp [endTxn, heq, errorNone]⟩
    | true => exact .inr ⟨rfl, by simp [endTxn, heq, errorNone]⟩

/-- An `EndTxn(commit)` that is answered `0` has found the open transaction of
the pair, committed it and finished it. -/
theorem endTxn_committed {b : Broker S} {t : String} {p e : ℤ} {env : Env} (h : (b.endTxn env t p e true).2 = .code 0) :
    ∃ st store, b.txn.txns.get t = some st ∧ st.pair = (p, e) ∧ st.ongoing = true ∧
      (commitTxnWithOffsets env.commit p e st.partitions.toList st.group
        st.stagedOffsets).run b.store = (.ok (), store) ∧
      (b.endTxn env t p e true).1 = { b with store := store, txn := b.txn.finishTxn t p e } := by
  rcases b.endTxn_cases env t p e true with
    ⟨code, hcode, heq⟩ | ⟨st, hg, hp, ho, ⟨hf, -⟩ | ⟨-, heq⟩⟩
  · rw [heq] at h
    rcases hcode with rfl | rfl <;> exact absurd (Reply.code.inj h) (by decide)
  · cases hf
  · rw [heq] at h ⊢
    rcases b.answer_cases _ _ _ with ⟨a, store, hrun, hans⟩ | ⟨kind, store, -, hans⟩ |
      ⟨store, -, hans⟩ | ⟨store, -, hans⟩ <;> rw [hans] at h ⊢
    · exact ⟨st, store, hg, hp, ho, hrun, rfl⟩
    all_goals cases h

/-- **A produce entry** makes at most one store call and leaves the coordinator
alone: it is rejected, it is buffered under the pair that passed the check, or
it goes to the log at once. -/
theorem produceEntry_cases (b : Broker S) (env : Env) (q : ProducedPartition ρ) :
    (q.errorCode.isSome = true ∧ b.produceEntry env q = (b, .skipped)) ∨
    (∃ code, code ≠ 0 ∧ b.produceEntry env q = (b, .produced (-1) code)) ∨
    (∃ eos, q.eos = some eos ∧ eos.transactional = true ∧ q.errorCode = none ∧
      b.txn.produceCheck eos.producerId eos.producerEpoch q.tp = 0 ∧
      b.produceEntry env q = b.answer (bufferTxn env.disk ⟨eos.producerId, eos.producerEpoch, q.tp⟩ q.values)
          (fun b base => (b, .produced base 0)) (fun e => .produced (-1) (produceErrorCode e))) ∨
    (q.eos.filter (·.transactional) = none ∧ q.errorCode = none ∧ b.produceEntry env q =
        b.answer (produce env.disk q.tp q.values)
          (fun b base => (b, .produced base 0)) (fun e => .produced (-1) (produceErrorCode e))) := by
  cases hc : q.errorCode with
  | some code => exact .inl ⟨rfl, by simp [produceEntry, hc]⟩
  | none =>
    cases he : q.eos.filter (·.transactional) with
    | none => exact .inr (.inr (.inr ⟨rfl, rfl, by simp [produceEntry, hc, he]⟩))
    | some eos =>
      obtain ⟨hq, ht⟩ := Option.filter_eq_some_iff.1 he
      by_cases hz : b.txn.produceCheck eos.producerId eos.producerEpoch q.tp = 0
      · exact .inr (.inr (.inl ⟨eos, hq, ht, rfl, hz, by simp [produceEntry, hc, he, hz]⟩))
      · exact .inr (.inl ⟨_, hz, by simp [produceEntry, hc, he, hz]⟩)

/-- A store call that keeps the committed offsets, and is answered without a
further one, keeps them. -/
theorem answer_offsets {α : Type} {b : Broker S} {x : Action ErrorKind (BrokerStore S) α}
    {onOk : Broker S → α → Broker S × Reply ρ} {onErr : ErrorKind → Reply ρ}
    (hx : x.Keeps offsets)
    (hok : ∀ b a, (onOk b a).1.store.offsets = b.store.offsets) :
    (b.answer x onOk onErr).1.store.offsets = b.store.offsets := by
  have hk := hx b.store
  rcases b.answer_cases x onOk onErr with ⟨a, store, hrun, heq⟩ | ⟨kind, store, hrun, heq⟩ |
    ⟨store, hrun, heq⟩ | ⟨store, hrun, heq⟩ <;> rw [hrun] at hk <;> rw [heq]
  · rw [hok]
    exact hk
  all_goals exact hk

end Broker

/-- The broker as a machine over its requests, one handled after the other.  `serve.rs` takes
a lock for each call of a handler, so that calls of other connections may come in between;
`Datarail.Kafka.Schedule` takes the handlers apart for that. -/
def brokerMachine {ρ : Type} (S : RecordStore ρ) : Machine (Broker S) (Request ρ × Env) (Reply ρ) where
  step b op := b.handle op.2 op.1

end Datarail.Kafka
