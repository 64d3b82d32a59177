/-
# The handlers of several connections, call by call

`serve_broker` runs one thread per connection.  A handler takes the lock of the
coordinator or of the store for each call it makes and holds none in between, so
the calls of several handlers interleave in any order.  `Handler` is a request on
its way through `handle_broker_request`, `dispatch_txn_api` or `produce_results`,
standing before the call it makes next; `Handler.call` makes that call.  Storage
does not fail here; a call can still panic, which ends the connection.

`runAlone_handle` ties this to the handlers of `Datarail.Kafka.Serve`: a request
that nothing interrupts does what they say.
-/

import Datarail.Kafka.Serve

namespace Datarail.Kafka

open Lib BrokerStore Broker

/-- A `Produce` request inside `produce_results`. -/
structure ProduceJob (ρ : Type) where
  /-- The `acks` of the request; `0` asks for no response. -/
  acks : ℤ
  /-- The partition entries of the request. -/
  entries : List (ProducedPartition ρ)
  /-- The entries the loop has not reached. -/
  todo : List (ProducedPartition ρ)
  /-- `results`: base offset and error code of each partition. -/
  results : Table TopicPartition (ℤ × ℤ)

/-- What a client reads at the end of a request. -/
inductive Answer (ρ : Type) where
  | reply (r : Reply ρ)
  /-- A `Produce` response: base offset and error code of each entry. -/
  | produced (outcomes : List (TopicPartition × ℤ × ℤ))
  /-- A request with `acks = 0` has no response. -/
  | silent

/-- A request in flight, by the call it makes next. -/
inductive Handler (ρ : Type) where
  | initProducerId (t : Option String)
  /-- `InitProducerId`: the `abort_txn` of the pair just granted. -/
  | initAbort (pair : ℤ × ℤ)
  | addPartitions (t : String) (producerId epoch : ℤ) (partitions : List TopicPartition)
  | addOffsets (t : String) (producerId epoch : ℤ) (group : String)
  | stageOffsets (t : String) (producerId epoch : ℤ) (offsets : List (TopicPartition × ℤ))
  /-- `EndTxn`: prepare. -/
  | endTxn (t : String) (producerId epoch : ℤ) (commit : Bool)
  /-- `EndTxn(commit)`: the flush. -/
  | commitTxn (t : String) (producerId epoch : ℤ) (out : EndTxnOutcome)
  /-- `EndTxn(commit)`: a staged offset, and those after it. -/
  | commitOffset (t : String) (producerId epoch : ℤ) (group : String) (tp : TopicPartition)
      (offset : ℤ) (rest : List (TopicPartition × ℤ))
  /-- `EndTxn(abort)`: the discard. -/
  | abortTxn (t : String) (producerId epoch : ℤ) (out : EndTxnOutcome)
  /-- `EndTxn`: finish. -/
  | finishTxn (t : String) (producerId epoch : ℤ) (commit : Bool)
  /-- `Produce`: the entry the loop has reached. -/
  | produce (job : ProduceJob ρ) (entry : ProducedPartition ρ)
  /-- `Produce`: an entry that has passed `produce_check`. -/
  | bufferTxn (job : ProduceJob ρ) (eos : EosCoord) (entry : ProducedPartition ρ)
  | fetch (tp : TopicPartition) (offset maxBytes : ℤ)

/-- Where a request stands after a call. -/
inductive Progress (ρ : Type) where
  | running (handler : Handler ρ)
  | answered (answer : Answer ρ)
  /-- The handler's thread panicked: the connection is gone. -/
  | dropped

namespace ProduceJob

variable {ρ : Type}

/-- `produce_response`: a parse error stands for itself, any other entry has the
result of its partition. -/
def response (job : ProduceJob ρ) : List (TopicPartition × ℤ × ℤ) :=
  job.entries.map fun q => (q.tp, match q.errorCode with
    | some code => (-1, code)
    | none => (job.results.get q.tp).getD (0, 0))

/-- Note the outcome of an entry. -/
def record (job : ProduceJob ρ) (tp : TopicPartition) (outcome : ℤ × ℤ) : ProduceJob ρ :=
  { job with results := job.results.insert tp outcome }

/-- Go on to the next entry that the parser has let through, or answer. -/
def next (job : ProduceJob ρ) : Progress ρ :=
  match job.todo.dropWhile (·.errorCode.isSome) with
  | entry :: todo => .running (.produce { job with todo := todo } entry)
  | [] => .answered (if job.acks = 0 then .silent else .produced job.response)

/-- A request as it enters `produce_results`. -/
def start (acks : ℤ) (entries : List (ProducedPartition ρ)) : Progress ρ :=
  next { acks, entries, todo := entries, results := .empty }

end ProduceJob

/-- What a connection sends. -/
inductive Wire (ρ : Type) where
  | request (r : Request ρ)
  | produce (acks : ℤ) (entries : List (ProducedPartition ρ))

/-- The store of a commit whose storage does not fail. -/
def calmCommit (order : KeyOrder BufferKey) : CommitEnv :=
  { order := order, disk := fun _ => .none, offsetStop := fun _ => none }

namespace Handler

variable {ρ : Type} {S : RecordStore ρ}

/-- A request as its handler begins. -/
def start : Wire ρ → Progress ρ
  | .request (.initProducerId t) => .running (.initProducerId t)
  | .request (.addPartitions t p e ps) => .running (.addPartitions t p e ps)
  | .request (.addOffsets t p e g) => .running (.addOffsets t p e g)
  | .request (.txnOffsetCommit t _ p e os) => .running (.stageOffsets t p e os)
  | .request (.endTxn t p e commit) => .running (.endTxn t p e commit)
  | .request (.produce entry) => ProduceJob.start 1 [entry]
  | .request (.fetch tp o m) => .running (.fetch tp o m)
  | .request .restart => .dropped
  | .produce acks entries => ProduceJob.start acks entries

/-- What follows the flush of a commit: the staged offsets, then the finish. -/
def afterFlush (t : String) (p e : ℤ) : Option String → List (TopicPartition × ℤ) → Handler ρ
  | some group, (tp, offset) :: rest => .commitOffset t p e group tp offset rest
  | _, _ => .finishTxn t p e true

/-- Make a store call for an entry and note its outcome. -/
def storeEntry (b : Broker S) (job : ProduceJob ρ) (tp : TopicPartition)
    (x : Action ErrorKind (BrokerStore S) ℤ) : Broker S × Progress ρ :=
  match x.run b.store with
  | (.ok base, store) => ({ b with store := store }, (job.record tp (base, 0)).next)
  | (.stop (.failed kind), store) =>
    ({ b with store := store }, (job.record tp (-1, produceErrorCode kind)).next)
  | (.stop _, store) => ({ b with store := store }, .dropped)

/-- **One call of a handler**, on the coordinator or on the store. -/
def call (order : KeyOrder BufferKey) (b : Broker S) : Handler ρ → Broker S × Progress ρ
  | .initProducerId (some t) =>
    let (txn, pair) := b.txn.initProducerId t
    ({ b with txn := txn }, .running (.initAbort pair))
  | .initProducerId none =>
    ({ b with nextProducerId := wrapI64 (b.nextProducerId + 1) }, .answered (.reply (.granted b.nextProducerId 0)))
  | .initAbort pair =>
    ({ b with store := b.store.abortTxn pair.1 pair.2 [] }, .answered (.reply (.granted pair.1 pair.2)))
  | .addPartitions t p e ps =>
    let (txn, code) := b.txn.addPartitions t p e ps
    ({ b with txn := txn }, .answered (.reply (.code code)))
  | .addOffsets t p e g =>
    let (txn, code) := b.txn.addOffsets t p e g
    ({ b with txn := txn }, .answered (.reply (.code code)))
  | .stageOffsets t p e os =>
    let (txn, code) := b.txn.stageOffsets t p e os
    ({ b with txn := txn }, .answered (.reply (.code code)))
  | .endTxn t p e commit =>
    let out := b.txn.endTxn t p e commit
    if out.errorCode ≠ 0 then (b, .answered (.reply (.code out.errorCode)))
    else if out.committed then (b, .running (.commitTxn t p e out))
    else (b, .running (.abortTxn t p e out))
  | .commitTxn t p e out =>
    match (BrokerStore.commitTxn (calmCommit order) p e out.partitions).run b.store with
    | (.ok (), store) =>
      ({ b with store := store }, .running (afterFlush t p e out.group out.offsets))
    | (.stop (.failed _), store) => ({ b with store := store }, .answered (.reply (.code 56)))
    | (.stop _, store) => ({ b with store := store }, .dropped)
  | .commitOffset t p e group tp offset rest =>
    ({ b with store := ((BrokerStore.commitOffset none group tp offset).run b.store).2 },
      .running (afterFlush t p e (some group) rest))
  | .abortTxn t p e out =>
    ({ b with store := b.store.abortTxn p e out.partitions }, .running (.finishTxn t p e false))
  | .finishTxn t p e _ =>
    ({ b with txn := b.txn.finishTxn t p e }, .answered (.reply (.code 0)))
  | .produce job entry =>
    match entry.eos.filter (·.transactional) with
    | some eos =>
      let code := b.txn.produceCheck eos.producerId eos.producerEpoch entry.tp
      if code = 0 then (b, .running (.bufferTxn job eos entry))
      else (b, (job.record entry.tp (-1, code)).next)
    | none => storeEntry b job entry.tp (BrokerStore.produce .none entry.tp entry.values)
  | .bufferTxn job eos entry =>
    storeEntry b job entry.tp (BrokerStore.bufferTxn .none ⟨eos.producerId, eos.producerEpoch, entry.tp⟩ entry.values)
  | .fetch tp o m =>
    match (onRecords (S.fetch tp o m)).run b.store with
    | (.ok rs, store) => ({ b with store := store }, .answered (.reply (.fetched 0 rs)))
    | (.stop (.failed kind), store) =>
      ({ b with store := store }, .answered (.reply (.fetched (if kind = .invalidData then 2 else 1) [])))
    | (.stop _, store) => ({ b with store := store }, .dropped)

/-- Let a handler make its calls with nothing in between. -/
def runAlone (order : KeyOrder BufferKey) : ℕ → Broker S → Progress ρ → Broker S × Progress ρ
  | n + 1, b, .running h => runAlone order n (h.call order b).1 (h.call order b).2
  | _, b, progress => (b, progress)

/-! ### A request that nothing interrupts -/

/-- The environment of a request while storage does not fail. -/
def calmEnv (order : KeyOrder BufferKey) : Env := { commit := calmCommit order, disk := .none }

/-- What the client of a request sees of its reply. -/
def outcomeOf : Request ρ → Reply ρ → Progress ρ
  | _, .dropped => .dropped
  | .produce entry, .produced base code => .answered (.produced [(entry.tp, base, code)])
  | .produce entry, .skipped =>
    .answered (.produced [(entry.tp, -1, entry.errorCode.getD 0)])
  | _, r => .answered (.reply r)

variable (order : KeyOrder BufferKey) {b : Broker S}

/-- The answer of a `Produce` entry from its store call. -/
abbrev answerEntry (b : Broker S) (x : Action ErrorKind (BrokerStore S) ℤ) : Broker S × Reply ρ :=
  b.answer x (fun b base => (b, .produced base 0)) fun e => .produced (-1) (produceErrorCode e)

/-- Where a `Produce` stands once an entry has its reply. -/
def resume (job : ProduceJob ρ) (tp : TopicPartition) : Reply ρ → Progress ρ
  | .produced base code => (job.record tp (base, code)).next
  | _ => .dropped

/-- A store call that does not kill the process is the answer of its entry. -/
theorem storeEntry_eq (job : ProduceJob ρ) (tp : TopicPartition) {x : Action ErrorKind (BrokerStore S) ℤ}
    {b' : Broker S} {r : Reply ρ} (hx : answerEntry b x = (b', r)) (h : r ≠ .died) :
    storeEntry b job tp x = (b', resume job tp r) ∧ (r = .dropped ∨ ∃ base code, r = .produced base code) := by
  rcases b.answer_cases x _ _ with ⟨base, store, hrun, hans⟩ | ⟨kind, store, hrun, hans⟩ | ⟨store, hrun, hans⟩ |
    ⟨store, hrun, hans⟩ <;> cases hans.symm.trans hx
  · exact ⟨by simp only [storeEntry, hrun, resume], .inr ⟨_, _, rfl⟩⟩
  · exact ⟨by simp only [storeEntry, hrun, resume], .inr ⟨_, _, rfl⟩⟩
  · exact ⟨by simp only [storeEntry, hrun, resume], .inl rfl⟩
  · exact absurd rfl h

/-- **An entry that nothing interrupts** takes at most two calls, and its outcome
is that of the loop body of `produce_results`. -/
theorem runAlone_entry (job : ProduceJob ρ) {q : ProducedPartition ρ} (hq : q.errorCode = none)
    {b' : Broker S} {r : Reply ρ} (he : b.produceEntry (calmEnv order) q = (b', r)) (h : r ≠ .died) :
    (∃ n, ∀ m, runAlone order (n + m) b (.running (.produce job q)) = runAlone order m b' (resume job q.tp r)) ∧
      (r = .dropped ∨ ∃ base code, r = .produced base code) := by
  cases hf : q.eos.filter (·.transactional) with
  | none =>
    simp only [produceEntry, hq, hf, calmEnv] at he
    obtain ⟨hstore, hreply⟩ := storeEntry_eq job q.tp he h
    refine ⟨⟨1, fun m => ?_⟩, hreply⟩
    rw [Nat.add_comm, runAlone]
    simp only [call, hf, hstore]
  | some eos =>
    by_cases hz : b.txn.produceCheck eos.producerId eos.producerEpoch q.tp = 0
    · simp only [produceEntry, hq, hf, hz, calmEnv] at he
      obtain ⟨hstore, hreply⟩ := storeEntry_eq job q.tp he h
      refine ⟨⟨2, fun m => ?_⟩, hreply⟩
      rw [Nat.add_comm, runAlone]
      simp only [call, hf, hz, if_true]
      rw [runAlone]
      simp only [call, hstore]
    · simp only [produceEntry, hq, hf, if_neg hz] at he
      cases he
      refine ⟨⟨1, fun m => ?_⟩, .inr ⟨_, _, rfl⟩⟩
      rw [Nat.add_comm, runAlone]
      simp only [call, hf, if_neg hz, resume]

/-- The staged offsets, written one by one, and the finish. -/
theorem runAlone_afterFlush (t : String) (p e : ℤ) (group : Option String)
    (offsets : List (TopicPartition × ℤ)) (i : ℕ) (b : Broker S) :
    ∃ n store, runAlone order n b (.running (afterFlush t p e group offsets)) =
        ({ b with store := store, txn := b.txn.finishTxn t p e }, .answered (.reply (.code 0))) ∧
      (match group with
        | some g => commitOffsets (fun _ => none) g i offsets
        | none => pure ()).run b.store = (.ok (), store) := by
  cases group with
  | none => exact ⟨1, b.store, rfl, rfl⟩
  | some g =>
    induction offsets generalizing b i with
    | nil => exact ⟨1, b.store, rfl, rfl⟩
    | cons entry rest ih =>
      obtain ⟨n, store, hrun, hoff⟩ := ih (i + 1)
        { b with store := ((BrokerStore.commitOffset none g entry.1 entry.2).run b.store).2 }
      exact ⟨n + 1, store, hrun, hoff⟩

/-- `EndTxn` that nothing interrupts. -/
theorem runAlone_endTxn (t : String) (p e : ℤ) (commit : Bool) (h : (b.endTxn (calmEnv order) t p e commit).2 ≠ .died) :
    ∃ n, runAlone order n b (.running (.endTxn t p e commit)) = ((b.endTxn (calmEnv order) t p e commit).1,
        outcomeOf (.endTxn t p e commit) (b.endTxn (calmEnv order) t p e commit).2) := by
  obtain ⟨out, hout⟩ : ∃ out, b.txn.endTxn t p e commit = out := ⟨_, rfl⟩
  by_cases hcode : out.errorCode = 0
  · by_cases hcommit : out.committed = true
    · have hend : b.endTxn (calmEnv order) t p e commit =
          b.answer (commitTxnWithOffsets (calmCommit order) p e out.partitions out.group out.offsets)
            (fun b _ => ({ b with txn := b.txn.finishTxn t p e }, .code 0)) (fun _ => .code 56) := by
        simp [Broker.endTxn, hout, hcode, hcommit, calmEnv]
      have hprep : ∀ n, runAlone order (n + 1) b (.running (.endTxn t p e commit)) =
          runAlone order n b (.running (.commitTxn t p e out)) := fun n => by
        simp [runAlone, call, hout, hcode, hcommit]
      rw [hend] at h ⊢
      rcases hflush : (BrokerStore.commitTxn (calmCommit order) p e out.partitions).run b.store with ⟨_ | w, store⟩
      · obtain ⟨n, store', hrun, hoff⟩ := runAlone_afterFlush order t p e out.group out.offsets 0
          { b with store := store }
        refine ⟨n + 2, ?_⟩
        have hall : (commitTxnWithOffsets (calmCommit order) p e out.partitions out.group out.offsets).run b.store =
            (.ok (), store') :=
          (Action.bind_of_ok hflush).trans hoff
        rw [hprep, runAlone]
        simp only [call, hflush, hrun, answer, hall, outcomeOf]
      · cases w with
        | died =>
          simp only [answer, commitTxnWithOffsets, Action.bind_of_stop hflush] at h
          exact absurd rfl h
        | _ =>
          refine ⟨2, ?_⟩
          rw [hprep, runAlone]
          simp only [call, hflush, answer, commitTxnWithOffsets, Action.bind_of_stop hflush, runAlone, outcomeOf]
    · refine ⟨3, ?_⟩
      simp [runAlone, call, hout, hcode, hcommit, Broker.endTxn, outcomeOf]
  · refine ⟨1, ?_⟩
    simp [runAlone, call, hout, hcode, Broker.endTxn, outcomeOf]

/-- A `Produce` of one entry that nothing interrupts. -/
theorem runAlone_produce (q : ProducedPartition ρ) (h : (b.produceEntry (calmEnv order) q).2 ≠ .died) :
    ∃ n, runAlone order n b (ProduceJob.start 1 [q]) = ((b.produceEntry (calmEnv order) q).1,
        outcomeOf (.produce q) (b.produceEntry (calmEnv order) q).2) := by
  cases hq : q.errorCode with
  | some code =>
    simp [runAlone, ProduceJob.start, ProduceJob.next, ProduceJob.response, produceEntry, outcomeOf, hq]
  | none =>
    have hstart : ProduceJob.start 1 [q] = .running (.produce
        { acks := 1, entries := [q], todo := [], results := .empty } q) := by
      simp [ProduceJob.start, ProduceJob.next, hq]
    rw [hstart]
    rcases hr : b.produceEntry (calmEnv order) q with ⟨b', r⟩
    rw [hr] at h
    obtain ⟨⟨n, hn⟩, hreply⟩ := runAlone_entry order _ hq hr h
    refine ⟨n, (hn 0).trans ?_⟩
    rcases hreply with rfl | ⟨base, code, rfl⟩
    · rfl
    · simp [runAlone, resume, ProduceJob.next, ProduceJob.record, ProduceJob.response, outcomeOf, hq]

/-- **A request that nothing interrupts** leaves the broker, and its client, where
the handler of `Datarail.Kafka.Serve` does. -/
theorem runAlone_handle (r : Request ρ) (hr : r ≠ .restart) (h : (b.handle (calmEnv order) r).2 ≠ .died) :
    ∃ n, runAlone order n b (start (.request r)) =
      ((b.handle (calmEnv order) r).1, outcomeOf r (b.handle (calmEnv order) r).2) := by
  cases r with
  | initProducerId t =>
    cases t with
    | none => exact ⟨1, rfl⟩
    | some t => exact ⟨2, rfl⟩
  | addPartitions t p e ps => exact ⟨1, rfl⟩
  | addOffsets t p e g => exact ⟨1, rfl⟩
  | txnOffsetCommit t g p e os => exact ⟨1, rfl⟩
  | endTxn t p e commit => exact runAlone_endTxn order t p e commit h
  | produce q => exact runAlone_produce order q h
  | fetch tp o m =>
    refine ⟨1, ?_⟩
    change (b.fetch tp o m).2 ≠ .died at h
    change runAlone order 1 b (.running (.fetch tp o m)) = ((b.fetch tp o m).1, outcomeOf _ (b.fetch tp o m).2)
    unfold Broker.fetch at h ⊢
    simp only [answer, runAlone, call] at h ⊢
    generalize (onRecords (S.fetch tp o m)).run b.store = outcome at h ⊢
    rcases outcome with ⟨rs | (kind | _ | _), store⟩
    · rfl
    · rfl
    · rfl
    · exact absurd rfl h
  | restart => exact absurd rfl hr

/-- A record for a new partition. -/
theorem runAlone_handle_produce :
    ∃ n, (runAlone ⟨id, .refl⟩ n (.new (.lists ℕ)) (start (.request (.produce ⟨⟨"a", 0⟩, [1], none, none⟩)))).2 =
      .answered (.produced [(⟨"a", 0⟩, 0, 0)]) := by
  obtain ⟨n, hn⟩ := runAlone_handle ⟨id, .refl⟩ (b := .new (.lists ℕ)) (.produce ⟨⟨"a", 0⟩, [1], none, none⟩) nofun
    (by decide)
  exact ⟨n, by rw [hn]; rfl⟩

end Handler

end Datarail.Kafka
