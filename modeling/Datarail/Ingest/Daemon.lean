/-
# The ingest daemon

`datarail kafka-ingest` with the Postgres sink.  The loop of `cmd_kafka_ingest`
(`crates/datarail-cli/src/main.rs`) takes one produced batch at a time, boards it,
sends it over the rail, offloads it and commits what was delivered
(`Pipeline::deliver_batch`, `ship_batch_seq`, `ship_batch_plain`).  The commit of an
idempotent producer's batch is `commit_at_seq` of
`crates/datarail-connectors/src/postgres_sink.rs`: one transaction that compares the
batch's high sequence with the stored watermark of its stream, lands the records and
raises the watermark.

The database transaction is atomic.  What may go wrong in one round is its `Env`: the
entropy, the rail, and the transaction, which fails without effect or commits and loses
its answer.  The rail is a queue.
-/

import Datarail.Kafka.Serve
import Datarail.Terminal.Terminal

namespace Datarail.Ingest

open Lib Terminal Once Kafka

/-- The database of the sink: the target table and `datarail_watermark`. -/
structure Db where
  table : List Bytes
  watermarks : Table Bytes ℤ

/-- `txn_body_seq`. -/
def Db.txnBodySeq (db : Db) (stream : Bytes) (watermark : ℤ) (records : List Bytes) : Db :=
  match db.watermarks.get stream with
  | some current =>
    if watermark ≤ current then db
    else { table := db.table ++ records, watermarks := db.watermarks.insert stream watermark }
  | none => { table := db.table ++ records, watermarks := db.watermarks.insert stream watermark }

theorem Db.get_txnBodySeq_of_ne (db : Db) {stream other : Bytes} (h : other ≠ stream) (watermark : ℤ)
    (records : List Bytes) :
    (db.txnBodySeq stream watermark records).watermarks.get other = db.watermarks.get other := by
  unfold Db.txnBodySeq
  split
  · split_ifs
    · rfl
    · exact Table.get_insert_of_ne h _ _
  · exact Table.get_insert_of_ne h _ _

/-- The bytes of a string. -/
def utf8 (s : String) : Bytes := s.toUTF8.data.toList

/-- `eos_stream_id`. -/
def eosStreamId (routeId : Bytes) (topic : String) (partition producerId producerEpoch : ℤ) : Bytes :=
  routeId ++ utf8 topic ++ beInt 4 partition ++ beInt 8 producerId ++ beInt 2 producerEpoch

/-- The identity a batch is boarded under, if its producer is idempotent. -/
def eosKey (batchNo : ℕ) : Bytes := utf8 s!"kafka-eos-{batchNo}"

/-- The identity a batch is boarded under otherwise. -/
def plainKey (topic : String) (partition : ℤ) (batchNo : ℕ) : Bytes :=
  utf8 s!"kafka-{topic}-{partition}-n{batchNo}"

/-- What the rail does in one round. -/
inductive RailFault where
  | none
  /-- `send` fails; the cofre may be on the rail all the same. -/
  | sending (queued : Bool) (text : String)
  /-- `recv` fails, or no cofre comes out for a million polls. -/
  | receiving (text : Option String)
  | acking (text : String)
  deriving DecidableEq

/-- What the database does in one round. -/
inductive CommitFault where
  | none
  /-- The transaction fails and has no effect. -/
  | failed (text : String)
  /-- The transaction commits, and its answer is lost. -/
  | lost (text : String)
  deriving DecidableEq

/-- The circumstances of one round. -/
structure Env where
  draws : Draws
  rail : RailFault
  commit : CommitFault

/-- `CliError`, as a round of the daemon can raise it. -/
inductive CliError where
  | terminal (error : TerminalError)
  | rail (text : String)
  | noCofre
  deriving DecidableEq

/-- The daemon process and its database. -/
structure Daemon where
  /-- `next_producer_id`. -/
  nextProducerId : ℤ
  src : SourceTerminal
  dst : DestTerminal
  /-- The cofres sent and not received. -/
  rail : List Cofre
  /-- `batch_no`. -/
  batchNo : ℕ
  db : Db

namespace Daemon

variable (C : Crypto) (env : Env)

/-- `src_term.board`. -/
def boardBatch (batch : List Bytes) (recordKey : Bytes) : Action CliError Daemon Cofre := ⟨fun d =>
  match d.src.board C env.draws batch recordKey with
  | .ok (cofre, src) => (.ok cofre, { d with src })
  | .error e => (.stop (.failed (.terminal e)), d)⟩

/-- `rail.send`. -/
def sendCofre (cofre : Cofre) : Action CliError Daemon Unit := ⟨fun d =>
  match env.rail with
  | .sending queued text =>
    (.stop (.failed (.rail text)), if queued then { d with rail := d.rail ++ [cofre] } else d)
  | _ => (.ok (), { d with rail := d.rail ++ [cofre] })⟩

/-- The polls of `rail.recv`. -/
def recvCofre : Action CliError Daemon Cofre := ⟨fun d =>
  match env.rail, d.rail with
  | .receiving (some text), _ => (.stop (.failed (.rail text)), d)
  | .receiving none, _ => (.stop (.failed .noCofre), d)
  | _, [] => (.stop (.failed .noCofre), d)
  | _, cofre :: rest => (.ok cofre, { d with rail := rest })⟩

/-- `dst_term.offload`. -/
def offloadCofre (cofre : Cofre) : Action CliError Daemon Disposition := ⟨fun d =>
  let (dst, disposition) := d.dst.offload C cofre
  (.ok disposition, { d with dst })⟩

/-- `rail.ack`. -/
def ackCofre : Action CliError Daemon Unit :=
  match env.rail with
  | .acking text => .halt (.failed (.rail text))
  | _ => pure ()

/-- `take_committed`. -/
def takeCommitted : Action CliError Daemon (List Bytes) := ⟨fun d =>
  (.ok d.dst.committed, { d with dst := { d.dst with committed := [] } })⟩

/-- `deliver_batch`. -/
def deliverBatch (batch : List Bytes) (recordKey : Bytes) :
    Action CliError Daemon (Option (Disposition × List Bytes)) :=
  if batch.isEmpty then pure none
  else do
    let cofre ← boardBatch C env batch recordKey
    sendCofre env cofre
    let received ← recvCofre env
    let disposition ← offloadCofre C received
    ackCofre env
    let fresh ← takeCommitted
    return some (disposition, fresh)

/-- The text of the check both commits make first. -/
def nulText : String :=
  "record contains a NUL byte, which the Postgres text COPY format cannot carry"

/-- The end of a commit that changes the database by `change`. -/
def finishCommit (change : Db → Db) : Action CliError Daemon Unit :=
  match env.commit with
  | .none => .modify fun d => { d with db := change d.db }
  | .failed text => .halt (.failed (.rail text))
  | .lost text => do
      Action.modify fun d => { d with db := change d.db }
      Action.halt (.failed (.rail text))

/-- `commit_at_seq`. -/
def commitAtSeq (records : List Bytes) (stream : Bytes) (watermark : ℕ) :
    Action CliError Daemon Unit :=
  if records.any (·.contains 0) then .halt (.failed (.rail nulText))
  else if i64Max < watermark then .halt (.failed (.rail "watermark exceeds i64::MAX"))
  else finishCommit env (·.txnBodySeq stream watermark records)

/-- `PostgresSink::commit`, one `COPY` statement. -/
def commitPlain (records : List Bytes) : Action CliError Daemon Unit :=
  if records.isEmpty then pure ()
  else if records.any (·.contains 0) then .halt (.failed (.rail nulText))
  else finishCommit env fun db => { db with table := db.table ++ records }

/-- `ship_batch_seq`. -/
def shipBatchSeq (batch : List Bytes) (recordKey stream : Bytes) (high : ℕ) :
    Action CliError Daemon (Option (Disposition × ℕ)) := do
  match ← deliverBatch C env batch recordKey with
  | none => return none
  | some (disposition, fresh) =>
    commitAtSeq env fresh stream high
    return some (disposition, fresh.length)

/-- `ship_batch_plain`. -/
def shipBatchPlain (batch : List Bytes) (recordKey : Bytes) : Action CliError Daemon (Option (Disposition × ℕ)) := do
  match ← deliverBatch C env batch recordKey with
  | none => return none
  | some (disposition, fresh) =>
    commitPlain env fresh
    return some (disposition, fresh.length)

end Daemon

/-- `ProducedBatch`. -/
structure ProducedBatch where
  topic : String
  partition : ℤ
  values : List Bytes
  eos : Option EosCoord

/-- `u64::try_from(base_sequence + count).unwrap_or(u64::MAX)`. -/
def highSequence (c : EosCoord) : ℕ :=
  if 0 ≤ c.baseSequence + c.count then (c.baseSequence + c.count).toNat else 2 ^ 64 - 1

/-- The code of a round: a contract violation is permanent, every other error retriable. -/
def codeOf {α : Type} : Outcome CliError α → ℤ
  | .ok _ => errorNone
  | .stop (.failed (.terminal .contractViolation)) => Broker.produceErrorCode .invalidData
  | .stop _ => Broker.produceErrorCode .other

namespace Daemon

variable (C : Crypto)

/-- What the loop does with a batch. -/
def ship (env : Env) (b : ProducedBatch) : Action CliError Daemon (Option (Disposition × ℕ)) := do
  let d ← Action.read
  match b.eos with
  | some c =>
    let stream :=
      eosStreamId d.src.config.routeId.1 b.topic b.partition c.producerId c.producerEpoch
    shipBatchSeq C env b.values (eosKey d.batchNo) stream (highSequence c)
  | none => shipBatchPlain C env b.values (plainKey b.topic b.partition d.batchNo)

/-- The loop body of `cmd_kafka_ingest`, with the code `handle_ingest_produce` answers. -/
def ingest (env : Env) (b : ProducedBatch) (d : Daemon) : Daemon × ℤ :=
  if b.values.isEmpty then (d, errorNone)
  else
    let (out, d) := (ship C env b).run d
    ({ d with batchNo := d.batchNo + 1 }, codeOf out)

end Daemon

/-- What `rail.toml` fixes of a route. -/
structure Route where
  routeId : Arr 16
  streamId : Arr 16
  aeadAlg : AeadAlg
  tenantSecret : Arr 32
  sourceSeed : Arr 32
  destX25519Secret : Arr 32
  onboarding : ContentContract
  offloading : ContentContract

namespace Route

variable (C : Crypto) (r : Route)

/-- `terminal_config`. -/
def config : TerminalConfig :=
  { routeId := r.routeId
    streamId := r.streamId
    aeadAlg := r.aeadAlg
    destX25519Pk := C.x25519Public r.destX25519Secret
    tenantSecret := r.tenantSecret }

/-- A daemon process that has just started, over a database. -/
def start (db : Db) : Daemon :=
  { nextProducerId := 1
    src := .new (r.config C) r.onboarding r.sourceSeed
    dst := .new (r.config C) r.offloading (C.verifyingKey r.sourceSeed) r.destX25519Secret
    rail := []
    batchNo := 0
    db }

end Route

/-- A route that takes every record of up to 64 bytes. -/
def openRoute : Route :=
  let contract := ContentContract.new Crypto.transparent 64 []
  { routeId := Arr.zero 16
    streamId := Arr.zero 16
    aeadAlg := .gcmsiv256
    tenantSecret := Arr.zero 32
    sourceSeed := Arr.zero 32
    destX25519Secret := Arr.zero 32
    onboarding := contract
    offloading := contract }

/-- Circumstances in which only the transaction may fail. -/
def committing (commit : CommitFault) : Env :=
  ⟨⟨some (Arr.zero 32), some (Arr.zero 32)⟩, .none, commit⟩

namespace Daemon

variable (C : Crypto) (env : Env)

/-- What the terminals and the rail leave alone. -/
def fixed (d : Daemon) : ℤ × TerminalConfig × ℕ × Db :=
  (d.nextProducerId, d.src.config, d.batchNo, d.db)

theorem keeps_boardBatch (batch : List Bytes) (recordKey : Bytes) :
    Action.Keeps fixed (boardBatch C env batch recordKey) := by
  intro d
  simp only [boardBatch, SourceTerminal.board]
  cases d.src.boardAt C env.draws batch recordKey d.src.seq <;> rfl

theorem keeps_sendCofre (cofre : Cofre) : Action.Keeps fixed (sendCofre env cofre) := by
  intro d
  simp only [sendCofre]
  split
  · split <;> rfl
  · rfl

theorem keeps_recvCofre : Action.Keeps fixed (recvCofre env) := by
  intro d
  simp only [recvCofre]
  split <;> rfl

theorem keeps_ackCofre : Action.Keeps fixed (ackCofre env) := by
  unfold ackCofre
  split
  · exact Action.Keeps.halt _
  · exact Action.Keeps.pure _

theorem keeps_deliverBatch (batch : List Bytes) (recordKey : Bytes) :
    Action.Keeps fixed (deliverBatch C env batch recordKey) := by
  have hoffload : ∀ received, Action.Keeps fixed (offloadCofre C received) := fun _ _ => rfl
  have htake : Action.Keeps fixed takeCommitted := fun _ => rfl
  refine Action.Keeps.ite (Action.Keeps.pure _) ((keeps_boardBatch C env batch recordKey).bind fun cofre =>
    (keeps_sendCofre env cofre).bind fun _ => (keeps_recvCofre env).bind fun received => ?_)
  exact (hoffload received).bind fun _ => (keeps_ackCofre env).bind fun _ =>
    htake.bind fun _ => Action.Keeps.pure _

variable {γ : Type} (part : ℤ × TerminalConfig × ℕ × Db → γ)

theorem keeps_finishCommit {change : Db → Db}
    (h : ∀ d : Daemon, part { d with db := change d.db }.fixed = part d.fixed) :
    Action.Keeps (fun d => part d.fixed) (finishCommit env change) := by
  unfold finishCommit
  split
  · exact h
  · exact Action.Keeps.halt _
  · exact h

variable {batch : List Bytes}

/-- A round of an idempotent batch leaves alone what its transaction leaves alone. -/
theorem keeps_shipBatchSeq {recordKey stream : Bytes} {high : ℕ} (h : ∀ records (d : Daemon),
      part { d with db := d.db.txnBodySeq stream high records }.fixed = part d.fixed) :
    Action.Keeps (fun d => part d.fixed) (shipBatchSeq C env batch recordKey stream high) := by
  refine ((keeps_deliverBatch C env batch recordKey).map part).bind fun out => ?_
  cases out with
  | none => exact Action.Keeps.pure _
  | some p =>
    refine Action.Keeps.bind ?_ fun _ => Action.Keeps.pure _
    exact Action.Keeps.ite (Action.Keeps.halt _)
      (Action.Keeps.ite (Action.Keeps.halt _) (keeps_finishCommit env part (h _)))

theorem keeps_shipBatchPlain {recordKey : Bytes} (h : ∀ records (d : Daemon),
      part { d with db := { d.db with table := d.db.table ++ records } }.fixed = part d.fixed) :
    Action.Keeps (fun d => part d.fixed) (shipBatchPlain C env batch recordKey) := by
  refine ((keeps_deliverBatch C env batch recordKey).map part).bind fun out => ?_
  cases out with
  | none => exact Action.Keeps.pure _
  | some p =>
    refine Action.Keeps.bind ?_ fun _ => Action.Keeps.pure _
    exact Action.Keeps.ite (Action.Keeps.pure _)
      (Action.Keeps.ite (Action.Keeps.halt _) (keeps_finishCommit env part (h _)))

/-- A round changes neither the counter nor the configuration nor its own number. -/
theorem keeps_ship (b : ProducedBatch) :
    Action.Keeps (fun d => (d.nextProducerId, d.src.config, d.batchNo)) (ship C env b) := by
  refine Action.Keeps.read.bind fun d => ?_
  cases b.eos with
  | none => exact keeps_shipBatchPlain C env (fun p => (p.1, p.2.1, p.2.2.1)) fun _ _ => rfl
  | some c => exact keeps_shipBatchSeq C env (fun p => (p.1, p.2.1, p.2.2.1)) fun _ _ => rfl

theorem ingest_nextProducerId (b : ProducedBatch) (d : Daemon) :
    (d.ingest C env b).1.nextProducerId = d.nextProducerId := by
  unfold ingest
  split_ifs
  · rfl
  · exact congrArg Prod.fst (keeps_ship C env b d)

theorem ingest_config (b : ProducedBatch) (d : Daemon) : (d.ingest C env b).1.src.config = d.src.config := by
  unfold ingest
  split_ifs
  · rfl
  · exact congrArg (fun p => p.2.1) (keeps_ship C env b d)

/-- A batch of the wire is at most one round of the loop, however the round ends. -/
theorem ingest_batchNo (b : ProducedBatch) (d : Daemon) : (d.ingest C env b).1.batchNo ≤ d.batchNo + 1 := by
  unfold ingest
  split_ifs
  · exact Nat.le_succ _
  · exact (congrArg (fun p => p.2.2 + 1) (keeps_ship C env b d)).le

/-- **A round moves no watermark but the one of its own stream.** -/
theorem ingest_watermarks {b : ProducedBatch} {d : Daemon} {stream : Bytes} (h : ∀ c, b.eos = some c → stream ≠
      eosStreamId d.src.config.routeId.1 b.topic b.partition c.producerId c.producerEpoch) :
    (d.ingest C env b).1.db.watermarks.get stream = d.db.watermarks.get stream := by
  unfold ingest
  split_ifs
  · rfl
  · rcases hb : b.eos with _ | c
    · simp only [ship, hb, Action.read_bind]
      exact keeps_shipBatchPlain C env (fun p => p.2.2.2.watermarks.get stream) (fun _ _ => rfl) d
    · simp only [ship, hb, Action.read_bind]
      exact keeps_shipBatchSeq C env (fun p => p.2.2.2.watermarks.get stream)
        (fun records d' => Db.get_txnBodySeq_of_ne d'.db (h c hb) _ records) d

end Daemon

end Datarail.Ingest
