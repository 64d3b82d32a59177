/-
# The log of a partition

`SealedPartitionLog` of `crates/datarail-cli/src/kafka_store.rs`: a replay log and, beside it,
the byte offset at which each record starts.  `append_durable` appends a batch, syncs once and
only then publishes the offsets; when anything fails it scans the log again and publishes what
it finds.  `read_sealed_from` does not use the reader of the replay log: it opens the segment
that an offset is in and reads frames from there.

`partitionMachine` is one partition log over time: batches, each under what the disk does to it,
restarts of the process, and power failures.
-/

import Datarail.Kafka.RecordStore
import Datarail.Replaylog.Log

namespace Datarail.Replaylog

open Lib
open Kafka (clampI64)

/-- The loop of `scan_starts`. -/
def scanLoop (view : View) : ℕ → Replay → Except ReplayError (List ℕ)
  | 0, _ => .ok []
  | fuel + 1, r =>
    match r.readNext view with
    | .error e => .error e
    | .ok (_, none) => .ok []
    | .ok (r, some (offset, _)) =>
      match scanLoop view fuel r with
      | .error e => .error e
      | .ok starts => .ok (offset :: starts)

/-- `scan_starts`: a record takes at least a byte. -/
def scanStarts (l : ReplayLog) : Except ReplayError (List ℕ) :=
  match l.replayFrom l.files.still 0 with
  | .error e => .error e
  | .ok r => scanLoop l.files.still (l.files.volume + 1) r

/-- What the disk does during an `append_durable`: to each record, and to the sync at the end. -/
structure BatchFault where
  writes : List WriteFault
  sync : SyncFault
  deriving DecidableEq, Repr

namespace BatchFault

/-- Nothing fails. -/
def none : BatchFault := ⟨[], .none⟩

end BatchFault

/-- The loop of `append_durable`: the offsets of the records that were appended, and the error
that ended it. -/
def appendAll : List WriteFault → ReplayLog → List Bytes → ReplayLog × List ℕ × Option ReplayError
  | _, l, [] => (l, [], none)
  | faults, l, record :: batch =>
    match l.append (faults.headD .none) record with
    | (l, .error e) => (l, [], some e)
    | (l, .ok offset) =>
      let (l, starts, err) := appendAll faults.tail l batch
      (l, offset :: starts, err)

/-- The loop of `read_sealed_from` over what is left of a segment. -/
def readLoop : ℕ → Bytes → ℤ → ℤ → List Bytes
  | 0, _, _, _ => []
  | fuel + 1, file, bytesRead, maxBytes =>
    if file.length < 4 then []
    else
      let len := leNat (file.take 4)
      if maxRecord < len then []
      else if file.length < 4 + len + 4 then []
      else if (file.drop (4 + len)).take 4 ≠ checks.checksum (file.take (4 + len)) then []
      else
        let body := (file.drop 4).take len
        let bytesRead := bytesRead + clampI64 len
        if maxBytes ≤ bytesRead then [body]
        else body :: readLoop fuel (file.drop (4 + len + 4)) bytesRead maxBytes

/-- `SealedPartitionLog`. -/
structure SealedPartitionLog where
  log : ReplayLog
  /-- The byte offset at which each record starts. -/
  starts : List ℕ

namespace SealedPartitionLog

/-- `SealedPartitionLog::open`. -/
def «open» (files : Files) : Except ReplayError SealedPartitionLog :=
  let log := ReplayLog.open files defaultSegmentBytes
  match scanStarts log with
  | .error e => .error e
  | .ok starts => .ok { log, starts }

/-- `len`. -/
def len (p : SealedPartitionLog) : ℕ := p.starts.length

/-- `append_durable`. -/
def appendDurable (fault : BatchFault) (p : SealedPartitionLog) (batch : List Bytes) :
    SealedPartitionLog × Except ReplayError ℤ :=
  let base := clampI64 p.starts.length
  let (log, newStarts, appendErr) := appendAll fault.writes p.log batch
  let (log, synced) := log.sync fault.sync
  let syncErr := match synced with | .error e => some e | .ok () => none
  match appendErr.or syncErr with
  | none => ({ log, starts := p.starts ++ newStarts }, .ok base)
  | some e =>
    match scanStarts log with
    | .error e => ({ p with log }, .error e)
    | .ok starts => ({ log, starts }, .error e)

/-- `read_sealed_from`. -/
def readSealedFrom (p : SealedPartitionLog) (offset : ℕ) (maxBytes : ℤ) : Except ReplayError (List Bytes) :=
  match p.starts[offset]? with
  | none => .ok []
  | some start =>
    let segStart := (p.log.files.segmentStarts.reverse.find? fun s => decide (s ≤ start)).getD 0
    match p.log.files.segments.lookup segStart with
    | none => .error .io
    | some content =>
      let file := content.drop (start - segStart)
      .ok (readLoop (file.length + 1) file 0 maxBytes)

end SealedPartitionLog

/-- What happens to a partition log. -/
inductive PartitionOp where
  | append (fault : BatchFault) (batch : List Bytes)
  /-- The process ends and another opens the log. -/
  | reopen
  /-- The power fails: what is not synced is lost. -/
  | crash
  deriving DecidableEq, Repr

namespace SealedPartitionLog

/-- The partition log that is opened on a directory; one that cannot be opened stays as it is. -/
def recover (p : SealedPartitionLog) (files : Files) : SealedPartitionLog :=
  match SealedPartitionLog.open files with
  | .error _ => p
  | .ok p => p

/-- The process ends and another opens the log. -/
def reopened (p : SealedPartitionLog) : SealedPartitionLog := p.recover p.log.files

/-- The power fails, and a process opens what is left. -/
def crashed (p : SealedPartitionLog) : SealedPartitionLog := p.recover p.log.files.durablePart

/-- A partition log in a new directory. -/
def fresh : SealedPartitionLog := { log := ReplayLog.open Files.empty defaultSegmentBytes, starts := [] }

end SealedPartitionLog

/-- A partition log over time; the answer to a batch is the base offset. -/
def partitionMachine : Machine SealedPartitionLog PartitionOp (Option (Except ReplayError ℤ)) where
  step p
    | .append fault batch => ((p.appendDurable fault batch).1, some (p.appendDurable fault batch).2)
    | .reopen => (p.reopened, none)
    | .crash => (p.crashed, none)

/-- The partition log after some operations. -/
def partitionAfter (ops : List PartitionOp) : SealedPartitionLog := partitionMachine.final .fresh ops

/-- What was asked of a partition log and what it answered. -/
def partitionTrace (ops : List PartitionOp) : List (PartitionOp × Option (Except ReplayError ℤ)) :=
  partitionMachine.trace .fresh ops

end Datarail.Replaylog
