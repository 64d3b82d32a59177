/-
# The tiered log

`TieredLog` of `crates/datarail-tieredlog/src/lib.rs`: a log whose newest segment is a local file and whose
full ones are in a blob store.  The frames are those of the replay log, and `scan_valid_len` is the same
code (`Replaylog.wire`, `Replaylog.scanValidLen`).

`append` seals a full segment first.  `seal_and_rotate` makes its steps in this order; behind each of them the
process may die, or the next step be refused by the disk or the blob store, and then `append` returns the error:

| step | local | blob store |
| --- | --- | --- |
| sync | the segment, synced | |
| offload | the segment | the segment |
| create | the segment and an empty one | the segment |
| evict | an empty one | the segment |

Local segments are named by the offset they start at, and so are the blobs; any other name under the prefix
is a `BlobKey.other`.  Of the newest local segment the bytes below `durable` are synced: a crash keeps
these, and some of those behind them.

A crash stops the process between two steps, and what was created or removed before it stays so.  That is
less than a loss of power can do: `sync` and `seal_and_rotate` sync the file and never the directory, which
`ReplayLog` does at the same places, so that the entry of a new segment may not be on disk.
`Disk.loseEntries` is such a loss, and no part of `Event`.  A frame is written whole here: `append` does not go
back where a write stops inside one, and what it appends later stands behind bytes that are no frame.
-/

import Datarail.Replaylog.Layout
import Datarail.Lib.Run

namespace Datarail.Tieredlog

open Lib
open Replaylog (wire maxRecord checks scanValidLen)

abbrev Bytes := List UInt8

/-- `TieredError`. -/
inductive TieredError where
  | io
  | tooLarge (len : ℕ)
  | missingSegment (start : ℕ)
  deriving DecidableEq, Repr

/-- A key of the blob store under `seg/`. -/
inductive BlobKey where
  /-- The name `seg_blob_key` gives. -/
  | segment (start : ℕ)
  /-- Any other name, and the offset it parses to, if it is one. -/
  | other (name : String) (start : Option ℕ)
  deriving DecidableEq, Repr

/-- `blob_key_start`. -/
def blobKeyStart : BlobKey → Option ℕ
  | .segment start => some start
  | .other _ start => start

/-- The local directory and the blob store. -/
structure Disk where
  segments : AList fun _ : ℕ => Bytes
  /-- The bytes of the newest local segment that are synced. -/
  durable : ℕ
  cold : AList fun _ : BlobKey => Bytes

namespace Disk

/-- Nothing, in either tier. -/
def empty : Disk := ⟨∅, 0, ∅⟩

/-- `local_segment_starts`. -/
def localSegmentStarts (d : Disk) : List ℕ := sortedKeys d.segments

/-- The newest local segment, or where the first one will start. -/
def newest (d : Disk) : ℕ := d.localSegmentStarts.getLast?.getD 0

/-- The content of a local segment; a missing one is created empty. -/
def content (d : Disk) (start : ℕ) : Bytes := (d.segments.lookup start).getD []

/-- What a crash leaves: of the newest local segment the synced bytes, and what else was written of the first
`kept`. -/
def crash (kept : ℕ) (d : Disk) : Disk :=
  if d.newest ∈ d.segments then
    { d with segments := d.segments.insert d.newest ((d.content d.newest).take (max d.durable kept)) }
  else d

/-- What a loss of power may leave of the directory, which is never synced: the entries `kept`. -/
def loseEntries (kept : List ℕ) (d : Disk) : Disk :=
  { d with segments := retainKeys d.segments fun start => decide (start ∈ kept) }

end Disk

structure TieredLog where
  disk : Disk
  segmentBytes : ℕ
  activeStart : ℕ
  writeOffset : ℕ

/-- How far `seal_and_rotate` gets. -/
inductive SealStep where
  | entered
  | synced
  | offloaded
  | created
  | evicted
  deriving DecidableEq, Repr

namespace TieredLog

/-- `TieredLog::open`. -/
def «open» (d : Disk) (segmentBytes : ℕ) : TieredLog :=
  let activeStart := d.newest
  let content := d.content activeStart
  let validLen := scanValidLen (content.length + 1) content 0
  { disk := { d with
      segments := d.segments.insert activeStart (content.take validLen)
      durable := min d.durable validLen }
    segmentBytes := max segmentBytes 1024
    activeStart
    writeOffset := activeStart + validLen }

/-- `sync`. -/
def sync (l : TieredLog) : TieredLog :=
  { l with disk := { l.disk with durable := (l.disk.content l.activeStart).length } }

/-- The active segment is put into the blob store. -/
def offload (l : TieredLog) : TieredLog :=
  { l with disk := { l.disk with
      cold := l.disk.cold.insert (.segment l.activeStart) (l.disk.content l.activeStart) } }

/-- A new local segment is created, and is the active one. -/
def createNext (l : TieredLog) : TieredLog :=
  { l with
    disk := { l.disk with
      segments := l.disk.segments.insert l.writeOffset (l.disk.content l.writeOffset)
      durable := 0 }
    activeStart := l.writeOffset }

/-- A local segment is removed. -/
def evict (start : ℕ) (l : TieredLog) : TieredLog :=
  { l with disk := { l.disk with segments := l.disk.segments.erase start } }

/-- `seal_and_rotate`, up to a step. -/
def sealTo (l : TieredLog) : SealStep → TieredLog
  | .entered => l
  | .synced => l.sync
  | .offloaded => l.sync.offload
  | .created => l.sync.offload.createNext
  | .evicted => l.sync.offload.createNext.evict l.activeStart

/-- `seal_and_rotate`, whose last step that succeeds is `reached`. -/
def sealAndRotate (l : TieredLog) (reached : SealStep) : TieredLog × Except TieredError Unit :=
  (l.sealTo reached, if reached = .evicted then .ok () else .error .io)

/-- The active segment is full. -/
def Full (l : TieredLog) : Prop := l.segmentBytes ≤ l.writeOffset - l.activeStart

instance (l : TieredLog) : Decidable l.Full := inferInstanceAs (Decidable (_ ≤ _))

/-- The three writes of `append`, at the position of the file handle. -/
def write (l : TieredLog) (record : Bytes) : TieredLog :=
  let content := l.disk.content l.activeStart
  let pos := l.writeOffset - l.activeStart
  let frame := wire.frame record
  { l with
    disk := { l.disk with
      segments := l.disk.segments.insert l.activeStart
        (content.take pos ++ frame ++ content.drop (pos + frame.length)) }
    writeOffset := l.writeOffset + (8 + record.length) }

/-- `append`; a full segment is sealed as far as `reached`. -/
def append (l : TieredLog) (record : Bytes) (reached : SealStep) : TieredLog × Except TieredError ℕ :=
  if maxRecord < record.length then (l, .error (.tooLarge record.length))
  else
    match if l.Full then l.sealAndRotate reached else (l, .ok ()) with
    | (l, .error e) => (l, .error e)
    | (l, .ok ()) => (l.write record, .ok l.writeOffset)

/-- An `append` refuses a record, stops while it seals, or writes behind what is there. -/
theorem append_cases (l : TieredLog) (record : Bytes) (reached : SealStep) :
    (l.append record reached = (l, .error (.tooLarge record.length))) ∨
    (l.Full ∧ reached ≠ .evicted ∧ l.append record reached = (l.sealTo reached, .error .io)) ∨
    (record.length ≤ maxRecord ∧ l.append record reached = ((if l.Full then l.sealTo .evicted else l).write record,
      .ok (if l.Full then l.sealTo .evicted else l).writeOffset)) := by
  by_cases hlarge : maxRecord < record.length
  · exact .inl (if_pos hlarge)
  · rw [append, if_neg hlarge]
    by_cases hfull : l.Full
    · rw [if_pos hfull, if_pos hfull, sealAndRotate]
      by_cases hreached : reached = .evicted
      · rw [if_pos hreached, hreached]
        exact .inr (.inr ⟨not_lt.1 hlarge, rfl⟩)
      · rw [if_neg hreached]
        exact .inr (.inl ⟨hfull, hreached, rfl⟩)
    · rw [if_neg hfull, if_neg hfull]
      exact .inr (.inr ⟨not_lt.1 hlarge, rfl⟩)

/-- The offsets of a list of blobs. -/
def coldStarts : List BlobKey → Except TieredError (List ℕ)
  | [] => .ok []
  | key :: keys =>
    match blobKeyStart key with
    | none => .error (.missingSegment (2 ^ 64 - 1))
    | some start => (coldStarts keys).map (start :: ·)

/-- `all_starts`. -/
def allStarts (l : TieredLog) : Except TieredError (List ℕ) :=
  (coldStarts l.disk.cold.keys).map fun starts =>
    (if l.activeStart ∈ starts then starts else starts ++ [l.activeStart]).insertionSort (· ≤ ·)

/-- `load_segment`. -/
def loadSegment (l : TieredLog) (start : ℕ) : Except TieredError Bytes :=
  if start = l.activeStart then
    match l.disk.segments.lookup start with
    | none => .error .io
    | some bytes => .ok bytes
  else
    match l.disk.cold.lookup (.segment start) with
    | none => .error (.missingSegment start)
    | some bytes => .ok bytes

/-- The inner loop of `replay_from`: the frames of a segment, from a position on. -/
def readFrames (startOffset : ℕ) (bytes : Bytes) : ℕ → ℕ → ℕ → List (ℕ × Bytes)
  | 0, _, _ => []
  | fuel + 1, pos, offset =>
    if bytes.length < pos + 4 then []
    else
      let len := leNat ((bytes.drop pos).take 4)
      if maxRecord < len ∨ bytes.length < pos + 4 + len + 4 then []
      else
        let body := (bytes.drop (pos + 4)).take len
        if (bytes.drop (pos + 4 + len)).take 4 ≠ checks.checksum ((bytes.drop pos).take (4 + len)) then []
        else
          (if startOffset ≤ offset then [(offset, body)] else []) ++
            readFrames startOffset bytes fuel (pos + (4 + len + 4)) (offset + (4 + len + 4))

/-- The outer loop of `replay_from`, over the segments. -/
def replaySegments (l : TieredLog) (startOffset : ℕ) : List ℕ → Except TieredError (List (ℕ × Bytes))
  | [] => .ok []
  | segStart :: rest =>
    let segEnd := rest.head?.getD l.writeOffset
    if segEnd ≤ startOffset then l.replaySegments startOffset rest
    else
      match l.loadSegment segStart with
      | .error e => .error e
      | .ok bytes =>
        (l.replaySegments startOffset rest).map (readFrames startOffset bytes (bytes.length + 1) 0 segStart ++ ·)

/-- `replay_from`. -/
def replayFrom (l : TieredLog) (startOffset : ℕ) : Except TieredError (List (ℕ × Bytes)) :=
  match l.allStarts with
  | .error e => .error e
  | .ok starts => l.replaySegments startOffset starts

end TieredLog

/-- What happens to a log. -/
inductive Event where
  | append (record : Bytes) (reached : SealStep)
  | sync
  /-- The process dies, and the log is opened again. -/
  | crash (kept segmentBytes : ℕ)
  /-- The process dies inside `seal_and_rotate`, behind a step, and the log is opened again. -/
  | crashInSeal (behind : SealStep) (kept segmentBytes : ℕ)
  deriving DecidableEq, Repr

namespace TieredLog

/-- The log after a crash. -/
def reopen (l : TieredLog) (kept segmentBytes : ℕ) : TieredLog := .open (l.disk.crash kept) segmentBytes

/-- One event; an `append` answers with an offset.  A segment that is not full is not sealed. -/
def step (l : TieredLog) : Event → TieredLog × Option (Except TieredError ℕ)
  | .append record reached => ((l.append record reached).1, some (l.append record reached).2)
  | .sync => (l.sync, none)
  | .crash kept segmentBytes => (l.reopen kept segmentBytes, none)
  | .crashInSeal behind kept segmentBytes =>
    ((if l.Full then l.sealTo behind else l).reopen kept segmentBytes, none)

end TieredLog

end Datarail.Tieredlog
