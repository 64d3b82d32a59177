/-
# The replay log

`ReplayLog` and `Replay` of `crates/datarail-replaylog/src/lib.rs`: a log in segment files
that are kept, each named by the logical offset it starts at.

    length (4, little-endian)   record   CRC-32 of length and record (4, little-endian)

`append` writes a frame at the end of the newest segment and moves the logical end only when
all of it is written; `sync` makes what was written durable; `open` cuts a torn tail off the
newest segment, and `truncate_to` goes back to the start of a record.  A `Replay` reads frames in
chunks, from segment to segment.  It has file handles of its own: what it finds on disk each time
it looks, and how much of it a read returns, is its `View`.

Of the newest segment the bytes below `durable` are synced; a segment is synced before a newer
one is made.  `named` are the segments whose directory entry is synced.  A `WriteFault` is what
goes wrong in an `append`: the write of the frame stops after some bytes, or a sync fails while
the log rotates.
-/

import Datarail.Lib.Collections
import Datarail.Lib.Frames

namespace Datarail.Replaylog

open Lib

abbrev Bytes := List UInt8

/-- `ReplayError`. -/
inductive ReplayError where
  | io
  | badOffset (offset : ℕ)
  | tooLarge (len : ℕ)
  deriving DecidableEq, Repr

/-- `REFILL_CHUNK`. -/
def refillChunk : ℕ := 64 * 1024

/-- `MAX_RECORD`. -/
def maxRecord : ℕ := 64 * 1024 * 1024

/-- `DEFAULT_SEGMENT_BYTES`. -/
def defaultSegmentBytes : ℕ := 8 * 1024 * 1024

section Format

/-- `crc32`, over the length and the record in one. -/
def crc32 (bytes : Bytes) : UInt32 := crc 0xEDB88320 bytes

example : crc32 [0x31, 0x32, 0x33, 0x34, 0x35, 0x36, 0x37, 0x38, 0x39] = 0xCBF43926 := by
  decide +kernel

/-- Lengths and checksums of the frames. -/
def checks : Codec.Checks where
  lenBytes := leBytes 4
  lenOf := leNat
  checksum bytes := leBytes 4 (crc32 bytes).toNat
  accepts n := decide (n ≤ maxRecord)
  length_lenBytes := length_leBytes 4
  length_checksum _ := length_leBytes 4 _
  lenOf_lenBytes n hn := by
    have hn := of_decide_eq_true hn
    have : maxRecord < 256 ^ 4 := by decide
    exact leNat_leBytes_of_lt (by omega)
  lenBytes_lenOf bytes h := by
    have := leBytes_leNat bytes
    rwa [h] at this

/-- The format of a segment. -/
def wire : Codec UInt8 Bytes := Codec.checked checks

theorem wire_fits {record : Bytes} : wire.Fits record ↔ record.length ≤ maxRecord := by
  exact decide_eq_true_iff

theorem length_frame (record : Bytes) : (wire.frame record).length = record.length + 8 :=
  Codec.length_checkedFrame checks record

/-- `scan_valid_len`, from a position on. -/
def scanValidLen : ℕ → Bytes → ℕ → ℕ
  | 0, _, pos => pos
  | fuel + 1, bytes, pos =>
    if bytes.length < pos + 4 then pos
    else
      let len := leNat ((bytes.drop pos).take 4)
      if maxRecord < len then pos
      else if bytes.length < pos + 4 + len + 4 then pos
      else if ((bytes.drop pos).drop (4 + len)).take 4 ≠ checks.checksum ((bytes.drop pos).take (4 + len)) then pos
      else scanValidLen fuel bytes (pos + 4 + len + 4)

end Format

/-- A log directory: the segment files by the offset they start at. -/
structure Files where
  segments : AList fun _ : ℕ => Bytes
  /-- The bytes of the newest segment that are synced. -/
  durable : ℕ
  /-- The segments whose directory entry is synced. -/
  named : List ℕ

namespace Files

/-- An empty directory. -/
def empty : Files := ⟨∅, 0, []⟩

/-- `segment_starts`. -/
def segmentStarts (f : Files) : List ℕ := f.segments.keys.insertionSort (· ≤ ·)

/-- The content of a segment; a missing one is created empty. -/
def content (f : Files) (start : ℕ) : Bytes := (f.segments.lookup start).getD []

/-- The bytes in all segments. -/
def volume (f : Files) : ℕ := (f.segmentStarts.map fun start => (f.content start).length).sum

/-- `fsync_dir`. -/
def fsyncDir (f : Files) : Files := { f with named := f.segments.keys }

/-- What is left when the power fails: the segments with a synced entry, the newest one up to
where it is synced. -/
def durablePart (f : Files) : Files :=
  let newest := f.segmentStarts.getLast?.getD 0
  let synced := if newest ∈ f.segments then f.segments.insert newest ((f.content newest).take f.durable) else f.segments
  let left : Files := { f with segments := retainKeys synced fun start => decide (start ∈ f.named) }
  { left with durable := (left.content (left.segmentStarts.getLast?.getD 0)).length }

end Files

/-- What goes wrong in an `append`. -/
inductive WriteFault where
  | none
  /-- The write of the frame stops after so many bytes. -/
  | torn (bytes : ℕ)
  /-- The sync of the full segment fails. -/
  | rotateSync
  /-- The sync of the directory with the new segment fails. -/
  | rotateDir
  deriving DecidableEq, Repr

/-- What goes wrong in a `sync`. -/
inductive SyncFault where
  | none
  | file
  | dir
  deriving DecidableEq, Repr

/-- `ReplayLog`. -/
structure ReplayLog where
  files : Files
  segmentBytes : ℕ
  activeStart : ℕ
  writeOffset : ℕ

namespace ReplayLog

/-- `ReplayLog::open`. -/
def «open» (files : Files) (segmentBytes : ℕ) : ReplayLog :=
  let activeStart := files.segmentStarts.getLast?.getD 0
  let content := files.content activeStart
  let validLen := scanValidLen (content.length + 1) content 0
  { files := { files with
      segments := files.segments.insert activeStart (content.take validLen)
      durable := min files.durable validLen }.fsyncDir
    segmentBytes := max segmentBytes 1024
    activeStart
    writeOffset := activeStart + validLen }

/-- More bytes at the end of the active segment. -/
def extend (l : ReplayLog) (bytes : Bytes) : ReplayLog :=
  { l with files := { l.files with
      segments := l.files.segments.insert l.activeStart (l.files.content l.activeStart ++ bytes) } }

/-- `rotate`. -/
def rotate (fault : WriteFault) (l : ReplayLog) : ReplayLog × Except ReplayError Unit :=
  if fault = .rotateSync then (l, .error .io)
  else
    let files := { l.files with
      segments := l.files.segments.insert l.writeOffset (l.files.content l.writeOffset)
      durable := 0 }
    if fault = .rotateDir then ({ l with activeStart := l.writeOffset, files }, .error .io)
    else ({ l with activeStart := l.writeOffset, files := files.fsyncDir }, .ok ())

/-- The three writes of `append`. -/
def write (fault : WriteFault) (l : ReplayLog) (record : Bytes) : ReplayLog × Except ReplayError ℕ :=
  let frame := wire.frame record
  let written := ({ l.extend frame with writeOffset := l.writeOffset + frame.length }, .ok l.writeOffset)
  match fault with
  | .torn n => if n < frame.length then (l.extend (frame.take n), .error .io) else written
  | _ => written

/-- `append`. -/
def append (fault : WriteFault) (l : ReplayLog) (record : Bytes) : ReplayLog × Except ReplayError ℕ :=
  if maxRecord < record.length then (l, .error (.tooLarge record.length))
  else if l.segmentBytes ≤ l.writeOffset - l.activeStart then
    match l.rotate fault with
    | (l, .error e) => (l, .error e)
    | (l, .ok ()) => l.write fault record
  else l.write fault record

/-- `sync`. -/
def sync (fault : SyncFault) (l : ReplayLog) : ReplayLog × Except ReplayError Unit :=
  if fault = .file then (l, .error .io)
  else
    let files := { l.files with durable := (l.files.content l.activeStart).length }
    if fault = .dir then ({ l with files }, .error .io) else ({ l with files := files.fsyncDir }, .ok ())

end ReplayLog

/-- What a reader finds when it comes to the disk: the segments at that time, and how many bytes of a
chunk it does not get although they are there. -/
structure Glance where
  segments : AList fun _ : ℕ => Bytes
  short : ℕ

/-- The bytes that a read at a position of a segment returns: none at the end of the file, else at
least one. -/
def Glance.read (g : Glance) (start pos : ℕ) : Bytes :=
  (((g.segments.lookup start).getD []).drop pos).take (max 1 (refillChunk - g.short))

/-- What a reader finds over time. -/
abbrev View := ℕ → Glance

/-- Nothing changes on disk, and a read returns all of a chunk. -/
def Files.still (f : Files) : View := fun _ => ⟨f.segments, 0⟩

/-- `Replay`; the file handle is the segment and the position in it. -/
structure Replay where
  starts : List ℕ
  segIdx : ℕ
  file : Option (ℕ × ℕ)
  bufBase : ℕ
  buf : Bytes
  cursor : ℕ
  stop : ℕ
  /-- How often the reader has come to the disk. -/
  looks : ℕ

namespace Replay

/-- `open_segment`. -/
def openSegment (view : View) (r : Replay) (offset : ℕ) : Except ReplayError Replay :=
  match r.starts[r.segIdx]? with
  | none => .ok { r with file := none }
  | some start =>
    match (view r.looks).segments.lookup start with
    | none => .error .io
    | some _ =>
      .ok { r with file := some (start, offset - start), buf := [], cursor := 0, bufBase := offset
                   looks := r.looks + 1 }

/-- The consumed bytes leave the buffer. -/
def compact (r : Replay) : Replay :=
  { r with buf := r.buf.drop r.cursor, bufBase := r.bufBase + r.cursor, cursor := 0 }

/-- The loop of `refill`. -/
def refillLoop (view : View) : ℕ → Replay → Except ReplayError (Replay × Bool)
  | 0, r => .ok (r, false)
  | fuel + 1, r =>
    match r.file with
    | none => .ok (r, false)
    | some (start, pos) =>
      let bytes := (view r.looks).read start pos
      if bytes = [] then
        let r := { r with file := none, segIdx := r.segIdx + 1, looks := r.looks + 1 }
        match r.starts[r.segIdx]? with
        | none => .ok (r, false)
        | some next =>
          match r.openSegment view next with
          | .error e => .error e
          | .ok r => refillLoop view fuel r
      else
        .ok ({ r with buf := r.buf ++ bytes, file := some (start, pos + bytes.length), looks := r.looks + 1 }, true)

/-- `refill`. -/
def refill (view : View) (r : Replay) : Except ReplayError (Replay × Bool) :=
  refillLoop view (r.starts.length - r.segIdx + 1) r.compact

/-- `resync_or_stop`. -/
def resyncOrStop (view : View) (r : Replay) (badOff : ℕ) : Except ReplayError (Replay × Bool) :=
  let next := (r.starts.takeWhile fun s => decide (s ≤ badOff)).length
  match r.starts[next]? with
  | none => .ok (r, false)
  | some start =>
    match { r with segIdx := next }.openSegment view start with
    | .error e => .error e
    | .ok r => .ok (r, true)

/-- The loop goes on if there is more to read. -/
def again (next : Replay → Except ReplayError (Replay × Option (ℕ × Bytes))) :
    Except ReplayError (Replay × Bool) → Except ReplayError (Replay × Option (ℕ × Bytes))
  | .error e => .error e
  | .ok (r, false) => .ok (r, none)
  | .ok (r, true) => next r

/-- The loop of `read_next`. -/
def readNextLoop (view : View) : ℕ → Replay → Except ReplayError (Replay × Option (ℕ × Bytes))
  | 0, r => .ok (r, none)
  | fuel + 1, r =>
    let avail := r.buf.drop r.cursor
    let offset := r.bufBase + r.cursor
    if avail.length < 4 then
      if r.stop ≤ offset then .ok (r, none) else again (readNextLoop view fuel) (r.refill view)
    else
      let len := leNat (avail.take 4)
      if maxRecord < len then again (readNextLoop view fuel) (r.resyncOrStop view offset)
      else if avail.length < 4 + len + 4 then again (readNextLoop view fuel) (r.refill view)
      else if r.stop ≤ offset then .ok (r, none)
      else if (avail.drop (4 + len)).take 4 ≠ checks.checksum (avail.take (4 + len)) then
        again (readNextLoop view fuel) (r.resyncOrStop view offset)
      else .ok ({ r with cursor := r.cursor + (4 + len + 4) }, some (offset, (avail.drop 4).take len))

/-- The rounds that a segment can take: each one but the last has a byte more of a frame. -/
def roundsPerSegment : ℕ := maxRecord + 10

/-- `read_next`. -/
def readNext (view : View) (r : Replay) : Except ReplayError (Replay × Option (ℕ × Bytes)) :=
  readNextLoop view (roundsPerSegment + roundsPerSegment * r.starts.length) r

end Replay

/-- `is_frame_boundary`, from a position on. -/
def isFrameBoundary (bytes : Bytes) (target : ℕ) : ℕ → ℕ → Bool
  | 0, _ => false
  | fuel + 1, pos =>
    if target ≤ pos then pos == target
    else if bytes.length < pos + 4 then false
    else
      let len := leNat ((bytes.drop pos).take 4)
      if target < pos + 4 + len + 4 ∨ bytes.length < pos + 4 + len + 4 then false
      else if ((bytes.drop pos).drop (4 + len)).take 4 ≠ checks.checksum ((bytes.drop pos).take (4 + len)) then false
      else isFrameBoundary bytes target fuel (pos + 4 + len + 4)

namespace ReplayLog

/-- `truncate_to`. -/
def truncateTo (l : ReplayLog) (stop : ℕ) : ReplayLog × Except ReplayError Unit :=
  if l.writeOffset < stop then (l, .error (.badOffset stop))
  else if stop = l.writeOffset then (l, .ok ())
  else
    let starts := l.files.segmentStarts
    let targetIndex := (starts.takeWhile fun s => decide (s ≤ stop)).length - 1
    let targetStart := starts[targetIndex]?.getD 0
    let relative := stop - targetStart
    match l.files.segments.lookup targetStart with
    | none => (l, .error .io)
    | some bytes =>
      if bytes.length < relative ∨ isFrameBoundary bytes relative (relative + 1) 0 = false then
        (l, .error (.badOffset stop))
      else
        let kept := retainKeys l.files.segments fun s => decide (s ∉ starts.drop (targetIndex + 1))
        ({ l with
            files := { l.files with
              segments := kept.insert targetStart (bytes.take relative)
              durable := relative }.fsyncDir
            activeStart := targetStart
            writeOffset := stop }, .ok ())

/-- `replay_from`. -/
def replayFrom (view : View) (l : ReplayLog) (start : ℕ) : Except ReplayError Replay :=
  if l.writeOffset < start then .error (.badOffset start)
  else
    let starts := l.files.segmentStarts
    let segIdx := (starts.takeWhile fun s => decide (s ≤ start)).length - 1
    { starts
      segIdx
      file := none
      bufBase := start
      buf := []
      cursor := 0
      stop := l.writeOffset
      looks := 0 : Replay }.openSegment view start

end ReplayLog

end Datarail.Replaylog
