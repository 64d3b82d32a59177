/-
# The write-ahead log

`DurableLog` of `crates/datarail-substrate-wal/src/lib.rs`: a rail that keeps its cofres in
segment files.  `send` frames a cofre into a buffer, `flush` writes the buffer to the newest
segment and syncs it, `recv` reads frames from a cursor on, and `ack` makes the cursor
durable and removes the segments that nobody needs any more.

    length (4, big-endian)   cofre   CRC-32 of length and cofre (4, big-endian)

The disk is what a crash can do to it.  Of the newest segment only the bytes below `durable`
are sure to be there afterwards; a new file, a renamed cursor and a removed file are sure
once the directory has been synced.  A `Fault` is the sync that fails in a call, and a `Loss`
is what is gone after a crash.  A crash in the middle of a call is the call with a fault and
a crash right after it.

The file handle that `recv` keeps open stands at `readOff` as long as only whole frames lie
ahead of it, so that the model reads at `readOff`.
-/

import Datarail.Cofre.Format
import Datarail.Lib.Collections
import Datarail.Lib.Frames
import Datarail.Lib.Run

namespace Datarail.Wal

open Lib

/-- `WalError`. -/
inductive WalError where
  | io
  | corrupt (what : String)
  | codec (what : String)
  deriving DecidableEq, Repr

/-- `WalConfig`; whether `flush_micros` have passed is an input of each `send`. -/
structure WalConfig where
  flushBytes : ℕ
  segmentBytes : ℕ

/-- `MAX_COFRE_WIRE_LEN`. -/
def maxCofreWireLen : ℕ := 64 * 1024 * 1024

section Format

/-- The eight rounds that make an entry of `CRC32_TABLE`. -/
def crcRounds : ℕ → UInt32 → UInt32
  | 0, c => c
  | n + 1, c => crcRounds n (if c &&& 1 ≠ 0 then (0xEDB88320 : UInt32) ^^^ (c >>> 1) else c >>> 1)

/-- `CRC32_TABLE`. -/
def crc32Table (i : UInt32) : UInt32 := crcRounds 8 i

/-- `crc32_2`, over the length and the body in one. -/
def crc32 (bytes : Bytes) : UInt32 :=
  bytes.foldl (fun c x => crc32Table ((c ^^^ x.toUInt32) &&& 0xFF) ^^^ (c >>> 8)) 0xFFFFFFFF ^^^ 0xFFFFFFFF

example : crc32 [0x31, 0x32, 0x33, 0x34, 0x35, 0x36, 0x37, 0x38, 0x39] = 0xCBF43926 := by
  decide +kernel

/-- Lengths and checksums of the frames. -/
def checks : Codec.Checks where
  lenBytes := beBytes 4
  lenOf := beNat
  checksum bytes := beBytes 4 (crc32 bytes).toNat
  accepts n := decide (0 < n ∧ n ≤ maxCofreWireLen)
  length_lenBytes := length_beBytes 4
  length_checksum _ := length_beBytes 4 _
  lenOf_lenBytes n hn := by
    have hn := of_decide_eq_true hn
    rw [beNat_beBytes, Nat.mod_eq_of_lt]
    have : maxCofreWireLen < 256 ^ 4 := by decide
    omega
  lenBytes_lenOf bytes h := by
    have := beBytes_beNat bytes
    rwa [h] at this

/-- The format of a segment. -/
def wire : Codec UInt8 Bytes := Codec.checked checks

theorem wire_fits {bytes : Bytes} : wire.Fits bytes ↔ 0 < bytes.length ∧ bytes.length ≤ maxCofreWireLen := by
  exact decide_eq_true_iff

/-- `read_frame` at the front of some bytes: the body and how far it reaches, or the end. -/
def readFrame (bytes : Bytes) (active : Bool) : Except WalError (Option (Bytes × ℕ)) :=
  let corrupt (what : String) : Except WalError (Option (Bytes × ℕ)) :=
    if active then .ok none else .error (.corrupt ("sealed segment: " ++ what))
  if bytes.length < 4 then .ok none
  else
    let len := beNat (bytes.take 4)
    if len = 0 ∨ maxCofreWireLen < len then corrupt "invalid frame length"
    else if bytes.length < 4 + len then corrupt "truncated body"
    else if bytes.length < 4 + len + 4 then corrupt "truncated crc"
    else if (bytes.drop (4 + len)).take 4 ≠ checks.checksum (bytes.take (4 + len)) then corrupt "crc mismatch"
    else .ok (some ((bytes.drop 4).take len, 8 + len))

/-- `recover_segment_end`, from an offset on. -/
def recoverSegmentEnd : ℕ → Bytes → ℕ → ℕ
  | 0, _, off => off
  | fuel + 1, content, off =>
    match readFrame (content.drop off) true with
    | .ok (some (_, advance)) => recoverSegmentEnd fuel content (off + advance)
    | _ => off

/-- `CofreError` as text. -/
def describe : CofreError → String
  | .truncated => "cofre truncated"
  | .badMagic => "bad magic"
  | .badVersion => "unsupported version"
  | .badLength => "inconsistent length"
  | .badAead => "unknown AEAD selector"
  | .cofreIdMismatch => "cofre_id != BLAKE3(carga)"
  | .signerMismatch => "signer_key_id != pinned key"
  | .badSignature => "seal verification failed"

end Format

/-- The cursor file: where the reader is, and below what everything is acked. -/
structure Cursor where
  readId : ℕ
  readOff : ℕ
  ackId : ℕ
  ackOff : ℕ
  deriving DecidableEq, Repr

/-- A log directory, and what of it a crash leaves. -/
structure Disk where
  /-- The segment files, by number. -/
  segments : AList fun _ : ℕ => Bytes
  /-- The bytes of the newest segment that a sync covers. -/
  durable : ℕ
  /-- A sync covers the directory entry of the newest segment. -/
  entry : Bool
  cursor : Option Cursor
  /-- The cursors that may be back after a crash. -/
  stale : List (Option Cursor)
  /-- The segments that may be back after a crash. -/
  unlinked : List (ℕ × Bytes)

namespace Disk

/-- An empty directory. -/
def empty : Disk := ⟨∅, 0, true, none, [], []⟩

/-- `fsync_dir`. -/
def fsyncDir (d : Disk) : Disk := { d with entry := true, stale := [], unlinked := [] }

/-- `highest_segment`. -/
def highestSegment (d : Disk) : Option ℕ := d.segments.keys.max?

/-- `load_cursor`. -/
def loadCursor (d : Disk) : Cursor := d.cursor.getD ⟨1, 0, 1, 0⟩

/-- The content of a segment; a missing one is created empty. -/
def content (d : Disk) (id : ℕ) : Bytes := (d.segments.lookup id).getD []

end Disk

/-- What a crash takes. -/
structure Loss where
  /-- This many of the frames that were not synced are still there. -/
  kept : ℕ
  /-- Behind them are these bytes, which are no frame. -/
  torn : Bytes
  /-- A newest segment that is not in the synced directory is gone. -/
  entryLost : Bool
  /-- The cursor file is this one of those it can be. -/
  cursor : ℕ
  /-- These of the segments that may be back are. -/
  revived : ℕ → Bool

/-- A directory after a crash. -/
def Disk.crash (d : Disk) (loss : Loss) : Disk :=
  let newest := d.highestSegment.getD 1
  let content := d.content newest
  let torn := if wire.parse loss.torn = none then loss.torn else []
  let left := content.take d.durable ++ (wire.frames ((wire.records (content.drop d.durable)).take loss.kept) ++ torn)
  let segments :=
    if !d.entry && loss.entryLost then d.segments.erase newest else d.segments.insert newest left
  let segments := (d.unlinked.filter fun e => loss.revived e.1).foldl
    (fun segments e => segments.insert e.1 e.2) segments
  { segments
    durable := ((segments.lookup (segments.keys.max?.getD 1)).getD []).length
    entry := true
    cursor := ((d.cursor :: d.stale)[loss.cursor]?).getD d.cursor
    stale := []
    unlinked := [] }

/-- `DurableLog`. -/
structure DurableLog where
  disk : Disk
  activeId : ℕ
  writeOff : ℕ
  buf : Bytes
  readId : ℕ
  readOff : ℕ
  /-- The segment each cofre that is delivered and not acked came from. -/
  inflight : Table (Arr 32) ℕ
  /-- How many of those came from a segment. -/
  segInflight : AList fun _ : ℕ => ℕ
  poisoned : Bool

/-- The sync that fails in a call. -/
inductive Fault where
  | none
  /-- Of the bytes of a segment. -/
  | sync
  /-- Of the directory, behind a new segment. -/
  | entry
  /-- Of the new cursor file, or anything else before it is in place. -/
  | cursor
  /-- Of the directory, behind the new cursor file. -/
  | rename
  /-- Of the directory, behind removed segments. -/
  | unlink
  deriving DecidableEq, Repr

namespace DurableLog

/-- `open_with`. -/
def openWith (d : Disk) : DurableLog :=
  let cursor := d.loadCursor
  let activeId := d.highestSegment.getD 1
  let content := d.content activeId
  let writeOff := recoverSegmentEnd (content.length + 1) content 0
  { disk := { d.fsyncDir with
      segments := d.segments.insert activeId (content.take writeOff)
      durable := min d.durable writeOff }
    activeId
    writeOff
    buf := []
    readId := max cursor.ackId 1
    readOff := cursor.ackOff
    inflight := .empty
    segInflight := ∅
    poisoned := false }

/-- The log with its buffer written, and not synced. -/
def written (l : DurableLog) : DurableLog :=
  { l with
    disk := { l.disk with
      segments := l.disk.segments.insert l.activeId (l.disk.content l.activeId ++ l.buf) }
    buf := [] }

/-- The log with its buffer written and synced. -/
def synced (l : DurableLog) : DurableLog :=
  { l.written with
    disk := { l.written.disk with durable := (l.disk.content l.activeId ++ l.buf).length }
    writeOff := l.writeOff + l.buf.length }

/-- The log with a new segment, the directory not synced. -/
def created (l : DurableLog) : DurableLog :=
  { l with
    activeId := l.activeId + 1
    disk := { l.disk with
      segments := l.disk.segments.insert (l.activeId + 1) []
      durable := 0
      entry := false } }

/-- The log with a new segment. -/
def rolled (l : DurableLog) : DurableLog := { l.created with disk := l.created.disk.fsyncDir, writeOff := 0 }

/-- `rotate`; `flush` poisons the log when it fails. -/
def rotate (fault : Fault) (l : DurableLog) : DurableLog × Except WalError Unit :=
  if fault = .entry then ({ l.created with poisoned := true }, .error .io) else (l.rolled, .ok ())

/-- `flush`. -/
def flush (cfg : WalConfig) (fault : Fault) (l : DurableLog) : DurableLog × Except WalError Unit :=
  if l.poisoned then (l, .error .io)
  else if l.buf = [] then (l, .ok ())
  else if fault = .sync then ({ l.written with poisoned := true }, .error .io)
  else if cfg.segmentBytes ≤ l.synced.writeOff then l.synced.rotate fault
  else (l.synced, .ok ())

/-- `append`, which is `send`; `due` when the last flush is `flush_micros` ago. -/
def append (cfg : WalConfig) (due : Bool) (fault : Fault) (l : DurableLog) (cofre : Cofre) :
    DurableLog × Except WalError Unit :=
  let bytes := cofre.encode
  if l.poisoned then (l, .error .io)
  else if maxCofreWireLen < bytes.length then (l, .error (.codec "cofre exceeds MAX_COFRE_WIRE_LEN"))
  else
    let l := { l with buf := l.buf ++ wire.frame bytes }
    if cfg.flushBytes ≤ l.buf.length ∨ due then l.flush cfg fault else (l, .ok ())

/-- `ack_floor`. -/
def ackFloor (l : DurableLog) : ℕ × ℕ :=
  match ((l.segInflight.entries.filter fun e => decide (0 < e.2)).map fun e => e.1).min? with
  | some s => (s, 0)
  | none => (l.readId, l.readOff)

/-- `checkpoint`. -/
def checkpoint (fault : Fault) (l : DurableLog) : DurableLog × Except WalError Unit :=
  let cursor : Cursor := ⟨l.readId, l.readOff, l.ackFloor.1, l.ackFloor.2⟩
  if fault = .cursor then (l, .error .io)
  else
    let disk := { l.disk with cursor := some cursor, stale := l.disk.cursor :: l.disk.stale }
    if fault = .rename then ({ l with disk }, .error .io) else ({ l with disk := disk.fsyncDir }, .ok ())

/-- Add one to the count of a segment. -/
def countUp (counts : AList fun _ : ℕ => ℕ) (s : ℕ) : AList fun _ : ℕ => ℕ :=
  counts.insert s ((counts.lookup s).getD 0 + 1)

/-- The frame that `recv` delivers. -/
def deliver (l : DurableLog) (cofre : Cofre) (advance : ℕ) : DurableLog :=
  { l with
    readOff := l.readOff + advance
    inflight := l.inflight.insert cofre.etiqueta.cofreId l.readId
    segInflight := countUp l.segInflight l.readId }

/-- The cursor at the start of the next segment. -/
def nextSegment (l : DurableLog) : DurableLog := { l with readId := l.readId + 1, readOff := 0 }

/-- The flush at the top of the loop of `recv`. -/
def flushAtEnd (cfg : WalConfig) (fault : Fault) (l : DurableLog) : DurableLog × Except WalError Unit :=
  if l.readId = l.activeId ∧ l.writeOff ≤ l.readOff ∧ l.buf ≠ [] then l.flush cfg fault else (l, .ok ())

/-- The loop of `recv`. -/
def recvLoop (cfg : WalConfig) (fault : Fault) : ℕ → DurableLog → DurableLog × Except WalError (Option Cofre)
  | 0, l => (l, .ok none)
  | fuel + 1, l =>
    match l.flushAtEnd cfg fault with
    | (l, .error e) => (l, .error e)
    | (l, .ok ()) =>
      match l.disk.segments.lookup l.readId with
      | none => if l.readId < l.activeId then recvLoop cfg fault fuel l.nextSegment else (l, .ok none)
      | some content =>
        match readFrame (content.drop l.readOff) (decide (l.readId = l.activeId)) with
        | .error e => (l, .error e)
        | .ok (some (bytes, advance)) =>
          match Cofre.decode bytes with
          | .error e => (l, .error (.codec (describe e)))
          | .ok cofre => (l.deliver cofre advance, .ok (some cofre))
        | .ok none =>
          if l.readId < l.activeId then recvLoop cfg fault fuel l.nextSegment else (l, .ok none)

/-- `recv`: the rounds of the loop are the segments ahead of the cursor, and one that the
flush may add. -/
def recv (cfg : WalConfig) (fault : Fault) (l : DurableLog) : DurableLog × Except WalError (Option Cofre) :=
  l.recvLoop cfg fault (l.activeId - l.readId + 2)

/-- The segments that are below the floor and behind the reader. -/
def Doomed (l : DurableLog) (s : ℕ) : Prop := 0 < s ∧ s < l.ackFloor.1 ∧ s < l.readId

instance (l : DurableLog) (s : ℕ) : Decidable (l.Doomed s) := inferInstanceAs (Decidable (_ ∧ _ ∧ _))

/-- The last part of `ack`: remove what is doomed. -/
def collect (fault : Fault) (l : DurableLog) : DurableLog × Except WalError Unit :=
  let deleted := (l.disk.segments.entries.filter fun e => decide (l.Doomed e.1)).map fun e => (e.1, e.2)
  let l := { l with
    disk := { l.disk with
      segments := retainKeys l.disk.segments fun s => decide (¬ l.Doomed s)
      unlinked := deleted ++ l.disk.unlinked }
    segInflight := retainKeys l.segInflight fun s => decide (¬ l.Doomed s) }
  if deleted = [] then (l, .ok ())
  else if fault = .unlink then (l, .error .io)
  else ({ l with disk := l.disk.fsyncDir }, .ok ())

/-- A cofre leaves the bookkeeping of what is in flight. -/
def settle (l : DurableLog) (id : Arr 32) : DurableLog :=
  match l.inflight.get id with
  | none => l
  | some s => { l with
      inflight := l.inflight.erase id
      segInflight := match l.segInflight.lookup s with
        | some n => l.segInflight.insert s (n - 1)
        | none => l.segInflight }

/-- A cofre whose ack could not be made durable is in flight again. -/
def unsettle (l : DurableLog) (id : Arr 32) : Option ℕ → DurableLog
  | none => l
  | some s => { l with inflight := l.inflight.insert id s, segInflight := countUp l.segInflight s }

/-- `ack`: the cursor is durable before anything is removed. -/
def ack (fault : Fault) (l : DurableLog) (id : Arr 32) : DurableLog × Except WalError Unit :=
  match (l.settle id).checkpoint fault with
  | (l', .error e) => (l'.unsettle id (l.inflight.get id), .error e)
  | (l', .ok ()) => l'.collect fault

/-- `drop`: errors are ignored. -/
def drop (cfg : WalConfig) (fault : Fault) (l : DurableLog) : DurableLog :=
  if l.poisoned then l else ((l.flush cfg fault).1.checkpoint fault).1

end DurableLog

/-- A call of the rail. -/
inductive Op where
  | send (cofre : Cofre) (due : Bool)
  | flush
  | recv
  | ack (id : Arr 32)

/-- What a call returns. -/
inductive Result where
  | done
  | received (cofre : Option Cofre)
  | failed (error : WalError)
  deriving DecidableEq

/-- The result of a call that returns nothing. -/
def Result.ofUnit : Except WalError Unit → Result
  | .ok () => .done
  | .error e => .failed e

/-- A call. -/
def DurableLog.call (cfg : WalConfig) (fault : Fault) (l : DurableLog) : Op → DurableLog × Result
  | .send cofre due => ((l.append cfg due fault cofre).1, .ofUnit (l.append cfg due fault cofre).2)
  | .flush => ((l.flush cfg fault).1, .ofUnit (l.flush cfg fault).2)
  | .recv =>
    match l.recv cfg fault with
    | (l', .ok cofre) => (l', .received cofre)
    | (l', .error e) => (l', .failed e)
  | .ack id => ((l.ack fault id).1, .ofUnit (l.ack fault id).2)

/-- What happens to a log. -/
inductive Event where
  | call (op : Op) (fault : Fault)
  /-- A crash, possibly in the middle of a call, and the log is opened again. -/
  | crash (during : Option (Op × Fault)) (loss : Loss)
  /-- The log is dropped and opened again. -/
  | reopen (fault : Fault)

/-- What the caller learns: the result, and that nothing it sent is left in the buffer. -/
structure Answer where
  result : Option Result
  flushed : Bool

/-- The log where a crash strikes.  All that `recv` does to the disk is its flush. -/
def DurableLog.struck (cfg : WalConfig) (l : DurableLog) : Option (Op × Fault) → DurableLog
  | none => l
  | some (.recv, fault) => (l.flush cfg fault).1
  | some (op, fault) => (l.call cfg fault op).1

/-- The runs of a log. -/
def machine (cfg : WalConfig) : Machine DurableLog Event Answer where
  step l
    | .call op fault =>
      ((l.call cfg fault op).1,
        ⟨some (l.call cfg fault op).2, decide ((l.call cfg fault op).1.buf = []) && !(l.call cfg fault op).1.poisoned⟩)
    | .crash during loss => (.openWith ((l.struck cfg during).disk.crash loss), ⟨none, false⟩)
    | .reopen fault => (.openWith (l.drop cfg fault).disk, ⟨none, false⟩)

end Datarail.Wal
