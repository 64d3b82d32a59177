/-
# The store of committed offsets

`datarail-offsets`: where the consumer groups record how far they have read.
`MemOffsets` keeps a map.  `FileOffsets` keeps the same map and, in a directory,
a log of commits: a record is the length of the group's name (`u32`, little
endian), the name, the offset (`u64`) and a CRC-32 over all three.

`commit` and `commit_many` append records, sync the file and then change the
map.  Once the log holds many records for each group it is compacted, and
`restore_many` goes the same way: `rewrite_map` writes one record a group to a
second file and renames it over the log.  `open` reads records until one is not
whole and cuts the file there.

A call is given the place where the disk fails it, if it does.  A handle that
was left on a file that is no longer the log (`rewrite_map` renamed the new one
into place and could not open it) is not `attached`: what is written through it
is in no file that `open` will read.
-/

import Datarail.Lib.Run
import Datarail.Lib.Collections
import Datarail.Lib.Frames
import Datarail.Lib.IoError
import Datarail.Lib.MachineInt
import Datarail.Lib.Text

namespace Datarail.Offsets

open Lib

abbrev Bytes := List UInt8

/-- The last offset of every group, a `BTreeMap<String, u64>`. -/
abbrev OffsetMap := AList fun _ : String => UInt64

/-- The entries of the map in the order of its keys. -/
def entriesOf (map : OffsetMap) : List (String × UInt64) :=
  (sortedKeys map).filterMap fun group => (map.lookup group).map fun offset => (group, offset)

/-- The map with some groups' offsets set. -/
def insertAll (map : OffsetMap) (values : List (String × UInt64)) : OffsetMap :=
  values.foldl (fun map value => map.insert value.1 value.2) map

/-- The store in memory. -/
structure MemOffsets where
  map : OffsetMap

namespace MemOffsets

def new : MemOffsets := ⟨∅⟩

def commit (m : MemOffsets) (group : String) (offset : UInt64) : MemOffsets := ⟨m.map.insert group offset⟩

def fetch (m : MemOffsets) (group : String) : Option UInt64 := m.map.lookup group

def groups (m : MemOffsets) : List String := sortedKeys m.map

end MemOffsets

/-- When a log is compacted: `COMPACT_MIN_RECORDS` and `COMPACT_GROWTH_FACTOR`. -/
structure Trigger where
  minRecords : ℕ
  growthFactor : ℕ

/-- The values of the source. -/
def compaction : Trigger := ⟨1024, 4⟩

/-- The error of a group name whose length is no `u32`. -/
def nameTooLong : IoError := ⟨.invalidInput, "group name too long"⟩

section Format

/-- `crc32`. -/
def crc32 (bytes : Bytes) : UInt32 := crc 0xEDB88320 bytes

/-- The bytes under the checksum. -/
def recordBody (group : String) (offset : UInt64) : Bytes :=
  leBytes 4 (utf8Bytes group).length ++ utf8Bytes group ++ leBytes 8 offset.toNat

/-- A record, whatever the length of the name. -/
def recordBytes (value : String × UInt64) : Bytes :=
  recordBody value.1 value.2 ++ leBytes 4 (crc32 (recordBody value.1 value.2)).toNat

/-- `encode_record`: the length of the name has to be a `u32`. -/
def encodeRecord (group : String) (offset : UInt64) : Except IoError Bytes :=
  if (utf8Bytes group).length < 2 ^ 32 then .ok (recordBytes (group, offset)) else .error nameTooLong

/-- Records, one behind the other. -/
def encodeAll : List (String × UInt64) → Except IoError Bytes
  | [] => .ok []
  | (group, offset) :: values => do
      let record ← encodeRecord group offset
      let records ← encodeAll values
      return record ++ records

/-- `parse_record`, at the front of what is left of the log: the record and what is behind it. -/
def parseRecord (buf : Bytes) : Option ((String × UInt64) × Bytes) := do
  let (lenBytes, buf) ← cut 4 buf
  let (groupBytes, buf) ← cut (leNat lenBytes) buf
  let (offsetBytes, buf) ← cut 8 buf
  let (crcBytes, buf) ← cut 4 buf
  if (crc32 (lenBytes ++ groupBytes ++ offsetBytes)).toNat ≠ leNat crcBytes then none
  else
    let group ← ofUtf8 groupBytes
    some ((group, UInt64.ofNat (leNat offsetBytes)), buf)

/-- The loop of `replay`: the map, the number of records and what is left. -/
def replayLoop : ℕ → Bytes → OffsetMap → ℕ → OffsetMap × ℕ × Bytes
  | 0, buf, map, records => (map, records, buf)
  | fuel + 1, buf, map, records =>
    match parseRecord buf with
    | none => (map, records, buf)
    | some ((group, offset), rest) => replayLoop fuel rest (map.insert group offset) (records + 1)

/-- `replay`: the map, the number of records and the length of the log up to where it is whole. -/
def replay (log : Bytes) : OffsetMap × ℕ × ℕ :=
  let (map, records, rest) := replayLoop log.length log ∅ 0
  (map, records, log.length - rest.length)

end Format

/-- A prior value of a group; none if it had none. -/
structure OffsetSnapshot where
  group : String
  offset : Option UInt64

/-- Where `rewrite_map` fails. -/
inductive RewriteFault where
  /-- The second file cannot be opened. -/
  | create
  /-- It cannot be written, synced or renamed. -/
  | rename
  /-- It is in place and cannot be opened. -/
  | reopen
  /-- The directory cannot be synced. -/
  | fsyncDir
  deriving DecidableEq

/-- Where the disk fails a call. -/
inductive Fault where
  /-- The records are written up to some byte. -/
  | write (n : ℕ)
  /-- They are written and not synced. -/
  | sync
  /-- The log cannot be rewritten. -/
  | rewrite (fault : RewriteFault)
  deriving DecidableEq

/-- The part of a fault that is about rewriting. -/
def Fault.onRewrite : Option Fault → Option RewriteFault
  | some (.rewrite fault) => some fault
  | _ => none

/-- The store on disk. -/
structure FileOffsets where
  /-- The content of `offsets.log`. -/
  log : Bytes
  /-- `file` is that file. -/
  attached : Bool
  map : OffsetMap
  /-- How many records the log has, by count. -/
  records : ℕ

namespace FileOffsets

/-- `open`: the file is cut behind its last whole record. -/
def «open» (log : Bytes) : FileOffsets :=
  let (map, records, validLen) := replay log
  { log := log.take validLen, attached := true, map, records }

def fetch (f : FileOffsets) (group : String) : Option UInt64 := f.map.lookup group

def groups (f : FileOffsets) : List String := sortedKeys f.map

def snapshot (f : FileOffsets) (groups : List String) : List OffsetSnapshot :=
  groups.map fun group => { group, offset := f.map.lookup group }

/-- `file.write_all`: the file is opened to append. -/
def write (f : FileOffsets) (bytes : Bytes) : FileOffsets :=
  if f.attached then { f with log := f.log ++ bytes } else f

/-- `rewrite_map`. -/
def rewriteMap (f : FileOffsets) (map : OffsetMap) (fault : Option RewriteFault) : FileOffsets × Except IoError Unit :=
  if fault = some .create then (f, .error .disk)
  else
    match encodeAll (entriesOf map) with
    | .error e => (f, .error e)
    | .ok log =>
      match fault with
      | some .create | some .rename => (f, .error .disk)
      -- The handle stays on the file that has been replaced.
      | some .reopen => ({ f with log, attached := false }, .error .disk)
      | some .fsyncDir =>
        ({ f with log, attached := true, records := map.entries.length }, .error .disk)
      | none => ({ log, attached := true, map, records := map.entries.length }, .ok ())

/-- `compact`. -/
def compact (f : FileOffsets) (fault : Option RewriteFault) : FileOffsets × Except IoError Unit :=
  f.rewriteMap f.map fault

variable (T : Trigger)

/-- The log has outgrown its groups. -/
def Outgrown (f : FileOffsets) : Prop :=
  ¬ (f.records < T.minRecords ∨ f.records ≤ T.growthFactor * max f.map.entries.length 1)

instance (f : FileOffsets) : Decidable (f.Outgrown T) := inferInstanceAs (Decidable (¬ _))

/-- `maybe_compact`. -/
def maybeCompact (f : FileOffsets) (fault : Option RewriteFault) : FileOffsets × Except IoError Unit :=
  if f.Outgrown T then f.compact fault else (f, .ok ())

/-- The store once records are written and synced. -/
def recorded (f : FileOffsets) (values : List (String × UInt64)) (encoded : Bytes) : FileOffsets :=
  { f.write encoded with map := insertAll f.map values, records := f.records + values.length }

/-- `commit_many`. -/
def commitMany (f : FileOffsets) (values : List (String × UInt64)) (fault : Option Fault) :
    FileOffsets × Except IoError Unit :=
  match encodeAll values with
  | .error e => (f, .error e)
  | .ok encoded =>
    match fault with
    | some (.write n) => (f.write (encoded.take n), .error .disk)
    | some .sync => (f.write encoded, .error .disk)
    | fault => (f.recorded values encoded).maybeCompact T (Fault.onRewrite fault)

/-- `commit`: what `commit_many` does, with one record. -/
def commit (f : FileOffsets) (group : String) (offset : UInt64) (fault : Option Fault) :
    FileOffsets × Except IoError Unit :=
  f.commitMany T [(group, offset)] fault

/-- The map that `restore_many` writes. -/
def restored (map : OffsetMap) (snapshots : List OffsetSnapshot) : OffsetMap :=
  snapshots.foldl (fun map snapshot =>
    match snapshot.offset with
    | some offset => map.insert snapshot.group offset
    | none => map.erase snapshot.group) map

/-- `restore_many`. -/
def restoreMany (f : FileOffsets) (snapshots : List OffsetSnapshot) (fault : Option Fault) :
    FileOffsets × Except IoError Unit :=
  f.rewriteMap (restored f.map snapshots) (Fault.onRewrite fault)

end FileOffsets

/-- A call that changes the store. -/
inductive Call where
  | commit (group : String) (offset : UInt64)
  | commitMany (values : List (String × UInt64))
  | restoreMany (snapshots : List OffsetSnapshot)

/-- How far a call got when the process died. -/
inductive Fate where
  /-- Its records were not synced: some prefix of them is in the file. -/
  | torn (n : ℕ)
  /-- Its records were synced; the file that was to replace the log was not renamed. -/
  | synced
  /-- The new log, if the call makes one, was in place. -/
  | renamed

/-- What happens to a store. -/
inductive Event where
  /-- A call, and where the disk fails it. -/
  | call (c : Call) (fault : Option Fault)
  /-- The process dies in a call and is started again. -/
  | crash (c : Call) (fate : Fate)
  /-- The store is closed and opened again. -/
  | reopen

section Run

variable (T : Trigger)

def FileOffsets.call (f : FileOffsets) (fault : Option Fault) : Call → FileOffsets × Except IoError Unit
  | .commit group offset => f.commit T group offset fault
  | .commitMany values => f.commitMany T values fault
  | .restoreMany snapshots => f.restoreMany snapshots fault

/-- The log of a process that dies while it appends records. -/
def FileOffsets.logAfterAppend (f : FileOffsets) (values : List (String × UInt64)) : Fate → Bytes
  | .torn n => ((f.commitMany T values (some (.write n))).1).log
  | .synced => ((f.commitMany T values (some .sync)).1).log
  | .renamed => ((f.commitMany T values none).1).log

/-- The log of a process that dies in a call. -/
def FileOffsets.logAfter (f : FileOffsets) : Call → Fate → Bytes
  | .commit group offset, fate => f.logAfterAppend T [(group, offset)] fate
  | .commitMany values, fate => f.logAfterAppend T values fate
  | .restoreMany snapshots, .renamed => ((f.restoreMany snapshots none).1).log
  | .restoreMany _, _ => f.log

/-- The runs of a store; calls have an answer. -/
def fileMachine : Machine FileOffsets Event (Option (Except IoError Unit)) where
  step f
    | .call c fault => ((f.call T fault c).1, some (f.call T fault c).2)
    | .crash c fate => (.open (f.logAfter T c fate), none)
    | .reopen => (.open f.log, none)

end Run

end Datarail.Offsets
