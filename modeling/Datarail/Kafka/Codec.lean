/-
# The wire primitives

`Reader` of `crates/datarail-kafka/src/codec.rs`: big-endian integers, the
variable-length integers of the v2 record format, strings and byte arrays.  Every
read is checked against what is left of the frame, and the texts of the errors are
the source's.  Lengths and positions are naturals: a frame is at most 16 MiB, so no
sum of them comes near the range of a `usize`.
-/

import Datarail.Lib.Scan
import Datarail.Lib.MachineInt

namespace Datarail.Kafka

open Lib

/-- An `io::Error` of the reader. -/
inductive ReadError where
  /-- `ErrorKind::UnexpectedEof`. -/
  | eof (message : String)
  /-- `ErrorKind::InvalidData`. -/
  | invalid (message : String)
  deriving DecidableEq, Repr

/-- A read of the wire. -/
abbrev Reader := Scan ReadError UInt8

namespace Reader

/-- `take`. -/
def take (n : ℕ) : Reader (List UInt8) := Scan.take (.eof "short read") n

/-- `read_byte`. -/
def readByte : Reader UInt8 := do return (← take 1).headD 0

/-- A big-endian signed integer of `n` bytes. -/
def int (n : ℕ) : Reader ℤ := do return signed (8 * n) (beNat (← take n))

/-- `int8`. -/
def int8 : Reader ℤ := int 1

/-- `int16`. -/
def int16 : Reader ℤ := int 2

/-- `int32`. -/
def int32 : Reader ℤ := int 4

/-- `int64`. -/
def int64 : Reader ℤ := int 8

/-- `uint32`. -/
def uint32 : Reader UInt32 := do return UInt32.ofNat (beNat (← take 4))

/-- The rounds of `unsigned_varint_u64` from byte `i` on. -/
def varintLoop : (rounds i : ℕ) → UInt64 → Reader UInt64
  | 0, _, _ => .fail (.invalid "variable-length integer is overlong")
  | rounds + 1, i, result => do
      let byte ← readByte
      let result := result ||| ((byte &&& 0x7f).toUInt64 <<< UInt64.ofNat (7 * i))
      if byte &&& 0x80 = 0 then return result
      varintLoop rounds (i + 1) result

/-- `unsigned_varint_u64`. -/
def unsignedVarintU64 (maxBytes : ℕ) : Reader UInt64 := varintLoop maxBytes 0 0

/-- `unsigned_varint`. -/
def unsignedVarint : Reader UInt32 := do
  let value ← unsignedVarintU64 5
  if 2 ^ 32 ≤ value.toNat then .fail (.invalid "unsigned varint overflows u32")
  else return value.toUInt32

/-- `varint`: the zig-zag form of a 32-bit integer. -/
def varint : Reader ℤ := do
  let v ← unsignedVarint
  return ((v >>> 1) ^^^ (0 - (v &&& 1))).toInt32.toInt

/-- `varlong`: the zig-zag form of a 64-bit integer. -/
def varlong : Reader ℤ := do
  let v ← unsignedVarintU64 10
  return ((v >>> 1) ^^^ (0 - (v &&& 1))).toInt64.toInt

/-- `read_utf8`. -/
def readUtf8 (len : ℕ) : Reader String := do
  let bytes ← take len
  match String.fromUTF8? ⟨bytes.toArray⟩ with
  | some s => return s
  | none => .fail (.invalid "invalid utf-8 string")

/-- `string`. -/
def string : Reader String := do
  let n ← int16
  if n < 0 then .fail (.invalid "unexpected null string") else readUtf8 n.toNat

/-- `nullable_string`. -/
def nullableString : Reader (Option String) := do
  let n ← int16
  if n = -1 then return none
  else if n < 0 then .fail (.invalid "invalid string length")
  else return some (← readUtf8 n.toNat)

/-- `bytes`. -/
def bytes : Reader (List UInt8) := do
  let n ← int32
  if n < 0 then .fail (.invalid "unexpected null bytes") else take n.toNat

/-- `nullable_bytes`. -/
def nullableBytes : Reader (Option (List UInt8)) := do
  let n ← int32
  if n = -1 then return none
  else if n < 0 then .fail (.invalid "invalid bytes length")
  else return some (← take n.toNat)

/-- `bounded_count`: no more elements than there are bytes for. -/
def boundedCount (count : ℤ) (minEntryBytes : ℕ) : Reader ℕ := do
  return min count.toNat ((← .cursor).remaining.length / max minEntryBytes 1)

/-- `skip_tagged_fields`. -/
def skipTaggedFields : Reader Unit := do
  let count ← unsignedVarint
  Scan.times (fun _ => do
    let _tag ← unsignedVarint
    let size ← unsignedVarint
    let _ ← take size.toNat
    return ()) count.toNat ()

/-! ### How far the reads move -/

theorem moves_take (n : ℕ) : (take n).Moves n := Scan.Moves.take _ n

theorem moves_int (n : ℕ) : (int n).Moves n := (moves_take n).bind fun _ => .pure _

theorem moves_uint32 : uint32.Moves 4 := (moves_take 4).bind fun _ => .pure _

theorem moves_varintLoop (rounds i : ℕ) (result : UInt64) : (varintLoop rounds i result).Moves 0 := by
  induction rounds generalizing i result with
  | zero => exact .fail _
  | succ rounds ih =>
    have hbyte : readByte.Moves 0 := (moves_take 1).andThen fun _ => .pure _
    exact hbyte.andThen fun byte => .ite (.pure _) (ih _ _)

theorem moves_varint : varint.Moves 0 := by
  have hunsigned : unsignedVarint.Moves 0 :=
    (moves_varintLoop _ _ _).andThen fun _ => .ite (.fail _) (.pure _)
  exact hunsigned.andThen fun _ => .pure _

theorem moves_varlong : varlong.Moves 0 := (moves_varintLoop _ _ _).andThen fun _ => .pure _

theorem moves_nullableBytes : nullableBytes.Moves 0 := by
  refine (moves_int 4).andThen fun n => .ite (.pure _) (.ite (.fail _) ?_)
  exact (moves_take _).andThen fun _ => .pure _

end Reader

end Datarail.Kafka
