/-
# Blobs over a connection

`crates/datarail-netblob/src/lib.rs`: a blob store served over TCP, and the client that is itself a blob
store.  Every message is a frame, a little-endian 32-bit count and that many bytes.

| request | body |
| --- | --- |
| `put` | `1`, key length, key, value |
| `get` | `2`, key |
| `list` | `3`, prefix |
| `delete` | `4`, key |

A response is `1` and the text of the error, or `0` and what the operation returns: nothing, `0` or `1` and
the value, the keys with their count and lengths, `0` or `1`.

The client opens a connection for each operation.  The transport is a `Pipe` in each direction, split into
reads as it likes.
-/

import Datarail.Blobstore.Store
import Datarail.Lib.MachineInt
import Datarail.Lib.Pipe
import Datarail.Lib.Scan
import Datarail.Lib.Text

namespace Datarail.Netblob

open Lib Blobstore

abbrev Bytes := List UInt8

/-- `OP_PUT`. -/
def opPut : UInt8 := 1

/-- `OP_GET`. -/
def opGet : UInt8 := 2

/-- `OP_LIST`. -/
def opList : UInt8 := 3

/-- `OP_DELETE`. -/
def opDelete : UInt8 := 4

/-- `STATUS_OK`. -/
def statusOk : UInt8 := 0

/-- `STATUS_ERR`. -/
def statusErr : UInt8 := 1

/-- `MAX_FRAME`. -/
def maxFrame : ℕ := 256 * 1024 * 1024

/-- `len_u32`. -/
def lenU32 (n : ℕ) : Except IoError ℕ :=
  if n < 2 ^ 32 then .ok n else .error ⟨.invalidInput, "frame field exceeds u32"⟩

/-- `write_frame`: the bytes that are written. -/
def writeFrame (body : Bytes) : Except IoError Bytes := do
  let len ← lenU32 body.length
  return leBytes 4 len ++ body

/-- `read_frame`. -/
def readFrame (stream : Pipe UInt8) : Pipe UInt8 × Except IoError (Option Bytes) :=
  match stream.readExact 4 with
  | (stream, none) => (stream, .ok none)
  | (stream, some lenBuf) =>
    let len := leNat lenBuf
    if maxFrame < len then (stream, .error ⟨.invalidData, "netblob frame exceeds the maximum size"⟩)
    else
      match stream.readExact len with
      | (stream, none) => (stream, .error ⟨.unexpectedEof, "failed to fill whole buffer"⟩)
      | (stream, some body) => (stream, .ok (some body))

/-- `Reader`. -/
abbrev Reader := Scan IoError UInt8

namespace Reader

/-- `Reader::take`. -/
def take (n : ℕ) : Reader Bytes := Scan.take ⟨.unexpectedEof, "frame body truncated"⟩ n

/-- `std::str::from_utf8` with the error of the caller. -/
def utf8 (text : String) (raw : Bytes) : Reader String :=
  Scan.lift ((ofUtf8 raw).elim (.error ⟨.invalidData, text⟩) .ok)

/-- `Reader::take_str`. -/
def takeStr (n : ℕ) : Reader String := take n >>= utf8 "non-utf8 string field"

/-- `Reader::u8`. -/
def u8 : Reader UInt8 := do return (← take 1).headD 0

/-- `Reader::u32`. -/
def u32 : Reader ℕ := do return leNat (← take 4)

/-- `Reader::rest`. -/
def rest : Reader Bytes := do return (← Scan.cursor).remaining

/-- `Reader::rest_str`. -/
def restStr : Reader String := rest >>= utf8 "non-utf8 string field"

end Reader

section Server

variable {σ : Type} [BlobStore σ]

/-- Read the rest of a request and answer it. -/
def answer {α β : Type} (s : σ) (c : Cursor UInt8) (request : Reader α) (operation : α → σ × Except IoError β)
    (payload : β → Except IoError Bytes) : σ × Except IoError Bytes :=
  match request.run c with
  | .error e => (s, .error e)
  | .ok (args, _) => ((operation args).1, (operation args).2 >>= payload)

/-- The request of a `put`, after its tag. -/
def putRequest : Reader (String × Bytes) := do
  let keyLen ← Reader.u32
  let key ← Reader.takeStr keyLen
  let value ← Reader.rest
  return (key, value)

/-- The payload of a `get`. -/
def getPayload : Option Bytes → Bytes
  | some bytes => statusOk :: 1 :: bytes
  | none => [statusOk, 0]

/-- The payload of a `list`. -/
def listPayload (keys : List String) : Except IoError Bytes := do
  let count ← lenU32 keys.length
  keys.foldlM (fun out key => do
    let len ← lenU32 (utf8Bytes key).length
    return out ++ leBytes 4 len ++ utf8Bytes key) (statusOk :: leBytes 4 count)

/-- `apply`. -/
def apply (body : Bytes) (s : σ) : σ × Except IoError Bytes :=
  match Reader.u8.run (.new body) with
  | .error e => (s, .error e)
  | .ok (tag, c) =>
    if tag = opPut then
      answer s c putRequest (fun (key, value) => BlobStore.put s key value) fun () => .ok [statusOk]
    else if tag = opGet then answer s c Reader.restStr (BlobStore.get s) fun value => .ok (getPayload value)
    else if tag = opList then answer s c Reader.restStr (BlobStore.list s) listPayload
    else if tag = opDelete then
      answer s c Reader.restStr (BlobStore.delete s) fun existed => .ok [statusOk, existed.toUInt8]
    else (s, .error ⟨.invalidData, "unknown op tag " ++ toString tag.toNat⟩)

/-- `handle_op`. -/
def handleOp (body : Bytes) (s : σ) : σ × Bytes :=
  match apply body s with
  | (s, .ok payload) => (s, payload)
  | (s, .error e) => (s, statusErr :: utf8Bytes e.text)

/-- `serve_connection`: what becomes of the store and what is written.  A frame takes four bytes at least, so
that the rounds suffice. -/
def serveConnection : (rounds : ℕ) → Pipe UInt8 → σ → σ × Bytes
  | 0, _, s => (s, [])
  | rounds + 1, stream, s =>
    match readFrame stream with
    | (stream, .ok (some body)) =>
      let (s, response) := handleOp body s
      match writeFrame response with
      | .error _ => (s, [])
      | .ok out =>
        let (s, outs) := serveConnection rounds stream s
        (s, out ++ outs)
    | (_, .ok none) => (s, [])
    | (_, .error _) => (s, [])

end Server

/-- How the transport splits a request and its response. -/
structure Splits where
  request : List ℕ
  response : List ℕ

section Client

variable {σ : Type} [BlobStore σ] (lossy : Bytes → String)

/-- `NetBlob::round_trip`. -/
def NetBlob.roundTrip (splits : Splits) (body : Bytes) (s : σ) : σ × Except IoError Bytes :=
  match writeFrame body with
  | .error e => (s, .error e)
  | .ok request =>
    let (s, out) := serveConnection (request.length + 1) ⟨request, splits.request⟩ s
    match (readFrame ⟨out, splits.response⟩).2 with
    | .error e => (s, .error e)
    | .ok (some response) => (s, .ok response)
    | .ok none => (s, .error ⟨.unexpectedEof, "server closed without responding"⟩)

/-- `ok_payload`; `lossy` is `String::from_utf8_lossy`. -/
def okPayload : Bytes → Except IoError Bytes
  | [] => .error ⟨.invalidData, "empty or malformed response frame"⟩
  | status :: payload =>
    if status = statusOk then .ok payload
    else if status = statusErr then .error ⟨.other, lossy payload⟩
    else .error ⟨.invalidData, "empty or malformed response frame"⟩

/-- Send a request and read its response. -/
def exchange {α : Type} (splits : Splits) (request : Except IoError Bytes) (s : σ) (response : Reader α) :
    σ × Except IoError α :=
  match request with
  | .error e => (s, .error e)
  | .ok body =>
    let (s, received) := NetBlob.roundTrip splits body s
    (s, do
      let payload ← okPayload lossy (← received)
      return (← response.run (.new payload)).1)

/-- The body of a `put`. -/
def putBody (key : String) (bytes : Bytes) : Except IoError Bytes := do
  let len ← lenU32 (utf8Bytes key).length
  return opPut :: leBytes 4 len ++ utf8Bytes key ++ bytes

/-- `NetBlob::put`. -/
def NetBlob.put (splits : Splits) (s : σ) (key : String) (bytes : Bytes) : σ × Except IoError Unit :=
  exchange lossy splits (putBody key bytes) s (pure ())

/-- The response to a `get`, after its status. -/
def getResponse : Reader (Option Bytes) := do
  if (← Reader.u8) = 0 then return none
  return some (← Reader.rest)

/-- `NetBlob::get`. -/
def NetBlob.get (splits : Splits) (s : σ) (key : String) : σ × Except IoError (Option Bytes) :=
  exchange lossy splits (.ok (opGet :: utf8Bytes key)) s getResponse

/-- One key of the response to a `list`. -/
def nextKey (out : List String) : Reader (List String) := do
  let len ← Reader.u32
  let raw ← Reader.take len
  let key ← Reader.utf8 "non-utf8 key in list response" raw
  return out ++ [key]

/-- The response to a `list`, after its status. -/
def listResponse : Reader (List String) := do
  let count ← Reader.u32
  Scan.times nextKey count []

/-- `NetBlob::list`. -/
def NetBlob.list (splits : Splits) (s : σ) (start : String) : σ × Except IoError (List String) :=
  exchange lossy splits (.ok (opList :: utf8Bytes start)) s listResponse

/-- The response to a `delete`, after its status. -/
def deleteResponse : Reader Bool := do return (← Reader.u8) != 0

/-- `NetBlob::delete`. -/
def NetBlob.delete (splits : Splits) (s : σ) (key : String) : σ × Except IoError Bool :=
  exchange lossy splits (.ok (opDelete :: utf8Bytes key)) s deleteResponse

end Client

end Datarail.Netblob
