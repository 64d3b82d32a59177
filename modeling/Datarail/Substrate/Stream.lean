/-
# Cofres over a byte stream

`StreamSubstrate` of `crates/datarail-rail/src/lib.rs` (sockets and TCP) and `NoiseSubstrate` of
`crates/datarail-identity/src/noise_substrate.rs`.  `send` writes a length and a body.  `recv` reads all that is
readable into a buffer, then takes one frame from it.  The two differ in the limit of a frame, in the texts of
their errors and in the body, which Noise encrypts: a `Channel` is what they differ in.

The transport delivers bytes in order.  Which of the bytes under way a call of `recv` gets to see, and in how
many pieces, is part of the call.
-/

import Datarail.Lib.Run
import Datarail.Substrate.Frame

namespace Datarail.Substrate
namespace Stream

open Lib

/-- What a byte-stream substrate makes of a cofre. -/
structure Channel (τ : Type) where
  /-- The limit of a body. -/
  limit : ℕ
  /-- More is buffered than one frame. -/
  tooMuch : IoError
  /-- A length exceeds the limit. -/
  tooLong : IoError
  /-- The body of a cofre. -/
  close : τ → Cofre → Except IoError (τ × Bytes)
  /-- The cofre of a body. -/
  open_ : τ → Bytes → τ × Except IoError Cofre

/-- The two ends of a stream. -/
structure State (τ : Type) where
  channel : τ
  /-- Written and not read. -/
  ahead : Bytes
  /-- Read and not taken. -/
  buf : Bytes

/-- What the transport answers to one `read`. -/
inductive Read where
  /-- `ErrorKind::Interrupted`. -/
  | interrupted
  /-- At most this much; `ErrorKind::WouldBlock` or `TimedOut` if that is nothing. -/
  | bytes (n : ℕ)
  deriving DecidableEq

/-- The size of the array that is read into. -/
def readSize : ℕ := 8192

variable {τ : Type} (C : Channel τ)

/-- The first loop of `recv`: read all that is readable. -/
def fill : List Read → Bytes → Bytes → (Bytes × Bytes) × Except IoError Unit
  | [], ahead, buf => ((ahead, buf), .ok ())
  | .interrupted :: reads, ahead, buf => fill reads ahead buf
  | .bytes n :: reads, ahead, buf =>
    let piece := ahead.take (min n readSize)
    if piece = [] then ((ahead, buf), .ok ())
    else
      let ahead := ahead.drop (min n readSize)
      let buf := buf ++ piece
      if C.limit + 4 < buf.length then ((ahead, buf), .error C.tooMuch) else fill reads ahead buf

/-- The rest of `recv`: one frame, if it has arrived. -/
def takeFrame (channel : τ) (ahead buf : Bytes) : State τ × Except IoError (Option Cofre) :=
  if buf.length < 4 then (⟨channel, ahead, buf⟩, .ok none)
  else
    let len := leNat (buf.take 4)
    if C.limit < len then (⟨channel, ahead, buf⟩, .error C.tooLong)
    else if buf.length < 4 + len then (⟨channel, ahead, buf⟩, .ok none)
    else
      let body := (buf.drop 4).take len
      let buf := buf.drop (4 + len)
      (⟨(C.open_ channel body).1, ahead, buf⟩, (C.open_ channel body).2.map some)

/-- `recv`. -/
def recv (reads : List Read) (s : State τ) : State τ × Except IoError (Option Cofre) :=
  match fill C reads s.ahead s.buf with
  | ((ahead, buf), .error e) => (⟨s.channel, ahead, buf⟩, .error e)
  | ((ahead, buf), .ok ()) => takeFrame C s.channel ahead buf

/-- `send`. -/
def send (cofre : Cofre) (s : State τ) : State τ × Except IoError Unit :=
  match C.close s.channel cofre with
  | .error e => (s, .error e)
  | .ok (channel, body) => (⟨channel, s.ahead ++ leBytes 4 body.length ++ body, s.buf⟩, .ok ())

/-- A call. -/
inductive Event where
  | send (cofre : Cofre)
  | recv (reads : List Read)

/-- Calls at both ends. -/
def machine : Machine (State τ) Event (Option Answer) where
  step s
    | .send cofre => ((send C cofre s).1, some (.sent cofre (send C cofre s).2))
    | .recv reads => ((recv C reads s).1, some (.received (recv C reads s).2))

/-- `datarail_cofre::decode` with its error. -/
def decode (bytes : Bytes) : Except IoError Cofre :=
  (Cofre.decode bytes).mapError fun e => ⟨.invalidData, errorText e⟩

/-- `StreamSubstrate`. -/
def plain : Channel Unit where
  limit := maxCofreWireLen
  tooMuch := ⟨.invalidData, "stream frame exceeds the maximum cofre size"⟩
  tooLong := ⟨.invalidData, "stream frame length exceeds the maximum cofre size"⟩
  close := fun () cofre =>
    if maxCofreWireLen < cofre.encode.length then .error ⟨.invalidInput, "cofre exceeds the maximum wire size"⟩
    else if 2 ^ 32 ≤ cofre.encode.length then .error ⟨.invalidInput, "cofre exceeds u32 frame"⟩
    else .ok ((), cofre.encode)
  open_ := fun () body => ((), decode body)

/-! ### Noise -/

/-- `MAX_NOISE_FRAME`, also `MAX_MESSAGE_LEN` of the transport. -/
def maxNoiseFrame : ℕ := 65535

/-- `NOISE_TAG`. -/
def noiseTag : ℕ := 16

/-- The transport phase of a Noise session in one direction, with the number of the message: an ideal channel
returns what was put in. -/
structure Session where
  encrypt : ℕ → Bytes → Bytes
  decrypt : ℕ → Bytes → Option Bytes
  decrypt_encrypt : ∀ n plaintext, decrypt n (encrypt n plaintext) = some plaintext
  length_encrypt : ∀ n plaintext, (encrypt n plaintext).length = plaintext.length + noiseTag

/-- How many messages have been encrypted and decrypted. -/
structure Nonces where
  encrypted : ℕ
  decrypted : ℕ

/-- `NoiseError::MessageTooLong`. -/
def messageTooLong : IoError := ⟨.other, "message exceeds the noise transport limit"⟩

/-- `NoiseError::Engine` of a message that does not authenticate. -/
def engineError : IoError := ⟨.other, "noise engine error: decrypt error"⟩

/-- `NoiseSubstrate`. -/
def noise (K : Session) : Channel Nonces where
  limit := maxNoiseFrame
  tooMuch := ⟨.invalidData, "noise frame exceeds the maximum size"⟩
  tooLong := ⟨.invalidData, "noise frame length exceeds the maximum size"⟩
  close nonces cofre :=
    if maxNoiseFrame - noiseTag < cofre.encode.length then
      .error ⟨.invalidInput, "cofre exceeds one Noise message (64 KiB)"⟩
    else
      .ok (⟨nonces.encrypted + 1, nonces.decrypted⟩, K.encrypt nonces.encrypted cofre.encode)
  open_ nonces body :=
    if maxNoiseFrame < body.length then (nonces, .error messageTooLong)
    else
      match K.decrypt nonces.decrypted body with
      | none => (nonces, .error engineError)
      | some plaintext => (⟨nonces.encrypted, nonces.decrypted + 1⟩, decode plaintext)

end Stream
end Datarail.Substrate
