/-
# The shared-memory ring

`crates/datarail-substrate-shmem/src/lib.rs`: a byte ring between one producer and one consumer.  Two cursors
that only grow say how much has been written and read; each side loads both, copies bytes, and publishes its
own.

Loading a cursor, copying one byte and publishing a cursor are steps of their own, in any interleaving.  The
bytes of one copy are copied in any order.  A call starts with `send` or `recv` and goes on with a step of its
side at a time; the step that publishes is the one that returns.

The cells hold the bytes behind the header of the mapping.  A cell is written by the producer and read by the
consumer in one order for both: the two never touch the same cell at the same time (`Inv.disjoint`), so that the
order between a byte and the cursor that publishes it is the only one that matters.
-/

import Datarail.Lib.Ring
import Datarail.Lib.Run
import Datarail.Substrate.Frame

namespace Datarail.Substrate
namespace Shmem

open Lib

/-- The shared mapping. -/
structure Mapping where
  /-- The data region. -/
  cells : Bytes
  /-- The producer's cursor. -/
  write : ℕ
  /-- The consumer's cursor. -/
  read : ℕ

/-- Where the producer stands in `send`. -/
inductive Producer where
  | idle
  /-- The frame is checked, the consumer's cursor comes next. -/
  | called (cofre : Cofre)
  /-- The consumer's cursor has been loaded. -/
  | loaded (cofre : Cofre) (read : ℕ)
  /-- These bytes of the frame have been copied. -/
  | copying (cofre : Cofre) (write nextWrite : ℕ) (copied : List ℕ)

/-- Where the consumer stands in `recv`. -/
inductive Consumer where
  | idle
  /-- The producer's cursor comes next. -/
  | called
  /-- The producer's cursor has been loaded. -/
  | loaded (write : ℕ)
  /-- These bytes of the length, or of a frame of the length, have been copied to `dst`. -/
  | copying (write read : ℕ) (len : Option ℕ) (dst : Bytes) (copied : List ℕ)

/-- The mapping and both sides. -/
structure State where
  map : Mapping
  producer : Producer
  consumer : Consumer

/-- What happens next. -/
inductive Event where
  /-- `send` is called. -/
  | send (cofre : Cofre)
  /-- The producer goes on, with byte `i` if it is copying. -/
  | producer (i : ℕ)
  /-- `recv` is called. -/
  | recv
  /-- The consumer goes on, with byte `i` if it is copying. -/
  | consumer (i : ℕ)

/-- `ring full`. -/
def ringFull : IoError := ⟨.wouldBlock, "shmem ring full (back-pressure)"⟩

/-- What `send` checks before it looks at the ring. -/
def checkFrame (capacity : ℕ) (cofre : Cofre) : Except IoError Unit :=
  if maxCofreWireLen < cofre.encode.length then .error ⟨.invalidInput, "cofre exceeds the maximum wire size"⟩
  else if 2 ^ 32 ≤ cofre.encode.length then .error ⟨.invalidInput, "cofre exceeds u32 frame"⟩
  else if capacity < 4 + cofre.encode.length then .error ⟨.invalidInput, "frame larger than the ring"⟩
  else .ok ()

/-- The next value of the producer's cursor, if the frame fits. -/
def reserve (capacity write read total : ℕ) : Except IoError ℕ :=
  if write < read then .error ⟨.invalidData, "corrupt shmem ring cursors (read > write)"⟩
  else if capacity < write - read then .error ⟨.invalidData, "corrupt shmem ring cursors (used > capacity)"⟩
  else if capacity - (write - read) < total then .error ringFull
  else if 2 ^ 64 ≤ write + total then .error ⟨.invalidData, "corrupt shmem ring cursor (write overflow)"⟩
  else .ok (write + total)

/-- What `recv` checks of a length: the frame may not be written yet. -/
def checkLen (capacity avail len : ℕ) : Except IoError Bool :=
  if maxCofreWireLen < len then .error ⟨.invalidData, "ring frame exceeds the maximum cofre size"⟩
  else if capacity < 4 + len then .error ⟨.invalidData, "ring frame exceeds the ring capacity"⟩
  else .ok (4 + len ≤ avail)

/-- All of `n` bytes are copied. -/
def Complete (n : ℕ) (copied : List ℕ) : Prop := ∀ i < n, i ∈ copied

instance (n : ℕ) (copied : List ℕ) : Decidable (Complete n copied) :=
  inferInstanceAs (Decidable (∀ i < n, i ∈ copied))

/-- A step of the producer. -/
def stepProducer (capacity i : ℕ) (s : State) : State × Option Answer :=
  match s.producer with
  | .idle => (s, none)
  | .called cofre => ({ s with producer := .loaded cofre s.map.read }, none)
  | .loaded cofre read =>
    match reserve capacity s.map.write read (4 + cofre.encode.length) with
    | .error e => ({ s with producer := .idle }, some (.sent cofre (.error e)))
    | .ok nextWrite => ({ s with producer := .copying cofre s.map.write nextWrite [] }, none)
  | .copying cofre write nextWrite copied =>
    if Complete (frame cofre).length copied then
      ({ s with map.write := nextWrite, producer := .idle }, some (.sent cofre (.ok ())))
    else
      match (frame cofre)[i]? with
      | none => (s, none)
      | some byte =>
        ({ s with
            map.cells := s.map.cells.set (Ring.slot capacity write (frame cofre).length i) byte
            producer := .copying cofre write nextWrite (i :: copied) }, none)

/-- `recv` has all the bytes it wanted. -/
def completeRecv (capacity : ℕ) (s : State) (write read : ℕ) (dst : Bytes) : Option ℕ → State × Option Answer
  | none =>
    match checkLen capacity (write - read) (leNat dst) with
    | .error e => ({ s with consumer := .idle }, some (.received (.error e)))
    | .ok false => ({ s with consumer := .idle }, some (.received (.ok none)))
    | .ok true =>
      ({ s with consumer :=
          .copying write read (some (leNat dst)) (List.replicate (leNat dst) 0) [] }, none)
  | some len =>
    match Cofre.decode dst with
    | .error e => ({ s with consumer := .idle }, some (.received (.error ⟨.invalidData, errorText e⟩)))
    | .ok cofre =>
      ({ s with map.read := read + (4 + len), consumer := .idle }, some (.received (.ok (some cofre))))

/-- Where the bytes that are being copied start. -/
def source (read : ℕ) : Option ℕ → ℕ
  | none => read
  | some _ => read + 4

/-- A step of the consumer. -/
def stepConsumer (capacity i : ℕ) (s : State) : State × Option Answer :=
  match s.consumer with
  | .idle => (s, none)
  | .called => ({ s with consumer := .loaded s.map.write }, none)
  | .loaded write =>
    if write < s.map.read then
      ({ s with consumer := .idle },
        some (.received (.error ⟨.invalidData, "corrupt shmem ring cursors (read > write)"⟩)))
    else if write - s.map.read < 4 then ({ s with consumer := .idle }, some (.received (.ok none)))
    else ({ s with consumer := .copying write s.map.read none (List.replicate 4 0) [] }, none)
  | .copying write read len dst copied =>
    if Complete dst.length copied then completeRecv capacity s write read dst len
    else if i < dst.length then
      let byte := s.map.cells.getD (Ring.slot capacity (source read len) dst.length i) 0
      ({ s with consumer := .copying write read len (dst.set i byte) (i :: copied) }, none)
    else (s, none)

/-- Both sides over one mapping. -/
def machine (capacity : ℕ) : Machine State Event (Option Answer) where
  step s
    | .send cofre =>
      match s.producer with
      | .idle =>
        match checkFrame capacity cofre with
        | .error e => (s, some (.sent cofre (.error e)))
        | .ok () => ({ s with producer := .called cofre }, none)
      | _ => (s, none)
    | .producer i => stepProducer capacity i s
    | .recv =>
      match s.consumer with
      | .idle => ({ s with consumer := .called }, none)
      | _ => (s, none)
    | .consumer i => stepConsumer capacity i s

/-- A fresh ring. -/
def initial (capacity : ℕ) : State := ⟨⟨List.replicate capacity 0, 0, 0⟩, .idle, .idle⟩

end Shmem
end Datarail.Substrate
