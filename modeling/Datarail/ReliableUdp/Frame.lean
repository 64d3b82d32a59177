/-
# The frames of the reliable datagram mover

`crates/datarail-rail/src/reliable_udp.rs`: a datagram carries one or more frames.

| part | bytes |
| --- | ---: |
| sequence number, little-endian | 8 |
| kind, `1` data and `2` acknowledgement | 1 |
| payload length, little-endian | 4 |
| payload | at most 1200 |
| CRC-32 of the above, little-endian | 4 |

Frames that were packed into one datagram are read back in order (`framesOf_flatMap`).
-/

import Datarail.Lib.MachineInt

namespace Datarail.ReliableUdp

open Lib List

/-- Byte strings. -/
abbrev Bytes := List UInt8

/-- `KIND_DATA`. -/
def kindData : UInt8 := 1

/-- `KIND_ACK`. -/
def kindAck : UInt8 := 2

/-- `HEADER_LEN`. -/
def headerLen : ℕ := 8 + 1 + 4

/-- `CRC_LEN`. -/
def crcLen : ℕ := 4

/-- `MAX_FASP_PAYLOAD`. -/
def maxFaspPayload : ℕ := 1200

/-- `crc32`. -/
def crc32 (bytes : Bytes) : UInt32 := crc 0xEDB88320 bytes

/-- A frame. -/
structure Frame where
  seq : ℕ
  kind : UInt8
  payload : Bytes
  deriving DecidableEq

/-- The part of a frame that the checksum covers. -/
def frameBody (f : Frame) : Bytes :=
  leBytes 8 f.seq ++ [f.kind] ++ leBytes 4 (min f.payload.length (2 ^ 32 - 1)) ++ f.payload

/-- `encode_frame`; `encode_frame_into` appends it. -/
def encodeFrame (f : Frame) : Bytes := frameBody f ++ leBytes 4 (crc32 (frameBody f)).toNat

/-- `decode_frame_at`: the frame and its length. -/
def decodeFrameAt (dgram : Bytes) : Option (Frame × ℕ) :=
  if dgram.length < headerLen + crcLen then none
  else
    let len := leNat ((dgram.drop 9).take 4)
    if maxFaspPayload < len then none
    else
      let bodyLen := headerLen + len
      let frameLen := bodyLen + crcLen
      if dgram.length < frameLen then none
      else if leNat ((dgram.drop bodyLen).take 4) ≠ (crc32 (dgram.take bodyLen)).toNat then none
      else some (⟨leNat (dgram.take 8), dgram.getD 8 0, (dgram.drop headerLen).take len⟩, frameLen)

/-- The loop over a datagram; a frame has bytes, so as many rounds as bytes suffice. -/
def parse : (rounds : ℕ) → Bytes → List Frame
  | 0, _ => []
  | rounds + 1, dgram =>
    if dgram = [] then []
    else
      match decodeFrameAt dgram with
      | none => []
      | some (f, consumed) => f :: parse rounds (dgram.drop consumed)

/-- The frames of a datagram, up to the first that is malformed. -/
def framesOf (dgram : Bytes) : List Frame := parse dgram.length dgram

/-- A frame that the code may write. -/
structure Frame.Valid (f : Frame) : Prop where
  seq_lt : f.seq < 2 ^ 64
  payload_le : f.payload.length ≤ maxFaspPayload

variable {f : Frame}

theorem length_frameBody (f : Frame) : (frameBody f).length = headerLen + f.payload.length := by
  simp only [frameBody, length_append, length_leBytes, length_singleton, headerLen]

theorem length_encodeFrame (f : Frame) : (encodeFrame f).length = headerLen + f.payload.length + crcLen := by
  rw [encodeFrame, length_append, length_frameBody, length_leBytes]
  rfl

theorem encodeFrame_ne_nil (f : Frame) : encodeFrame f ≠ [] := by
  intro h
  have hlen := length_encodeFrame f
  rw [h, length_nil, headerLen] at hlen
  omega

/-- **A frame is read back**, whatever follows it. -/
theorem decodeFrameAt_append (hf : f.Valid) (rest : Bytes) :
    decodeFrameAt (encodeFrame f ++ rest) = some (f, (encodeFrame f).length) := by
  have hbody := length_frameBody f
  have hmax : maxFaspPayload < 2 ^ 32 - 1 := by decide
  have hlt := hf.payload_le
  have hmin : min f.payload.length (2 ^ 32 - 1) = f.payload.length := by omega
  -- the parts of the datagram
  have hparts : encodeFrame f ++ rest = leBytes 8 f.seq ++ ([f.kind] ++ (leBytes 4 f.payload.length ++
      (f.payload ++ (leBytes 4 (crc32 (frameBody f)).toNat ++ rest)))) := by
    simp only [encodeFrame, frameBody, hmin, append_assoc]
  have hlength : (encodeFrame f ++ rest).length = headerLen + f.payload.length + crcLen + rest.length := by
    rw [length_append, length_encodeFrame]
  have hseq : (encodeFrame f ++ rest).take 8 = leBytes 8 f.seq := by
    exact take_left' (length_leBytes 8 f.seq)
  have h8 : (encodeFrame f ++ rest).drop 8 = [f.kind] ++ (leBytes 4 f.payload.length ++
      (f.payload ++ (leBytes 4 (crc32 (frameBody f)).toNat ++ rest))) := by
    rw [hparts]
    exact drop_left' (length_leBytes 8 f.seq)
  have hkind : (encodeFrame f ++ rest).getD 8 0 = f.kind := by
    have h := congrArg (·[0]?) h8
    rw [getD_eq_getElem?_getD]
    simp only [getElem?_drop, Nat.add_zero] at h
    rfl
  have h9 : (encodeFrame f ++ rest).drop 9 = leBytes 4 f.payload.length ++
      (f.payload ++ (leBytes 4 (crc32 (frameBody f)).toNat ++ rest)) := by
    rw [show 9 = 8 + 1 from rfl, ← drop_drop, h8]
    rfl
  have hlen : leNat (((encodeFrame f ++ rest).drop 9).take 4) = f.payload.length := by
    rw [h9, take_left' (length_leBytes 4 _), leNat_leBytes_of_lt (by omega)]
  have hpayload : ((encodeFrame f ++ rest).drop headerLen).take f.payload.length = f.payload := by
    rw [show headerLen = 9 + 4 from rfl, ← drop_drop, h9, drop_left' (length_leBytes 4 _), take_left]
  have htake : (encodeFrame f ++ rest).take (headerLen + f.payload.length) = frameBody f := by
    rw [encodeFrame, append_assoc]
    exact take_left' hbody
  have hcrc : ((encodeFrame f ++ rest).drop (headerLen + f.payload.length)).take 4 =
      leBytes 4 (crc32 (frameBody f)).toNat := by
    rw [encodeFrame, append_assoc, drop_left' hbody, take_left' (length_leBytes 4 _)]
  have hcheck : leNat (leBytes 4 (crc32 (frameBody f)).toNat) = (crc32 (frameBody f)).toNat :=
    leNat_leBytes_of_lt (UInt32.toNat_lt _)
  have hseqNat : leNat (leBytes 8 f.seq) = f.seq := leNat_leBytes_of_lt (n := 8) hf.seq_lt
  rw [decodeFrameAt, if_neg (by omega)]
  simp only [hlen, if_neg (Nat.not_lt.2 hlt), hlength, hcrc, htake, hcheck, hseq, hkind, hpayload,
    hseqNat, length_encodeFrame, ne_eq, not_true_eq_false, if_false]
  rw [if_neg (by omega)]

theorem parse_flatMap {fs : List Frame} (hfs : ∀ f ∈ fs, f.Valid) {rounds : ℕ} (hrounds : fs.length ≤ rounds) :
    parse rounds (fs.flatMap encodeFrame) = fs := by
  induction fs generalizing rounds with
  | nil => cases rounds <;> rfl
  | cons f fs ih =>
    obtain ⟨rounds, rfl⟩ : ∃ n, rounds = n + 1 := ⟨rounds - 1, by simp at hrounds; omega⟩
    have hne : encodeFrame f ++ fs.flatMap encodeFrame ≠ [] := fun h => encodeFrame_ne_nil f (append_eq_nil_iff.1 h).1
    rw [flatMap_cons, parse, if_neg hne, decodeFrameAt_append (hfs f mem_cons_self)]
    simp only [drop_left]
    rw [ih (fun g hg => hfs g (mem_cons_of_mem _ hg)) (by simpa using hrounds)]

/-- **The frames of a datagram are those that were packed into it.** -/
theorem framesOf_flatMap {fs : List Frame} (hfs : ∀ f ∈ fs, f.Valid) : framesOf (fs.flatMap encodeFrame) = fs := by
  refine parse_flatMap hfs ?_
  clear hfs
  induction fs with
  | nil => exact Nat.zero_le _
  | cons f fs ih =>
    rw [flatMap_cons, length_append, length_encodeFrame, length_cons, headerLen]
    omega

theorem framesOf_encodeFrame (hf : f.Valid) : framesOf (encodeFrame f) = [f] := by
  have h : framesOf ([f].flatMap encodeFrame) = [f] := framesOf_flatMap (by simpa using hf)
  rwa [flatMap_singleton] at h

/-- What is read from a datagram fits its fields. -/
theorem valid_of_mem_framesOf {dgram : Bytes} (h : f ∈ framesOf dgram) : f.Valid := by
  rw [framesOf] at h
  generalize dgram.length = rounds at h
  induction rounds generalizing dgram with
  | zero => cases h
  | succ rounds ih =>
    rw [parse] at h
    split_ifs at h
    · cases h
    · split at h
      · cases h
      · rename_i g consumed hdecode
        rcases mem_cons.1 h with rfl | h
        · simp only [decodeFrameAt] at hdecode
          split_ifs at hdecode with hshort hlarge htrunc
          cases hdecode
          refine ⟨?_, ?_⟩
          · have hlt := leNat_lt (dgram.take 8)
            have hlen : (dgram.take 8).length = 8 := by
              rw [length_take]
              simp only [headerLen] at hshort
              omega
            rwa [hlen] at hlt
          · exact (length_take_le _ _).trans (Nat.not_lt.1 hlarge)
        · exact ih h

end Datarail.ReliableUdp
