/-
# The cofre on the wire

`crates/datarail-core/src/lib.rs` and `crates/datarail-cofre/src/lib.rs`: a cofre is a
header (`Etiqueta`), an opaque ciphertext (`carga`) and a signature (`lacre`).

| part | bytes |
| --- | ---: |
| magic `DRLC` | 4 |
| version | 1 |
| header length, little-endian | 4 |
| header | 222 |
| ciphertext length, little-endian | 8 |
| ciphertext | |
| signature | 64 |

Every field of the header has a fixed width, and `decode` reads it back in the order
`encode` writes it: `decode_encode`.
-/

import Datarail.Lib.MachineInt
import Datarail.Lib.Scan

namespace Datarail

open Lib List

/-- Byte strings. -/
abbrev Bytes := List UInt8

/-- `[u8; n]`. -/
abbrev Arr (n : ℕ) : Type := { bytes : Bytes // bytes.length = n }

/-- `[0u8; n]`. -/
def Arr.zero (n : ℕ) : Arr n := ⟨replicate n 0, length_replicate⟩

/-- `bytes[i..i + n].try_into().ok()`. -/
def slice (bytes : Bytes) (i n : ℕ) : Option (Arr n) :=
  if h : ((bytes.drop i).take n).length = n then some ⟨(bytes.drop i).take n, h⟩ else none

theorem slice_append {n i : ℕ} (before : Bytes) (a : Arr n) (after : Bytes)
    (h : before.length = i) : slice (before ++ (a.1 ++ after)) i n = some a := by
  have hcut : ((before ++ (a.1 ++ after)).drop i).take n = a.1 := by
    subst h
    rw [drop_left]
    exact take_left' a.2
  rw [slice, dif_pos (by rw [hcut, a.2])]
  exact congrArg some (Subtype.ext hcut)

/-- The AEAD a ciphertext was made with. -/
inductive AeadAlg where
  | gcmsiv256
  | chaCha20Poly1305
  | gcm256
  deriving DecidableEq, Repr

/-- The header of a cofre. -/
structure Etiqueta where
  routeId : Arr 16
  streamId : Arr 16
  seq : UInt64
  /-- The hash of the ciphertext. -/
  cofreId : Arr 32
  /-- The keyed hash of the record key: what the destination deduplicates on. -/
  idempotencyKey : Arr 32
  /-- The hash of the content contract. -/
  contractFp : Arr 32
  aeadAlg : AeadAlg
  nonce : Arr 12
  signerKeyId : Arr 32
  /-- The ephemeral public key the data key is wrapped with. -/
  ephPk : Arr 32
  /-- A sender certificate precedes the records inside the ciphertext. -/
  senderPresent : Bool
  ts : UInt64
  deriving DecidableEq

/-- A sealed cofre. -/
structure Cofre where
  etiqueta : Etiqueta
  carga : Bytes
  lacre : Arr 64
  deriving DecidableEq

/-- `CofreError`. -/
inductive CofreError where
  | truncated
  | badMagic
  | badVersion
  | badLength
  | badAead
  | cofreIdMismatch
  | signerMismatch
  | badSignature
  deriving DecidableEq, Repr

namespace Cofre

/-- `MAGIC`. -/
def magic : Bytes := [0x44, 0x52, 0x4c, 0x43]

/-- `VERSION`. -/
def version : UInt8 := 1

/-- `ETIQUETA_LEN`. -/
def etiquetaLen : ℕ := 16 + 16 + 8 + 32 + 32 + 32 + 1 + 12 + 32 + 32 + 1 + 8

/-- `aead_to_u8`. -/
def aeadToU8 : AeadAlg → UInt8
  | .gcmsiv256 => 1
  | .chaCha20Poly1305 => 2
  | .gcm256 => 3

/-- `aead_from_u8`. -/
def aeadFromU8 (b : UInt8) : Option AeadAlg :=
  if b = 1 then some .gcmsiv256
  else if b = 2 then some .chaCha20Poly1305
  else if b = 3 then some .gcm256
  else none

/-- `u64::to_le_bytes`. -/
def u64Bytes (x : UInt64) : Bytes := leBytes 8 x.toNat

/-- `u8::from` on a flag. -/
def flagByte (b : Bool) : UInt8 := if b then 1 else 0

/-- `encode_etiqueta`. -/
def encodeEtiqueta (e : Etiqueta) : Bytes :=
  e.routeId.1 ++ e.streamId.1 ++ u64Bytes e.seq ++ e.cofreId.1 ++ e.idempotencyKey.1 ++
    e.contractFp.1 ++ [aeadToU8 e.aeadAlg] ++ e.nonce.1 ++ e.signerKeyId.1 ++ e.ephPk.1 ++
    [flagByte e.senderPresent] ++ u64Bytes e.ts

/-- `signed_region`: all that precedes the signature. -/
def signedRegion (e : Etiqueta) (carga : Bytes) : Bytes :=
  let et := encodeEtiqueta e
  magic ++ [version] ++ leBytes 4 (min et.length (2 ^ 32 - 1)) ++ et ++
    leBytes 8 (min carga.length (2 ^ 64 - 1)) ++ carga

/-- `encode`. -/
def encode (c : Cofre) : Bytes := signedRegion c.etiqueta c.carga ++ c.lacre.1

/-- `Reader`. -/
abbrev Reader := Scan CofreError UInt8

/-- `Reader::take`; a position past the address space is its own error. -/
def take (n : ℕ) : Reader Bytes := ⟨fun c =>
  (Scan.take (if 2 ^ 64 ≤ c.pos + n then .badLength else .truncated) n).run c⟩

/-- `Reader::take_arr`. -/
def takeArr (n : ℕ) : Reader (Arr n) := do
  let bytes ← take n
  if h : bytes.length = n then return ⟨bytes, h⟩ else .fail .truncated

/-- One byte: `take(1)?[0]`. -/
def takeByte : Reader UInt8 := do return (← take 1).headD 0

/-- `Reader::take_u32`. -/
def takeU32 : Reader ℕ := do return leNat (← take 4)

/-- `Reader::take_u64`. -/
def takeU64 : Reader UInt64 := do return UInt64.ofNat (leNat (← take 8))

/-- The selector of a ciphertext. -/
def takeAead : Reader AeadAlg := do
  let b ← takeByte
  match aeadFromU8 b with
  | some alg => return alg
  | none => .fail .badAead

/-- `parse_etiqueta`. -/
def parseEtiqueta : Reader Etiqueta := do
  let routeId ← takeArr 16
  let streamId ← takeArr 16
  let seq ← takeU64
  let cofreId ← takeArr 32
  let idempotencyKey ← takeArr 32
  let contractFp ← takeArr 32
  let aeadAlg ← takeAead
  let nonce ← takeArr 12
  let signerKeyId ← takeArr 32
  let ephPk ← takeArr 32
  let sender ← takeByte
  let ts ← takeU64
  return {
    routeId, streamId, seq, cofreId, idempotencyKey, contractFp, aeadAlg, nonce, signerKeyId
    ephPk, senderPresent := decide (sender ≠ 0), ts }

/-- `decode` up to the last check. -/
def readCofre : Reader Cofre := do
  let m ← take 4
  Scan.require .badMagic (m = magic)
  let v ← takeByte
  Scan.require .badVersion (v = version)
  let etqLen ← takeU32
  Scan.require .badLength (etqLen = etiquetaLen)
  let header ← take etqLen
  let parsed ← Scan.lift (parseEtiqueta.run (.new header))
  let cargaLen ← takeU64
  let carga ← take cargaLen.toNat
  let lacre ← takeArr 64
  return { etiqueta := parsed.1, carga, lacre }

/-- `decode`: nothing may follow the signature. -/
def decode (bytes : Bytes) : Except CofreError Cofre :=
  match readCofre.run (.new bytes) with
  | .ok (c, cursor) => if cursor.pos = bytes.length then .ok c else .error .badLength
  | .error e => .error e

variable {n : ℕ}

theorem reads_take {w : Bytes} (h : w.length = n) : Scan.Reads (take n) w w :=
  fun c rest hpos hw => Scan.Reads.take_of_length _ h c rest hpos hw

theorem reads_takeArr (a : Arr n) : Scan.Reads (takeArr n) a.1 a := by
  have h : Scan.Reads (takeArr n) (a.1 ++ []) a := by
    refine (reads_take a.2).bind ?_
    rw [dif_pos a.2]
    exact Scan.Reads.pure _
  rwa [append_nil] at h

theorem reads_takeByte (b : UInt8) : Scan.Reads takeByte [b] b :=
  (reads_take (w := [b]) rfl).map fun bytes => bytes.headD 0

theorem reads_takeU32 (h : n < 2 ^ 32) : Scan.Reads takeU32 (leBytes 4 n) n := by
  have hread := (reads_take (length_leBytes 4 n)).map leNat
  rwa [leNat_leBytes_of_lt h] at hread

theorem reads_takeU64 (x : UInt64) : Scan.Reads takeU64 (u64Bytes x) x := by
  have hread := (reads_take (length_leBytes 8 x.toNat)).map fun bytes => UInt64.ofNat (leNat bytes)
  rwa [leNat_leBytes_of_lt x.toNat_lt, UInt64.ofNat_toNat] at hread

theorem reads_takeAead (alg : AeadAlg) : Scan.Reads takeAead [aeadToU8 alg] alg := by
  have h : Scan.Reads takeAead ([aeadToU8 alg] ++ []) alg := by
    refine (reads_takeByte _).bind ?_
    cases alg <;> exact Scan.Reads.pure _
  exact h

theorem flagByte_ne_zero (b : Bool) : decide (flagByte b ≠ 0) = b := by cases b <;> rfl

/-- The bytes of a header, with this byte for the flag. -/
def headerBytes (e : Etiqueta) (flag : UInt8) : Bytes :=
  e.routeId.1 ++ e.streamId.1 ++ u64Bytes e.seq ++ e.cofreId.1 ++ e.idempotencyKey.1 ++
    e.contractFp.1 ++ [aeadToU8 e.aeadAlg] ++ e.nonce.1 ++ e.signerKeyId.1 ++ e.ephPk.1 ++
    [flag] ++ u64Bytes e.ts

variable {flag : UInt8}

/-- A header is read back, whichever byte stands for its flag. -/
theorem reads_headerBytes {e : Etiqueta} (h : e.senderPresent = decide (flag ≠ 0)) :
    Scan.Reads parseEtiqueta (headerBytes e flag) e := by
  have hlast := (reads_takeU64 e.ts).map fun ts => ({ e with ts := ts } : Etiqueta)
  simp only [headerBytes, append_assoc]
  refine (reads_takeArr e.routeId).bind ((reads_takeArr e.streamId).bind ?_)
  refine (reads_takeU64 e.seq).bind ((reads_takeArr e.cofreId).bind ?_)
  refine (reads_takeArr e.idempotencyKey).bind ((reads_takeArr e.contractFp).bind ?_)
  refine (reads_takeAead e.aeadAlg).bind ((reads_takeArr e.nonce).bind ?_)
  refine (reads_takeArr e.signerKeyId).bind ((reads_takeArr e.ephPk).bind ?_)
  refine (reads_takeByte _).bind ?_
  rw [← h]
  exact hlast

/-- A header is read back. -/
theorem reads_parseEtiqueta (e : Etiqueta) : Scan.Reads parseEtiqueta (encodeEtiqueta e) e :=
  reads_headerBytes (flagByte_ne_zero e.senderPresent).symm

@[simp] theorem length_encodeEtiqueta (e : Etiqueta) : (encodeEtiqueta e).length = etiquetaLen := by
  simp only [encodeEtiqueta, u64Bytes, length_append, length_leBytes, e.routeId.2, e.streamId.2,
    e.cofreId.2, e.idempotencyKey.2, e.contractFp.2, e.nonce.2, e.signerKeyId.2, e.ephPk.2,
    length_singleton]
  rfl

theorem encodeEtiqueta_inj {e e' : Etiqueta} (h : encodeEtiqueta e = encodeEtiqueta e') : e = e' := by
  have he := (reads_parseEtiqueta e).run_new
  rw [h, (reads_parseEtiqueta e').run_new] at he
  exact (Prod.mk.inj (Except.ok.inj he)).1.symm

/-- The signature covers the whole header and the whole ciphertext. -/
theorem signedRegion_inj {e e' : Etiqueta} {carga carga' : Bytes}
    (h : signedRegion e carga = signedRegion e' carga') : e = e' ∧ carga = carga' := by
  simp only [signedRegion, append_assoc, length_encodeEtiqueta] at h
  obtain ⟨-, h⟩ := append_inj h rfl
  obtain ⟨-, h⟩ := append_inj h rfl
  obtain ⟨-, h⟩ := append_inj h rfl
  obtain ⟨header, h⟩ := append_inj h (by rw [length_encodeEtiqueta, length_encodeEtiqueta])
  obtain ⟨-, hcarga⟩ := append_inj h (by rw [length_leBytes, length_leBytes])
  exact ⟨encodeEtiqueta_inj header, hcarga⟩

/-- A ciphertext a machine can hold. -/
def Fits (c : Cofre) : Prop := c.carga.length < 2 ^ 64

/-- The bytes of a cofre, with this byte for the flag of its header. -/
def wireBytes (c : Cofre) (flag : UInt8) : Bytes :=
  magic ++ [version] ++ leBytes 4 etiquetaLen ++ headerBytes c.etiqueta flag ++
    leBytes 8 (min c.carga.length (2 ^ 64 - 1)) ++ c.carga ++ c.lacre.1

@[simp] theorem length_headerBytes (e : Etiqueta) (flag : UInt8) : (headerBytes e flag).length = etiquetaLen := by
  simp only [headerBytes, u64Bytes, length_append, length_leBytes, e.routeId.2, e.streamId.2,
    e.cofreId.2, e.idempotencyKey.2, e.contractFp.2, e.nonce.2, e.signerKeyId.2, e.ephPk.2,
    length_singleton]
  rfl

theorem encode_eq_wireBytes (c : Cofre) : encode c = wireBytes c (flagByte c.etiqueta.senderPresent) := by
  simp only [encode, signedRegion, length_encodeEtiqueta]
  rfl

variable {c : Cofre}

theorem reads_wireBytes (h : c.Fits)
    (hflag : c.etiqueta.senderPresent = decide (flag ≠ 0)) : Scan.Reads readCofre (wireBytes c flag) c := by
  have hlen : min c.carga.length (2 ^ 64 - 1) = (UInt64.ofNat c.carga.length).toNat := by
    rw [UInt64.toNat_ofNat_of_lt' h]
    unfold Fits at h
    omega
  have hcarga : (UInt64.ofNat c.carga.length).toNat = c.carga.length := UInt64.toNat_ofNat_of_lt' h
  have hheader := (reads_headerBytes hflag).run_new
  have hlast := (reads_takeArr c.lacre).map fun lacre => ({ c with lacre := lacre } : Cofre)
  simp only [wireBytes, append_assoc]
  refine (reads_take rfl).bind ((Scan.Reads.require rfl).andThen ?_)
  refine (reads_takeByte _).bind ((Scan.Reads.require rfl).andThen ?_)
  refine (reads_takeU32 (by decide)).bind ((Scan.Reads.require rfl).andThen ?_)
  refine (reads_take (length_headerBytes _ _)).bind ((Scan.Reads.lift hheader).andThen ?_)
  rw [hlen]
  refine (reads_takeU64 _).bind ((reads_take hcarga.symm).bind ?_)
  exact hlast

theorem decode_wireBytes (h : c.Fits)
    (hflag : c.etiqueta.senderPresent = decide (flag ≠ 0)) : decode (wireBytes c flag) = .ok c := by
  rw [decode, (reads_wireBytes h hflag).run_new]
  exact if_pos rfl

/-- **A cofre survives the wire.** -/
theorem decode_encode (h : c.Fits) : decode (encode c) = .ok c := by
  rw [encode_eq_wireBytes]
  exact decode_wireBytes h (flagByte_ne_zero c.etiqueta.senderPresent).symm

/-- The wire form costs 303 bytes. -/
theorem length_encode (c : Cofre) : (encode c).length = c.carga.length + 303 := by
  simp only [encode, signedRegion, length_append, length_leBytes, length_encodeEtiqueta, c.lacre.2, length_singleton]
  rw [show magic.length = 4 from rfl, show etiquetaLen = 222 from rfl]
  omega

end Cofre
end Datarail
