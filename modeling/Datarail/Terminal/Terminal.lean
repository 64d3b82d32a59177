/-
# The terminals

`crates/datarail-terminal/src/lib.rs`.  A source terminal checks a batch of records
against its content contract, frames it and seals it into a cofre (`boardAt`, `board`).
A destination terminal verifies the cofre, opens it, checks the records against its own
contract and lets its once-gate decide (`openRecords`, `offload`).

`Paired` says that two terminals are the ends of one route.  Then what the source boards
the destination opens (`openRecords_boardAt`), and delivers if the gate has seen neither
its number nor its key (`offload_boardAt`).
-/

import Datarail.Cofre.Seal
import Datarail.Once.Gate
import Datarail.Terminal.Framing

namespace Datarail.Terminal

open Lib Once List Crypto

/-- `ContentContract`. -/
structure ContentContract where
  fingerprint : Arr 32
  maxRecordLen : ℕ
  requiredPrefix : Bytes

namespace ContentContract

/-- `ContentContract::new`: the fingerprint commits to the rules. -/
def new (C : Crypto) (maxRecordLen : ℕ) (requiredPrefix : Bytes) : ContentContract :=
  { fingerprint := C.blake3 (leBytes 8 maxRecordLen ++ requiredPrefix), maxRecordLen, requiredPrefix }

/-- `ContentContract::validate`. -/
def validate (c : ContentContract) (record : Bytes) : Bool :=
  !record.isEmpty && decide (record.length ≤ c.maxRecordLen) && c.requiredPrefix.isPrefixOf record

end ContentContract

/-- `SENDER_CERT_LEN`. -/
def senderCertLen : ℕ := 32 + 32 + 8 + 64 + 64

/-- `cert_identity_msg`. -/
def certIdentityMsg (senderId senderVk : Arr 32) (epoch : UInt64) : Bytes :=
  senderId.1 ++ senderVk.1 ++ Cofre.u64Bytes epoch

/-- `cert_binding_msg`. -/
def certBindingMsg (ephPk : Arr 32) (epoch : UInt64) : Bytes := ephPk.1 ++ Cofre.u64Bytes epoch

/-- `issue_sender_cert`. -/
def issueSenderCert (C : Crypto) (issuerSeed senderId senderVk : Arr 32) (epoch : UInt64) : Arr 64 :=
  C.signDomain ctxCert issuerSeed (certIdentityMsg senderId senderVk epoch)

/-- `SenderCredential`. -/
structure SenderCredential where
  senderId : Arr 32
  senderSeed : Arr 32
  epoch : UInt64
  issuerSig : Arr 64

/-- `SenderCredential::encode`. -/
def SenderCredential.encode (C : Crypto) (cred : SenderCredential) (ephPk : Arr 32) : Bytes :=
  cred.senderId.1 ++ (C.verifyingKey cred.senderSeed).1 ++ Cofre.u64Bytes cred.epoch ++ cred.issuerSig.1 ++
    (C.signDomain ctxCert cred.senderSeed (certBindingMsg ephPk cred.epoch)).1

/-- `validate_sender_cert`. -/
def validateSenderCert (C : Crypto) (bytes : Bytes) (ephPk pinnedIssuerVk : Arr 32)
    (minEpoch : UInt64) : Option (Arr 32) :=
  if bytes.length ≠ senderCertLen then none
  else do
    let senderId ← slice bytes 0 32
    let senderVk ← slice bytes 32 32
    let epochBytes ← slice bytes 64 8
    let epoch := UInt64.ofNat (leNat epochBytes.1)
    if epoch < minEpoch then none
    else do
      let issuerSig ← slice bytes 72 64
      let senderSig ← slice bytes 136 64
      if !C.verifyDomain ctxCert pinnedIssuerVk (certIdentityMsg senderId senderVk epoch) issuerSig then none
      else if !C.verifyDomain ctxCert senderVk (certBindingMsg ephPk epoch) senderSig then none
      else some senderId

/-- `TerminalConfig`, held by both ends of a route. -/
structure TerminalConfig where
  routeId : Arr 16
  streamId : Arr 16
  aeadAlg : AeadAlg
  destX25519Pk : Arr 32
  tenantSecret : Arr 32

/-- `SourceTerminal`. -/
structure SourceTerminal where
  config : TerminalConfig
  contract : ContentContract
  sourceSeed : Arr 32
  /-- The number the next boarded cofre gets. -/
  seq : UInt64
  /-- The numbers reserved so far, by partition. -/
  seqPerPartition : Table ℕ ℕ
  sender : Option SenderCredential

/-- The random draws of one boarding: `none` where the source of entropy cannot be read. -/
structure Draws where
  ephSecret : Option (Arr 32)
  nonce : Option (Arr 32)

/-- `aead_aad`: the header fields that are final before the ciphertext exists. -/
def aeadAad (e : Etiqueta) : Bytes :=
  e.routeId.1 ++ e.streamId.1 ++ Cofre.u64Bytes e.seq ++ e.idempotencyKey.1 ++ e.contractFp.1 ++
    [Cofre.aeadToU8 e.aeadAlg] ++ e.nonce.1 ++ e.ephPk.1 ++ [Cofre.flagByte e.senderPresent] ++
    Cofre.u64Bytes e.ts

/-- The first 12 bytes of a draw. -/
def nonceOf (draw : Arr 32) : Arr 12 := ⟨draw.1.take 12, by rw [length_take, draw.2]; rfl⟩

namespace SourceTerminal

variable (C : Crypto)

/-- `SourceTerminal::new`. -/
def new (config : TerminalConfig) (contract : ContentContract) (sourceSeed : Arr 32) :
    SourceTerminal :=
  { config, contract, sourceSeed, seq := 0, seqPerPartition := .empty, sender := none }

/-- What is encrypted: the records, after the sender's certificate if there is one. -/
def inner (t : SourceTerminal) (ephPk : Arr 32) (batch : Bytes) : Bytes :=
  match t.sender with
  | some cred => cred.encode C ephPk ++ batch
  | none => batch

/-- The header of a cofre, before it is sealed. -/
def header (t : SourceTerminal) (recordKey : Bytes) (seq : UInt64) (nonce : Arr 12) (ephPk : Arr 32) :
    Etiqueta :=
  { routeId := t.config.routeId
    streamId := t.config.streamId
    seq
    cofreId := Arr.zero 32
    idempotencyKey := C.keyedHash t.config.tenantSecret recordKey
    contractFp := t.contract.fingerprint
    aeadAlg := t.config.aeadAlg
    nonce
    signerKeyId := Arr.zero 32
    ephPk
    senderPresent := t.sender.isSome
    ts := 0 }

/-- `board_at`. -/
def boardAt (t : SourceTerminal) (draws : Draws) (records : List Bytes) (recordKey : Bytes)
    (seq : UInt64) : Except TerminalError Cofre :=
  if !records.all t.contract.validate then .error .contractViolation
  else do
    let batch ← frameBatch records
    match draws.ephSecret with
    | none => .error .entropy
    | some ephSecret =>
      match C.sealKey t.config.destX25519Pk ephSecret with
      | none => .error .seal
      | some (ephPk, dataKey) =>
        match draws.nonce with
        | none => .error .entropy
        | some draw =>
          let etiqueta := t.header C recordKey seq (nonceOf draw) ephPk
          match C.aeadSeal t.config.aeadAlg dataKey etiqueta.nonce (aeadAad etiqueta) (t.inner C ephPk batch) with
          | none => .error .seal
          | some carga => .ok (Cofre.seal C etiqueta carga t.sourceSeed)

/-- `board`: the counter moves only if the batch boards. -/
def board (t : SourceTerminal) (draws : Draws) (records : List Bytes) (recordKey : Bytes) :
    Except TerminalError (Cofre × SourceTerminal) := do
  let cofre ← t.boardAt C draws records recordKey t.seq
  return (cofre, { t with seq := t.seq + 1 })

/-- `reserve_seqs`: the first of `n` numbers of a partition. -/
def reserveSeqs (t : SourceTerminal) (partitionId n : ℕ) : ℕ × SourceTerminal :=
  let start := (t.seqPerPartition.get partitionId).getD 0
  (start, { t with
    seqPerPartition := t.seqPerPartition.insert partitionId (min (start + n) (2 ^ 64 - 1)) })

end SourceTerminal

/-- `DeadLetterReason`. -/
inductive DeadLetterReason where
  | sealFailed (error : CofreError)
  | routeMismatch
  | contractFingerprintMismatch
  | openFailed
  | keyWrapInvalid
  | malformedBatch
  | contractViolation
  | senderCertInvalid
  deriving DecidableEq, Repr

/-- `DeadLetterSiding`. -/
structure DeadLetterSiding where
  entries : List (Cofre × DeadLetterReason)
  dropped : ℕ

/-- `MAX_DEAD_LETTERS_RETAINED`. -/
def maxDeadLettersRetained : ℕ := 1024

/-- `DeadLetterSiding::push`. -/
def DeadLetterSiding.push (d : DeadLetterSiding) (cofre : Cofre) (reason : DeadLetterReason) :
    DeadLetterSiding :=
  if maxDeadLettersRetained ≤ d.entries.length then
    { entries := d.entries.tail ++ [(cofre, reason)], dropped := min (d.dropped + 1) (2 ^ 64 - 1) }
  else { d with entries := d.entries ++ [(cofre, reason)] }

/-- `DestTerminal`. -/
structure DestTerminal where
  config : TerminalConfig
  contract : ContentContract
  pinnedSourceVk : Arr 32
  destX25519Secret : Arr 32
  senderIssuerVk : Option (Arr 32)
  minSenderEpoch : UInt64
  lastSenderId : Option (Arr 32)
  once : Gate (Arr 16) (Arr 32)
  /-- The records committed and not taken. -/
  committed : List Bytes
  deadLetters : DeadLetterSiding

namespace DestTerminal

variable (C : Crypto)

/-- `DestTerminal::new`. -/
def new (config : TerminalConfig) (contract : ContentContract)
    (pinnedSourceVk destX25519Secret : Arr 32) : DestTerminal :=
  { config, contract, pinnedSourceVk, destX25519Secret, senderIssuerVk := none, minSenderEpoch := 0
    lastSenderId := none, once := .new, committed := [], deadLetters := ⟨[], 0⟩ }

/-- The split of the plaintext into certificate and records. -/
def splitSender (t : DestTerminal) (e : Etiqueta) (batch : Bytes) : Except DeadLetterReason (Bytes × Option (Arr 32)) :=
  if e.senderPresent then
    match t.senderIssuerVk with
    | none => .error .senderCertInvalid
    | some issuerVk =>
      if batch.length < senderCertLen then .error .senderCertInvalid
      else
        match validateSenderCert C (batch.take senderCertLen) e.ephPk issuerVk t.minSenderEpoch with
        | some sid => .ok (batch.drop senderCertLen, some sid)
        | none => .error .senderCertInvalid
  else .ok (batch, none)

/-- The last steps of `open_records`: un-frame and check the records again. -/
def checkRecords (t : DestTerminal) (recordBytes : Bytes) : Except DeadLetterReason (List Bytes) :=
  match unframeBatch recordBytes with
  | .error _ => .error .malformedBatch
  | .ok records =>
    if !records.all t.contract.validate then .error .contractViolation else .ok records

/-- `open_records`. -/
def openRecords (t : DestTerminal) (cofre : Cofre) : Except DeadLetterReason (List Bytes × Option (Arr 32)) :=
  match cofre.verify C t.pinnedSourceVk with
  | .error e => .error (.sealFailed e)
  | .ok () =>
    if cofre.etiqueta.routeId ≠ t.config.routeId ∨ cofre.etiqueta.streamId ≠ t.config.streamId then
      .error .routeMismatch
    else if cofre.etiqueta.contractFp ≠ t.contract.fingerprint then
      .error .contractFingerprintMismatch
    else
      match C.openKey t.destX25519Secret cofre.etiqueta.ephPk with
      | none => .error .keyWrapInvalid
      | some dataKey =>
        match C.aeadOpen cofre.etiqueta.aeadAlg dataKey cofre.etiqueta.nonce (aeadAad cofre.etiqueta) cofre.carga with
        | none => .error .openFailed
        | some batch => do
            let (recordBytes, senderId) ← t.splitSender C cofre.etiqueta batch
            let records ← t.checkRecords recordBytes
            return (records, senderId)

/-- `open`. -/
def «open» (t : DestTerminal) (cofre : Cofre) : Option (List Bytes) :=
  match t.openRecords C cofre with
  | .ok (records, _) => some records
  | .error _ => none

/-- `offload`. -/
def offload (t : DestTerminal) (cofre : Cofre) : DestTerminal × Disposition :=
  match t.openRecords C cofre with
  | .error reason => ({ t with deadLetters := t.deadLetters.push cofre reason }, .deadLettered)
  | .ok (records, senderId) =>
    let (once, disposition) :=
      t.once.admitSeq cofre.etiqueta.streamId cofre.etiqueta.seq.toNat cofre.etiqueta.idempotencyKey
    let t := { t with once }
    match disposition with
    | .delivered =>
      ({ t with committed := t.committed ++ records, lastSenderId := senderId }, .delivered)
    | other => (t, other)

end DestTerminal

section Route

variable {C : Crypto} {src : SourceTerminal} {dst : DestTerminal}

variable {draws : Draws} {records : List Bytes} {recordKey : Bytes} {seq : UInt64} {cofre : Cofre}

/-- What a boarded cofre is made of. -/
theorem boardAt_ok (h : src.boardAt C draws records recordKey seq = .ok cofre) :
    ∃ batch ephSecret draw ephPk dataKey nonce carga,
      records.all src.contract.validate = true ∧ frameBatch records = .ok batch ∧
      draws.ephSecret = some ephSecret ∧ draws.nonce = some draw ∧
      C.sealKey src.config.destX25519Pk ephSecret = some (ephPk, dataKey) ∧
      C.aeadSeal src.config.aeadAlg dataKey nonce (aeadAad (src.header C recordKey seq nonce ephPk))
        (src.inner C ephPk batch) = some carga ∧
      cofre = Cofre.seal C (src.header C recordKey seq nonce ephPk) carga src.sourceSeed := by
  unfold SourceTerminal.boardAt at h
  split_ifs at h with hvalid
  rw [Bool.not_eq_true', Bool.not_eq_false] at hvalid
  cases hbatch : frameBatch records with
  | error e =>
    rw [hbatch] at h
    cases h
  | ok batch =>
    rw [hbatch] at h
    change (match draws.ephSecret with | none => _ | some _ => _) = _ at h
    split at h
    · cases h
    · rename_i ephSecret heph
      split at h
      · cases h
      · rename_i ephPk dataKey hkey
        split at h
        · cases h
        · rename_i draw hdraw
          dsimp only at h
          split at h
          · cases h
          · rename_i carga hcarga
            cases h
            exact ⟨batch, ephSecret, draw, ephPk, dataKey, nonceOf draw, carga, hvalid, rfl, heph,
              hdraw, hkey, hcarga, rfl⟩

/-- A source whose entropy and keys work boards every batch that conforms and fits. -/
theorem boardAt_of_valid {batch : Bytes} (hvalid : records.all src.contract.validate = true)
    (hbatch : frameBatch records = .ok batch) (heph : draws.ephSecret.isSome)
    (hnonce : draws.nonce.isSome)
    (hkey : ∀ eph, (C.diffieHellman eph src.config.destX25519Pk).isSome)
    (hlen : ∀ ephPk, (src.inner C ephPk batch).length < 2 ^ 35) :
    ∃ cofre, src.boardAt C draws records recordKey seq = .ok cofre := by
  obtain ⟨eph, heph⟩ := Option.isSome_iff_exists.1 heph
  obtain ⟨draw, hnonce⟩ := Option.isSome_iff_exists.1 hnonce
  obtain ⟨shared, hshared⟩ := Option.isSome_iff_exists.1 (hkey eph)
  have hseal : C.sealKey src.config.destX25519Pk eph = some (C.x25519Public eph,
      C.kdfDataKey shared (C.x25519Public eph) src.config.destX25519Pk) := by
    rw [sealKey, hshared]
    rfl
  obtain ⟨carga, hcarga⟩ := Option.isSome_iff_exists.1 (C.aeadSeal_isSome src.config.aeadAlg
    (C.kdfDataKey shared (C.x25519Public eph) src.config.destX25519Pk) (nonceOf draw)
    (aeadAad (src.header C recordKey seq (nonceOf draw) (C.x25519Public eph)))
    (src.inner C (C.x25519Public eph) batch) (hlen _))
  refine ⟨Cofre.seal C (src.header C recordKey seq (nonceOf draw) (C.x25519Public eph)) carga src.sourceSeed, ?_⟩
  unfold SourceTerminal.boardAt
  rw [if_neg (by rw [hvalid]; exact Bool.false_ne_true), hbatch]
  change (match draws.ephSecret with | none => _ | some _ => _) = _
  simp only [heph, hseal, hnonce]
  have hnonceEq : (src.header C recordKey seq (nonceOf draw) (C.x25519Public eph)).nonce = nonceOf draw := rfl
  rw [hnonceEq, hcarga]

/-- The certificate of a credential has its fixed length. -/
theorem length_encode (cred : SenderCredential) (ephPk : Arr 32) : (cred.encode C ephPk).length = senderCertLen := by
  simp only [SenderCredential.encode, length_append, cred.senderId.2,
    (C.verifyingKey cred.senderSeed).2, cred.issuerSig.2, Cofre.u64Bytes, length_leBytes,
    (C.signDomain ctxCert cred.senderSeed (certBindingMsg ephPk cred.epoch)).2]
  rfl

/-- A credential that the issuer vouched for passes at a destination that pins the issuer. -/
theorem validateSenderCert_encode {cred : SenderCredential} {issuerSeed : Arr 32} {minEpoch : UInt64}
    (ephPk : Arr 32) (hsig : cred.issuerSig =
      issueSenderCert C issuerSeed cred.senderId (C.verifyingKey cred.senderSeed) cred.epoch)
    (hepoch : ¬ cred.epoch < minEpoch) :
    validateSenderCert C (cred.encode C ephPk) ephPk (C.verifyingKey issuerSeed) minEpoch = some cred.senderId := by
  let vk := C.verifyingKey cred.senderSeed
  let epoch : Arr 8 := ⟨Cofre.u64Bytes cred.epoch, length_leBytes 8 _⟩
  let sig := C.signDomain ctxCert cred.senderSeed (certBindingMsg ephPk cred.epoch)
  have hcert : cred.encode C ephPk = cred.senderId.1 ++ (vk.1 ++ (epoch.1 ++ (cred.issuerSig.1 ++ sig.1))) := by
    simp only [SenderCredential.encode, append_assoc, vk, epoch, sig]
  have h₀ : slice (cred.encode C ephPk) 0 32 = some cred.senderId := by
    rw [hcert]
    exact slice_append [] _ _ rfl
  have h₁ : slice (cred.encode C ephPk) 32 32 = some vk := by
    rw [hcert]
    exact slice_append _ _ _ cred.senderId.2
  have h₂ : slice (cred.encode C ephPk) 64 8 = some epoch := by
    rw [hcert, ← append_assoc]
    exact slice_append _ _ _ (by rw [length_append, cred.senderId.2, vk.2])
  have h₃ : slice (cred.encode C ephPk) 72 64 = some cred.issuerSig := by
    rw [hcert, ← append_assoc, ← append_assoc]
    exact slice_append _ _ _ (by
      rw [length_append, length_append, cred.senderId.2, vk.2, epoch.2])
  have h₄ : slice (cred.encode C ephPk) 136 64 = some sig := by
    rw [hcert, ← append_assoc, ← append_assoc, ← append_assoc, ← append_nil sig.1]
    exact slice_append _ _ _ (by
      rw [length_append, length_append, length_append, cred.senderId.2, vk.2, epoch.2, cred.issuerSig.2])
  have hepochEq : UInt64.ofNat (leNat epoch.1) = cred.epoch := by
    have hread : leNat epoch.1 = cred.epoch.toNat := leNat_leBytes_of_lt cred.epoch.toNat_lt
    rw [hread, UInt64.ofNat_toNat]
  have hissuer := C.verifyDomain_signDomain ctxCert issuerSeed (certIdentityMsg cred.senderId vk cred.epoch)
  have hbinding : C.verifyDomain ctxCert vk (certBindingMsg ephPk cred.epoch) sig = true :=
    C.verifyDomain_signDomain ctxCert cred.senderSeed (certBindingMsg ephPk cred.epoch)
  rw [validateSenderCert, if_neg (fun h => h (length_encode cred ephPk)), h₀, h₁, h₂]
  simp only [Option.bind_eq_bind, Option.bind_some, hepochEq, if_neg hepoch, h₃, h₄, hbinding]
  rw [hsig, issueSenderCert, hissuer]
  rfl

/-- Two terminals are the ends of one route: they share configuration and contract, and
the destination pins the keys the source uses. -/
structure Paired (C : Crypto) (src : SourceTerminal) (dst : DestTerminal) : Prop where
  config : dst.config = src.config
  contract : dst.contract = src.contract
  pinned : dst.pinnedSourceVk = C.verifyingKey src.sourceSeed
  wrapped : src.config.destX25519Pk = C.x25519Public dst.destX25519Secret
  vouched : ∀ cred, src.sender = some cred → ∃ issuerSeed,
    dst.senderIssuerVk = some (C.verifyingKey issuerSeed) ∧ ¬ cred.epoch < dst.minSenderEpoch ∧
    cred.issuerSig = issueSenderCert C issuerSeed cred.senderId (C.verifyingKey cred.senderSeed) cred.epoch

/-- The destination finds the records behind the certificate. -/
theorem splitSender_inner (hpaired : Paired C src dst) {e : Etiqueta} (batch : Bytes)
    (he : e.senderPresent = src.sender.isSome) :
    dst.splitSender C e (src.inner C e.ephPk batch) = .ok (batch, src.sender.map SenderCredential.senderId) := by
  cases hsender : src.sender with
  | none =>
    simp only [DestTerminal.splitSender, he, SourceTerminal.inner, hsender]
    rfl
  | some cred =>
    obtain ⟨issuerSeed, hissuer, hepoch, hsig⟩ := hpaired.vouched cred hsender
    have hcut := length_encode (C := C) cred e.ephPk
    have hlong : ¬ (cred.encode C e.ephPk ++ batch).length < senderCertLen := by
      rw [length_append, hcut]
      omega
    simp only [DestTerminal.splitSender, he, SourceTerminal.inner, hsender, hissuer,
      Option.isSome_some, if_true, if_neg hlong]
    rw [← hcut, take_left, drop_left, validateSenderCert_encode e.ephPk hsig hepoch]
    rfl

/-- **What the source boards, the destination opens.** -/
theorem openRecords_boardAt (hpaired : Paired C src dst) (h : src.boardAt C draws records recordKey seq = .ok cofre) :
    dst.openRecords C cofre = .ok (records, src.sender.map SenderCredential.senderId) := by
  obtain ⟨batch, eph, draw, ephPk, dataKey, nonce, carga, hvalid, hbatch, -, -, hkey, hcarga, rfl⟩ :=
    boardAt_ok h
  rw [hpaired.wrapped] at hkey
  -- the seal changes no field that the cipher is bound to
  let e := (Cofre.seal C (src.header C recordKey seq nonce ephPk) carga src.sourceSeed).etiqueta
  have hopen : C.aeadOpen src.config.aeadAlg dataKey nonce (aeadAad e) carga =
      some (src.inner C ephPk batch) := C.aeadOpen_aeadSeal hcarga
  have hsplit : dst.splitSender C e (src.inner C ephPk batch) =
      .ok (batch, src.sender.map SenderCredential.senderId) := splitSender_inner hpaired batch rfl
  have hcheck : dst.checkRecords batch = .ok records := by
    simp only [DestTerminal.checkRecords, unframeBatch_frameBatch hbatch, hpaired.contract, hvalid]
    rfl
  simp only [e, Cofre.seal, SourceTerminal.header] at hopen hsplit
  unfold DestTerminal.openRecords
  rw [hpaired.pinned, Cofre.verify_seal]
  simp only [Cofre.seal, SourceTerminal.header, hpaired.config, hpaired.contract, ne_eq,
    not_true_eq_false, or_self, if_false, C.openKey_sealKey hkey, hopen, hsplit]
  change (dst.checkRecords batch >>= _) = _
  rw [hcheck]
  rfl

/-- The gate of the destination sees the number and the key the source stamped. -/
theorem etiqueta_boardAt (h : src.boardAt C draws records recordKey seq = .ok cofre) :
    cofre.etiqueta.streamId = src.config.streamId ∧ cofre.etiqueta.seq = seq ∧
      cofre.etiqueta.idempotencyKey = C.keyedHash src.config.tenantSecret recordKey := by
  obtain ⟨_, _, _, _, _, _, _, _, _, _, _, _, _, rfl⟩ := boardAt_ok h
  exact ⟨rfl, rfl, rfl⟩

/-- **A boarded batch with a fresh number and a fresh key is delivered**, whole and once. -/
theorem offload_boardAt (hpaired : Paired C src dst) {bound : ℕ} {keys : List (Arr 32)}
    (h : src.boardAt C draws records recordKey seq = .ok cofre)
    (hbelow : (dst.once.stream src.config.streamId).Below bound keys) (hseq : bound ≤ seq.toNat)
    (hkey : C.keyedHash src.config.tenantSecret recordKey ∉ keys) :
    (dst.offload C cofre).2 = .delivered ∧ (dst.offload C cofre).1.committed = dst.committed ++ records ∧
      ((dst.offload C cofre).1.once.stream src.config.streamId).Below (seq.toNat + 1)
        (C.keyedHash src.config.tenantSecret recordKey :: keys) ∧
      Paired C src (dst.offload C cofre).1 := by
  obtain ⟨hstream, hnumber, hidem⟩ := etiqueta_boardAt h
  obtain ⟨hdelivered, hnext⟩ := Gate.admitSeq_fresh hbelow hseq hkey
  simp only [DestTerminal.offload, openRecords_boardAt hpaired h, hstream, hnumber, hidem, hdelivered]
  exact ⟨trivial, trivial, hnext, hpaired.config, hpaired.contract, hpaired.pinned, hpaired.wrapped, hpaired.vouched⟩

end Route

end Datarail.Terminal
