/-
# The manifest: a log of deliveries and its receipts

`crates/datarail-manifest/src/lib.rs`: the log of a route's deliveries (`ManifestLog`), the Merkle tree
over its leaves, the signed tree head, the destination's acknowledgement, and the verifier of a receipt
that trusts nothing but two pinned keys (`verifyReceipt`).

The levels of the tree and the loops over them are those of `Lib.Merkle` at the hash `hashNode`
(`next_level` is `Merkle.nextLevel`, the loop of `inclusion_proof` is `Merkle.pathOf`).  A
`usize` is a number below `2 ^ 64`, so that the conversions between it and `u64` lose nothing.
-/

import Datarail.Cofre.Seal
import Datarail.Lib.Merkle

namespace Datarail.Manifest

open Lib Cofre List Merkle

variable (C : Crypto)

/-- `ctx::STH`. -/
def ctxSth : Bytes := [0x64, 0x72, 0x3a, 0x73, 0x74, 0x68, 0x3a, 0x76, 0x31]

/-- `ctx::ACK`. -/
def ctxAck : Bytes := [0x64, 0x72, 0x3a, 0x61, 0x63, 0x6b, 0x3a, 0x76, 0x31]

/-- `NODE_TAG`. -/
def nodeTag : UInt8 := 0x01

/-- What `hash_node` hashes. -/
def nodePreimage (children : Arr 32 × Arr 32) : Bytes := nodeTag :: (children.1.1 ++ children.2.1)

/-- `hash_node`. -/
def hashNode (left right : Arr 32) : Arr 32 := C.blake3 (nodePreimage (left, right))

/-- The position of a delivery: what a leaf commits to. -/
structure Entry where
  cofreId : Arr 32
  routeId : Arr 16
  streamId : Arr 16
  seq : UInt64
  epoch : UInt64
  deriving DecidableEq

/-- What `leaf_hash` hashes. -/
def leafPreimage (e : Entry) : Bytes :=
  e.cofreId.1 ++ e.routeId.1 ++ e.streamId.1 ++ u64Bytes e.seq ++ u64Bytes e.epoch

/-- `leaf_hash`. -/
def leafHash (e : Entry) : Arr 32 := C.blake3 (leafPreimage e)

/-- One step of an authentication path. -/
structure ProofStep where
  sibling : Arr 32
  siblingIsRight : Bool
  deriving DecidableEq

namespace ProofStep

/-- The step as the tree library has it. -/
def pair (step : ProofStep) : Arr 32 × Bool := (step.sibling, step.siblingIsRight)

/-- The step that the tree library gives. -/
def ofPair (step : Arr 32 × Bool) : ProofStep := ⟨step.1, step.2⟩

end ProofStep

structure InclusionProof where
  /-- Zero-based index of the proven leaf. -/
  index : ℕ
  /-- The number of leaves of the tree. -/
  treeSize : ℕ
  path : List ProofStep
  deriving DecidableEq

structure SignedTreeHead where
  root : Arr 32
  treeSize : UInt64
  ts : UInt64
  sig : Arr 64
  deriving DecidableEq

structure DestAck where
  cofreId : Arr 32
  routeId : Arr 16
  streamId : Arr 16
  seq : UInt64
  /-- The root the destination saw. -/
  sthRoot : Arr 32
  epoch : UInt64
  destSig : Arr 64
  deriving DecidableEq

inductive ManifestError where
  | indexOutOfRange
  | badInclusion
  | badSth
  | badAckSig
  | ackPositionMismatch
  | ackRootMismatch
  | cofreIdMismatch
  deriving DecidableEq, Repr

/-- The bytes under the signature of a head. -/
def sthSigningBytes (root : Arr 32) (treeSize ts : UInt64) : Bytes := root.1 ++ u64Bytes treeSize ++ u64Bytes ts

/-- The bytes under the signature of an acknowledgement. -/
def ackSigningBytes (routeId streamId : Arr 16) (seq : UInt64) (sthRoot : Arr 32) (epoch : UInt64) : Bytes :=
  routeId.1 ++ streamId.1 ++ u64Bytes seq ++ sthRoot.1 ++ u64Bytes epoch

/-- `merkle_root`. -/
def merkleRoot (leaves : List (Arr 32)) : Arr 32 := (root (hashNode C) leaves).getD (C.blake3 [])

/-- A log of deliveries: the leaves in the order of delivery. -/
structure ManifestLog where
  leaves : List (Arr 32)
  deriving DecidableEq

namespace ManifestLog

def new : ManifestLog := ⟨[]⟩

/-- Append a leaf; its index is returned. -/
def appendLeaf (log : ManifestLog) (leaf : Arr 32) : ManifestLog × ℕ :=
  (⟨log.leaves ++ [leaf]⟩, log.leaves.length)

/-- Append the leaf of a delivery. -/
def append (log : ManifestLog) (e : Entry) : ManifestLog × ℕ := log.appendLeaf (leafHash C e)

def root (log : ManifestLog) : Arr 32 := merkleRoot C log.leaves

/-- `inclusion_proof`. -/
def inclusionProof (log : ManifestLog) (index : ℕ) : Except ManifestError InclusionProof :=
  if index ≥ log.leaves.length then .error .indexOutOfRange
  else .ok ⟨index, log.leaves.length, (pathOf (hashNode C) log.leaves index).map ProofStep.ofPair⟩

/-- `sign_sth`. -/
def signSth (log : ManifestLog) (seed : Arr 32) (ts : UInt64) : SignedTreeHead :=
  let root := log.root C
  let treeSize := UInt64.ofNat log.leaves.length
  ⟨root, treeSize, ts, C.signDomain ctxSth seed (sthSigningBytes root treeSize ts)⟩

/-- The log of a history of deliveries. -/
def record (entries : List Entry) : ManifestLog := entries.foldl (fun log e => (log.append C e).1) new

/-- Leaves appended one after the other. -/
theorem leaves_appendAll {A : Type*} (leaf : A → Arr 32) (xs : List A) (log : ManifestLog) :
    (xs.foldl (fun log x => (log.appendLeaf (leaf x)).1) log).leaves = log.leaves ++ xs.map leaf := by
  induction xs generalizing log with
  | nil => exact (append_nil _).symm
  | cons x xs ih =>
    rw [foldl_cons, ih, map_cons]
    exact append_assoc log.leaves [leaf x] _

theorem leaves_record (entries : List Entry) : (record C entries).leaves = entries.map (leafHash C) :=
  leaves_appendAll (leafHash C) entries new

end ManifestLog

/-- `root_from_path`. -/
def rootFromPath (leaf : Arr 32) (path : List ProofStep) : Arr 32 :=
  path.foldl (fun acc step =>
    if step.siblingIsRight then hashNode C acc step.sibling else hashNode C step.sibling acc) leaf

/-- `verify_inclusion`. -/
def verifyInclusion (leaf : Arr 32) (proof : InclusionProof) (expectedRoot : Arr 32) : Bool :=
  proof.index < proof.treeSize && rootFromPath C leaf proof.path = expectedRoot

/-- `verify_sth`. -/
def verifySth (sth : SignedTreeHead) (sourceVk : Arr 32) : Bool :=
  C.verifyDomain ctxSth sourceVk (sthSigningBytes sth.root sth.treeSize sth.ts) sth.sig

/-- `sign_ack`. -/
def signAck (destSeed cofreId : Arr 32) (routeId streamId : Arr 16) (seq : UInt64) (sthRoot : Arr 32)
    (epoch : UInt64) : DestAck :=
  ⟨cofreId, routeId, streamId, seq, sthRoot, epoch,
    C.signDomain ctxAck destSeed (ackSigningBytes routeId streamId seq sthRoot epoch)⟩

/-- `verify_ack`. -/
def verifyAck (ack : DestAck) (destVk : Arr 32) (routeId streamId : Arr 16) (seq epoch : UInt64)
    (expectedRoot : Arr 32) : Except ManifestError Unit :=
  if !C.verifyDomain ctxAck destVk (ackSigningBytes ack.routeId ack.streamId ack.seq ack.sthRoot ack.epoch)
      ack.destSig then .error .badAckSig
  else if ack.routeId ≠ routeId ∨ ack.streamId ≠ streamId ∨ ack.seq ≠ seq ∨ ack.epoch ≠ epoch then
    .error .ackPositionMismatch
  else if ack.sthRoot ≠ expectedRoot then .error .ackRootMismatch
  else .ok ()

/-- The evidence for one delivery. -/
structure DeliveryProof where
  carga : Bytes
  routeId : Arr 16
  streamId : Arr 16
  seq : UInt64
  epoch : UInt64
  proof : InclusionProof
  sth : SignedTreeHead
  sourceVk : Arr 32
  ack : DestAck
  destVk : Arr 32

/-- The delivery that a receipt claims, with the content address of its payload. -/
def DeliveryProof.entry (p : DeliveryProof) : Entry := ⟨C.blake3 p.carga, p.routeId, p.streamId, p.seq, p.epoch⟩

/-- `verify_receipt`. -/
def verifyReceipt (p : DeliveryProof) : Except ManifestError Unit :=
  if C.blake3 p.carga ≠ p.ack.cofreId then .error .cofreIdMismatch
  else if !verifySth C p.sth p.sourceVk then .error .badSth
  else if p.proof.treeSize ≥ 2 ^ 64 then .error .badInclusion
  else if UInt64.ofNat p.proof.treeSize ≠ p.sth.treeSize then .error .badInclusion
  else if !verifyInclusion C (leafHash C (p.entry C)) p.proof p.sth.root then .error .badInclusion
  else verifyAck C p.ack p.destVk p.routeId p.streamId p.seq p.epoch p.sth.root

section Spec

variable {C}

theorem rootFromPath_eq (leaf : Arr 32) (path : List ProofStep) :
    rootFromPath C leaf path = climb (hashNode C) leaf (path.map ProofStep.pair) := by
  rw [rootFromPath, climb, foldl_map]
  congr 1
  funext acc step
  obtain ⟨sibling, right⟩ := step
  cases right <;> rfl

variable {proof : InclusionProof}

theorem verifyInclusion_eq_true_iff {leaf expectedRoot : Arr 32} : verifyInclusion C leaf proof expectedRoot = true ↔
      proof.index < proof.treeSize ∧ rootFromPath C leaf proof.path = expectedRoot := by
  rw [verifyInclusion, Bool.and_eq_true, decide_eq_true_iff, decide_eq_true_iff]

/-- What an accepted receipt has passed. -/
theorem verifyReceipt_ok {p : DeliveryProof} (h : verifyReceipt C p = .ok ()) :
    verifySth C p.sth p.sourceVk = true ∧ p.proof.treeSize < 2 ^ 64 ∧
    UInt64.ofNat p.proof.treeSize = p.sth.treeSize ∧
    verifyInclusion C (leafHash C (p.entry C)) p.proof p.sth.root = true := by
  unfold verifyReceipt at h
  split_ifs at h with h₁ h₂ h₃ h₄ h₅
  rw [Bool.not_eq_true, Bool.not_eq_false'] at h₂ h₅
  exact ⟨h₂, Nat.lt_of_not_le h₃, not_not.1 h₄, h₅⟩

theorem merkleRoot_eq {leaves : List (Arr 32)} {digest : Arr 32} (hne : leaves ≠ []) :
    merkleRoot C leaves = digest ↔ root (hashNode C) leaves = some digest := by
  rw [merkleRoot, root_eq_treeHash (C.blake3 []) hne, Option.getD_some, Option.some.injEq]

variable {log : ManifestLog}

theorem inclusionProof_eq_ok_iff {i : ℕ} :
    log.inclusionProof C i = .ok proof ↔ i < log.leaves.length ∧
      proof = ⟨i, log.leaves.length, (pathOf (hashNode C) log.leaves i).map ProofStep.ofPair⟩ := by
  unfold ManifestLog.inclusionProof
  split_ifs with hi
  · exact ⟨nofun, fun h => absurd h.1 (by omega)⟩
  · rw [Except.ok.injEq]
    exact ⟨fun h => ⟨by omega, h.symm⟩, fun h => h.2.symm⟩

/-- **A receipt's own proof is accepted**: the path that the log gives for a leaf leads to its root. -/
theorem verifyInclusion_inclusionProof {i : ℕ} {leaf : Arr 32}
    (hleaf : log.leaves[i]? = some leaf) (hproof : log.inclusionProof C i = .ok proof) :
    verifyInclusion C leaf proof (log.root C) = true := by
  obtain ⟨hi, rfl⟩ := inclusionProof_eq_ok_iff.1 hproof
  have hne : log.leaves ≠ [] := ne_nil_of_length_pos (by omega)
  refine verifyInclusion_eq_true_iff.2 ⟨hi, ?_⟩
  rw [rootFromPath_eq, map_map]
  refine ((merkleRoot_eq hne).2 ?_).symm
  rw [climb_pathOf hleaf]
  exact congrArg (fun path => some (climb (hashNode C) leaf path)) (map_id _).symm

/-- **The root is the tree hash of RFC 6962, and every leaf has a proof of it.** -/
theorem merkleRoot_eq_treeHash (leaves : List (Arr 32)) :
    merkleRoot C leaves = treeHash (hashNode C) (C.blake3 []) leaves ∧ ∀ i : Fin leaves.length,
      ∃ proof, (ManifestLog.mk leaves).inclusionProof C i = .ok proof ∧
        verifyInclusion C leaves[i] proof (merkleRoot C leaves) = true := by
  refine ⟨?_, fun i => ?_⟩
  · by_cases hne : leaves = []
    · rw [hne, treeHash]
      rfl
    · exact (merkleRoot_eq hne).2 (root_eq_treeHash _ hne)
  · have hproof : (ManifestLog.mk leaves).inclusionProof C i = .ok _ := inclusionProof_eq_ok_iff.2 ⟨i.2, rfl⟩
    exact ⟨_, hproof, verifyInclusion_inclusionProof (getElem?_eq_getElem i.2) hproof⟩

end Spec

end Datarail.Manifest
