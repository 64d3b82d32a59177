/-
# Keys, ciphers and seals

`crates/datarail-crypto/src/lib.rs` and the seal of `crates/datarail-cofre/src/lib.rs`.
The primitives come from other crates (`blake3`, `ed25519-dalek`, `x25519-dalek`,
`aes-gcm`, `aes-gcm-siv`, `chacha20poly1305`): `Crypto` names them and the laws by which
they are correct.  What this repository builds on them, the key wrap and the seal over
header and ciphertext, is translated.

`Crypto.transparent` encrypts nothing.  It satisfies the laws, so that runs of the
terminals can be evaluated.
-/

import Datarail.Cofre.Format

namespace Datarail

open Lib List

/-- The cryptographic primitives, correct for honest parties. -/
structure Crypto where
  /-- `blake3::hash`. -/
  blake3 : Bytes → Arr 32
  /-- `blake3::keyed_hash`. -/
  keyedHash : Arr 32 → Bytes → Arr 32
  /-- The X25519 public key of a secret. -/
  x25519Public : Arr 32 → Arr 32
  /-- The shared secret of a secret and a public key, unless it is not contributory. -/
  diffieHellman : Arr 32 → Arr 32 → Option (Arr 32)
  /-- The Ed25519 verifying key of a seed. -/
  verifyingKey : Arr 32 → Arr 32
  sign : Arr 32 → Bytes → Arr 64
  verify : Arr 32 → Bytes → Arr 64 → Bool
  /-- Key, nonce, associated data, plaintext. -/
  aeadSeal : AeadAlg → Arr 32 → Arr 12 → Bytes → Bytes → Option Bytes
  aeadOpen : AeadAlg → Arr 32 → Arr 12 → Bytes → Bytes → Option Bytes
  diffieHellman_comm : ∀ a b, diffieHellman a (x25519Public b) = diffieHellman b (x25519Public a)
  verify_sign : ∀ seed msg, verify (verifyingKey seed) msg (sign seed msg) = true
  aeadOpen_aeadSeal : ∀ {alg key nonce aad plain cipher},
    aeadSeal alg key nonce aad plain = some cipher → aeadOpen alg key nonce aad cipher = some plain
  /-- The tag is 16 bytes. -/
  length_aeadSeal : ∀ {alg key nonce aad plain cipher},
    aeadSeal alg key nonce aad plain = some cipher → cipher.length = plain.length + 16
  /-- A cipher refuses no plaintext of less than 32 GiB. -/
  aeadSeal_isSome : ∀ alg key nonce aad plain, plain.length < 2 ^ 35 → (aeadSeal alg key nonce aad plain).isSome

namespace Crypto

variable (C : Crypto)

/-- `ctx::LACRE`. -/
def ctxLacre : Bytes := [0x64, 0x72, 0x3a, 0x6c, 0x61, 0x63, 0x72, 0x65, 0x3a, 0x76, 0x31]

/-- `ctx::CERT`. -/
def ctxCert : Bytes := [0x64, 0x72, 0x3a, 0x63, 0x65, 0x72, 0x74, 0x3a, 0x76, 0x31]

/-- `KEYWRAP_CTX`. -/
def keywrapCtx : Bytes :=
  [0x64, 0x72, 0x3a, 0x6b, 0x65, 0x79, 0x77, 0x72, 0x61, 0x70, 0x3a, 0x76, 0x31]

/-- `kdf_data_key`. -/
def kdfDataKey (shared ephPublic recipientPk : Arr 32) : Arr 32 :=
  C.blake3 (keywrapCtx ++ shared.1 ++ ephPublic.1 ++ recipientPk.1)

/-- `seal_key`: the ephemeral public key and the data key. -/
def sealKey (recipientPk ephSecret : Arr 32) : Option (Arr 32 × Arr 32) :=
  let ephPublic := C.x25519Public ephSecret
  (C.diffieHellman ephSecret recipientPk).map fun shared =>
    (ephPublic, C.kdfDataKey shared ephPublic recipientPk)

/-- `open_key`. -/
def openKey (recipientSecret ephPublic : Arr 32) : Option (Arr 32) :=
  (C.diffieHellman recipientSecret ephPublic).map fun shared =>
    C.kdfDataKey shared ephPublic (C.x25519Public recipientSecret)

/-- `sign_domain`. -/
def signDomain (context : Bytes) (seed : Arr 32) (msg : Bytes) : Arr 64 := C.sign seed (context ++ msg)

/-- `verify_domain`. -/
def verifyDomain (context : Bytes) (vk : Arr 32) (msg : Bytes) (sig : Arr 64) : Bool :=
  C.verify vk (context ++ msg) sig

/-- The recipient derives the key the sender wrapped. -/
theorem openKey_sealKey {secret eph ephPublic key : Arr 32}
    (h : C.sealKey (C.x25519Public secret) eph = some (ephPublic, key)) :
    C.openKey secret ephPublic = some key := by
  obtain ⟨shared, hshared, heq⟩ := Option.map_eq_some_iff.1 h
  obtain ⟨rfl, rfl⟩ := Prod.mk.inj heq
  rw [openKey, C.diffieHellman_comm, hshared]
  rfl

theorem verifyDomain_signDomain (context : Bytes) (seed : Arr 32) (msg : Bytes) :
    C.verifyDomain context (C.verifyingKey seed) msg (C.signDomain context seed msg) = true :=
  C.verify_sign seed (context ++ msg)

/-- The first `n` bytes, filled up with zeros. -/
def fit (n : ℕ) (bytes : Bytes) : Arr n :=
  ⟨(bytes ++ replicate n 0).take n, by simp⟩

/-- A stand-in that hides nothing: the hash is a prefix, the ciphertext the plaintext and
a tag of zeros. -/
def transparent : Crypto where
  blake3 bytes := fit 32 bytes
  keyedHash _ bytes := fit 32 bytes
  x25519Public secret := secret
  diffieHellman _ _ := some (Arr.zero 32)
  verifyingKey seed := seed
  sign _ _ := Arr.zero 64
  verify _ _ _ := true
  aeadSeal _ _ _ _ plain := some (plain ++ replicate 16 0)
  aeadOpen _ _ _ _ cipher := some (cipher.take (cipher.length - 16))
  diffieHellman_comm _ _ := rfl
  verify_sign _ _ := rfl
  aeadOpen_aeadSeal h := by
    obtain rfl := Option.some.inj h
    rw [length_append, length_replicate, Nat.add_sub_cancel, take_left]
  length_aeadSeal h := by
    obtain rfl := Option.some.inj h
    rw [length_append, length_replicate]
  aeadSeal_isSome _ _ _ _ _ _ := rfl

end Crypto

namespace Cofre

variable (C : Crypto)

/-- `datarail_cofre::seal`: stamp the content address and the signer, and sign. -/
def «seal» (etiqueta : Etiqueta) (carga : Bytes) (signingSeed : Arr 32) : Cofre :=
  let etiqueta := { etiqueta with
    cofreId := C.blake3 carga
    signerKeyId := C.blake3 (C.verifyingKey signingSeed).1 }
  { etiqueta, carga,
    lacre := C.signDomain Crypto.ctxLacre signingSeed (signedRegion etiqueta carga) }

/-- `datarail_cofre::verify` against the pinned key. -/
def verify (cofre : Cofre) (pinnedVk : Arr 32) : Except CofreError Unit :=
  if cofre.etiqueta.cofreId ≠ C.blake3 cofre.carga then .error .cofreIdMismatch
  else if cofre.etiqueta.signerKeyId ≠ C.blake3 pinnedVk.1 then .error .signerMismatch
  else if C.verifyDomain Crypto.ctxLacre pinnedVk (signedRegion cofre.etiqueta cofre.carga) cofre.lacre then .ok ()
  else .error .badSignature

/-- A seal verifies under the key it was made with. -/
theorem verify_seal (e : Etiqueta) (carga : Bytes) (seed : Arr 32) :
    («seal» C e carga seed).verify C (C.verifyingKey seed) = .ok () := by
  rw [verify, if_neg (fun h => h rfl), if_neg (fun h => h rfl)]
  exact if_pos (C.verifyDomain_signDomain _ _ _)

end Cofre
end Datarail
