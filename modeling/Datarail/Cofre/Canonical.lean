/-
# One encoding for every cofre

`decode` of `crates/datarail-cofre/src/lib.rs`, read backwards: which byte strings does it accept, and
are they what `encode` writes?  Every field of the header is written in one way, the flag
`sender_present` apart: `parse_etiqueta` takes each byte but `0` for `true`, and `encode` writes `1`.

So a byte string that decodes is the encoding of its cofre exactly if its flag byte is `0` or `1`
(`encode_decode_iff`).  The signature is over the header as `encode` writes it: whoever changes the flag
byte of a sealed cofre that has a sender changes nothing that `verify` looks at.
-/

import Datarail.Cofre.Seal

namespace Datarail.Cofre

open Lib List Scan Crypto

section Decode

theorem takes_take (n : ℕ) : (take n).Takes fun bytes w => w = bytes ∧ bytes.length = n :=
  fun c bytes d h => Takes.take _ n c bytes d h

theorem takes_takeArr (n : ℕ) : (takeArr n).Takes fun a w => w = a.1 := by
  refine (takes_take n).bind ?_
  rintro _ bytes ⟨rfl, hlen⟩
  rw [dif_pos hlen]
  exact .pure (append_nil _)

theorem takes_takeByte : takeByte.Takes fun b w => w = [b] := by
  refine (takes_take 1).map _ ?_
  rintro _ bytes ⟨rfl, hlen⟩
  obtain ⟨b, rfl⟩ := length_eq_one_iff.1 hlen
  rfl

theorem takes_takeU32 : takeU32.Takes fun n w => w = leBytes 4 n := by
  refine (takes_take 4).map _ ?_
  rintro _ bytes ⟨rfl, hlen⟩
  rw [← hlen, leBytes_leNat]

theorem takes_takeU64 : takeU64.Takes fun x w => w = u64Bytes x := by
  refine (takes_take 8).map _ ?_
  rintro _ bytes ⟨rfl, hlen⟩
  have hlt := leNat_lt bytes
  rw [hlen] at hlt
  rw [u64Bytes, UInt64.toNat_ofNat_of_lt' hlt, ← hlen, leBytes_leNat]

theorem takes_takeAead : takeAead.Takes fun alg w => w = [aeadToU8 alg] := by
  refine takes_takeByte.bind ?_
  rintro b _ rfl
  unfold aeadFromU8
  split_ifs with h₁ h₂ h₃
  · exact .pure (by rw [h₁]; rfl)
  · exact .pure (by rw [h₂]; rfl)
  · exact .pure (by rw [h₃]; rfl)
  · exact .fail _

/-- The header that was read is the bytes it was read from, up to the byte of its flag. -/
theorem takes_parseEtiqueta : parseEtiqueta.Takes fun e w =>
    ∃ flag, w = headerBytes e flag ∧ e.senderPresent = decide (flag ≠ 0) := by
  refine (takes_takeArr 16).bind fun routeId _ h₁ => (takes_takeArr 16).bind fun streamId _ h₂ => ?_
  refine takes_takeU64.bind fun seq _ h₃ => (takes_takeArr 32).bind fun cofreId _ h₄ => ?_
  refine (takes_takeArr 32).bind fun idempotencyKey _ h₅ => (takes_takeArr 32).bind fun contractFp _ h₆ => ?_
  refine takes_takeAead.bind fun aeadAlg _ h₇ => (takes_takeArr 12).bind fun nonce _ h₈ => ?_
  refine (takes_takeArr 32).bind fun signerKeyId _ h₉ => (takes_takeArr 32).bind fun ephPk _ h₁₀ => ?_
  refine takes_takeByte.bind fun sender _ h₁₁ => takes_takeU64.map _ fun ts _ h₁₂ => ⟨sender, ?_, rfl⟩
  rw [h₁, h₂, h₃, h₄, h₅, h₆, h₇, h₈, h₉, h₁₀, h₁₁, h₁₂]
  simp only [headerBytes, append_assoc]

/-- What was read as a cofre is the bytes of one. -/
theorem takes_readCofre : readCofre.Takes fun c w =>
    ∃ flag, w = wireBytes c flag ∧ c.etiqueta.senderPresent = decide (flag ≠ 0) ∧ c.Fits := by
  refine (takes_take 4).bind fun m _ h₁ => (Takes.require _ _).bind fun _ _ h₂ => ?_
  refine takes_takeByte.bind fun v _ h₃ => (Takes.require _ _).bind fun _ _ h₄ => ?_
  refine takes_takeU32.bind fun etqLen _ h₅ => (Takes.require _ _).bind fun _ _ h₆ => ?_
  refine (takes_take _).bind fun header _ h₇ => ?_
  obtain ⟨rfl, rfl⟩ := h₂
  obtain ⟨rfl, rfl⟩ := h₄
  obtain ⟨rfl, rfl⟩ := h₆
  -- the header is as long as the bytes its parser reads, so nothing of it is left over
  have hparsed : ∀ parsed, parseEtiqueta.run (.new header) = .ok parsed →
      ∃ flag, header = headerBytes parsed.1 flag ∧ parsed.1.senderPresent = decide (flag ≠ 0) := by
    intro parsed hrun
    obtain ⟨_, hw, -, flag, rfl, hflag⟩ := takes_parseEtiqueta _ _ _ hrun
    have hlen : (headerBytes parsed.1 flag).length = header.length := by rw [length_headerBytes, h₇.2]
    have hfirst : headerBytes parsed.1 flag <+: header := ⟨_, hw.symm⟩
    exact ⟨flag, (hfirst.eq_of_length hlen).symm, hflag⟩
  refine (Takes.lift (P := fun parsed w => w = [] ∧ _) fun parsed hrun => ⟨rfl, hparsed parsed hrun⟩).bind ?_
  rintro parsed _ ⟨rfl, flag, hheader, hflag⟩
  refine takes_takeU64.bind fun cargaLen _ h₉ => (takes_take _).bind fun carga _ h₁₀ => ?_
  refine (takes_takeArr 64).map _ fun lacre _ h₁₁ => ⟨flag, ?_, hflag, ?_⟩
  · have hlen : min carga.length (2 ^ 64 - 1) = cargaLen.toNat := by
      have := cargaLen.toNat_lt
      omega
    rw [h₁.1, h₃, h₅, h₇.1, hheader, h₉, h₁₀.1, h₁₁]
    simp only [wireBytes, hlen, u64Bytes, append_assoc, nil_append]
  · unfold Fits
    rw [h₁₀.2]
    exact cargaLen.toNat_lt

/-- **What `decode` accepts**: the bytes of a cofre, with any byte that stands for its flag. -/
theorem decode_eq_ok_iff {b : Bytes} {c : Cofre} :
    decode b = .ok c ↔ ∃ flag, b = wireBytes c flag ∧ c.etiqueta.senderPresent = decide (flag ≠ 0) ∧ c.Fits := by
  refine ⟨fun h => ?_, fun ⟨flag, hb, hflag, hfits⟩ => hb ▸ decode_wireBytes hfits hflag⟩
  unfold decode at h
  split at h
  · split_ifs at h with hend
    cases h
    exact takes_readCofre.whole ‹_› hend
  · cases h

end Decode

/-- Where the flag of the header stands. -/
def senderFlagAt : ℕ := 222

/-- The flag is one of the two bytes that `encode` writes. -/
def CanonicalFlag (b : Bytes) : Prop := b[senderFlagAt]? = some 0 ∨ b[senderFlagAt]? = some 1

instance (b : Bytes) : Decidable (CanonicalFlag b) := inferInstanceAs (Decidable (_ ∨ _))

section Flag

/-- The bytes around the flag. -/
theorem exists_wireBytes (c : Cofre) : ∃ front back : Bytes, front.length = senderFlagAt ∧
    ∀ flag, wireBytes c flag = front ++ flag :: back := by
  refine ⟨magic ++ [version] ++ leBytes 4 etiquetaLen ++ (c.etiqueta.routeId.1 ++ c.etiqueta.streamId.1 ++
      u64Bytes c.etiqueta.seq ++ c.etiqueta.cofreId.1 ++ c.etiqueta.idempotencyKey.1 ++ c.etiqueta.contractFp.1 ++
      [aeadToU8 c.etiqueta.aeadAlg] ++ c.etiqueta.nonce.1 ++ c.etiqueta.signerKeyId.1 ++ c.etiqueta.ephPk.1),
    u64Bytes c.etiqueta.ts ++ (leBytes 8 (min c.carga.length (2 ^ 64 - 1)) ++ (c.carga ++ c.lacre.1)), ?_, fun flag => ?_⟩
  · simp only [u64Bytes, length_append, length_leBytes, c.etiqueta.routeId.2, c.etiqueta.streamId.2,
      c.etiqueta.cofreId.2, c.etiqueta.idempotencyKey.2, c.etiqueta.contractFp.2, c.etiqueta.nonce.2,
      c.etiqueta.signerKeyId.2, c.etiqueta.ephPk.2, length_singleton]
    rfl
  · simp only [wireBytes, headerBytes, append_assoc, cons_append, nil_append]

theorem getElem?_wireBytes (c : Cofre) (flag : UInt8) : (wireBytes c flag)[senderFlagAt]? = some flag := by
  obtain ⟨front, back, hlen, heq⟩ := exists_wireBytes c
  rw [heq, ← hlen, getElem?_append_right (Nat.le_refl _), Nat.sub_self, getElem?_cons_zero]

theorem set_wireBytes (c : Cofre) (flag flag' : UInt8) :
    (wireBytes c flag).set senderFlagAt flag' = wireBytes c flag' := by
  obtain ⟨front, back, hlen, heq⟩ := exists_wireBytes c
  rw [heq, heq, ← hlen, set_append_right _ _ (Nat.le_refl _), Nat.sub_self, set_cons_zero]

/-- A byte that stands for a flag is the one that is written for it, or none that is ever written. -/
theorem flagByte_eq_iff (flag : UInt8) : flagByte (decide (flag ≠ 0)) = flag ↔ flag = 0 ∨ flag = 1 := by
  by_cases h : flag = 0
  · subst h
    decide
  · rw [decide_eq_true h]
    exact ⟨fun h => .inr h.symm, fun h' => (h'.resolve_left h).symm⟩

/-- **The encodings among the byte strings that decode.** -/
theorem encode_decode_iff {b : Bytes} {d : Cofre} (h : decode b = .ok d) : encode d = b ↔ CanonicalFlag b := by
  obtain ⟨flag, rfl, hflag, -⟩ := decode_eq_ok_iff.1 h
  rw [encode_eq_wireBytes, hflag, CanonicalFlag, getElem?_wireBytes, Option.some.injEq, Option.some.injEq,
    ← flagByte_eq_iff]
  refine ⟨fun heq => ?_, fun heq => by rw [heq]⟩
  have hget : (wireBytes d (flagByte (decide (flag ≠ 0))))[senderFlagAt]? = (wireBytes d flag)[senderFlagAt]? := by
    rw [heq]
  rw [getElem?_wireBytes, getElem?_wireBytes] at hget
  exact Option.some.inj hget

end Flag

section Tamper

variable {C : Crypto} {c d : Cofre} {vk : Arr 32}

theorem verify_eq_ok (h : d.verify C vk = .ok ()) :
    C.verifyDomain ctxLacre vk (signedRegion d.etiqueta d.carga) d.lacre = true := by
  unfold verify at h
  split_ifs at h with h₁ h₂ h₃
  exact h₃

/-- The signature of `c` is the only one that is good for what `c` says, and it is good for nothing else. -/
structure Unforgeable (C : Crypto) (vk : Arr 32) (c : Cofre) : Prop where
  unique : ∀ sig, C.verifyDomain ctxLacre vk (signedRegion c.etiqueta c.carga) sig = true → sig = c.lacre
  bound : ∀ msg, C.verifyDomain ctxLacre vk msg c.lacre = true → msg = signedRegion c.etiqueta c.carga

/-- A cofre that verifies is `c`, if it says what `c` says. -/
theorem eq_of_verify (hsig : Unforgeable C vk c) (h : d.verify C vk = .ok ())
    (hregion : signedRegion d.etiqueta d.carga = signedRegion c.etiqueta c.carga) : d = c := by
  have hvalid := verify_eq_ok h
  rw [hregion] at hvalid
  obtain ⟨hetiqueta, hcarga⟩ := signedRegion_inj hregion
  exact Cofre.mk.injEq .. ▸ ⟨hetiqueta, hcarga, hsig.unique _ hvalid⟩

variable {x : UInt8} {i : ℕ}

/-- A cofre that verifies is `c`, if its encoding is that of `c` in all bytes but one. -/
theorem eq_of_verify_set (hsig : Unforgeable C vk c) (h : d.verify C vk = .ok ())
    (henc : encode d = (encode c).set i x) : d = c := by
  have hlacre : d.lacre.1.length = c.lacre.1.length := by rw [d.lacre.2, c.lacre.2]
  have hregion : (signedRegion d.etiqueta d.carga).length = (signedRegion c.etiqueta c.carga).length := by
    have hlen := congrArg length henc
    rw [length_set, encode, encode, length_append, length_append] at hlen
    omega
  by_cases hi : i < (signedRegion c.etiqueta c.carga).length
  · -- the signature was not touched: it is good for nothing else
    rw [encode, encode, set_append_left _ _ hi] at henc
    obtain ⟨-, hsame⟩ := append_inj henc (by rw [length_set, hregion])
    have hvalid := verify_eq_ok h
    rw [Subtype.ext hsame] at hvalid
    exact eq_of_verify hsig h (hsig.bound _ hvalid)
  · -- the signature alone was touched
    rw [encode, encode, set_append_right _ _ (Nat.le_of_not_lt hi)] at henc
    exact eq_of_verify hsig h (append_inj henc hregion).1

/-- Every byte but the flag leaves the flag as `encode` writes it. -/
theorem canonicalFlag_set (hi : i ≠ senderFlagAt) (x : UInt8) : CanonicalFlag ((encode c).set i x) := by
  rw [CanonicalFlag, getElem?_set_ne hi, encode_eq_wireBytes, getElem?_wireBytes]
  cases c.etiqueta.senderPresent
  · exact .inl rfl
  · exact .inr rfl

/-- A change that leaves the flag as `encode` writes it is found out. -/
theorem rejects_of_canonicalFlag (hsig : Unforgeable C vk c)
    (hne : (encode c).set i x ≠ encode c) (hflag : CanonicalFlag ((encode c).set i x))
    (hd : decode ((encode c).set i x) = .ok d) : d.verify C vk ≠ .ok () := by
  intro hv
  have henc := (encode_decode_iff hd).2 hflag
  obtain rfl := eq_of_verify_set hsig hv henc
  exact hne henc.symm

/-- A sender made up by the flag is found out, whatever byte it is made up with. -/
theorem rejects_of_sender (hsig : Unforgeable C vk c) (hsender : c.etiqueta.senderPresent = false)
    (hx : x ≠ 0) (hd : decode ((encode c).set senderFlagAt x) = .ok d) : d.verify C vk ≠ .ok () := by
  intro hv
  rw [encode_eq_wireBytes, set_wireBytes] at hd
  obtain ⟨flag, hbytes, hflag, -⟩ := decode_eq_ok_iff.1 hd
  have hget : (wireBytes c x)[senderFlagAt]? = (wireBytes d flag)[senderFlagAt]? := by rw [hbytes]
  rw [getElem?_wireBytes, getElem?_wireBytes] at hget
  obtain rfl := Option.some.inj hget
  rw [decide_eq_true hx] at hflag
  have henc : encode d = (encode c).set senderFlagAt 1 := by
    rw [encode_eq_wireBytes, hflag, encode_eq_wireBytes, set_wireBytes, ← set_wireBytes d x, ← hbytes, set_wireBytes]
    rfl
  obtain rfl := eq_of_verify_set hsig hv henc
  rw [hsender] at hflag
  cases hflag

end Tamper

/-- **Sealed bytes are non-malleable up to the byte of the sender's flag.**  A byte string that decodes is
the encoding of the result exactly if its flag is `0` or `1`; of those that say what a sealed cofre says
and verify, exactly these are its encoding; and a sealed encoding with one byte changed is rejected
exactly if its flag is `0` or `1`, or the cofre has no sender. -/
theorem sealed_bytes_rigid_iff (C : Crypto) (e : Etiqueta) (carga : Bytes) (seed : Arr 32)
    (hsig : Unforgeable C (C.verifyingKey seed) («seal» C e carga seed)) :
    (∀ b d, decode b = .ok d → (encode d = b ↔ CanonicalFlag b)) ∧
    (∀ b d, decode b = .ok d → d.verify C (C.verifyingKey seed) = .ok () →
      d.etiqueta = («seal» C e carga seed).etiqueta → d.carga = («seal» C e carga seed).carga →
      (b = encode («seal» C e carga seed) ↔ CanonicalFlag b)) ∧
    ((«seal» C e carga seed).Fits → ∀ i x y, (encode («seal» C e carga seed))[i]? = some y → x ≠ y →
      ((∀ d, decode ((encode («seal» C e carga seed)).set i x) = .ok d → d.verify C (C.verifyingKey seed) ≠ .ok ()) ↔
        CanonicalFlag ((encode («seal» C e carga seed)).set i x) ∨
          («seal» C e carga seed).etiqueta.senderPresent = false)) := by
  have hverify := verify_seal C e carga seed
  generalize «seal» C e carga seed = c at hsig hverify ⊢
  refine ⟨fun b d h => encode_decode_iff h, fun b d h hd hetiqueta hcarga => ?_, fun hfits i x y hy hne => ?_⟩
  · have hsame : d = c := eq_of_verify hsig hd (by rw [hetiqueta, hcarga])
    subst hsame
    rw [← encode_decode_iff h]
    exact eq_comm
  · have hchanged : (encode c).set i x ≠ encode c := by
      intro hsame
      have hget : ((encode c).set i x)[i]? = (encode c)[i]? := by rw [hsame]
      rw [getElem?_set_self (List.getElem?_eq_some_iff.1 hy).1, hy] at hget
      exact hne (Option.some.inj hget)
    refine ⟨fun hrejected => ?_, fun hflag d hd => ?_⟩
    · by_contra hboth
      rw [not_or, Bool.not_eq_false] at hboth
      obtain ⟨hflag, hsender⟩ := hboth
      -- the byte that was changed is the flag, and it stands for the same value
      have hi : i = senderFlagAt := by
        by_contra hi
        exact hflag (canonicalFlag_set hi x)
      subst hi
      have hx : x ≠ 0 := by
        rintro rfl
        exact hflag (.inl (by rw [encode_eq_wireBytes, set_wireBytes, getElem?_wireBytes]))
      refine hrejected c ?_ hverify
      rw [encode_eq_wireBytes, set_wireBytes]
      exact decode_wireBytes hfits (by rw [hsender, decide_eq_true hx])
    · by_cases hi : i = senderFlagAt
      · rcases hflag with hflag | hsender
        · exact rejects_of_canonicalFlag hsig hchanged hflag hd
        · subst hi
          rw [encode_eq_wireBytes, getElem?_wireBytes, hsender] at hy
          exact rejects_of_sender hsig hsender (fun h => hne (h.trans (Option.some.inj hy))) hd
      · exact rejects_of_canonicalFlag hsig hchanged (canonicalFlag_set hi x) hd

section Instance

/-- A stand-in that signs one message with a mark of its own. -/
def marking (m : Bytes) : Crypto :=
  { transparent with
    sign := fun _ msg => if msg = m then fit 64 [1] else Arr.zero 64
    verify := fun _ msg sig => decide (sig = if msg = m then fit 64 [1] else Arr.zero 64)
    verify_sign := fun _ _ => decide_eq_true rfl }

/-- What `seal` signs, with the hash of `marking`. -/
def sealedRegion (e : Etiqueta) (carga : Bytes) (seed : Arr 32) : Bytes :=
  ctxLacre ++ signedRegion («seal» .transparent e carga seed).etiqueta carga

theorem verifyDomain_marking (m context : Bytes) (vk : Arr 32) (msg : Bytes) (sig : Arr 64) :
    (marking m).verifyDomain context vk msg sig = true ↔
      sig = if context ++ msg = m then fit 64 [1] else Arr.zero 64 := decide_eq_true_iff

theorem unforgeable_marking (e : Etiqueta) (carga : Bytes) (seed vk : Arr 32) :
    Unforgeable (marking (sealedRegion e carga seed)) vk
      («seal» (marking (sealedRegion e carga seed)) e carga seed) := by
  generalize hm : sealedRegion e carga seed = m
  have hregion : ctxLacre ++ signedRegion («seal» (marking m) e carga seed).etiqueta
      («seal» (marking m) e carga seed).carga = m := hm
  generalize hc : «seal» (marking m) e carga seed = c at hregion
  have hlacre : c.lacre = fit 64 [1] := by
    have hvalid := verify_eq_ok (verify_seal (marking m) e carga seed)
    rw [hc, verifyDomain_marking, if_pos hregion] at hvalid
    exact hvalid
  refine ⟨fun sig h => ?_, fun msg h => ?_⟩
  · rw [verifyDomain_marking, if_pos hregion] at h
    rw [h, hlacre]
  · rw [verifyDomain_marking, hlacre] at h
    split_ifs at h with hmsg
    · exact append_cancel_left (hmsg.trans hregion.symm)
    · exact absurd h (by decide)

/-- A header with a sender. -/
def sentHeader : Etiqueta :=
  ⟨Arr.zero 16, Arr.zero 16, 1, Arr.zero 32, Arr.zero 32, Arr.zero 32, .gcm256, Arr.zero 12, Arr.zero 32,
    Arr.zero 32, true, 5⟩

/-- Whoever clears the flag of a sealed cofre with a sender is found out. -/
theorem sealed_bytes_rigid_cleared :
    let C := marking (sealedRegion sentHeader [7] (Arr.zero 32))
    let c := «seal» C sentHeader [7] (Arr.zero 32)
    ∀ d, decode ((encode c).set senderFlagAt 0) = .ok d → d.verify C (C.verifyingKey (Arr.zero 32)) ≠ .ok () := by
  intro C c
  have hrigid := sealed_bytes_rigid_iff C sentHeader [7] (Arr.zero 32) (unforgeable_marking _ _ _ _)
  exact (hrigid.2.2 (by unfold Fits; decide) senderFlagAt 0 1 (by decide +kernel) (by decide)).2 (.inl (by decide +kernel))

/-- A flag of `2`: other bytes, the same cofre, and the signature is good. -/
theorem sealed_bytes_malleable :
    let C := marking (sealedRegion sentHeader [7] (Arr.zero 32))
    let c := «seal» C sentHeader [7] (Arr.zero 32)
    (encode c).set senderFlagAt 2 ≠ encode c ∧ decode ((encode c).set senderFlagAt 2) = .ok c ∧
      c.verify C (C.verifyingKey (Arr.zero 32)) = .ok () := by
  decide +kernel

end Instance

end Datarail.Cofre
