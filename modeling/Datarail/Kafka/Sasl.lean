/-
# SASL/PLAIN

`crates/datarail-kafka/src/sasl.rs`: the token of `SaslAuthenticate` is cut at its
first two NUL bytes, and the second and the third part are compared with the
user and the password.  A comparison runs over all bytes and accumulates what
differs; both are made, whatever the first one says.

`verifyPlain_iff` is what that comes to: with a user that has no NUL byte, the
tokens that pass are `x NUL user NUL password` with no NUL byte in `x`.
-/

import Datarail.Kafka.Codec
import Datarail.Lib.Text

namespace Datarail.Kafka

open Lib List

/-- `API_SASL_HANDSHAKE`. -/
def apiSaslHandshake : ℤ := 17

/-- `API_SASL_AUTHENTICATE`. -/
def apiSaslAuthenticate : ℤ := 36

/-- `UNSUPPORTED_SASL_MECHANISM`. -/
def unsupportedSaslMechanism : ℤ := 33

/-- `SASL_AUTHENTICATION_FAILED`. -/
def saslAuthenticationFailed : ℤ := 58

/-- `PLAIN`. -/
def plain : String := "PLAIN"

/-- `SaslCreds`. -/
structure SaslCreds where
  user : String
  pass : String

/-- `parse_sasl_handshake`: the mechanism. -/
def parseSaslHandshake : Reader String := Reader.string

/-- `parse_sasl_authenticate`: the token. -/
def parseSaslAuthenticate : Reader (List UInt8) := Reader.bytes

/-- `splitn(n, |b| b == 0)`: at most `n` parts, the last one with whatever is left. -/
def splitn : ℕ → List UInt8 → List (List UInt8)
  | 0, _ => []
  | 1, bytes => [bytes]
  | n + 2, bytes =>
    match bytes.dropWhile (· ≠ 0) with
    | [] => [bytes]
    | _ :: rest => bytes.takeWhile (· ≠ 0) :: splitn (n + 1) rest

/-- `ct_eq`: what differs is accumulated over all bytes. -/
def ctEq (a b : List UInt8) : Bool :=
  if a.length ≠ b.length then false
  else (a.zip b).foldl (fun diff p => diff ||| (p.1 ^^^ p.2)) 0 == (0 : UInt8)

/-- `verify_plain`. -/
def verifyPlain (token : List UInt8) (user pass : String) : Bool :=
  match splitn 3 token with
  | _authzid :: authcid :: passwd :: _ => ctEq authcid (utf8Bytes user) && ctEq passwd (utf8Bytes pass)
  | _ => false

/-- The token of a user and a password, with no NUL byte in front of the first one. -/
def Credential (creds : SaslCreds) (token : List UInt8) : Prop :=
  ∃ x, 0 ∉ x ∧ token = x ++ 0 :: (utf8Bytes creds.user ++ 0 :: utf8Bytes creds.pass)

/-- Nothing that was accumulated goes away. -/
theorem foldl_diff_eq_zero {ps : List (UInt8 × UInt8)} {diff : UInt8} :
    ps.foldl (fun diff p => diff ||| (p.1 ^^^ p.2)) diff = 0 ↔ diff = 0 ∧ ∀ p ∈ ps, p.1 = p.2 := by
  induction ps generalizing diff with
  | nil => simp
  | cons p ps ih =>
    rw [foldl_cons, ih, forall_mem_cons, UInt8.or_eq_zero_iff, UInt8.xor_eq_zero_iff, and_assoc]

/-- **The comparison decides equality.** -/
theorem ctEq_iff {a b : List UInt8} : ctEq a b = true ↔ a = b := by
  unfold ctEq
  by_cases hlen : a.length = b.length
  · rw [if_neg (not_not.2 hlen), beq_iff_eq, foldl_diff_eq_zero]
    constructor
    · rintro ⟨-, hall⟩
      refine ext_getElem hlen fun i ha hb => ?_
      exact hall (a[i], b[i]) (mem_iff_getElem.2 ⟨i, by rw [length_zip]; omega, getElem_zip⟩)
    · rintro rfl
      refine ⟨rfl, fun p hp => ?_⟩
      obtain ⟨i, hi, rfl⟩ := mem_iff_getElem.1 hp
      rw [getElem_zip]
  · rw [if_pos hlen]
    exact ⟨nofun, fun h => absurd (congrArg length h) hlen⟩

/-- Cutting at the first NUL byte. -/
theorem dropWhile_eq_cons {bytes rest : List UInt8} {b : UInt8} (h : bytes.dropWhile (· ≠ 0) = b :: rest) :
    b = 0 ∧ bytes = bytes.takeWhile (· ≠ 0) ++ 0 :: rest := by
  have hb : b = 0 := by
    have hhead := head?_dropWhile_not (fun c : UInt8 => decide (c ≠ 0)) bytes
    rw [h] at hhead
    simpa using hhead
  subst hb
  refine ⟨rfl, ?_⟩
  rw [← h, takeWhile_append_dropWhile]

theorem zero_notMem_takeWhile (bytes : List UInt8) : 0 ∉ bytes.takeWhile (· ≠ 0) := by
  intro h
  have hall := all_eq_true.1 (all_takeWhile (p := fun b : UInt8 => decide (b ≠ 0)) (l := bytes)) 0 h
  simp at hall

theorem takeWhile_dropWhile_append {x rest : List UInt8} (h : 0 ∉ x) :
    (x ++ 0 :: rest).takeWhile (· ≠ 0) = x ∧ (x ++ 0 :: rest).dropWhile (· ≠ 0) = 0 :: rest := by
  have hall : ∀ b ∈ x, decide (b ≠ 0) = true := fun b hb => decide_eq_true fun hzero => h (hzero ▸ hb)
  refine ⟨?_, ?_⟩
  · rw [takeWhile_append_of_pos hall, takeWhile_cons_of_neg (by simp), append_nil]
  · rw [dropWhile_append_of_pos hall, dropWhile_cons_of_neg (by simp)]

/-- **The tokens that pass.** -/
theorem verifyPlain_iff {creds : SaslCreds} (huser : 0 ∉ utf8Bytes creds.user) (token : List UInt8) :
    verifyPlain token creds.user creds.pass = true ↔ Credential creds token := by
  constructor
  · intro h
    simp only [verifyPlain, splitn] at h
    rcases hfirst : token.dropWhile (· ≠ 0) with _ | ⟨b, rest⟩
    · rw [hfirst] at h
      cases h
    · rw [hfirst] at h
      dsimp only at h
      obtain ⟨-, htoken⟩ := dropWhile_eq_cons hfirst
      rcases hsecond : rest.dropWhile (· ≠ 0) with _ | ⟨b', rest'⟩
      · rw [hsecond] at h
        cases h
      · rw [hsecond] at h
        obtain ⟨-, hrest⟩ := dropWhile_eq_cons hsecond
        obtain ⟨hu, hp⟩ := Bool.and_eq_true_iff.1 h
        rw [ctEq_iff] at hu hp
        refine ⟨token.takeWhile (· ≠ 0), zero_notMem_takeWhile token, ?_⟩
        rw [← hu, ← hp, ← hrest, ← htoken]
  · rintro ⟨x, hx, rfl⟩
    obtain ⟨htake, hdrop⟩ := @takeWhile_dropWhile_append x (utf8Bytes creds.user ++ 0 :: utf8Bytes creds.pass) hx
    obtain ⟨htake', hdrop'⟩ := @takeWhile_dropWhile_append _ (utf8Bytes creds.pass) huser
    simp only [verifyPlain, splitn, hdrop, hdrop', htake']
    rw [Bool.and_eq_true, ctEq_iff, ctEq_iff]
    exact ⟨rfl, rfl⟩

end Datarail.Kafka
