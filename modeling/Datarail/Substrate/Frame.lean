/-
# Cofres on a substrate

What the substrates share: the limit of a cofre on the wire (`datarail-core`), the texts of the errors a
cofre is refused with (`datarail-cofre`), and the frame that the byte streams and the shared memory carry, a
little-endian length and the cofre.
-/

import Datarail.Cofre.Format
import Datarail.Lib.IoError

namespace Datarail.Substrate

open Lib List

/-- `MAX_COFRE_WIRE_LEN`. -/
def maxCofreWireLen : ℕ := 64 * 1024 * 1024

/-- `CofreError` as text. -/
def errorText : CofreError → String
  | .truncated => "cofre truncated"
  | .badMagic => "bad magic"
  | .badVersion => "unsupported version"
  | .badLength => "inconsistent length"
  | .badAead => "unknown AEAD selector"
  | .cofreIdMismatch => "cofre_id != BLAKE3(carga)"
  | .signerMismatch => "signer_key_id != pinned key"
  | .badSignature => "seal verification failed"

/-- A cofre with its length before it. -/
def frame (cofre : Cofre) : Bytes := leBytes 4 cofre.encode.length ++ cofre.encode

/-- A cofre within the limit. -/
def Carried (cofre : Cofre) : Prop := cofre.encode.length ≤ maxCofreWireLen

instance (cofre : Cofre) : Decidable (Carried cofre) := inferInstanceAs (Decidable (_ ≤ _))

variable {cofre : Cofre}

theorem length_frame (cofre : Cofre) : (frame cofre).length = 4 + cofre.encode.length := by
  rw [frame, length_append, length_leBytes]

theorem frame_pos (cofre : Cofre) : 4 < (frame cofre).length := by
  rw [length_frame, Cofre.length_encode]
  omega

theorem Carried.decode (h : Carried cofre) : Cofre.decode cofre.encode = .ok cofre := by
  refine Cofre.decode_encode ?_
  have hmax : maxCofreWireLen < 2 ^ 64 := by decide
  rw [Carried, Cofre.length_encode] at h
  unfold Cofre.Fits
  omega

/-! ### What was sent and what was received -/

/-- What a call of `send` or `recv` returns. -/
inductive Answer where
  | sent (cofre : Cofre) (result : Except IoError Unit)
  | received (result : Except IoError (Option Cofre))

/-- The cofre of a `send` that returned `Ok`. -/
def Answer.accepted : Answer → Option Cofre
  | .sent cofre (.ok ()) => some cofre
  | _ => none

/-- The cofre of a `recv` that returned one. -/
def Answer.delivered : Answer → Option Cofre
  | .received (.ok cofre) => cofre
  | _ => none

section

variable {ε : Type}

/-- The cofres whose `send` returned `Ok`, in order. -/
def accepted (h : List (ε × Option Answer)) : List Cofre := h.filterMap fun x => x.2.bind Answer.accepted

/-- The cofres `recv` has returned, in order. -/
def delivered (h : List (ε × Option Answer)) : List Cofre := h.filterMap fun x => x.2.bind Answer.delivered

theorem accepted_concat (h : List (ε × Option Answer)) (e : ε) (a : Option Answer) :
    accepted (h ++ [(e, a)]) = accepted h ++ (a.bind Answer.accepted).toList := by
  cases hx : a.bind Answer.accepted <;> simp [accepted, hx]

theorem delivered_concat (h : List (ε × Option Answer)) (e : ε) (a : Option Answer) :
    delivered (h ++ [(e, a)]) = delivered h ++ (a.bind Answer.delivered).toList := by
  cases hx : a.bind Answer.delivered <;> simp [delivered, hx]

end

end Datarail.Substrate
