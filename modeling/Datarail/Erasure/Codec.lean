/-
# The erasure codec

`Rs` of `crates/datarail-erasure/src/lib.rs`: a systematic Reed-Solomon code with `k` data shards and
`m` parity shards.  `encode` computes the parity shards, `reconstruct` the data shards from any `k` of
the `k + m` shards, by inverting the rows of the code matrix that belong to them.
-/

import Datarail.Erasure.Field
import Datarail.Lib.Elimination

namespace Datarail.Erasure

/-- Byte strings. -/
abbrev Bytes := List UInt8

/-- `ErasureError`. -/
inductive ErasureError where
  | badParams
  | wrongShardCount
  | raggedShards
  | notEnoughShards
  | badShardIndex
  deriving DecidableEq, Repr

/-- The text of an error. -/
def ErasureError.text : ErasureError → String
  | .badParams => "k/m out of range (need k>=1, m>=1, k+m<=255)"
  | .wrongShardCount => "wrong number of data shards (expected k)"
  | .raggedShards => "shards are not all the same length"
  | .notEnoughShards => "fewer than k surviving shards — cannot reconstruct"
  | .badShardIndex => "shard index out of range or duplicated"

/-- `Rs`. -/
structure Rs where
  k : ℕ
  m : ℕ
  /-- Row `i` produces parity shard `i`. -/
  cauchy : List (List UInt8)
  deriving DecidableEq, Repr

/-- `u8::try_from` with its error mapped. -/
def tryU8 (n : ℕ) : Except ErasureError UInt8 :=
  if n < 256 then .ok (UInt8.ofNat n) else .error .badParams

/-- `out ^= coeff · bytes`, byte by byte as far as both go. -/
def mulAdd (coeff : UInt8) : Bytes → Bytes → Bytes
  | o :: out, s :: bytes => (o ^^^ gfMul coeff s) :: mulAdd coeff out bytes
  | out, _ => out

/-- `out ^= Σ coeff · bytes`; a coefficient 0 is passed over. -/
def combine : Bytes → List (Bytes × UInt8) → Bytes
  | out, [] => out
  | out, (bytes, coeff) :: terms => combine (if coeff = 0 then out else mulAdd coeff out bytes) terms

/-- `inv[j][r]`. -/
def entry (matrix : List (List UInt8)) (r c : ℕ) : UInt8 := (matrix.getD r []).getD c 0

/-- `invert`: elimination on `[matrix | 1]`, with `gf_inv` for the reciprocals. -/
def invert (matrix : List (List UInt8)) : Option (List (List UInt8)) :=
  Lib.Elimination.invert (K := Gf256) gfInv matrix

namespace Rs

/-- `Rs::new`. -/
def new (k m : ℕ) : Except ErasureError Rs :=
  if k < 1 ∨ m < 1 ∨ k + m > 255 then .error .badParams
  else do
    let cauchy ← (List.range m).mapM fun i => (List.range k).mapM fun j => do
      let x ← tryU8 i
      let y ← tryU8 (m + j)
      return gfInv (x ^^^ y)
    return { k := k, m := m, cauchy := cauchy }

/-- The parity shards of `k` data shards of `len` bytes: the loop of `encode`. -/
def parity (rs : Rs) (len : ℕ) (data : List Bytes) : List Bytes :=
  List.zipWith (fun prow crow => combine prow (data.zip crow)) (List.replicate rs.m (List.replicate len 0)) rs.cauchy

/-- The length of the first shard. -/
def firstLen (data : List Bytes) : ℕ := (data.head?.map List.length).getD 0

/-- `Rs::encode`. -/
def encode (rs : Rs) (data : List Bytes) : Except ErasureError (List Bytes) :=
  if data.length ≠ rs.k then .error .wrongShardCount
  else
    let len := firstLen data
    if data.any fun s => s.length ≠ len then .error .raggedShards
    else .ok (rs.parity len data)

/-- `Rs::code_row`. -/
def codeRow (rs : Rs) (idx : ℕ) : List UInt8 :=
  if idx < rs.k then (List.replicate rs.k 0).set idx 1 else rs.cauchy.getD (idx - rs.k) []

/-- One survivor is looked at: its index, then its length. -/
def checkShard (rs : Rs) (len : ℕ) (seen : List Bool) : ℕ × Bytes → Except ErasureError (List Bool)
  | (idx, b) =>
    if idx ≥ rs.k + rs.m ∨ seen.getD idx false then .error .badShardIndex
    else
      let seen := seen.set idx true
      if b.length ≠ len then .error .raggedShards else .ok seen

/-- `Rs::reconstruct`. -/
def reconstruct (rs : Rs) (survivors : List (ℕ × Bytes)) : Except ErasureError (List Bytes) :=
  if survivors.length < rs.k then .error .notEnoughShards
  else do
    let chosen := survivors.take rs.k
    let len := firstLen (chosen.map Prod.snd)
    let _ ← chosen.foldlM (rs.checkShard len) (List.replicate (rs.k + rs.m) false)
    let matrix := chosen.map fun (idx, _) => rs.codeRow idx
    match invert matrix with
    | none => .error .badShardIndex
    | some inv =>
      return (List.range rs.k).map fun j =>
        combine (List.replicate len 0) (chosen.mapIdx fun r (_, bytes) => (bytes, entry inv j r))

end Rs

end Datarail.Erasure
