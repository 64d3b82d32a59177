/-
# The erasure-coded store

`ErasureStore` of `crates/datarail-replication/src/lib.rs`: a record is cut into `k` data shards of one
length, the last ones padded with zeros, and `m` parity shards are computed for them.  The shards are the
blobs `<id>/0`, `<id>/1`, …, and the length of the record is the blob `<id>/len`.  `get` takes the first `k`
shards that are still there.
-/

import Datarail.Blobstore.Store
import Datarail.Erasure.Mds
import Datarail.Lib.MachineInt
import Datarail.Lib.Text

namespace Datarail.Replication

open Lib Blobstore Erasure List

/-- Byte strings. -/
abbrev Bytes := List UInt8

/-- `ErasureStore`, without the blob store under it. -/
structure ErasureStore where
  rs : Rs
  k : ℕ
  m : ℕ
  /-- The codec was built for these numbers. -/
  built : Rs.new k m = .ok rs

namespace ErasureStore

/-- `ErasureStore::new`. -/
def new (k m : ℕ) : Except IoError ErasureStore :=
  match h : Rs.new k m with
  | .ok rs => .ok { rs := rs, k := k, m := m, built := h }
  | .error e => .error ⟨.invalidInput, e.text⟩

/-- `shard_key`. -/
def shardKey (id : String) (i : ℕ) : String := id ++ "/" ++ toString i

/-- `len_key`. -/
def lenKey (id : String) : String := id ++ "/len"

variable {σ : Type} [BlobStore σ]

/-- One `put` after the other, up to the first that fails. -/
def putAll : σ → List (String × Bytes) → σ × Except IoError Unit
  | s, [] => (s, .ok ())
  | s, (key, bytes) :: writes =>
    match BlobStore.put s key bytes with
    | (s, .ok _) => putAll s writes
    | (s, .error e) => (s, .error e)

/-- The length of a shard. -/
def shardLen (st : ErasureStore) (data : Bytes) : ℕ := max ((data.length + st.k - 1) / st.k) 1

/-- The record, padded with zeros to `k` shards. -/
def padded (st : ErasureStore) (data : Bytes) : Bytes :=
  data ++ replicate (st.shardLen data * st.k - data.length) 0

/-- The data shards of a record. -/
def shards (st : ErasureStore) (data : Bytes) : List Bytes := chunks (st.shardLen data) (st.padded data)

/-- The shards of a record under their keys. -/
def shardWrites (id : String) (shards parity : List Bytes) (k : ℕ) : List (String × Bytes) :=
  (shards.mapIdx fun i shard => (shardKey id i, shard)) ++ parity.mapIdx fun j p => (shardKey id (k + j), p)

/-- `put`. -/
def put (st : ErasureStore) (s : σ) (id : String) (data : Bytes) : σ × Except IoError Unit :=
  match st.rs.encode (st.shards data) with
  | .error e => (s, .error ⟨.invalidData, e.text⟩)
  | .ok parity =>
    match putAll s (shardWrites id (st.shards data) parity st.k) with
    | (s, .error e) => (s, .error e)
    | (s, .ok _) =>
      if data.length < 2 ^ 64 then BlobStore.put s (lenKey id) (leBytes 8 data.length)
      else (s, .error ⟨.invalidData, "out of range integral type conversion attempted"⟩)

/-- The loop that gathers the shards that still exist. -/
def gather (id : String) : σ → List ℕ → σ × Except IoError (List (ℕ × Bytes))
  | s, [] => (s, .ok [])
  | s, i :: is =>
    match BlobStore.get s (shardKey id i) with
    | (s, .error e) => (s, .error e)
    | (s, .ok found) =>
      match gather id s is with
      | (s, .error e) => (s, .error e)
      | (s, .ok survivors) => (s, .ok ((found.toList.map fun bytes => (i, bytes)) ++ survivors))

/-- What is made of the survivors of a record of `origLen` bytes. -/
def assemble (st : ErasureStore) (origLen : ℕ) (survivors : List (ℕ × Bytes)) : Except IoError (Option Bytes) :=
  if survivors.length < st.k then .ok none
  else
    match st.rs.reconstruct survivors with
    | .error e => .error ⟨.invalidData, e.text⟩
    | .ok dataShards => .ok (some (dataShards.flatten.take origLen))

/-- `get`. -/
def get (st : ErasureStore) (s : σ) (id : String) : σ × Except IoError (Option Bytes) :=
  match BlobStore.get s (lenKey id) with
  | (s, .error e) => (s, .error e)
  | (s, .ok none) => (s, .ok none)
  | (s, .ok (some lenBytes)) =>
    if lenBytes.length ≠ 8 then (s, .error ⟨.invalidData, "corrupt length header"⟩)
    else
      match gather id s (range (st.k + st.m)) with
      | (s, .error e) => (s, .error e)
      | (s, .ok survivors) => (s, st.assemble (leNat lenBytes) survivors)

/-! ## The keys -/

theorem toList_shardKey (id : String) (i : ℕ) : (shardKey id i).toList = id.toList ++ '/' :: Nat.toDigits 10 i := by
  simp [shardKey]

theorem toList_lenKey (id : String) : (lenKey id).toList = id.toList ++ '/' :: ['l', 'e', 'n'] := by
  simp [lenKey]

theorem shardKey_inj {id id' : String} {i j : ℕ} (h : shardKey id i = shardKey id' j) : id = id' ∧ i = j := by
  have hlist := congrArg String.toList h
  rw [toList_shardKey, toList_shardKey] at hlist
  obtain ⟨hid, hdigits⟩ := append_cons_inj_right (notMem_toDigits rfl i) (notMem_toDigits rfl j) hlist
  exact ⟨String.toList_inj.1 hid, toDigits_inj hdigits⟩

theorem lenKey_inj {id id' : String} (h : lenKey id = lenKey id') : id = id' := by
  have hlist := congrArg String.toList h
  rw [toList_lenKey, toList_lenKey] at hlist
  exact String.toList_inj.1 (append_cons_inj_right (by decide) (by decide) hlist).1

theorem shardKey_ne_lenKey (id id' : String) (i : ℕ) : shardKey id i ≠ lenKey id' := by
  intro h
  have hlist := congrArg String.toList h
  rw [toList_shardKey, toList_lenKey] at hlist
  obtain ⟨-, hdigits⟩ := append_cons_inj_right (notMem_toDigits rfl i) (by decide) hlist
  exact notMem_toDigits (c := 'l') rfl i (by rw [hdigits]; simp)

end ErasureStore
end Datarail.Replication
