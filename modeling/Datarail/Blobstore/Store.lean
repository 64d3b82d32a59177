/-
# Blob stores

The trait `BlobStore` of `crates/datarail-blobstore/src/lib.rs`: opaque keys to bytes, with `put`, `get`,
`list` and `delete`.  A store is a state that every operation may change, a read that fails today and not
tomorrow included.

`LawfulBlobStore` is what the callers rely on, over an abstract content: a `put` that succeeds has stored
the bytes, one that fails has stored them or changed nothing, and a read returns what is stored.  `MemBlob`
is the reference implementation, `FlakyBlob` one whose writes may be refused or lose their answer.
-/

import Datarail.Lib.Collections
import Datarail.Lib.IoError
import Mathlib.Data.String.Basic

namespace Datarail.Blobstore

open Lib

/-- Byte strings. -/
abbrev Bytes := List UInt8

/-- `BlobStore`. -/
class BlobStore (σ : Type) where
  put : σ → String → Bytes → σ × Except IoError Unit
  get : σ → String → σ × Except IoError (Option Bytes)
  list : σ → String → σ × Except IoError (List String)
  delete : σ → String → σ × Except IoError Bool

/-- A store whose reads do not fail, over what it holds. -/
class LawfulBlobStore (σ : Type) extends BlobStore σ where
  /-- What is stored. -/
  view : σ → Table String Bytes
  get_eq : ∀ s key, get s key = (s, .ok ((view s).get key))
  view_put_ok : ∀ s key bytes, (put s key bytes).2 = .ok () → view (put s key bytes).1 = (view s).insert key bytes
  view_put_error : ∀ s key bytes e, (put s key bytes).2 = .error e →
    view (put s key bytes).1 = view s ∨ view (put s key bytes).1 = (view s).insert key bytes
  /-- The blob of a key is lost. -/
  lose : σ → String → σ
  view_lose : ∀ s key, view (lose s key) = (view s).erase key

/-- `MemBlob`. -/
structure MemBlob where
  map : AList fun _ : String => Bytes

namespace MemBlob

/-- `MemBlob::new`. -/
def new : MemBlob := ⟨∅⟩

instance : BlobStore MemBlob where
  put s key bytes := (⟨s.map.insert key bytes⟩, .ok ())
  get s key := (s, .ok (s.map.lookup key))
  list s start := (s, .ok ((sortedKeys s.map).filter fun key => start.toList.isPrefixOf key.toList))
  delete s key := (⟨s.map.erase key⟩, .ok (s.map.lookup key).isSome)

/-- What is stored. -/
def view (s : MemBlob) : Table String Bytes := ⟨fun key => s.map.lookup key⟩

theorem view_insert (s : MemBlob) (key : String) (bytes : Bytes) :
    view ⟨s.map.insert key bytes⟩ = s.view.insert key bytes := by
  refine Table.ext fun j => ?_
  rw [Table.get_insert]
  exact lookup_insert_ite s.map key j bytes

theorem view_erase (s : MemBlob) (key : String) : view ⟨s.map.erase key⟩ = s.view.erase key := by
  refine Table.ext fun j => ?_
  rw [Table.get_erase]
  exact lookup_erase_ite s.map key j

instance : LawfulBlobStore MemBlob where
  view := view
  get_eq _ _ := rfl
  view_put_ok s key bytes _ := view_insert s key bytes
  view_put_error _ _ _ _ h := by cases h
  lose s key := ⟨s.map.erase key⟩
  view_lose := view_erase

end MemBlob

/-- What becomes of a write. -/
inductive WriteFault where
  | none
  /-- Nothing is written. -/
  | refused
  /-- The bytes are written and the caller is told otherwise. -/
  | unanswered
  deriving DecidableEq, Repr

/-- A `MemBlob` and what will become of the next writes; after those, all is well. -/
structure FlakyBlob where
  blob : MemBlob
  faults : List WriteFault

namespace FlakyBlob

/-- The error of a write. -/
def failure : IoError := ⟨.other, "write failed"⟩

/-- `put` under the next fault. -/
def put (s : FlakyBlob) (key : String) (bytes : Bytes) : FlakyBlob × Except IoError Unit :=
  match s.faults.headD .none with
  | .none => (⟨⟨s.blob.map.insert key bytes⟩, s.faults.tail⟩, .ok ())
  | .refused => (⟨s.blob, s.faults.tail⟩, .error failure)
  | .unanswered => (⟨⟨s.blob.map.insert key bytes⟩, s.faults.tail⟩, .error failure)

instance : BlobStore FlakyBlob where
  put := put
  get s key := (s, .ok (s.blob.map.lookup key))
  list s start := (s, (BlobStore.list s.blob start).2)
  delete s key := (⟨⟨s.blob.map.erase key⟩, s.faults⟩, .ok (s.blob.map.lookup key).isSome)

instance : LawfulBlobStore FlakyBlob where
  view s := s.blob.view
  get_eq _ _ := rfl
  view_put_ok s key bytes h := by
    change (put s key bytes).2 = _ at h
    change (put s key bytes).1.blob.view = _
    unfold put at h ⊢
    split at h
    · exact MemBlob.view_insert s.blob key bytes
    · cases h
    · cases h
  view_put_error s key bytes e h := by
    change (put s key bytes).1.blob.view = _ ∨ (put s key bytes).1.blob.view = _
    unfold put
    split
    · exact .inr (MemBlob.view_insert s.blob key bytes)
    · exact .inl rfl
    · exact .inr (MemBlob.view_insert s.blob key bytes)
  lose s key := ⟨⟨s.blob.map.erase key⟩, s.faults⟩
  view_lose s key := MemBlob.view_erase s.blob key

end FlakyBlob

end Datarail.Blobstore
