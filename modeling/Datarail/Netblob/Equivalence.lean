/-
# The remote store is the local one

`request` and `response` are the frames of the format.  The proof follows a frame on its way: the splitting
of the transport is not felt (`readFrame_frame`), so an operation is one call of `handleOp`
(`roundTrip_eq`); the server reads the request it was sent and answers with the response
(`handleOp_request`), and the client reads back from it what the store returned.  A frame within `MAX_FRAME`
has all its counts and lengths within 32 bits.
-/

import Datarail.Lib.Run
import Datarail.Netblob.Wire
import Mathlib.Algebra.Order.BigOperators.Group.List

namespace Datarail.Netblob

open Lib Blobstore List Reader BlobStore

/-- An operation of a blob store. -/
inductive Op where
  | put (key : String) (bytes : Bytes)
  | get (key : String)
  | list (start : String)
  | delete (key : String)
  deriving DecidableEq

/-- What an operation returns. -/
inductive Reply where
  | stored
  | value (bytes : Option Bytes)
  | keys (keys : List String)
  | existed (existed : Bool)
  deriving DecidableEq

/-- The frame of a request. -/
def Op.request : Op → Bytes
  | .put key bytes => opPut :: leBytes 4 (utf8Bytes key).length ++ utf8Bytes key ++ bytes
  | .get key => opGet :: utf8Bytes key
  | .list start => opList :: utf8Bytes start
  | .delete key => opDelete :: utf8Bytes key

/-- A key with its length. -/
def keyField (key : String) : Bytes := leBytes 4 (utf8Bytes key).length ++ utf8Bytes key

/-- The frame of a response. -/
def response : Except IoError Reply → Bytes
  | .ok .stored => [statusOk]
  | .ok (.value bytes) => getPayload bytes
  | .ok (.keys keys) => statusOk :: leBytes 4 keys.length ++ keys.flatMap keyField
  | .ok (.existed existed) => [statusOk, existed.toUInt8]
  | .error e => statusErr :: utf8Bytes e.text

section

variable {σ : Type} [BlobStore σ]

/-- The operation on the store itself. -/
def Op.onStore (op : Op) (s : σ) : σ × Except IoError Reply :=
  match op with
  | .put key bytes => ((BlobStore.put s key bytes).1, (BlobStore.put s key bytes).2.map fun () => .stored)
  | .get key => ((BlobStore.get s key).1, (BlobStore.get s key).2.map .value)
  | .list start => ((BlobStore.list s start).1, (BlobStore.list s start).2.map .keys)
  | .delete key => ((BlobStore.delete s key).1, (BlobStore.delete s key).2.map .existed)

/-- The operation through the client. -/
def Op.overNetwork (lossy : Bytes → String) (splits : Splits) (op : Op) (s : σ) : σ × Except IoError Reply :=
  match op with
  | .put key bytes =>
    ((NetBlob.put lossy splits s key bytes).1, (NetBlob.put lossy splits s key bytes).2.map fun () => .stored)
  | .get key => ((NetBlob.get lossy splits s key).1, (NetBlob.get lossy splits s key).2.map .value)
  | .list start => ((NetBlob.list lossy splits s start).1, (NetBlob.list lossy splits s start).2.map .keys)
  | .delete key => ((NetBlob.delete lossy splits s key).1, (NetBlob.delete lossy splits s key).2.map .existed)

/-- The frames of an operation stay within `MAX_FRAME`. -/
def Fits (s : σ) (op : Op) : Prop :=
  op.request.length ≤ maxFrame ∧ (response (op.onStore s).2).length ≤ maxFrame

instance (s : σ) (op : Op) : Decidable (Fits s op) := inferInstanceAs (Decidable (_ ∧ _))

end

theorem lenU32_of_le {n : ℕ} (h : n ≤ maxFrame) : lenU32 n = .ok n :=
  if_pos (Nat.lt_of_le_of_lt h (by decide))

theorem leNat_leBytes_of_le {n : ℕ} (h : n ≤ maxFrame) : leNat (leBytes 4 n) = n :=
  leNat_leBytes_of_lt (Nat.lt_of_le_of_lt h (by decide))

/-! ### Frames -/

section

variable {body : Bytes} (hbody : body.length ≤ maxFrame)

include hbody

theorem writeFrame_eq : writeFrame body = .ok (leBytes 4 body.length ++ body) := by
  rw [writeFrame, lenU32_of_le hbody]
  rfl

/-- A frame is read whatever the sizes of the reads. -/
theorem readFrame_frame (rest : Bytes) (sizes : List ℕ) :
    ∃ sizes', readFrame ⟨leBytes 4 body.length ++ body ++ rest, sizes⟩ = (⟨rest, sizes'⟩, .ok (some body)) := by
  obtain ⟨sizes₁, hlen⟩ := Pipe.readExact_append (leBytes 4 body.length) (body ++ rest) sizes
  obtain ⟨sizes₂, hread⟩ := Pipe.readExact_append body rest sizes₁
  rw [length_leBytes] at hlen
  refine ⟨sizes₂, ?_⟩
  rw [readFrame, append_assoc, hlen]
  simp only [leNat_leBytes_of_le hbody, if_neg (Nat.not_lt.2 hbody), hread]

end

theorem readFrame_nil (sizes : List ℕ) : (readFrame ⟨[], sizes⟩).2 = .ok none := by
  have h := Pipe.readExact_nil (α := UInt8) 3 sizes
  rw [readFrame]
  rcases hread : Pipe.readExact ⟨[], sizes⟩ 4 with ⟨stream, _ | lenBuf⟩
  · rfl
  · rw [hread] at h
    cases h

section

variable {σ : Type} [BlobStore σ] {s : σ} {body : Bytes}

/-- A connection on which one request is sent. -/
theorem serveConnection_frame (hbody : body.length ≤ maxFrame) (hresponse : (handleOp body s).2.length ≤ maxFrame)
    (rounds : ℕ) (sizes : List ℕ) :
    serveConnection (rounds + 1) ⟨leBytes 4 body.length ++ body, sizes⟩ s =
      ((handleOp body s).1, leBytes 4 (handleOp body s).2.length ++ (handleOp body s).2) := by
  obtain ⟨sizes', hread⟩ := readFrame_frame hbody [] sizes
  rw [append_nil] at hread
  have hnext : serveConnection rounds ⟨[], sizes'⟩ (handleOp body s).1 = ((handleOp body s).1, []) := by
    cases rounds with
    | zero => rfl
    | succ rounds =>
      have hend := readFrame_nil sizes'
      rw [serveConnection]
      rcases hnil : readFrame ⟨[], sizes'⟩ with ⟨stream, end_⟩
      rw [hnil] at hend
      obtain rfl : end_ = .ok none := hend
      rfl
  rw [serveConnection, hread]
  simp only [writeFrame_eq hresponse, hnext, append_nil]

/-- **An operation is one call of `handle_op`**, whatever the transport makes of the bytes. -/
theorem roundTrip_eq (hbody : body.length ≤ maxFrame) (hresponse : (handleOp body s).2.length ≤ maxFrame)
    (splits : Splits) : NetBlob.roundTrip splits body s = ((handleOp body s).1, .ok (handleOp body s).2) := by
  obtain ⟨sizes', hread⟩ := readFrame_frame hresponse [] splits.response
  rw [append_nil] at hread
  rw [NetBlob.roundTrip, writeFrame_eq hbody]
  simp only [serveConnection_frame hbody hresponse, hread]

end

/-! ### The server's side -/

namespace Reader

theorem take_reads {n : ℕ} {w : Bytes} (h : w.length = n) : (take n).Reads w w := Scan.Reads.take_of_length _ h

theorem u8_reads (b : UInt8) : u8.Reads [b] b := (take_reads rfl).map _

theorem u32_reads {n : ℕ} (h : n ≤ maxFrame) : u32.Reads (leBytes 4 n) n := by
  have hread : u32.Reads (leBytes 4 n) (leNat (leBytes 4 n)) := (take_reads (length_leBytes 4 n)).map _
  rwa [leNat_leBytes_of_le h] at hread

theorem utf8_reads (text key : String) : (utf8 text (utf8Bytes key)).Reads [] key :=
  .lift (by rw [ofUtf8_eq_some.2 rfl]; rfl)

theorem takeStr_reads (key : String) : (takeStr (utf8Bytes key).length).Reads (utf8Bytes key) key := by
  have h := (take_reads rfl).bind (utf8_reads "non-utf8 string field" key)
  rwa [append_nil] at h

theorem run_rest (c : Cursor UInt8) : rest.run c = .ok (c.remaining, c) := rfl

theorem run_restStr {c : Cursor UInt8} {key : String} (h : c.remaining = utf8Bytes key) :
    restStr.run c = .ok (key, c) := by
  rw [restStr, Scan.run_bind, run_rest, h]
  simp only [utf8, ofUtf8_eq_some.2 rfl]
  rfl

end Reader

/-- The keys of a list are written one after the other. -/
theorem foldlM_keys (keys : List String) (out : Bytes) (h : ∀ key ∈ keys, (utf8Bytes key).length ≤ maxFrame) :
    keys.foldlM (fun out key => do
      let len ← lenU32 (utf8Bytes key).length
      return out ++ leBytes 4 len ++ utf8Bytes key) out = .ok (out ++ keys.flatMap keyField) := by
  induction keys generalizing out with
  | nil => simp [pure, Except.pure]
  | cons key keys ih =>
    rw [foldlM_cons, lenU32_of_le (h key mem_cons_self)]
    have hrest := ih (out ++ leBytes 4 (utf8Bytes key).length ++ utf8Bytes key)
      fun key hkey => h key (mem_cons_of_mem _ hkey)
    rw [flatMap_cons, keyField, ← append_assoc, ← append_assoc, ← hrest]
    rfl

section

variable {keys : List String} (h : (response (.ok (.keys keys))).length ≤ maxFrame)

include h

theorem length_keys_le : keys.length ≤ maxFrame := by
  have hkeys : keys.length ≤ (keys.flatMap keyField).length := by
    rw [length_flatMap]
    calc keys.length = (keys.map fun _ => 1).sum := by simp
      _ ≤ (keys.map fun key => (keyField key).length).sum :=
          sum_le_sum fun key _ => by rw [keyField, length_append, length_leBytes]; omega
  simp only [response, length_append, length_cons] at h
  omega

theorem length_key_le {key : String} (hkey : key ∈ keys) : (utf8Bytes key).length ≤ maxFrame := by
  have hle : (keyField key).length ≤ (keys.flatMap keyField).length :=
    length_flatMap ▸ single_le_sum (fun _ _ => Nat.zero_le _) _ (mem_map_of_mem hkey)
  simp only [response, length_append, length_cons] at h
  rw [keyField, length_append] at hle
  omega

theorem listPayload_eq : listPayload keys = .ok (response (.ok (.keys keys))) := by
  rw [listPayload, lenU32_of_le (length_keys_le h)]
  exact foldlM_keys keys _ fun key hkey => length_key_le h hkey

end

section

variable {σ : Type} [BlobStore σ] {s : σ}

/-- The tag is read first. -/
theorem run_u8_new (tag : UInt8) (args : Bytes) :
    ∃ c, u8.run (.new (tag :: args)) = .ok (tag, c) ∧ c.pos ≤ c.buf.length ∧ c.remaining = args :=
  (u8_reads tag).run_append (Nat.zero_le _) rfl

theorem run_putRequest {c : Cursor UInt8} {key : String} {bytes : Bytes} (hkey : (utf8Bytes key).length ≤ maxFrame)
    (hc : c.pos ≤ c.buf.length) (h : c.remaining = leBytes 4 (utf8Bytes key).length ++ (utf8Bytes key ++ bytes)) :
    ∃ d, putRequest.run c = .ok ((key, bytes), d) := by
  obtain ⟨c₁, hlen, hc₁, h₁⟩ := (u32_reads hkey).bind_append (fun keyLen => do
    let key ← takeStr keyLen
    let value ← rest
    return (key, value)) hc h
  obtain ⟨c₂, hstr, -, rfl⟩ := (takeStr_reads key).bind_append (fun key => do
    let value ← rest
    return (key, value)) hc₁ h₁
  exact ⟨c₂, hlen.trans hstr⟩

/-- What `handle_op` makes of an answer. -/
theorem handleOp_of_apply {body : Bytes} {s' : σ} {r : Except IoError Reply}
    (h : apply body s = (s', r.map fun reply => response (.ok reply))) :
    handleOp body s = (s', response r) := by
  rw [handleOp, h]
  cases r <;> rfl

variable {op : Op}

/-- **The server reads the request and answers with the response.** -/
theorem handleOp_request (h : Fits s op) :
    handleOp op.request s = ((op.onStore s).1, response (op.onStore s).2) := by
  refine handleOp_of_apply ?_
  cases op with
  | put key bytes =>
    have hkey : (utf8Bytes key).length ≤ maxFrame := by
      have hlen := h.1
      simp only [Op.request, length_append] at hlen
      omega
    obtain ⟨c, htag, hc, hargs⟩ := run_u8_new opPut (leBytes 4 (utf8Bytes key).length ++ (utf8Bytes key ++ bytes))
    obtain ⟨d, hrun⟩ := run_putRequest hkey hc hargs
    rw [apply, Op.request, cons_append, cons_append, append_assoc, htag]
    simp only [if_true, answer, hrun, Op.onStore]
    cases (put s key bytes).2 <;> rfl
  | get key =>
    obtain ⟨c, htag, -, hargs⟩ := run_u8_new opGet (utf8Bytes key)
    rw [apply, Op.request, htag]
    simp only [show opGet ≠ opPut by decide, if_true, if_false, answer, run_restStr hargs, Op.onStore]
    cases (get s key).2 <;> rfl
  | list start =>
    obtain ⟨c, htag, -, hargs⟩ := run_u8_new opList (utf8Bytes start)
    have hlist := h.2
    rw [apply, Op.request, htag]
    simp only [show opList ≠ opPut by decide, show opList ≠ opGet by decide, if_true, if_false,
      answer, run_restStr hargs, Op.onStore] at hlist ⊢
    cases hkeys : (list s start).2 with
    | error e => rfl
    | ok keys =>
      rw [hkeys] at hlist
      exact congrArg (Prod.mk _) (listPayload_eq hlist)
  | delete key =>
    obtain ⟨c, htag, -, hargs⟩ := run_u8_new opDelete (utf8Bytes key)
    rw [apply, Op.request, htag]
    simp only [show opDelete ≠ opPut by decide, show opDelete ≠ opGet by decide,
      show opDelete ≠ opList by decide, if_true, if_false, answer, run_restStr hargs, Op.onStore]
    cases (delete s key).2 <;> rfl

/-! ### The client's side -/

/-- The error a client sees. -/
def seen (lossy : Bytes → String) (e : IoError) : IoError := ⟨.other, lossy (utf8Bytes e.text)⟩

/-- The client reads the response of its operation. -/
theorem exchange_eq {α : Type} (lossy : Bytes → String) (h : Fits s op) (splits : Splits)
    {reader : Reader α} {r : Except IoError α} {wrap : α → Reply} (hr : (op.onStore s).2 = r.map wrap)
    (hread : ∀ v, r = .ok v →
      ∃ payload d, response (.ok (wrap v)) = statusOk :: payload ∧ reader.run (.new payload) = .ok (v, d)) :
    exchange lossy splits (.ok op.request) s reader = ((op.onStore s).1, r.mapError (seen lossy)) := by
  have hop := handleOp_request h
  have hresponse : (handleOp op.request s).2.length ≤ maxFrame := by
    rw [hop]
    exact h.2
  rw [exchange, roundTrip_eq h.1 hresponse, hop, hr]
  cases r with
  | error e => rfl
  | ok v =>
    obtain ⟨payload, d, hpayload, hrun⟩ := hread v rfl
    refine congrArg (Prod.mk _) ?_
    change okPayload lossy (response (.ok (wrap v))) >>= (fun payload => do
      return (← reader.run (.new payload)).1) = _
    rw [hpayload]
    change (reader.run (.new payload) >>= fun x => pure x.1) = _
    rw [hrun]
    rfl

theorem run_getResponse (bytes : Option Bytes) :
    ∃ d, getResponse.run (.new (getPayload bytes).tail) = .ok (bytes, d) := by
  cases bytes with
  | none => exact ⟨_, rfl⟩
  | some bytes =>
    obtain ⟨d, hrun, -, rfl⟩ := (u8_reads 1).bind_append (fun b => do
      if b = 0 then return none
      return some (← rest)) (c := .new (1 :: bytes)) (Nat.zero_le _) rfl
    exact ⟨d, hrun⟩

theorem nextKey_reads {key : String} (hkey : (utf8Bytes key).length ≤ maxFrame) (out : List String) :
    (nextKey out).Reads (keyField key) (out ++ [key]) := by
  refine (u32_reads hkey).bind ?_
  rw [← append_nil (utf8Bytes key)]
  refine (take_reads (by rw [append_nil])).bind ?_
  exact (utf8_reads "non-utf8 key in list response" key).map fun key => out ++ [key]

theorem run_listResponse {keys : List String} (h : (response (.ok (.keys keys))).length ≤ maxFrame) :
    ∃ d, listResponse.run (.new (leBytes 4 keys.length ++ keys.flatMap keyField)) = .ok (keys, d) := by
  have htimes : (Scan.times nextKey keys.length []).Reads (keys.flatMap keyField)
      (keys.foldl (fun out key => out ++ [key]) []) :=
    .times _ keyField keys (fun out _ hkey => nextKey_reads (length_key_le h hkey) out) []
  have hkeys : keys.foldl (fun out key => out ++ [key]) [] = keys := by
    rw [foldl_append_eq_append, nil_append, ← flatMap_def, flatMap_singleton']
  rw [hkeys] at htimes
  have hreads : listResponse.Reads (leBytes 4 keys.length ++ keys.flatMap keyField) keys :=
    (u32_reads (length_keys_le h)).bind htimes
  exact ⟨_, hreads.run_new⟩

theorem run_deleteResponse (existed : Bool) : ∃ d, deleteResponse.run (.new [existed.toUInt8]) = .ok (existed, d) := by
  cases existed <;> exact ⟨_, rfl⟩

/-- **An operation through the client returns what the store returned**, an error with its text. -/
theorem overNetwork_eq (lossy : Bytes → String) (h : Fits s op) (splits : Splits) :
    op.overNetwork lossy splits s = ((op.onStore s).1, (op.onStore s).2.mapError (seen lossy)) := by
  have hmap : ∀ {α : Type} (r : Except IoError α) (wrap : α → Reply),
      (r.mapError (seen lossy)).map wrap = (r.map wrap).mapError (seen lossy) := by
    intro α r wrap
    cases r <;> rfl
  cases op with
  | put key bytes =>
    have hbody : putBody key bytes = .ok (Op.put key bytes).request := by
      have hlen := h.1
      simp only [Op.request, length_append] at hlen
      rw [putBody, lenU32_of_le (by omega)]
      rfl
    have hput : NetBlob.put lossy splits s key bytes = _ := hbody ▸ exchange_eq lossy h splits rfl
      fun _ _ => ⟨[], _, rfl, rfl⟩
    rw [Op.overNetwork, hput, hmap]
    rfl
  | get key =>
    have hget : NetBlob.get lossy splits s key = _ := exchange_eq lossy h splits rfl fun bytes _ => by
      obtain ⟨d, hrun⟩ := run_getResponse bytes
      exact ⟨_, d, by cases bytes <;> rfl, hrun⟩
    rw [Op.overNetwork, hget, hmap]
    rfl
  | list start =>
    have hlist : NetBlob.list lossy splits s start = _ := exchange_eq lossy h splits rfl fun keys hkeys => by
      have hreply := h.2
      rw [Op.onStore, hkeys] at hreply
      obtain ⟨d, hrun⟩ := run_listResponse hreply
      exact ⟨_, d, rfl, hrun⟩
    rw [Op.overNetwork, hlist, hmap]
    rfl
  | delete key =>
    have hdelete : NetBlob.delete lossy splits s key = _ := exchange_eq lossy h splits rfl fun existed _ => by
      obtain ⟨d, hrun⟩ := run_deleteResponse existed
      exact ⟨_, d, rfl, hrun⟩
    rw [Op.overNetwork, hdelete, hmap]
    rfl

/-! ### Whole runs -/

/-- The store itself: what each operation returns, `none` for an error. -/
def onStore : Machine σ (Op × Splits) (Option Reply) where
  step s req := ((req.1.onStore s).1, (req.1.onStore s).2.toOption)

/-- The same store behind the network. -/
def overNetwork (lossy : Bytes → String) : Machine σ (Op × Splits) (Option Reply) where
  step s req := ((req.1.overNetwork lossy req.2 s).1, (req.1.overNetwork lossy req.2 s).2.toOption)

/-- **The remote store equals the local one.**  Whatever the store, its content, the operations, their keys
and bytes and the way the transport splits what is sent, and as long as the frames stay within `MAX_FRAME`:
every operation returns the value the operation on the store returns, and an error exactly when it does. -/
theorem remote_equals_local (lossy : Bytes → String) (s : σ) (reqs : List (Op × Splits))
    (hfits : (onStore (σ := σ)).Guarded (fun s req => Fits s req.1) s reqs) :
    (overNetwork lossy).trace s reqs = onStore.trace s reqs ∧
      (overNetwork lossy).final s reqs = onStore.final s reqs := by
  refine Machine.run_congr onStore (overNetwork lossy) (fun s req h => ?_) hfits
  simp only [overNetwork, onStore, overNetwork_eq lossy h]
  cases (req.1.onStore s).2 <;> rfl

end

/-- Operations over a transport that delivers some of the bytes one by one. -/
def requests : List (Op × Splits) :=
  [(.put "a" [1, 2, 3], ⟨[1, 1, 1], [1]⟩), (.get "a", ⟨[], [2]⟩), (.list "", ⟨[5], []⟩), (.get "b", ⟨[], [1, 1]⟩),
    (.delete "a", ⟨[3], [4, 2]⟩)]

/-- They have the same results over the network as on the store in memory. -/
theorem remote_equals_local_mem : (onStore.trace MemBlob.new requests).map Prod.snd =
        [some .stored, some (.value (some [1, 2, 3])), some (.keys ["a"]), some (.value none), some (.existed true)] ∧
      (overNetwork fun _ => "").trace MemBlob.new requests = onStore.trace MemBlob.new requests ∧
      (overNetwork fun _ => "").final MemBlob.new requests = onStore.final MemBlob.new requests :=
  ⟨by decide +kernel, remote_equals_local _ _ _ (by decide +kernel)⟩

end Datarail.Netblob
