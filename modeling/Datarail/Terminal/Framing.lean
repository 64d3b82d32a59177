/-
# The record batch inside a cofre

`frame_batch` and `unframe_batch` of `crates/datarail-terminal/src/lib.rs`: a count and,
for each record, its length and its bytes, all integers little-endian and 32 bits wide.
This is the plaintext a terminal encrypts.
-/

import Datarail.Cofre.Format

namespace Datarail.Terminal

open Lib List

/-- `TerminalError`. -/
inductive TerminalError where
  | contractViolation
  | «seal»
  | batchTooLarge
  | malformedBatch
  | entropy
  deriving DecidableEq, Repr

/-- One record of a batch. -/
def frameRecord (record : Bytes) : Bytes := leBytes 4 record.length ++ record

/-- The loop of `frame_batch`. -/
def frameInto : Bytes → List Bytes → Except TerminalError Bytes
  | buf, [] => .ok buf
  | buf, record :: records =>
    if record.length < 2 ^ 32 then frameInto (buf ++ frameRecord record) records
    else .error .batchTooLarge

/-- `frame_batch`. -/
def frameBatch (records : List Bytes) : Except TerminalError Bytes :=
  if records.length < 2 ^ 32 then frameInto (leBytes 4 records.length) records
  else .error .batchTooLarge

/-- A length field. -/
def takeLen : Scan TerminalError UInt8 ℕ := do return leNat (← Scan.take .malformedBatch 4)

/-- One round of `unframe_batch`. -/
def takeRecord (records : List Bytes) : Scan TerminalError UInt8 (List Bytes) := do
  let len ← takeLen
  let record ← Scan.take .malformedBatch len
  return records ++ [record]

/-- `unframe_batch` up to the last check. -/
def readBatch : Scan TerminalError UInt8 (List Bytes) := do
  let count ← takeLen
  Scan.times takeRecord count []

/-- `unframe_batch`: nothing may follow the records. -/
def unframeBatch (bytes : Bytes) : Except TerminalError (List Bytes) :=
  match readBatch.run (.new bytes) with
  | .ok (records, cursor) => if cursor.pos = bytes.length then .ok records else .error .malformedBatch
  | .error e => .error e

/-- Records that can be framed. -/
def Framable (records : List Bytes) : Prop :=
  records.length < 2 ^ 32 ∧ ∀ r ∈ records, r.length < 2 ^ 32

variable {records : List Bytes}

theorem frameInto_ok {buf out : Bytes} (h : frameInto buf records = .ok out) :
    (∀ r ∈ records, r.length < 2 ^ 32) ∧ out = buf ++ records.flatMap frameRecord := by
  induction records generalizing buf with
  | nil =>
    cases h
    exact ⟨nofun, (append_nil _).symm⟩
  | cons record records ih =>
    simp only [frameInto] at h
    split_ifs at h with hlen
    obtain ⟨hall, rfl⟩ := ih h
    exact ⟨forall_mem_cons.2 ⟨hlen, hall⟩, by rw [flatMap_cons, append_assoc]⟩

theorem frameInto_of_lt {buf : Bytes} (h : ∀ r ∈ records, r.length < 2 ^ 32) :
    frameInto buf records = .ok (buf ++ records.flatMap frameRecord) := by
  induction records generalizing buf with
  | nil => rw [frameInto, flatMap_nil, append_nil]
  | cons record records ih =>
    rw [frameInto, if_pos (h record mem_cons_self),
      ih fun r hr => h r (mem_cons_of_mem _ hr), flatMap_cons, append_assoc]

/-- What a batch is framed to, and when. -/
theorem frameBatch_eq_ok {out : Bytes} : frameBatch records = .ok out ↔
      Framable records ∧ out = leBytes 4 records.length ++ records.flatMap frameRecord := by
  constructor
  · intro h
    unfold frameBatch at h
    split_ifs at h with hlen
    obtain ⟨hall, rfl⟩ := frameInto_ok h
    exact ⟨⟨hlen, hall⟩, rfl⟩
  · rintro ⟨⟨hlen, hall⟩, rfl⟩
    rw [frameBatch, if_pos hlen, frameInto_of_lt hall]

theorem length_flatMap_frameRecord (records : List Bytes) :
    (records.flatMap frameRecord).length = 4 * records.length + (records.map length).sum := by
  induction records with
  | nil => rfl
  | cons record records ih =>
    simp only [flatMap_cons, length_append, ih, frameRecord, length_leBytes, length_cons, map_cons, sum_cons]
    omega

theorem reads_takeLen {n : ℕ} (h : n < 2 ^ 32) : Scan.Reads takeLen (leBytes 4 n) n := by
  have hread := (Scan.Reads.take_of_length TerminalError.malformedBatch (length_leBytes 4 n)).map leNat
  rwa [leNat_leBytes_of_lt h] at hread

theorem reads_takeRecord {record : Bytes} (h : record.length < 2 ^ 32) (records : List Bytes) :
    Scan.Reads (takeRecord records) (frameRecord record) (records ++ [record]) :=
  (reads_takeLen h).bind ((Scan.Reads.take _ record).map fun record => records ++ [record])

/-- Appending one element at a time builds the list. -/
theorem foldl_concat (acc records : List Bytes) :
    records.foldl (fun acc record => acc ++ [record]) acc = acc ++ records := by
  induction records generalizing acc with
  | nil => rw [foldl_nil, append_nil]
  | cons record records ih => rw [foldl_cons, ih, append_assoc, singleton_append]

/-- **A batch survives its frame.** -/
theorem unframeBatch_frameBatch {out : Bytes} (h : frameBatch records = .ok out) : unframeBatch out = .ok records := by
  obtain ⟨⟨hcount, hall⟩, rfl⟩ := frameBatch_eq_ok.1 h
  have hloop := Scan.Reads.times (fun acc record => acc ++ [record]) frameRecord records
    (fun acc r hr => reads_takeRecord (hall r hr) acc) []
  rw [foldl_concat, nil_append] at hloop
  have hread : Scan.Reads readBatch (leBytes 4 records.length ++ records.flatMap frameRecord) records :=
    (reads_takeLen hcount).bind hloop
  rw [unframeBatch, hread.run_new]
  exact if_pos rfl

theorem takes_takeLen : takeLen.Takes fun n w => n < 2 ^ 32 ∧ w = leBytes 4 n := by
  refine (Scan.Takes.take _ 4).map _ ?_
  rintro _ bytes ⟨rfl, hlen⟩
  have hlt := leNat_lt bytes
  rw [hlen] at hlt
  exact ⟨hlt, by rw [← hlen, leBytes_leNat]⟩

theorem takes_takeRecord (records : List Bytes) : (takeRecord records).Takes fun out w =>
    ∃ record : Bytes, record.length < 2 ^ 32 ∧ out = records ++ [record] ∧ w = frameRecord record := by
  refine takes_takeLen.bind fun len _ hlen => (Scan.Takes.take _ len).map _ ?_
  rintro _ record ⟨rfl, rfl⟩
  exact ⟨record, hlen.1, rfl, by rw [hlen.2]; rfl⟩

/-- What is read as a batch is its frame. -/
theorem takes_readBatch : readBatch.Takes fun records w =>
    Framable records ∧ w = leBytes 4 records.length ++ records.flatMap frameRecord := by
  refine takes_takeLen.bind fun count _ hcount c records d hrun => ?_
  obtain ⟨w, hw, hd, rs, rfl, hall, hrs, rfl⟩ := Scan.Takes.times takes_takeRecord count [] c records d hrun
  rw [foldl_concat, nil_append] at hrs
  subst hrs
  exact ⟨_, hw, hd, ⟨hcount.1, hall⟩, by rw [hcount.2]⟩

/-- **The frame of a batch is exact**: a byte string is read as these records if and only if it is what they
are framed to. -/
theorem unframeBatch_eq_ok_iff (b : Bytes) (records : List Bytes) :
    unframeBatch b = .ok records ↔ frameBatch records = .ok b := by
  refine ⟨fun h => frameBatch_eq_ok.2 ?_, unframeBatch_frameBatch⟩
  unfold unframeBatch at h
  split at h
  · split_ifs at h with hend
    cases h
    exact takes_readBatch.whole ‹_› hend
  · cases h

end Datarail.Terminal
