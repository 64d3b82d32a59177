/-
# The partition logs of the broker

`BrokerInner` of `crates/datarail-cli/src/main.rs` keeps, for each partition, a
`SealedPartitionLog` that it opens at first use.  `produce_into` reserves numbers,
seals each record into a cofre of its own (`seal_batch`) and hands the encoded
cofres to `append_durable`; `fetch` reads them back and opens them.

`Sealing.store` is this as a `RecordStore`, so the laws that the results on
transactions rest on hold of the segment files and the cofres themselves.  A batch
that fails is followed through the reconciliation of `append_durable`: what can be
fetched afterwards is what was there and the records whose frames were written
whole (`Sealing.append_run`).

The terminals have one contract at both ends, as the two roles of a rail spec must
for anything to be read back; Diffie-Hellman succeeds; and the largest record the
contract allows fits into a frame of the log when it is sealed.
-/

import Datarail.Kafka.RecordStore
import Datarail.Lib.Text
import Datarail.Replaylog.Batches
import Datarail.Terminal.Terminal
import Mathlib.Data.List.GetD

namespace Datarail.Kafka

open Lib List Terminal Replaylog

namespace DiskFault

/-- The fault ends the process. -/
def dies : DiskFault → Bool
  | .none => false
  | .strikes _ dies => dies

/-- What the writes of a batch of sealed records meet: one stops inside a frame. -/
def writes (sealed : List Bytes) : DiskFault → List WriteFault
  | .strikes (.writing record bytes) _ =>
    replicate record .none ++ [.torn (min bytes ((sealed.getD record []).length + 7))]
  | _ => []

/-- What the sync after the batch meets. -/
def sync : DiskFault → SyncFault
  | .strikes .syncing _ => .file
  | _ => .none

/-- The record of a batch of `n` at which the writes stop. -/
def reach (n : ℕ) : DiskFault → ℕ
  | .strikes (.writing record _) _ => record
  | _ => n

/-- The entropy fails while the given record is sealed. -/
def Seals (record : ℕ) : DiskFault → Prop
  | .strikes (.sealing r) _ => r = record
  | _ => False

instance (record : ℕ) : ∀ f : DiskFault, Decidable (f.Seals record)
  | .strikes (.sealing r) _ => inferInstanceAs (Decidable (r = record))
  | .none | .strikes .opening _ | .strikes (.writing _ _) _ | .strikes .syncing _ => inferInstanceAs (Decidable False)

/-- The writes of a batch stop where the fault says. -/
theorem stopsAt_writes (f : DiskFault) {sealed : List Bytes} (hfits : ∀ x ∈ sealed, wire.Fits x) :
    StopsAt (f.writes sealed) sealed (f.reach sealed.length) := by
  refine ⟨hfits, fun i hi => ?_, fun x hx => ?_⟩
  · unfold writes
    split
    · rename_i record bytes dies
      have hi : i < record := hi
      rw [getD_append _ _ _ _ (by rw [length_replicate]; exact hi), getD_replicate _ hi]
    · rfl
  · unfold writes
    split
    · rename_i record bytes dies
      have hx : sealed[record]? = some x := hx
      refine ⟨_, ?_, by rw [reach, getD_append_right _ _ _ _ (by rw [length_replicate]), length_replicate, Nat.sub_self]; rfl⟩
      rw [length_frame, getD_eq_getElem?_getD, hx, Option.getD_some]
      omega
    · rename_i hno
      have hnone : f.reach sealed.length = sealed.length := by
        unfold reach
        split
        · exact absurd rfl (hno _ _ _)
        · rfl
      rw [hnone, getElem?_eq_none le_rfl] at hx
      cases hx

/-- What a fault leaves of a batch that could be sealed: the records before the one it stops at, and no part of
that one unless the process goes on behind it. -/
theorem left_eq {f : DiskFault} {n k : ℕ} (sealed : List Bytes) (hclear : ∀ j < n, ¬ f.Seals j)
    (hleft : f.left n = some k) : k = min (f.reach n) n ∧
      (n ≤ f.reach n ∨ (f.dies = true ∧ ¬ f.Spares n) ∨ (f.writes sealed).getD (f.reach n) .none = .torn 0) := by
  cases f with
  | none => exact ⟨((Nat.min_self n).trans (Option.some.inj hleft)).symm, .inl le_rfl⟩
  | strikes point dies =>
    cases point with
    | opening => exact ⟨((Nat.min_self n).trans (Option.some.inj hleft)).symm, .inl le_rfl⟩
    | syncing => exact ⟨((Nat.min_self n).trans (Option.some.inj hleft)).symm, .inl le_rfl⟩
    | sealing record =>
      have hrec : n ≤ record := not_lt.1 fun hlt => hclear record hlt rfl
      simp only [left, if_pos hrec] at hleft
      exact ⟨((Nat.min_self n).trans (Option.some.inj hleft)).symm, .inl le_rfl⟩
    | writing record bytes =>
      simp only [left, reach] at hleft ⊢
      split_ifs at hleft with hrec hend
      · exact ⟨(Option.some.inj hleft).symm.trans (min_eq_right hrec).symm, .inl hrec⟩
      · refine ⟨(Option.some.inj hleft).symm.trans (min_eq_left (not_le.1 hrec).le).symm, ?_⟩
        rcases hend with hdies | rfl
        · exact .inr (.inl ⟨hdies, hrec⟩)
        · refine .inr (.inr ?_)
          rw [writes, getD_append_right _ _ _ _ (by rw [length_replicate]), length_replicate, Nat.sub_self, Nat.zero_min]
          rfl

/-- A sealed batch is spared if all of it is written and synced. -/
theorem spares_iff {f : DiskFault} {n : ℕ} (hclear : ∀ j < n, ¬ f.Seals j) :
    f.Spares n ↔ n ≤ f.reach n ∧ f.sync = .none := by
  cases f with
  | none => simp [Spares, reach, sync]
  | strikes point dies =>
    cases point with
    | opening => simp [Spares, reach, sync]
    | syncing => simp [Spares, sync]
    | sealing record =>
      have hrec : n ≤ record := not_lt.1 fun hlt => hclear record hlt rfl
      simp [Spares, reach, sync, hrec]
    | writing record bytes => simp [Spares, reach, sync]

end DiskFault

/-- The terminals of a broker and the random draws they make. -/
structure Sealing where
  C : Crypto
  src : SourceTerminal
  dst : DestTerminal
  /-- The draws for the record that is sealed after so many others. -/
  ephSecret : ℕ → Arr 32
  nonce : ℕ → Arr 32
  paired : Paired C src dst
  unsigned : src.sender = none
  contributory : ∀ eph, (C.diffieHellman eph src.config.destX25519Pk).isSome
  small : src.contract.maxRecordLen + 327 ≤ maxRecord

/-- A partition: its directory, or the log that the process has open on it. -/
inductive Slot where
  | closed (files : Files)
  | opened (log : SealedPartitionLog)

namespace Slot

/-- `partition_log`: the open log, or the one that opening the directory gives. -/
def log : Slot → Except ReplayError SealedPartitionLog
  | .closed files => SealedPartitionLog.open files
  | .opened log => .ok log

/-- The process ends: the directory is what is left. -/
def close : Slot → Slot
  | .closed files => .closed files
  | .opened log => .closed log.log.files

end Slot

/-- `BrokerInner`, without buffers and offsets. -/
structure SealedState where
  slots : TopicPartition → Slot
  /-- The numbers that the source terminal has reserved, by partition. -/
  seqs : Table ℕ ℕ
  /-- The records sealed so far. -/
  drawn : ℕ

/-- A partition changes. -/
def SealedState.put (s : SealedState) (tp : TopicPartition) (slot : Slot) : SealedState :=
  { s with slots := Function.update s.slots tp slot }

namespace Sealing

variable (S : Sealing)

/-- The closure `seal_one`. -/
def sealOne (fault : DiskFault) (tp : TopicPartition) (base start drawn i : ℕ) (record : Bytes) :
    Except ErrorKind Bytes :=
  let rkey := utf8Bytes ("kbroker-" ++ tp.topic ++ "-" ++ toString tp.partition ++ "-" ++ toString (base + i))
  let seq := UInt64.ofNat (min (start + i) (2 ^ 64 - 1))
  let draws : Draws :=
    if fault.Seals i then ⟨none, none⟩ else ⟨some (S.ephSecret (drawn + i)), some (S.nonce (drawn + i))⟩
  match S.src.boardAt S.C draws [record] rkey seq with
  | .error .contractViolation => .error .invalidData
  | .error _ => .error .other
  | .ok cofre => .ok cofre.encode

/-- `seal_batch`, from a record on.  Large batches are sealed by several threads, with the same result. -/
def sealBatch (fault : DiskFault) (tp : TopicPartition) (base start drawn : ℕ) :
    ℕ → List Bytes → Except ErrorKind (List Bytes)
  | _, [] => .ok []
  | i, record :: records =>
    match S.sealOne fault tp base start drawn i record with
    | .error kind => .error kind
    | .ok bytes =>
      match sealBatch fault tp base start drawn (i + 1) records with
      | .error kind => .error kind
      | .ok sealed => .ok (bytes :: sealed)

/-- One round of the loop of `fetch`: decode and open. -/
def openSealed (bytes : Bytes) : Option (List Bytes) :=
  match Cofre.decode bytes with
  | .error _ => none
  | .ok cofre => S.dst.open S.C cofre

/-- The loop of `fetch`: it halts at a record that does not open, and fails if that is the first. -/
def openAll : ℕ → List Bytes → Except ErrorKind (List Bytes)
  | _, [] => .ok []
  | i, bytes :: rest =>
    match S.openSealed bytes with
    | none => if i = 0 then .error .invalidData else .ok []
    | some records =>
      match openAll (i + 1) rest with
      | .error kind => .error kind
      | .ok out => .ok (records ++ out)

/-- `partition_log`, from a call that needs the log. -/
def openLog (fault : DiskFault) (tp : TopicPartition) : Action ErrorKind SealedState ℕ := ⟨fun s =>
  match s.slots tp, fault with
  | .closed _, .strikes .opening dies => (.stop (RecordStore.faultStop dies), s)
  | slot, _ =>
    match slot.log with
    | .error _ => (.stop (.failed .other), s)
    | .ok p => (.ok p.len, s.put tp (.opened p))⟩

/-- `produce_into` from the reservation of the numbers on. -/
def append (fault : DiskFault) (tp : TopicPartition) (records : List Bytes) : Action ErrorKind SealedState ℤ := ⟨fun s =>
  match (s.slots tp).log with
  | .error _ => (.stop (.failed .other), s)
  | .ok p =>
    let (start, src) := { S.src with seqPerPartition := s.seqs }.reserveSeqs tp.partition.toNat records.length
    let s' := { s with seqs := src.seqPerPartition, drawn := s.drawn + records.length }
    match S.sealBatch fault tp p.len start s.drawn 0 records with
    | .error kind => (.stop (if fault.dies then .died else .failed kind), s'.put tp (.opened p))
    | .ok sealed =>
      -- a process that dies leaves what it had written, and does not reconcile
      if fault.dies ∧ ¬ fault.Spares sealed.length then
        (.stop .died, s'.put tp (.closed (appendAll (fault.writes sealed) p.log sealed).1.files))
      else
        match p.appendDurable ⟨fault.writes sealed, fault.sync⟩ sealed with
        | (p, .error _) => (.stop (.failed .other), s'.put tp (.opened p))
        | (p, .ok base) => (.ok base, s'.put tp (.opened p))⟩

/-- `fetch`.  A negative offset becomes `usize::MAX`, which is past the end of every index. -/
def fetch (tp : TopicPartition) (offset maxBytes : ℤ) : Action ErrorKind SealedState (List Bytes) := ⟨fun s =>
  match (s.slots tp).log with
  | .error _ => (.stop (.failed .other), s)
  | .ok p =>
    match p.readSealedFrom (if offset < 0 then p.len else offset.toNat) maxBytes with
    | .error _ => (.stop (.failed .other), s.put tp (.opened p))
    | .ok sealed =>
      match S.openAll 0 sealed with
      | .error kind => (.stop (.failed kind), s.put tp (.opened p))
      | .ok out => (.ok out, s.put tp (.opened p))⟩

/-- What can be fetched: at each offset below the end, what the record there opens to. -/
def contents (s : SealedState) (tp : TopicPartition) : List Bytes :=
  match (s.slots tp).log with
  | .error _ => []
  | .ok p => (range p.len).flatMap fun i =>
      match p.readSealedFrom i 0 with
      | .ok (bytes :: _) => (S.openSealed bytes).getD []
      | _ => []

section Seals

variable {S} {fault : DiskFault} {tp : TopicPartition} {base start drawn : ℕ}

/-- A record that conforms is sealed, unless the entropy fails, and opens again. -/
theorem sealOne_of_valid {i : ℕ} {record : Bytes} (hvalid : S.src.contract.validate record = true) :
    if fault.Seals i then S.sealOne fault tp base start drawn i record = .error .other
    else ∃ bytes, S.sealOne fault tp base start drawn i record = .ok bytes ∧ wire.Fits bytes ∧
      S.openSealed bytes = some [record] := by
  have hall : [record].all S.src.contract.validate = true := by rw [all_cons, hvalid, all_nil, Bool.and_true]
  have hlen : record.length ≤ S.src.contract.maxRecordLen := by
    simp only [ContentContract.validate, Bool.and_eq_true, decide_eq_true_eq] at hvalid
    exact hvalid.1.2
  have hmax : maxRecord = 67108864 := rfl
  have hsmall := S.small
  have hframe : frameBatch [record] = .ok (leBytes 4 1 ++ frameRecord record) :=
    frameBatch_eq_ok.2 ⟨⟨Nat.lt_of_lt_of_eq (by decide : 1 < 2 ^ 32) rfl, forall_mem_singleton.2 (by omega)⟩, by simp⟩
  have hinner : ∀ ephPk, (S.src.inner S.C ephPk (leBytes 4 1 ++ frameRecord record)).length = record.length + 8 := by
    intro ephPk
    simp only [SourceTerminal.inner, S.unsigned, frameRecord, length_append, length_leBytes]
    omega
  simp only [sealOne]
  split_ifs
  · simp only [SourceTerminal.boardAt, hall, hframe]
    rfl
  · obtain ⟨cofre, hcofre⟩ := @boardAt_of_valid S.C S.src
      ⟨some (S.ephSecret (drawn + i)), some (S.nonce (drawn + i))⟩ [record]
      (utf8Bytes ("kbroker-" ++ tp.topic ++ "-" ++ toString tp.partition ++ "-" ++ toString (base + i)))
      (UInt64.ofNat (min (start + i) (2 ^ 64 - 1))) _ hall hframe rfl rfl S.contributory
      (fun ephPk => by rw [hinner]; omega)
    have hcarga : cofre.carga.length = record.length + 24 := by
      obtain ⟨batch, _, _, ephPk, _, _, carga, -, hbatch, -, -, -, hseal, rfl⟩ := boardAt_ok hcofre
      obtain rfl := Except.ok.inj (hframe.symm.trans hbatch)
      exact (S.C.length_aeadSeal hseal).trans (by rw [hinner])
    have hfits : cofre.Fits := by
      unfold Cofre.Fits
      omega
    refine ⟨cofre.encode, by rw [hcofre], wire_fits.2 (by rw [Cofre.length_encode]; omega), ?_⟩
    simp only [openSealed, Cofre.decode_encode hfits, DestTerminal.open, openRecords_boardAt S.paired hcofre]

/-- **A batch that conforms is sealed** record by record, unless the entropy fails for one of them. -/
theorem sealBatch_of_valid {records : List Bytes} (hvalid : ∀ r ∈ records, S.src.contract.validate r = true) (i : ℕ) :
    ((∃ j < records.length, fault.Seals (i + j)) ∧
        S.sealBatch fault tp base start drawn i records = .error .other) ∨
      (∀ j < records.length, ¬ fault.Seals (i + j)) ∧
        ∃ sealed, S.sealBatch fault tp base start drawn i records = .ok sealed ∧ (∀ x ∈ sealed, wire.Fits x) ∧
          sealed.map S.openSealed = records.map fun r => some [r] := by
  induction records generalizing i with
  | nil => exact .inr ⟨nofun, [], rfl, nofun, rfl⟩
  | cons record records ih =>
    obtain ⟨hrecord, hrest⟩ := forall_mem_cons.1 hvalid
    have hone := @sealOne_of_valid S fault tp base start drawn i record hrecord
    split_ifs at hone with hseals
    · exact .inl ⟨⟨0, Nat.succ_pos _, hseals⟩, by simp only [sealBatch, hone]⟩
    · obtain ⟨bytes, hbytes, hfits, hopen⟩ := hone
      rcases ih hrest (i + 1) with ⟨⟨j, hj, hhit⟩, herror⟩ | ⟨hclear, sealed, hsealed, hall, hmap⟩
      · refine .inl ⟨⟨j + 1, Nat.succ_lt_succ hj, ?_⟩, by simp only [sealBatch, hbytes, herror]⟩
        rwa [show i + (j + 1) = i + 1 + j by omega]
      · refine .inr ⟨fun j hj => ?_, bytes :: sealed, by simp only [sealBatch, hbytes, hsealed],
          forall_mem_cons.2 ⟨hfits, hall⟩, by rw [map_cons, map_cons, hopen, hmap]⟩
        cases j with
        | zero => exact hseals
        | succ j =>
          have := hclear j (Nat.lt_of_succ_lt_succ hj)
          rwa [show i + (j + 1) = i + 1 + j by omega]

/-- Sealed records that open give back what was sealed. -/
theorem openAll_of_map {sealed records : List Bytes} (h : sealed.map S.openSealed = records.map fun r => some [r]) (i : ℕ) :
    S.openAll i sealed = .ok records := by
  induction sealed generalizing records i with
  | nil =>
    obtain rfl : records = [] := map_eq_nil_iff.1 h.symm
    rfl
  | cons bytes sealed ih =>
    cases records with
    | nil => cases h
    | cons r records =>
      obtain ⟨hbytes, hrest⟩ := cons.inj h
      simp only [openAll, hbytes, ih hrest (i + 1)]
      rfl

end Seals

/-- A slot keeps some records: its log opens, has no torn tail, and publishes cofres that open to them. -/
def Keeps (slot : Slot) (records : List Bytes) : Prop :=
  ∃ p sealed, slot.log = .ok p ∧ Published p sealed [] ∧ sealed.map S.openSealed = records.map fun r => some [r]

/-- Every partition keeps what it can. -/
def Sound (s : SealedState) : Prop := ∀ tp, ∃ records, S.Keeps (s.slots tp) records

section Laws

variable {S} {s : SealedState} {tp : TopicPartition} {records : List Bytes} {slot : Slot}

/-- A list, index by index. -/
theorem flatMap_range_getElem? (l : List Bytes) : ((range l.length).flatMap fun i => l[i]?.toList) = l := by
  induction l with
  | nil => rfl
  | cons a l ih =>
    rw [length_cons, range_succ_eq_map, flatMap_cons, flatMap_map]
    exact congrArg (a :: ·) ih

/-- What a slot keeps is what can be fetched from it. -/
theorem Keeps.contents (h : S.Keeps (s.slots tp) records) : S.contents s tp = records := by
  obtain ⟨p, sealed, hlog, hpub, hmap⟩ := h
  have hlen : sealed.length = records.length := by simpa using congrArg length hmap
  have hp : p.len = records.length := hpub.length_starts.trans hlen
  simp only [Sealing.contents, hlog, hp]
  refine (flatMap_congr fun i hi => ?_).trans (flatMap_range_getElem? records)
  have hi : i < sealed.length := hlen ▸ mem_range.1 hi
  have hopen : S.openSealed sealed[i] = some [records[i]] := by
    have := congrArg (·[i]?) hmap
    simpa [hi, hlen ▸ hi] using this
  obtain ⟨more, hread⟩ := hpub.readable (getElem?_eq_getElem hi) 0
  simp only [hread, hopen]
  rw [getElem?_eq_getElem (hlen ▸ hi)]
  rfl

/-- Every partition keeps what can be fetched from it. -/
theorem Sound.keeps (hs : S.Sound s) (tp : TopicPartition) : S.Keeps (s.slots tp) (S.contents s tp) := by
  obtain ⟨records, h⟩ := hs tp
  rwa [h.contents]

/-- The directory of a log, whatever is torn at its end, keeps what the log stores. -/
theorem keeps_files {l : ReplayLog} {sealed : List Bytes} {torn : Bytes} (h : Stores l sealed torn)
    (hmap : sealed.map S.openSealed = records.map fun r => some [r]) : S.Keeps (.closed l.files) records := by
  obtain ⟨full, last, hl, rfl⟩ := h
  have hstores : Stores (ReplayLog.open l.files defaultSegmentBytes) (full.flatten ++ last) [] :=
    ⟨full, last, holds_open hl.layout _, rfl⟩
  exact ⟨_, _, open_of_stores hstores, ⟨hstores, rfl⟩, hmap⟩

/-- The end of the process takes no record. -/
theorem Keeps.close (h : S.Keeps slot records) : S.Keeps slot.close records := by
  cases slot with
  | closed files => exact h
  | opened q =>
    obtain ⟨p, sealed, hlog, hpub, hmap⟩ := h
    obtain rfl := Except.ok.inj hlog
    exact keeps_files hpub.stores hmap

/-- One partition changes, and keeps what is said. -/
theorem Sound.put (hs : S.Sound s) {s' : SealedState} (hput : s'.slots = Function.update s.slots tp slot)
    (h : S.Keeps slot records) : S.Sound s' ∧ S.contents s' = Function.update (S.contents s) tp records := by
  have hkeeps : ∀ q, S.Keeps (s'.slots q) (Function.update (S.contents s) tp records q) := by
    intro q
    rw [hput]
    by_cases hq : q = tp
    · rw [hq, Function.update_self, Function.update_self]
      exact h
    · rw [Function.update_of_ne hq, Function.update_of_ne hq]
      exact hs.keeps q
  exact ⟨fun q => ⟨_, hkeeps q⟩, funext fun q => (hkeeps q).contents⟩

/-- The log is open afterwards, and nothing else has changed. -/
theorem Sound.opened (hs : S.Sound s) {p : SealedPartitionLog} (hp : (s.slots tp).log = .ok p) :
    S.Sound (s.put tp (.opened p)) ∧ S.contents (s.put tp (.opened p)) = S.contents s := by
  obtain ⟨q, sealed, hlog, hpub, hmap⟩ := hs.keeps tp
  obtain rfl := Except.ok.inj (hp.symm.trans hlog)
  have hput := @Sound.put S s tp _ _ hs (s.put tp (.opened p)) rfl ⟨p, sealed, rfl, hpub, hmap⟩
  rwa [Function.update_eq_self] at hput

/-- **What opening a log does**: it gives the number of records, and nothing can be fetched that could not be
before. -/
theorem openLog_run (hs : S.Sound s) (f : DiskFault) (tp : TopicPartition) :
    S.Sound ((openLog f tp).run s).2 ∧ S.contents ((openLog f tp).run s).2 = S.contents s ∧
      (∀ n, ((openLog f tp).run s).1 = .ok n → n = (S.contents s tp).length) ∧
      (f.SparesOpening → ∃ n, ((openLog f tp).run s).1 = .ok n) := by
  obtain ⟨p, sealed, hlog, hpub, hmap⟩ := hs.keeps tp
  have hlen : sealed.length = (S.contents s tp).length := by simpa using congrArg length hmap
  simp only [openLog]
  split
  · exact ⟨hs, rfl, nofun, False.elim⟩
  · rw [hlog]
    refine ⟨(hs.opened hlog).1, (hs.opened hlog).2, fun n hn => ?_, fun _ => ⟨_, rfl⟩⟩
    rw [← Outcome.ok.inj hn, ← hlen]
    exact hpub.length_starts

/-- **What an append does.**  It returns exactly if the fault spares it, with the end of the log as base; and
where the fault leaves `k` records whole, these are in the log afterwards. -/
theorem append_run (hs : S.Sound s) (f : DiskFault) (tp : TopicPartition) {rs : List Bytes}
    (hvalid : ∀ r ∈ rs, S.src.contract.validate r = true) :
    (f.Spares rs.length → ∃ b, ((S.append f tp rs).run s).1 = .ok b) ∧
      (∀ b, ((S.append f tp rs).run s).1 = .ok b → f.Spares rs.length ∧ b = clampI64 (S.contents s tp).length) ∧
      ∀ k, f.left rs.length = some k → S.Sound ((S.append f tp rs).run s).2 ∧
        S.contents ((S.append f tp rs).run s).2 = Function.update (S.contents s) tp (S.contents s tp ++ rs.take k) := by
  obtain ⟨p, old, hlog, hpub, hold⟩ := hs.keeps tp
  have hlen : old.length = (S.contents s tp).length := by simpa using congrArg length hold
  simp only [append, hlog]
  generalize (SourceTerminal.reserveSeqs _ _ _) = reserved
  rcases @sealBatch_of_valid S f tp p.len reserved.1 s.drawn rs hvalid 0 with
    ⟨⟨j, hj, hhit⟩, hseal⟩ | ⟨hclear, sealed, hseal, hfits, hmap⟩
  · -- nothing is written when a record cannot be sealed
    obtain ⟨dies, rfl⟩ : ∃ dies, f = .strikes (.sealing j) dies := by
      rw [Nat.zero_add] at hhit
      unfold DiskFault.Seals at hhit
      split at hhit
      · exact ⟨_, by rw [hhit]⟩
      · cases hhit
    simp only [hseal]
    refine ⟨fun h => absurd hj (not_lt.2 h), (fun _ hb => by cases hb), fun k hk => ?_⟩
    simp only [DiskFault.left, if_neg (not_le.2 hj)] at hk
    refine hs.put rfl ⟨p, old, rfl, hpub, ?_⟩
    rw [← Option.some.inj hk, take_zero, append_nil, hold]
  · simp only [Nat.zero_add] at hclear
    have hcount : sealed.length = rs.length := by simpa using congrArg length hmap
    have hboth : ∀ k, (old ++ sealed.take k).map S.openSealed =
        (S.contents s tp ++ rs.take k).map fun r => some [r] := fun k => by
      rw [map_append, map_append, hold, map_take, hmap, map_take]
    have hstops := f.stopsAt_writes hfits
    rw [hcount] at hstops
    simp only [hseal, hcount]
    split_ifs with hdead
    · refine ⟨fun h => absurd h hdead.2, (fun _ hb => by cases hb), fun k hk => ?_⟩
      obtain ⟨l', k', err, torn, hall, hstores, -, hexact⟩ := hpub.stores.appendAll (f.writes sealed) sealed
      obtain ⟨rfl, -, -⟩ := hexact _ hstops
      rw [hcount] at hstores
      rw [(f.left_eq sealed hclear hk).1]
      refine hs.put rfl ?_
      rw [hall]
      exact keeps_files hstores (hboth _)
    · obtain ⟨k', torn, hafter, hacked, hexact⟩ := hpub.appendDurable ⟨f.writes sealed, f.sync⟩ sealed
      obtain ⟨rfl, hzero, hwhole⟩ := hexact _ hstops
      rw [hcount] at hafter hacked hwhole
      have hkept : ∀ k, f.left rs.length = some k → S.Keeps (.opened (p.appendDurable ⟨f.writes sealed, f.sync⟩ sealed).1)
          (S.contents s tp ++ rs.take k) := by
        intro k hk
        obtain ⟨rfl, hend⟩ := f.left_eq sealed hclear hk
        have htorn : torn = [] := by
          rcases hend with hle | hdies | htorn
          · exact (hwhole hle).1
          · exact absurd hdies hdead
          · exact hzero htorn
        subst htorn
        exact ⟨_, _, rfl, hafter, hboth _⟩
      have hspares := f.spares_iff hclear
      rcases hrun : p.appendDurable ⟨f.writes sealed, f.sync⟩ sealed with ⟨p', answer⟩
      rw [hrun] at hacked hwhole hkept
      cases answer with
      | error e =>
        refine ⟨fun h => ?_, (fun _ hb => by cases hb), fun k hk => hs.put rfl (hkept k hk)⟩
        obtain ⟨hle, hsync⟩ := hspares.1 h
        obtain ⟨base, hbase⟩ := (hwhole hle).2 hsync
        cases hbase
      | ok base =>
        refine ⟨fun _ => ⟨base, rfl⟩, fun b hb => ?_, fun k hk => hs.put rfl (hkept k hk)⟩
        obtain ⟨rfl, hmin, -, hsync⟩ := hacked base rfl
        exact ⟨hspares.2 ⟨min_eq_right_iff.1 hmin, hsync⟩, by rw [← Outcome.ok.inj hb, hlen]⟩

/-- **What a fetch returns**: consecutive records from the offset on, at least one if there is one. -/
theorem fetch_run (hs : S.Sound s) (tp : TopicPartition) (o m : ℤ) :
    (S.Sound ((S.fetch tp o m).run s).2 ∧ S.contents ((S.fetch tp o m).run s).2 = S.contents s) ∧
      ∃ k, ((S.fetch tp o m).run s).1 = .ok (((S.contents s tp).drop (if o < 0 then (S.contents s tp).length
        else o.toNat)).take k) ∧ (0 ≤ o → o < (S.contents s tp).length → 0 < k) := by
  obtain ⟨p, sealed, hlog, hpub, hmap⟩ := hs.keeps tp
  have hlen : sealed.length = (S.contents s tp).length := by simpa using congrArg length hmap
  have hp : p.len = (S.contents s tp).length := hpub.length_starts.trans hlen
  generalize hstart : (if o < 0 then (S.contents s tp).length else o.toNat) = start
  obtain ⟨k, hread, hk⟩ : ∃ k, p.readSealedFrom start m = .ok ((sealed.drop start).take k) ∧
      (start < sealed.length → 0 < k) := by
    by_cases hlt : start < sealed.length
    · obtain ⟨k, hk, hread⟩ := hpub.read hlt m
      exact ⟨k, hread, fun _ => hk⟩
    · refine ⟨0, ?_, fun h => absurd h hlt⟩
      rw [hpub.read_end (not_lt.1 hlt), take_zero]
  have hopen := openAll_of_map (S := S) (show ((sealed.drop start).take k).map S.openSealed =
    (((S.contents s tp).drop start).take k).map fun r => some [r] by
      rw [map_take, map_drop, hmap, map_take, map_drop]) 0
  have hrun : (S.fetch tp o m).run s =
      (.ok (((S.contents s tp).drop start).take k), s.put tp (.opened p)) := by
    simp only [Sealing.fetch, hlog, hp, hstart, hread, hopen]
  rw [hrun]
  refine ⟨hs.opened hlog, k, rfl, fun hnonneg hlt => hk ?_⟩
  rw [if_neg (not_lt.2 hnonneg)] at hstart
  omega

/-- A fetch from an offset in the log or behind it. -/
theorem fetch_at (hs : S.Sound s) (tp : TopicPartition) (o : ℕ) (m : ℤ) : ∃ k, ((S.fetch tp o m).run s).1 =
    .ok (((S.contents s tp).drop o).take k) ∧ (o < (S.contents s tp).length → 0 < k) := by
  obtain ⟨k, hrun, hk⟩ := (fetch_run hs tp o m).2
  rw [if_neg (by omega), Int.toNat_natCast] at hrun
  exact ⟨k, hrun, fun h => hk (by omega) (by omega)⟩

/-- A fetch from a negative offset. -/
theorem fetch_below (hs : S.Sound s) (tp : TopicPartition) {o : ℤ} (m : ℤ) (h : o < 0) :
    ((S.fetch tp o m).run s).1 = .ok [] := by
  obtain ⟨k, hrun, -⟩ := (fetch_run hs tp o m).2
  rw [if_pos h, drop_length, take_nil] at hrun
  exact hrun

end Laws

/-- **The partition logs of the broker are a record store.** -/
def store : RecordStore Bytes where
  State := SealedState
  init := { slots := fun _ => .closed .empty, seqs := .empty, drawn := 0 }
  validate := S.src.contract.validate
  openLog := openLog
  append := S.append
  fetch := S.fetch
  restart s := { slots := fun tp => (s.slots tp).close, seqs := .empty, drawn := s.drawn }
  contents := S.contents
  Sound := S.Sound
  sound_init _ := ⟨[], _, _, open_of_stores published_fresh.stores, published_fresh, rfl⟩
  contents_init _ := Keeps.contents ⟨_, _, open_of_stores published_fresh.stores, published_fresh, rfl⟩
  sound_restart hs tp := ⟨_, (hs.keeps tp).close⟩
  contents_restart hs := funext fun tp => (hs.keeps tp).close.contents
  sound_openLog f tp hs := (openLog_run hs f tp).1
  contents_openLog f tp hs := (openLog_run hs f tp).2.1
  openLog_ok hs h := (openLog_run hs _ _).2.2.1 _ (congrArg Prod.fst h)
  openLog_spared tp hs h := (openLog_run hs _ tp).2.2.2 h
  append_ok hs hv h := (append_run hs _ _ hv).2.1 _ (congrArg Prod.fst h)
  append_spares tp hs hv h := (append_run hs _ tp hv).1 h
  append_left tp hs hv h := (append_run hs _ tp hv).2.2 _ h
  sound_fetch tp o m hs := (fetch_run hs tp o m).1.1
  contents_fetch tp o m hs := (fetch_run hs tp o m).1.2
  fetch_ok tp o m hs := fetch_at hs tp o m
  fetch_neg tp _ m hs h := fetch_below hs tp m h

/-- The two ends of a route of which all keys are zero, with ciphers that hide nothing. -/
def transparent : Sealing where
  C := .transparent
  src := .new ⟨.zero 16, .zero 16, .gcm256, .zero 32, .zero 32⟩ (.new .transparent 16 []) (.zero 32)
  dst := .new ⟨.zero 16, .zero 16, .gcm256, .zero 32, .zero 32⟩ (.new .transparent 16 []) (.zero 32) (.zero 32)
  ephSecret _ := .zero 32
  nonce _ := .zero 32
  paired := ⟨rfl, rfl, rfl, rfl, nofun⟩
  unsigned := rfl
  contributory _ := rfl
  small := by decide

end Sealing

end Datarail.Kafka
