/-
# What a partition log keeps

A batch that is acknowledged is on disk and in the index, and both must stay as they are
through failures of later batches, restarts and power failures.

`Published.appendDurable` says what a batch does to a partition log whose file ends where the
log ends: the log then publishes a part of the batch behind what it published before, all of it
if the batch was acknowledged.  A write that stops inside a frame breaks the premise: the file
goes on behind the logical end, and until a restart the next batch is written behind the rest
of the frame.  With the premise, what is acknowledged stays readable (`acked_stays_readable`).

A failed sync is followed by a scan too, and publishes what is not on disk.  Where the last
sync of a batch does not fail, everything published is on disk, and a power failure loses
nothing that could be read (`published_is_durable`).
-/

import Datarail.Replaylog.Reading

namespace Datarail.Replaylog

open Lib List Nat Machine ReplayLog SealedPartitionLog
open Kafka (clampI64)

section Batch

variable {l : ReplayLog} {records : List Bytes} {p : SealedPartitionLog} {torn : Bytes}

/-- An append whose write stops inside the frame fails. -/
theorem append_torn {record : Bytes} {n : ℕ} (hn : n < (wire.frame record).length) (l : ReplayLog) :
    ∃ l' e, l.append (.torn n) record = (l', .error e) := by
  simp only [ReplayLog.append, ReplayLog.rotate, ReplayLog.write, reduceCtorEq, if_false, if_pos hn]
  split_ifs <;> exact ⟨_, _, rfl⟩

/-- The disk takes the records before the `r`-th, and the write of that one stops inside its frame. -/
structure StopsAt (faults : List WriteFault) (batch : List Bytes) (r : ℕ) : Prop where
  fits : ∀ record ∈ batch, wire.Fits record
  calm : ∀ i < r, faults.getD i .none = .none
  torn : ∀ record ∈ batch[r]?, ∃ n < (wire.frame record).length, faults.getD r .none = .torn n

/-- Behind the first record the writes stop one record earlier. -/
theorem StopsAt.tail {faults : List WriteFault} {batch : List Bytes} {record : Bytes} {r : ℕ}
    (h : StopsAt faults (record :: batch) (r + 1)) : StopsAt faults.tail batch r := by
  have hget : ∀ i, faults.tail.getD i .none = faults.getD (i + 1) .none := fun i => by
    cases faults <;> rfl
  refine ⟨fun x hx => h.fits x (mem_cons_of_mem _ hx), fun i hi => ?_, fun x hx => ?_⟩
  · rw [hget]
    exact h.calm (i + 1) (Nat.succ_lt_succ hi)
  · rw [hget]
    exact h.torn x hx

/-- The loop of `append_durable` stores the records up to the first that fails; of a batch that fits, up to the
one whose write stops. -/
theorem Stores.appendAll (h : Stores l records []) (faults : List WriteFault) (batch : List Bytes) :
    ∃ l' k err torn, Replaylog.appendAll faults l batch = (l', wire.offsets (wire.size records) (batch.take k), err) ∧
      Stores l' (records ++ batch.take k) torn ∧ (err = none → k = batch.length ∧ torn = []) ∧
      ∀ r, StopsAt faults batch r → k = min r batch.length ∧ (batch.length ≤ r → err = none) ∧
        (faults.getD r .none = .torn 0 → torn = []) := by
  induction batch generalizing l records faults with
  | nil =>
    refine ⟨l, 0, none, [], rfl, ?_, fun _ => ⟨rfl, rfl⟩, fun r _ => ⟨(Nat.min_zero r).symm, fun _ => rfl, fun _ => rfl⟩⟩
    rwa [take_nil, append_nil]
  | cons record batch ih =>
    have hhead : faults.headD .none = faults.getD 0 .none := by cases faults <;> rfl
    rcases h.append (faults.headD .none) record with ⟨l₁, happ, -, h₁⟩ | ⟨l₁, e, torn, happ, h₁, htorn⟩
    · obtain ⟨l', k, err, torn, hall, hstores, hnone, hexact⟩ := ih h₁ faults.tail
      rw [Codec.size_append, Codec.size_cons, Codec.size_nil, add_zero] at hall
      rw [append_assoc] at hstores
      refine ⟨l', k + 1, err, torn, ?_, hstores, fun he => ?_, fun r hr => ?_⟩
      · simp only [Replaylog.appendAll, happ, hall]
        rfl
      · obtain ⟨rfl, rfl⟩ := hnone he
        exact ⟨rfl, rfl⟩
      · cases r with
        | zero =>
          obtain ⟨n, hn, hfault⟩ := hr.torn record rfl
          obtain ⟨l'', e, herror⟩ := append_torn hn l
          rw [hhead, hfault, herror] at happ
          cases happ
        | succ r =>
          obtain ⟨rfl, herr, htorn⟩ := hexact r hr.tail
          refine ⟨by rw [length_cons, Nat.succ_min_succ], fun hle => herr (Nat.le_of_succ_le_succ hle), fun hzero => ?_⟩
          exact htorn (by cases faults <;> exact hzero)
    · refine ⟨l₁, 0, some e, torn, ?_, ?_, nofun, fun r hr => ?_⟩
      · simp only [Replaylog.appendAll, happ]
        rfl
      · rwa [take_zero, append_nil]
      · cases r with
        | zero => exact ⟨(Nat.zero_min _).symm, fun hle => absurd hle (Nat.not_succ_le_zero _), fun hzero => htorn (hhead ▸ hzero)⟩
        | succ r =>
          obtain ⟨l'', offset, hok⟩ := append_calm (hr.fits record mem_cons_self) l
          rw [hhead, hr.calm 0 (Nat.succ_pos r), hok] at happ
          cases happ

/-- The file of the active segment ends where the log ends. -/
def SealedPartitionLog.Settled (p : SealedPartitionLog) : Prop :=
  (p.log.files.content p.log.activeStart).length = p.log.writeOffset - p.log.activeStart

instance (p : SealedPartitionLog) : Decidable p.Settled := inferInstanceAs (Decidable (_ = _))

namespace Published

/-- A file that ends where the log ends has nothing torn. -/
theorem torn_eq_nil (h : Published p records torn) (hsettled : p.Settled) : torn = [] := by
  obtain ⟨full, last, hl, -⟩ := h.stores
  unfold SealedPartitionLog.Settled at hsettled
  rw [hl.activeStart, hl.layout.content, hl.writeOffset, Nat.add_sub_cancel_left, length_append] at hsettled
  exact length_eq_zero_iff.1 (by unfold Codec.size at hsettled; omega)

/-- **What a batch does**: a part of it is published behind what was published before, all of it if the batch is
acknowledged.  When the disk stops at a record of a batch that fits, the part is what precedes that record, and
only then, or after a failed sync, is the batch not acknowledged. -/
theorem appendDurable (h : Published p records []) (fault : BatchFault) (batch : List Bytes) :
    ∃ k torn, Published (p.appendDurable fault batch).1 (records ++ batch.take k) torn ∧
      (∀ base, (p.appendDurable fault batch).2 = .ok base →
        base = clampI64 records.length ∧ k = batch.length ∧ torn = [] ∧ fault.sync = .none) ∧
      ∀ r, StopsAt fault.writes batch r → k = min r batch.length ∧
        (fault.writes.getD r .none = .torn 0 → torn = []) ∧
        (batch.length ≤ r → torn = [] ∧
          (fault.sync = .none → ∃ base, (p.appendDurable fault batch).2 = .ok base)) := by
  obtain ⟨l', k, err, torn, hall, hstores, hnone, hexact⟩ := h.stores.appendAll fault.writes batch
  have hsynced := hstores.sync fault.sync
  have hscan := hsynced.scanStarts
  have hsyncOk : (∃ l'', l'.sync fault.sync = (l'', .ok ())) ↔ fault.sync = .none := by
    cases fault.sync <;> simp [ReplayLog.sync]
  refine ⟨k, torn, ?_⟩
  rcases hsync : l'.sync fault.sync with ⟨l'', synced⟩
  rw [hsync] at hsynced hscan hsyncOk
  have hstarts : p.starts ++ wire.offsets (wire.size records) (batch.take k) =
      wire.offsets 0 (records ++ batch.take k) := by
    rw [h.starts, Codec.offsets_append, zero_add]
  have hpart : ∀ r, StopsAt fault.writes batch r → k = min r batch.length ∧
      (fault.writes.getD r .none = .torn 0 → torn = []) ∧ (batch.length ≤ r → err = none ∧ torn = []) := by
    intro r hr
    obtain ⟨hk, herr, htorn⟩ := hexact r hr
    exact ⟨hk, htorn, fun hle => ⟨herr hle, (hnone (herr hle)).2⟩⟩
  simp only [SealedPartitionLog.appendDurable, hall, hsync]
  cases err with
  | some e =>
    simp only [Option.some_or, hscan]
    refine ⟨⟨hsynced, rfl⟩, nofun, fun r hr => ?_⟩
    obtain ⟨hk, htorn, hend⟩ := hpart r hr
    exact ⟨hk, htorn, fun hle => nomatch (hend hle).1⟩
  | none =>
    cases synced with
    | error e =>
      simp only [Option.none_or, hscan]
      refine ⟨⟨hsynced, rfl⟩, nofun, fun r hr => ?_⟩
      obtain ⟨hk, htorn, hend⟩ := hpart r hr
      exact ⟨hk, htorn, fun hle => ⟨(hend hle).2, fun hnone => by simpa using hsyncOk.2 hnone⟩⟩
    | ok u =>
      refine ⟨⟨hsynced, hstarts⟩, fun base hbase => ?_, fun r hr => ?_⟩
      · obtain ⟨hk, htorn⟩ := hnone rfl
        refine ⟨?_, hk, htorn, hsyncOk.1 ⟨l'', rfl⟩⟩
        rw [← h.length_starts]
        exact (Except.ok.inj hbase).symm
      · obtain ⟨hk, htorn, hend⟩ := hpart r hr
        exact ⟨hk, htorn, fun hle => ⟨(hend hle).2, fun _ => ⟨_, rfl⟩⟩⟩

end Published

/-- A directory is opened to what is there. -/
theorem open_of_stores {f : Files} (h : Stores (ReplayLog.open f defaultSegmentBytes) records []) :
    SealedPartitionLog.open f =
      .ok { log := ReplayLog.open f defaultSegmentBytes, starts := wire.offsets 0 records } := by
  simp only [SealedPartitionLog.open, h.scanStarts]

/-- A log that is opened on a directory publishes what is there. -/
theorem published_recover {f : Files} {full : List (List Bytes)} {last : List Bytes} (h : Layout f full last torn)
    (p : SealedPartitionLog) : p.recover f =
        { log := ReplayLog.open f defaultSegmentBytes, starts := wire.offsets 0 (full.flatten ++ last) } ∧
      Published (p.recover f) (full.flatten ++ last) [] := by
  have hstores : Stores (ReplayLog.open f defaultSegmentBytes) (full.flatten ++ last) [] :=
    ⟨full, last, holds_open h defaultSegmentBytes, rfl⟩
  have heq : p.recover f =
      { log := ReplayLog.open f defaultSegmentBytes, starts := wire.offsets 0 (full.flatten ++ last) } := by
    simp only [SealedPartitionLog.recover, open_of_stores hstores]
  exact ⟨heq, by rw [heq]; exact ⟨hstores, rfl⟩⟩

/-- A restart publishes the same records: `open` cuts what is torn. -/
theorem Published.reopened (h : Published p records torn) : Published p.reopened records [] := by
  obtain ⟨full, last, hl, rfl⟩ := h.stores
  exact (published_recover hl.layout p).2

/-- A new partition log publishes nothing. -/
theorem published_fresh : Published .fresh [] [] where
  stores := ⟨[], [], holds_open_empty defaultSegmentBytes, rfl⟩
  starts := rfl

end Batch

/-- The record at a logical offset can be read: every read there begins with it. -/
def Readable (p : SealedPartitionLog) (offset : ℕ) (record : Bytes) : Prop :=
  ∀ maxBytes, ∃ more, p.readSealedFrom offset maxBytes = .ok (record :: more)

variable {p : SealedPartitionLog} {records : List Bytes} {torn : Bytes}

/-- What is published can be read at its offset, with any limit. -/
theorem Published.readable (h : Published p records torn) {i : ℕ} {record : Bytes} (hi : records[i]? = some record) :
    Readable p i record := by
  obtain ⟨hlt, -⟩ := List.getElem?_eq_some_iff.1 hi
  intro maxBytes
  obtain ⟨k, hk, hread⟩ := h.read hlt maxBytes
  obtain ⟨k, rfl⟩ := Nat.exists_eq_add_of_lt hk
  have hdrop : records.drop i = record :: records.drop (i + 1) := by
    rw [drop_eq_getElem_cons hlt, (List.getElem?_eq_some_iff.1 hi).2]
  refine ⟨(records.drop (i + 1)).take k, ?_⟩
  rw [hread, hdrop, zero_add, take_succ_cons]

section Durability

variable {p : SealedPartitionLog} {records : List Bytes} {torn : Bytes}

/-- All that a partition log holds is on disk. -/
def SealedPartitionLog.Durable (p : SealedPartitionLog) : Prop :=
  (∀ s ∈ p.log.files.segments, s ∈ p.log.files.named) ∧ p.log.writeOffset - p.log.activeStart ≤ p.log.files.durable

instance (p : SealedPartitionLog) : Decidable p.Durable :=
  decidable_of_iff ((∀ s ∈ p.log.files.segments.keys, s ∈ p.log.files.named) ∧
    p.log.writeOffset - p.log.activeStart ≤ p.log.files.durable) Iff.rfl

/-- The frame of a record is in what is left after a power failure, where the index has it. -/
def OnDisk (p : SealedPartitionLog) (i : ℕ) (record : Bytes) : Prop :=
  ∃ start segStart content, p.starts[i]? = some start ∧ segStart ≤ start ∧
    p.log.files.durablePart.segments.lookup segStart = some content ∧
    wire.frame record <+: content.drop (start - segStart)

variable {full : List (List Bytes)} {last : List Bytes}

/-- A power failure leaves the records of a directory that is synced. -/
theorem Layout.durablePart {f : Files} (h : Layout f full last torn)
    (hnamed : ∀ s ∈ f.segments, s ∈ f.named) (hsize : wire.size last ≤ f.durable) :
    ∃ torn', Layout f.durablePart full last torn' ∧ wire.size last ≤ f.durablePart.durable := by
  have hmem : sizeOf full ∈ f.segments := (h.has _).2 (mem_append_right _ (mem_singleton_self _))
  have hcut : (f.content (sizeOf full)).take f.durable =
      wire.frames last ++ torn.take (f.durable - wire.size last) := by
    rw [h.content, take_append, take_of_length_le hsize]
    rfl
  have hsegments : f.durablePart.segments = f.segments.insert (sizeOf full)
      (wire.frames last ++ torn.take (f.durable - wire.size last)) := by
    simp only [Files.durablePart, h.newest, if_pos hmem, hcut]
    refine retainKeys_eq_self fun s hs => decide_eq_true ?_
    rcases (AList.mem_insert _).1 hs with rfl | hs
    · exact hnamed _ hmem
    · exact hnamed s hs
  have hlayout : Layout f.durablePart full last (torn.take (f.durable - wire.size last)) :=
    h.set_active (fun r hr => h.fits r (mem_append_right _ hr)) (parse_take_none h.unread _) hsegments
  refine ⟨_, hlayout, ?_⟩
  have hdurable : f.durablePart.durable =
      (f.durablePart.content (f.durablePart.segmentStarts.getLast?.getD 0)).length := rfl
  rw [hdurable, hlayout.newest, hlayout.content, length_append]
  exact le_add_right _ _

/-- A log that is opened on a synced directory is synced. -/
theorem durable_recover {f : Files} (h : Layout f full last torn)
    (hsize : wire.size last ≤ f.durable) (p : SealedPartitionLog) : (p.recover f).Durable := by
  rw [(published_recover h p).1]
  have hopen := holds_open h defaultSegmentBytes
  refine ⟨fun s hs => hs, ?_⟩
  rw [hopen.writeOffset, hopen.activeStart, Nat.add_sub_cancel_left]
  refine le_min hsize ?_
  have hoff := hopen.writeOffset
  simp only [ReplayLog.open, h.newest] at hoff ⊢
  omega

namespace Published

/-- How the records of a durable log lie in its files. -/
theorem exists_layout (h : Published p records torn) (hdurable : p.Durable) :
    ∃ full last, Holds p.log full last torn ∧ records = full.flatten ++ last ∧
      wire.size last ≤ p.log.files.durable := by
  obtain ⟨full, last, hl, rfl⟩ := h.stores
  refine ⟨full, last, hl, rfl, ?_⟩
  have := hdurable.2
  rwa [hl.writeOffset, hl.activeStart, Nat.add_sub_cancel_left] at this

/-- Every published record of a durable log is on disk. -/
theorem onDisk (h : Published p records torn) (hdurable : p.Durable) {i : ℕ} {record : Bytes}
    (hi : records[i]? = some record) : OnDisk p i record := by
  have hstarts := h.starts
  obtain ⟨hlt, -⟩ := List.getElem?_eq_some_iff.1 hi
  obtain ⟨full, last, hl, rfl, hsize⟩ := h.exists_layout hdurable
  obtain ⟨torn', hlayout, -⟩ := hl.layout.durablePart hdurable.1 hsize
  obtain ⟨start, segStart, content, x, todo, more, hstart, -, hle, hlookup, hdrop, -, -, rest, hrest⟩ :=
    hlayout.exists_segment hlt
  have hx : x = record := by
    have hhead := @head?_drop _ (full.flatten ++ last) i
    rw [← hrest, hi] at hhead
    exact Option.some.inj hhead
  subst hx
  refine ⟨start, segStart, content, by rw [hstarts]; exact hstart, hle, hlookup, wire.frames todo ++ more, ?_⟩
  rw [hdrop, Codec.frames_cons, append_assoc]

/-- A restart of a durable log gives a durable log. -/
theorem reopened_durable (h : Published p records torn) (hdurable : p.Durable) : p.reopened.Durable := by
  obtain ⟨full, last, hl, rfl, hsize⟩ := h.exists_layout hdurable
  exact durable_recover hl.layout hsize p

/-- A power failure takes nothing from a durable log. -/
theorem crashed (h : Published p records torn) (hdurable : p.Durable) :
    Published p.crashed records [] ∧ p.crashed.Durable := by
  obtain ⟨full, last, hl, rfl, hsize⟩ := h.exists_layout hdurable
  obtain ⟨torn', hlayout, hsize'⟩ := hl.layout.durablePart hdurable.1 hsize
  exact ⟨(published_recover hlayout p).2, durable_recover hlayout hsize' p⟩

end Published

/-- The log behind `append_durable`: the appends, then one sync, whatever fails. -/
theorem appendDurable_log (fault : BatchFault) (batch : List Bytes) :
    (p.appendDurable fault batch).1.log = ((appendAll fault.writes p.log batch).1.sync fault.sync).1 := by
  simp only [appendDurable]
  split
  · rfl
  · split <;> rfl

/-- A batch that is refused at its first record writes nothing. -/
theorem appendAll_refused {batch : List Bytes} (h : ∀ record ∈ batch.head?, maxRecord < record.length)
    (faults : List WriteFault) (l : ReplayLog) : (appendAll faults l batch).1 = l := by
  cases batch with
  | nil => rfl
  | cons record batch =>
    have hlen := h record rfl
    simp only [appendAll, append, if_pos hlen]

/-- Where the last sync of a batch is made, or nothing is to be synced, all is on disk. -/
theorem Published.append_durable (h : Published p records []) (hdurable : p.Durable) (fault : BatchFault)
    (batch : List Bytes)
    (hsync : fault.sync = .none ∨ ∀ record ∈ batch.head?, maxRecord < record.length) :
    (p.appendDurable fault batch).1.Durable := by
  obtain ⟨l', k, err, torn, hall, ⟨full, last, hl, -⟩, -⟩ := h.stores.appendAll fault.writes batch
  have hcontent : wire.size last ≤ (l'.files.content l'.activeStart).length := by
    rw [hl.activeStart, hl.layout.content, length_append]
    exact le_add_right _ _
  have hend : l'.writeOffset - l'.activeStart = wire.size last := by
    rw [hl.writeOffset, hl.activeStart, Nat.add_sub_cancel_left]
  unfold SealedPartitionLog.Durable
  rw [appendDurable_log, hall]
  rcases hsync with hsync | hrefused
  · rw [hsync]
    exact ⟨fun s hs => hs, hend.le.trans hcontent⟩
  · have hsame : l' = p.log := by
      have := appendAll_refused hrefused fault.writes p.log
      rwa [hall] at this
    subst hsame
    cases fault.sync with
    | none => exact ⟨fun s hs => hs, hend.le.trans hcontent⟩
    | file => exact hdurable
    | dir => exact ⟨hdurable.1, hend.le.trans hcontent⟩

end Durability

/-- Batches meet a file that ends where the log ends; the power fails only where all that the log holds is on disk. -/
def Whole (p : SealedPartitionLog) : PartitionOp → Prop
  | .append _ _ => p.Settled
  | .reopen => True
  | .crash => p.Durable

instance (p : SealedPartitionLog) : ∀ op, Decidable (Whole p op)
  | .append _ _ => inferInstanceAs (Decidable p.Settled)
  | .reopen => inferInstanceAs (Decidable True)
  | .crash => inferInstanceAs (Decidable p.Durable)

variable {ops : List PartitionOp}

/-- **What is published stays**: a run only publishes more. -/
theorem Published.run (h : Published p records torn) (hok : partitionMachine.Guarded Whole p ops) :
    ∃ more torn', Published (partitionMachine.final p ops) (records ++ more) torn' := by
  refine partitionMachine.invariant_of_step Whole
    (fun _ q => ∃ more torn', Published q (records ++ more) torn') ?_ p ops [] hok ⟨[], torn, ?_⟩
  · rintro _ q op hop ⟨more, torn', hq⟩
    cases op with
    | append fault batch =>
      obtain rfl := hq.torn_eq_nil hop
      obtain ⟨k, torn'', hnext, -⟩ := hq.appendDurable fault batch
      exact ⟨more ++ batch.take k, torn'', by rw [← append_assoc]; exact hnext⟩
    | reopen => exact ⟨more, [], hq.reopened⟩
    | crash => exact ⟨more, [], (hq.crashed hop).1⟩
  · rwa [append_nil]

/-- **What is acknowledged stays readable**, at the offset it was acknowledged with, in the running
process and after every restart. -/
theorem acked_stays_readable (ops : List PartitionOp) (hok : partitionMachine.Guarded Whole .fresh ops)
    (j : ℕ) (fault : BatchFault) (batch : List Bytes) (base : ℤ)
    (hj : (partitionTrace ops)[j]? = some (.append fault batch, some (.ok base))) :
    base = clampI64 (partitionAfter (ops.take j)).len ∧ ∀ n, j < n → ∀ i record, batch[i]? = some record →
        Readable (partitionAfter (ops.take n)) ((partitionAfter (ops.take j)).len + i) record := by
  rw [partitionTrace, getElem?_trace] at hj
  obtain ⟨op, hop, heq⟩ := Option.map_eq_some_iff.1 hj
  obtain ⟨rfl, hanswer⟩ := Prod.mk.inj heq
  have hbase := Option.some.inj hanswer
  -- the run is cut into what is before the batch, the batch, and what is behind it
  have hsplit : ∀ n, j < n → ∃ rest, ops.take n = ops.take j ++ .append fault batch :: rest := by
    intro n hn
    have hget : (ops.take n)[j]? = some (.append fault batch) := by rw [getElem?_take_of_lt hn, hop]
    obtain ⟨hlt, hval⟩ := List.getElem?_eq_some_iff.1 hget
    have htake : (ops.take n).take j = ops.take j := by rw [take_take, min_eq_left hn.le]
    exact ⟨(ops.take n).drop (j + 1), by
      rw [← htake, ← hval, ← drop_eq_getElem_cons hlt, take_append_drop]⟩
  have hguard : ∀ n, partitionMachine.Guarded Whole .fresh (ops.take n) := fun n => by
    rw [← take_append_drop n ops, guarded_append] at hok
    exact hok.1
  obtain ⟨records, torn, hbefore⟩ := published_fresh.run (hguard j)
  rw [nil_append] at hbefore
  have hlen : (partitionAfter (ops.take j)).len = records.length := hbefore.length_starts
  have hstep : Whole (partitionAfter (ops.take j)) (.append fault batch) := by
    obtain ⟨rest, hrest⟩ := hsplit (j + 1) (lt_succ_self j)
    have := hguard (j + 1)
    rw [hrest, guarded_append] at this
    exact this.2.1
  obtain rfl := hbefore.torn_eq_nil hstep
  obtain ⟨k, torn', hafter, hacked, -⟩ := hbefore.appendDurable fault batch
  obtain ⟨rfl, rfl, rfl, -⟩ := hacked base hbase
  rw [take_length] at hafter
  rw [hlen]
  refine ⟨rfl, fun n hn i record hi => ?_⟩
  obtain ⟨rest, hrest⟩ := hsplit n hn
  have hlast := hguard n
  rw [hrest, guarded_append] at hlast
  obtain ⟨more, torn', hlater⟩ := hafter.run hlast.2.2
  rw [partitionAfter, hrest, final_append]
  refine hlater.readable ?_
  obtain ⟨hlt, -⟩ := List.getElem?_eq_some_iff.1 hi
  rw [append_assoc, getElem?_append_right (Nat.le_add_right _ _), Nat.add_sub_cancel_left,
    getElem?_append_left hlt, hi]

/-- A frame is cut short, the process is restarted, the next batch is acknowledged, and the power fails. -/
def tornThenReopened : List PartitionOp :=
  [.append .none [[1, 2, 3]], .append ⟨[.torn 5], .none⟩ [[9, 9, 9]], .reopen, .append .none [[7, 7]], .crash]

/-- The acknowledged batch outlives the power failure. -/
theorem acked_stays_readable_reopened : partitionMachine.Guarded Whole .fresh tornThenReopened ∧
      Readable (partitionAfter (tornThenReopened.take 5)) ((partitionAfter (tornThenReopened.take 3)).len + 0) [7, 7] :=
  ⟨by decide +kernel, (acked_stays_readable tornThenReopened (by decide +kernel) 3 .none [[7, 7]] 1
    (by decide +kernel)).2 5 (by decide) 0 [7, 7] rfl⟩

/-- Without the restart the batch is acknowledged at offset 1, cannot be read there, and is gone
after a restart. -/
theorem acked_behind_torn_frame_lost :
    (partitionTrace [.append .none [[1, 2, 3]], .append ⟨[.torn 5], .none⟩ [[9, 9, 9]],
        .append .none [[7, 7]]])[2]? = some (.append .none [[7, 7]], some (.ok 1)) ∧
      (partitionAfter [.append .none [[1, 2, 3]], .append ⟨[.torn 5], .none⟩ [[9, 9, 9]],
        .append .none [[7, 7]]]).readSealedFrom 1 0 = .ok [] ∧
      (partitionAfter [.append .none [[1, 2, 3]], .append ⟨[.torn 5], .none⟩ [[9, 9, 9]],
        .append .none [[7, 7]], .reopen]).len = 1 := by
  decide +kernel

/-- Batches meet a file that ends where the log ends, and their last sync fails only if nothing of
them was written. -/
def Synced (p : SealedPartitionLog) : PartitionOp → Prop
  | .append fault batch =>
    p.Settled ∧ (fault.sync = .none ∨ ∀ record ∈ batch.head?, maxRecord < record.length)
  | .reopen => True
  | .crash => True

instance (p : SealedPartitionLog) : ∀ op, Decidable (Synced p op)
  | .append _ _ => inferInstanceAs (Decidable (_ ∧ (_ ∨ _)))
  | .reopen => inferInstanceAs (Decidable True)
  | .crash => inferInstanceAs (Decidable True)

/-- **What is published and on disk stays**, through restarts and power failures. -/
theorem Published.run_durable (h : Published p records torn) (hdurable : p.Durable)
    (hok : partitionMachine.Guarded Synced p ops) :
    ∃ more torn', Published (partitionMachine.final p ops) (records ++ more) torn' ∧
      (partitionMachine.final p ops).Durable := by
  refine partitionMachine.invariant_of_step Synced
    (fun _ q => ∃ more torn', Published q (records ++ more) torn' ∧ q.Durable) ?_ p ops [] hok ⟨[], torn, ?_, hdurable⟩
  · rintro _ q op hop ⟨more, torn', hq, hqd⟩
    cases op with
    | append fault batch =>
      obtain rfl := hq.torn_eq_nil hop.1
      obtain ⟨k, torn'', hnext, -⟩ := hq.appendDurable fault batch
      exact ⟨more ++ batch.take k, torn'', by rw [← append_assoc]; exact hnext, hq.append_durable hqd fault batch hop.2⟩
    | reopen => exact ⟨more, [], hq.reopened, hq.reopened_durable hqd⟩
    | crash => exact ⟨more, [], hq.crashed hqd⟩
  · rwa [append_nil]

/-- A new log has nothing that is not on disk. -/
theorem durable_fresh : fresh.Durable := ⟨fun _ hs => hs, le_refl 0⟩

/-- A read returns records that are published, at their offsets. -/
theorem Published.getElem?_of_read (h : Published p records torn) {offset : ℕ} {maxBytes : ℤ} {out : List Bytes}
    (hread : p.readSealedFrom offset maxBytes = .ok out) {k : ℕ} {record : Bytes} (hk : out[k]? = some record) :
    records[offset + k]? = some record := by
  by_cases hi : offset < records.length
  · obtain ⟨n, -, hn⟩ := h.read hi maxBytes
    rw [hread] at hn
    rw [Except.ok.inj hn] at hk
    obtain ⟨hlt, -⟩ := List.getElem?_eq_some_iff.1 hk
    rw [length_take] at hlt
    rwa [getElem?_take_of_lt (by omega), getElem?_drop] at hk
  · rw [h.read_end (by omega)] at hread
    rw [← Except.ok.inj hread] at hk
    exact absurd hk (by simp)

/-- **What is visible is on disk.**  Every record that is counted or returned by a read has its
frame on disk, and it can be read at the same offset ever after, also after a power failure. -/
theorem published_is_durable (ops : List PartitionOp) (hok : partitionMachine.Guarded Synced .fresh ops)
    (m n : ℕ) (hmn : m ≤ n) :
    (∀ i, i < (partitionAfter (ops.take m)).len → ∃ record, OnDisk (partitionAfter (ops.take m)) i record ∧
        Readable (partitionAfter (ops.take m)) i record) ∧
      ∀ offset maxBytes out, (partitionAfter (ops.take m)).readSealedFrom offset maxBytes = .ok out →
        ∀ k record, out[k]? = some record → OnDisk (partitionAfter (ops.take m)) (offset + k) record ∧
          Readable (partitionAfter (ops.take n)) (offset + k) record ∧
          Readable (partitionAfter (ops.take n)).crashed (offset + k) record := by
  have hguard : ∀ n, partitionMachine.Guarded Synced .fresh (ops.take n) := fun n => by
    rw [← take_append_drop n ops, guarded_append] at hok
    exact hok.1
  have hsplit : ops.take n = ops.take m ++ (ops.take n).drop m := by
    have htake : (ops.take n).take m = ops.take m := by rw [take_take, min_eq_left hmn]
    rw [← htake, take_append_drop]
  obtain ⟨records, torn, hp, hpd⟩ := published_fresh.run_durable durable_fresh (hguard m)
  rw [nil_append] at hp
  have hlater := hguard n
  rw [hsplit, guarded_append] at hlater
  obtain ⟨more, torn', hq, hqd⟩ := hp.run_durable hpd hlater.2
  have hfinal : partitionAfter (ops.take n) =
      partitionMachine.final (partitionMachine.final .fresh (ops.take m)) ((ops.take n).drop m) := by
    rw [← final_append, ← hsplit]
    rfl
  rw [hfinal]
  constructor
  · intro i hi
    have hlt : i < records.length := by
      rw [← hp.length_starts]
      exact hi
    exact ⟨records.get ⟨i, hlt⟩, hp.onDisk hpd (getElem?_eq_getElem hlt),
      hp.readable (getElem?_eq_getElem hlt)⟩
  · intro offset maxBytes out hread k record hk
    have hget := hp.getElem?_of_read hread hk
    obtain ⟨hlt, -⟩ := List.getElem?_eq_some_iff.1 hget
    have hgetq : (records ++ more)[offset + k]? = some record := by rw [getElem?_append_left hlt, hget]
    exact ⟨hp.onDisk hpd hget, hq.readable hgetq, (hq.crashed hqd).1.readable hgetq⟩

/-- A sync fails for a batch that is refused, and the power fails. -/
def refusedThenCrashed : List PartitionOp :=
  [.append .none [[1, 2, 3]], .append ⟨[.rotateSync], .none⟩ [[4]], .append ⟨[], .file⟩ [], .crash]

/-- The second batch outlives it. -/
theorem published_is_durable_crashed : partitionMachine.Guarded Synced .fresh refusedThenCrashed ∧
      Readable (partitionAfter (refusedThenCrashed.take 4)) (0 + 1) [4] :=
  ⟨by decide +kernel, ((published_is_durable refusedThenCrashed (by decide +kernel) 2 4 (by decide)).2 0 100
    [[1, 2, 3], [4]] (by decide +kernel) 1 [4] rfl).2.1⟩

/-- After a failed sync the record is counted and returned; it is not on disk, and a power failure
takes it away. -/
theorem failed_sync_publishes :
    (partitionTrace [.append ⟨[], .file⟩ [[8]]])[0]? = some (.append ⟨[], .file⟩ [[8]], some (.error .io)) ∧
      (partitionAfter [.append ⟨[], .file⟩ [[8]]]).readSealedFrom 0 0 = .ok [[8]] ∧
      (partitionAfter [.append ⟨[], .file⟩ [[8]]]).log.files.durablePart.segments.lookup 0 = some [] ∧
      (partitionAfter [.append ⟨[], .file⟩ [[8]]]).crashed.len = 0 := by
  decide +kernel

end Datarail.Replaylog
