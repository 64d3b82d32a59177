/-
# One idempotent producer session

The batches of one producer session reach the daemon in attempts, any of which may fail.
`Ready` is the state of the pipeline between two rounds as long as the rail loses or
keeps no cofre half-way: the queue and the terminal's sink are empty, and the gate has
seen neither the next number nor the next key.  From a ready state a round either commits
its own batch or leaves the database alone (`ingest_cases`), so that the sink sees the
session as a list of arrivals, and the table holds the arrivals its high watermark lets
through (`Lib.ascents`).

The watermark is one number per stream, and the daemon lets a later batch pass an earlier
one that failed.  A session lands exactly once precisely when no batch's transaction
commits before the transactions of the batches below it.
-/

import Datarail.Ingest.Daemon
import Datarail.Lib.Highwater

namespace Datarail.Ingest

open Lib Terminal Once Kafka List Action Daemon

section Round

variable {C : Crypto} {r : Route} {d t : Daemon} {env : Env} {batch : List Bytes}

/-- The idempotency key of a round. -/
def mac (C : Crypto) (r : Route) (batchNo : ℕ) : Arr 32 := C.keyedHash r.tenantSecret (eosKey batchNo)

/-- Between two rounds, nothing of the last one is under way. -/
structure Ready (C : Crypto) (r : Route) (d : Daemon) : Prop where
  paired : Paired C d.src d.dst
  config : d.src.config = r.config C
  contract : d.src.contract = r.onboarding
  sender : d.src.sender = none
  rail : d.rail = []
  committed : d.dst.committed = []
  number : d.src.seq.toNat ≤ d.batchNo
  gate : ∃ keys, (d.dst.once.stream r.streamId).Below d.src.seq.toNat keys ∧
    ∀ key ∈ keys, ∃ j < d.batchNo, key = mac C r j

/-- A cofre cannot be left on the rail, nor records in the terminal's sink. -/
def RailFault.Clean : RailFault → Prop
  | .none => True
  | .sending queued _ => queued = false
  | .receiving _ => False
  | .acking _ => False

instance : ∀ f : RailFault, Decidable f.Clean
  | .none => inferInstanceAs (Decidable True)
  | .sending queued _ => inferInstanceAs (Decidable (queued = false))
  | .receiving _ => inferInstanceAs (Decidable False)
  | .acking _ => inferInstanceAs (Decidable False)

theorem ready_start (hcontracts : r.offloading = r.onboarding) (db : Db) : Ready C r (r.start C db) where
  paired :=
    { config := rfl
      contract := hcontracts
      pinned := rfl
      wrapped := rfl
      vouched := nofun }
  config := rfl
  contract := rfl
  sender := rfl
  rail := rfl
  committed := rfl
  number := Nat.le_refl 0
  gate := ⟨[], StreamState.Below.new, nofun⟩

/-- The next round finds a pipeline that is ready, whatever became of the database. -/
theorem Ready.next {n : ℕ} (h : Ready C r d) (hbatch : d.batchNo ≤ n) (db : Db) :
    Ready C r { d with batchNo := n, db := db } := by
  obtain ⟨keys, hbelow, hkeys⟩ := h.gate
  refine { h with number := h.number.trans hbatch, gate := ⟨keys, hbelow, fun key hkey => ?_⟩ }
  obtain ⟨j, hj, heq⟩ := hkeys key hkey
  exact ⟨j, hj.trans_le hbatch, heq⟩

variable {recordKey : Bytes} {cofre : Cofre}

theorem board_of_ok {src : SourceTerminal} {draws : Draws}
    (h : src.boardAt C draws batch recordKey src.seq = .ok cofre) :
    src.board C draws batch recordKey = .ok (cofre, { src with seq := src.seq + 1 }) := by
  rw [SourceTerminal.board, h]
  rfl

theorem isEmpty_eq_false (h : batch ≠ []) : batch.isEmpty = false := by
  cases batch with
  | nil => exact absurd rfl h
  | cons => rfl

/-- A batch that does not board leaves the daemon as it was. -/
theorem deliverBatch_of_error {e : TerminalError} (hne : batch ≠ [])
    (h : d.src.boardAt C env.draws batch recordKey d.src.seq = .error e) :
    (deliverBatch C env batch recordKey).run d = (.stop (.failed (.terminal e)), d) := by
  have hboard : (boardBatch C env batch recordKey).run d = (.stop (.failed (.terminal e)), d) := by
    simp only [boardBatch, SourceTerminal.board, h]
    rfl
  rw [deliverBatch, isEmpty_eq_false hne, if_neg Bool.false_ne_true, bind_of_stop hboard]

/-- A batch that boards and is not sent is lost on the way; its number is spent. -/
theorem deliverBatch_of_sending {text : String} (hne : batch ≠ [])
    (h : d.src.boardAt C env.draws batch recordKey d.src.seq = .ok cofre)
    (hrail : env.rail = .sending false text) :
    (deliverBatch C env batch recordKey).run d =
      (.stop (.failed (.rail text)), { d with src := { d.src with seq := d.src.seq + 1 } }) := by
  have hboard : (boardBatch C env batch recordKey).run d =
      (.ok cofre, { d with src := { d.src with seq := d.src.seq + 1 } }) := by
    simp only [boardBatch, board_of_ok h]
  have hsend : (sendCofre env cofre).run { d with src := { d.src with seq := d.src.seq + 1 } } =
      (.stop (.failed (.rail text)), { d with src := { d.src with seq := d.src.seq + 1 } }) := by
    simp only [sendCofre, hrail]
    rfl
  rw [deliverBatch, isEmpty_eq_false hne, if_neg Bool.false_ne_true, bind_of_ok hboard, bind_of_stop hsend]

/-- The daemon after a batch went through. -/
def delivered (C : Crypto) (d : Daemon) (cofre : Cofre) : Daemon :=
  { d with
    src := { d.src with seq := d.src.seq + 1 }
    dst := { (d.dst.offload C cofre).1 with committed := [] } }

/-- A batch that boards and crosses an empty rail is offloaded itself. -/
theorem deliverBatch_of_none (hne : batch ≠ [])
    (h : d.src.boardAt C env.draws batch recordKey d.src.seq = .ok cofre) (hrail : env.rail = .none)
    (hqueue : d.rail = []) :
    (deliverBatch C env batch recordKey).run d =
      (.ok (some ((d.dst.offload C cofre).2, (d.dst.offload C cofre).1.committed)), delivered C d cofre) := by
  have hboard : (boardBatch C env batch recordKey).run d =
      (.ok cofre, { d with src := { d.src with seq := d.src.seq + 1 } }) := by
    simp only [boardBatch, board_of_ok h]
  have hsend : (sendCofre env cofre).run { d with src := { d.src with seq := d.src.seq + 1 } } =
      (.ok (), { d with src := { d.src with seq := d.src.seq + 1 }, rail := [cofre] }) := by
    simp only [sendCofre, hrail, hqueue, nil_append]
  have hrecv : (recvCofre env).run { d with src := { d.src with seq := d.src.seq + 1 }, rail := [cofre] } =
      (.ok cofre, { d with src := { d.src with seq := d.src.seq + 1 }, rail := [] }) := by
    simp only [recvCofre, hrail]
  have hack : ackCofre env = pure () := by
    simp only [ackCofre, hrail]
  rw [deliverBatch, isEmpty_eq_false hne, if_neg Bool.false_ne_true, bind_of_ok hboard,
    bind_of_ok hsend, bind_of_ok hrecv, hack]
  simp only [delivered, ← hqueue]
  rfl

theorem toNat_succ {n : UInt64} (h : n.toNat + 1 < 2 ^ 64) : (n + 1).toNat = n.toNat + 1 := by
  rw [UInt64.toNat_add, UInt64.toNat_one, Nat.mod_eq_of_lt h]

/-- A number that was spent for nothing does no harm. -/
theorem Ready.spent (h : Ready C r d) (hno : d.batchNo + 1 < 2 ^ 64) :
    Ready C r { d with src := { d.src with seq := d.src.seq + 1 }, batchNo := d.batchNo + 1 } := by
  have hnumber := h.number
  have hsucc := toNat_succ (show d.src.seq.toNat + 1 < 2 ^ 64 by omega)
  obtain ⟨keys, hbelow, hkeys⟩ := h.gate
  refine { h with paired := { h.paired with }, number := ?_, gate := ⟨keys, ?_, fun key hkey => ?_⟩ }
  · simp only [hsucc]
    omega
  · simp only [hsucc]
    exact hbelow.mono (Nat.le_succ _)
  · obtain ⟨j, hj, heq⟩ := hkeys key hkey
    exact ⟨j, Nat.lt_succ_of_lt hj, heq⟩

/-- **A round delivers its own batch.** -/
theorem Ready.delivered (h : Ready C r d) {draws : Draws}
    (hboard : d.src.boardAt C draws batch (eosKey d.batchNo) d.src.seq = .ok cofre)
    (hno : d.batchNo + 1 < 2 ^ 64) (hfresh : ∀ j < d.batchNo, mac C r j ≠ mac C r d.batchNo) :
    (d.dst.offload C cofre).2 = .delivered ∧ (d.dst.offload C cofre).1.committed = batch ∧
      Ready C r { Ingest.delivered C d cofre with batchNo := d.batchNo + 1 } := by
  obtain ⟨keys, hbelow, hkeys⟩ := h.gate
  have hconfig := h.config
  have hstream : d.src.config.streamId = r.streamId := by rw [hconfig]; rfl
  have hsecret : d.src.config.tenantSecret = r.tenantSecret := by rw [hconfig]; rfl
  have hnumber := h.number
  rw [← hstream] at hbelow
  have hkey : C.keyedHash d.src.config.tenantSecret (eosKey d.batchNo) ∉ keys := by
    intro hmem
    obtain ⟨j, hj, heq⟩ := hkeys _ hmem
    rw [hsecret] at heq
    exact hfresh j hj heq.symm
  obtain ⟨hdisp, hcommitted, hnext, hpaired⟩ :=
    offload_boardAt h.paired hboard hbelow (le_refl _) hkey
  refine ⟨hdisp, by rw [hcommitted, h.committed, nil_append], ?_⟩
  have hsucc := toNat_succ (show d.src.seq.toNat + 1 < 2 ^ 64 by omega)
  refine { h with
    paired := { hpaired with }
    committed := rfl
    number := ?_
    gate := ⟨C.keyedHash d.src.config.tenantSecret (eosKey d.batchNo) :: keys, ?_, fun key hmem => ?_⟩ }
  · simp only [Ingest.delivered, hsucc]
    omega
  · simp only [Ingest.delivered, hsucc]
    rw [← hstream]
    exact hnext
  · rcases mem_cons.1 hmem with rfl | hmem
    · exact ⟨d.batchNo, Nat.lt_succ_self _, by rw [hsecret]; rfl⟩
    · obtain ⟨j, hj, heq⟩ := hkeys key hmem
      exact ⟨j, Nat.lt_succ_of_lt hj, heq⟩

/-- The transaction takes effect. -/
def CommitFault.Commits : CommitFault → Prop
  | .failed _ => False
  | _ => True

instance : ∀ f : CommitFault, Decidable f.Commits
  | .none => inferInstanceAs (Decidable True)
  | .failed _ => inferInstanceAs (Decidable False)
  | .lost _ => inferInstanceAs (Decidable True)

/-- The records and the watermark of a batch pass the checks before the transaction. -/
def Committable (records : List Bytes) (high : ℕ) : Prop :=
  records.any (·.contains 0) = false ∧ (high : ℤ) ≤ i64Max

/-- An error is never answered `0`. -/
theorem codeOf_stop (α : Type) (w : Stop CliError) : codeOf (.stop w : Outcome CliError α) ≠ 0 := by
  have h₁ : Broker.produceErrorCode .invalidData ≠ 0 := by decide
  have h₂ : Broker.produceErrorCode .other ≠ 0 := by decide
  unfold codeOf
  split <;> simp_all

/-- How a commit ends and what it does to the database. -/
theorem commitAtSeq_run (env : Env) (batch : List Bytes) (stream : Bytes) (high : ℕ) (d : Daemon) :
    (Committable batch high ∧ env.commit.Commits ∧ ∃ out, (commitAtSeq env batch stream high).run d =
        (out, { d with db := d.db.txnBodySeq stream high batch }) ∧
      (out = .ok () ↔ env.commit = .none)) ∨
    (¬ (Committable batch high ∧ env.commit.Commits) ∧ ∃ w,
      (commitAtSeq env batch stream high).run d = (.stop w, d)) := by
  unfold commitAtSeq
  split_ifs with hnul hhigh
  · refine .inr ⟨fun h => ?_, _, rfl⟩
    rw [h.1.1] at hnul
    cases hnul
  · exact .inr ⟨fun h => absurd h.1.2 (not_le.2 hhigh), _, rfl⟩
  · have hok : Committable batch high := ⟨Bool.eq_false_iff.2 hnul, not_lt.1 hhigh⟩
    unfold finishCommit
    cases hc : env.commit with
    | none => exact .inl ⟨hok, trivial, _, rfl, fun _ => rfl, fun _ => rfl⟩
    | failed text => exact .inr ⟨fun h => h.2, _, rfl⟩
    | lost text =>
      refine .inl ⟨hok, trivial, _, rfl, ?_, ?_⟩
      · intro h
        cases h
      · intro h
        cases h

/-- The round gets as far as its commit, and the commit takes effect. -/
def Lands (C : Crypto) (d : Daemon) (env : Env) (b : ProducedBatch) (c : EosCoord) : Prop :=
  (∃ cofre, d.src.boardAt C env.draws b.values (eosKey d.batchNo) d.src.seq = .ok cofre) ∧
    env.rail = .none ∧ Committable b.values (highSequence c) ∧ env.commit.Commits

/-- The stream of a batch. -/
def streamOf (r : Route) (b : ProducedBatch) (c : EosCoord) : Bytes :=
  eosStreamId r.routeId.1 b.topic b.partition c.producerId c.producerEpoch

variable {b : ProducedBatch}

theorem ingest_run {c : EosCoord} (h : Ready C r d) (hne : b.values ≠ []) (hb : b.eos = some c) :
    d.ingest C env b = (let run := (shipBatchSeq C env b.values (eosKey d.batchNo) (streamOf r b c)
          (highSequence c)).run d
       ({ run.2 with batchNo := run.2.batchNo + 1 }, codeOf run.1)) := by
  have hroute : d.src.config.routeId = r.routeId := by rw [h.config]; rfl
  simp only [ingest, isEmpty_eq_false hne, ship, hb, read_bind, hroute, streamOf]
  rfl

/-- **What a round does**: it lands its own batch, or nothing.  It answers `0` only if it
landed the batch. -/
theorem ingest_cases {c : EosCoord} (h : Ready C r d) (hclean : env.rail.Clean)
    (hne : b.values ≠ []) (hb : b.eos = some c) (hno : d.batchNo + 1 < 2 ^ 64)
    (hfresh : ∀ j < d.batchNo, mac C r j ≠ mac C r d.batchNo) :
    Ready C r (d.ingest C env b).1 ∧ (d.ingest C env b).1.batchNo = d.batchNo + 1 ∧ ((Lands C d env b c ∧
          (d.ingest C env b).1.db = d.db.txnBodySeq (streamOf r b c) (highSequence c) b.values ∧
          ((d.ingest C env b).2 = 0 ↔ env.commit = .none)) ∨
        (¬ Lands C d env b c ∧ (d.ingest C env b).1.db = d.db ∧ (d.ingest C env b).2 ≠ 0)) := by
  rw [ingest_run h hne hb]
  cases hboard : d.src.boardAt C env.draws b.values (eosKey d.batchNo) d.src.seq with
  | error e =>
    have hship : (shipBatchSeq C env b.values (eosKey d.batchNo) (streamOf r b c)
        (highSequence c)).run d = (.stop (.failed (.terminal e)), d) :=
      bind_of_stop (deliverBatch_of_error hne hboard)
    rw [hship]
    refine ⟨h.next (Nat.le_succ _) d.db, rfl, .inr ⟨?_, rfl, codeOf_stop _ _⟩⟩
    rintro ⟨⟨cofre, hcofre⟩, -⟩
    rw [hboard] at hcofre
    cases hcofre
  | ok cofre =>
    cases hrail : env.rail with
    | none =>
      obtain ⟨hdisp, hcommitted, hready⟩ := h.delivered hboard hno hfresh
      have hdeliver := deliverBatch_of_none hne hboard hrail h.rail
      rw [hdisp, hcommitted] at hdeliver
      rcases commitAtSeq_run env b.values (streamOf r b c) (highSequence c) (delivered C d cofre)
        with ⟨hok, hcommits, out, hrun, hout⟩ | ⟨hnot, w, hrun⟩
      · have hlands : Lands C d env b c := ⟨⟨cofre, hboard⟩, hrail, hok, hcommits⟩
        cases out with
        | ok u =>
          have hship : (shipBatchSeq C env b.values (eosKey d.batchNo) (streamOf r b c)
              (highSequence c)).run d = (.ok (some (.delivered, b.values.length)), { delivered C d cofre with
                  db := d.db.txnBodySeq (streamOf r b c) (highSequence c) b.values }) := by
            rw [shipBatchSeq, bind_of_ok hdeliver]
            exact bind_of_ok hrun
          rw [hship]
          exact ⟨hready.next (Nat.le_refl _) _, rfl, .inl ⟨hlands, rfl, fun _ => hout.1 rfl, fun _ => rfl⟩⟩
        | stop w =>
          have hship : (shipBatchSeq C env b.values (eosKey d.batchNo) (streamOf r b c)
              (highSequence c)).run d = (.stop w, { delivered C d cofre with
                  db := d.db.txnBodySeq (streamOf r b c) (highSequence c) b.values }) := by
            rw [shipBatchSeq, bind_of_ok hdeliver]
            exact bind_of_stop hrun
          rw [hship]
          refine ⟨hready.next (Nat.le_refl _) _, rfl, .inl ⟨hlands, rfl, ?_, ?_⟩⟩
          · exact fun h => absurd h (codeOf_stop _ _)
          · intro h
            cases hout.2 h
      · have hship : (shipBatchSeq C env b.values (eosKey d.batchNo) (streamOf r b c)
            (highSequence c)).run d = (.stop w, delivered C d cofre) := by
          rw [shipBatchSeq, bind_of_ok hdeliver]
          exact bind_of_stop hrun
        rw [hship]
        exact ⟨hready, rfl, .inr ⟨fun h => hnot h.2.2, rfl, codeOf_stop _ _⟩⟩
    | sending queued text =>
      rw [hrail] at hclean
      obtain rfl : queued = false := hclean
      have hship : (shipBatchSeq C env b.values (eosKey d.batchNo) (streamOf r b c)
          (highSequence c)).run d = (.stop (.failed (.rail text)),
            { d with src := { d.src with seq := d.src.seq + 1 } }) :=
        bind_of_stop (deliverBatch_of_sending hne hboard hrail)
      rw [hship]
      refine ⟨h.spent hno, rfl, .inr ⟨?_, rfl, codeOf_stop (Option (Disposition × ℕ)) (.failed (.rail text))⟩⟩
      rintro ⟨-, hnone, -⟩
      rw [hrail] at hnone
      cases hnone
    | receiving text =>
      rw [hrail] at hclean
      exact hclean.elim
    | acking text =>
      rw [hrail] at hclean
      exact hclean.elim

end Round

/-- A batch of a producer: its values and the number of sequence numbers it takes.  A
value is missing where a record had none; the whole came in one frame. -/
structure Batch where
  values : List Bytes
  count : ℕ
  length_le : values.length ≤ count
  fits : (values.map length).sum ≤ 16 * 1024 * 1024

/-- One producer session: consecutive batches from sequence number 0. -/
structure Session where
  topic : String
  partition : ℤ
  producerId : ℤ
  producerEpoch : ℤ
  batches : List Batch
  total : (batches.map Batch.count).sum < 2 ^ 31

namespace Session

variable (s : Session)

/-- The sequence number at which the `i`-th batch begins. -/
def base (i : ℕ) : ℕ := ((s.batches.take i).map Batch.count).sum

/-- The coordinate of the `i`-th batch. -/
def coord (i : Fin s.batches.length) : EosCoord :=
  ⟨s.producerId, s.producerEpoch, s.base i, (s.batches.get i).count, false⟩

/-- The `i`-th batch as it comes off the wire. -/
def produced (i : Fin s.batches.length) : ProducedBatch :=
  { topic := s.topic
    partition := s.partition
    values := (s.batches.get i).values
    eos := some (s.coord i) }

/-- The values of the `i`-th batch. -/
def values (i : ℕ) : List Bytes := (s.batches[i]?.map Batch.values).getD []

/-- Every record of every batch. -/
def records : List Bytes := s.batches.flatMap Batch.values

/-- The batches that have a record. -/
def units : List ℕ := (range s.batches.length).filter fun i => s.values i ≠ []

/-- The stream of the session. -/
def stream (r : Route) : Bytes :=
  eosStreamId r.routeId.1 s.topic s.partition s.producerId s.producerEpoch

/-- One attempt at a batch. -/
abbrev Attempt := Fin s.batches.length × Env

/-- The daemon, asked for the batches of the session. -/
def machine (C : Crypto) : Machine Daemon s.Attempt ℤ where
  step d a := d.ingest C a.2 (s.produced a.1)

end Session

/-- Nothing keeps the round from committing. -/
def Env.TakesEffect (env : Env) : Prop :=
  env.draws.ephSecret.isSome ∧ env.draws.nonce.isSome ∧ env.rail = .none ∧ env.commit.Commits

instance (env : Env) : Decidable env.TakesEffect :=
  inferInstanceAs (Decidable (_ ∧ _ ∧ _ ∧ _))

/-- The batches whose transactions take effect, in the order of the attempts. -/
def arrivals {s : Session} (attempts : List s.Attempt) : List ℕ :=
  (attempts.filter fun a => s.values a.1 ≠ [] ∧ a.2.TakesEffect).map fun a => a.1

theorem arrivals_append {s : Session} (as bs : List s.Attempt) : arrivals (as ++ bs) = arrivals as ++ arrivals bs := by
  rw [arrivals, filter_append, map_append]
  rfl

namespace Session

variable {s : Session}

theorem base_succ {i : ℕ} (hi : i < s.batches.length) : s.base (i + 1) = s.base i + (s.batches.get ⟨i, hi⟩).count := by
  rw [base, take_add_one, getElem?_eq_getElem hi, Option.toList_some, map_append, sum_append]
  simp [base]

theorem base_mono {i j : ℕ} (h : i ≤ j) : s.base i ≤ s.base j := by
  induction j, h using Nat.le_induction with
  | base => exact le_rfl
  | succ j hij ih =>
    rcases Nat.lt_or_ge j s.batches.length with hj | hj
    · rw [base_succ hj]
      omega
    · have : s.base (j + 1) = s.base j := by
        rw [base, base, take_of_length_le hj, take_of_length_le (by omega)]
      omega

theorem values_get (i : Fin s.batches.length) : s.values i = (s.batches.get i).values := by
  rw [values, getElem?_eq_getElem i.2]
  rfl

/-- A batch with a record moves the sequence number. -/
theorem base_lt {i : Fin s.batches.length} (h : s.values i ≠ []) : s.base i < s.base (i + 1) := by
  rw [values_get] at h
  have h₁ := length_pos_of_ne_nil h
  have h₂ := (s.batches.get i).length_le
  have h₃ := base_succ i.2
  rw [Fin.eta] at h₃
  omega

theorem base_lt_total (i : ℕ) : s.base i < 2 ^ 31 := by
  have hall : s.base (max i s.batches.length) = (s.batches.map Batch.count).sum := by
    rw [base, take_of_length_le (le_max_right _ _)]
  have hle := base_mono (s := s) (le_max_left i s.batches.length)
  have := s.total
  omega

theorem records_eq : s.records = s.units.flatMap s.values := by
  rw [records, flatMap_eq_range s.batches Batch.values, units, flatMap_filter_ne_nil]
  rfl

theorem mem_units {i : ℕ} : i ∈ s.units ↔ i < s.batches.length ∧ s.values i ≠ [] := by
  simp [units]

theorem pairwise_units : s.units.Pairwise (· < ·) :=
  pairwise_lt_range.filter _

/-- The watermark a batch is committed at. -/
theorem highSequence_coord (i : Fin s.batches.length) : highSequence (s.coord i) = s.base (i + 1) := by
  have hbase : (s.coord i).baseSequence = s.base i := rfl
  have hcount : (s.coord i).count = (s.batches.get i).count := rfl
  rw [highSequence, hbase, hcount, if_pos (by positivity), base_succ i.2, Fin.eta]
  omega

end Session

namespace Session

variable {C : Crypto} {r : Route} {s : Session} {db : Db}

theorem final_batchNo_le (d : Daemon) (attempts : List s.Attempt) :
    ((s.machine C).final d attempts).batchNo ≤ d.batchNo + attempts.length := by
  induction attempts generalizing d with
  | nil => exact le_rfl
  | cons a attempts ih =>
    rw [Machine.final_cons, length_cons]
    have hstep : ((s.machine C).step d a).1.batchNo ≤ d.batchNo + 1 :=
      ingest_batchNo C a.2 (s.produced a.1) d
    have := ih ((s.machine C).step d a).1
    omega

/-- What a round needs of its attempt and of the state it starts in. -/
structure Smooth (C : Crypto) (r : Route) (d : Daemon) (a : s.Attempt) : Prop where
  clean : a.2.rail.Clean
  number : d.batchNo + 1 < 2 ^ 64
  fresh : ∀ j < d.batchNo, mac C r j ≠ mac C r d.batchNo

variable {a : s.Attempt}

/-- A batch without a record is acknowledged and changes nothing. -/
theorem step_of_empty (d : Daemon) (h : s.values a.1 = []) : (s.machine C).step d a = (d, 0) := by
  rw [values_get] at h
  exact if_pos (isEmpty_iff.2 h)

variable {d : Daemon}

/-- What a round does with a batch that has a record. -/
theorem step_cases (h : Ready C r d) (hok : Smooth C r d a) (hne : s.values a.1 ≠ []) :
    Ready C r ((s.machine C).step d a).1 ∧ ((Lands C d a.2 (s.produced a.1) (s.coord a.1) ∧
          ((s.machine C).step d a).1.db = d.db.txnBodySeq (s.stream r) (s.base (a.1 + 1) : ℕ) (s.values a.1)) ∨
        (¬ Lands C d a.2 (s.produced a.1) (s.coord a.1) ∧ ((s.machine C).step d a).1.db = d.db ∧
          ((s.machine C).step d a).2 ≠ 0)) := by
  rw [values_get] at hne ⊢
  obtain ⟨hready, -, hcases⟩ := ingest_cases (b := s.produced a.1) (c := s.coord a.1) h hok.clean hne rfl
    hok.number hok.fresh
  rw [highSequence_coord] at hcases
  exact ⟨hready, hcases.imp_left fun h => ⟨h.1, h.2.1⟩⟩

variable {attempts : List s.Attempt}

/-- Every round of a run of clean attempts starts smoothly. -/
theorem guarded_smooth (hlen : attempts.length < 2 ^ 64) (hmacs : ∀ j < attempts.length, ∀ i < j, mac C r i ≠ mac C r j)
    (hclean : ∀ a ∈ attempts, a.2.rail.Clean) :
    (s.machine C).Guarded (Smooth C r) (r.start C db) attempts := by
  refine Machine.guarded_of_take _ _ _ fun k a hk => ?_
  have hlt : k < attempts.length := (List.getElem?_eq_some_iff.1 hk).1
  have hno : ((s.machine C).final (r.start C db) (attempts.take k)).batchNo ≤ k := by
    refine (final_batchNo_le _ _).trans ?_
    rw [length_take]
    exact (Nat.zero_add _).le.trans (min_le_left _ _)
  exact {
    clean := hclean a (mem_of_getElem? hk)
    number := by omega
    fresh := hmacs _ (hno.trans_lt hlt) }

/-- The pipeline is ready before every attempt. -/
theorem ready_final (hcontracts : r.offloading = r.onboarding)
    (h : (s.machine C).Guarded (Smooth C r) (r.start C db) attempts) :
    Ready C r ((s.machine C).final (r.start C db) attempts) := by
  refine (s.machine C).invariant_of_step (Smooth C r) (fun _ d => Ready C r d) ?_
    (r.start C db) attempts [] h (ready_start hcontracts db)
  intro _ d a hok hready
  by_cases hne : s.values a.1 = []
  · rw [step_of_empty d hne]
    exact hready
  · exact (step_cases hready hok hne).1

/-- A batch that can land: it conforms, it can be framed, and the database takes it. -/
structure Sendable (r : Route) (s : Session) (i : Fin s.batches.length) : Prop where
  valid : (s.batches.get i).values.all r.onboarding.validate = true
  framable : Framable (s.batches.get i).values
  committable : Committable (s.batches.get i).values (s.base (i + 1))

theorem values_length_lt (i : Fin s.batches.length) : (s.batches.get i).values.length < 2 ^ 31 := by
  have h₁ := (s.batches.get i).length_le
  have h₂ := base_succ (s := s) i.2
  have h₃ := base_lt_total (s := s) (i + 1)
  rw [Fin.eta] at h₂
  omega

variable {i : Fin s.batches.length}

/-- Whether a sendable batch lands is a matter of the circumstances alone. -/
theorem lands_iff {env : Env} (h : Ready C r d)
    (hkey : ∀ eph, (C.diffieHellman eph (C.x25519Public r.destX25519Secret)).isSome)
    (hsend : Sendable r s i) : Lands C d env (s.produced i) (s.coord i) ↔ env.TakesEffect := by
  constructor
  · rintro ⟨⟨cofre, hcofre⟩, hrail, -, hcommit⟩
    obtain ⟨_, _, _, _, _, _, _, -, -, heph, hnonce, -, -, -⟩ := boardAt_ok hcofre
    exact ⟨by rw [heph]; rfl, by rw [hnonce]; rfl, hrail, hcommit⟩
  · rintro ⟨heph, hnonce, hrail, hcommit⟩
    refine ⟨?_, hrail, by rw [highSequence_coord]; exact hsend.committable, hcommit⟩
    have hbatch := frameBatch_eq_ok.2 ⟨hsend.framable, rfl⟩
    refine boardAt_of_valid ?_ hbatch heph hnonce ?_ fun ephPk => ?_
    · rw [h.contract]
      exact hsend.valid
    · rw [h.config]
      exact hkey
    · have h₁ := values_length_lt i
      have h₂ := (s.batches.get i).fits
      simp only [SourceTerminal.inner, h.sender, length_append, length_leBytes, length_flatMap_frameRecord]
      omega

/-- An attempt that was answered `0` landed. -/
theorem lands_of_answered (hcontracts : r.offloading = r.onboarding)
    (h : (s.machine C).Guarded (Smooth C r) (r.start C db) attempts)
    (ha : (a, 0) ∈ (s.machine C).trace (r.start C db) attempts) (hne : s.values a.1 ≠ []) :
    ∃ d, Ready C r d ∧ Lands C d a.2 (s.produced a.1) (s.coord a.1) := by
  obtain ⟨k, hk⟩ := mem_iff_getElem?.1 ha
  rw [Machine.getElem?_trace] at hk
  obtain ⟨a', hget, heq⟩ := Option.map_eq_some_iff.1 hk
  obtain ⟨rfl, hcode⟩ := Prod.mk.inj heq
  have hdrop : attempts.drop k = a' :: attempts.drop (k + 1) :=
    (drop_eq_getElem_cons (List.getElem?_eq_some_iff.1 hget).1).trans (by rw [(List.getElem?_eq_some_iff.1 hget).2])
  rw [← take_append_drop k attempts, Machine.guarded_append, hdrop] at h
  have hready := ready_final hcontracts h.1
  rcases (step_cases hready h.2.1 hne).2 with ⟨hlands, -⟩ | ⟨-, -, hcode'⟩
  · exact ⟨_, hready, hlands⟩
  · exact absurd hcode hcode'

theorem sendable_of_lands {env : Env} (h : Ready C r d)
    (hlands : Lands C d env (s.produced i) (s.coord i)) : Sendable r s i := by
  obtain ⟨⟨cofre, hcofre⟩, -, hcommittable, -⟩ := hlands
  obtain ⟨batch, _, _, _, _, _, _, hvalid, hbatch, -⟩ := boardAt_ok hcofre
  rw [h.contract] at hvalid
  rw [highSequence_coord] at hcommittable
  exact ⟨hvalid, (frameBatch_eq_ok.1 hbatch).1, hcommittable⟩

/-- The database after some arrivals: the table holds the ascents, and the watermark
stands where the highest of them ends. -/
structure Landed (r : Route) (s : Session) (db₀ : Db) (arr : List ℕ) (db : Db) : Prop where
  table : db.table = db₀.table ++ (ascents 0 arr).flatMap s.values
  watermark : db.watermarks.get (s.stream r) = if crest 0 arr = 0 then none else some (s.base (crest 0 arr) : ℤ)

/-- The sink takes an arrival exactly when it lies above all before it. -/
theorem Landed.txnBodySeq {db₀ : Db} {arr : List ℕ} (h : Landed r s db₀ arr db) (hne : s.values i ≠ []) :
    Landed r s db₀ (arr ++ [i.1]) (db.txnBodySeq (s.stream r) (s.base (i + 1) : ℕ) (s.values i)) := by
  have hland : crest 0 arr ≤ i → Landed r s db₀ (arr ++ [i.1])
      { table := db.table ++ s.values i
        watermarks := db.watermarks.insert (s.stream r) (s.base (i + 1) : ℕ) } := by
    intro hi
    refine ⟨?_, ?_⟩
    · rw [ascents_concat, if_neg (by omega), flatMap_append, flatMap_singleton, h.table, append_assoc]
    · rw [Table.get_insert_self, crest_concat, if_neg (by omega), show max (crest 0 arr) (i.1 + 1) = i.1 + 1 by omega]
  have hget := h.watermark
  unfold Db.txnBodySeq
  by_cases hzero : crest 0 arr = 0
  · rw [if_pos hzero] at hget
    simp only [hget]
    exact hland (by omega)
  · rw [if_neg hzero] at hget
    simp only [hget]
    split_ifs with hle
    · have hlt : i.1 < crest 0 arr := by
        by_contra hge
        have h₁ := base_mono (s := s) (show crest 0 arr ≤ i.1 by omega)
        have h₂ := base_lt hne
        omega
      refine ⟨?_, ?_⟩
      · rw [ascents_concat, if_pos hlt, h.table]
      · rw [crest_concat, show max (crest 0 arr) (i.1 + 1) = crest 0 arr by omega, if_neg hzero, hget]
    · refine hland ?_
      by_contra hlt
      have := base_mono (s := s) (show i.1 + 1 ≤ crest 0 arr by omega)
      omega

theorem mem_arrivals {j : ℕ} :
    j ∈ arrivals attempts ↔ ∃ a ∈ attempts, s.values a.1 ≠ [] ∧ a.2.TakesEffect ∧ a.1 = j := by
  simp [arrivals, and_assoc]

theorem arrivals_singleton (a : s.Attempt) :
    arrivals [a] = if s.values a.1 ≠ [] ∧ a.2.TakesEffect then [a.1.1] else [] := by
  simp only [arrivals, filter_cons, filter_nil, decide_eq_true_eq]
  split <;> rfl

/-- **The daemon refines the high watermark.** -/
theorem landed_final (hcontracts : r.offloading = r.onboarding)
    (hkey : ∀ eph, (C.diffieHellman eph (C.x25519Public r.destX25519Secret)).isSome)
    (hnew : db.watermarks.get (s.stream r) = none)
    (hsend : ∀ i : Fin s.batches.length, s.values i ≠ [] → Sendable r s i)
    (h : (s.machine C).Guarded (Smooth C r) (r.start C db) attempts) :
    Landed r s db (arrivals attempts) ((s.machine C).final (r.start C db) attempts).db := by
  have hinv := (s.machine C).invariant_of_step (Smooth C r)
    (fun h d => Ready C r d ∧ Landed r s db (arrivals (h.map Prod.fst)) d.db) ?_
    (r.start C db) attempts [] h ⟨ready_start hcontracts db, ?_⟩
  · rw [nil_append, Machine.map_fst_trace] at hinv
    exact hinv.2
  · intro h d a hok ⟨hready, hlanded⟩
    rw [map_append, map_singleton, arrivals_append, arrivals_singleton]
    by_cases hne : s.values a.1 = []
    · rw [step_of_empty d hne, if_neg fun h => h.1 hne, append_nil]
      exact ⟨hready, hlanded⟩
    · obtain ⟨hnext, hcases⟩ := step_cases hready hok hne
      rw [lands_iff hready hkey (hsend a.1 hne)] at hcases
      refine ⟨hnext, ?_⟩
      rcases hcases with ⟨heffect, hdb⟩ | ⟨heffect, hdb, -⟩
      · rw [if_pos ⟨hne, heffect⟩, hdb]
        exact hlanded.txnBodySeq hne
      · rw [if_neg fun h => heffect h.2, append_nil, hdb]
        exact hlanded
  · exact ⟨(append_nil _).symm, hnew⟩

/-- **A session lands exactly once precisely when its transactions take effect in order.**
Every batch has been answered `0`, after any attempts in any order; no attempt left a cofre
on the rail or records in the terminal's sink.  Then every record is in the table once if
and only if no batch took effect before a lower one had. -/
theorem session_lands_once_iff (hcontracts : r.offloading = r.onboarding)
    (hkey : ∀ eph, (C.diffieHellman eph (C.x25519Public r.destX25519Secret)).isSome)
    (hnew : db.watermarks.get (s.stream r) = none) (attempts : List s.Attempt)
    (hlen : attempts.length < 2 ^ 64)
    (hmacs : ∀ j < attempts.length, ∀ i < j, mac C r i ≠ mac C r j)
    (hclean : ∀ a ∈ attempts, a.2.rail.Clean)
    (hall : ∀ i, ∃ e ∈ (s.machine C).trace (r.start C db) attempts, e.1.1 = i ∧ e.2 = 0) :
    ((s.machine C).final (r.start C db) attempts).db.table.Perm (db.table ++ s.records) ↔
      InOrder s.units (arrivals attempts) := by
  have hguarded : (s.machine C).Guarded (Smooth C r) (r.start C db) attempts := guarded_smooth hlen hmacs hclean
  have hanswered : ∀ i : Fin s.batches.length, s.values i ≠ [] → Sendable r s i ∧ i.1 ∈ arrivals attempts := by
    intro i hne
    obtain ⟨⟨⟨_, env⟩, _⟩, hmem, rfl, rfl⟩ := hall i
    obtain ⟨d, hready, hlands⟩ := lands_of_answered hcontracts hguarded hmem hne
    have hsend := sendable_of_lands hready hlands
    have hin := by
      have := mem_map_of_mem (f := Prod.fst) hmem
      rwa [Machine.map_fst_trace] at this
    exact ⟨hsend, mem_arrivals.2 ⟨_, hin, hne, (lands_iff hready hkey hsend).1 hlands, rfl⟩⟩
  have hlanded := landed_final hcontracts hkey hnew (fun i hne => (hanswered i hne).1) hguarded
  rw [hlanded.table, perm_append_left_iff, records_eq]
  refine perm_flatMap_ascents_iff pairwise_units (fun i hi => ?_) (fun j hj => ?_) fun i hi => (mem_units.1 hi).2
  · obtain ⟨a, -, hne, -, rfl⟩ := mem_arrivals.1 hi
    exact mem_units.2 ⟨a.1.2, hne⟩
  · obtain ⟨hlt, hne⟩ := mem_units.1 hj
    exact (hanswered ⟨j, hlt⟩ hne).2

/-- A session of two batches of one record each. -/
def twoBatches : Session where
  topic := "t"
  partition := 0
  producerId := 1
  producerEpoch := 0
  batches := [⟨[[7]], 1, by decide, by decide⟩, ⟨[[8]], 1, by decide, by decide⟩]
  total := by decide

/-- A first batch that fails and is retried before the second one lands once. -/
theorem session_lands_once_retried :
    ((twoBatches.machine .transparent).final (openRoute.start .transparent ⟨[], .empty⟩)
        [((0 : Fin 2), committing (.failed "down")), ((0 : Fin 2), committing .none),
          ((1 : Fin 2), committing .none)]).db.table.Perm
      twoBatches.records :=
  (session_lands_once_iff rfl (fun _ => rfl) rfl _ (by decide) (by decide +kernel) (by decide)
    (by decide +kernel)).2 (by decide +kernel)

/-- The second batch lands between the two attempts at the first: every batch is answered
`0` at last, and the record of the first is in the table nowhere. -/
theorem passed_batch_is_lost :
    let run := [((0 : Fin 2), committing (.failed "down")), (1, committing .none), (0, committing .none)]
    ((twoBatches.machine .transparent).trace (openRoute.start .transparent ⟨[], .empty⟩) run).map
        (fun e => (e.1.1.1, e.2)) = [(0, 56), (1, 0), (0, 0)] ∧
      ((twoBatches.machine .transparent).final (openRoute.start .transparent ⟨[], .empty⟩) run).db.table = [[8]] ∧
      twoBatches.records = [[7], [8]] := by
  decide +kernel

end Session

end Datarail.Ingest
