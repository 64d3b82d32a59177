/-
# One open transaction per partition

The coordinator keeps the enrolled partitions twice: in the state of each id and,
turned around, in the claim table.  The two are written separately by five
operations; `ClaimsInv` says that they agree in every reachable state, so that no
partition is ever in the open transactions of two ids.
-/

import Datarail.Kafka.Txn

namespace Datarail.Kafka

open Lib TxnCoordinator

/-- The partition is in the enrolled set of the id. -/
def Enrolled (c : TxnCoordinator) (t : String) (tp : TopicPartition) : Prop :=
  ∃ st, c.txns.get t = some st ∧ tp ∈ st.partitions

/-- **The claims invariant**: the claim table is the enrolled sets turned
around, and an id with an enrolled partition has an open transaction. -/
structure ClaimsInv (c : TxnCoordinator) : Prop where
  claimed_iff : ∀ tp t, c.claimed.get tp = some t ↔ Enrolled c t tp
  ongoing : ∀ t st tp, c.txns.get t = some st → tp ∈ st.partitions → st.ongoing = true

variable {c c' : TxnCoordinator} {t u : String} {tp : TopicPartition}

/-- Enrolment after the state of one id is replaced. -/
theorem enrolled_insert {st : TxnState} (ht : c'.txns = c.txns.insert t st) :
    Enrolled c' u tp ↔ if u = t then tp ∈ st.partitions else Enrolled c u tp := by
  unfold Enrolled
  rw [ht]
  by_cases hu : u = t
  · subst hu
    simp
  · simp [hu]

theorem get_releaseClaims {claimed : Table TopicPartition String} :
    (releaseClaims claimed t).get tp = some u ↔ claimed.get tp = some u ∧ u ≠ t := by
  rw [releaseClaims, Table.get_retain, Option.filter_eq_some_iff]
  simp

namespace ClaimsInv

/-- The open flag after the state of one id is replaced. -/
theorem ongoing_insert (h : ClaimsInv c) {st : TxnState} (ht : c'.txns = c.txns.insert t st)
    (ho : ∀ tp, tp ∈ st.partitions → st.ongoing = true) (u : String) (st' : TxnState)
    (tp : TopicPartition) (hg : c'.txns.get u = some st') (hp : tp ∈ st'.partitions) :
    st'.ongoing = true := by
  rw [ht, Table.get_insert] at hg
  split at hg
  · obtain rfl := Option.some.inj hg
    exact ho tp hp
  · exact h.ongoing u st' tp hg hp

/-- An update of one id that keeps its partitions, and opens it at most. -/
theorem update (h : ClaimsInv c) {st st' : TxnState} (hg : c.txns.get t = some st)
    (hp : st'.partitions = st.partitions) (ho : st.ongoing = true → st'.ongoing = true) :
    ClaimsInv { c with txns := c.txns.insert t st' } where
  claimed_iff tp u := by
    rw [enrolled_insert rfl]
    split_ifs with hu
    · subst hu
      rw [hp, h.claimed_iff]
      constructor
      · rintro ⟨st₁, hg₁, hm⟩
        rw [hg] at hg₁
        exact Option.some.inj hg₁ ▸ hm
      · exact fun hm => ⟨st, hg, hm⟩
    · exact h.claimed_iff tp u
  ongoing := h.ongoing_insert rfl fun tp hm => ho (h.ongoing t st tp hg (hp ▸ hm))

/-- An id that becomes idle and gives its claims up. -/
theorem release (h : ClaimsInv c) {pair : ℤ × ℤ} (ht : c'.txns = c.txns.insert t (.idle pair))
    (hc : c'.claimed = releaseClaims c.claimed t) : ClaimsInv c' where
  claimed_iff tp u := by
    rw [hc, get_releaseClaims, enrolled_insert ht, h.claimed_iff]
    split_ifs with hu
    · exact ⟨fun hr => absurd hu hr.2, fun hm => absurd hm (SortedSet.not_mem_empty tp)⟩
    · exact and_iff_left hu
  ongoing := h.ongoing_insert ht fun tp hm => absurd hm (SortedSet.not_mem_empty tp)

/-- An id the coordinator has not seen has no claim to give up. -/
theorem release_none (h : ClaimsInv c) (hg : c.txns.get t = none) : releaseClaims c.claimed t = c.claimed := by
  refine Table.ext fun tp => Option.ext fun u => ?_
  rw [get_releaseClaims, and_iff_left_iff_imp]
  rintro hu rfl
  obtain ⟨st, hst, -⟩ := (h.claimed_iff tp u).1 hu
  rw [hg] at hst
  cases hst

/-- Enrolling partitions none of which is another id's. -/
theorem enroll (h : ClaimsInv c) {st : TxnState} (hg : c.txns.get t = some st) {ps : List TopicPartition}
    (hfree : ∀ q ∈ ps, ∀ holder, c.claimed.get q = some holder → holder = t) :
    ClaimsInv { c with
      txns := c.txns.insert t { st with
        ongoing := true, partitions := ps.foldl SortedSet.insert st.partitions }
      claimed := ps.foldl (fun m q => m.insert q t) c.claimed } where
  claimed_iff tp u := by
    rw [enrolled_insert rfl, Table.get_foldl_insert]
    split_ifs with hm hu hu
    · subst hu
      simp [SortedSet.mem_foldl_insert, hm]
    · -- `tp` is requested by `t`, so no other id may hold it
      refine ⟨fun he => absurd (Option.some.inj he).symm hu, fun he => ?_⟩
      exact absurd (hfree tp hm u ((h.claimed_iff tp u).2 he)) hu
    · subst hu
      rw [SortedSet.mem_foldl_insert, h.claimed_iff]
      refine ⟨?_, fun hmem => ⟨st, hg, hmem.resolve_left hm⟩⟩
      rintro ⟨st₁, hg₁, hmem⟩
      rw [hg] at hg₁
      exact .inr (Option.some.inj hg₁ ▸ hmem)
    · exact h.claimed_iff tp u
  ongoing := h.ongoing_insert rfl fun _ _ => rfl

/-- Every call keeps the invariant. -/
theorem step (h : ClaimsInv c) (op : TxnOp) : ClaimsInv (txnMachine.step c op).1 := by
  cases op with
  | initProducerId t =>
    obtain ⟨claimed, counter, pair, heq, hc, -⟩ := c.initProducerId_spec t
    simp only [txnMachine, heq]
    rcases hc with rfl | ⟨hg, rfl⟩
    · exact h.release rfl rfl
    · exact h.release rfl (h.release_none hg).symm
  | produceCheck p e tp => exact h
  | endTxn t p e commit => exact h
  | addPartitions t p e ps =>
    rcases c.addPartitions_cases t p e ps with ⟨code, -, heq⟩ | ⟨st, hg, -, hfree, heq⟩ <;>
      simp only [txnMachine, heq]
    · exact h
    · exact h.enroll hg hfree
  | addOffsets t p e g =>
    rcases c.addOffsets_cases t p e g with heq | ⟨st, hg, -, heq⟩ <;> simp only [txnMachine, heq]
    · exact h
    · exact h.update hg rfl fun _ => rfl
  | stageOffsets t p e os =>
    rcases c.stageOffsets_cases t p e os with heq | ⟨st, hg, -, heq⟩ <;>
      simp only [txnMachine, heq]
    · exact h
    · exact h.update hg rfl id
  | finishTxn t p e =>
    rcases c.finishTxn_cases t p e with ⟨heq, -⟩ | ⟨st, hg, hp, heq⟩ <;>
      simp only [txnMachine, heq]
    · exact h
    · exact h.release rfl rfl

/-- The invariant holds in every reachable state. -/
theorem run (first : ℤ) (ops : List TxnOp) : ClaimsInv (txnMachine.final (.new first) ops) := by
  refine txnMachine.invariant_of_step (fun _ _ => True) (fun _ c => ClaimsInv c)
    (fun _ c op _ h => h.step op) (.new first) ops [] (txnMachine.guarded_true _ _) ?_
  exact ⟨by simp [Enrolled, new], by simp [new]⟩

end ClaimsInv

/-- **One open transaction per partition.**  In every reachable state of the
coordinator the claim table maps a partition to an id exactly when the id has
it enrolled; so no partition is enrolled by two ids; an id with an enrolled
partition is ongoing; and `add_partitions` enrolls all it was asked for or, with
a non-zero code, changes nothing. -/
theorem one_open_txn_per_partition (first : ℤ) (ops : List TxnOp) :
    let c := txnMachine.final (.new first) ops
    (∀ tp t, c.claimed.get tp = some t ↔ Enrolled c t tp) ∧
    (∀ tp t u, Enrolled c t tp → Enrolled c u tp → t = u) ∧
    (∀ t st tp, c.txns.get t = some st → tp ∈ st.partitions → st.ongoing = true) ∧
    (∀ t p e ps, ((c.addPartitions t p e ps).2 = errorNone → ∀ tp ∈ ps, Enrolled (c.addPartitions t p e ps).1 t tp) ∧
      ((c.addPartitions t p e ps).2 ≠ errorNone → (c.addPartitions t p e ps).1 = c)) := by
  intro c
  have h : ClaimsInv c := ClaimsInv.run first ops
  refine ⟨h.claimed_iff, ?_, h.ongoing, ?_⟩
  · intro tp t u ht hu
    have hclaim := (h.claimed_iff tp t).2 ht
    rw [(h.claimed_iff tp u).2 hu] at hclaim
    exact (Option.some.inj hclaim).symm
  · intro t p e ps
    rcases c.addPartitions_cases t p e ps with ⟨code, hne, heq⟩ | ⟨st, hg, -, -, heq⟩ <;> rw [heq]
    · exact ⟨fun h0 => absurd h0 hne, fun _ => rfl⟩
    · refine ⟨fun _ tp hm => ?_, fun h0 => absurd rfl h0⟩
      rw [enrolled_insert rfl, if_pos rfl]
      exact (SortedSet.mem_foldl_insert ps st.partitions).2 (.inl hm)

end Datarail.Kafka
