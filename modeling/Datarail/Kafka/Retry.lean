/-
# Retrying a commit

A commit that fails is answered `56`, and the transaction stays open with the
buffers that were not flushed, so that the producer can send `EndTxn` again.
`dispatch_txn_api` calls the retry harmless: the buffers that were flushed are
gone.  The buffer the flush failed on is not gone, though, and `append_durable`
reconciles its index with whatever frames reached the disk, so the records
written before the failure are in the log and are written again by the retry.

`pending` is what a partition will hold when all of a transaction has landed.  An
attempt that fails leaves it alone exactly when the fault is harmless: it strikes
before the first byte of the batch.
-/

import Datarail.Kafka.Provenance
import Datarail.Kafka.SealedStore

namespace Datarail.Kafka

open Lib List BrokerStore

/-- One `EndTxn(commit)`: the order of the flush, the partition the disk fails
on and the fault, and the offset store. -/
structure CommitAttempt where
  /-- The order of `txn_buffers.keys()`. -/
  order : KeyOrder BufferKey
  /-- The partition a fault is planned for. -/
  tp : TopicPartition
  /-- The fault. -/
  fault : DiskFault
  /-- Where the offset store stops. -/
  offsetStop : ℕ → Option (Stop ErrorKind)

/-- The environment of an attempt to commit the pair `(p, e)`. -/
def CommitAttempt.env (p e : ℤ) (a : CommitAttempt) : Env where
  commit :=
    { order := a.order
      disk := fun key => if key = ⟨p, e, a.tp⟩ then a.fault else .none
      offsetStop := a.offsetStop }
  disk := .none

/-- The `EndTxn` request of an attempt. -/
def CommitAttempt.op {ρ : Type} (t : String) (p e : ℤ) (a : CommitAttempt) : Request ρ × Env :=
  (.endTxn t p e true, a.env p e)

/-- The fault of an attempt strikes, if at all, between two frames. -/
def CommitAttempt.Untorn (a : CommitAttempt) : Prop := ∀ n, ∃ k, a.fault.left n = some k

variable {ρ : Type} {S : RecordStore ρ} {b t : BrokerStore S} {p e : ℤ}

/-- What a partition will hold once all that the pair has buffered is in. -/
def BrokerStore.pending (p e : ℤ) (b : BrokerStore S) (tp : TopicPartition) : List ρ :=
  b.contents tp ++ b.buffered ⟨p, e, tp⟩

/-- The attempt's fault would leave nothing behind of the batch it is planned for. -/
def CommitAttempt.HarmlessIn (p e : ℤ) (b : BrokerStore S) (a : CommitAttempt) : Prop :=
  a.fault.Harmless (b.buffered ⟨p, e, a.tp⟩).length

/-- The buffer of a partition after a flush of the keys in `pre`. -/
theorem buffered_of_flushed {pre : List BufferKey} {u : BrokerStore S} (hb : ∀ k, u.txnBuffers.lookup k =
      if k ∈ pre ∧ k.epoch ≤ e then none else b.txnBuffers.lookup k) (tp : TopicPartition) :
    u.buffered ⟨p, e, tp⟩ = if ⟨p, e, tp⟩ ∈ pre then [] else b.buffered ⟨p, e, tp⟩ := by
  rw [buffered, hb]
  by_cases hm : (⟨p, e, tp⟩ : BufferKey) ∈ pre
  · rw [if_pos ⟨hm, le_rfl⟩, if_pos hm, Option.getD_none]
  · rw [if_neg fun h => hm h.1, if_neg hm]
    rfl

variable {a : CommitAttempt}

/-- **A flush that failed** has added to `pending` the records of the batch it
failed on that were already in the log, and nothing else. -/
theorem pending_of_commitTxn_failed {ps : List TopicPartition} {kind : ErrorKind} (hg : b.Good)
    (h : (commitTxn (a.env p e).commit p e ps).run b = (.stop (.failed kind), t))
    (hleft : a.HarmlessIn p e b ∨ a.Untorn) :
    t.Good ∧ ∃ dup, (a.HarmlessIn p e b ↔ dup = []) ∧ ∀ tp, t.pending p e tp =
      if tp = a.tp then b.contents tp ++ dup ++ b.buffered ⟨p, e, tp⟩ else b.pending p e tp := by
  obtain ⟨pre, tp, post, u, hkeys, hgu, hbu, hcu, hrun, hbt⟩ := commitTxn_stop hg h
  -- the flush keeps `pending` on the partitions it has finished with
  have hpend (q : TopicPartition) : u.pending p e q = b.pending p e q := by
    rw [pending, pending, hcu q, buffered_of_flushed hbu, append_assoc]
    split_ifs <;> simp
  have hbuf := buffered_congr hbt
  -- Only the planned partition has a fault, so that is where the flush failed.
  have hdisk : (a.env p e).commit.disk ⟨p, e, tp⟩ = if tp = a.tp then a.fault else .none := by
    simp [CommitAttempt.env]
  rw [hdisk] at hrun
  by_cases htp : tp = a.tp
  · subst htp
    rw [if_pos rfl] at hrun
    rcases produceInto_stop hgu.sound (hg.valid _) hrun with
      ⟨hs, hc, hopen⟩ | ⟨-, hhit, hk⟩
    · -- failed before the append: the fault is in opening the log
      have hharm : a.HarmlessIn p e b := by
        have hno : ¬ a.fault.SparesOpening := fun hsp => by cases (hopen hsp).2
        rw [CommitAttempt.HarmlessIn]
        cases hf : a.fault with
        | none => trivial
        | strikes point dies =>
          cases point with
          | opening => trivial
          | sealing record => trivial
          | writing record bytes => exact absurd (by rw [hf]; trivial) hno
          | syncing => exact absurd (by rw [hf]; trivial) hno
      refine ⟨hgu.of_buffers hs hbt, [], ⟨fun _ => rfl, fun _ => hharm⟩, fun q => ?_⟩
      rw [append_nil, pending, hc, hbuf, ← pending, hpend]
      split_ifs <;> rfl
    · -- failed in the append
      obtain ⟨k, hkl⟩ : ∃ k, a.fault.left (b.buffered ⟨p, e, a.tp⟩).length = some k :=
        hleft.elim (fun hh => ⟨0, DiskFault.left_of_harmless hhit hh⟩) fun hu => hu _
      obtain ⟨hs, hc⟩ := hk k hkl
      refine ⟨hgu.of_buffers hs hbt, (b.buffered ⟨p, e, a.tp⟩).take k, ?_, fun q => ?_⟩
      · rw [CommitAttempt.HarmlessIn, DiskFault.left_eq_zero_iff hhit hkl, take_eq_nil_iff]
        refine ⟨.inl, fun h => h.elim id fun hnil => ?_⟩
        have := DiskFault.left_le hkl
        rw [hnil] at this
        exact Nat.le_zero.1 this
      · have hnot : (⟨p, e, a.tp⟩ : BufferKey) ∉ pre := by
          have hnd := nodup_keysOf (a.env p e).commit p b
          rw [hkeys] at hnd
          exact fun hm => (nodup_append.1 hnd).2.2 _ hm _ mem_cons_self rfl
        rw [pending, hc, hbuf]
        split_ifs with hq
        · subst hq
          rw [Function.update_self, buffered_of_flushed hbu, if_neg hnot, hcu, if_neg hnot, append_nil]
        · rw [Function.update_of_ne hq, ← pending, hpend]
  · rw [if_neg htp] at hrun
    rcases produceInto_stop hgu.sound (hg.valid _) hrun with ⟨-, -, hopen⟩ | ⟨-, hhit, -⟩
    · cases (hopen trivial).2
    · exact absurd trivial hhit

/-- Every fault planned for the request is harmless to the batch it would hit. -/
def HarmlessFor (p e : ℤ) (b : Broker S) (op : Request ρ × Env) : Prop :=
  ∀ tp, (op.2.commit.disk ⟨p, e, tp⟩).Harmless (b.store.buffered ⟨p, e, tp⟩).length

variable {b : Broker S}

/-- Of an attempt the condition is on its fault and the store. -/
theorem harmlessFor_op_iff {id : String} :
    HarmlessFor p e b (a.op id p e) ↔ a.HarmlessIn p e b.store := by
  have hdisk : ∀ tp, (a.op (ρ := ρ) id p e).2.commit.disk ⟨p, e, tp⟩ =
      if tp = a.tp then a.fault else .none := fun tp => by simp [CommitAttempt.op, CommitAttempt.env]
  constructor
  · intro h
    have := h a.tp
    rwa [hdisk, if_pos rfl] at this
  · intro h tp
    rw [hdisk]
    split_ifs with htp
    · rw [htp]
      exact h
    · trivial

/-- **One attempt that is answered `56`.** -/
theorem failed_attempt {id : String} (hg : b.store.Good) (h : ((brokerMachine S).step b (a.op id p e)).2 = .code 56)
    (hleft : a.HarmlessIn p e b.store ∨ a.Untorn) :
    ((brokerMachine S).step b (a.op id p e)).1.store.Good ∧
    ∃ dup, (a.HarmlessIn p e b.store ↔ dup = []) ∧
      ∀ tp, ((brokerMachine S).step b (a.op id p e)).1.store.pending p e tp =
        if tp = a.tp then b.store.contents tp ++ dup ++ b.store.buffered ⟨p, e, tp⟩
        else b.store.pending p e tp := by
  have hstep : (brokerMachine S).step b (a.op id p e) = b.endTxn (a.env p e) id p e true := rfl
  rw [hstep] at h ⊢
  rcases b.endTxn_cases (a.env p e) id p e true with
    ⟨code, hcode, heq⟩ | ⟨st, -, -, -, ⟨hf, -⟩ | ⟨-, heq⟩⟩
  · rw [heq] at h
    rcases hcode with rfl | rfl <;> exact absurd (Reply.code.inj h) (by decide)
  · cases hf
  · rw [heq] at h ⊢
    rcases b.answer_cases _ _ _ with ⟨_, store, -, hans⟩ | ⟨kind, store, hrun, hans⟩ |
      ⟨store, -, hans⟩ | ⟨store, -, hans⟩ <;> rw [hans] at h ⊢
    · exact absurd (Reply.code.inj h) (by decide)
    · rcases commitTxnWithOffsets_stop_cases hrun with hflush | ⟨u, -, hflush, -, hr, hb⟩
      · exact pending_of_commitTxn_failed hg hflush hleft
      · -- The records are in, and the offset store has failed.
        obtain ⟨hgu, -, hbu, hcu⟩ := commitTxn_ok hg hflush
        have hharm : a.HarmlessIn p e b.store := by
          have := commitTxn_harmless hg hflush a.tp
          rwa [show (a.env p e).commit.disk ⟨p, e, a.tp⟩ = a.fault from if_pos rfl] at this
        refine ⟨hgu.of_buffers (hr ▸ hgu.sound) hb, [], ⟨fun _ => rfl, fun _ => hharm⟩, fun tp => ?_⟩
        · have hnil : store.buffered ⟨p, e, tp⟩ = [] := by
            rw [buffered, hb, hbu, if_pos ⟨rfl, le_rfl⟩, Option.getD_none]
          have hcont : store.contents tp = b.store.pending p e tp := by
            rw [contents, hr]
            exact hcu tp
          change store.contents tp ++ store.buffered ⟨p, e, tp⟩ = _
          rw [hnil, append_nil, hcont, append_nil]
          split_ifs <;> rfl
    · cases h
    · cases h

variable {attempts : List CommitAttempt}

/-- Attempts that all fail, with faults that are all harmless, change nothing
that is pending. -/
theorem pending_of_harmless {id : String} (hg : b.store.Good)
    (hfail : ∀ step ∈ (brokerMachine S).trace b (attempts.map (·.op id p e)), step.2 = .code 56)
    (hh : (brokerMachine S).Guarded (HarmlessFor p e) b (attempts.map (·.op id p e))) :
    ((brokerMachine S).final b (attempts.map (·.op id p e))).store.Good ∧
    ∀ tp, ((brokerMachine S).final b (attempts.map (·.op id p e))).store.pending p e tp =
      b.store.pending p e tp := by
  induction attempts generalizing b with
  | nil => exact ⟨hg, fun _ => rfl⟩
  | cons a attempts ih =>
    simp only [map_cons, Machine.trace_cons, forall_mem_cons] at hfail
    have hha := harmlessFor_op_iff.1 hh.1
    obtain ⟨hg', dup, hiff, hpend⟩ := failed_attempt hg hfail.1 (.inl hha)
    obtain ⟨hgf, hpf⟩ := ih hg' hfail.2 hh.2
    refine ⟨hgf, fun tp => (hpf tp).trans ?_⟩
    rw [hpend tp, hiff.1 hha, append_nil]
    split_ifs <;> rfl

/-- Attempts that all fail, with faults that all strike between two frames, only
ever add to what is pending; if they have added nothing, they were harmless. -/
theorem harmless_of_pending {id : String} (hg : b.store.Good)
    (hfail : ∀ step ∈ (brokerMachine S).trace b (attempts.map (·.op id p e)), step.2 = .code 56)
    (hu : ∀ a ∈ attempts, a.Untorn) :
    ((brokerMachine S).final b (attempts.map (·.op id p e))).store.Good ∧
    (∀ tp, (b.store.pending p e tp).length ≤
      (((brokerMachine S).final b (attempts.map (·.op id p e))).store.pending p e tp).length) ∧
    ((∀ tp, (((brokerMachine S).final b (attempts.map (·.op id p e))).store.pending p e tp).length =
        (b.store.pending p e tp).length) →
      (brokerMachine S).Guarded (HarmlessFor p e) b (attempts.map (·.op id p e))) := by
  induction attempts generalizing b with
  | nil => exact ⟨hg, fun _ => le_rfl, fun _ => trivial⟩
  | cons a attempts ih =>
    simp only [map_cons, Machine.trace_cons, forall_mem_cons] at hfail hu
    obtain ⟨hg', dup, hiff, hpend⟩ := failed_attempt hg hfail.1 (.inr hu.1)
    obtain ⟨hgf, hle, himp⟩ := ih hg' hfail.2 hu.2
    -- the attempt has lengthened one partition by its duplicates
    have hlen : ∀ tp, (((brokerMachine S).step b (a.op id p e)).1.store.pending p e tp).length =
        (b.store.pending p e tp).length + if tp = a.tp then dup.length else 0 := by
      intro tp
      rw [hpend tp]
      split_ifs with htp
      · simp only [pending, length_append]
        omega
      · rfl
    refine ⟨hgf, fun tp => ?_, fun heq => ?_⟩
    · have h₁ := hle tp
      have h₂ := hlen tp
      simp only [map_cons, Machine.final_cons]
      omega
    · simp only [map_cons, Machine.final_cons] at heq
      have hstep : ∀ tp, (((brokerMachine S).step b (a.op id p e)).1.store.pending p e tp).length =
          (b.store.pending p e tp).length := fun tp => by
        have h₁ := hle tp
        have h₂ := hlen tp
        have h₃ := heq tp
        omega
      have hdup : dup = [] := by
        have h₁ := hstep a.tp
        have h₂ := hlen a.tp
        rw [if_pos rfl] at h₂
        exact eq_nil_of_length_eq_zero (by omega)
      exact ⟨harmlessFor_op_iff.2 (hiff.2 hdup), himp fun tp => (heq tp).trans (hstep tp).symm⟩

/-- **A retried commit lands each record once, exactly when its failures are
harmless.**  Take a broker with sound logs, any number of `EndTxn(commit)`
attempts answered `56` and then one answered `0`.  If every failing attempt's
fault strikes before the first byte of the batch it hits, every partition log
has gained what the pair had buffered for it exactly once, in buffer order.  And
where the faults strike between two frames, that is the only case. -/
theorem retried_commit_lands_once_iff (S : RecordStore ρ) (b : Broker S) (hg : b.store.Good)
    (id : String) (p e : ℤ) (attempts : List CommitAttempt) (last : Env)
    (hfail : ∀ step ∈ (brokerMachine S).trace b (attempts.map (·.op id p e)), step.2 = .code 56)
    (hlast : ((brokerMachine S).step ((brokerMachine S).final b (attempts.map (·.op id p e)))
      (.endTxn id p e true, last)).2 = .code 0) :
    let done := ((brokerMachine S).step ((brokerMachine S).final b (attempts.map (·.op id p e)))
      (.endTxn id p e true, last)).1
    let once := ∀ tp, done.store.contents tp = b.store.contents tp ++ b.store.buffered ⟨p, e, tp⟩
    let harmless := (brokerMachine S).Guarded (HarmlessFor p e) b (attempts.map (·.op id p e))
    (harmless → once) ∧ ((∀ a ∈ attempts, a.Untorn) → (once ↔ harmless)) := by
  intro done once harmless
  -- the last attempt has brought every partition to what was pending before it
  have hdone : ((brokerMachine S).final b (attempts.map (·.op id p e))).store.Good → ∀ tp, done.store.contents tp =
        ((brokerMachine S).final b (attempts.map (·.op id p e))).store.pending p e tp := by
    intro hgf tp
    obtain ⟨st, store, -, -, -, hrun, hd⟩ := Broker.endTxn_committed hlast
    rw [show done = _ from hd]
    obtain ⟨u, hflush, hr, -, -⟩ := commitTxnWithOffsets_ok hrun
    rw [contents, hr]
    exact (commitTxn_ok hgf hflush).2.2.2 tp
  have honce : harmless → once := by
    intro hh tp
    obtain ⟨hgf, hpend⟩ := pending_of_harmless hg hfail hh
    rw [hdone hgf tp, hpend tp]
    rfl
  refine ⟨honce, fun hu => ⟨fun ho => ?_, honce⟩⟩
  obtain ⟨hgf, -, himp⟩ := harmless_of_pending hg hfail hu
  refine himp fun tp => ?_
  rw [← hdone hgf tp, ho tp]
  rfl

/-- The partition logs of a broker whose ciphers hide nothing. -/
abbrev plainLogs : RecordStore Bytes := Sealing.transparent.store

/-- A broker on which the id `t` has buffered the records `1` and `2` for the
partition `a-0`. -/
def twoBuffered : Broker plainLogs :=
  (brokerMachine plainLogs).final (.new plainLogs) [(.initProducerId (some "t"), .calm),
      (.addPartitions "t" 1099511627776 0 [⟨"a", 0⟩], .calm),
      (.produce ⟨⟨"a", 0⟩, [[1], [2]], some ⟨1099511627776, 0, 0, 2, true⟩, none⟩, .calm)]

/-- An attempt that meets the given fault on the partition `a-0`. -/
def attemptWith (fault : DiskFault) : CommitAttempt :=
  { order := ⟨id, Perm.refl⟩, tp := ⟨"a", 0⟩, fault := fault, offsetStop := fun _ => none }

theorem good_twoBuffered : twoBuffered.store.Good := by
  have hcalm := Env.clean_calm
  exact (grown_handle (grown_handle (grown_handle good_new hcalm _).good hcalm _).good hcalm _).good

/-- The hypotheses are satisfiable: the disk refuses the first frame, the retry
lands both records once. -/
theorem retried_commit_after_refused_frame :
    let attempts := [attemptWith (.strikes (.writing 0 0) false)]
    ((brokerMachine plainLogs).step ((brokerMachine plainLogs).final twoBuffered
      (attempts.map (·.op "t" 1099511627776 0))) (.endTxn "t" 1099511627776 0 true, .calm)).1.store.contents
        ⟨"a", 0⟩ = [[1], [2]] := by
  intro attempts
  have hfail : ∀ step ∈ (brokerMachine plainLogs).trace twoBuffered (attempts.map (·.op "t" 1099511627776 0)),
      step.2 = .code 56 := by decide +kernel
  have hh : (brokerMachine plainLogs).Guarded (HarmlessFor 1099511627776 0) twoBuffered
      (attempts.map (·.op "t" 1099511627776 0)) := ⟨harmlessFor_op_iff.2 (.inr ⟨rfl, .inr rfl⟩), trivial⟩
  have hbefore : twoBuffered.store.contents ⟨"a", 0⟩ ++
      twoBuffered.store.buffered ⟨1099511627776, 0, ⟨"a", 0⟩⟩ = [[1], [2]] := by decide +kernel
  have honce := (retried_commit_lands_once_iff plainLogs twoBuffered good_twoBuffered "t" 1099511627776 0
    attempts .calm hfail (by decide +kernel)).1 hh
  exact (honce ⟨"a", 0⟩).trans hbefore

/-- The disk refuses the second frame: the first record stays in the log, the
attempt is answered `56`, and the retry, answered `0`, lands it again. -/
theorem retried_commit_lands_record_twice :
    let ops := [(attemptWith (.strikes (.writing 1 0) false)).op "t" 1099511627776 0]
    let b := (brokerMachine plainLogs).final twoBuffered ops
    let r := (brokerMachine plainLogs).step b (.endTxn "t" 1099511627776 0 true, .calm)
    twoBuffered.store.contents ⟨"a", 0⟩ = [] ∧
      twoBuffered.store.buffered ⟨1099511627776, 0, ⟨"a", 0⟩⟩ = [[1], [2]] ∧
      ((brokerMachine plainLogs).trace twoBuffered ops).map Prod.snd = [.code 56] ∧
      r.2 = .code 0 ∧ r.1.store.contents ⟨"a", 0⟩ = [[1], [1], [2]] := by
  decide +kernel

end Datarail.Kafka
