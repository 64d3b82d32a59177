/-
# Epoch fencing

What `init_producer_id` grants over a whole run of the coordinator, and what
becomes of a pair once its id has been granted a newer one.

The invariant `FencingInv` ties the grants made so far to the three parts of the
state a request is fenced by: the id counter is above every granted producer id,
the reverse index sends each granted producer id to the id it was granted to,
and the state of an id holds the last pair granted to it, whose epoch bounds
every epoch granted with the same producer id.
-/

import Datarail.Kafka.Txn

namespace Datarail.Kafka

open Lib List TxnCoordinator

/-- A pair returned by `init_producer_id`, with the id it was asked for. -/
structure Grant where
  /-- The transactional id. -/
  tid : String
  /-- The `(producer_id, epoch)` returned. -/
  pair : ℤ × ℤ

/-- The grant a call made, if it was an `init_producer_id`. -/
def grantOf : TxnOp × TxnReply → Option Grant
  | (.initProducerId t, .granted pair) => some ⟨t, pair⟩
  | _ => none

/-- The grants of a run, in order. -/
def grants (trace : List (TxnOp × TxnReply)) : List Grant := trace.filterMap grantOf

/-- The grants made to one id, in order. -/
def grantsTo (t : String) (gs : List Grant) : List Grant := gs.filter (·.tid = t)

@[simp] theorem grantsTo_append_self (t : String) (gs : List Grant) (pair : ℤ × ℤ) :
    grantsTo t (gs ++ [⟨t, pair⟩]) = grantsTo t gs ++ [⟨t, pair⟩] := by
  simp [grantsTo]

@[simp] theorem grantsTo_append_of_ne {t u : String} (h : t ≠ u) (gs : List Grant) (pair : ℤ × ℤ) :
    grantsTo u (gs ++ [⟨t, pair⟩]) = grantsTo u gs := by
  simp [grantsTo, h]

/-- The call carries the granted pair, for its id where it names one. -/
def TxnOp.Carries (g : Grant) : TxnOp → Prop
  | .initProducerId _ => False
  | .produceCheck p e _ => (p, e) = g.pair
  | .addPartitions t p e _ => t = g.tid ∧ (p, e) = g.pair
  | .addOffsets t p e _ => t = g.tid ∧ (p, e) = g.pair
  | .stageOffsets t p e _ => t = g.tid ∧ (p, e) = g.pair
  | .endTxn t p e _ => t = g.tid ∧ (p, e) = g.pair
  | .finishTxn t p e => t = g.tid ∧ (p, e) = g.pair

/-- The call does not make the 64-bit id counter overflow. -/
def CounterSafe (c : TxnCoordinator) : TxnOp → Prop
  | .initProducerId t =>
    c.mints t = true → i64Min ≤ c.nextProducerId + 1 ∧ c.nextProducerId + 1 ≤ i64Max
  | _ => True

instance (c : TxnCoordinator) : ∀ op, Decidable (CounterSafe c op)
  | .initProducerId t => inferInstanceAs (Decidable (c.mints t = true → _ ∧ _))
  | .produceCheck .. => inferInstanceAs (Decidable True)
  | .addPartitions .. => inferInstanceAs (Decidable True)
  | .addOffsets .. => inferInstanceAs (Decidable True)
  | .stageOffsets .. => inferInstanceAs (Decidable True)
  | .endTxn .. => inferInstanceAs (Decidable True)
  | .finishTxn .. => inferInstanceAs (Decidable True)

/-- Replacing the state of an id by one with the same pair keeps every pair. -/
theorem pair_insert {c : TxnCoordinator} {t : String} {st st' : TxnState}
    (hg : c.txns.get t = some st) (hp : st'.pair = st.pair) (u : String) :
    ((c.txns.insert t st').get u).map TxnState.pair = (c.txns.get u).map TxnState.pair := by
  by_cases hu : u = t
  · subst hu
    simp [hg, hp]
  · simp [hu]

/-- The parts of the state a request is fenced by are the same. -/
structure SameIncarnations (c c' : TxnCoordinator) : Prop where
  pairs : ∀ t, (c'.txns.get t).map TxnState.pair = (c.txns.get t).map TxnState.pair
  index : c'.byProducer = c.byProducer
  counter : c'.nextProducerId = c.nextProducerId

theorem SameIncarnations.refl (c : TxnCoordinator) : SameIncarnations c c :=
  ⟨fun _ => rfl, rfl, rfl⟩

/-- Only `init_producer_id` touches the incarnations; every other call makes no
grant. -/
theorem step_sameIncarnations (c : TxnCoordinator) (op : TxnOp) : (∃ t, op = .initProducerId t) ∨
    (SameIncarnations c (txnMachine.step c op).1 ∧ grantOf (op, (txnMachine.step c op).2) = none) := by
  cases op with
  | initProducerId t => exact .inl ⟨t, rfl⟩
  | produceCheck p e tp => exact .inr ⟨.refl c, rfl⟩
  | endTxn t p e commit => exact .inr ⟨.refl c, rfl⟩
  | addPartitions t p e ps =>
    refine .inr ⟨?_, rfl⟩
    rcases c.addPartitions_cases t p e ps with ⟨code, -, heq⟩ | ⟨st, hg, -, -, heq⟩ <;>
      simp only [txnMachine, heq]
    · exact .refl c
    · exact ⟨pair_insert hg rfl, rfl, rfl⟩
  | addOffsets t p e g =>
    refine .inr ⟨?_, rfl⟩
    rcases c.addOffsets_cases t p e g with heq | ⟨st, hg, -, heq⟩ <;> simp only [txnMachine, heq]
    · exact .refl c
    · exact ⟨pair_insert hg rfl, rfl, rfl⟩
  | stageOffsets t p e os =>
    refine .inr ⟨?_, rfl⟩
    rcases c.stageOffsets_cases t p e os with heq | ⟨st, hg, -, heq⟩ <;>
      simp only [txnMachine, heq]
    · exact .refl c
    · exact ⟨pair_insert hg rfl, rfl, rfl⟩
  | finishTxn t p e =>
    refine .inr ⟨?_, rfl⟩
    rcases c.finishTxn_cases t p e with ⟨heq, -⟩ | ⟨st, hg, hp, heq⟩ <;>
      simp only [txnMachine, heq]
    · exact .refl c
    · exact ⟨pair_insert hg hp.symm, rfl, rfl⟩

theorem sameIncarnations_step (c : TxnCoordinator) (op : TxnOp) (hop : ∀ t, op ≠ .initProducerId t) :
    SameIncarnations c (txnMachine.step c op).1 :=
  ((step_sameIncarnations c op).resolve_left fun ⟨t, ht⟩ => hop t ht).1

/-- **The fencing invariant** of a coordinator that has granted `gs`. -/
structure FencingInv (gs : List Grant) (c : TxnCoordinator) : Prop where
  below : ∀ g ∈ gs, g.pair.1 < c.nextProducerId
  indexed : ∀ g ∈ gs, c.byProducer.get g.pair.1 = some g.tid
  epochs : ∀ g ∈ gs, ∀ st, c.txns.get g.tid = some st → st.producerId = g.pair.1 → g.pair.2 ≤ st.epoch
  latest : ∀ t, (c.txns.get t).map TxnState.pair = (grantsTo t gs).getLast?.map Grant.pair
  nodup : (gs.map Grant.pair).Nodup

namespace FencingInv

variable {gs : List Grant} {c c' : TxnCoordinator} {t : String}

/-- The current pair of an id is one of the grants to it. -/
theorem exists_grant (h : FencingInv gs c) {st : TxnState} (hg : c.txns.get t = some st) :
    ∃ g ∈ gs, g.tid = t ∧ g.pair = st.pair := by
  have hl := h.latest t
  rw [hg, Option.map_some, eq_comm, Option.map_eq_some_iff] at hl
  obtain ⟨g, hlast, hp⟩ := hl
  have hmem := mem_of_getLast? hlast
  rw [grantsTo, mem_filter] at hmem
  exact ⟨g, hmem.1, of_decide_eq_true hmem.2, hp⟩

/-- The invariant reads only the incarnations, the index and the counter. -/
theorem of_same (h : FencingInv gs c) (hs : SameIncarnations c c') : FencingInv gs c' where
  below := by rw [hs.counter]; exact h.below
  indexed := by rw [hs.index]; exact h.indexed
  epochs := by
    intro g hg st' hst' hpid
    have he := hs.pairs g.tid
    rw [hst', Option.map_some, eq_comm, Option.map_eq_some_iff] at he
    obtain ⟨st, hst, hpair⟩ := he
    have h₁ : st.producerId = st'.producerId := congrArg Prod.fst hpair
    have h₂ : st.epoch = st'.epoch := congrArg Prod.snd hpair
    rw [← h₂]
    exact h.epochs g hg st hst (h₁.trans hpid)
  latest := fun t => (hs.pairs t).trans (h.latest t)
  nodup := h.nodup

/-- **Granting a pair.**  A new grant keeps the invariant when its producer id
is below the counter and is the current one of its id, or new; and when no
earlier grant of that producer id has an epoch as large. -/
theorem grant (h : FencingInv gs c) {pair : ℤ × ℤ} (ht : c'.txns = c.txns.insert t (.idle pair))
    (hb : c'.byProducer = c.byProducer.insert pair.1 t)
    (hn : c.nextProducerId ≤ c'.nextProducerId) (hlt : pair.1 < c'.nextProducerId)
    (hsame : ∀ g ∈ gs, g.pair.1 = pair.1 → g.tid = t ∧ g.pair.2 < pair.2) :
    FencingInv (gs ++ [⟨t, pair⟩]) c' where
  below := forall_mem_append.2 ⟨fun g hg => lt_of_lt_of_le (h.below g hg) hn, forall_mem_singleton.2 hlt⟩
  indexed := by
    intro g hg
    rw [hb]
    rcases mem_append.1 hg with hg | hg
    · by_cases hp : g.pair.1 = pair.1
      · rw [hp, Table.get_insert_self, (hsame g hg hp).1]
      · rw [Table.get_insert_of_ne hp, h.indexed g hg]
    · rw [mem_singleton.1 hg, Table.get_insert_self]
  epochs := by
    intro g hg st hst hpid
    rw [ht] at hst
    rcases mem_append.1 hg with hg | hg
    · by_cases htid : g.tid = t
      · rw [htid, Table.get_insert_self] at hst
        obtain rfl := Option.some.inj hst
        exact (hsame g hg hpid.symm).2.le
      · rw [Table.get_insert_of_ne htid] at hst
        exact h.epochs g hg st hst hpid
    · rw [mem_singleton.1 hg] at hst ⊢
      rw [Table.get_insert_self] at hst
      obtain rfl := Option.some.inj hst
      exact le_rfl
  latest := by
    intro u
    rw [ht]
    by_cases hu : u = t
    · subst hu
      simp
    · rw [Table.get_insert_of_ne hu, grantsTo_append_of_ne (Ne.symm hu)]
      exact h.latest u
  nodup := by
    rw [map_append, nodup_append]
    refine ⟨h.nodup, by simp, ?_⟩
    rintro _ hp _ hq rfl
    obtain ⟨g, hg, hgp⟩ := mem_map.1 hp
    rw [map_singleton, mem_singleton] at hq
    have := (hsame g hg (by rw [hgp, hq])).2
    rw [hgp, hq] at this
    exact lt_irrefl _ this

/-- `init_producer_id` keeps the invariant and adds its grant. -/
theorem initProducerId (h : FencingInv gs c) (t : String) (hsafe : CounterSafe c (.initProducerId t)) :
    FencingInv (gs ++ [⟨t, (c.initProducerId t).2⟩]) (c.initProducerId t).1 := by
  obtain ⟨claimed, counter, pair, heq, -, hpair⟩ := c.initProducerId_spec t
  rw [heq]
  rcases hpair with ⟨st, hg, rfl, rfl⟩ | ⟨hm, rfl, rfl⟩
  · -- The next epoch: the producer id is the current one of `t`.
    obtain ⟨g₀, hg₀, ht₀, hp₀⟩ := h.exists_grant hg
    have hpid : g₀.pair.1 = st.producerId := congrArg Prod.fst hp₀
    refine h.grant rfl rfl le_rfl (hpid ▸ h.below g₀ hg₀) ?_
    intro g hgs hp
    have htid : some g.tid = some t := by
      rw [← h.indexed g hgs, hp, ← hpid, h.indexed g₀ hg₀, ht₀]
    obtain rfl := Option.some.inj htid
    exact ⟨rfl, Int.lt_add_one_of_le (h.epochs g hgs st hg hp.symm)⟩
  · -- A fresh producer id: the counter is above every granted one.
    obtain ⟨hl, hu⟩ := hsafe hm
    have hc : c.bumpedCounter = c.nextProducerId + 1 := wrapI64_of_mem hl hu
    have hlt : c.nextProducerId < c.bumpedCounter := by omega
    refine h.grant rfl rfl hlt.le hlt ?_
    intro g hgs hp
    exact absurd hp (h.below g hgs).ne

/-- Every call keeps the invariant, with the grants it has made. -/
theorem step (h : FencingInv gs c) (op : TxnOp) (hsafe : CounterSafe c op) :
    FencingInv (gs ++ grants [(op, (txnMachine.step c op).2)]) (txnMachine.step c op).1 := by
  rcases step_sameIncarnations c op with ⟨t, rfl⟩ | ⟨hs, hnone⟩
  · exact h.initProducerId t hsafe
  · rw [grants, filterMap_cons_none hnone, filterMap_nil, append_nil]
    exact h.of_same hs

/-- A new coordinator has granted nothing. -/
theorem new (first : ℤ) : FencingInv [] (.new first) :=
  ⟨by simp, by simp, by simp, by simp [grantsTo, TxnCoordinator.new], by simp⟩

/-- The invariant holds at the end of every run that keeps the counter in range. -/
theorem run (first : ℤ) (ops : List TxnOp) (hsafe : txnMachine.Guarded CounterSafe (.new first) ops) :
    FencingInv (grants (txnMachine.trace (.new first) ops)) (txnMachine.final (.new first) ops) := by
  refine txnMachine.invariant_of_step CounterSafe (fun h c => FencingInv (grants h) c) ?_ (.new first) ops [] hsafe ?_
  · intro h c op hok hinv
    simpa only [grants, filterMap_append] using hinv.step op hok
  · exact new first

/-- A grant that is followed by a newer one to its id is not the current pair. -/
theorem superseded (h : FencingInv gs c) {a b : List Grant} {g g' : Grant}
    (hgs : gs = a ++ g :: b) (hmem : g' ∈ b) (htid : g'.tid = g.tid) {st : TxnState}
    (hg : c.txns.get g.tid = some st) : st.pair ≠ g.pair := by
  intro hp
  have hsplit : grantsTo g.tid gs = grantsTo g.tid a ++ g :: grantsTo g.tid b := by
    simp [hgs, grantsTo]
  have hb : g' ∈ grantsTo g.tid b := mem_filter.2 ⟨hmem, by simp [htid]⟩
  obtain ⟨g₁, hlast⟩ : ∃ g₁, (grantsTo g.tid b).getLast? = some g₁ :=
    ⟨_, getLast?_eq_some_getLast (ne_nil_of_mem hb)⟩
  have hcur : st.pair = g₁.pair := by
    have hl := h.latest g.tid
    rw [hg, hsplit, getLast?_append, getLast?_cons, hlast] at hl
    simpa using hl
  have hmem₁ : g₁ ∈ b := (mem_filter.1 (mem_of_getLast? hlast)).1
  have hnd := h.nodup
  rw [hgs, map_append, nodup_append, map_cons, nodup_cons] at hnd
  exact hnd.2.1.1 (mem_map.2 ⟨g₁, hmem₁, by rw [← hcur, hp]⟩)

/-- `produce_check` turns a superseded pair away: the index still leads to the
id the pair was granted to, whose current pair is another. -/
theorem produceCheck_superseded (h : FencingInv gs c) {g : Grant} (hmem : g ∈ gs)
    (hne : ∀ st, c.txns.get g.tid = some st → st.pair ≠ g.pair) (tp : TopicPartition) :
    c.produceCheck g.pair.1 g.pair.2 tp = invalidProducerEpoch := by
  simp only [produceCheck, h.indexed g hmem]
  cases hg : c.txns.get g.tid with
  | none => rfl
  | some st =>
    have hp : st.producerId ≠ g.pair.1 ∨ st.epoch ≠ g.pair.2 := by
      by_contra hcon
      rw [not_or, not_not, not_not] at hcon
      exact hne st hg (Prod.ext hcon.1 hcon.2)
    exact if_pos hp

/-- A call that carries a superseded pair changes nothing and, unless it is the
`finish_txn` that has no answer, is rejected with a non-zero code. -/
theorem rejected (h : FencingInv gs c) {g : Grant} (hmem : g ∈ gs)
    (hne : ∀ st, c.txns.get g.tid = some st → st.pair ≠ g.pair) {op : TxnOp} (hop : op.Carries g) :
    (txnMachine.step c op).1 = c ∧
    ((∃ t p e, op = .finishTxn t p e) ∨
      ∃ code, (txnMachine.step c op).2.errorCode? = some code ∧ code ≠ errorNone) := by
  have hcode : invalidProducerEpoch ≠ errorNone := by decide
  cases op with
  | initProducerId t => exact hop.elim
  | produceCheck p e tp =>
    have hp := h.produceCheck_superseded hmem hne tp
    rw [show g.pair = (p, e) from Eq.symm hop] at hp
    exact ⟨rfl, .inr ⟨_, rfl, by rw [hp]; exact hcode⟩⟩
  | addPartitions t p e ps =>
    obtain ⟨rfl, hp⟩ := hop
    have hf := fencedState_of_ne (hp ▸ hne)
    simp only [txnMachine, addPartitions, hf]
    exact ⟨trivial, .inr ⟨_, rfl, hcode⟩⟩
  | addOffsets t p e gr =>
    obtain ⟨rfl, hp⟩ := hop
    have hf := fencedState_of_ne (hp ▸ hne)
    simp only [txnMachine, addOffsets, hf]
    exact ⟨trivial, .inr ⟨_, rfl, hcode⟩⟩
  | stageOffsets t p e os =>
    obtain ⟨rfl, hp⟩ := hop
    have hf := fencedState_of_ne (hp ▸ hne)
    simp only [txnMachine, stageOffsets, hf]
    exact ⟨trivial, .inr ⟨_, rfl, hcode⟩⟩
  | endTxn t p e commit =>
    obtain ⟨rfl, hp⟩ := hop
    have hf := fencedState_of_ne (hp ▸ hne)
    refine ⟨rfl, .inr ⟨_, rfl, ?_⟩⟩
    simp only [endTxn, hf]
    exact hcode
  | finishTxn t p e =>
    obtain ⟨rfl, hp⟩ := hop
    refine ⟨?_, .inl ⟨_, _, _, rfl⟩⟩
    rcases c.finishTxn_cases g.tid p e with ⟨heq, -⟩ | ⟨st, hg, hst, -⟩
    · exact heq
    · exact absurd (hst.trans hp) (hne st hg)

end FencingInv

/-- **Epoch fencing is permanent.**  In every run that keeps the id counter in
range, the granted pairs are pairwise distinct, over all ids and across the
epoch that passes `i16::MAX`; and from the moment an id has been granted a newer
pair on, every call that carries an earlier pair of it is rejected with a
non-zero code and leaves the whole coordinator as it was. -/
theorem epoch_fencing_permanent (first : ℤ) (ops : List TxnOp)
    (hsafe : txnMachine.Guarded CounterSafe (.new first) ops) :
    ((grants (txnMachine.trace (.new first) ops)).map Grant.pair).Nodup ∧
    ∀ pre op post, ops = pre ++ op :: post →
      ∀ older g between newer, grants (txnMachine.trace (.new first) pre) = older ++ g :: between →
        newer ∈ between → newer.tid = g.tid → op.Carries g →
        (txnMachine.step (txnMachine.final (.new first) pre) op).1 = txnMachine.final (.new first) pre ∧
          ((∃ t p e, op = .finishTxn t p e) ∨
            ∃ code, (txnMachine.step (txnMachine.final (.new first) pre) op).2.errorCode? =
              some code ∧ code ≠ errorNone) := by
  refine ⟨(FencingInv.run first ops hsafe).nodup, ?_⟩
  rintro pre op post rfl older g between newer hgs hnew htid hop
  have hinv := FencingInv.run first pre ((txnMachine.guarded_append _ _ _).1 hsafe).1
  refine hinv.rejected ?_ (fun st hg => hinv.superseded hgs hnew htid hg) hop
  rw [hgs]
  exact mem_append_right _ mem_cons_self

/-- Two incarnations of one id, then an enrolment by the first. -/
theorem epoch_fencing_permanent_zombie : txnMachine.Guarded CounterSafe (.new 7)
      [.initProducerId "t", .initProducerId "t", .addPartitions "t" 7 0 [⟨"a", 0⟩]] ∧
    (txnMachine.step (txnMachine.final (.new 7) [.initProducerId "t", .initProducerId "t"])
        (.addPartitions "t" 7 0 [⟨"a", 0⟩])).1 =
      txnMachine.final (.new 7) [.initProducerId "t", .initProducerId "t"] :=
  ⟨by decide, ((epoch_fencing_permanent 7 [.initProducerId "t", .initProducerId "t", .addPartitions "t" 7 0 [⟨"a", 0⟩]]
      (by decide)).2 [.initProducerId "t", .initProducerId "t"] _ [] rfl [] ⟨"t", (7, 0)⟩
      [⟨"t", (7, 1)⟩] ⟨"t", (7, 1)⟩ (by rfl) (mem_singleton.2 rfl) rfl ⟨rfl, rfl⟩).1⟩

/-- The current pair of an id, and whether a transaction of it is open. -/
def TxnCoordinator.standing (c : TxnCoordinator) (t : String) : Option ((ℤ × ℤ) × Bool) :=
  (c.txns.get t).map fun st => (st.pair, st.ongoing)

namespace TxnCoordinator

variable {c c' : TxnCoordinator} {t : String} {st : TxnState}

theorem standing_of_get (h : c.txns.get t = some st) : c.standing t = some (st.pair, st.ongoing) := by
  rw [standing, h, Option.map_some]

theorem standing_of_insert (h : c'.txns = c.txns.insert t st) (u : String) :
    c'.standing u = if u = t then some (st.pair, st.ongoing) else c.standing u := by
  rw [standing, h, Table.get_insert]
  split_ifs <;> rfl

/-- An enrolment opens a transaction and moves no pair. -/
theorem standing_of_enrolled (st' : TxnState) (hg : c.txns.get t = some st)
    (hc : c'.txns = c.txns.insert t st') (hp : st'.pair = st.pair) (ho : st'.ongoing = true)
    {u : String} {q : ℤ × ℤ} {o' : Bool} (hu : c'.standing u = some (q, o')) :
    ∃ o, c.standing u = some (q, o) ∧ (o' = false → o = false) := by
  rw [standing_of_insert hc] at hu
  split_ifs at hu with hut
  · rw [hp, ho] at hu
    cases hu
    exact ⟨st.ongoing, hut ▸ standing_of_get hg, nofun⟩
  · exact ⟨o', hu, id⟩

theorem standing_stageOffsets (c : TxnCoordinator) (t : String) (p e : ℤ)
    (os : List (TopicPartition × ℤ)) (u : String) :
    (c.stageOffsets t p e os).1.standing u = c.standing u := by
  rcases c.stageOffsets_cases t p e os with heq | ⟨st, hg, -, heq⟩
  · rw [heq]
  · have htxns : (c.stageOffsets t p e os).1.txns =
        c.txns.insert t { st with stagedOffsets := st.stagedOffsets ++ os } := by rw [heq]
    rw [standing_of_insert htxns]
    split_ifs with hu
    · rw [hu, standing_of_get hg]
      rfl
    · rfl

/-- A call that neither grants nor finishes at most opens a transaction. -/
theorem standing_step {op : TxnOp} (hinit : ∀ t, op ≠ .initProducerId t)
    (hfinish : ∀ t p e, op ≠ .finishTxn t p e) {u : String} {q : ℤ × ℤ} {o' : Bool}
    (hu : (txnMachine.step c op).1.standing u = some (q, o')) :
    ∃ o, c.standing u = some (q, o) ∧ (o' = false → o = false) := by
  cases op with
  | initProducerId t => exact absurd rfl (hinit t)
  | finishTxn t p e => exact absurd rfl (hfinish t p e)
  | produceCheck p e tp => exact ⟨o', hu, id⟩
  | endTxn t p e commit => exact ⟨o', hu, id⟩
  | stageOffsets t p e os => exact ⟨o', (c.standing_stageOffsets t p e os u).symm.trans hu, id⟩
  | addPartitions t p e ps =>
    rcases c.addPartitions_cases t p e ps with ⟨code, -, heq⟩ | ⟨st, hg, -, -, heq⟩ <;>
      simp only [txnMachine, heq] at hu
    · exact ⟨o', hu, id⟩
    · exact standing_of_enrolled { st with ongoing := true, partitions := _ } hg rfl rfl rfl hu
  | addOffsets t p e g =>
    rcases c.addOffsets_cases t p e g with heq | ⟨st, hg, -, heq⟩ <;> simp only [txnMachine, heq] at hu
    · exact ⟨o', hu, id⟩
    · exact standing_of_enrolled { st with ongoing := true, group := _ } hg rfl rfl rfl hu

end TxnCoordinator

variable {c : TxnCoordinator}

/-- No two ids stand under one producer id. -/
theorem FencingInv.producer_inj {gs : List Grant} (h : FencingInv gs c)
    {t u : String} {q q' : ℤ × ℤ} {o o' : Bool} (ht : c.standing t = some (q, o))
    (hu : c.standing u = some (q', o')) (hq : q.1 = q'.1) : t = u := by
  obtain ⟨st, hst, hp⟩ := Option.map_eq_some_iff.1 ht
  obtain ⟨st', hst', hp'⟩ := Option.map_eq_some_iff.1 hu
  obtain ⟨g, hg, rfl, hgp⟩ := h.exists_grant hst
  obtain ⟨g', hg', rfl, hgp'⟩ := h.exists_grant hst'
  have hpid : g.pair.1 = g'.pair.1 := by
    rw [hgp, hgp', (Prod.mk.inj hp).1, (Prod.mk.inj hp').1, hq]
  have hi := h.indexed g hg
  rw [hpid, h.indexed g' hg'] at hi
  exact (Option.some.inj hi).symm

/-- The epoch of a granted pair is at most the current one of its producer. -/
theorem FencingInv.epoch_le {gs : List Grant} (h : FencingInv gs c) {g : Grant}
    (hg : g ∈ gs) {t : String} {q : ℤ × ℤ} {o : Bool} (ht : c.standing t = some (q, o))
    (hq : q.1 = g.pair.1) : g.pair.2 ≤ q.2 := by
  obtain ⟨st, hst, hp⟩ := Option.map_eq_some_iff.1 ht
  obtain rfl : st.pair = q := (Prod.mk.inj hp).1
  obtain ⟨g', hg', rfl, hgp'⟩ := h.exists_grant hst
  have hi := h.indexed g' hg'
  rw [hgp', hq, h.indexed g hg] at hi
  exact h.epochs g hg st (Option.some.inj hi ▸ hst) hq

end Datarail.Kafka
