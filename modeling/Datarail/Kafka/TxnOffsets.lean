/-
# Consumer offsets in a transaction

What `EndTxn(commit)` writes to the consumer-offset store, against what the
`TxnOffsetCommit` requests of the transaction asked for.

`OffsetView` is the transaction of one id as its client can follow it: from the
requests and the codes they were answered with.  The coordinator keeps the same
knowledge in three fields that three different requests set: the open flag, one
slot for the group, and the staged list.  The list also takes what is staged
while no transaction is open, and drops the group of each request; so what a
commit writes is what was asked for exactly in the cases `Orderly` lists.
-/

import Datarail.Kafka.Serve
import Datarail.Lib.Text

namespace Datarail.Kafka

open Lib List BrokerStore Broker

/-- An entry of a `TxnOffsetCommit` request, with the request's group. -/
structure OffsetEntry where
  /-- The consumer group the request names. -/
  group : String
  /-- The partition. -/
  tp : TopicPartition
  /-- The offset to commit. -/
  offset : ℤ
  deriving DecidableEq, Repr

/-- The open transaction of one id, as its client sees it. -/
structure OffsetView where
  /-- Whether a transaction is open. -/
  isOpen : Bool
  /-- The group of the last `AddOffsetsToTxn` of the transaction. -/
  slot : Option String
  /-- What was staged since the last transaction ended and before this one opened. -/
  early : List (TopicPartition × ℤ)
  /-- The entries accepted since the transaction opened. -/
  entries : List OffsetEntry

namespace OffsetView

/-- No transaction, and nothing staged. -/
def closed : OffsetView := { isOpen := false, slot := none, early := [], entries := [] }

/-- Follow one request for the id `t` and its answer. -/
def observe {ρ : Type} (t : String) (v : OffsetView) : Request ρ → Reply ρ → OffsetView
  | _, .died => closed
  | .initProducerId (some u), _ => if u = t then closed else v
  | .addPartitions u _ _ _, .code c => if u = t ∧ c = 0 then { v with isOpen := true } else v
  | .addOffsets u _ _ g, .code c =>
    if u = t ∧ c = 0 then { v with isOpen := true, slot := some g } else v
  | .txnOffsetCommit u g _ _ os, .code c =>
    if u = t ∧ c = 0 then
      if v.isOpen then { v with entries := v.entries ++ os.map fun o => ⟨g, o.1, o.2⟩ }
      else { v with early := v.early ++ os }
    else v
  | .endTxn u _ _ _, .code c => if u = t ∧ c = 0 then closed else v
  | _, _ => v

/-- The view of the id `t` after a run. -/
def ofTrace {ρ : Type} (t : String) (trace : List ((Request ρ × Env) × Reply ρ)) : OffsetView :=
  trace.foldl (fun v step => v.observe t step.1.1 step.2) closed

/-- **When a commit writes what was asked for.**  Nothing was asked for and no
group was named; or a group was named, nothing was staged before the transaction
opened, and every entry names that group and an offset that is not negative. -/
def Orderly (v : OffsetView) : Prop :=
  (v.slot = none ∧ v.entries = []) ∨
  ∃ g, v.slot = some g ∧ v.early = [] ∧ ∀ en ∈ v.entries, en.group = g ∧ 0 ≤ en.offset

/-- The coordinator's state of an id holds what the view says. -/
structure Reflects (v : OffsetView) (st : TxnState) : Prop where
  ongoing : st.ongoing = v.isOpen
  group : st.group = v.slot
  staged : st.stagedOffsets = v.early ++ v.entries.map fun en => (en.tp, en.offset)
  entries : v.isOpen = false → v.entries = []

end OffsetView

/-- The keys tell groups and partitions apart. -/
theorem offsetKey_inj {g g' : String} {tp tp' : TopicPartition} :
    offsetKey g tp = offsetKey g' tp' ↔ g = g' ∧ tp = tp' := by
  refine ⟨fun h => ?_, fun h => by rw [h.1, h.2]⟩
  simp only [offsetKey, String.append_assoc] at h
  obtain ⟨hgroup, h⟩ := counted_inj h
  obtain ⟨htopic, h⟩ := counted_inj h
  exact ⟨hgroup, TopicPartition.mk.injEq .. ▸ ⟨htopic, intRepr_inj h⟩⟩

/-- The coordinator's state of an id, idle if it has none. -/
def stateOf (c : TxnCoordinator) (t : String) : TxnState := (c.txns.get t).getD (.idle (0, 0))

variable {st : TxnState}

theorem stateOf_of_get {c : TxnCoordinator} {t : String} (h : c.txns.get t = some st) : stateOf c t = st := by
  rw [stateOf, h, Option.getD_some]

namespace OffsetView

variable {ρ : Type} {S : RecordStore ρ} {v : OffsetView} {t : String}

theorem reflects_closed (pair : ℤ × ℤ) : Reflects closed (.idle pair) :=
  ⟨rfl, rfl, rfl, fun _ => rfl⟩

theorem reflects_new (first : ℤ) : Reflects closed (stateOf (.new first) t) :=
  reflects_closed (0, 0)

/-- The view's step and the coordinator's, for a request on the id `u` that
replaced its state: only the view of `u` may move. -/
theorem reflects_insert {c c' : TxnCoordinator} {u : String} {v' : OffsetView}
    (h : Reflects v (stateOf c t)) (hc : c'.txns = c.txns.insert u st)
    (hself : t = u → Reflects v' st) (hother : t ≠ u → v' = v) : Reflects v' (stateOf c' t) := by
  rw [stateOf, hc, Table.get_insert]
  split_ifs with htu
  · exact hself htu
  · rw [hother htu]
    exact h

/-- `finish_txn` of the current incarnation closes the view of its id. -/
theorem reflects_finishTxn {c : TxnCoordinator} {u : String} {p e : ℤ}
    (h : Reflects v (stateOf c t)) (hg : c.txns.get u = some st) (hp : st.pair = (p, e)) :
    Reflects (if u = t then closed else v) (stateOf (c.finishTxn u p e) t) := by
  rcases c.finishTxn_cases u p e with ⟨-, hne⟩ | ⟨_, -, -, heq⟩
  · exact absurd hp (hne st hg)
  · rw [heq]
    exact reflects_insert h rfl (fun htu => by rw [if_pos htu.symm]; exact reflects_closed _)
      (fun htu => if_neg (Ne.symm htu))

/-- A store call that answers with a code or not at all, and leaves the
coordinator alone, is not seen by the view unless the process died. -/
theorem reflects_answer {α : Type} {b : Broker S} {req : Request ρ}
    {x : Action ErrorKind (BrokerStore S) α} {onOk : Broker S → α → Broker S × Reply ρ}
    {onErr : ErrorKind → Reply ρ} (h : Reflects v (stateOf b.txn t))
    (hok : ∀ store a, Reflects (v.observe t req (onOk { b with store := store } a).2)
      (stateOf (onOk { b with store := store } a).1.txn t))
    (herr : ∀ kind, v.observe t req (onErr kind) = v) (hdrop : v.observe t req .dropped = v) :
    Reflects (v.observe t req (b.answer x onOk onErr).2) (stateOf (b.answer x onOk onErr).1.txn t) := by
  rcases b.answer_cases x onOk onErr with ⟨a, store, -, heq⟩ | ⟨kind, store, -, heq⟩ |
    ⟨store, -, heq⟩ | ⟨store, -, heq⟩ <;> rw [heq]
  · exact hok store a
  · rw [herr]
    exact h
  · rw [hdrop]
    exact h
  · have hdied : v.observe t req .died = closed := by cases req <;> rfl
    exact reflects_new _

/-- **One request keeps view and coordinator together.** -/
theorem reflects_handle {b : Broker S} (h : Reflects v (stateOf b.txn t)) (env : Env) (req : Request ρ) :
    Reflects (v.observe t req (b.handle env req).2) (stateOf (b.handle env req).1.txn t) := by
  cases req with
  | restart => exact reflects_new _
  | initProducerId id =>
    cases id with
    | none => exact h
    | some u =>
      obtain ⟨claimed, counter, pair, heq, -, -⟩ := b.txn.initProducerId_spec u
      simp only [handle, initProducerId, heq, observe]
      exact reflects_insert h rfl (fun htu => by rw [if_pos htu.symm]; exact reflects_closed _)
        (fun htu => if_neg (Ne.symm htu))
  | addPartitions u p e ps =>
    rcases b.txn.addPartitions_cases u p e ps with ⟨code, hne, heq⟩ | ⟨st, hg, -, -, heq⟩ <;>
      simp only [handle, heq, observe]
    · rw [if_neg fun hc => hne hc.2]
      exact h
    · refine reflects_insert h rfl (fun htu => ?_) (fun htu => if_neg fun hc => htu hc.1.symm)
      subst htu
      rw [stateOf_of_get hg] at h
      rw [if_pos ⟨rfl, rfl⟩]
      exact ⟨rfl, h.group, h.staged, fun hf => Bool.noConfusion hf⟩
  | addOffsets u p e g =>
    rcases b.txn.addOffsets_cases u p e g with heq | ⟨st, hg, -, heq⟩ <;>
      simp only [handle, heq, observe]
    · rw [if_neg fun hc => absurd hc.2 (by decide)]
      exact h
    · refine reflects_insert h rfl (fun htu => ?_) (fun htu => if_neg fun hc => htu hc.1.symm)
      subst htu
      rw [stateOf_of_get hg] at h
      rw [if_pos ⟨rfl, rfl⟩]
      exact ⟨rfl, rfl, h.staged, fun hf => Bool.noConfusion hf⟩
  | txnOffsetCommit u g p e os =>
    rcases b.txn.stageOffsets_cases u p e os with heq | ⟨st, hg, -, heq⟩ <;>
      simp only [handle, heq, observe]
    · rw [if_neg fun hc => absurd hc.2 (by decide)]
      exact h
    · refine reflects_insert h rfl (fun htu => ?_) (fun htu => if_neg fun hc => htu hc.1.symm)
      subst htu
      rw [stateOf_of_get hg] at h
      rw [if_pos ⟨rfl, rfl⟩]
      -- Inside a transaction the offsets join its entries, outside they are early.
      by_cases ho : v.isOpen = true
      · rw [if_pos ho]
        refine ⟨h.ongoing, h.group, ?_, fun hf => absurd ho (by simpa using hf)⟩
        simp [h.staged, Function.comp_def]
      · rw [if_neg ho]
        have hnil := h.entries (by simpa using ho)
        refine ⟨h.ongoing, h.group, ?_, fun _ => hnil⟩
        simp [h.staged, hnil]
  | endTxn u p e commit =>
    rcases b.endTxn_cases env u p e commit with
      ⟨code, hne, heq⟩ | ⟨st, hg, hp, ho, ⟨-, heq⟩ | ⟨-, heq⟩⟩ <;>
      simp only [handle, heq]
    · simp only [observe]
      rw [if_neg]
      · exact h
      · rcases hne with rfl | rfl <;> exact fun hc => absurd hc.2 (by decide)
    · simp only [observe, and_true]
      exact reflects_finishTxn h hg hp
    · refine reflects_answer h (fun store a => ?_) (fun kind => ?_) rfl
      · simp only [observe, and_true]
        exact reflects_finishTxn h hg hp
      · simp [observe]
  | produce q =>
    rcases b.produceEntry_cases env q with ⟨-, heq⟩ | ⟨code, -, heq⟩ | ⟨eos, -, -, -, -, heq⟩ |
      ⟨-, -, heq⟩ <;> simp only [handle, heq]
    · exact h
    · exact h
    · exact reflects_answer h (fun store a => h) (fun kind => rfl) rfl
    · exact reflects_answer h (fun store a => h) (fun kind => rfl) rfl
  | fetch tp o m => exact reflects_answer h (fun store a => h) (fun kind => rfl) rfl

/-- View and coordinator agree after every run. -/
theorem reflects_run (t : String) (ops : List (Request ρ × Env)) :
    Reflects (ofTrace t ((brokerMachine S).trace (.new S) ops))
      (stateOf ((brokerMachine S).final (.new S) ops).txn t) := by
  refine (brokerMachine S).invariant_of_step (fun _ _ => True) (fun h b => Reflects (ofTrace t h) (stateOf b.txn t))
    ?_ (.new S) ops [] ((brokerMachine S).guarded_true _ _) (reflects_new _)
  intro h b op _ hinv
  simp only [ofTrace, foldl_append, foldl_cons, foldl_nil]
  exact reflects_handle hinv op.2 op.1

/-- The entries of the view as writes to the offset store. -/
def requested (v : OffsetView) : List (String × ℤ) :=
  v.entries.map fun en => (offsetKey en.group en.tp, en.offset)

/-- **What a commit writes is what was asked for, exactly when `Orderly`.** -/
theorem written_eq_requested_iff (h : Reflects v st) :
    (written st.group st.stagedOffsets).map (fun w => (w.1, (w.2 : ℤ))) = v.requested ↔
      v.Orderly := by
  rw [h.group, h.staged]
  cases hs : v.slot with
  | none =>
    simp only [written, requested, Orderly, hs, map_nil, true_and, reduceCtorEq, false_and, exists_false, or_false]
    rw [eq_comm, map_eq_nil_iff]
  | some g =>
    have hone : ∀ en : OffsetEntry,
        ((offsetKey g en.tp, (en.offset.toNat : ℤ)) = (offsetKey en.group en.tp, en.offset)) ↔
          en.group = g ∧ 0 ≤ en.offset := by
      intro en
      rw [Prod.mk.injEq, offsetKey_inj, and_iff_left rfl, eq_comm, Int.toNat_eq_max]
      refine and_congr_right fun _ => ?_
      omega
    simp only [written, requested, Orderly, hs, map_append, map_map,
      Function.comp_def, Option.some.injEq, reduceCtorEq, false_and, false_or,
      exists_eq_left']
    constructor
    · intro heq
      have hlen := congrArg length heq
      simp only [length_append, length_map] at hlen
      have hnil : v.early = [] := eq_nil_of_length_eq_zero (by omega)
      rw [hnil, map_nil, nil_append, map_inj_left] at heq
      exact ⟨hnil, fun en hen => (hone en).1 (heq en hen)⟩
    · rintro ⟨hnil, hall⟩
      rw [hnil, map_nil, nil_append, map_inj_left]
      exact fun en hen => (hone en).2 (hall en hen)

end OffsetView

section

variable {ρ : Type} {S : RecordStore ρ}

/-- While the offset store does not stop, only a commit that is answered `0`
writes to it. -/
theorem offsets_of_handle {b : Broker S} {env : Env} (hcalm : ∀ i, env.commit.offsetStop i = none) (req : Request ρ) :
    (b.handle env req).1.store.offsets = b.store.offsets ∨
    ∃ t p e, req = .endTxn t p e true ∧ (b.handle env req).2 = .code 0 := by
  cases req with
  | restart => exact .inl rfl
  | initProducerId id => cases id <;> exact .inl rfl
  | addPartitions t p e ps => exact .inl rfl
  | addOffsets t p e g => exact .inl rfl
  | txnOffsetCommit t g p e os => exact .inl rfl
  | endTxn t p e commit =>
    rcases b.endTxn_cases env t p e commit with
      ⟨code, hne, heq⟩ | ⟨st, -, -, -, ⟨-, heq⟩ | ⟨rfl, heq⟩⟩ <;>
      simp only [handle, heq]
    · exact .inl trivial
    · exact .inl rfl
    · rcases b.answer_cases _ _ _ with ⟨a, store, -, hans⟩ | ⟨kind, store, hrun, hans⟩ |
        ⟨store, hrun, hans⟩ | ⟨store, hrun, hans⟩ <;> rw [hans]
      · exact .inr ⟨t, p, e, rfl, rfl⟩
      all_goals
        have hoff := commitTxnWithOffsets_stop hcalm hrun
        exact .inl hoff
  | produce q =>
    refine .inl ?_
    rcases b.produceEntry_cases env q with ⟨-, heq⟩ | ⟨code, -, heq⟩ | ⟨eos, -, -, -, -, heq⟩ |
      ⟨-, -, heq⟩ <;> simp only [handle, heq]
    · exact answer_offsets (keeps_offsets_bufferTxn _ _ _) fun _ _ => rfl
    · exact answer_offsets (keeps_produceInto _ (fun _ _ => rfl) _ _ _) fun _ _ => rfl
  | fetch tp o m =>
    exact .inl (answer_offsets (keeps_onRecords _ (fun _ _ => rfl) _) fun _ _ => rfl)

/-- A commit that is answered `0` has written the staged offsets under the
group slot. -/
theorem offsets_of_endTxn {b : Broker S} {env : Env} {t : String} {p e : ℤ}
    (h : (b.handle env (.endTxn t p e true)).2 = .code 0) :
    (b.handle env (.endTxn t p e true)).1.store.offsets = b.store.offsets ++
        written (stateOf b.txn t).group (stateOf b.txn t).stagedOffsets := by
  obtain ⟨st, store, hg, -, -, hrun, heq⟩ := endTxn_committed h
  obtain ⟨u, -, -, -, hoff⟩ := commitTxnWithOffsets_ok hrun
  rw [stateOf_of_get hg, handle, heq]
  exact hoff

/-- **Offsets in a transaction.**  In every run of the broker whose offset store
does not fail, over any requests of any ids and any number of restarts, the
offset store is written to only by an `EndTxn(commit)` that is answered `0`; and
what the one for the id `t` writes is exactly what the `TxnOffsetCommit` requests
answered `0` since the transaction opened have asked for, each entry under its
own group, if and only if the transaction was orderly. -/
theorem txn_offsets_exact_iff_orderly (S : RecordStore ρ) (t : String)
    (ops : List (Request ρ × Env)) (hcalm : ∀ op ∈ ops, ∀ i, op.2.commit.offsetStop i = none)
    (pre : List (Request ρ × Env)) (op : Request ρ × Env) (post : List (Request ρ × Env))
    (hops : ops = pre ++ op :: post) :
    let b := (brokerMachine S).final (.new S) pre
    let r := (brokerMachine S).step b op
    let v := OffsetView.ofTrace t ((brokerMachine S).trace (.new S) pre)
    (r.1.store.offsets ≠ b.store.offsets → ∃ u p e, op.1 = .endTxn u p e true ∧ r.2 = .code 0) ∧
    ∀ p e, op.1 = .endTxn t p e true → r.2 = .code 0 → ∃ added, r.1.store.offsets = b.store.offsets ++ added ∧
        (added.map (fun w => (w.1, (w.2 : ℤ))) = v.requested ↔ v.Orderly) := by
  intro b r v
  have hop : op ∈ ops := by rw [hops]; simp
  constructor
  · intro hne
    exact (offsets_of_handle (hcalm op hop) op.1).resolve_left hne
  · intro p e hreq hcode
    refine ⟨_, ?_, OffsetView.written_eq_requested_iff (OffsetView.reflects_run t pre)⟩
    have hr : r = b.handle op.2 (.endTxn t p e true) := by rw [← hreq]; rfl
    rw [hr] at hcode ⊢
    exact offsets_of_endTxn hcode

/-- The hypotheses are satisfiable: one group, one offset, staged inside the
transaction; the commit writes it under that group. -/
theorem txn_offsets_exact_one_group :
    let pre : List (Request Unit × Env) :=
      [(.initProducerId (some "t"), .calm), (.addOffsets "t" 1099511627776 0 "g1", .calm),
        (.txnOffsetCommit "t" "g1" 1099511627776 0 [(⟨"a", 0⟩, 5)], .calm)]
    let op : Request Unit × Env := (.endTxn "t" 1099511627776 0 true, .calm)
    let b := (brokerMachine (.lists Unit)).final (.new (.lists Unit)) pre
    ∃ added, ((brokerMachine (.lists Unit)).step b op).1.store.offsets = b.store.offsets ++ added ∧
      added.map (fun w => (w.1, (w.2 : ℤ))) = [(offsetKey "g1" ⟨"a", 0⟩, 5)] := by
  intro pre op b
  obtain ⟨added, hadd, hiff⟩ := (txn_offsets_exact_iff_orderly (.lists Unit) "t" (pre ++ [op])
    (by simp [pre, op, Env.calm]) pre op [] rfl).2 1099511627776 0 rfl (by decide)
  exact ⟨added, hadd, hiff.2 (.inr ⟨"g1", by decide, by decide, by decide⟩)⟩

/-- `AddOffsetsToTxn` names `g1`, the `TxnOffsetCommit` names `g2`; both are
answered `0` and so is the commit, which writes the offset under `g1`. -/
theorem txn_offsets_land_under_another_group :
    let pre : List (Request Unit × Env) :=
      [(.initProducerId (some "t"), .calm), (.addOffsets "t" 1099511627776 0 "g1", .calm),
        (.txnOffsetCommit "t" "g2" 1099511627776 0 [(⟨"a", 0⟩, 5)], .calm)]
    let b := (brokerMachine (.lists Unit)).final (.new (.lists Unit)) pre
    let r := (brokerMachine (.lists Unit)).step b (.endTxn "t" 1099511627776 0 true, .calm)
    let v := OffsetView.ofTrace "t" ((brokerMachine (.lists Unit)).trace (.new (.lists Unit)) pre)
    r.2 = .code 0 ∧ b.store.offsets = [] ∧ r.1.store.offsets = [(offsetKey "g1" ⟨"a", 0⟩, 5)] ∧
      v.requested = [(offsetKey "g2" ⟨"a", 0⟩, 5)] ∧
      r.1.store.offsets.map (fun w => (w.1, (w.2 : ℤ))) ≠ v.requested := by
  refine ⟨?_, rfl, rfl, rfl, ?_⟩ <;> decide

end

end Datarail.Kafka
