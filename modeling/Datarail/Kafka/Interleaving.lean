/-
# Acknowledged commits under interleaving

What an `EndTxn(commit)` that is answered `0` says about the records produced
into its transaction, when the calls of several connections interleave.

`end_txn` only looks at the coordinator, the flush only at the store, and between
the two the buffers of the transaction may be dropped: by the `abort_txn` of an
`InitProducerId` that takes over the id, by an `EndTxn(abort)` on another
connection, or by the flush of a later epoch.  `Undisturbed` names the calls that do
this; `AckInv` shows that nothing else can.
-/

import Datarail.Kafka.Fencing
import Datarail.Kafka.Schedule
import Mathlib.Data.List.Infix

namespace Datarail.Kafka

open Lib List Option BrokerStore Function TxnCoordinator Table Handler

/-- The broker and the requests in flight, by connection. -/
structure System {ρ : Type} (S : RecordStore ρ) where
  /-- The broker. -/
  broker : Broker S
  /-- The handler of each busy connection. -/
  conns : Table ℕ (Handler ρ)

/-- What can happen: a request arrives on a connection, or the handler of a
connection makes its next call. -/
inductive Event (ρ : Type) where
  | arrive (conn : ℕ) (wire : Wire ρ)
  | call (conn : ℕ) (order : KeyOrder BufferKey)

/-- The connection an event is about. -/
def Event.conn {ρ : Type} : Event ρ → ℕ
  | .arrive conn _ => conn
  | .call conn _ => conn

namespace System

variable {ρ : Type} {S : RecordStore ρ}

/-- No connection is busy. -/
def new (S : RecordStore ρ) : System S := { broker := .new S, conns := .empty }

/-- The connections once the request of one has gone on. -/
def put (conns : Table ℕ (Handler ρ)) (conn : ℕ) : Progress ρ → Table ℕ (Handler ρ)
  | .running h => conns.insert conn h
  | _ => conns.erase conn

/-- The system after a call of one connection. -/
def after (sys : System S) (conn : ℕ) (r : Broker S × Progress ρ) : System S :=
  { broker := r.1, conns := put sys.conns conn r.2 }

/-- A commit of the pair has been prepared and is not flushed. -/
def Pending (sys : System S) (pair : ℤ × ℤ) : Prop :=
  ∃ conn t out, sys.conns.get conn = some (.commitTxn t pair.1 pair.2 out)

/-- An abort of the pair has discarded its buffers and is not finished. -/
def Discarded (sys : System S) (pair : ℤ × ℤ) : Prop :=
  ∃ conn t, sys.conns.get conn = some (.finishTxn t pair.1 pair.2 false)

end System

/-- The broker under any schedule; a step tells the call that was made and where
its request stands after it. -/
def scheduleMachine {ρ : Type} (S : RecordStore ρ) :
    Machine (System S) (Event ρ) (Option (Handler ρ × Progress ρ)) where
  step sys
    | .arrive conn wire =>
      match sys.conns.get conn with
      | none => ({ sys with conns := System.put sys.conns conn (start wire) }, none)
      -- a busy connection reads its next request later
      | some _ => (sys, none)
    | .call conn order =>
      match sys.conns.get conn with
      | none => (sys, none)
      | some h =>
        let r := h.call order sys.broker
        (sys.after conn r, some (h, r.2))

/-- The records of one transactional entry. -/
structure Batch (ρ : Type) where
  /-- The `(producer_id, epoch)` it carries. -/
  pair : ℤ × ℤ
  /-- Its partition. -/
  tp : TopicPartition
  /-- Its records. -/
  values : List ρ
  deriving DecidableEq

/-- The transactions of a run as their clients can follow them. -/
structure Watch (ρ : Type) where
  /-- How many transactions of a pair have ended. -/
  serial : ℤ × ℤ → ℕ
  /-- The batches of a connection's `Produce` that have passed `produce_check`, each
  with the number of the transaction it passed into. -/
  checked : ℕ → List (Batch ρ × ℕ)
  /-- The batches answered `0` that were produced into the pair's transaction. -/
  acked : ℤ × ℤ → List (Batch ρ)
  /-- What was acknowledged when a connection's `EndTxn(commit)` was prepared. -/
  must : ℕ → List (Batch ρ)

namespace Watch

variable {ρ : Type}

/-- Nothing has happened. -/
def new : Watch ρ :=
  { serial := fun _ => 0, checked := fun _ => [], acked := fun _ => [], must := fun _ => [] }

/-- A `Produce` response: the batches answered `0` whose transaction has not ended. -/
def acknowledge (w : Watch ρ) (conn : ℕ) (outcomes : List (TopicPartition × ℤ × ℤ)) : Watch ρ :=
  { w with acked := fun pair => w.acked pair ++
      ((w.checked conn).filter fun x => x.1.pair = pair ∧ x.2 = w.serial pair ∧
        outcomes.any fun outcome => outcome.1 = x.1.tp ∧ outcome.2.2 = 0).map Prod.fst }

/-- What a call says about the transactions. -/
def note (w : Watch ρ) (conn : ℕ) : Handler ρ → Progress ρ → Watch ρ
  | .produce _ _, .running (.bufferTxn _ eos q) =>
    { w with checked := update w.checked conn (w.checked conn ++
        [(⟨(eos.producerId, eos.producerEpoch), q.tp, q.values⟩, w.serial (eos.producerId, eos.producerEpoch))]) }
  | .endTxn _ p e _, .running (.commitTxn ..) =>
    { w with must := update w.must conn (w.acked (p, e)) }
  | .finishTxn _ p e _, _ =>
    { w with
      serial := update w.serial (p, e) (w.serial (p, e) + 1)
      acked := update w.acked (p, e) [] }
  | _, .answered (.produced outcomes) => w.acknowledge conn outcomes
  | _, _ => w

/-- Follow one call; a request that is over leaves no batch behind. -/
def observe (w : Watch ρ) (conn : ℕ) (h : Handler ρ) (progress : Progress ρ) : Watch ρ :=
  match progress with
  | .running _ => w.note conn h progress
  | _ => { w.note conn h progress with checked := update w.checked conn [] }

/-- The view of a run. -/
def ofTrace (trace : List (Event ρ × Option (Handler ρ × Progress ρ))) : Watch ρ :=
  trace.foldl (fun w step => match step with
    | (.call conn _, some (h, progress)) => w.observe conn h progress
    | _ => w) new

end Watch

section

variable {ρ : Type} {S : RecordStore ρ}

/-- **The calls that do not disturb a commit.**  No `abort_txn` runs for a producer
while a commit of it, at an epoch the call drops, is prepared and not flushed; no
flush of a later epoch does; no commit is prepared between the discard and the
finish of an abort of its pair; no transaction is open under a pair when the
`InitProducerId` that granted it runs its `abort_txn`; no `Produce` names a partition
twice; the id counter does not overflow. -/
def Undisturbed (sys : System S) : Event ρ → Prop
  | .arrive _ (.produce _ entries) => (entries.map (·.tp)).Nodup
  | .arrive _ _ => True
  | .call conn _ =>
    match sys.conns.get conn with
    | some (.initProducerId (some t)) => CounterSafe sys.broker.txn (.initProducerId t)
    | some (.initAbort pair) =>
      (∀ t, sys.broker.txn.standing t ≠ some (pair, true)) ∧ ∀ e ≤ pair.2, ¬ sys.Pending (pair.1, e)
    | some (.abortTxn _ p e _) => ∀ e' ≤ e, ¬ sys.Pending (p, e')
    | some (.commitTxn _ p e _) => ∀ e' < e, ¬ sys.Pending (p, e')
    | some (.endTxn _ p e true) => ¬ sys.Discarded (p, e)
    | _ => True

/-- The batch is held back for its pair, or it is in its log. -/
def Batch.Kept (store : BrokerStore S) (x : Batch ρ) : Prop :=
  x.values <:+: store.buffered ⟨x.pair.1, x.pair.2, x.tp⟩ ∨ x.values <:+: store.contents x.tp

/-- The batch is in its log. -/
def Batch.Landed (store : BrokerStore S) (x : Batch ρ) : Prop := x.values <:+: store.contents x.tp

/-! ### What the calls keep of the batches -/

variable {x : Batch ρ}

/-- A batch stays kept where its buffer is kept or flushed. -/
theorem Batch.Kept.mono {store store' : BrokerStore S} (h : x.Kept store)
    (hb : store.buffered ⟨x.pair.1, x.pair.2, x.tp⟩ <:+: store'.buffered ⟨x.pair.1, x.pair.2, x.tp⟩ ∨
      store.buffered ⟨x.pair.1, x.pair.2, x.tp⟩ <:+: store'.contents x.tp)
    (hc : store.contents x.tp <+: store'.contents x.tp) : x.Kept store' := by
  rcases h with h | h
  · exact hb.imp h.trans h.trans
  · exact .inr (h.trans hc.isInfix)

variable {order : KeyOrder BufferKey} {p e : ℤ} {o : Outcome ErrorKind Unit} {ps : List TopicPartition}

variable {b t : BrokerStore S}

/-- **The flush**, while storage does not fail and however it ends: what the pair had
buffered for a partition is in the log or still buffered, and of other buffers only
older ones of the producer are gone. -/
theorem commitTxn_calm (hg : b.Good) (h : (commitTxn (calmCommit order) p e ps).run b = (o, t)) :
    t.Good ∧ (∀ tp, b.contents tp <+: t.contents tp) ∧
    (∀ k, k.producerId ≠ p ∨ e < k.epoch → t.buffered k = b.buffered k) ∧
    (∀ tp, t.buffered ⟨p, e, tp⟩ = b.buffered ⟨p, e, tp⟩ ∨ b.buffered ⟨p, e, tp⟩ <:+: t.contents tp) ∧
    (o = .ok () → ∀ tp, b.buffered ⟨p, e, tp⟩ <:+: t.contents tp) := by
  cases o with
  | ok u =>
    obtain ⟨hgt, -, hb, hc⟩ := commitTxn_ok hg h
    have hland : ∀ tp, b.buffered ⟨p, e, tp⟩ <:+: t.contents tp := fun tp => by
      rw [hc tp]
      exact (suffix_append _ _).isInfix
    refine ⟨hgt, fun tp => ?_, fun k hk => ?_, fun tp => .inr (hland tp), fun _ => hland⟩
    · rw [hc tp]
      exact prefix_append _ _
    · rw [buffered, hb, if_neg, ← buffered]
      rintro ⟨hp, he⟩
      exact hk.elim (fun hne => hne hp) fun hlt => absurd he (not_le.2 hlt)
  | stop w =>
    obtain ⟨pre, tp, post, u, hkeys, hgu, hbu, hcu, hrun, hbt⟩ := commitTxn_stop hg h
    obtain ⟨hs, hct⟩ : S.Sound t.records ∧ t.contents = u.contents := by
      rcases produceInto_stop hgu.sound (hg.valid _) hrun with
        ⟨hs, hc, -⟩ | ⟨-, hhit, -⟩
      · exact ⟨hs, hc⟩
      · exact absurd trivial hhit
    have hpre : ∀ k ∈ pre, k.producerId = p := fun k hk =>
      (mem_keysOf.1 (hkeys ▸ mem_append_left _ hk)).2
    refine ⟨hgu.of_buffers hs hbt, fun q => ?_, fun k hk => ?_, fun q => ?_, fun hc => by cases hc⟩
    · rw [hct, hcu q]
      exact prefix_append _ _
    · rw [buffered, hbt, hbu, if_neg, ← buffered]
      rintro ⟨hmem, he⟩
      exact hk.elim (fun hne => hne (hpre k hmem)) fun hlt => absurd he (not_le.2 hlt)
    · by_cases hq : (⟨p, e, q⟩ : BufferKey) ∈ pre
      · refine .inr ?_
        rw [hct, hcu q, if_pos hq]
        exact (suffix_append _ _).isInfix
      · refine .inl ?_
        rw [buffered, hbt, hbu, if_neg fun hk => hq hk.1, ← buffered]

variable {store : BrokerStore S}

/-- `abort_txn` keeps the batches of other producers and of later epochs. -/
theorem Batch.Kept.abortTxn (h : x.Kept store) (ps : List TopicPartition) (hx : x.pair.1 = p → e < x.pair.2) :
    x.Kept (store.abortTxn p e ps) := by
  refine h.mono (.inl ?_) prefix_rfl
  rw [buffered_abortTxn, if_neg fun hk => absurd hk.2 (not_le.2 (hx hk.1))]

/-- The flush of a pair keeps its batches, those of other producers and of later
epochs. -/
theorem Batch.Kept.commitTxn (hg : b.Good) (hrun : (commitTxn (calmCommit order) p e ps).run b = (o, t))
    (h : x.Kept b) (hx : x.pair.1 = p → e ≤ x.pair.2) : x.Kept t := by
  obtain ⟨-, hc, hb, hpair, -⟩ := commitTxn_calm hg hrun
  refine h.mono ?_ (hc x.tp)
  by_cases hp : x.pair.1 = p
  · rcases (hx hp).lt_or_eq with hlt | heq
    · rw [hb _ (.inr hlt)]
      exact .inl infix_rfl
    · rw [hp, ← heq]
      rcases hpair x.tp with hsame | hland
      · exact .inl (hsame ▸ infix_rfl)
      · exact .inr hland
  · rw [hb _ (.inl hp)]
    exact .inl infix_rfl

/-! ### The invariant -/

/-- What is known of a run besides the state of the system. -/
structure History (ρ : Type) where
  /-- What the clients have seen. -/
  watch : Watch ρ
  /-- The grants made. -/
  gs : List Grant
  /-- The batches buffered since the transaction of their pair began. -/
  taken : ℤ × ℤ → List (Batch ρ)

/-- The pair has been granted. -/
def History.Granted (H : History ρ) (pair : ℤ × ℤ) : Prop := ∃ g ∈ H.gs, g.pair = pair

/-- The batch has been buffered; it counts if the transaction it passed into is still
the current one. -/
def History.take (H : History ρ) (x : Batch ρ) (number : ℕ) : History ρ :=
  { H with
    taken := fun q => if q = x.pair ∧ number = H.watch.serial q then H.taken q ++ [x]
      else H.taken q }

/-- What has been taken up, after one more batch. -/
theorem History.mem_take {H : History ρ} {x y : Batch ρ} {number : ℕ} {q : ℤ × ℤ} : y ∈ (H.take x number).taken q ↔
      y ∈ H.taken q ∨ y = x ∧ q = x.pair ∧ number = H.watch.serial q := by
  simp only [take]
  split_ifs with h
  · simp [h]
  · constructor
    · exact .inl
    · exact fun hy => hy.elim id fun hy => absurd hy.2 h

/-- A batch has passed `produce_check` in the transaction with the given number. -/
structure Passed (H : History ρ) (c : TxnCoordinator) (x : Batch ρ × ℕ) : Prop where
  granted : H.Granted x.1.pair
  past : x.2 ≤ H.watch.serial x.1.pair
  running : x.2 = H.watch.serial x.1.pair → ∀ t, c.standing t ≠ some (x.1.pair, false)

/-- A batch of an entry that is done with: it has an outcome, and if that is `0` and
its transaction is still the current one, the batch was buffered in it. -/
structure Accounted (H : History ρ) (c : TxnCoordinator) (job : ProduceJob ρ)
    (done : List (ProducedPartition ρ)) (x : Batch ρ × ℕ) : Prop extends Passed H c x where
  entry : ∃ q ∈ done, q.tp = x.1.tp ∧ q.errorCode = none
  outcome : ∃ outcome, job.results.get x.1.tp = some outcome ∧
    (outcome.2 = 0 → x.2 = H.watch.serial x.1.pair → x.1 ∈ H.taken x.1.pair)

/-- A `Produce` whose loop is done with the entries `done`. -/
structure JobInv (H : History ρ) (c : TxnCoordinator) (job : ProduceJob ρ)
    (done rest : List (ProducedPartition ρ)) (checked : List (Batch ρ × ℕ)) : Prop where
  entries : job.entries = done ++ rest
  nodup : (job.entries.map (·.tp)).Nodup
  accounted : ∀ x ∈ checked, Accounted H c job done x

/-- The batch of an entry that has passed `produce_check`. -/
def batchOf (eos : EosCoord) (q : ProducedPartition ρ) : Batch ρ :=
  ⟨(eos.producerId, eos.producerEpoch), q.tp, q.values⟩

/-- What holds of a request in flight. -/
def ConnInv (H : History ρ) (b : Broker S) (conn : ℕ) : Handler ρ → Prop
  | .initAbort pair => H.watch.checked conn = [] ∧ H.Granted pair
  | .commitTxn _ p e _ => H.watch.checked conn = [] ∧ H.Granted (p, e) ∧
      ∀ x ∈ H.watch.must conn, x.pair = (p, e) ∧ x.Kept b.store
  | .commitOffset .. => H.watch.checked conn = [] ∧ ∀ x ∈ H.watch.must conn, x.Landed b.store
  | .abortTxn _ p e _ => H.watch.checked conn = [] ∧ H.Granted (p, e)
  | .finishTxn _ _ _ commit => H.watch.checked conn = [] ∧
      (commit = true → ∀ x ∈ H.watch.must conn, x.Landed b.store)
  | .produce job q => q.errorCode = none ∧
      ∃ done, JobInv H b.txn job done (q :: job.todo) (H.watch.checked conn)
  | .bufferTxn job eos q => q.errorCode = none ∧ ∃ done older number,
      H.watch.checked conn = older ++ [(batchOf eos q, number)] ∧
        Passed H b.txn (batchOf eos q, number) ∧ JobInv H b.txn job done (q :: job.todo) older
  | _ => H.watch.checked conn = []

/-- What holds of the broker. -/
structure BrokerInv (H : History ρ) (sys : System S) : Prop where
  fenced : FencingInv H.gs sys.broker.txn
  good : sys.broker.store.Good
  own : ∀ q, ∀ x ∈ H.taken q, x.pair = q
  fresh : ∀ q, ¬ H.Granted q → H.taken q = []
  idle : ∀ t q, sys.broker.txn.standing t = some (q, false) → H.taken q = []
  acked : ∀ q, H.watch.acked q ⊆ H.taken q
  kept : ∀ t q, sys.broker.txn.standing t = some (q, true) → ¬ sys.Discarded q →
    ∀ x ∈ H.taken q, x.Kept sys.broker.store

/-- **The invariant** of the system under any undisturbed schedule. -/
structure AckInv (H : History ρ) (sys : System S) : Prop extends BrokerInv H sys where
  busy : ∀ conn h, sys.conns.get conn = some h → ConnInv H sys.broker conn h
  free : ∀ conn, sys.conns.get conn = none → H.watch.checked conn = []

/-- What a call of one connection leaves of what the others rely on. -/
structure Grows (H : History ρ) (b : Broker S) (H' : History ρ) (b' : Broker S) : Prop where
  grants : ∀ q, H.Granted q → H'.Granted q
  contents : ∀ tp, b.store.contents tp <+: b'.store.contents tp
  serial : ∀ q, H.watch.serial q ≤ H'.watch.serial q
  taken : ∀ q, H'.watch.serial q = H.watch.serial q → H.taken q ⊆ H'.taken q
  running : ∀ q, H.Granted q → H'.watch.serial q = H.watch.serial q →
    (∀ t, b.txn.standing t ≠ some (q, false)) → ∀ t, b'.txn.standing t ≠ some (q, false)

section

variable {H H' : History ρ} {b b' : Broker S} {conn : ℕ} {x : Batch ρ × ℕ}

theorem Passed.grows (h : Passed H b.txn x) (hg : Grows H b H' b') : Passed H' b'.txn x where
  granted := hg.grants _ h.granted
  past := h.past.trans (hg.serial _)
  running heq := by
    have hs : H'.watch.serial x.1.pair = H.watch.serial x.1.pair :=
      le_antisymm (heq ▸ h.past) (hg.serial _)
    exact hg.running _ h.granted hs (h.running (heq.trans hs))

variable {job : ProduceJob ρ}

theorem Accounted.grows {done : List (ProducedPartition ρ)}
    (h : Accounted H b.txn job done x) (hg : Grows H b H' b') : Accounted H' b'.txn job done x := by
  obtain ⟨outcome, hout, htaken⟩ := h.outcome
  refine ⟨h.toPassed.grows hg, h.entry, outcome, hout, fun hzero heq => ?_⟩
  have hs : H'.watch.serial x.1.pair = H.watch.serial x.1.pair :=
    le_antisymm (heq ▸ h.past) (hg.serial _)
  exact hg.taken _ hs (htaken hzero (heq.trans hs))

theorem JobInv.grows {done rest : List (ProducedPartition ρ)}
    {checked : List (Batch ρ × ℕ)} (h : JobInv H b.txn job done rest checked)
    (hg : Grows H b H' b') : JobInv H' b'.txn job done rest checked :=
  ⟨h.entries, h.nodup, fun x hx => (h.accounted x hx).grows hg⟩

/-- A call of another connection keeps what holds of a request, if it keeps the
batches of a prepared commit. -/
theorem ConnInv.grows {h : Handler ρ} (hinv : ConnInv H b conn h) (hg : Grows H b H' b')
    (hchecked : H'.watch.checked conn = H.watch.checked conn)
    (hmust : H'.watch.must conn = H.watch.must conn)
    (hkept : ∀ t p e out, h = .commitTxn t p e out → ∀ x : Batch ρ, x.pair = (p, e) →
      x.Kept b.store → x.Kept b'.store) : ConnInv H' b' conn h := by
  cases h with
  | commitTxn t p e out =>
    obtain ⟨hc, hgr, hx⟩ := hinv
    refine ⟨hchecked.trans hc, hg.grants _ hgr, fun x hm => ?_⟩
    obtain ⟨hp, hk⟩ := hx x (hmust ▸ hm)
    exact ⟨hp, hkept t p e out rfl x hp hk⟩
  | initAbort pair => exact ⟨hchecked.trans hinv.1, hg.grants _ hinv.2⟩
  | abortTxn t p e out => exact ⟨hchecked.trans hinv.1, hg.grants _ hinv.2⟩
  | commitOffset t p e g tp o rest =>
    exact ⟨hchecked.trans hinv.1, fun x hm => (hinv.2 x (hmust ▸ hm)).trans (hg.contents _).isInfix⟩
  | finishTxn t p e commit =>
    exact ⟨hchecked.trans hinv.1, fun hc x hm => (hinv.2 hc x (hmust ▸ hm)).trans (hg.contents _).isInfix⟩
  | produce job q =>
    obtain ⟨hq, done, hjob⟩ := hinv
    exact ⟨hq, done, hchecked ▸ hjob.grows hg⟩
  | bufferTxn job eos q =>
    obtain ⟨hq, done, older, number, hc, hp, hjob⟩ := hinv
    exact ⟨hq, done, older, number, hchecked.trans hc, hp.grows hg, hjob.grows hg⟩
  | _ => exact hchecked.trans hinv

/-- What holds of a connection after its call. -/
def ConnAfter (H : History ρ) (b : Broker S) (conn : ℕ) : Progress ρ → Prop
  | .running h => ConnInv H b conn h
  | _ => H.watch.checked conn = []

end

section

variable {H H' : History ρ} {sys : System S} {b' : Broker S} {conn : ℕ} {h : Handler ρ} {progress : Progress ρ}

/-- A call touches the handler of its own connection only. -/
theorem System.get_put_of_ne {conns : Table ℕ (Handler ρ)} {c : ℕ} (hc : c ≠ conn) :
    (System.put conns conn progress).get c = conns.get c := by
  cases progress with
  | running h => exact get_insert_of_ne hc _ _
  | answered a => exact get_erase_of_ne hc _
  | dropped => exact get_erase_of_ne hc _

/-- The call finishes an abort. -/
def Handler.discards : Handler ρ → Bool
  | .finishTxn _ _ _ false => true
  | _ => false

theorem System.ne_of_discards (hget : sys.conns.get conn = some h) (hne : h.discards = false) {p e : ℤ}
    (t : String) : sys.conns.get conn ≠ some (.finishTxn t p e false) := by
  rw [hget]
  rintro ⟨⟩
  cases hne

/-- The request goes on. -/
def Progress.isRunning : Progress ρ → Bool
  | .running _ => true
  | _ => false

/-- A discard of another connection is still one. -/
theorem System.Discarded.put {q : ℤ × ℤ} (hd : sys.Discarded q)
    (hne : ∀ t, sys.conns.get conn ≠ some (.finishTxn t q.1 q.2 false)) :
    (sys.after conn (b', progress)).Discarded q := by
  obtain ⟨c, t, hc⟩ := hd
  have hcc : c ≠ conn := fun heq => hne t (heq ▸ hc)
  exact ⟨c, t, (System.get_put_of_ne hcc).trans hc⟩

/-- The batches of the commits that other connections have prepared are kept. -/
def KeepsPending (sys : System S) (conn : ℕ) (store : BrokerStore S) : Prop :=
  ∀ c t p e out, c ≠ conn → sys.conns.get c = some (.commitTxn t p e out) →
    ∀ x : Batch ρ, x.pair = (p, e) → x.Kept sys.broker.store → x.Kept store

theorem KeepsPending.of_kept (h : ∀ x : Batch ρ, x.Kept sys.broker.store → x.Kept store) :
    KeepsPending sys conn store := fun _ _ _ _ _ _ _ x _ => h x

theorem KeepsPending.refl : KeepsPending sys conn sys.broker.store := .of_kept fun _ => id

/-- A call that leaves the coordinator, the grants and the numbers alone and only adds to the logs. -/
theorem Grows.adds {b : Broker S} (hc : ∀ tp, b.store.contents tp <+: store.contents tp)
    (hgs : H'.gs = H.gs) (hs : H'.watch.serial = H.watch.serial) (htaken : ∀ q, H.taken q ⊆ H'.taken q) :
    Grows H b H' { b with store := store } where
  grants q hq := by rwa [History.Granted, hgs]
  contents := hc
  serial q := by rw [hs]
  taken q _ := htaken q
  running _ _ _ hrun := hrun

theorem Grows.stored {b : Broker S} (hc : ∀ tp, b.store.contents tp <+: store.contents tp) :
    Grows H b H { b with store := store } :=
  .adds hc rfl rfl fun _ => Subset.refl _

/-- **One call**, from what it does to the broker, to its own request and to what
the other requests rely on. -/
theorem AckInv.assemble (hinv : AckInv H sys) (hbroker : BrokerInv H' (sys.after conn (b', progress)))
    (hg : Grows H sys.broker H' b')
    (hwatch : ∀ c, c ≠ conn → H'.watch.checked c = H.watch.checked c ∧ H'.watch.must c = H.watch.must c)
    (hkept : KeepsPending sys conn b'.store) (hself : ConnAfter H' b' conn progress) :
    AckInv H' (sys.after conn (b', progress)) := by
  refine ⟨hbroker, fun c h' hc => ?_, fun c hc => ?_⟩
  · by_cases hcc : c = conn
    · subst hcc
      cases progress with
      | running h₁ =>
        have heq : some h₁ = some h' := (get_insert_self _ _ _).symm.trans hc
        obtain rfl := some.inj heq
        exact hself
      | answered a => exact absurd ((get_erase_self _ _).symm.trans hc) (by simp)
      | dropped => exact absurd ((get_erase_self _ _).symm.trans hc) (by simp)
    · have hc' : sys.conns.get c = some h' := (System.get_put_of_ne hcc).symm.trans hc
      refine (hinv.busy c h' hc').grows hg (hwatch c hcc).1 (hwatch c hcc).2 ?_
      rintro t p e out rfl
      exact hkept c t p e out hcc hc'
  · by_cases hcc : c = conn
    · subst hcc
      cases progress with
      | running h₁ => exact absurd ((get_insert_self _ _ _).symm.trans hc) (by simp)
      | answered a => exact hself
      | dropped => exact hself
    · rw [(hwatch c hcc).1]
      exact hinv.free c ((System.get_put_of_ne hcc).symm.trans hc)

/-- The broker's part of the invariant does not depend on what is checked and what must land; a call that leaves
the coordinator alone and drops nothing keeps it. -/
theorem BrokerInv.stored (hinv : BrokerInv H sys) (hget : sys.conns.get conn = some h)
    (hne : h.discards = false) (hgood : store.Good)
    (hkept : ∀ x : Batch ρ, x.Kept sys.broker.store → x.Kept store) {w : Watch ρ}
    (hacked : w.acked = H.watch.acked) :
    BrokerInv { H with watch := w } (sys.after conn ({ sys.broker with store := store }, progress)) :=
  ⟨hinv.fenced, hgood, hinv.own, hinv.fresh, hinv.idle, hacked ▸ hinv.acked, fun t q ht hd x hx =>
    hkept x (hinv.kept t q ht (fun hdisc => hd (hdisc.put (System.ne_of_discards hget hne))) x hx)⟩

/-- A call after which the history is what it was. -/
theorem AckInv.quiet (hinv : AckInv H sys) (hget : sys.conns.get conn = some h)
    (hne : h.discards = false) (hf : FencingInv H.gs b'.txn)
    (hgood : b'.store.Good)
    (hs : ∀ u q o', b'.txn.standing u = some (q, o') →
      ∃ o, sys.broker.txn.standing u = some (q, o) ∧ (o' = false → o = false))
    (hc : ∀ tp, sys.broker.store.contents tp <+: b'.store.contents tp)
    (hopen : ∀ t q, sys.broker.txn.standing t = some (q, true) → ¬ (sys.after conn (b', progress)).Discarded q →
      ∀ x : Batch ρ, x.pair = q → x.Kept sys.broker.store → x.Kept b'.store)
    (hkept : KeepsPending sys conn b'.store) (hself : ConnAfter H b' conn progress) :
    AckInv H (sys.after conn (b', progress)) := by
  refine hinv.assemble ⟨hf, hgood, hinv.own, hinv.fresh, fun t q ht => ?_, hinv.acked,
    fun t q ht hd x hx => ?_⟩ ⟨fun _ hq => hq, hc, fun _ => le_rfl, fun _ _ => Subset.refl _,
      fun q _ _ hrun t ht => ?_⟩ (fun _ _ => ⟨rfl, rfl⟩) hkept hself
  · obtain ⟨o, ho, himp⟩ := hs t q false ht
    rw [himp rfl] at ho
    exact hinv.idle t q ho
  · obtain ⟨o, ho, -⟩ := hs t q true ht
    cases o with
    | false =>
      rw [hinv.idle t q ho] at hx
      cases hx
    | true =>
      have hd' : ¬ sys.Discarded q := fun hdisc => hd (hdisc.put (System.ne_of_discards hget hne))
      exact hopen t q ho hd x (hinv.own q x hx) (hinv.kept t q ho hd' x hx)
  · obtain ⟨o, ho, himp⟩ := hs t q false ht
    rw [himp rfl] at ho
    exact hrun t ho

/-- One that leaves the coordinator alone. -/
theorem AckInv.storeQuiet (hinv : AckInv H sys) (hget : sys.conns.get conn = some h)
    (hne : h.discards = false) (hgood : store.Good)
    (hc : ∀ tp, sys.broker.store.contents tp <+: store.contents tp)
    (hopen : ∀ t q, sys.broker.txn.standing t = some (q, true) →
      ¬ (sys.after conn ({ sys.broker with store := store }, progress)).Discarded q →
      ∀ x : Batch ρ, x.pair = q → x.Kept sys.broker.store → x.Kept store)
    (hkept : KeepsPending sys conn store)
    (hself : ConnAfter H { sys.broker with store := store } conn progress) :
    AckInv H (sys.after conn ({ sys.broker with store := store }, progress)) :=
  hinv.quiet hget hne hinv.fenced hgood (fun _ _ o hu => ⟨o, hu, id⟩) hc hopen hkept hself

/-- The invariant goes on past a call, with the watch that has observed it. -/
def Goes (H : History ρ) (sys : System S) (conn : ℕ) (h : Handler ρ) (r : Broker S × Progress ρ) : Prop :=
  ∃ H' : History ρ, AckInv H' (sys.after conn r) ∧ H'.watch = H.watch.observe conn h r.2

theorem Watch.observe_over (w : Watch ρ) (hover : progress.isRunning = false) : w.observe conn h progress =
      { w.note conn h progress with checked := update w.checked conn [] } := by
  cases progress with
  | running h' => cases hover
  | answered a => rfl
  | dropped => rfl

/-- A call the watch has nothing to note of. -/
theorem Goes.unseen (hinv : AckInv H (sys.after conn (b', progress)))
    (hc : H.watch.checked conn = []) (hn : H.watch.note conn h progress = H.watch) :
    Goes H sys conn h (b', progress) := by
  refine ⟨H, hinv, ?_⟩
  have hsame : { H.watch with checked := update H.watch.checked conn [] } = H.watch := by
    rw [← hc, update_eq_self]
  cases progress with
  | running h' => exact hn.symm
  | answered a => rw [Watch.observe_over _ rfl, hn, hsame]
  | dropped => rw [Watch.observe_over _ rfl, hn, hsame]

/-- A request is over. -/
theorem Goes.over (hinv : AckInv H sys) (hover : progress.isRunning = false)
    (hbroker : BrokerInv H' (sys.after conn (b', progress))) (hg : Grows H sys.broker H' b')
    (hkept : KeepsPending sys conn b'.store) (hw : H'.watch = H.watch.note conn h progress)
    (hmust : H'.watch.must = H.watch.must) : Goes H sys conn h (b', progress) := by
  refine ⟨{ H' with watch := H.watch.observe conn h progress }, ?_, rfl⟩
  rw [Watch.observe_over _ hover, ← hw]
  refine hinv.assemble { hbroker with } { hg with } (fun c hc => ⟨update_of_ne hc _ _, congrFun hmust c⟩) hkept ?_
  cases progress with
  | running h' => cases hover
  | answered a => exact update_self _ _ _
  | dropped => exact update_self _ _ _

variable {t : String}

/-- A granted pair drops no buffer of an open transaction of another pair. -/
theorem BrokerInv.later (hinv : BrokerInv H sys) {pair q : ℤ × ℤ} {o : Bool}
    (hg : H.Granted pair) (ht : sys.broker.txn.standing t = some (q, o)) (hq : q.1 = pair.1) :
    pair.2 ≤ q.2 := by
  obtain ⟨g, hmem, rfl⟩ := hg
  exact hinv.fenced.epoch_le hmem ht hq

namespace AckInv

/-- An `abort_txn`: no transaction of its pair is open, or the pair counts as discarded from now on. -/
theorem aborted (hinv : AckInv H sys) (pair : ℤ × ℤ) (ps : List TopicPartition)
    (hget : sys.conns.get conn = some h) (hne : h.discards = false) (hgranted : H.Granted pair)
    (hpend : ∀ e ≤ pair.2, ¬ sys.Pending (pair.1, e))
    (hself : ConnAfter H { sys.broker with store := sys.broker.store.abortTxn pair.1 pair.2 ps } conn progress)
    (hclosed : ∀ t, sys.broker.txn.standing t = some (pair, true) → (sys.after conn
      ({ sys.broker with store := sys.broker.store.abortTxn pair.1 pair.2 ps }, progress)).Discarded pair) :
    AckInv H (sys.after conn
      ({ sys.broker with store := sys.broker.store.abortTxn pair.1 pair.2 ps }, progress)) := by
  refine hinv.storeQuiet hget hne (hinv.good.abortTxn pair.1 pair.2 ps) (fun _ => prefix_rfl)
    (fun t q ht hd x hx hk => ?_) (fun c t p e out _ hc x hx hk => ?_) hself
  · refine hk.abortTxn ps fun hp => ?_
    rw [hx] at hp ⊢
    refine lt_of_le_of_ne (hinv.later hgranted ht hp) fun he => hd ?_
    obtain rfl : q = pair := Prod.ext hp he.symm
    exact hclosed t ht
  · refine hk.abortTxn ps fun hp => not_le.1 fun he => ?_
    rw [hx] at hp he
    obtain rfl : p = pair.1 := hp
    exact hpend e he ⟨c, t, out, hc⟩

/-- The flush, however it ends. -/
theorem commitTxn (hinv : AckInv H sys) {out : EndTxnOutcome} (hget : sys.conns.get conn = some (.commitTxn t p e out))
    (hpend : ∀ e' < e, ¬ sys.Pending (p, e'))
    (hrun : (commitTxn (calmCommit order) p e out.partitions).run sys.broker.store =
      (o, store)) (hself : ConnAfter H { sys.broker with store := store } conn progress) :
    AckInv H (sys.after conn ({ sys.broker with store := store }, progress)) := by
  obtain ⟨-, hgranted, -⟩ := hinv.busy conn _ hget
  obtain ⟨hgood, hc, -⟩ := commitTxn_calm hinv.good hrun
  refine hinv.storeQuiet hget rfl hgood hc (fun u q hu _ x hx hk => ?_) (fun c u p' e' out' _ hc' x hx hk => ?_) hself
  · refine hk.commitTxn hinv.good hrun fun hp => ?_
    rw [hx] at hp ⊢
    exact hinv.later hgranted hu hp
  · refine hk.commitTxn hinv.good hrun fun hp => not_lt.1 fun he => ?_
    rw [hx] at hp he
    obtain rfl : p' = p := hp
    exact hpend e' he ⟨c, u, out', hc'⟩

/-- A call of the coordinator that neither grants nor finishes. -/
theorem coordinator (hinv : AckInv H sys) (op : TxnOp) (hget : sys.conns.get conn = some h)
    (hne : h.discards = false) (hinit : ∀ t, op ≠ .initProducerId t)
    (hfinish : ∀ t p e, op ≠ .finishTxn t p e)
    (hself : ConnAfter H { sys.broker with txn := (txnMachine.step sys.broker.txn op).1 } conn progress) :
    AckInv H (sys.after conn ({ sys.broker with txn := (txnMachine.step sys.broker.txn op).1 }, progress)) :=
  hinv.quiet hget hne (hinv.fenced.of_same (sameIncarnations_step _ op hinit)) hinv.good
    (fun _ _ _ => standing_step hinit hfinish) (fun _ => prefix_rfl)
    (fun _ _ _ _ _ _ hk => hk) .refl hself

end AckInv

variable {job : ProduceJob ρ} {done : List (ProducedPartition ρ)} {checked : List (Batch ρ × ℕ)} {c : TxnCoordinator}

/-- **What follows an entry**: the next one, or the response, in which only batches
that were buffered are answered `0`. -/
theorem JobInv.next (hjob : JobInv H c job done job.todo checked) :
    (∃ q rest done', job.next = .running (.produce { job with todo := rest } q) ∧
      q.errorCode = none ∧ JobInv H c { job with todo := rest } done' (q :: rest) checked) ∨
    job.next = .answered .silent ∨
    (job.next = .answered (.produced job.response) ∧ ∀ x ∈ checked, x.2 = H.watch.serial x.1.pair →
        (job.response.any fun o => o.1 = x.1.tp ∧ o.2.2 = 0) = true → x.1 ∈ H.taken x.1.pair) := by
  cases hdrop : job.todo.dropWhile (·.errorCode.isSome) with
  | cons q rest =>
    have hsplit := takeWhile_append_dropWhile (p := (·.errorCode.isSome)) (l := job.todo)
    refine .inl ⟨q, rest, done ++ job.todo.takeWhile (·.errorCode.isSome), ?_, ?_, ?_, ?_, ?_⟩
    · simp only [ProduceJob.next, hdrop]
    · have hhead := head?_dropWhile_not (·.errorCode.isSome) job.todo
      rw [hdrop] at hhead
      simpa using hhead
    · rw [append_assoc, ← hdrop, hsplit]
      exact hjob.entries
    · exact hjob.nodup
    · intro x hx
      obtain ⟨hp, ⟨d, hd, hde⟩, ho⟩ := hjob.accounted x hx
      exact ⟨hp, ⟨d, mem_append_left _ hd, hde⟩, ho⟩
  | nil =>
    refine .inr ?_
    by_cases hacks : job.acks = 0
    · exact .inl (by simp only [ProduceJob.next, hdrop, if_pos hacks])
    · refine .inr ⟨by simp only [ProduceJob.next, hdrop, if_neg hacks], fun x hx hs hany => ?_⟩
      obtain ⟨-, ⟨d, hd, htp, herr⟩, outcome, hout, htaken⟩ := hjob.accounted x hx
      obtain ⟨o, ho, hz⟩ := any_eq_true.1 hany
      obtain ⟨hotp, hozero⟩ := of_decide_eq_true hz
      obtain ⟨q, hq, rfl⟩ := mem_map.1 ho
      -- the partition is named once, so the answer is that of the batch's own entry
      have hqd : q = d := inj_on_of_nodup_map hjob.nodup hq (hjob.entries ▸ mem_append_left _ hd) (hotp.trans htp.symm)
      subst hqd
      simp only [herr, htp, hout, getD_some] at hozero
      exact htaken hozero hs

variable {q : ProducedPartition ρ}

/-- An outcome is noted for the entry the loop has reached; the batches of earlier
entries are for other partitions. -/
theorem JobInv.record (hjob : JobInv H c job done (q :: job.todo) checked) (outcome : ℤ × ℤ) :
    JobInv H c (job.record q.tp outcome) (done ++ [q]) job.todo checked := by
  refine ⟨by rw [append_assoc]; exact hjob.entries, hjob.nodup, fun x hx => ?_⟩
  obtain ⟨hp, ⟨d, hd, htp, herr⟩, out, hout, htaken⟩ := hjob.accounted x hx
  have hne : x.1.tp ≠ q.tp := by
    have hnd := hjob.nodup
    rw [hjob.entries, map_append, map_cons, nodup_append] at hnd
    rw [← htp]
    exact hnd.2.2 _ (mem_map_of_mem hd) _ mem_cons_self
  exact ⟨hp, ⟨d, mem_append_left _ hd, htp, herr⟩, out, (get_insert_of_ne hne _ _).trans hout, htaken⟩

/-- The same where the entry has a batch of its own. -/
theorem JobInv.recordBatch {eos : EosCoord} {number : ℕ} (hjob : JobInv H c job done (q :: job.todo) checked)
    (hq : q.errorCode = none) (hpass : Passed H c (batchOf eos q, number)) {outcome : ℤ × ℤ}
    (htaken : outcome.2 = 0 → number = H.watch.serial (batchOf eos q).pair →
      batchOf eos q ∈ H.taken (batchOf eos q).pair) :
    JobInv H c (job.record q.tp outcome) (done ++ [q]) job.todo (checked ++ [(batchOf eos q, number)]) := by
  have hrec := hjob.record outcome
  exact ⟨hrec.entries, hrec.nodup, forall_mem_append.2 ⟨hrec.accounted, forall_mem_singleton.2 ⟨hpass,
    ⟨q, mem_append_right _ (mem_singleton.2 rfl), rfl, hq⟩, outcome, get_insert_self _ _ _, htaken⟩⟩⟩

/-- Only the answer of the request is noted of the call. -/
def NotesAnswer (conn : ℕ) (h : Handler ρ) : Prop :=
  ∀ w : Watch ρ, (∀ job q, w.note conn h (.running (.produce job q)) = w) ∧
    (∀ a, w.note conn h (.answered a) = match a with
      | .produced outcomes => w.acknowledge conn outcomes
      | _ => w) ∧ w.note conn h .dropped = w

/-- A store to which records were added at most. -/
structure Adds (b store : BrokerStore S) : Prop where
  good : store.Good
  contents : ∀ tp, b.contents tp <+: store.contents tp
  kept : ∀ x : Batch ρ, x.Kept b → x.Kept store

/-- A store whose logs and buffers only grow. -/
theorem Adds.of_buffered {b : BrokerStore S} (hg : store.Good)
    (hc : ∀ tp, b.contents tp <+: store.contents tp) (hb : ∀ k, b.buffered k <:+: store.buffered k) :
    Adds b store :=
  ⟨hg, hc, fun _ hx => hx.mono (.inl (hb _)) (hc _)⟩

namespace AckInv

/-- An entry is done with: its request goes on to the next one, or is answered. -/
theorem entryDone (hinv : AckInv H sys) (hnote : NotesAnswer conn h)
    (hbroker : BrokerInv H' (sys.after conn (b', job.next)))
    (hw : H'.watch = H.watch) (hg : Grows H sys.broker H' b') (hkept : KeepsPending sys conn b'.store)
    (hjob : JobInv H' b'.txn job done job.todo (H.watch.checked conn)) :
    Goes H sys conn h (b', job.next) := by
  rcases hjob.next with ⟨q, rest, done', hnext, hq, hjob'⟩ | hnext | ⟨hnext, htaken⟩
  · -- the next entry
    rw [hnext] at hbroker ⊢
    refine ⟨H', hinv.assemble hbroker hg (fun c _ => ⟨by rw [hw], by rw [hw]⟩) hkept ⟨hq, done', hw ▸ hjob'⟩, ?_⟩
    rw [hw]
    exact ((hnote H.watch).1 _ _).symm
  · -- no response
    rw [hnext] at hbroker ⊢
    exact .over hinv rfl hbroker hg hkept (by rw [hw, (hnote H.watch).2.1]) (by rw [hw])
  · -- the response
    rw [hnext] at hbroker ⊢
    have hbroker' : BrokerInv { H' with watch := H'.watch.acknowledge conn job.response }
        (sys.after conn (b', .answered (.produced job.response))) := by
      refine { hbroker with acked := fun q x hx => ?_ }
      rcases mem_append.1 hx with hx | hx
      · exact hbroker.acked q hx
      · obtain ⟨y, hy, rfl⟩ := mem_map.1 hx
        obtain ⟨hmem, hcond⟩ := mem_filter.1 hy
        obtain ⟨rfl, hs, hany⟩ := of_decide_eq_true hcond
        exact htaken y (hw ▸ hmem) hs hany
    exact .over hinv rfl hbroker' { hg with } hkept (by rw [hw, (hnote H.watch).2.1]) (by rw [hw]; rfl)

variable {tp : TopicPartition}

/-- A call of a `Produce` that drops nothing, with its outcome noted. -/
theorem storeEntry (hinv : AckInv H sys) (hget : sys.conns.get conn = some h)
    (hne : h.discards = false) (hnote : NotesAnswer conn h)
    {x : Action ErrorKind (BrokerStore S) ℤ}
    (hx : ∀ o store, x.run sys.broker.store = (o, store) → Adds sys.broker.store store)
    (hok : ∀ base store, x.run sys.broker.store = (.ok base, store) → ∃ H', BrokerInv H' (sys.after conn
          ({ sys.broker with store := store }, (job.record tp (base, 0)).next)) ∧
        H'.watch = H.watch ∧ Grows H sys.broker H' { sys.broker with store := store } ∧
        ∃ done, JobInv H' sys.broker.txn (job.record tp (base, 0)) done job.todo (H.watch.checked conn))
    (herr : ∀ code, code ≠ 0 → ∃ done, JobInv H sys.broker.txn (job.record tp (-1, code)) done job.todo
      (H.watch.checked conn)) :
    Goes H sys conn h (storeEntry sys.broker job tp x) := by
  rcases hrun : x.run sys.broker.store with ⟨base | w, store⟩
  · obtain ⟨H', hbroker, hw, hg, done, hjob⟩ := hok base store hrun
    simp only [Handler.storeEntry, hrun]
    exact hinv.entryDone hnote hbroker hw hg (.of_kept (hx _ _ hrun).kept) hjob
  · have hadds := hx _ _ hrun
    have hbroker : ∀ pr, BrokerInv H (sys.after conn ({ sys.broker with store := store }, pr)) :=
      fun _ => hinv.toBrokerInv.stored hget hne hadds.good hadds.kept rfl
    have hdropped : Goes H sys conn h ({ sys.broker with store := store }, .dropped) :=
      .over hinv rfl (hbroker _) (.stored hadds.contents) (.of_kept hadds.kept) (hnote H.watch).2.2.symm rfl
    cases w with
    | failed kind =>
      obtain ⟨done, hjob⟩ := herr (Broker.produceErrorCode kind) (by cases kind <;> decide)
      simp only [Handler.storeEntry, hrun]
      exact hinv.entryDone hnote (hbroker _) rfl (.stored hadds.contents) (.of_kept hadds.kept) hjob
    | _ =>
      simp only [Handler.storeEntry, hrun]
      exact hdropped

/-- `init_producer_id`: the new pair has no batch. -/
theorem granted (hinv : AckInv H sys) (hget : sys.conns.get conn = some (.initProducerId (some t)))
    (hsafe : CounterSafe sys.broker.txn (.initProducerId t)) :
    Goes H sys conn (.initProducerId (some t)) ({ sys.broker with txn := (sys.broker.txn.initProducerId t).1 },
      .running (.initAbort (sys.broker.txn.initProducerId t).2)) := by
  have hf := hinv.fenced.initProducerId t hsafe
  have hgrants : ∀ q, H.Granted q →
      ({ H with gs := H.gs ++ [⟨t, (sys.broker.txn.initProducerId t).2⟩] } : History ρ).Granted q :=
    fun q ⟨g, hg, hq⟩ => ⟨g, mem_append_left _ hg, hq⟩
  -- the pair granted now was not granted before
  have hnew : ¬ H.Granted (sys.broker.txn.initProducerId t).2 := by
    rintro ⟨g, hg, hq⟩
    have hnd := hf.nodup
    rw [map_append, nodup_append] at hnd
    exact hnd.2.2 _ (mem_map_of_mem hg) _ (mem_singleton.2 rfl) hq
  obtain ⟨claimed, counter, pair, heq, -, -⟩ := sys.broker.txn.initProducerId_spec t
  have htxns : (sys.broker.txn.initProducerId t).1.txns =
      sys.broker.txn.txns.insert t (.idle (sys.broker.txn.initProducerId t).2) := by rw [heq]
  have hs : ∀ u, (sys.broker.txn.initProducerId t).1.standing u =
      if u = t then some ((sys.broker.txn.initProducerId t).2, false)
      else sys.broker.txn.standing u := standing_of_insert htxns
  refine ⟨{ H with gs := H.gs ++ [⟨t, (sys.broker.txn.initProducerId t).2⟩] },
    hinv.assemble ⟨hf, hinv.good, hinv.own, fun q hq => hinv.fresh q fun h => hq (hgrants q h),
      fun u q hu => ?_, hinv.acked, fun u q hu hd x hx => ?_⟩
      ⟨hgrants, fun _ => prefix_rfl, fun _ => le_rfl, fun _ _ => Subset.refl _,
        fun q hq _ hrun u hu => ?_⟩ (fun _ _ => ⟨rfl, rfl⟩) .refl
      ⟨(hinv.busy conn _ hget : H.watch.checked conn = []), ⟨_, mem_append_right _ (mem_singleton.2 rfl), rfl⟩⟩, rfl⟩
  · have hu' := (hs u).symm.trans hu
    split_ifs at hu' with hut
    · obtain rfl : _ = q := (Prod.mk.inj (some.inj hu')).1
      exact hinv.fresh _ hnew
    · exact hinv.idle u q hu'
  · have hu' := (hs u).symm.trans hu
    split_ifs at hu' with hut
    · cases hu'
    · exact hinv.kept u q hu' (fun hdisc => hd (hdisc.put (System.ne_of_discards hget rfl))) x hx
  · have hu' := (hs u).symm.trans hu
    split_ifs at hu' with hut
    · exact hnew ((Prod.mk.inj (some.inj hu')).1 ▸ hq)
    · exact hrun u hu'

/-- A commit is prepared: what has been acknowledged is kept. -/
theorem prepared (hinv : AckInv H sys) {commit : Bool} {st : TxnState}
    {out : EndTxnOutcome} (hget : sys.conns.get conn = some (.endTxn t p e commit))
    (hst : sys.broker.txn.txns.get t = some st) (hp : st.pair = (p, e)) (ho : st.ongoing = true)
    (hd : ¬ sys.Discarded (p, e)) :
    Goes H sys conn (.endTxn t p e commit) (sys.broker, .running (.commitTxn t p e out)) := by
  have hstand := standing_of_get hst
  rw [hp, ho] at hstand
  obtain ⟨g, hg, -, hgp⟩ := hinv.fenced.exists_grant hst
  refine ⟨{ H with
      watch := H.watch.observe conn (.endTxn t p e commit) (.running (.commitTxn t p e out)) },
    hinv.assemble (hinv.toBrokerInv.stored hget rfl hinv.good (fun _ => id) rfl)
      (.adds (fun _ => prefix_rfl) rfl rfl fun _ => Subset.refl _)
      (fun c hc => ⟨rfl, update_of_ne hc _ _⟩) .refl
      ⟨(hinv.busy conn _ hget : H.watch.checked conn = []), ⟨g, hg, hgp.trans hp⟩, fun x hx => ?_⟩, rfl⟩
  change x ∈ update H.watch.must conn (H.watch.acked (p, e)) conn at hx
  rw [update_self] at hx
  have hx' := hinv.acked _ hx
  exact ⟨hinv.own _ x hx', hinv.kept t _ hstand hd x hx'⟩

/-- `finish_txn`: the transaction of the pair, if it is the current one, is over, and
its number is up. -/
theorem finished (hinv : AckInv H sys) {commit : Bool} (hget : sys.conns.get conn = some (.finishTxn t p e commit)) :
    Goes H sys conn (.finishTxn t p e commit)
      ({ sys.broker with txn := sys.broker.txn.finishTxn t p e }, .answered (.reply (.code 0))) := by
  -- the ids stand as they did, except that the pair is idle if it is current
  have hs : ∀ u q o', (sys.broker.txn.finishTxn t p e).standing u = some (q, o') →
      (q = (p, e) ∧ o' = false) ∨ sys.broker.txn.standing u = some (q, o') := by
    intro u q o' hu
    rcases sys.broker.txn.finishTxn_cases t p e with ⟨heq, -⟩ | ⟨st, -, -, heq⟩
    · rw [heq] at hu
      exact .inr hu
    · have htxns : (sys.broker.txn.finishTxn t p e).txns = sys.broker.txn.txns.insert t (.idle (p, e)) := by rw [heq]
      rw [standing_of_insert htxns] at hu
      split_ifs at hu
      · cases hu
        exact .inl ⟨rfl, rfl⟩
      · exact .inr hu
  have hserial : ∀ q, update H.watch.serial (p, e) (H.watch.serial (p, e) + 1) q = H.watch.serial q → q ≠ (p, e) := by
    rintro q hq rfl
    rw [update_self] at hq
    omega
  have htaken : ∀ {α : Type} (f : ℤ × ℤ → List α) q, ∀ x ∈ update f (p, e) [] q, q ≠ (p, e) ∧ x ∈ f q := by
    intro α f q x hx
    by_cases hq : q = (p, e)
    · rw [hq, update_self] at hx
      cases hx
    · exact ⟨hq, by rwa [update_of_ne hq] at hx⟩
  have hother : ∀ q, q ≠ (p, e) → H.taken q ⊆ update H.taken (p, e) [] q := fun q hq => by
    rw [update_of_ne hq]
    exact Subset.refl _
  have hnil : ∀ q, (q ≠ (p, e) → H.taken q = []) → update H.taken (p, e) [] q = [] := by
    intro q h
    by_cases hq : q = (p, e)
    · rw [hq, update_self]
    · rw [update_of_ne hq, h hq]
  have hbroker : BrokerInv { H with
        watch := H.watch.note conn (.finishTxn t p e commit) (.answered (.reply (.code 0)))
        taken := update H.taken (p, e) [] }
      (sys.after conn ({ sys.broker with txn := sys.broker.txn.finishTxn t p e }, .answered (.reply (.code 0)))) :=
    { fenced := hinv.fenced.of_same (sameIncarnations_step sys.broker.txn (.finishTxn t p e) fun _ => nofun)
      good := hinv.good
      own := fun q x hx => hinv.own q x (htaken _ q x hx).2
      fresh := fun q hq => hnil q fun _ => hinv.fresh q hq
      idle := fun u q hu => hnil q fun hne => (hs u q false hu).elim (fun h => absurd h.1 hne) (hinv.idle u q)
      acked := fun q x hx => by
        obtain ⟨hne, hx⟩ := htaken _ q x hx
        exact hother q hne (hinv.acked q hx)
      kept := fun u q hu hd x hx => by
        obtain ⟨hne, hx⟩ := htaken _ q x hx
        rcases hs u q true hu with ⟨-, hf⟩ | hu'
        · cases hf
        · refine hinv.kept u q hu' (fun hdisc => hd (hdisc.put fun t' heq => hne ?_)) x hx
          obtain ⟨-, hp, he, -⟩ := finishTxn.inj (some.inj (hget.symm.trans heq))
          exact Prod.ext hp.symm he.symm }
  refine .over hinv rfl hbroker
    { grants := fun _ hq => hq
      contents := fun _ => prefix_rfl
      serial := fun q => ?_
      taken := fun q hq => hother q (hserial q hq)
      running := fun q _ hq hrun u hu => ?_ } .refl rfl rfl
  · change H.watch.serial q ≤ update H.watch.serial (p, e) _ q
    rw [update_apply]
    split_ifs with hq
    · rw [hq]
      omega
    · exact le_rfl
  · rcases hs u q false hu with ⟨heq, -⟩ | hu'
    · exact hserial q hq heq
    · exact hrun u hu'

/-- A batch passes `produce_check`. -/
theorem checkPassed (hinv : AckInv H sys) {eos : EosCoord} (hget : sys.conns.get conn = some (.produce job q))
    (hcheck : sys.broker.txn.produceCheck eos.producerId eos.producerEpoch q.tp = 0) :
    Goes H sys conn (.produce job q) (sys.broker, .running (.bufferTxn job eos q)) := by
  obtain ⟨hq, done, hjob⟩ := hinv.busy conn _ hget
  obtain ⟨t, st, -, hst, hp, ho, -⟩ := produceCheck_passed hcheck
  have hstand := standing_of_get hst
  rw [hp, ho] at hstand
  obtain ⟨g, hg, -, hgp⟩ := hinv.fenced.exists_grant hst
  have hpass : Passed H sys.broker.txn (batchOf eos q, H.watch.serial (eos.producerId, eos.producerEpoch)) := by
    refine ⟨⟨g, hg, hgp.trans hp⟩, le_rfl, fun _ u hu => ?_⟩
    obtain rfl := hinv.fenced.producer_inj hu hstand rfl
    rw [hstand] at hu
    cases hu
  have hgrow : Grows H sys.broker
      { H with watch := H.watch.observe conn (.produce job q) (.running (.bufferTxn job eos q)) }
      sys.broker :=
    .adds (fun _ => prefix_rfl) rfl rfl fun _ => Subset.refl _
  exact ⟨{ H with watch := H.watch.observe conn (.produce job q) (.running (.bufferTxn job eos q)) },
    hinv.assemble (hinv.toBrokerInv.stored hget rfl hinv.good (fun _ => id) rfl) hgrow
    (fun c hc => ⟨update_of_ne hc _ _, rfl⟩) .refl
    ⟨hq, done, H.watch.checked conn, _, update_self _ _ _, hpass.grows hgrow, hjob.grows hgrow⟩, rfl⟩

/-- A batch is buffered, or turned away by the contract. -/
theorem bufferTxn (hinv : AckInv H sys) {eos : EosCoord} (hget : sys.conns.get conn = some (.bufferTxn job eos q))
    (order : KeyOrder BufferKey) :
    Goes H sys conn (.bufferTxn job eos q) ((bufferTxn job eos q).call order sys.broker) := by
  obtain ⟨hq, done, older, number, hchecked, hpass, hjob⟩ := hinv.busy conn _ hget
  -- the buffers only grow
  have hadds : ∀ o store, (BrokerStore.bufferTxn .none
      ⟨eos.producerId, eos.producerEpoch, q.tp⟩ q.values).run sys.broker.store = (o, store) →
      Adds sys.broker.store store := by
    intro o store hrun
    cases o with
    | ok base =>
      obtain ⟨hg, -, hc, hb, -⟩ := bufferTxn_ok hinv.good hrun
      refine .of_buffered hg (fun tp => hc ▸ prefix_rfl) fun k => ?_
      rw [hb]
      split_ifs with hk
      · rw [hk]
        exact (prefix_append _ _).isInfix
      · exact infix_rfl
    | stop w =>
      obtain ⟨hg, -, hc, hb⟩ := bufferTxn_stop hinv.good hrun
      exact .of_buffered hg (fun tp => hc ▸ prefix_rfl) fun k =>
        buffered_congr hb k ▸ infix_rfl
  refine hinv.storeEntry hget rfl (fun w => ⟨fun _ _ => rfl, fun a => by cases a <;> rfl, rfl⟩) hadds
    (fun base store hrun => ?_) (fun code hcode => ⟨done ++ [q], ?_⟩)
  · obtain ⟨hgood, -, hc, hb, -⟩ := bufferTxn_ok hinv.good hrun
    have hold : ∀ r, H.taken r ⊆ (H.take (batchOf eos q) number).taken r := fun r y hy =>
      History.mem_take.2 (.inl hy)
    have hgrow : Grows H sys.broker (H.take (batchOf eos q) number) { sys.broker with store := store } :=
      .adds (hadds _ _ hrun).contents rfl rfl hold
    refine ⟨H.take (batchOf eos q) number, ?_, rfl, hgrow, done ++ [q], ?_⟩
    · refine
        { fenced := hinv.fenced
          good := hgood
          own := fun r x hx => ?_
          fresh := fun r hr => (if_neg ?_).trans (hinv.fresh r hr)
          idle := fun u r hu => (if_neg ?_).trans (hinv.idle u r hu)
          acked := fun r => Subset.trans (hinv.acked r) (hold r)
          kept := fun u r hu hd x hx => ?_ }
      · rcases History.mem_take.1 hx with hx | ⟨rfl, rfl, -⟩
        · exact hinv.own r x hx
        · rfl
      · rintro ⟨rfl, -⟩
        exact hr hpass.granted
      · rintro ⟨rfl, hn⟩
        exact hpass.running hn u hu
      · rcases History.mem_take.1 hx with hx | ⟨rfl, rfl, -⟩
        · exact (hadds _ _ hrun).kept x (hinv.kept u r hu (fun hdisc => hd (hdisc.put (System.ne_of_discards hget rfl))) x hx)
        · refine .inl ?_
          change q.values <:+: store.buffered ⟨eos.producerId, eos.producerEpoch, q.tp⟩
          rw [hb, if_pos rfl]
          exact (suffix_append _ _).isInfix
    · rw [hchecked]
      refine (hjob.grows hgrow).recordBatch hq (hpass.grows hgrow) fun _ hn => ?_
      exact History.mem_take.2 (.inr ⟨rfl, rfl, hn⟩)
  · rw [hchecked]
    exact hjob.recordBatch hq hpass fun hzero => absurd hzero hcode

/-- The loop of `produce_results` reaches an entry. -/
theorem produce (hinv : AckInv H sys) (hget : sys.conns.get conn = some (.produce job q)) (order : KeyOrder BufferKey) :
    Goes H sys conn (.produce job q) ((produce job q).call order sys.broker) := by
  obtain ⟨hq, done, hjob⟩ := hinv.busy conn _ hget
  have hnote : NotesAnswer conn (.produce job q) := fun w => ⟨fun _ _ => rfl, fun a => by cases a <;> rfl, rfl⟩
  cases hf : q.eos.filter (·.transactional) with
  | some eos =>
    by_cases hcheck : sys.broker.txn.produceCheck eos.producerId eos.producerEpoch q.tp = 0
    · simp only [call, hf, if_pos hcheck]
      exact hinv.checkPassed hget hcheck
    · simp only [call, hf, if_neg hcheck]
      exact hinv.entryDone hnote (hinv.toBrokerInv.stored hget rfl hinv.good (fun _ => id) rfl) rfl
        (.stored fun _ => prefix_rfl) .refl (hjob.record _)
  | none =>
    -- a plain batch goes to the log at once
    have hadds : ∀ o store, (BrokerStore.produce .none q.tp q.values).run sys.broker.store =
        (o, store) → Adds sys.broker.store store := by
      intro o store hrun
      obtain ⟨hg, hb, hc, -⟩ := produceInto_run hinv.good
        (show DiskFault.none.left q.values.length = some q.values.length from rfl) hrun
      exact .of_buffered hg hc fun k => buffered_congr hb k ▸ infix_rfl
    simp only [call, hf]
    refine hinv.storeEntry hget rfl hnote hadds (fun base store hrun => ⟨H, ?_, rfl,
      .stored (hadds _ _ hrun).contents, done ++ [q], hjob.record _⟩)
      (fun code _ => ⟨done ++ [q], hjob.record _⟩)
    exact hinv.toBrokerInv.stored hget rfl (hadds _ _ hrun).good (hadds _ _ hrun).kept rfl

/-- After the flush all that had been acknowledged is in the logs. -/
theorem connInv_afterFlush {b : Broker S} (group : Option String)
    (offsets : List (TopicPartition × ℤ)) (hc : H.watch.checked conn = [])
    (hm : ∀ x ∈ H.watch.must conn, x.Landed b.store) :
    ConnInv H b conn (afterFlush t p e group offsets) := by
  cases group with
  | none => exact ⟨hc, fun _ => hm⟩
  | some g =>
    cases offsets with
    | nil => exact ⟨hc, fun _ => hm⟩
    | cons entry rest => exact ⟨hc, hm⟩

/-- A call of `fetch`. -/
theorem fetched (hinv : AckInv H sys) {o m : ℤ}
    (hget : sys.conns.get conn = some (.fetch tp o m)) {out : Outcome ErrorKind (List ρ)}
    (hrun : (onRecords (S.fetch tp o m)).run sys.broker.store = (out, store))
    (hself : ConnAfter H { sys.broker with store := store } conn progress) :
    AckInv H (sys.after conn ({ sys.broker with store := store }, progress)) := by
  obtain ⟨hgood, hc, hb⟩ := fetch_run hinv.good hrun
  have hadds : Adds sys.broker.store store := .of_buffered hgood (fun _ => hc ▸ prefix_rfl) fun k =>
    buffered_congr hb k ▸ infix_rfl
  exact hinv.storeQuiet hget rfl hgood hadds.contents (fun _ _ _ _ x _ => hadds.kept x) (.of_kept hadds.kept) hself

/-- **Every undisturbed call keeps the invariant.** -/
theorem call (hinv : AckInv H sys) (hget : sys.conns.get conn = some h) (order : KeyOrder BufferKey)
    (hok : Undisturbed sys (.call conn order)) :
    Goes H sys conn h (h.call order sys.broker) := by
  have hconn := hinv.busy conn h hget
  simp only [Undisturbed, hget] at hok
  cases h with
  | initProducerId t =>
    cases t with
    | none =>
      exact .unseen (hinv.quiet hget rfl hinv.fenced hinv.good (fun _ _ o hu => ⟨o, hu, id⟩)
        (fun _ => prefix_rfl) (fun _ _ _ _ _ _ hk => hk) .refl hconn) hconn rfl
    | some t => exact hinv.granted hget hok
  | initAbort pair =>
    exact .unseen (hinv.aborted pair [] hget rfl hconn.2 hok.2 hconn.1 fun t ht => absurd ht (hok.1 t)) hconn.1 rfl
  | addPartitions t p e ps =>
    exact .unseen (hinv.coordinator (.addPartitions t p e ps) hget rfl (by simp) (by simp) hconn)
      hconn rfl
  | addOffsets t p e g =>
    exact .unseen (hinv.coordinator (.addOffsets t p e g) hget rfl (by simp) (by simp) hconn)
      hconn rfl
  | stageOffsets t p e os =>
    exact .unseen (hinv.coordinator (.stageOffsets t p e os) hget rfl (by simp) (by simp) hconn)
      hconn rfl
  | endTxn t p e commit =>
    have hsame : ∀ {pr : Progress ρ}, ConnAfter H sys.broker conn pr → AckInv H (sys.after conn (sys.broker, pr)) :=
      fun hself => hinv.storeQuiet hget rfl hinv.good (fun _ => prefix_rfl) (fun _ _ _ _ _ _ hk => hk) .refl hself
    rcases sys.broker.txn.endTxn_cases t p e commit with ⟨code, hcode, heq⟩ | ⟨st, hg, hp, ho, heq⟩
    · have hcode' : code ≠ 0 := by rcases hcode with rfl | rfl <;> decide
      simp only [call, heq, rejectedEnd, ne_eq, hcode', not_false_eq_true, if_true]
      exact .unseen (hsame hconn) hconn rfl
    · cases commit with
      | true =>
        simp only [call, heq, errorNone, ne_eq, not_true, if_false, if_true]
        exact hinv.prepared hget hg hp ho hok
      | false =>
        obtain ⟨g, hgs, -, hgp⟩ := hinv.fenced.exists_grant hg
        simp only [call, heq, errorNone, ne_eq, not_true, if_false, Bool.false_eq_true]
        exact .unseen (hsame ⟨hconn, g, hgs, hgp.trans hp⟩) hconn rfl
  | commitTxn t p e out =>
    obtain ⟨hchecked, -, hmust⟩ := hconn
    rcases hrun : (BrokerStore.commitTxn (calmCommit order) p e out.partitions).run
      sys.broker.store with ⟨⟨⟩ | w, store⟩
    · simp only [call, hrun]
      refine .unseen (hinv.commitTxn hget hok hrun (connInv_afterFlush _ _ hchecked fun x hx => ?_)) hchecked rfl
      obtain ⟨-, hc, -, -, hland⟩ := commitTxn_calm hinv.good hrun
      obtain ⟨hp, hk | hk⟩ := hmust x hx
      · rw [hp] at hk
        exact hk.trans (hland rfl x.tp)
      · exact hk.trans (hc x.tp).isInfix
    · cases w <;> simp only [call, hrun] <;>
        exact .unseen (hinv.commitTxn hget hok hrun hchecked) hchecked rfl
  | commitOffset t p e g tp o rest =>
    exact .unseen (hinv.storeQuiet hget rfl ⟨hinv.good.sound, hinv.good.valid⟩ (fun _ => prefix_rfl)
      (fun _ _ _ _ _ _ hk => hk) (.of_kept fun _ => id) (connInv_afterFlush _ _ hconn.1 hconn.2)) hconn.1 rfl
  | abortTxn t p e out =>
    exact .unseen (hinv.aborted (p, e) out.partitions hget rfl hconn.2 hok ⟨hconn.1, by simp⟩
      fun _ _ => ⟨conn, t, get_insert_self _ _ _⟩) hconn.1 rfl
  | finishTxn t p e commit => exact hinv.finished hget
  | produce job q => exact hinv.produce hget order
  | bufferTxn job eos q => exact hinv.bufferTxn hget order
  | fetch tp o m =>
    rcases hrun : (onRecords (S.fetch tp o m)).run sys.broker.store with
      ⟨rs | w, store⟩
    · simp only [call, hrun]
      exact .unseen (hinv.fetched hget hrun hconn) hconn rfl
    · cases w <;> simp only [call, hrun] <;> exact .unseen (hinv.fetched hget hrun hconn) hconn rfl

/-- A request arrives on a connection that is not busy. -/
theorem arrive (hinv : AckInv H sys) (hget : sys.conns.get conn = none) (wire : Wire ρ)
    (hok : Undisturbed sys (.arrive conn wire)) :
    AckInv H (sys.after conn (sys.broker, start wire)) := by
  have hchecked := hinv.free conn hget
  have hstart : ∀ {pr : Progress ρ}, ConnAfter H sys.broker conn pr →
      AckInv H (sys.after conn (sys.broker, pr)) := fun hself =>
    hinv.assemble ⟨hinv.fenced, hinv.good, hinv.own, hinv.fresh, hinv.idle, hinv.acked,
      fun t q ht hd x hx => hinv.kept t q ht (fun hdisc => hd (hdisc.put fun _ => by simp [hget])) x hx⟩
      (.stored fun _ => prefix_rfl) (fun _ _ => ⟨rfl, rfl⟩) .refl hself
  -- a `Produce` begins with no entry done
  have hproduce : ∀ acks entries, (entries.map fun q : ProducedPartition ρ => q.tp).Nodup →
      ConnAfter H sys.broker conn (ProduceJob.start acks entries) := by
    intro acks entries hnd
    have hjob : JobInv H sys.broker.txn
        { acks := acks, entries := entries, todo := entries, results := .empty } [] entries [] :=
      ⟨rfl, hnd, nofun⟩
    rcases hjob.next with ⟨q, rest, done', hnext, hq, hjob'⟩ | hnext | ⟨hnext, -⟩ <;>
      rw [ProduceJob.start, hnext]
    · exact ⟨hq, done', hchecked ▸ hjob'⟩
    · exact hchecked
    · exact hchecked
  refine hstart ?_
  cases wire with
  | produce acks entries => exact hproduce acks entries hok
  | request r =>
    cases r with
    | produce q => exact hproduce 1 [q] (by simp)
    | _ => exact hchecked

/-- Before the first request. -/
theorem new : AckInv { watch := .new, gs := [], taken := fun _ => [] } (System.new S) where
  fenced := .new _
  good := good_new
  own _ _ hx := by cases hx
  fresh _ _ := rfl
  idle _ _ _ := rfl
  acked _ := Subset.refl _
  kept _ _ _ _ _ hx := by cases hx
  busy _ _ hc := by cases hc
  free _ _ := rfl

/-- The invariant holds along every undisturbed schedule. -/
theorem run (events : List (Event ρ)) (hok : (scheduleMachine S).Guarded Undisturbed (.new S) events) :
    ∃ H : History ρ, AckInv H ((scheduleMachine S).final (.new S) events) ∧
      H.watch = .ofTrace ((scheduleMachine S).trace (.new S) events) := by
  refine (scheduleMachine S).invariant_of_step Undisturbed
    (fun trace sys => ∃ H : History ρ, AckInv H sys ∧ H.watch = .ofTrace trace) ?_ (.new S) events []
    hok ⟨_, new, rfl⟩
  rintro trace sys event hok ⟨H, hinv, hw⟩
  cases event with
  | arrive conn wire =>
    cases hget : sys.conns.get conn with
    | none =>
      simp only [scheduleMachine, hget, Watch.ofTrace, foldl_append]
      exact ⟨H, hinv.arrive hget wire hok, hw⟩
    | some h =>
      simp only [scheduleMachine, hget, Watch.ofTrace, foldl_append]
      exact ⟨H, hinv, hw⟩
  | call conn order =>
    cases hget : sys.conns.get conn with
    | none =>
      simp only [scheduleMachine, hget, Watch.ofTrace, foldl_append]
      exact ⟨H, hinv, hw⟩
    | some h =>
      obtain ⟨H', hinv', hw'⟩ := hinv.call hget order hok
      simp only [scheduleMachine, hget, Watch.ofTrace, foldl_append]
      exact ⟨H', hinv', by rw [hw', hw]; rfl⟩

end AckInv

/-- A connection that no event is about stays as it is. -/
theorem get_final_of_unused {c : ℕ} (events : List (Event ρ)) (sys : System S)
    (hc : ∀ event ∈ events, c ≠ event.conn) :
    ((scheduleMachine S).final sys events).conns.get c = sys.conns.get c := by
  induction events generalizing sys with
  | nil => rfl
  | cons event events ih =>
    obtain ⟨hne, hc⟩ := forall_mem_cons.1 hc
    rw [Machine.final_cons, ih _ hc]
    cases event with
    | arrive conn wire =>
      cases hget : sys.conns.get conn with
      | none =>
        simp only [scheduleMachine, hget]
        exact System.get_put_of_ne hne
      | some h => simp only [scheduleMachine, hget]
    | call conn order =>
      cases hget : sys.conns.get conn with
      | none => simp only [scheduleMachine, hget]
      | some h =>
        simp only [scheduleMachine, hget]
        exact System.get_put_of_ne hne

/-- The call is one of the two of an `InitProducerId`. -/
def Handler.isGrant : Handler ρ → Bool
  | .initProducerId _ | .initAbort _ => true
  | _ => false

/-- The call is one of a plain `Produce` or of a `Fetch`, or checks an entry of a `Produce`. -/
def Handler.isPlain : Handler ρ → Bool
  | .produce _ _ | .fetch _ _ _ => true
  | _ => false

/-- Once its `InitProducerId` is over, a connection disturbs nobody while the others only produce and fetch. -/
theorem undisturbed_of_plain (order : KeyOrder BufferKey)
    (hothers : ∀ c, c ≠ conn → (sys.conns.get c).all (·.isPlain) = true)
    (hgrant : (sys.conns.get conn).all (fun h => !h.isGrant) = true) :
    Undisturbed sys (.call conn order) := by
  have hown : ∀ {c h}, sys.conns.get c = some h → h.isPlain = false → sys.conns.get conn = some h :=
    fun {c h} hc hh => by
    by_cases hcc : c = conn
    · exact hcc ▸ hc
    · have hplain := hothers c hcc
      rw [hc, Option.all_some, hh] at hplain
      cases hplain
  cases hget : sys.conns.get conn with
  | none => simp only [Undisturbed, hget]
  | some h =>
    rw [hget] at hgrant
    simp only [Undisturbed, hget]
    cases h with
    | initProducerId t => cases hgrant
    | initAbort pair => cases hgrant
    | abortTxn t p e out =>
      rintro e' - ⟨c, u, out', hc⟩
      cases hget.symm.trans (hown hc rfl)
    | commitTxn t p e out =>
      rintro e' he ⟨c, u, out', hc⟩
      cases hget.symm.trans (hown hc rfl)
      exact lt_irrefl _ he
    | endTxn t p e commit =>
      cases commit with
      | false => trivial
      | true =>
        rintro ⟨c, u, hc⟩
        cases hget.symm.trans (hown hc rfl)
    | _ => trivial

/-- **An acknowledged commit has landed.**  Take any interleaving of the calls of any
number of connections, with storage that does not fail, in which no call disturbs a
commit.  When an `EndTxn(commit)` is answered `0`, and already when it writes a
consumer offset, every batch whose `Produce` into its transaction was answered `0`
before the `EndTxn` was prepared is in its partition log, whole and in order. -/
theorem acknowledged_commit_landed (S : RecordStore ρ) (events : List (Event ρ))
    (hok : (scheduleMachine S).Guarded Undisturbed (.new S) events) (conn : ℕ)
    (order : KeyOrder BufferKey) :
    let sys := (scheduleMachine S).final (.new S) events
    let w := Watch.ofTrace ((scheduleMachine S).trace (.new S) events)
    let r := (scheduleMachine S).step sys (.call conn order)
    (∀ t p e, r.2 = some (.finishTxn t p e true, .answered (.reply (.code 0))) →
      ∀ x ∈ w.must conn, x.values <:+: r.1.broker.store.contents x.tp) ∧
    (∀ t p e g tp o rest progress, r.2 = some (.commitOffset t p e g tp o rest, progress) →
      ∀ x ∈ w.must conn, x.values <:+: r.1.broker.store.contents x.tp) := by
  intro sys w r
  obtain ⟨H, hinv, hw⟩ := AckInv.run events hok
  have hr : r = (scheduleMachine S).step sys (.call conn order) := rfl
  cases hget : sys.conns.get conn with
  | none =>
    simp only [scheduleMachine, hget] at hr
    rw [hr]
    refine ⟨fun t p e hf => ?_, fun t p e g tp o rest progress hf => ?_⟩ <;> cases hf
  | some h =>
    have hconn := hinv.busy conn h hget
    simp only [scheduleMachine, hget] at hr
    rw [hr]
    refine ⟨fun t p e hf => ?_, fun t p e g tp o rest progress hf => ?_⟩
    · obtain rfl : h = .finishTxn t p e true := (Prod.mk.inj (some.inj hf)).1
      rw [show w = H.watch from hw.symm]
      exact hconn.2 rfl
    · obtain rfl : h = .commitOffset t p e g tp o rest := (Prod.mk.inj (some.inj hf)).1
      rw [show w = H.watch from hw.symm]
      exact hconn.2

end

end

/-- The order of the insertions. -/
def listed : KeyOrder BufferKey := ⟨id, Perm.refl⟩

/-- A connection produces `7` in a transaction and prepares and flushes its commit; another one produces `9` on the
same partition and fetches between these calls. -/
def sharedCommit : List (Event ℕ) :=
  [.arrive 1 (.request (.initProducerId (some "t"))), .call 1 listed, .call 1 listed,
    .arrive 1 (.request (.addPartitions "t" 1099511627776 0 [⟨"a", 0⟩])), .call 1 listed,
    .arrive 1 (.produce 1 [⟨⟨"a", 0⟩, [7], some ⟨1099511627776, 0, 0, 1, true⟩, none⟩]), .call 1 listed,
    .arrive 2 (.produce 1 [⟨⟨"a", 0⟩, [9], none, none⟩]), .call 1 listed,
    .arrive 1 (.request (.endTxn "t" 1099511627776 0 true)), .call 1 listed, .call 2 listed,
    .arrive 2 (.request (.fetch ⟨"a", 0⟩ 0 100)), .call 1 listed, .call 2 listed]

/-- No call of it disturbs the commit: the second connection neither ends nor takes over a transaction. -/
theorem sharedCommit_undisturbed : (scheduleMachine (.lists ℕ)).Guarded Undisturbed (.new _) sharedCommit := by
  have hunused : ∀ k c, c ≠ 1 → c ≠ 2 →
      ((scheduleMachine (.lists ℕ)).final (.new _) (sharedCommit.take k)).conns.get c = none := by
    intro k c h1 h2
    have hconn : ∀ event ∈ sharedCommit, event.conn = 1 ∨ event.conn = 2 := by simp [sharedCommit, Event.conn]
    rw [get_final_of_unused _ _ fun event hevent => ?_]
    · rfl
    · rcases hconn event (mem_of_mem_take hevent) with h | h <;> rw [h] <;> assumption
  have hplain : ∀ k, (((scheduleMachine (.lists ℕ)).final (.new _) (sharedCommit.take k)).conns.get 2).all
      (·.isPlain) = true → ∀ c, c ≠ 1 →
      (((scheduleMachine (.lists ℕ)).final (.new _) (sharedCommit.take k)).conns.get c).all (·.isPlain) = true := by
    intro k h2 c h1
    by_cases hc : c = 2
    · exact hc ▸ h2
    · rw [hunused k c h1 hc, Option.all_none]
  refine Machine.guarded_of_take _ _ _ fun k event hk => ?_
  match k, hk with
  | 0, rfl | 3, rfl | 9, rfl | 11, rfl | 12, rfl | 14, rfl => trivial
  | 1, rfl => exact (by decide : CounterSafe (.new 1099511627776) (.initProducerId "t"))
  | 2, rfl =>
    refine ⟨fun u hu => ?_, ?_⟩
    · rw [standing_of_insert (c := .new 1099511627776) rfl] at hu
      split_ifs at hu with hut
      · cases hu
      · cases hu
    · rintro e - ⟨c, u, out, hc⟩
      by_cases h1 : c = 1
      · subst h1
        cases hc
      · have hall := hplain 2 (by decide +kernel) c h1
        rw [hc] at hall
        cases hall
  | 5, rfl | 7, rfl => exact nodup_singleton _
  | 4, rfl => exact undisturbed_of_plain listed (hplain 4 (by decide +kernel)) (by decide +kernel)
  | 6, rfl => exact undisturbed_of_plain listed (hplain 6 (by decide +kernel)) (by decide +kernel)
  | 8, rfl => exact undisturbed_of_plain listed (hplain 8 (by decide +kernel)) (by decide +kernel)
  | 10, rfl => exact undisturbed_of_plain listed (hplain 10 (by decide +kernel)) (by decide +kernel)
  | 13, rfl => exact undisturbed_of_plain listed (hplain 13 (by decide +kernel)) (by decide +kernel)

/-- The committed record has landed, behind the one that was produced meanwhile. -/
theorem acknowledged_commit_landed_shared :
    let M := scheduleMachine (.lists ℕ)
    let sys := M.final (.new _) sharedCommit
    let w := Watch.ofTrace (M.trace (.new _) sharedCommit)
    let r := M.step sys (.call 1 listed)
    r.2 = some (.finishTxn "t" 1099511627776 0 true, .answered (.reply (.code 0))) ∧
      w.must 1 = [⟨(1099511627776, 0), ⟨"a", 0⟩, [7]⟩] ∧ r.1.broker.store.contents ⟨"a", 0⟩ = [9, 7] ∧
      ∀ x ∈ w.must 1, x.values <:+: r.1.broker.store.contents x.tp := by
  have hlanded := acknowledged_commit_landed (.lists ℕ) sharedCommit sharedCommit_undisturbed 1 listed
  exact ⟨rfl, by decide, by decide, hlanded.1 "t" 1099511627776 0 rfl⟩

/-- A commit is prepared, a new instance of the producer is granted the id and discards
the buffers of the old one, and the commit goes on. -/
def fencedCommit : List (Event ℕ) :=
  [.arrive 1 (.request (.initProducerId (some "t"))), .call 1 listed, .call 1 listed,
    .arrive 1 (.request (.addPartitions "t" 1099511627776 0 [⟨"a", 0⟩])), .call 1 listed,
    .arrive 1 (.request (.addOffsets "t" 1099511627776 0 "g")), .call 1 listed,
    .arrive 1 (.request (.txnOffsetCommit "t" "g" 1099511627776 0 [(⟨"b", 0⟩, 5)])), .call 1 listed,
    .arrive 1 (.produce 1 [⟨⟨"a", 0⟩, [7], some ⟨1099511627776, 0, 0, 1, true⟩, none⟩]),
    .call 1 listed, .call 1 listed,
    .arrive 1 (.request (.endTxn "t" 1099511627776 0 true)), .call 1 listed,
    .arrive 2 (.request (.initProducerId (some "t"))), .call 2 listed, .call 2 listed,
    .call 1 listed, .call 1 listed]

/-- **The commit is answered `0` and its consumer offset is written, but the record it
acknowledged is gone.** -/
theorem fenced_commit_acknowledged :
    let M := scheduleMachine (.lists ℕ)
    let sys := M.final (.new _) fencedCommit
    let w := Watch.ofTrace (M.trace (.new _) fencedCommit)
    let r := M.step sys (.call 1 listed)
    w.must 1 = [⟨(1099511627776, 0), ⟨"a", 0⟩, [7]⟩] ∧
      r.2 = some (.finishTxn "t" 1099511627776 0 true, .answered (.reply (.code 0))) ∧
      r.1.broker.store.contents ⟨"a", 0⟩ = [] ∧
      r.1.broker.store.offsets = [(offsetKey "g" ⟨"b", 0⟩, 5)] := by
  refine ⟨by decide, rfl, by decide, by decide⟩

end Datarail.Kafka
