/-
# The outcomes of a `Produce` request

`produce_results` and `handle_ingest_produce` of `crates/datarail-kafka/src/serve.rs`
and `produce_response` of `produce.rs`, over requests of any shape.  Both modes act
upon the entries one after the other, keep the outcomes in a map under
`(topic, partition)` and look them up there for the response.

An entry therefore has its own outcome in the response of every broker and every
sink exactly if no two entries that are acted upon name one partition
(`own_outcome_iff_distinct`).  Of two that do, the first is answered with the
outcome of the second (`repeated_partition_acked`).

The broker is its trait, `KafkaBroker`: a call may return, fail or not return, and
change what the next one sees, so that other connections are in it.
-/

import Datarail.Kafka.Produce
import Datarail.Lib.Gather

namespace Datarail.Kafka

open Lib List

/-- What `produce_results` asks of the broker and of the transaction coordinator. -/
structure KafkaBroker (σ ρ : Type) where
  /-- `produce_check`: the code for a transactional batch. -/
  produceCheck : σ → ℤ → ℤ → TopicPartition → ℤ
  bufferTxn : ℤ → ℤ → TopicPartition → List ρ → Action ErrorKind σ ℤ
  produce : TopicPartition → List ρ → Action ErrorKind σ ℤ

/-- The outcome of an entry. -/
inductive Landing where
  /-- The store returned the base offset: the batch is landed or buffered. -/
  | landed (base : ℤ)
  | refused (code : ℤ)
  deriving DecidableEq

/-- The pair `(base_offset, error_code)`. -/
def Landing.reply : Landing → ℤ × ℤ
  | .landed base => (base, 0)
  | .refused code => (-1, code)

/-- The two `match`es on a store call: an error becomes a code. -/
def caught {σ : Type} (x : Action ErrorKind σ ℤ) : Action ErrorKind σ Landing := ⟨fun s =>
  match x.run s with
  | (.ok base, t) => (.ok (.landed base), t)
  | (.stop (.failed kind), t) => (.ok (.refused (Broker.produceErrorCode kind)), t)
  | (.stop .panicked, t) => (.stop .panicked, t)
  | (.stop .died, t) => (.stop .died, t)⟩

namespace KafkaBroker

variable {σ ρ : Type} (B : KafkaBroker σ ρ)

/-- The loop body of `produce_results`. -/
def land (p : ProducedPartition ρ) : Action ErrorKind σ Landing :=
  match p.eos.filter (·.transactional) with
  | some eos => do
      let s ← Action.read
      let code := B.produceCheck s eos.producerId eos.producerEpoch p.tp
      if code = 0 then caught (B.bufferTxn eos.producerId eos.producerEpoch p.tp p.values)
      else pure (.refused code)
  | none => caught (B.produce p.tp p.values)

/-- `produce_results`: an entry that the parser rejected is skipped. -/
def produceResults (ps : List (ProducedPartition ρ)) : Action ErrorKind σ (Table TopicPartition Landing) :=
  gather (fun p => p.errorCode.isSome) ProducedPartition.tp B.land ps .empty

/-- The outcome of each entry's own calls. -/
def outcomes (ps : List (ProducedPartition ρ)) (s : σ) : List (Option Landing) :=
  ownOutcomes (fun p => p.errorCode.isSome) B.land ps s

end KafkaBroker

/-- `produce_response`: the base offset and the code of each entry, the closure having a state of its own. -/
def produceResponse {ρ τ : Type} (outcomeFor : τ → TopicPartition → ℕ → (ℤ × ℤ) × τ) :
    τ → List (ProducedPartition ρ) → List (ℤ × ℤ) × τ
  | t, [] => ([], t)
  | t, p :: ps =>
    let ((base, errorCode), t) :=
      match p.errorCode with
      | some code => ((-1, code), t)
      | none => outcomeFor t p.tp p.values.length
    ((base, errorCode) :: (produceResponse outcomeFor t ps).1, (produceResponse outcomeFor t ps).2)

/-- `API_PRODUCE` of `handle_broker_request`: the entries of the response. -/
def KafkaBroker.handleProduce {σ ρ : Type} (B : KafkaBroker σ ρ) (ps : List (ProducedPartition ρ)) :
    Action ErrorKind σ (List (ℤ × ℤ)) := do
  let results ← B.produceResults ps
  return (produceResponse (fun _ tp _ => (((results.get tp).map Landing.reply).getD (0, 0), ())) () ps).1

/-- How a batch that was handed to the integration layer ends. -/
inductive Delivery where
  /-- The channel is closed. -/
  | unreachable
  /-- The other end went away without an answer. -/
  | lost
  | landed
  | failed (kind : ErrorKind)
  deriving DecidableEq

/-- The code of a delivery. -/
def Delivery.code : Delivery → ℤ
  | .unreachable => 56
  | .lost => 56
  | .landed => 0
  | .failed kind => Broker.produceErrorCode kind

/-- The integration layer behind the channel. -/
structure IngestSink (σ ρ : Type) where
  deliver : ProducedPartition ρ → Action ErrorKind σ Delivery

/-- `MAX_OFFSET_KEYS`. -/
def maxOffsetKeys : ℕ := 100000

/-- The closure of `handle_ingest_produce`: the base offset, the code, and the offsets after a success. -/
def ingestOutcome (codes : Table TopicPartition Delivery) (offsets : AList fun _ : TopicPartition => ℤ)
    (tp : TopicPartition) (count : ℕ) : (ℤ × ℤ) × AList fun _ : TopicPartition => ℤ :=
  let base := (offsets.lookup tp).getD 0
  let code := ((codes.get tp).map Delivery.code).getD 0
  if code = 0 ∧ (tp ∈ offsets ∨ offsets.entries.length < maxOffsetKeys) then
    ((base, code), offsets.insert tp (min (base + count) i64Max))
  else ((base, code), offsets)

namespace IngestSink

variable {σ ρ : Type} (sink : IngestSink σ ρ)

/-- `handle_ingest_produce`: an entry without records is skipped. -/
def handleProduce (offsets : AList fun _ : TopicPartition => ℤ) (ps : List (ProducedPartition ρ)) :
    Action ErrorKind σ (List (ℤ × ℤ) × AList fun _ : TopicPartition => ℤ) := do
  let codes ← gather (fun p => p.values.isEmpty) ProducedPartition.tp sink.deliver ps .empty
  return produceResponse (ingestOutcome codes) offsets ps

/-- The outcome of each entry's own delivery. -/
def outcomes (ps : List (ProducedPartition ρ)) (s : σ) : List (Option Delivery) :=
  ownOutcomes (fun p => p.values.isEmpty) sink.deliver ps s

end IngestSink

section Codes

theorem produceErrorCode_ne_zero (kind : ErrorKind) : Broker.produceErrorCode kind ≠ 0 := by
  cases kind <;> decide

theorem Delivery.code_eq_zero {d : Delivery} : d.code = 0 ↔ d = .landed := by
  cases d with
  | unreachable => exact ⟨fun h => absurd h (by decide), nofun⟩
  | lost => exact ⟨fun h => absurd h (by decide), nofun⟩
  | landed => exact ⟨fun _ => rfl, fun _ => rfl⟩
  | failed kind => exact ⟨fun h => absurd h (produceErrorCode_ne_zero kind), nofun⟩

/-- A store call that is answered with code `0` returned. -/
theorem caught_landed {σ : Type} {x : Action ErrorKind σ ℤ} {s t : σ} {l : Landing}
    (h : (caught x).run s = (.ok l, t)) (hcode : l.reply.2 = 0) :
    ∃ base, l = .landed base ∧ x.run s = (.ok base, t) := by
  simp only [caught] at h
  rcases hx : x.run s with ⟨base | (kind | _ | _), u⟩
  · rw [hx] at h
    cases h
    exact ⟨base, rfl, rfl⟩
  · rw [hx] at h
    cases h
    exact absurd hcode (produceErrorCode_ne_zero kind)
  · rw [hx] at h
    cases h
  · rw [hx] at h
    cases h

/-- **Code `0` means landed or buffered.** -/
theorem KafkaBroker.land_landed {σ ρ : Type} {B : KafkaBroker σ ρ} {p : ProducedPartition ρ} {s t : σ} {l : Landing}
    (h : (B.land p).run s = (.ok l, t)) (hcode : l.reply.2 = 0) : ∃ base, l = .landed base := by
  unfold land at h
  split at h
  · rename_i eos _
    simp only [Action.read_bind] at h
    split_ifs at h with hcheck
    · obtain ⟨base, hl, -⟩ := caught_landed h hcode
      exact ⟨base, hl⟩
    · cases h
      exact absurd hcode hcheck
  · obtain ⟨base, hl, -⟩ := caught_landed h hcode
    exact ⟨base, hl⟩

end Codes

section Response

variable {ρ τ : Type} {outcomeFor : τ → TopicPartition → ℕ → (ℤ × ℤ) × τ}

/-- An entry of the response: the parser's code, or what the closure says of the partition. -/
theorem getElem?_produceResponse {ps : List (ProducedPartition ρ)} {t : τ} {i : ℕ} {p : ProducedPartition ρ}
    {r : ℤ × ℤ} (hp : ps[i]? = some p) (hr : (produceResponse outcomeFor t ps).1[i]? = some r) :
    (∃ code, p.errorCode = some code ∧ r = (-1, code)) ∨
      (p.errorCode = none ∧ ∃ u, r = (outcomeFor u p.tp p.values.length).1) := by
  induction ps generalizing t i with
  | nil => cases hp
  | cons q ps ih =>
    cases i with
    | zero =>
      cases hp
      cases hcode : p.errorCode with
      | some code =>
        simp only [produceResponse, hcode] at hr
        cases hr
        exact .inl ⟨code, rfl, rfl⟩
      | none =>
        simp only [produceResponse, hcode] at hr
        cases hr
        exact .inr ⟨rfl, t, rfl⟩
    | succ i => exact ih hp hr

variable (outcomeFor) in
theorem length_produceResponse (t : τ) (ps : List (ProducedPartition ρ)) :
    (produceResponse outcomeFor t ps).1.length = ps.length := by
  induction ps generalizing t with
  | nil => rfl
  | cons p ps ih => exact congrArg (· + 1) (ih _)

end Response

/-! ### The broker of the store is one of them -/

section Store

variable {ρ : Type} {S : RecordStore ρ}

/-- Run an action of the broker's store. -/
def Broker.onStore {α : Type} (x : Action ErrorKind (BrokerStore S) α) : Action ErrorKind (Broker S) α :=
  ⟨fun b => ((x.run b.store).1, { b with store := (x.run b.store).2 })⟩

/-- The broker with its store and its coordinator, under a disk. -/
def Broker.kafkaBroker (S : RecordStore ρ) (disk : DiskFault) : KafkaBroker (Broker S) ρ where
  produceCheck b := b.txn.produceCheck
  bufferTxn p e tp rs := onStore (BrokerStore.bufferTxn disk ⟨p, e, tp⟩ rs)
  produce tp rs := onStore (BrokerStore.produce disk tp rs)

/-- A store call that was answered, as the handler of one entry answers it. -/
theorem Broker.answer_of_caught {b b' : Broker S} {x : Action ErrorKind (BrokerStore S) ℤ} {l : Landing}
    (h : (caught (onStore x)).run b = (.ok l, b')) :
    b.answer x (fun b base => (b, .produced base 0)) (fun e => .produced (-1) (produceErrorCode e)) =
      (b', .produced l.reply.1 l.reply.2) := by
  simp only [caught, onStore] at h
  rcases hx : x.run b.store with ⟨base | (kind | _ | _), store⟩
  all_goals
    simp only [hx] at h
    cases h
  · simp only [answer, hx, Landing.reply]
  · simp only [answer, hx, Landing.reply]

/-- **The loop body over the store** is the handler of one entry. -/
theorem Broker.produceEntry_of_land {b b' : Broker S} {env : Env} {p : ProducedPartition ρ} {l : Landing}
    (hcode : p.errorCode = none) (h : ((kafkaBroker S env.disk).land p).run b = (.ok l, b')) :
    b.produceEntry env p = (b', .produced l.reply.1 l.reply.2) := by
  unfold KafkaBroker.land at h
  rw [produceEntry, hcode, if_neg (by decide)]
  cases heos : p.eos.filter (·.transactional) with
  | none =>
    rw [heos] at h
    exact answer_of_caught h
  | some eos =>
    rw [heos] at h
    simp only [Action.read_bind] at h ⊢
    split_ifs with hcheck
    · rw [if_pos (show (kafkaBroker S env.disk).produceCheck b _ _ _ = 0 from hcheck)] at h
      exact answer_of_caught h
    · rw [if_neg (show ¬ (kafkaBroker S env.disk).produceCheck b _ _ _ = 0 from hcheck)] at h
      cases h
      rfl

end Store

section Own

variable {ρ : Type}

/-- In the response of every broker, an entry with code `0` is one whose own batch was landed or buffered, at
the base offset that the entry carries. -/
def BrokerOwn (ps : List (ProducedPartition ρ)) : Prop :=
  ∀ (σ : Type) (B : KafkaBroker σ ρ) (s t : σ) (rs : List (ℤ × ℤ)), (B.handleProduce ps).run s = (.ok rs, t) →
    ∀ (i : ℕ) (r : ℤ × ℤ), rs[i]? = some r → r.2 = 0 → (B.outcomes ps s)[i]? = some (some (.landed r.1))

/-- In the response over every sink, an entry with records and code `0` is one whose own batch was landed. -/
def IngestOwn (ps : List (ProducedPartition ρ)) : Prop :=
  ∀ (σ : Type) (sink : IngestSink σ ρ) (s t : σ) (offsets offsets' : AList fun _ : TopicPartition => ℤ)
    (rs : List (ℤ × ℤ)), (sink.handleProduce offsets ps).run s = (.ok (rs, offsets'), t) →
    ∀ (i : ℕ) (p : ProducedPartition ρ) (r : ℤ × ℤ), ps[i]? = some p → rs[i]? = some r → r.2 = 0 →
      p.values = [] ∨ (sink.outcomes ps s)[i]? = some (some .landed)

/-- The partitions of the entries that `produce_results` acts upon. -/
def brokerKeys (ps : List (ProducedPartition ρ)) : List TopicPartition :=
  (ps.filter fun p => !p.errorCode.isSome).map ProducedPartition.tp

/-- The partitions of the entries that `handle_ingest_produce` acts upon. -/
def ingestKeys (ps : List (ProducedPartition ρ)) : List TopicPartition :=
  (ps.filter fun p => !p.values.isEmpty).map ProducedPartition.tp

variable {ps : List (ProducedPartition ρ)}

theorem exists_entry {rs : List (ℤ × ℤ)} (hlen : rs.length = ps.length) {i : ℕ} {r : ℤ × ℤ} (hr : rs[i]? = some r) :
    ∃ p, ps[i]? = some p := by
  obtain ⟨hlt, -⟩ := List.getElem?_eq_some_iff.1 hr
  exact ⟨ps[i], getElem?_eq_getElem (hlen ▸ hlt)⟩

theorem brokerOwn_of_nodup (hcodes : ∀ p ∈ ps, p.errorCode ≠ some 0) (h : (brokerKeys ps).Nodup) : BrokerOwn ps := by
  intro σ B s t rs hrun i r hr hzero
  obtain ⟨results, u, hgather, hrest⟩ := Action.bind_eq_ok hrun
  cases hrest
  obtain ⟨p, hp⟩ := exists_entry (length_produceResponse _ () ps) hr
  rcases getElem?_produceResponse hp hr with ⟨code, hcode, rfl⟩ | ⟨hcode, -, rfl⟩
  · obtain rfl : code = 0 := hzero
    exact absurd hcode (hcodes p (mem_of_getElem? hp))
  · have hlen : (B.outcomes ps s).length = ps.length := (gather_ok hgather).2.1
    have hlt : i < ps.length := (List.getElem?_eq_some_iff.1 hp).1
    obtain ⟨o, ho⟩ : ∃ o, (B.outcomes ps s)[i]? = some o := ⟨_, getElem?_eq_getElem (hlen ▸ hlt)⟩
    cases o with
    | none =>
      have := (ownOutcomes_skipped hp ho).2 rfl
      rw [hcode] at this
      cases this
    | some l =>
      rw [get_gather hgather h hp ho] at hzero ⊢
      obtain ⟨_, _, _, -, hland⟩ := exists_run_of_ownOutcomes ho
      obtain ⟨base, rfl⟩ := KafkaBroker.land_landed hland hzero
      exact ho

/-- Every call of the broker returns but the `n`-th. -/
def failingBroker (ρ : Type) (n : ℕ) : KafkaBroker ℕ ρ where
  produceCheck _ _ _ _ := 0
  bufferTxn _ _ _ _ := ⟨fun s => (if s = n then .stop (.failed .other) else .ok 0, s + 1)⟩
  produce _ _ := ⟨fun s => (if s = n then .stop (.failed .other) else .ok 0, s + 1)⟩

theorem land_failingBroker (n : ℕ) : (failingBroker ρ n).land = failAt (.landed 0) (.refused 56) n := by
  have hcaught : ∀ s, (caught (⟨fun s => (if s = n then .stop (.failed .other) else .ok 0, s + 1)⟩ :
      Action ErrorKind ℕ ℤ)).run s = (.ok (if s = n then .refused 56 else .landed 0), s + 1) := by
    intro s
    by_cases hs : s = n
    · simp [caught, hs, Broker.produceErrorCode]
    · simp [caught, hs]
  funext p
  refine congrArg Lib.Action.mk (funext fun s => ?_)
  change ((failingBroker ρ n).land p).run s = _
  unfold KafkaBroker.land
  split
  · exact hcaught s
  · exact hcaught s

theorem nodup_of_brokerOwn (h : BrokerOwn ps) : (brokerKeys ps).Nodup := by
  refine @nodup_of_own _ _ _ ErrorKind _ (fun p : ProducedPartition ρ => p.errorCode.isSome) ProducedPartition.tp
    (Landing.landed 0) (.refused 56) nofun ps 0 fun n u hu hlatest => ?_
  obtain ⟨results, t, hgather⟩ := @gather_failAt _ _ _ ErrorKind _
    (fun p : ProducedPartition ρ => p.errorCode.isSome) ProducedPartition.tp (Landing.landed 0) (.refused 56) n ps
    .empty 0
  have hget := get_gather_eq hgather u.1
  rw [hlatest] at hget
  obtain ⟨i, p, hp, hv, hkey⟩ := exists_of_mem_keyed hu
  rw [← land_failingBroker] at hgather hv
  have hrun := Action.bind_of_ok (f := fun results : Table TopicPartition Landing =>
    pure (produceResponse (fun _ tp _ => (((results.get tp).map Landing.reply).getD (0, 0), ())) () ps).1) hgather
  have hlt := (List.getElem?_eq_some_iff.1 hp).1
  rw [← length_produceResponse (fun _ tp _ => (((results.get tp).map Landing.reply).getD (0, 0), ())) () ps] at hlt
  have hr := getElem?_eq_getElem hlt
  have hcode : p.errorCode = none := by
    have hskip := mt (ownOutcomes_skipped hp hv).1 nofun
    simpa using hskip
  rcases getElem?_produceResponse hp hr with ⟨code, hcode', -⟩ | ⟨-, -, heq⟩
  · rw [hcode] at hcode'
    cases hcode'
  · rw [hkey, hget] at heq
    have hown := h ℕ (failingBroker ρ n) 0 t _ hrun i _ hr (by rw [heq]; rfl)
    rw [heq] at hown
    exact Option.some.inj (Option.some.inj (hv.symm.trans hown))

theorem code_ingestOutcome (codes : Table TopicPartition Delivery) (offsets : AList fun _ : TopicPartition => ℤ)
    (tp : TopicPartition) (count : ℕ) :
    (ingestOutcome codes offsets tp count).1.2 = ((codes.get tp).map Delivery.code).getD 0 := by
  unfold ingestOutcome
  dsimp only
  split_ifs <;> rfl

theorem ingestOwn_of_nodup (hcodes : ∀ p ∈ ps, p.errorCode ≠ some 0) (h : (ingestKeys ps).Nodup) : IngestOwn ps := by
  intro σ sink s t offsets offsets' rs hrun i p r hp hr hzero
  obtain ⟨codes, u, hgather, hrest⟩ := Action.bind_eq_ok hrun
  have hrs : (produceResponse (ingestOutcome codes) offsets ps).1 = rs :=
    congrArg Prod.fst (Outcome.ok.inj (Prod.mk.inj hrest).1)
  rw [← hrs] at hr
  rcases getElem?_produceResponse hp hr with ⟨code, hcode, rfl⟩ | ⟨-, offsets'', rfl⟩
  · obtain rfl : code = 0 := hzero
    exact absurd hcode (hcodes p (mem_of_getElem? hp))
  · rw [code_ingestOutcome] at hzero
    have hlen : (sink.outcomes ps s).length = ps.length := (gather_ok hgather).2.1
    have hlt : i < ps.length := (List.getElem?_eq_some_iff.1 hp).1
    obtain ⟨o, ho⟩ : ∃ o, (sink.outcomes ps s)[i]? = some o := ⟨_, getElem?_eq_getElem (hlen ▸ hlt)⟩
    cases o with
    | none => exact .inl (isEmpty_iff.1 ((ownOutcomes_skipped hp ho).2 rfl))
    | some delivery =>
      rw [get_gather hgather h hp ho] at hzero
      obtain rfl := Delivery.code_eq_zero.1 hzero
      exact .inr ho

theorem nodup_of_ingestOwn (hcodes : ∀ p ∈ ps, p.errorCode ≠ none → p.values = []) (h : IngestOwn ps) :
    (ingestKeys ps).Nodup := by
  refine @nodup_of_own _ _ _ ErrorKind _ (fun p : ProducedPartition ρ => p.values.isEmpty) ProducedPartition.tp
    Delivery.landed (.failed .other) nofun ps 0 fun n u hu hlatest => ?_
  obtain ⟨codes, t, hgather⟩ := @gather_failAt _ _ _ ErrorKind _
    (fun p : ProducedPartition ρ => p.values.isEmpty) ProducedPartition.tp Delivery.landed (.failed .other) n ps
    .empty 0
  have hget := get_gather_eq hgather u.1
  rw [hlatest] at hget
  obtain ⟨i, p, hp, hv, hkey⟩ := exists_of_mem_keyed hu
  have hrun := Action.bind_of_ok (f := fun codes : Table TopicPartition Delivery =>
    pure (produceResponse (ingestOutcome codes) ∅ ps)) hgather
  have hlt := (List.getElem?_eq_some_iff.1 hp).1
  rw [← length_produceResponse (ingestOutcome codes) ∅ ps] at hlt
  have hr := getElem?_eq_getElem hlt
  have hvalues : p.values ≠ [] := by
    have hskip := mt (ownOutcomes_skipped hp hv).1 nofun
    simpa using hskip
  have hown : ∀ r, (produceResponse (ingestOutcome codes) ∅ ps).1[i]? = some r → r.2 = 0 → u.2 = .landed := by
    intro r hr hzero
    have hlanded := (h ℕ ⟨failAt .landed (.failed .other) n⟩ 0 t ∅ _ _ hrun i p r hp hr hzero).resolve_left hvalues
    exact Option.some.inj (Option.some.inj (hv.symm.trans hlanded))
  rcases getElem?_produceResponse hp hr with ⟨code, hcode, -⟩ | ⟨-, offsets, heq⟩
  · exact absurd (hcodes p (mem_of_getElem? hp) (by rw [hcode]; nofun)) hvalues
  · refine hown _ hr ?_
    rw [heq, code_ingestOutcome, hkey, hget]
    rfl

/-- The entries of a request, as the handlers see them. -/
def ProducedRequest.batches (r : ProducedRequest) : List (ProducedPartition Value) :=
  r.entries.map ProducedBlob.toProducedPartition

/-- **An entry gets its own outcome if and only if no other entry names its partition.**  For every request
that the parser accepts: in the responses of all brokers code `0` stands only where the entry's own batch was
landed or buffered, with its own base offset, exactly if no two entries that reach the broker name one
partition; and over all ingest sinks exactly if no two entries with records do. -/
theorem own_outcome_iff_distinct {decompress : Option Decompress} {version : ℤ} {c d : Cursor UInt8}
    {r : ProducedRequest} (hparse : (parseProduce decompress version).run c = .ok (r, d)) :
    (BrokerOwn r.batches ↔ (brokerKeys r.batches).Nodup) ∧ (IngestOwn r.batches ↔ (ingestKeys r.batches).Nodup) := by
  have hrejected := parseProduce_rejected hparse
  have hcodes : ∀ p ∈ r.batches, p.errorCode ≠ some 0 := by
    intro p hp hzero
    obtain ⟨q, hq, rfl⟩ := mem_map.1 hp
    exact absurd (hrejected q hq 0 hzero).1 (by decide)
  have hempty : ∀ p ∈ r.batches, p.errorCode ≠ none → p.values = [] := by
    intro p hp hsome
    obtain ⟨q, hq, rfl⟩ := mem_map.1 hp
    obtain ⟨code, hcode⟩ := Option.ne_none_iff_exists'.1 hsome
    exact (hrejected q hq code hcode).2
  exact ⟨⟨nodup_of_brokerOwn, brokerOwn_of_nodup hcodes⟩, ⟨nodup_of_ingestOwn hempty, ingestOwn_of_nodup hcodes⟩⟩

/-- A request for the partitions `0` and `1` of one topic, with null records. -/
def twoPartitionRequest : List UInt8 :=
  [0, 1, 0, 0, 0, 0, 0, 0, 0, 1, 0, 1, 116, 0, 0, 0, 2, 0, 0, 0, 0, 255, 255, 255, 255, 0, 0, 0, 1, 255, 255, 255, 255]

/-- The hypothesis is satisfiable: a request of two entries is parsed, and its entries get their own outcome. -/
theorem own_outcome_two_partitions : ∃ r d, (parseProduce none 2).run (.new twoPartitionRequest) = .ok (r, d) ∧
      r.batches.map ProducedPartition.tp = [⟨"t", 0⟩, ⟨"t", 1⟩] ∧ BrokerOwn r.batches ∧ IngestOwn r.batches := by
  obtain ⟨r, d, hparse, htps, hbroker, hingest⟩ : ∃ r d, (parseProduce none 2).run (.new twoPartitionRequest) = .ok (r, d) ∧
      r.batches.map ProducedPartition.tp = [⟨"t", 0⟩, ⟨"t", 1⟩] ∧ (brokerKeys r.batches).Nodup ∧
      (ingestKeys r.batches).Nodup := ⟨_, _, rfl, by decide +kernel, by decide +kernel, by decide +kernel⟩
  exact ⟨r, d, hparse, htps, (own_outcome_iff_distinct hparse).1.2 hbroker,
    (own_outcome_iff_distinct hparse).2.2 hingest⟩

/-- Two batches for one partition. -/
def repeatedPartition : List (ProducedPartition (List UInt8)) :=
  [⟨⟨"t", 0⟩, [[1]], none, none⟩, ⟨⟨"t", 0⟩, [[2]], none, none⟩]

/-- **A batch that failed is acknowledged.**  Of two batches for one partition the first fails and the second
lands; the response has code `0` for both, at the second's base offset, in both modes. -/
theorem repeated_partition_acked :
    (failingBroker (List UInt8) 0).outcomes repeatedPartition 0 = [some (.refused 56), some (.landed 0)] ∧
    (((failingBroker (List UInt8) 0).handleProduce repeatedPartition).run 0).1 = .ok [(0, 0), (0, 0)] ∧
    (IngestSink.mk (failAt .landed (.failed .other) 0)).outcomes repeatedPartition 0 =
      [some (.failed .other), some .landed] ∧
    ((((IngestSink.mk (failAt .landed (.failed .other) 0)).handleProduce ∅ repeatedPartition).run 0).1 =
      .ok ([(0, 0), (1, 0)], (∅ : AList fun _ : TopicPartition => ℤ).insert ⟨"t", 0⟩ 2)) := by
  refine ⟨by decide +kernel, by decide +kernel, by decide +kernel, ?_⟩
  rfl

end Own

end Datarail.Kafka
