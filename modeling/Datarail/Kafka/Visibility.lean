/-
# No transactional record before its commit

A `Produce` request as bytes: `parse_produce` reads it, `produce_results` takes its
entries one after the other.  Every record is told from every other by the request
and the entry that brought it, and keeps the header of its batch, so that what a
`Fetch` returns can be held against the batches the clients sent.

`Released` is what the design promises for a record of a transactional batch: an
`EndTxn(commit)` of the pair in its header was accepted after it arrived.  The
broker looks at the transactional bit only where the parser has kept a coordinate,
and that is where the blob is a single batch of an idempotent producer
(`Datarail.Kafka.Produce`); `transactional_hidden_iff_single` says that the promise
is kept exactly for these.
-/

import Datarail.Kafka.Produce
import Datarail.Kafka.Provenance

namespace Datarail.Kafka

open Lib List Option Machine

/-- A record value, with the request and the entry that brought it. -/
structure Received where
  /-- The position of the request in the run. -/
  request : ℕ
  /-- The position of the entry in the request. -/
  entry : ℕ
  /-- The value. -/
  value : Value
  deriving DecidableEq

/-- The value of an entry as the broker stores it. -/
def ProducedBlob.stamped (q : ProducedBlob) (request entry : ℕ) : ProducedPartition Received :=
  { tp := q.tp, values := q.values.map fun v => ⟨request, entry, v⟩, eos := q.eos,
    errorCode := q.errorCode }

/-- An environment that cuts no frame short under a process that goes on. -/
abbrev CleanEnv := { env : Env // env.Clean }

/-- The entries from position `j` on, each with its environment. -/
def stampFrom (request : ℕ) (envs : ℕ → CleanEnv) : ℕ → List ProducedBlob → List (ProducedPartition Received × CleanEnv)
  | _, [] => []
  | j, q :: qs => (q.stamped request j, envs j) :: stampFrom request envs (j + 1) qs

/-- `produce_results`: the entries one after the other; one that ends the thread or
the process ends the loop. -/
def Broker.produceResults {ρ : Type} {S : RecordStore ρ} (b : Broker S) :
    List (ProducedPartition ρ × CleanEnv) → Broker S × List (Reply ρ)
  | [] => (b, [])
  | (q, env) :: rest =>
    let out := b.produceEntry env.1 q
    match out.2 with
    | .dropped => (out.1, [.dropped])
    | .died => (out.1, [.died])
    | reply =>
      let last := out.1.produceResults rest
      (last.1, reply :: last.2)

/-- The records a request brings. -/
def Request.records {ρ : Type} : Request ρ → List ρ
  | .produce q => q.values
  | _ => []

/-- What arrives at the broker: a `Produce` as bytes, or a request that brings no
records. -/
inductive Incoming where
  /-- The body of a `Produce`, and the environment of each of its entries. -/
  | produce (version : ℤ) (body : List UInt8) (envs : ℕ → CleanEnv)
  | request (req : Request Received) (env : CleanEnv) (hreq : req.records = [])

/-- What a request tells. -/
structure Told where
  /-- The entries of a `Produce`. -/
  entries : List ProducedBlob
  /-- The outcome of each entry, or of the request. -/
  replies : List (Reply Received)
  /-- The pair of an `EndTxn(commit)` that `end_txn` has accepted. -/
  commit : Option (ℤ × ℤ)

/-- A broker process and the number of requests it has taken. -/
structure Session (S : RecordStore Received) where
  /-- The requests so far. -/
  clock : ℕ
  /-- The process. -/
  broker : Broker S

/-- The pair of a request that `end_txn` accepts as a commit. -/
def acceptedCommit {ρ : Type} {S : RecordStore ρ} (b : Broker S) : Request ρ → Option (ℤ × ℤ)
  | .endTxn t p e true => if (b.txn.endTxn t p e true).errorCode = 0 then some (p, e) else none
  | _ => none

/-- Take one request. -/
def Broker.receive {S : RecordStore Received} (decompress : Option Decompress) (clock : ℕ)
    (b : Broker S) : Incoming → Broker S × Told
  | .produce version body envs =>
    match (parseProduce decompress version).run (.new body) with
    | .ok (r, _) =>
      let out := b.produceResults (stampFrom clock envs 0 r.entries)
      (out.1, { entries := r.entries, replies := out.2, commit := none })
    -- the frame cannot be read: the connection is closed
    | .error _ => (b, { entries := [], replies := [], commit := none })
  | .request req env _ =>
    let out := b.handle env.1 req
    (out.1, { entries := [], replies := [out.2], commit := acceptedCommit b req })

/-- The broker over what arrives. -/
def wireMachine (S : RecordStore Received) (decompress : Option Decompress) : Machine (Session S) Incoming Told where
  step s op :=
    let out := s.broker.receive decompress s.clock op
    ({ clock := s.clock + 1, broker := out.1 }, out.2)

/-- A broker process on an empty data directory. -/
def Session.new (S : RecordStore Received) : Session S := { clock := 0, broker := .new S }

/-- Some `Fetch` returns the record. -/
def Broker.Readable {ρ : Type} {S : RecordStore ρ} (b : Broker S) (r : ρ) : Prop :=
  ∃ tp o m code rs, (b.fetch tp o m).2 = .fetched code rs ∧ r ∈ rs

/-- The history of a run. -/
abbrev Told.History := List (Incoming × Told)

/-- The entry that brought the record was answered `0`. -/
def Answered (h : Told.History) (r : Received) : Prop :=
  ∃ x, h[r.request]? = some x ∧ ∃ base, x.2.replies[r.entry]? = some (.produced base 0)

/-- After the record arrived, `end_txn` has accepted an `EndTxn(commit)` of the pair. -/
def Released (h : Told.History) (pair : ℤ × ℤ) (r : Received) : Prop :=
  ∃ i x, h[i]? = some x ∧ x.2.commit = some pair ∧ r.request < i

/-- The value came in a batch whose transactional bit is set. -/
def Value.InTxn (v : Value) (batch : BatchHeader) : Prop :=
  v.batch = some batch ∧ batch.transactional = true

/-- The blob of the entry is a single batch of an idempotent producer. -/
def ProducedBlob.Single (q : ProducedBlob) : Prop :=
  ∃ batch, q.batches = [some batch] ∧ 0 ≤ batch.producerId ∧ 0 ≤ batch.baseSequence

/-! ### The entries of a request -/

variable {qs : List ProducedBlob}

theorem mem_stampFrom {request j : ℕ} {envs : ℕ → CleanEnv}
    {x : ProducedPartition Received × CleanEnv} (h : x ∈ stampFrom request envs j qs) :
    ∃ (i : ℕ) (q : ProducedBlob), qs[i]? = some q ∧ x.1 = q.stamped request (j + i) := by
  induction qs generalizing j with
  | nil => cases h
  | cons q qs ih =>
    rcases mem_cons.1 h with rfl | h
    · exact ⟨0, q, rfl, rfl⟩
    · obtain ⟨i, q', hi, heq⟩ := ih h
      exact ⟨i + 1, q', hi, by rw [heq, show j + 1 + i = j + (i + 1) by omega]⟩

variable {q : ProducedBlob}

theorem getElem?_stampFrom (request : ℕ) (envs : ℕ → CleanEnv) (j : ℕ) {i : ℕ}
    (h : qs[i]? = some q) :
    (stampFrom request envs j qs)[i]? = some (q.stamped request (j + i), envs (j + i)) := by
  induction qs generalizing i j with
  | nil => cases h
  | cons q' qs ih =>
    cases i with
    | zero =>
      cases h
      rfl
    | succ i =>
      rw [show j + (i + 1) = j + 1 + i by omega]
      exact ih (j + 1) h

section

variable {ρ : Type} {S : RecordStore ρ}

/-- The first entry, and the rest unless the first ends the loop. -/
theorem produceResults_cons (b : Broker S) (q : ProducedPartition ρ) (env : CleanEnv)
    (rest : List (ProducedPartition ρ × CleanEnv)) :
    b.produceResults ((q, env) :: rest) = ((b.produceEntry env.1 q).1, [(b.produceEntry env.1 q).2]) ∧
      ((b.produceEntry env.1 q).2 = .dropped ∨ (b.produceEntry env.1 q).2 = .died) ∨
    b.produceResults ((q, env) :: rest) = (((b.produceEntry env.1 q).1.produceResults rest).1,
        (b.produceEntry env.1 q).2 :: ((b.produceEntry env.1 q).1.produceResults rest).2) := by
  cases hreply : (b.produceEntry env.1 q).2 <;> simp [Broker.produceResults, hreply]

variable {b : Broker S}

/-- **A `Produce` request** makes readable what its plain entries bring, and holds back
what its transactional ones do. -/
theorem grown_produceResults (hg : b.store.Good) (xs : List (ProducedPartition ρ × CleanEnv)) :
    Grown (fun tp r => ∃ x ∈ xs, (Request.produce x.1).Adds b tp r)
      (fun key r => ∃ x ∈ xs, (Request.produce x.1).Holds key r) b.store
      (b.produceResults xs).1.store := by
  induction xs generalizing b with
  | nil => exact .refl hg
  | cons x rest ih =>
    obtain ⟨q, env⟩ := x
    have hfirst : Grown (fun tp r => ∃ x ∈ (q, env) :: rest, (Request.produce x.1).Adds b tp r)
        (fun key r => ∃ x ∈ (q, env) :: rest, (Request.produce x.1).Holds key r) b.store
        (b.produceEntry env.1 q).1.store :=
      (grown_produceEntry hg env.2 q).mono (fun tp r h => ⟨_, mem_cons_self, h⟩) fun key r h => ⟨_, mem_cons_self, h⟩
    rcases produceResults_cons b q env rest with ⟨heq, -⟩ | heq <;> rw [heq]
    · exact hfirst
    · refine hfirst.trans ((ih hfirst.good).mono ?_ ?_)
      · rintro tp r ⟨x, hx, h⟩
        exact ⟨x, mem_cons_of_mem _ hx, h⟩
      · rintro key r ⟨x, hx, h⟩
        exact ⟨x, mem_cons_of_mem _ hx, h⟩

/-- A plain entry answered `0` is readable. -/
theorem produceEntry_landed (hg : b.store.Good) {env : Env} {q : ProducedPartition ρ}
    {base : ℤ} (hplain : q.eos.filter (·.transactional) = none)
    (hreply : (b.produceEntry env q).2 = .produced base 0) {r : ρ} (hr : r ∈ q.values) :
    r ∈ (b.produceEntry env q).1.store.contents q.tp := by
  rcases b.produceEntry_cases env q with ⟨-, heq⟩ | ⟨code, hcode, heq⟩ | ⟨eos, he, ht, -⟩ | ⟨-, -, heq⟩
  · rw [heq] at hreply
    cases hreply
  · rw [heq] at hreply
    cases hreply
    exact absurd rfl hcode
  · rw [he, filter_some, ht] at hplain
    cases hplain
  · rw [heq] at hreply ⊢
    rcases b.answer_cases _ _ _ with ⟨a, store, hrun, hans⟩ | ⟨kind, store, -, hans⟩ |
      ⟨store, -, hans⟩ | ⟨store, -, hans⟩ <;> rw [hans] at hreply ⊢
    · obtain ⟨-, -, -, hc, -⟩ := BrokerStore.produceInto_ok hg.sound hrun
      rw [hc, Function.update_self]
      exact mem_append_right _ hr
    · cases kind <;> cases hreply
    · cases hreply
    · cases hreply

/-- A plain entry answered `0` is readable when the request is over. -/
theorem produceResults_landed (hg : b.store.Good)
    {xs : List (ProducedPartition ρ × CleanEnv)} {j : ℕ} {x : ProducedPartition ρ × CleanEnv} {base : ℤ}
    (hx : xs[j]? = some x) (hplain : x.1.eos.filter (·.transactional) = none)
    (hreply : (b.produceResults xs).2[j]? = some (.produced base 0)) {r : ρ} (hr : r ∈ x.1.values) :
    r ∈ (b.produceResults xs).1.store.contents x.1.tp := by
  induction xs generalizing b j with
  | nil => cases hx
  | cons y rest ih =>
    obtain ⟨q, env⟩ := y
    have hfirst := grown_produceEntry hg env.2 q
    rcases produceResults_cons b q env rest with ⟨heq, hend⟩ | heq <;> rw [heq] at hreply ⊢
    · cases j with
      | zero =>
        have hthis := some.inj hreply
        rw [hthis] at hend
        rcases hend with hend | hend <;> cases hend
      | succ j => cases hreply
    · cases j with
      | zero =>
        cases hx
        exact ((grown_produceResults hfirst.good rest).extends_ q.tp).subset
          (produceEntry_landed hg hplain (some.inj hreply) hr)
      | succ j => exact ih hfirst.good hx hreply

/-- A fetch that the store answers. -/
theorem fetch_reply {tp : TopicPartition} {o m : ℤ} {rs : List ρ}
    (h : ((S.fetch tp o m).run b.store.records).1 = .ok rs) : (b.fetch tp o m).2 = .fetched 0 rs := by
  rw [Broker.fetch, Broker.answer, BrokerStore.run_onRecords, h]

/-- **What a `Fetch` can return** is what the logs hold. -/
theorem readable_iff (hg : b.store.Good) {r : ρ} : b.Readable r ↔ ∃ tp, r ∈ b.store.contents tp := by
  constructor
  · rintro ⟨tp, o, m, code, rs, hfetch, hr⟩
    refine ⟨tp, ?_⟩
    rcases lt_or_ge o 0 with hneg | hpos
    · rw [fetch_reply (S.fetch_neg tp o m hg.sound hneg)] at hfetch
      cases hfetch
      cases hr
    · obtain ⟨n, rfl⟩ := Int.eq_ofNat_of_zero_le hpos
      obtain ⟨k, hk, -⟩ := S.fetch_ok tp n m hg.sound
      rw [fetch_reply hk] at hfetch
      cases hfetch
      exact mem_of_mem_drop (mem_of_mem_take hr)
  · rintro ⟨tp, hr⟩
    obtain ⟨n, hn, hget⟩ := getElem_of_mem hr
    obtain ⟨k, hk, hpos⟩ := S.fetch_ok tp n 0 hg.sound
    refine ⟨tp, n, 0, 0, _, fetch_reply hk, ?_⟩
    obtain ⟨k, rfl⟩ := Nat.exists_eq_add_of_lt (hpos hn)
    have hdrop : (b.store.contents tp).drop n = r :: (b.store.contents tp).drop (n + 1) := by
      rw [drop_eq_getElem_cons hn, hget]
    change r ∈ ((b.store.contents tp).drop n).take (0 + k + 1)
    rw [hdrop, take_succ_cons]
    exact mem_cons_self

end

/-! ### The routes of a blob -/

variable {v : Value} {batch : BatchHeader}

/-- The transactional bit of a blob is looked at only if it is a single batch of an
idempotent producer. -/
theorem ProducedBlob.Condensed.plain_iff (h : q.Condensed) (hv : v ∈ q.values) (ht : v.InTxn batch) :
    q.eos.filter (·.transactional) = none ↔ ¬ q.Single := by
  have hmem := h.headed v hv
  rw [ht.1] at hmem
  constructor
  · rintro hplain ⟨only, hb, hp, hs⟩
    rw [hb, mem_singleton] at hmem
    obtain rfl := some.inj hmem
    rw [h.eos, hb, condensed, BatchHeader.coord, if_pos ⟨hp, hs⟩, filter_some, ht.2] at hplain
    cases hplain
  · intro hnot
    cases heos : q.eos.filter (·.transactional) with
    | none => rfl
    | some eos =>
      refine absurd ?_ hnot
      have hq := (filter_eq_some_iff.1 heos).1
      rw [h.eos] at hq
      rcases hb : q.batches with _ | ⟨_ | only, _ | ⟨second, rest⟩⟩ <;> rw [hb] at hq
      · cases hq
      · cases hq
      · cases hq
      · rw [condensed, BatchHeader.coord] at hq
        split_ifs at hq with hpos
        exact ⟨only, hb, hpos.1, hpos.2⟩
      · cases hq

/-- A buffered value came in a batch of the pair it is held for. -/
theorem ProducedBlob.Condensed.pair_eq (h : q.Condensed) {eos : EosCoord}
    (heos : q.eos = some eos) (hv : v ∈ q.values)
    (hb : v.batch = some batch) : batch.pair = (eos.producerId, eos.producerEpoch) := by
  have hmem := h.headed v hv
  rw [hb] at hmem
  rw [h.eos] at heos
  rcases hbs : q.batches with _ | ⟨_ | only, _ | ⟨second, rest⟩⟩ <;> rw [hbs] at heos hmem
  · cases heos
  · cases heos
  · cases heos
  · rw [condensed, BatchHeader.coord] at heos
    split_ifs at heos with hpos
    obtain rfl := some.inj (mem_singleton.1 hmem)
    cases heos
    rfl
  · cases heos

/-! ### Whole runs -/

/-- The record came in an entry that went to the log at once. -/
def CamePlain (h : Told.History) (r : Received) : Prop :=
  ∃ x q, h[r.request]? = some x ∧ x.2.entries[r.entry]? = some q ∧
    q.eos.filter (·.transactional) = none ∧ r.value ∈ q.values

variable {h : Told.History}

theorem Released.append {pair : ℤ × ℤ} {r : Received} (hr : Released h pair r)
    (x : Incoming × Told) : Released (h ++ [x]) pair r := by
  obtain ⟨i, y, hi, hc, hlt⟩ := hr
  exact ⟨i, y, by rw [getElem?_append_left (List.getElem?_eq_some_iff.1 hi).1, hi], hc, hlt⟩

theorem CamePlain.append {r : Received} (hr : CamePlain h r) (x : Incoming × Told) : CamePlain (h ++ [x]) r := by
  obtain ⟨y, q, hi, hq⟩ := hr
  exact ⟨y, q, by rw [getElem?_append_left (List.getElem?_eq_some_iff.1 hi).1, hi], hq⟩

/-- **The invariant** of a run: a readable record of a transactional batch is released
or came plain, and a buffer holds records of its own pair. -/
structure VisInv {S : RecordStore Received} (h : Told.History) (s : Session S) : Prop where
  clock : s.clock = h.length
  good : s.broker.store.Good
  condensed : ∀ x ∈ h, ∀ q ∈ x.2.entries, q.Condensed
  readable : ∀ tp, ∀ r ∈ s.broker.store.contents tp, ∀ batch, r.value.InTxn batch →
    Released h batch.pair r ∨ CamePlain h r
  buffered : ∀ key, ∀ r ∈ s.broker.store.buffered key, r.request < h.length ∧
    ∀ batch, r.value.batch = some batch → batch.pair = (key.producerId, key.epoch)

namespace VisInv

variable {S : RecordStore Received} {decompress : Option Decompress} {h : Told.History} {s : Session S}

theorem new : VisInv [] (.new S) := by
  have hempty : ∀ tp, (Session.new S).broker.store.contents tp = [] := S.contents_init
  refine ⟨rfl, BrokerStore.good_new, forall_mem_nil _, fun tp r hr => ?_, nofun⟩
  rw [hempty tp] at hr
  cases hr

/-- A step keeps the invariant if what it makes readable and holds back fits it. -/
theorem grow {fresh : TopicPartition → Received → Prop} {held : BufferKey → Received → Prop}
    {b : Broker S} (hinv : VisInv h s) (hgrow : Grown fresh held s.broker.store b.store)
    (x : Incoming × Told) (hx : ∀ q ∈ x.2.entries, q.Condensed)
    (hfresh : ∀ tp r, fresh tp r → ∀ batch, r.value.InTxn batch →
      Released (h ++ [x]) batch.pair r ∨ CamePlain (h ++ [x]) r)
    (hheld : ∀ key r, held key r → r.request = h.length ∧
      ∀ batch, r.value.batch = some batch → batch.pair = (key.producerId, key.epoch)) :
    VisInv (h ++ [x]) { clock := s.clock + 1, broker := b : Session S } := by
  refine ⟨by rw [hinv.clock, length_append, length_singleton], hgrow.good,
    forall_mem_append.2 ⟨hinv.condensed, forall_mem_singleton.2 hx⟩, fun tp r hr batch ht => ?_, fun key r hr => ?_⟩
  · rcases hgrow.readable tp r hr with hold | hnew
    · exact (hinv.readable tp r hold batch ht).imp (·.append x) (·.append x)
    · exact hfresh tp r hnew batch ht
  · rw [length_append, length_singleton]
    rcases hgrow.buffered key r hr with hold | hnew
    · obtain ⟨hlt, hpair⟩ := hinv.buffered key r hold
      exact ⟨by omega, hpair⟩
    · obtain ⟨heq, hpair⟩ := hheld key r hnew
      exact ⟨by omega, hpair⟩

theorem produce (hinv : VisInv h s) (version : ℤ) (body : List UInt8) (envs : ℕ → CleanEnv) :
    VisInv (h ++ [(.produce version body envs, ((wireMachine S decompress).step s (.produce version body envs)).2)])
      ((wireMachine S decompress).step s (.produce version body envs)).1 := by
  cases hparse : (parseProduce decompress version).run (.new body) with
  | error e =>
    simp only [wireMachine, Broker.receive, hparse]
    have hsame : Grown (fun _ _ => False) (fun _ _ => False) s.broker.store s.broker.store :=
      .refl hinv.good
    exact hinv.grow hsame _ nofun (fun _ _ => False.elim) fun _ _ => False.elim
  | ok out =>
    obtain ⟨r, c⟩ := out
    have hcond := parseProduce_condensed hparse
    simp only [wireMachine, Broker.receive, hparse]
    refine hinv.grow (grown_produceResults hinv.good _) _ hcond ?_ ?_
    · rintro tp rec ⟨x, hx, hplain, -, hrec⟩ batch -
      obtain ⟨i, q, hi, hxq⟩ := mem_stampFrom hx
      rw [hxq] at hplain hrec
      obtain ⟨v, hv, rfl⟩ := mem_map.1 hrec
      have hentry : r.entries[0 + i]? = some q := by
        rw [Nat.zero_add, hi]
      exact .inr ⟨_, q, hinv.clock ▸ getElem?_concat_length, hentry, hplain, hv⟩
    · rintro key rec ⟨x, hx, eos, heos, -, rfl, hrec⟩
      obtain ⟨i, q, hi, hxq⟩ := mem_stampFrom hx
      rw [hxq] at heos hrec
      obtain ⟨v, hv, rfl⟩ := mem_map.1 hrec
      exact ⟨hinv.clock, fun batch hb =>
        (hcond q (mem_of_getElem? hi)).pair_eq heos hv hb⟩

theorem request (hinv : VisInv h s) (req : Request Received) (env : CleanEnv) (hreq : req.records = []) :
    VisInv (h ++ [(.request req env hreq, ((wireMachine S decompress).step s (.request req env hreq)).2)])
      ((wireMachine S decompress).step s (.request req env hreq)).1 := by
  refine hinv.grow (grown_handle hinv.good env.2 req) _ nofun ?_ ?_
  · intro tp r hadds batch ht
    cases req with
    | produce q =>
      obtain ⟨-, -, hr⟩ := hadds
      rw [show q.values = [] from hreq] at hr
      cases hr
    | endTxn t p e commit =>
      cases commit with
      | false => exact hadds.elim
      | true =>
        obtain ⟨hz, hr⟩ := hadds
        obtain ⟨hlt, hpair⟩ := hinv.buffered _ r hr
        refine .inl ⟨h.length, _, getElem?_concat_length, ?_, hlt⟩
        rw [hpair batch ht.1]
        exact if_pos hz
    | initProducerId t => exact hadds.elim
    | addPartitions t p e ps => exact hadds.elim
    | addOffsets t p e g => exact hadds.elim
    | txnOffsetCommit t g p e os => exact hadds.elim
    | fetch tp o m => exact hadds.elim
    | restart => exact hadds.elim
  · intro key r hholds
    cases req with
    | produce q =>
      obtain ⟨eos, -, -, -, hr⟩ := hholds
      rw [show q.values = [] from hreq] at hr
      cases hr
    | endTxn t p e commit => exact hholds.elim
    | initProducerId t => exact hholds.elim
    | addPartitions t p e ps => exact hholds.elim
    | addOffsets t p e g => exact hholds.elim
    | txnOffsetCommit t g p e os => exact hholds.elim
    | fetch tp o m => exact hholds.elim
    | restart => exact hholds.elim

/-- **Every run keeps the invariant.** -/
theorem run (ops : List Incoming) : VisInv ((wireMachine S decompress).trace (.new S) ops)
      ((wireMachine S decompress).final (.new S) ops) := by
  refine (wireMachine S decompress).invariant_of_step (fun _ _ => True) VisInv ?_ (.new S) ops []
    (guarded_true _ _ _) new
  intro h s op _ hinv
  cases op with
  | produce version body envs => exact hinv.produce version body envs
  | request req env hreq => exact hinv.request req env hreq

end VisInv

/-- A plain entry answered `0` is readable right after its request. -/
theorem readable_of_plain {S : RecordStore Received} {decompress : Option Decompress}
    {s : Session S} (hinv : VisInv h s) {op : Incoming} {j : ℕ}
    {base : ℤ} (hq : ((wireMachine S decompress).step s op).2.entries[j]? = some q)
    (hreply : ((wireMachine S decompress).step s op).2.replies[j]? = some (.produced base 0))
    (hplain : q.eos.filter (·.transactional) = none) (hv : v ∈ q.values) :
    ⟨s.clock, j, v⟩ ∈ ((wireMachine S decompress).step s op).1.broker.store.contents q.tp := by
  cases op with
  | request req env hreq => cases hq
  | produce version body envs =>
    cases hparse : (parseProduce decompress version).run (.new body) with
    | error e =>
      simp only [wireMachine, Broker.receive, hparse] at hq
      cases hq
    | ok out =>
      simp only [wireMachine, Broker.receive, hparse] at hq hreply ⊢
      have hx := getElem?_stampFrom s.clock envs 0 hq
      rw [Nat.zero_add] at hx
      exact produceResults_landed hinv.good hx hplain hreply (mem_map.2 ⟨v, hv, rfl⟩)

/-- **A transactional record is hidden until its commit exactly when its blob is a
single batch.**  Take any run of the broker: any `Produce` bytes, any other requests
of any producers, failing and dying disks, restarts.  At every moment every readable
record that came in a transactional batch and was answered `0` has been released by
an `EndTxn(commit)` of its pair, if and only if every entry answered `0` that brings
such a record is a single batch with a producer id and a sequence number. -/
theorem transactional_hidden_iff_single (S : RecordStore Received) (decompress : Option Decompress)
    (ops : List Incoming) :
    (∀ n r batch, ((wireMachine S decompress).final (.new S) (ops.take n)).broker.Readable r → r.value.InTxn batch →
      Answered ((wireMachine S decompress).trace (.new S) (ops.take n)) r →
      Released ((wireMachine S decompress).trace (.new S) (ops.take n)) batch.pair r) ↔
    ∀ x ∈ (wireMachine S decompress).trace (.new S) ops, ∀ (j : ℕ) (q : ProducedBlob) (base : ℤ),
      x.2.entries[j]? = some q → x.2.replies[j]? = some (.produced base 0) →
      (∃ v ∈ q.values, ∃ batch, v.InTxn batch) → q.Single := by
  constructor
  · intro hhidden x hx j q base hq hreply ⟨v, hv, batch, ht⟩
    by_contra hsingle
    have hcond := (VisInv.run ops).condensed _ hx q (mem_of_getElem? hq)
    have hplain := (hcond.plain_iff hv ht).2 hsingle
    obtain ⟨k, hk⟩ := getElem?_of_mem hx
    have hlt : k < ops.length := by
      rw [← length_trace (wireMachine S decompress) (.new S)]
      exact (List.getElem?_eq_some_iff.1 hk).1
    obtain ⟨op, hop, rfl⟩ := map_eq_some_iff.1 (getElem?_trace _ _ _ _ ▸ hk)
    have hinv : VisInv _ ((wireMachine S decompress).final (.new S) (ops.take k)) :=
      VisInv.run (ops.take k)
    have hclock := hinv.clock
    rw [length_trace, length_take, Nat.min_eq_left hlt.le] at hclock
    have hland := readable_of_plain hinv hq hreply hplain hv
    rw [hclock, ← final_take_succ _ hop] at hland
    -- the record is readable right after its request, before any commit can follow it
    have hread := (readable_iff (VisInv.run (ops.take (k + 1))).good).2 ⟨q.tp, hland⟩
    have htake : ((wireMachine S decompress).trace (.new S) (ops.take (k + 1)))[k]? =
        ((wireMachine S decompress).trace (.new S) ops)[k]? := by
      rw [trace_take, getElem?_take_of_lt (Nat.lt_succ_self k)]
    obtain ⟨i, y, hi, -, hafter⟩ := hhidden (k + 1) _ batch hread ht ⟨_, htake.trans hk, base, hreply⟩
    have hbound := (List.getElem?_eq_some_iff.1 hi).1
    rw [length_trace, length_take] at hbound
    have hki : k < i := hafter
    omega
  · intro hsingle n r batch hread ht hans
    have hinv : VisInv _ ((wireMachine S decompress).final (.new S) (ops.take n)) := VisInv.run (ops.take n)
    obtain ⟨tp, hr⟩ := (readable_iff hinv.good).1 hread
    refine (hinv.readable tp r hr batch ht).resolve_right ?_
    rintro ⟨x, q, hx, hq, hplain, hv⟩
    obtain ⟨y, hy, base, hreply⟩ := hans
    obtain rfl := some.inj (hx.symm.trans hy)
    have hmem := mem_of_getElem? hx
    have hcond := hinv.condensed x hmem q (mem_of_getElem? hq)
    rw [trace_take] at hmem
    exact (hcond.plain_iff hv ht).1 hplain
      (hsingle x (mem_of_mem_take hmem) _ q base hq hreply ⟨r.value, hv, batch, ht⟩)

/-- The bytes of a checksum. -/
def crcBytes (crc : UInt32) : List UInt8 :=
  [(crc >>> 24).toUInt8, (crc >>> 16).toUInt8, (crc >>> 8).toUInt8, crc.toUInt8]

/-- A transactional v2 batch of the producer `(1099511627776, 0)` with one record. -/
def txnBatch (sequence value : UInt8) : List UInt8 :=
  let covered : List UInt8 :=
    -- attributes, last offset delta, timestamps
    [0, 0x10, 0, 0, 0, 0] ++ replicate 16 0 ++
    -- producer id, epoch, base sequence, record count
    [0, 0, 1, 0, 0, 0, 0, 0, 0, 0, 0, 0, 0, sequence, 0, 0, 0, 1] ++
    -- the record: length, attributes, deltas, null key, value, no headers
    [14, 0, 0, 0, 1, 2, value, 0]
  -- base offset, batch length, leader epoch, magic
  replicate 8 0 ++ [0, 0, 0, 57, 0, 0, 0, 0, 2] ++ crcBytes (crc32c covered) ++ covered

/-- The body of a `Produce` with one entry for `a-0`, whose blob is two batches. -/
def twoBatches : List UInt8 :=
  -- no transactional id, acks, timeout, one topic, its name, one partition, its index
  [255, 255, 0, 1, 0, 0, 0, 0, 0, 0, 0, 1, 0, 1, 97, 0, 0, 0, 1, 0, 0, 0, 0] ++
  [0, 0, 0, 138] ++ txnBatch 0 7 ++ txnBatch 1 8

/-- Nothing goes wrong. -/
def calmly : CleanEnv := ⟨.calm, Env.clean_calm⟩

/-- A producer opens a transaction on `a-0` and sends two batches in one entry. -/
def concatenated : List Incoming :=
  [.request (.initProducerId (some "t")) calmly rfl,
    .request (.addPartitions "t" 1099511627776 0 [⟨"a", 0⟩]) calmly rfl,
    .produce 3 twoBatches fun _ => calmly]

/-- The header of its first batch. -/
def firstBatch : BatchHeader :=
  { attributes := 16, producerId := 1099511627776, producerEpoch := 0, baseSequence := 0, recordCount := 1 }

/-- **The record of a transactional batch is readable with no commit at all.**  The
blob of two batches has no coordinate, so `produce_results` takes it for a plain one. -/
theorem concatenated_batches_readable :
    let h := (wireMachine (.lists Received) none).trace (.new _) concatenated
    let b := ((wireMachine (.lists Received) none).final (.new _) concatenated).broker
    let r : Received := ⟨2, 0, ⟨some firstBatch, [7]⟩⟩
    b.Readable r ∧ r.value.InTxn firstBatch ∧ Answered h r ∧ ¬ Released h firstBatch.pair r := by
  have hfetch : ((((wireMachine (.lists Received) none).final (.new _) concatenated).broker.fetch
      ⟨"a", 0⟩ 0 1024).2 = .fetched 0 [⟨2, 0, ⟨some firstBatch, [7]⟩⟩,
        ⟨2, 0, ⟨some { firstBatch with baseSequence := 1 }, [8]⟩⟩]) := by decide +kernel
  have hreply : ((((wireMachine (.lists Received) none).trace (.new _) concatenated)[2]?.bind
      fun x => x.2.replies[0]?) = some (.produced 0 0)) := by decide +kernel
  have hnone : (((wireMachine (.lists Received) none).trace (.new _) concatenated).all
      fun x => x.2.commit.isNone) = true := by decide +kernel
  refine ⟨⟨_, _, _, _, _, hfetch, mem_cons_self⟩, ⟨rfl, rfl⟩, ?_, ?_⟩
  · obtain ⟨x, hx, hbase⟩ := bind_eq_some_iff.1 hreply
    exact ⟨x, hx, 0, hbase⟩
  · rintro ⟨i, x, hx, hcommit, -⟩
    have := all_eq_true.1 hnone x (mem_of_getElem? hx)
    rw [hcommit] at this
    cases this

end Datarail.Kafka
