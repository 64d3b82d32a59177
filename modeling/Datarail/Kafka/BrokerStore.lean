/-
# The broker store

`KafkaBrokerStore` of `crates/datarail-cli/src/main.rs`: the partition logs, the
buffers of open transactions and the committed consumer offsets, behind one
mutex.  Every method of the trait `KafkaBroker` holds the mutex for its whole
body, so each is an action on the store.

A transactional batch is buffered under `(producer_id, epoch, topic, partition)`
and reaches its log only in `commit_txn`, which flushes the buffers of one pair
one partition after the other, in the order the hash map lists them.
-/

import Datarail.Kafka.RecordStore

namespace Datarail.Kafka

open Lib List Function Action Prod

/-- The key of a transactional buffer. -/
structure BufferKey where
  /-- The producer id of the batch. -/
  producerId : ℤ
  /-- The producer epoch of the batch. -/
  epoch : ℤ
  /-- The partition the batch is for. -/
  tp : TopicPartition
  deriving DecidableEq, Repr

/-- `BrokerInner`: the logs, the transactional buffers and the commits made to
the consumer-offset store, oldest first. -/
structure BrokerStore {ρ : Type} (S : RecordStore ρ) where
  /-- Terminals and partition logs. -/
  records : S.State
  /-- `txn_buffers`. -/
  txnBuffers : AList fun _ : BufferKey => List ρ
  /-- The commits to `offsets`; a key's value is its last one. -/
  offsets : List (String × ℕ)

/-- `offset_key`: the length-prefixed key of a committed offset. -/
def offsetKey (group : String) (tp : TopicPartition) : String :=
  toString group.utf8ByteSize ++ ":" ++ group ++ ":" ++ toString tp.topic.utf8ByteSize ++ ":" ++
    tp.topic ++ ":" ++ toString tp.partition

/-- What the environment does during one commit: the order the hash map lists
its keys in, the disk under each flush, and where the offset store stops. -/
structure CommitEnv where
  /-- The order of `txn_buffers.keys()`. -/
  order : KeyOrder BufferKey
  /-- The disk while a buffer is flushed. -/
  disk : BufferKey → DiskFault
  /-- Whether the commit of the `i`-th staged offset stops, and how. -/
  offsetStop : ℕ → Option (Stop ErrorKind)

namespace BrokerStore

variable {ρ : Type} {S : RecordStore ρ}

/-- A broker on an empty data directory. -/
def new (S : RecordStore ρ) : BrokerStore S := { records := S.init, txnBuffers := ∅, offsets := [] }

/-- The process ends and another takes its place: the buffers were in memory. -/
def restart (b : BrokerStore S) : BrokerStore S :=
  { b with records := S.restart b.records, txnBuffers := ∅ }

/-- Run an action of the logs. -/
def onRecords {α : Type} (x : Action ErrorKind S.State α) : Action ErrorKind (BrokerStore S) α :=
  ⟨fun b => ((x.run b.records).1, { b with records := (x.run b.records).2 })⟩

/-- `produce_into`: check the contract, then seal and append the batch. -/
def produceInto (fault : DiskFault) (tp : TopicPartition) (records : List ρ) : Action ErrorKind (BrokerStore S) ℤ := do
  let _ ← onRecords (S.openLog fault tp)
  if !records.all S.validate then halt (.failed .invalidData)
  -- `u64::try_from(partition).expect(..)`
  else if tp.partition < 0 then halt .panicked
  else onRecords (S.append fault tp records)

/-- `produce`. -/
def produce (fault : DiskFault) (tp : TopicPartition) (records : List ρ) : Action ErrorKind (BrokerStore S) ℤ :=
  produceInto fault tp records

/-- The records buffered under a key. -/
def buffered (b : BrokerStore S) (key : BufferKey) : List ρ := (b.txnBuffers.lookup key).getD []

/-- `buffer_txn`: check the contract, then hold the batch back. -/
def bufferTxn (fault : DiskFault) (key : BufferKey) (records : List ρ) : Action ErrorKind (BrokerStore S) ℤ := do
  if !records.all S.validate then halt (.failed .invalidData)
  else
    let durable ← onRecords (S.openLog fault key.tp)
    let b ← read
    modify fun b =>
      { b with txnBuffers := b.txnBuffers.insert key (b.buffered key ++ records) }
    return clampI64 (durable + (b.buffered key).length)

/-- Drop one buffer. -/
def dropBuffer (key : BufferKey) (b : BrokerStore S) : BrokerStore S :=
  { b with txnBuffers := b.txnBuffers.erase key }

/-- The loop body of `commit_txn`: flush the buffer of the committing epoch,
drop one of an older epoch, leave one of a newer epoch. -/
def flushKey (disk : BufferKey → DiskFault) (epoch : ℤ) (key : BufferKey) : Action ErrorKind (BrokerStore S) Unit := do
  if key.epoch = epoch then
    let b ← read
    match b.txnBuffers.lookup key with
    | some records =>
      let _ ← produceInto (disk key) key.tp records
      modify (dropBuffer key)
    | none => pure ()
  else if key.epoch < epoch then modify (dropBuffer key)
  else pure ()

/-- The loop of `commit_txn` over the keys it has collected. -/
def flushKeys (disk : BufferKey → DiskFault) (epoch : ℤ) : List BufferKey → Action ErrorKind (BrokerStore S) Unit
  | [] => pure ()
  | key :: keys => do
      flushKey disk epoch key
      flushKeys disk epoch keys

/-- The keys `commit_txn` collects for a producer. -/
def keysOf (env : CommitEnv) (producerId : ℤ) (b : BrokerStore S) : List BufferKey :=
  env.order.order (b.txnBuffers.keys.filter fun key => key.producerId = producerId)

/-- `commit_txn`: the partitions it is given are not looked at. -/
def commitTxn (env : CommitEnv) (producerId epoch : ℤ) (_partitions : List TopicPartition) :
    Action ErrorKind (BrokerStore S) Unit := do
  let b ← read
  flushKeys env.disk epoch (b.keysOf env producerId)

/-- `abort_txn`: drop the producer's buffers up to the epoch. -/
def abortTxn (producerId epoch : ℤ) (_partitions : List TopicPartition) (b : BrokerStore S) :
    BrokerStore S :=
  { b with txnBuffers :=
      retainKeys b.txnBuffers fun key => !(key.producerId = producerId && key.epoch ≤ epoch) }

/-- `commit_offset`: a negative offset is stored as `0`. -/
def commitOffset (stop : Option (Stop ErrorKind)) (group : String) (tp : TopicPartition)
    (offset : ℤ) : Action ErrorKind (BrokerStore S) Unit :=
  match stop with
  | some why => halt why
  | none => modify fun b =>
    { b with offsets := b.offsets ++ [(offsetKey group tp, offset.toNat)] }

/-- The loop of `commit_txn_with_offsets` over the staged offsets. -/
def commitOffsets (stop : ℕ → Option (Stop ErrorKind)) (group : String) :
    ℕ → List (TopicPartition × ℤ) → Action ErrorKind (BrokerStore S) Unit
  | _, [] => pure ()
  | i, (tp, offset) :: rest => do
      commitOffset (stop i) group tp offset
      commitOffsets stop group (i + 1) rest

/-- `commit_txn_with_offsets`, the trait's default: the records, then the
staged offsets under the one group. -/
def commitTxnWithOffsets (env : CommitEnv) (producerId epoch : ℤ)
    (partitions : List TopicPartition) (group : Option String)
    (offsets : List (TopicPartition × ℤ)) : Action ErrorKind (BrokerStore S) Unit := do
  commitTxn env producerId epoch partitions
  match group with
  | some g => commitOffsets env.offsetStop g 0 offsets
  | none => pure ()

/-! ### What each method does -/

/-- The records of a partition that a fetch can reach. -/
def contents (b : BrokerStore S) (tp : TopicPartition) : List ρ := S.contents b.records tp

/-- The logs are sound and every buffered record conforms to the contract. -/
structure Good (b : BrokerStore S) : Prop where
  sound : S.Sound b.records
  valid : ∀ key, ∀ r ∈ b.buffered key, S.validate r = true

variable {b t : BrokerStore S} {f : DiskFault} {tp : TopicPartition} {rs : List ρ}

@[simp] theorem run_onRecords {α : Type} (x : Action ErrorKind S.State α) (b : BrokerStore S) :
    (onRecords x).run b = ((x.run b.records).1, { b with records := (x.run b.records).2 }) := rfl

theorem good_new : Good (new S) :=
  ⟨S.sound_init, fun _ r hr => absurd hr (not_mem_nil (a := r))⟩

theorem good_restart (h : b.Good) : b.restart.Good :=
  ⟨S.sound_restart h.sound, fun _ r hr => absurd hr (not_mem_nil (a := r))⟩

theorem contents_restart (h : b.Good) : b.restart.contents = b.contents :=
  S.contents_restart h.sound

theorem buffered_congr (h : t.txnBuffers = b.txnBuffers) (key : BufferKey) : t.buffered key = b.buffered key := by
  rw [buffered, buffered, h]

theorem Good.of_buffers (hg : b.Good) (hs : S.Sound t.records) (h : t.txnBuffers = b.txnBuffers) : t.Good :=
  ⟨hs, fun key r hr => hg.valid key r (buffered_congr h key ▸ hr)⟩

/-- An action of the logs leaves the rest of the store alone. -/
theorem keeps_onRecords {α γ : Type} (part : BrokerStore S → γ)
    (h : ∀ (b : BrokerStore S) r, part { b with records := r } = part b)
    (x : Action ErrorKind S.State α) : (onRecords x).Keeps part := fun b => h b _

/-- Only the logs are `produce_into`'s to change. -/
theorem keeps_produceInto {γ : Type} (part : BrokerStore S → γ)
    (h : ∀ (b : BrokerStore S) r, part { b with records := r } = part b)
    (f : DiskFault) (tp : TopicPartition) (rs : List ρ) : (produceInto f tp rs).Keeps part :=
  (keeps_onRecords part h _).bind fun _ => .ite (.halt _) (.ite (.halt _) (keeps_onRecords part h _))

/-- **`produce_into` that returned** has checked the batch and added it whole. -/
theorem produceInto_ok {base : ℤ} (hs : S.Sound b.records) (h : (produceInto f tp rs).run b = (.ok base, t)) :
    (∀ r ∈ rs, S.validate r = true) ∧ 0 ≤ tp.partition ∧ S.Sound t.records ∧
    t.contents = update b.contents tp (b.contents tp ++ rs) ∧
    base = clampI64 (b.contents tp).length ∧ f.Spares rs.length := by
  obtain ⟨n, u, hopen, happ⟩ := bind_eq_ok h
  obtain ⟨-, rfl⟩ := Prod.mk.inj hopen
  split at happ
  · cases happ
  · rename_i hv
    split at happ
    · cases happ
    · rename_i hp
      obtain ⟨hb, rfl⟩ := Prod.mk.inj happ
      have hv' : ∀ r ∈ rs, S.validate r = true := by simpa using hv
      have hso := S.sound_openLog f tp hs
      have hrun := S.append_run_ok (f := f) tp hso hv' (Prod.ext hb rfl)
      rw [S.contents_openLog f tp hs] at hrun
      exact ⟨hv', not_lt.1 hp, hrun.1, hrun.2.1, hrun.2.2, (S.append_ok hso hv' (Prod.ext hb rfl)).1⟩

/-- **`produce_into` under a fault.**  Either it stops before the append and
the logs read as before, or the append has left as many whole records as the
fault lets through. -/
theorem produceInto_left {k : ℕ} (tp : TopicPartition) (hs : S.Sound b.records) (hk : f.left rs.length = some k) :
    S.Sound ((produceInto f tp rs).run b).2.records ∧
    (((produceInto f tp rs).run b).2.contents = b.contents ∨ ((produceInto f tp rs).run b).2.contents =
        update b.contents tp (b.contents tp ++ rs.take k)) := by
  have hso := S.sound_openLog f tp hs
  have hco := S.contents_openLog f tp hs
  unfold produceInto
  rw [run_bind, run_onRecords]
  rcases ((S.openLog f tp).run b.records).1 with n | w
  · dsimp only
    split
    · exact ⟨hso, .inl hco⟩
    · rename_i hv
      have hv' : ∀ r ∈ rs, S.validate r = true := by simpa using hv
      split
      · exact ⟨hso, .inl hco⟩
      · obtain ⟨h₁, h₂⟩ := S.append_left tp hso hv' hk
        rw [hco] at h₂
        exact ⟨h₁, .inr h₂⟩
  · exact ⟨hso, .inl hco⟩

/-- What it leaves of the store, however it ends. -/
theorem produceInto_run {k : ℕ} {o : Outcome ErrorKind ℤ} (hg : b.Good) (hk : f.left rs.length = some k)
    (h : (produceInto f tp rs).run b = (o, t)) :
    t.Good ∧ t.txnBuffers = b.txnBuffers ∧ (∀ q, b.contents q <+: t.contents q) ∧
    (t.contents = b.contents ∨ t.contents = update b.contents tp (b.contents tp ++ rs.take k)) := by
  obtain ⟨hs, hc⟩ := produceInto_left tp hg.sound hk
  have hb := keeps_produceInto txnBuffers (fun _ _ => rfl) f tp rs b
  rw [h] at hs hc hb
  refine ⟨hg.of_buffers hs hb, hb, fun q => ?_, hc⟩
  rcases hc with hc | hc
  · exact hc ▸ prefix_rfl
  · rw [hc, update_apply]
    split_ifs with hq
    · subst hq
      exact prefix_append _ _
    · exact prefix_rfl

variable {w : Stop ErrorKind}

/-- **`produce_into` that stopped** on a conforming batch: before the append,
with the logs as they were; or in the append, which the fault has hit. -/
theorem produceInto_stop (hs : S.Sound b.records)
    (hv : ∀ r ∈ rs, S.validate r = true) (h : (produceInto f tp rs).run b = (.stop w, t)) :
    (S.Sound t.records ∧ t.contents = b.contents ∧ (f.SparesOpening → tp.partition < 0 ∧ w = .panicked)) ∨
    (0 ≤ tp.partition ∧ ¬ f.Spares rs.length ∧ ∀ k, f.left rs.length = some k → S.Sound t.records ∧
      t.contents = update b.contents tp (b.contents tp ++ rs.take k)) := by
  have hso := S.sound_openLog f tp hs
  have hco := S.contents_openLog f tp hs
  rcases bind_eq_stop h with hopen | ⟨n, u, hopen, hrest⟩
  · rw [run_onRecords] at hopen
    obtain ⟨hst, rfl⟩ := Prod.mk.inj hopen
    refine .inl ⟨hso, hco, fun hsp => ?_⟩
    obtain ⟨n, hn⟩ := S.openLog_spared tp hs hsp
    rw [hn] at hst
    cases hst
  · rw [run_onRecords] at hopen
    obtain ⟨-, rfl⟩ := Prod.mk.inj hopen
    rw [if_neg (by simpa using hv)] at hrest
    split at hrest
    · rename_i hneg
      obtain ⟨hw, rfl⟩ := Prod.mk.inj hrest
      exact .inl ⟨hso, hco, fun _ => ⟨hneg, (Outcome.stop.inj hw).symm⟩⟩
    · rename_i hp
      obtain ⟨hst, rfl⟩ := Prod.mk.inj hrest
      refine .inr ⟨not_lt.1 hp, fun hsp => ?_, fun k hk => ?_⟩
      · obtain ⟨base, hb⟩ := S.append_spares tp hso hv hsp
        rw [hst] at hb
        cases hb
      · obtain ⟨h₁, h₂⟩ := S.append_left tp hso hv hk
        rw [hco] at h₂
        exact ⟨h₁, h₂⟩

/-- Opening a log changes nothing that can be read or flushed, and tells the
number of records. -/
theorem openLog_run (hg : b.Good) {o : Outcome ErrorKind ℕ} (h : (onRecords (S.openLog f tp)).run b = (o, t)) :
    t.Good ∧ t.contents = b.contents ∧ t.txnBuffers = b.txnBuffers ∧ t.offsets = b.offsets ∧
    ∀ n, o = .ok n → n = (b.contents tp).length := by
  obtain ⟨rfl, rfl⟩ := Prod.mk.inj h
  exact ⟨⟨S.sound_openLog f tp hg.sound, hg.valid⟩, S.contents_openLog f tp hg.sound, rfl, rfl,
    fun n hn => S.openLog_ok hg.sound (Prod.ext hn rfl)⟩

/-- A fetch changes nothing that can be read or flushed. -/
theorem fetch_run (hg : b.Good) {offset maxBytes : ℤ} {o : Outcome ErrorKind (List ρ)}
    (h : (onRecords (S.fetch tp offset maxBytes)).run b = (o, t)) :
    t.Good ∧ t.contents = b.contents ∧ t.txnBuffers = b.txnBuffers := by
  obtain ⟨-, rfl⟩ := Prod.mk.inj h
  exact ⟨⟨S.sound_fetch tp offset maxBytes hg.sound, hg.valid⟩, S.contents_fetch tp offset maxBytes hg.sound, rfl⟩

variable {key : BufferKey}

/-- **`buffer_txn` that returned** has checked the batch and put it behind what
the key held; no log has changed. -/
theorem bufferTxn_ok {base : ℤ} (hg : b.Good) (h : (bufferTxn f key rs).run b = (.ok base, t)) :
    t.Good ∧ t.offsets = b.offsets ∧ t.contents = b.contents ∧
    (∀ k, t.buffered k = if k = key then b.buffered key ++ rs else b.buffered k) ∧
    base = clampI64 ((b.contents key.tp).length + (b.buffered key).length) := by
  unfold bufferTxn at h
  split at h
  · cases h
  · rename_i hv
    have hv' : ∀ r ∈ rs, S.validate r = true := by simpa using hv
    obtain ⟨n, u, hopen, hrest⟩ := bind_eq_ok h
    obtain ⟨hgu, hcu, hbu, hou, hlen⟩ := openLog_run hg hopen
    have hbuf := buffered_congr hbu
    obtain ⟨hb, rfl⟩ := Prod.mk.inj hrest
    have hnew : ∀ k, buffered { u with txnBuffers := u.txnBuffers.insert key (u.buffered key ++ rs) } k =
        if k = key then b.buffered key ++ rs else b.buffered k := by
      intro k
      rw [← hbuf key, ← hbuf k]
      by_cases hk : k = key
      · subst hk
        simp [buffered]
      · simp [buffered, hk]
    refine ⟨⟨hgu.sound, fun k r hr => ?_⟩, hou, hcu, hnew, ?_⟩
    · rw [hnew k] at hr
      split_ifs at hr
      · rcases mem_append.1 hr with hr | hr
        · exact hg.valid key r hr
        · exact hv' r hr
      · exact hg.valid k r hr
    · rw [← Outcome.ok.inj hb, hlen n rfl, hbuf]

/-- `buffer_txn` that stopped has changed nothing that can be read or flushed. -/
theorem bufferTxn_stop (hg : b.Good) (h : (bufferTxn f key rs).run b = (.stop w, t)) :
    t.Good ∧ t.offsets = b.offsets ∧ t.contents = b.contents ∧ t.txnBuffers = b.txnBuffers := by
  unfold bufferTxn at h
  split at h
  · obtain ⟨-, rfl⟩ := Prod.mk.inj h
    exact ⟨hg, rfl, rfl, rfl⟩
  · rcases bind_eq_stop h with hopen | ⟨n, u, -, hrest⟩
    · obtain ⟨hgt, hct, hbt, hot, -⟩ := openLog_run hg hopen
      exact ⟨hgt, hot, hct, hbt⟩
    · rw [read_bind, modify_bind, run_pure] at hrest
      cases hrest

@[simp] theorem buffered_dropBuffer_self (key : BufferKey) (b : BrokerStore S) :
    (dropBuffer key b).buffered key = [] := by
  simp [buffered, dropBuffer]

@[simp] theorem buffered_dropBuffer_of_ne {key k : BufferKey} (h : k ≠ key) (b : BrokerStore S) :
    (dropBuffer key b).buffered k = b.buffered k := by
  simp [buffered, dropBuffer, h]

theorem Good.dropBuffer (h : b.Good) (key : BufferKey) : (dropBuffer key b).Good := by
  refine ⟨h.sound, fun k r hr => ?_⟩
  by_cases hk : k = key
  · subst hk
    rw [buffered_dropBuffer_self] at hr
    cases hr
  · rw [buffered_dropBuffer_of_ne hk] at hr
    exact h.valid k r hr

/-- The buffers after a flush of one key. -/
def FlushedKey (epoch : ℤ) (key : BufferKey) (b t : BrokerStore S) : Prop :=
  ∀ k, t.txnBuffers.lookup k = if k = key ∧ k.epoch ≤ epoch then none else b.txnBuffers.lookup k

variable {epoch : ℤ}

theorem flushedKey_dropBuffer {b t : BrokerStore S}
    (h : key.epoch ≤ epoch) (ht : t.txnBuffers = b.txnBuffers.erase key) :
    FlushedKey epoch key b t := by
  intro k
  rw [ht]
  by_cases hk : k = key
  · subst hk
    rw [if_pos ⟨rfl, h⟩, AList.lookup_erase]
  · rw [if_neg fun hc => hk hc.1, AList.lookup_erase_ne hk]

variable {disk : BufferKey → DiskFault}

/-- **The loop body of `commit_txn`.**  When it returns, the buffer of the
committing epoch has been added whole to its partition, and it and older ones
are gone. -/
theorem flushKey_ok (hg : b.Good) (h : (flushKey disk epoch key).run b = (.ok (), t)) :
    t.Good ∧ t.offsets = b.offsets ∧ FlushedKey epoch key b t ∧
    t.contents = update b.contents key.tp (b.contents key.tp ++ if key.epoch = epoch then b.buffered key else []) := by
  unfold flushKey at h
  split at h
  · rename_i he
    rw [read_bind] at h
    cases hl : b.txnBuffers.lookup key with
    | none =>
      simp only [hl] at h
      obtain ⟨-, rfl⟩ := Prod.mk.inj h
      refine ⟨hg, rfl, ?_, by simp [buffered, hl]⟩
      intro k
      split_ifs with hk
      · rw [hk.1, hl]
      · rfl
    | some rs =>
      simp only [hl] at h
      obtain ⟨base, u, hprod, hdrop⟩ := bind_eq_ok h
      obtain ⟨-, rfl⟩ := Prod.mk.inj hdrop
      obtain ⟨-, -, hsound, hcont, -⟩ := produceInto_ok hg.sound hprod
      have hbu : u.txnBuffers = b.txnBuffers := by
        have := keeps_produceInto txnBuffers (fun _ _ => rfl) (disk key) key.tp rs b
        rwa [hprod] at this
      have hou : u.offsets = b.offsets := by
        have := keeps_produceInto offsets (fun _ _ => rfl) (disk key) key.tp rs b
        rwa [hprod] at this
      refine ⟨(hg.of_buffers hsound hbu).dropBuffer key, hou, ?_, ?_⟩
      · exact flushedKey_dropBuffer he.le (congrArg (AList.erase key) hbu)
      · rw [if_pos he, buffered, hl, Option.getD_some]
        exact hcont
  · rename_i he
    rw [if_neg he, append_nil, update_eq_self]
    split at h
    · rename_i hlt
      obtain ⟨-, rfl⟩ := Prod.mk.inj h
      exact ⟨hg.dropBuffer key, rfl, flushedKey_dropBuffer hlt.le rfl, rfl⟩
    · rename_i hlt
      obtain ⟨-, rfl⟩ := Prod.mk.inj h
      refine ⟨hg, rfl, fun k => ?_, rfl⟩
      rw [if_neg]
      rintro ⟨rfl, hle⟩
      exact hlt (lt_of_le_of_ne hle he)

/-- A loop body that returned was not hit by a fault that leaves something. -/
theorem flushKey_harmless (hg : b.Good) (h : (flushKey disk epoch key).run b = (.ok (), t)) (he : key.epoch = epoch) :
    (disk key).Harmless (b.buffered key).length := by
  unfold flushKey at h
  rw [if_pos he, read_bind] at h
  cases hl : b.txnBuffers.lookup key with
  | none =>
    rw [buffered, hl]
    exact DiskFault.harmless_zero _
  | some rs =>
    simp only [hl] at h
    obtain ⟨base, u, hprod, -⟩ := bind_eq_ok h
    rw [buffered, hl]
    exact DiskFault.harmless_of_spares (produceInto_ok hg.sound hprod).2.2.2.2.2

/-- The records a list of keys holds back for one partition, in key order. -/
def heldFor (b : BrokerStore S) (epoch : ℤ) (keys : List BufferKey) (tp : TopicPartition) :
    List ρ :=
  (keys.filter fun key => key.epoch = epoch ∧ key.tp = tp).flatMap b.buffered

variable {keys : List BufferKey}

/-- **The loop of `commit_txn`.** -/
theorem flushKeys_ok (hnd : keys.Nodup) (hg : b.Good) (h : (flushKeys disk epoch keys).run b = (.ok (), t)) :
    t.Good ∧ t.offsets = b.offsets ∧
    (∀ k, t.txnBuffers.lookup k = if k ∈ keys ∧ k.epoch ≤ epoch then none else b.txnBuffers.lookup k) ∧
    ∀ tp, t.contents tp = b.contents tp ++ b.heldFor epoch keys tp := by
  induction keys generalizing b with
  | nil =>
    obtain ⟨-, rfl⟩ := Prod.mk.inj h
    exact ⟨hg, rfl, by simp, by simp [heldFor]⟩
  | cons key keys ih =>
    obtain ⟨⟨⟩, u, hkey, hrest⟩ := bind_eq_ok h
    obtain ⟨hnot, hnd'⟩ := nodup_cons.1 hnd
    obtain ⟨hgu, hou, hfl, hcu⟩ := flushKey_ok hg hkey
    obtain ⟨hgt, hot, hlt, hct⟩ := ih hnd' hgu hrest
    -- the keys still to come are other keys, so their buffers are untouched
    have hbuf : ∀ k ∈ keys, u.buffered k = b.buffered k := by
      intro k hk
      have hne : k ≠ key := fun he => hnot (he ▸ hk)
      rw [buffered, buffered, hfl k, if_neg fun hc => hne hc.1]
    refine ⟨hgt, hot.trans hou, fun k => ?_, fun tp => ?_⟩
    · rw [hlt k, hfl k]
      by_cases hke : k = key
      · subst hke
        simp [hnot]
      · simp [hke]
    · have hheld : u.heldFor epoch keys tp = b.heldFor epoch keys tp := by
        refine flatMap_congr fun k hk => hbuf k (mem_of_mem_filter hk)
      rw [hct tp, hheld, hcu, heldFor, heldFor, filter_cons]
      by_cases htp : tp = key.tp
      · subst htp
        by_cases he : key.epoch = epoch
        · simp [he]
        · simp [he]
      · rw [update_of_ne htp]
        simp [Ne.symm htp]

theorem flushKeys_harmless (hnd : keys.Nodup) (hg : b.Good) (h : (flushKeys disk epoch keys).run b = (.ok (), t))
    (hk : key ∈ keys) (he : key.epoch = epoch) :
    (disk key).Harmless (b.buffered key).length := by
  induction keys generalizing b with
  | nil => cases hk
  | cons k keys ih =>
    obtain ⟨⟨⟩, u, hone, hrest⟩ := bind_eq_ok h
    obtain ⟨hnot, hnd'⟩ := nodup_cons.1 hnd
    rcases mem_cons.1 hk with rfl | hk
    · exact flushKey_harmless hg hone he
    · obtain ⟨hgu, -, hfl, -⟩ := flushKey_ok hg hone
      have hne : key ≠ k := fun heq => hnot (heq ▸ hk)
      have hbuf : u.buffered key = b.buffered key := by
        rw [buffered, buffered, hfl key, if_neg fun hc => hne hc.1]
      rw [← hbuf]
      exact ih hnd' hgu hrest hk

/-- The loop of `commit_txn` that stopped has flushed the keys before the one
it stopped at. -/
theorem flushKeys_stop (h : (flushKeys disk epoch keys).run b = (.stop w, t)) :
    ∃ pre key post u, keys = pre ++ key :: post ∧ (flushKeys disk epoch pre).run b = (.ok (), u) ∧
      (flushKey disk epoch key).run u = (.stop w, t) := by
  induction keys generalizing b with
  | nil => cases h
  | cons key keys ih =>
    rcases bind_eq_stop h with hkey | ⟨⟨⟩, v, hkey, hrest⟩
    · exact ⟨[], key, keys, b, rfl, rfl, hkey⟩
    · obtain ⟨pre, k, post, u, rfl, hpre, hk⟩ := ih hrest
      exact ⟨key :: pre, k, post, u, rfl, by rw [flushKeys, bind_of_ok hkey, hpre], hk⟩

/-- The loop body stops only in the `produce_into` of a buffer of the committing
epoch, and leaves that buffer. -/
theorem flushKey_stop (h : (flushKey disk epoch key).run b = (.stop w, t)) :
    key.epoch = epoch ∧ ∃ rs, b.txnBuffers.lookup key = some rs ∧
      (produceInto (disk key) key.tp rs).run b = (.stop w, t) := by
  unfold flushKey at h
  split at h
  · rename_i he
    rw [read_bind] at h
    cases hl : b.txnBuffers.lookup key with
    | none =>
      simp only [hl] at h
      cases h
    | some rs =>
      simp only [hl] at h
      rcases bind_eq_stop h with hstop | ⟨base, u, -, hdrop⟩
      · exact ⟨he, rs, rfl, hstop⟩
      · cases hdrop
  · split at h <;> cases h

variable {env : CommitEnv}

theorem mem_keysOf {producerId : ℤ} {k : BufferKey} :
    k ∈ b.keysOf env producerId ↔ k ∈ b.txnBuffers ∧ k.producerId = producerId := by
  rw [keysOf, (env.order.perm _).mem_iff, mem_filter, AList.mem_keys]
  simp

theorem nodup_keysOf (env : CommitEnv) (producerId : ℤ) (b : BrokerStore S) : (b.keysOf env producerId).Nodup :=
  (env.order.perm _).nodup_iff.2 (b.txnBuffers.keys_nodup.filter _)

variable {producerId epoch : ℤ}

/-- Of keys of one producer, the one of an epoch and a partition. -/
theorem heldFor_of_producer (hnd : keys.Nodup)
    (hp : ∀ k ∈ keys, k.producerId = producerId) (tp : TopicPartition) (b : BrokerStore S) :
    b.heldFor epoch keys tp = if ⟨producerId, epoch, tp⟩ ∈ keys then b.buffered ⟨producerId, epoch, tp⟩ else [] := by
  have hfilter : keys.filter (fun k => k.epoch = epoch ∧ k.tp = tp) =
      keys.filter (fun k => k = ⟨producerId, epoch, tp⟩) := by
    refine filter_congr fun k hk => ?_
    have hpk := hp k hk
    rw [decide_eq_decide]
    constructor
    · rintro ⟨rfl, rfl⟩
      rw [← hpk]
    · rintro rfl
      exact ⟨rfl, rfl⟩
  rw [heldFor, hfilter, filter_eq]
  split_ifs with hk
  · rw [count_eq_one_of_mem hnd hk]
    simp
  · rw [count_eq_zero_of_not_mem hk]
    rfl

theorem heldFor_keysOf (env : CommitEnv) (producerId epoch : ℤ) (tp : TopicPartition) (b : BrokerStore S) :
    b.heldFor epoch (b.keysOf env producerId) tp = b.buffered ⟨producerId, epoch, tp⟩ := by
  rw [heldFor_of_producer (nodup_keysOf env producerId b) fun k hk => (mem_keysOf.1 hk).2]
  split_ifs with hk
  · rfl
  · rw [buffered, AList.lookup_eq_none.2 fun h => hk (mem_keysOf.2 ⟨h, rfl⟩)]
    rfl

variable {ps : List TopicPartition}

/-- **`commit_txn` that returned.**  Every partition has gained what the pair
had buffered for it, in buffer order; the producer's buffers up to the epoch
are gone. -/
theorem commitTxn_ok (hg : b.Good) (h : (commitTxn env producerId epoch ps).run b = (.ok (), t)) :
    t.Good ∧ t.offsets = b.offsets ∧
    (∀ k, t.txnBuffers.lookup k = if k.producerId = producerId ∧ k.epoch ≤ epoch then none else b.txnBuffers.lookup k) ∧
    ∀ tp, t.contents tp = b.contents tp ++ b.buffered ⟨producerId, epoch, tp⟩ := by
  obtain ⟨hgt, hot, hlt, hct⟩ := flushKeys_ok (nodup_keysOf env producerId b) hg h
  refine ⟨hgt, hot, fun k => ?_, fun tp => by rw [hct tp, heldFor_keysOf]⟩
  rw [hlt k]
  by_cases hk : k ∈ b.txnBuffers
  · simp only [mem_keysOf, hk, true_and]
  · rw [AList.lookup_eq_none.2 hk, ite_self, ite_self]

variable {p e : ℤ}

/-- A commit that returned was not hit by a fault that leaves something. -/
theorem commitTxn_harmless (hg : b.Good) (h : (commitTxn env p e ps).run b = (.ok (), t)) (tp : TopicPartition) :
    (env.disk ⟨p, e, tp⟩).Harmless (b.buffered ⟨p, e, tp⟩).length := by
  by_cases hk : (⟨p, e, tp⟩ : BufferKey) ∈ b.txnBuffers
  · exact flushKeys_harmless (nodup_keysOf env p b) hg h (mem_keysOf.2 ⟨hk, rfl⟩) rfl
  · rw [buffered, AList.lookup_eq_none.2 hk]
    exact DiskFault.harmless_zero _

/-- **`commit_txn` that stopped**: the buffers listed before the one it stopped
at are in their logs and gone; that one is still there, and its `produce_into`
is what stopped. -/
theorem commitTxn_stop (hg : b.Good) (h : (commitTxn env p e ps).run b = (.stop w, t)) :
    ∃ pre tp post u, b.keysOf env p = pre ++ ⟨p, e, tp⟩ :: post ∧ u.Good ∧ (∀ k, u.txnBuffers.lookup k =
        if k ∈ pre ∧ k.epoch ≤ e then none else b.txnBuffers.lookup k) ∧
      (∀ q, u.contents q = b.contents q ++ if ⟨p, e, q⟩ ∈ pre then b.buffered ⟨p, e, q⟩ else []) ∧
      (produceInto (env.disk ⟨p, e, tp⟩) tp (b.buffered ⟨p, e, tp⟩)).run u = (.stop w, t) ∧
      t.txnBuffers = u.txnBuffers := by
  obtain ⟨pre, key, post, u, hkeys, hpre, hkey⟩ := flushKeys_stop h
  have hnd := nodup_keysOf env p b
  have hprod : ∀ k ∈ b.keysOf env p, k.producerId = p := fun k hk => (mem_keysOf.1 hk).2
  rw [hkeys] at hnd hprod
  obtain ⟨hndpre, -, hdisj⟩ := nodup_append.1 hnd
  obtain ⟨hgu, -, hbu, hcu⟩ := flushKeys_ok hndpre hg hpre
  obtain ⟨he, rs, hl, hrun⟩ := flushKey_stop hkey
  have hkp : key.producerId = p := hprod key (by simp)
  obtain ⟨tp, rfl⟩ : ∃ tp, key = ⟨p, e, tp⟩ := ⟨key.tp, by rw [← hkp, ← he]⟩
  -- the key comes after `pre`, so its buffer is the one the commit began with
  have hnot : (⟨p, e, tp⟩ : BufferKey) ∉ pre := fun hm => hdisj _ hm _ mem_cons_self rfl
  have hrs : rs = b.buffered ⟨p, e, tp⟩ := by
    have := hbu ⟨p, e, tp⟩
    rw [if_neg fun hc => hnot hc.1, hl] at this
    rw [buffered, ← this, Option.getD_some]
  subst hrs
  refine ⟨pre, tp, post, u, hkeys, hgu, hbu, fun q => ?_, hrun, ?_⟩
  · rw [hcu q, heldFor_of_producer hndpre fun k hk => hprod k (mem_append_left _ hk)]
  · have := keeps_produceInto txnBuffers (fun _ _ => rfl) (env.disk ⟨p, e, tp⟩) tp (b.buffered ⟨p, e, tp⟩) u
    rwa [hrun] at this

/-- `abort_txn` touches no log and drops the producer's buffers up to the epoch. -/
theorem lookup_abortTxn (producerId epoch : ℤ) (ps : List TopicPartition) (b : BrokerStore S) (k : BufferKey) :
    (b.abortTxn producerId epoch ps).txnBuffers.lookup k =
      if k.producerId = producerId ∧ k.epoch ≤ epoch then none else b.txnBuffers.lookup k := by
  rw [abortTxn, lookup_retainKeys]
  by_cases hk : k.producerId = producerId ∧ k.epoch ≤ epoch
  · simp [hk.1, hk.2]
  · rw [if_neg hk, if_pos]
    rw [not_and_or] at hk
    simpa using hk

theorem buffered_abortTxn (producerId epoch : ℤ) (ps : List TopicPartition) (b : BrokerStore S) (k : BufferKey) :
    (b.abortTxn producerId epoch ps).buffered k =
      if k.producerId = producerId ∧ k.epoch ≤ epoch then [] else b.buffered k := by
  rw [buffered, lookup_abortTxn]
  split_ifs <;> rfl

theorem Good.abortTxn (h : b.Good) (producerId epoch : ℤ) (ps : List TopicPartition) :
    (b.abortTxn producerId epoch ps).Good := by
  refine ⟨h.sound, fun k r hr => h.valid k r ?_⟩
  rw [buffered_abortTxn] at hr
  split_ifs at hr
  · cases hr
  · exact hr

/-- A flush does not touch the committed offsets. -/
theorem keeps_offsets_flushKeys (disk : BufferKey → DiskFault) (epoch : ℤ)
    (keys : List BufferKey) : (flushKeys (S := S) disk epoch keys).Keeps BrokerStore.offsets := by
  induction keys with
  | nil => exact .pure ()
  | cons key keys ih =>
    refine .bind (.ite (Action.Keeps.read.bind fun b => ?_) (.ite (.modify fun _ => rfl) (.pure ()))) fun _ => ih
    cases b.txnBuffers.lookup key with
    | none => exact .pure ()
    | some rs =>
      exact (keeps_produceInto _ (fun _ _ => rfl) _ _ _).bind fun _ => .modify fun _ => rfl

theorem keeps_offsets_bufferTxn (f : DiskFault) (key : BufferKey) (rs : List ρ) :
    (bufferTxn (S := S) f key rs).Keeps BrokerStore.offsets := by
  refine .ite (.halt _) ((keeps_onRecords _ (fun _ _ => rfl) _).bind fun _ =>
    Action.Keeps.read.bind fun _ => .bind ?_ fun _ => .pure _)
  exact fun _ => rfl

theorem keeps_offsets_commitTxn (env : CommitEnv) (p e : ℤ) (ps : List TopicPartition) :
    (commitTxn (S := S) env p e ps).Keeps BrokerStore.offsets :=
  Action.Keeps.read.bind fun _ => keeps_offsets_flushKeys _ _ _

/-- What a commit writes to the offset store. -/
def written (group : Option String) (offsets : List (TopicPartition × ℤ)) : List (String × ℕ) :=
  match group with
  | some g => offsets.map fun entry => (offsetKey g entry.1, entry.2.toNat)
  | none => []

variable {offsets : List (TopicPartition × ℤ)} {stop : ℕ → Option (Stop ErrorKind)}

theorem commitOffsets_ok {group : String} {i : ℕ} (h : (commitOffsets stop group i offsets).run b = (.ok (), t)) :
    t.offsets = b.offsets ++ written (some group) offsets := by
  induction offsets generalizing b i with
  | nil =>
    obtain ⟨-, rfl⟩ := Prod.mk.inj h
    simp [written]
  | cons entry rest ih =>
    obtain ⟨⟨⟩, u, hone, hrest⟩ := bind_eq_ok h
    unfold commitOffset at hone
    split at hone
    · cases hone
    · obtain ⟨-, rfl⟩ := Prod.mk.inj hone
      rw [ih hrest]
      simp [written]

/-- The loop over the staged offsets stops only where the offset store does. -/
theorem commitOffsets_stop {group : String} {i : ℕ}
    (h : (commitOffsets stop group i offsets).run b = (.stop w, t)) : ∃ j, stop j = some w := by
  induction offsets generalizing b i with
  | nil => cases h
  | cons entry rest ih =>
    rcases bind_eq_stop h with hone | ⟨⟨⟩, u, -, hrest⟩
    · unfold commitOffset at hone
      split at hone
      · rename_i why hwhy
        obtain rfl := Outcome.stop.inj (Prod.mk.inj hone).1
        exact ⟨i, hwhy⟩
      · cases hone
    · exact ih hrest

/-- The staged offsets touch neither the logs nor the buffers. -/
theorem keeps_commitOffsets {γ : Type} (part : BrokerStore S → γ)
    (h : ∀ (b : BrokerStore S) os, part { b with offsets := os } = part b)
    (stop : ℕ → Option (Stop ErrorKind)) (group : String) (i : ℕ)
    (offsets : List (TopicPartition × ℤ)) : (commitOffsets stop group i offsets).Keeps part := by
  induction offsets generalizing i with
  | nil => exact .pure ()
  | cons entry rest ih =>
    refine .bind ?_ fun _ => ih (i + 1)
    cases stop i with
    | none => exact .modify fun b => h b _
    | some w => exact .halt w

variable {group : Option String}

/-- **`commit_txn_with_offsets` that returned**: the records are flushed, then
every staged offset is written under the one group. -/
theorem commitTxnWithOffsets_ok (h : (commitTxnWithOffsets env p e ps group offsets).run b = (.ok (), t)) :
    ∃ u, (commitTxn env p e ps).run b = (.ok (), u) ∧ t.records = u.records ∧
      t.txnBuffers = u.txnBuffers ∧ t.offsets = b.offsets ++ written group offsets := by
  obtain ⟨⟨⟩, u, hflush, hrest⟩ := bind_eq_ok h
  have hu : u.offsets = b.offsets := by
    have := keeps_offsets_commitTxn env p e ps b
    rwa [hflush] at this
  refine ⟨u, hflush, ?_⟩
  cases group with
  | none =>
    obtain ⟨-, rfl⟩ := Prod.mk.inj hrest
    exact ⟨rfl, rfl, by rw [hu, written, append_nil]⟩
  | some g =>
    have hr := keeps_commitOffsets records (fun _ _ => rfl) env.offsetStop g 0 offsets u
    have hb := keeps_commitOffsets txnBuffers (fun _ _ => rfl) env.offsetStop g 0 offsets u
    rw [hrest] at hr hb
    exact ⟨hr, hb, by rw [commitOffsets_ok hrest, hu]⟩

/-- **`commit_txn_with_offsets` that stopped** has stopped in the flush, or after
it, where the offset store did. -/
theorem commitTxnWithOffsets_stop_cases (h : (commitTxnWithOffsets env p e ps group offsets).run b = (.stop w, t)) :
    (commitTxn env p e ps).run b = (.stop w, t) ∨
    ∃ u j, (commitTxn env p e ps).run b = (.ok (), u) ∧ env.offsetStop j = some w ∧
      t.records = u.records ∧ t.txnBuffers = u.txnBuffers := by
  rcases bind_eq_stop h with hflush | ⟨⟨⟩, u, hflush, hrest⟩
  · exact .inl hflush
  · cases group with
    | none => cases hrest
    | some g =>
      obtain ⟨j, hj⟩ := commitOffsets_stop hrest
      have hr := keeps_commitOffsets records (fun _ _ => rfl) env.offsetStop g 0 offsets u
      have hb := keeps_commitOffsets txnBuffers (fun _ _ => rfl) env.offsetStop g 0 offsets u
      rw [hrest] at hr hb
      exact .inr ⟨u, j, hflush, hj, hr, hb⟩

/-- While the offset store does not stop, a commit that stopped has stopped in
the flush, before the first offset. -/
theorem commitTxnWithOffsets_stop (hcalm : ∀ i, env.offsetStop i = none)
    (h : (commitTxnWithOffsets env p e ps group offsets).run b = (.stop w, t)) :
    t.offsets = b.offsets := by
  rcases commitTxnWithOffsets_stop_cases h with hflush | ⟨u, j, -, hj, -⟩
  · have := keeps_offsets_commitTxn env p e ps b
    rwa [hflush] at this
  · rw [hcalm j] at hj
    cases hj

end BrokerStore

end Datarail.Kafka
