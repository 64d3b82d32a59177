/-
# Where a readable record comes from

One request can make a record readable in two ways only: a plain `Produce` brings it,
or an `EndTxn(commit)` that `end_txn` accepts flushes it from a buffer of its own pair.
And a record gets into a buffer only by a transactional `Produce` that carries the
buffer's pair.  Failing writes do not add a third way, as long as no frame is cut
short under a process that goes on (`Env.Clean`).
-/

import Datarail.Kafka.Serve
import Mathlib.Data.List.Infix

namespace Datarail.Kafka

open Lib List BrokerStore

/-- The fault cuts no frame short, or the process dies with it. -/
def DiskFault.Clean (f : DiskFault) : Prop := ∀ n, f.left n ≠ Option.none

/-- No fault of the environment cuts a frame short under a process that goes on. -/
structure Env.Clean (env : Env) : Prop where
  disk : env.disk.Clean
  commit : ∀ key, (env.commit.disk key).Clean

theorem Env.clean_calm : Env.calm.Clean := ⟨fun _ => Option.some_ne_none _, fun _ _ => Option.some_ne_none _⟩

section Store

variable {ρ : Type} {S : RecordStore ρ} {b t : BrokerStore S}

/-- The logs have only grown, by records of `fresh tp`, and the buffers by records of
`held key`. -/
structure Grown (fresh : TopicPartition → ρ → Prop) (held : BufferKey → ρ → Prop)
    (b t : BrokerStore S) : Prop where
  good : t.Good
  extends_ : ∀ tp, b.contents tp <+: t.contents tp
  readable : ∀ tp, ∀ r ∈ t.contents tp, r ∈ b.contents tp ∨ fresh tp r
  buffered : ∀ key, ∀ r ∈ t.buffered key, r ∈ b.buffered key ∨ held key r

namespace Grown

variable {fresh fresh' : TopicPartition → ρ → Prop} {held held' : BufferKey → ρ → Prop}

/-- The logs read the same and no buffer has grown. -/
theorem of_same (hg : t.Good) (hc : t.contents = b.contents)
    (hb : ∀ key, ∀ r ∈ t.buffered key, r ∈ b.buffered key) : Grown fresh held b t :=
  ⟨hg, fun _ => hc ▸ prefix_rfl, fun _ _ hr => .inl (hc ▸ hr), fun key r hr => .inl (hb key r hr)⟩

theorem refl (hg : b.Good) : Grown fresh held b b := of_same hg rfl fun _ _ => id

theorem mono (h : Grown fresh held b t) (hf : ∀ tp r, fresh tp r → fresh' tp r)
    (hh : ∀ key r, held key r → held' key r) : Grown fresh' held' b t :=
  ⟨h.good, h.extends_, fun tp r hr => (h.readable tp r hr).imp_right (hf tp r),
    fun key r hr => (h.buffered key r hr).imp_right (hh key r)⟩

variable {u : BrokerStore S}

theorem trans (h : Grown fresh held b u) (h' : Grown fresh held u t) :
    Grown fresh held b t :=
  ⟨h'.good, fun tp => (h.extends_ tp).trans (h'.extends_ tp),
    fun tp r hr => (h'.readable tp r hr).elim (h.readable tp r) .inr,
    fun key r hr => (h'.buffered key r hr).elim (h.buffered key r) .inr⟩

/-- Only logs and buffers count. -/
theorem congr (h : Grown fresh held b u) (hr : t.records = u.records)
    (hb : t.txnBuffers = u.txnBuffers) : Grown fresh held b t := by
  have hc : t.contents = u.contents := by
    funext tp
    rw [contents, hr, contents]
  exact h.trans (.of_same (h.good.of_buffers (hr ▸ h.good.sound) hb) hc fun key r hk =>
    buffered_congr hb key ▸ hk)

/-- A restart keeps what can be read and drops every buffer. -/
theorem restart (h : Grown fresh held b t) : Grown fresh held b t.restart := by
  refine ⟨good_restart h.good, ?_, ?_, nofun⟩
  · rw [contents_restart h.good]
    exact h.extends_
  · rw [contents_restart h.good]
    exact h.readable

end Grown

/-- `produce_into` adds records of its batch to its partition. -/
theorem grown_produceInto {f : DiskFault} (held : BufferKey → ρ → Prop) (tp : TopicPartition)
    (rs : List ρ) (hg : b.Good) (hf : f.Clean) :
    Grown (fun q r => q = tp ∧ r ∈ rs) held b ((produceInto f tp rs).run b).2 := by
  obtain ⟨k, hk⟩ := Option.ne_none_iff_exists'.1 (hf rs.length)
  obtain ⟨hgood, hbuf, hprefix, hc⟩ := produceInto_run hg hk (Prod.mk.eta (p := (produceInto f tp rs).run b)).symm
  have hb := buffered_congr hbuf
  rcases hc with hc | hc
  · exact .of_same hgood hc fun key r hr => hb key ▸ hr
  · refine ⟨hgood, hprefix, fun q r hr => ?_, fun key r hr => .inl (hb key ▸ hr)⟩
    · rw [hc] at hr
      by_cases hq : q = tp
      · subst hq
        rw [Function.update_self] at hr
        exact (mem_append.1 hr).imp_right fun h => ⟨rfl, mem_of_mem_take h⟩
      · rw [Function.update_of_ne hq] at hr
        exact .inl hr

/-- A store in which some buffers are gone. -/
theorem mem_of_lookup {gone : BufferKey → Prop} [DecidablePred gone]
    (h : ∀ k, t.txnBuffers.lookup k = if gone k then none else b.txnBuffers.lookup k)
    (key : BufferKey) (r : ρ) (hr : r ∈ t.buffered key) : r ∈ b.buffered key := by
  rw [buffered, h key] at hr
  split_ifs at hr with hgone
  · cases hr
  · exact hr

variable {ps : List TopicPartition} {p e : ℤ}

/-- `commit_txn`, however it ends, adds to a partition records that the pair had
buffered for it. -/
theorem grown_commitTxn {env : CommitEnv}
    (held : BufferKey → ρ → Prop) (hg : b.Good) (henv : ∀ key, (env.disk key).Clean) :
    Grown (fun tp r => r ∈ b.buffered ⟨p, e, tp⟩) held b ((commitTxn env p e ps).run b).2 := by
  rcases hrun : (commitTxn env p e ps).run b with ⟨⟨⟩ | w, t⟩
  · obtain ⟨hgt, -, hl, hc⟩ := commitTxn_ok hg hrun
    refine ⟨hgt, fun tp => ?_, fun tp r hr => ?_, fun key r hr => .inl (mem_of_lookup hl key r hr)⟩
    · rw [hc tp]
      exact prefix_append _ _
    · rw [hc tp] at hr
      exact mem_append.1 hr
  · obtain ⟨pre, tp, post, u, -, hgu, hl, hc, hstop, -⟩ := commitTxn_stop hg hrun
    have hpre : Grown (fun tp r => r ∈ b.buffered ⟨p, e, tp⟩) held b u := by
      refine ⟨hgu, fun q => ?_, fun q r hr => ?_, fun key r hr => .inl (mem_of_lookup hl key r hr)⟩
      · rw [hc q]
        exact prefix_append _ _
      · rw [hc q] at hr
        refine (mem_append.1 hr).imp_right fun hr => ?_
        split_ifs at hr with hq
        · exact hr
        · cases hr
    have hlast := grown_produceInto held tp (b.buffered ⟨p, e, tp⟩) hgu (henv ⟨p, e, tp⟩)
    rw [hstop] at hlast
    exact hpre.trans (hlast.mono (fun q r h => h.1 ▸ h.2) fun _ _ => id)

/-- The commit of the consumer offsets after it changes neither logs nor buffers. -/
theorem grown_commitTxnWithOffsets {env : CommitEnv}
    {group : Option String} {offsets : List (TopicPartition × ℤ)} (held : BufferKey → ρ → Prop)
    (hg : b.Good) (henv : ∀ key, (env.disk key).Clean) :
    Grown (fun tp r => r ∈ b.buffered ⟨p, e, tp⟩) held b ((commitTxnWithOffsets env p e ps group offsets).run b).2 := by
  have hflush : Grown (fun tp r => r ∈ b.buffered ⟨p, e, tp⟩) held b
      ((commitTxn env p e ps).run b).2 := grown_commitTxn held hg henv
  rcases hrun : (commitTxnWithOffsets env p e ps group offsets).run b with ⟨⟨⟩ | w, t⟩
  · obtain ⟨u, hu, hr, hb, -⟩ := commitTxnWithOffsets_ok hrun
    rw [hu] at hflush
    exact hflush.congr hr hb
  · rcases commitTxnWithOffsets_stop_cases hrun with hu | ⟨u, _, hu, -, hr, hb⟩
    · rw [hu] at hflush
      exact hflush
    · rw [hu] at hflush
      exact hflush.congr hr hb

/-- `buffer_txn` adds its batch to its buffer. -/
theorem grown_bufferTxn {f : DiskFault} {key : BufferKey} {rs : List ρ}
    (fresh : TopicPartition → ρ → Prop) (hg : b.Good) :
    Grown fresh (fun k r => k = key ∧ r ∈ rs) b ((bufferTxn f key rs).run b).2 := by
  rcases hrun : (bufferTxn f key rs).run b with ⟨base | w, t⟩
  · obtain ⟨hgt, -, hc, hb, -⟩ := bufferTxn_ok hg hrun
    refine ⟨hgt, fun _ => hc ▸ prefix_rfl, fun _ _ hr => .inl (hc ▸ hr), fun k r hr => ?_⟩
    rw [hb k] at hr
    split_ifs at hr with hk
    · subst hk
      exact (mem_append.1 hr).imp_right fun hr => ⟨rfl, hr⟩
    · exact .inl hr
  · obtain ⟨hgt, -, hc, hb⟩ := bufferTxn_stop hg hrun
    refine .of_same hgt hc fun k r hr => ?_
    rwa [buffered, hb] at hr

theorem grown_abortTxn (ps : List TopicPartition) (fresh : TopicPartition → ρ → Prop)
    (held : BufferKey → ρ → Prop) (hg : b.Good) : Grown fresh held b (b.abortTxn p e ps) :=
  .of_same (hg.abortTxn p e ps) rfl (mem_of_lookup (lookup_abortTxn p e ps b))

end Store

section Broker

variable {ρ : Type} {S : RecordStore ρ}

/-- The request makes a record readable in a partition: it is a plain `Produce` of it,
or an accepted `EndTxn(commit)` of the pair that holds it back. -/
def Request.Adds (b : Broker S) (tp : TopicPartition) (r : ρ) : Request ρ → Prop
  | .produce q => q.eos.filter (·.transactional) = none ∧ tp = q.tp ∧ r ∈ q.values
  | .endTxn t p e true =>
    (b.txn.endTxn t p e true).errorCode = 0 ∧ r ∈ b.store.buffered ⟨p, e, tp⟩
  | _ => False

/-- The request holds a record back under a key: it is a transactional `Produce` of it
that carries the pair of the key. -/
def Request.Holds (key : BufferKey) (r : ρ) : Request ρ → Prop
  | .produce q => ∃ eos, q.eos = some eos ∧ eos.transactional = true ∧
      key = ⟨eos.producerId, eos.producerEpoch, q.tp⟩ ∧ r ∈ q.values
  | _ => False

variable {b : Broker S} {env : Env} {fresh : TopicPartition → ρ → Prop} {held : BufferKey → ρ → Prop}

/-- A handler grows the store as its one store call does. -/
theorem grown_answer {α : Type} {x : Action ErrorKind (BrokerStore S) α}
    {onOk : Broker S → α → Broker S × Reply ρ} {onErr : ErrorKind → Reply ρ}
    (h : Grown fresh held b.store (x.run b.store).2)
    (hok : ∀ b a, (onOk b a).1.store = b.store) :
    Grown fresh held b.store (b.answer x onOk onErr).1.store := by
  rcases b.answer_cases x onOk onErr with ⟨a, store, hrun, heq⟩ | ⟨kind, store, hrun, heq⟩ |
    ⟨store, hrun, heq⟩ | ⟨store, hrun, heq⟩ <;> rw [hrun] at h <;> rw [heq]
  · rw [hok]
    exact h
  · exact h
  · exact h
  · exact h.restart

theorem grown_produceEntry (hg : b.store.Good) (henv : env.Clean) (q : ProducedPartition ρ) :
    Grown ((Request.produce q).Adds b · ·) ((Request.produce q).Holds · ·) b.store (b.produceEntry env q).1.store := by
  rcases b.produceEntry_cases env q with ⟨-, heq⟩ | ⟨code, -, heq⟩ | ⟨eos, he, ht, -, -, heq⟩ |
    ⟨hplain, -, heq⟩ <;> rw [heq]
  · exact .refl hg
  · exact .refl hg
  · refine grown_answer ((grown_bufferTxn (fun _ _ => False) hg).mono (fun _ _ => False.elim) ?_) fun _ _ => rfl
    rintro key r ⟨rfl, hr⟩
    exact ⟨eos, he, ht, rfl, hr⟩
  · refine grown_answer ((grown_produceInto (fun _ _ => False) q.tp q.values hg henv.disk).mono ?_
      fun _ _ => False.elim) fun _ _ => rfl
    rintro tp r ⟨rfl, hr⟩
    exact ⟨hplain, rfl, hr⟩

theorem grown_endTxn (hg : b.store.Good) (henv : env.Clean) (t : String) (p e : ℤ) (commit : Bool) :
    Grown ((Request.endTxn t p e commit).Adds b · ·) held b.store (b.endTxn env t p e commit).1.store := by
  by_cases hz : (b.txn.endTxn t p e commit).errorCode = 0
  · rcases b.endTxn_cases env t p e commit with ⟨code, hcode, heq⟩ | ⟨st, -, -, -, ⟨rfl, heq⟩ | ⟨rfl, heq⟩⟩ <;> rw [heq]
    · exact .refl hg
    · exact grown_abortTxn st.partitions.toList _ _ hg
    · refine grown_answer ((grown_commitTxnWithOffsets _ hg henv.commit).mono ?_ fun _ _ => id) fun _ _ => rfl
      exact fun tp r hr => ⟨hz, hr⟩
  · rw [Broker.endTxn, if_pos hz]
    exact .refl hg

/-- **One request.**  Whatever becomes readable is added by it, and whatever is held
back from now on is held back by it. -/
theorem grown_handle (hg : b.store.Good) (henv : env.Clean) (req : Request ρ) :
    Grown (req.Adds b · ·) (req.Holds · ·) b.store (b.handle env req).1.store := by
  cases req with
  | initProducerId t =>
    cases t with
    | none => exact .refl hg
    | some t => exact grown_abortTxn [] _ _ hg
  | addPartitions t p e ps => exact .refl hg
  | addOffsets t p e g => exact .refl hg
  | txnOffsetCommit t g p e os => exact .refl hg
  | endTxn t p e commit => exact grown_endTxn hg henv t p e commit
  | produce q => exact grown_produceEntry hg henv q
  | fetch tp o m =>
    refine grown_answer ?_ fun _ _ => rfl
    obtain ⟨hgt, hc, hb⟩ := fetch_run hg (Prod.mk.eta (p := _)).symm
    refine .of_same hgt hc fun key r hr => ?_
    rwa [buffered, hb] at hr
  | restart => exact (Grown.refl hg).restart

end Broker

end Datarail.Kafka
