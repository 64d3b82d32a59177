/-
# The identity of an idempotent producer

The ids that `InitProducerId` grants come from a counter of the daemon process
(`next_producer_id` of `serve`, `crates/datarail-kafka/src/serve.rs`) that starts at 1.
The watermark the batches of a producer are compared with is a row of the database, under
a stream id of the route, the topic, the partition, the id and the epoch
(`eos_stream_id`).  A restart begins the counter anew and keeps the rows.

A history is any sequence of grants, of batches sent by the holders of grants, of plain
batches and of restarts.  The ids of a history are a function of where its grants and
restarts stand (`issued`), every row was written by a batch sent before (`owned`), and
so the identities of a history keep apart precisely when all its grants fall into one
lifetime of the process, whose counter does not come round (`identities_apart_iff`).
-/

import Datarail.Ingest.Daemon
import Datarail.Lib.Text

namespace Datarail.Ingest

open Lib Terminal Once Kafka List

/-- `InitProducerId` of `handle_connection`; the epoch is always 0, and `fetch_add` wraps. -/
def Daemon.initProducerId (d : Daemon) : Daemon × ℤ :=
  ({ d with nextProducerId := wrapI64 (d.nextProducerId + 1) }, d.nextProducerId)

/-- A topic and a partition of it, an `i32` of the wire. -/
structure Channel where
  topic : String
  partition : ℤ
  range : -2147483648 ≤ partition ∧ partition ≤ 2147483647

/-- What happens to the daemon and its sink. -/
inductive Event where
  | initProducerId
  /-- The holder of the grant at a position of the history sends a batch. -/
  | produce (grant : ℕ) (channel : Channel) (baseSequence count : ℤ) (values : List Bytes) (env : Env)
  /-- A producer without idempotence sends a batch. -/
  | producePlain (channel : Channel) (values : List Bytes) (env : Env)
  | restart

/-- A batch of the holder of a grant to a channel. -/
def Event.Under (grant : ℕ) (channel : Channel) : Event → Prop
  | .produce g c _ _ _ _ => g = grant ∧ c = channel
  | _ => False

/-- The daemon, its sink, and the ids granted so far by any of its processes. -/
structure World where
  daemon : Daemon
  grants : List ℤ

/-- A batch as the holder of the id `pid` sends it. -/
def grantedBatch (pid : ℤ) (channel : Channel) (baseSequence count : ℤ) (values : List Bytes) :
    ProducedBatch :=
  { topic := channel.topic
    partition := channel.partition
    values
    eos := some ⟨pid, 0, baseSequence, count, false⟩ }

/-- One event, and the id or the code it is answered with. -/
def World.step (C : Crypto) (r : Route) (w : World) : Event → World × ℤ
  | .initProducerId =>
    let (daemon, pid) := w.daemon.initProducerId
    ({ daemon, grants := w.grants ++ [pid] }, pid)
  | .produce grant channel baseSequence count values env =>
    match w.grants[grant]? with
    | none => (w, 0)
    | some pid =>
      let (daemon, code) :=
        w.daemon.ingest C env (grantedBatch pid channel baseSequence count values)
      ({ w with daemon }, code)
  | .producePlain channel values env =>
    let (daemon, code) := w.daemon.ingest C env ⟨channel.topic, channel.partition, values, none⟩
    ({ w with daemon }, code)
  | .restart => ({ w with daemon := r.start C w.daemon.db }, 0)

/-- The histories of a route's daemon. -/
def historyMachine (C : Crypto) (r : Route) : Machine World Event ℤ where
  step := World.step C r

/-- The first process, over a sink that has no watermark yet. -/
def World.new (C : Crypto) (r : Route) (table : List Bytes) : World :=
  { daemon := r.start C ⟨table, .empty⟩, grants := [] }

/-- The stream the batches of an id to a channel are deduplicated under. -/
def channelStream (r : Route) (channel : Channel) (pid : ℤ) : Bytes :=
  eosStreamId r.routeId.1 channel.topic channel.partition pid 0

/-- A stream id names all that it is made of. -/
theorem eosStreamId_inj {routeId routeId' : Bytes} {topic topic' : String} {p p' pid pid' epoch epoch' : ℤ}
    (hroute : routeId.length = routeId'.length) (hp : |p - p'| < 256 ^ 4) (hpid : |pid - pid'| < 256 ^ 8)
    (hepoch : |epoch - epoch'| < 256 ^ 2)
    (h : eosStreamId routeId topic p pid epoch = eosStreamId routeId' topic' p' pid' epoch') :
    routeId = routeId' ∧ topic = topic' ∧ p = p' ∧ pid = pid' ∧ epoch = epoch' := by
  have hbytes (n x y) : (beInt n x).length = (beInt n y).length := (length_beBytes _ _).trans (length_beBytes _ _).symm
  obtain ⟨h, he⟩ := append_inj' h (hbytes ..)
  obtain ⟨h, hi⟩ := append_inj' h (hbytes ..)
  obtain ⟨h, hpart⟩ := append_inj' h (hbytes ..)
  obtain ⟨hr, ht⟩ := append_inj h hroute
  exact ⟨hr, utf8Bytes_inj ht, beInt_inj hp hpart, beInt_inj hpid hi, beInt_inj hepoch he⟩

/-- **A stream id names its channel and its producer.** -/
theorem channelStream_inj {r : Route} {c c' : Channel} {p p' : ℤ} (hp : i64Min ≤ p ∧ p ≤ i64Max)
    (hp' : i64Min ≤ p' ∧ p' ≤ i64Max) (h : channelStream r c p = channelStream r c' p') :
    c = c' ∧ p = p' := by
  have h₁ := c.range
  have h₂ := c'.range
  unfold i64Min i64Max at hp hp'
  obtain ⟨-, htopic, hpartition, hpid, -⟩ := eosStreamId_inj rfl (by rw [abs_lt]; omega) (by rw [abs_lt]; omega)
    (by decide) h
  cases c'
  obtain rfl : _ = _ := htopic
  obtain rfl : _ = _ := hpartition
  exact ⟨rfl, hpid⟩

/-- The ids a history grants when the process has granted `c` before it. -/
def issued : ℕ → List Event → List ℤ
  | _, [] => []
  | c, .initProducerId :: h => wrapI64 (1 + c) :: issued (c + 1) h
  | _, .restart :: h => issued 0 h
  | c, .produce .. :: h => issued c h
  | c, .producePlain .. :: h => issued c h

section Run

variable {C : Crypto} {r : Route} {w : World}

theorem grants_final {c : ℕ} (hc : w.daemon.nextProducerId = wrapI64 (1 + c))
    (h : List Event) : ((historyMachine C r).final w h).grants = w.grants ++ issued c h := by
  induction h generalizing w c with
  | nil => exact (append_nil _).symm
  | cons e h ih =>
    rw [Machine.final_cons]
    cases e with
    | initProducerId =>
      have hnext : wrapI64 (w.daemon.nextProducerId + 1) = wrapI64 (1 + (c + 1 : ℕ)) := by
        rw [hc]
        unfold wrapI64
        omega
      rw [ih hnext, issued, ← hc]
      simp [historyMachine, World.step, Daemon.initProducerId]
    | produce g ch base count values env =>
      simp only [historyMachine, World.step]
      split
      · exact ih hc
      · exact ih ((Daemon.ingest_nextProducerId C env _ _).trans hc)
    | producePlain ch values env => exact ih ((Daemon.ingest_nextProducerId C env _ _).trans hc)
    | restart => exact ih rfl

theorem grants_prefix (w : World) (h : List Event) :
    IsPrefix w.grants ((historyMachine C r).final w h).grants := by
  induction h generalizing w with
  | nil => exact prefix_rfl
  | cons e h ih =>
    refine IsPrefix.trans ?_ (ih _)
    cases e with
    | initProducerId => exact prefix_append _ _
    | produce g ch base count values env =>
      simp only [historyMachine, World.step]
      split <;> exact prefix_rfl
    | producePlain => exact prefix_rfl
    | restart => exact prefix_rfl

/-- An id that was granted stays granted. -/
theorem getElem?_grants_final {h : List Event} {g : ℕ} {pid : ℤ}
    (hg : w.grants[g]? = some pid) : ((historyMachine C r).final w h).grants[g]? = some pid := by
  obtain ⟨rest, hrest⟩ := grants_prefix (C := C) (r := r) w h
  rw [← hrest, getElem?_append_left (List.getElem?_eq_some_iff.1 hg).1, hg]

theorem config_final (table : List Bytes) (h : List Event) :
    ((historyMachine C r).final (.new C r table) h).daemon.src.config = r.config C := by
  refine (historyMachine C r).invariant_of_step (fun _ _ => True)
    (fun _ w => w.daemon.src.config = r.config C) ?_ (.new C r table) h [] (Machine.guarded_true _ _ _) rfl
  intro _ w e _ hw
  cases e with
  | initProducerId => exact hw
  | produce g ch base count values env =>
    simp only [historyMachine, World.step]
    split
    · exact hw
    · exact (Daemon.ingest_config C env _ _).trans hw
  | producePlain ch values env => exact (Daemon.ingest_config C env _ _).trans hw
  | restart => rfl

/-- A batch was sent to a stream before the `k`-th event. -/
def SentBefore (C : Crypto) (r : Route) (table : List Bytes) (h : List Event) (k : ℕ) (stream : Bytes) :
    Prop :=
  ∃ j < k, ∃ e g ch pid, h[j]? = some e ∧ e.Under g ch ∧
    ((historyMachine C r).final (.new C r table) (h.take j)).grants[g]? = some pid ∧
    stream = channelStream r ch pid

theorem SentBefore.succ {table : List Bytes} {h : List Event} {k : ℕ} {stream : Bytes}
    (hs : SentBefore C r table h k stream) : SentBefore C r table h (k + 1) stream := by
  obtain ⟨j, hj, hrest⟩ := hs
  exact ⟨j, Nat.lt_succ_of_lt hj, hrest⟩

/-- An event moves no watermark but the one of the batch it brings. -/
theorem step_watermarks (hconfig : w.daemon.src.config = r.config C) (e : Event) (stream : Bytes) :
    (World.step C r w e).1.daemon.db.watermarks.get stream = w.daemon.db.watermarks.get stream ∨
      ∃ g ch pid, e.Under g ch ∧ w.grants[g]? = some pid ∧ stream = channelStream r ch pid := by
  cases e with
  | initProducerId => exact .inl rfl
  | restart => exact .inl rfl
  | producePlain ch values env =>
    refine .inl (Daemon.ingest_watermarks C env ?_)
    intro c hc
    cases hc
  | produce g ch base count values env =>
    rcases hpid : w.grants[g]? with _ | pid
    · left
      simp only [World.step, hpid]
    · by_cases hown : stream = channelStream r ch pid
      · exact .inr ⟨g, ch, pid, ⟨rfl, rfl⟩, hpid, hown⟩
      · simp only [World.step, hpid]
        refine .inl (Daemon.ingest_watermarks C env ?_)
        intro c hc
        obtain rfl := Option.some.inj hc
        rw [hconfig]
        exact hown

/-- **Every watermark was written by a batch.** -/
theorem owned (table : List Bytes) (h : List Event) (k : ℕ) (stream : Bytes) {v : ℤ}
    (hv : ((historyMachine C r).final (.new C r table) (h.take k)).daemon.db.watermarks.get stream = some v) :
    SentBefore C r table h k stream := by
  induction k generalizing v with
  | zero => cases hv
  | succ k ih =>
    rcases hk : h[k]? with _ | e
    · rw [take_add_one, hk, Option.toList_none, append_nil] at hv
      exact (ih hv).succ
    · rw [Machine.final_take_succ _ hk] at hv
      rcases step_watermarks (config_final table (h.take k)) e stream with
        hsame | ⟨g, ch, pid, hunder, hpid, hown⟩
      · exact (ih (hsame.symm.trans hv)).succ
      · exact ⟨k, Nat.lt_succ_self k, e, g, ch, pid, hk, hunder, hpid, hown⟩

end Run

/-- The identities of a history keep apart. -/
structure IdentitiesApart (C : Crypto) (r : Route) (table : List Bytes) (h : List Event) : Prop where
  /-- Different grants have different streams. -/
  streams : ∀ (i j : ℕ) (p q : ℤ), ((historyMachine C r).final (.new C r table) h).grants[i]? = some p →
    ((historyMachine C r).final (.new C r table) h).grants[j]? = some q → i ≠ j →
    ∀ ch, channelStream r ch p ≠ channelStream r ch q
  /-- The first batch of a grant to a channel is not skipped by the sink. -/
  first : ∀ k g ch base count values env, h[k]? = some (.produce g ch base count values env) →
    (∀ j < k, ∀ e, h[j]? = some e → e.Under g ch →
      ((historyMachine C r).final (.new C r table) (h.take j)).grants[g]? = none) →
    ∀ pid, ((historyMachine C r).final (.new C r table) (h.take k)).grants[g]? = some pid → ∀ high : ℕ,
        let db := ((historyMachine C r).final (.new C r table) (h.take k)).daemon.db
        (db.txnBodySeq (channelStream r ch pid) high values).table = db.table ++ values

/-- No restart has a grant on either side of it. -/
def OneLifetime (h : List Event) : Prop :=
  ∀ before after, h = before ++ .restart :: after → .initProducerId ∉ before ∨ .initProducerId ∉ after

/-- The grants of a history. -/
def grantCount (h : List Event) : ℕ :=
  h.countP fun | .initProducerId => true | _ => false

section Issued

theorem issued_append_restart (c : ℕ) (before after : List Event) :
    issued c (before ++ .restart :: after) = issued c before ++ issued 0 after := by
  induction before generalizing c with
  | nil => rfl
  | cons e before ih => cases e <;> simp [issued, ih]

variable {h : List Event}

/-- A history that grants at all grants the first id of a process. -/
theorem first_mem_issued (hmem : .initProducerId ∈ h) : wrapI64 1 ∈ issued 0 h := by
  induction h with
  | nil => cases hmem
  | cons e h ih =>
    cases e with
    | initProducerId => exact mem_cons_self
    | restart => exact ih (by simpa using hmem)
    | produce => exact ih (by simpa using hmem)
    | producePlain => exact ih (by simpa using hmem)

theorem issued_eq_nil (hmem : .initProducerId ∉ h) (c : ℕ) : issued c h = [] ∧ grantCount h = 0 := by
  induction h generalizing c with
  | nil => exact ⟨rfl, rfl⟩
  | cons e h ih =>
    have htail : .initProducerId ∉ h := fun hm => hmem (mem_cons_of_mem _ hm)
    cases e with
    | initProducerId => exact absurd mem_cons_self hmem
    | restart => simpa [issued, grantCount] using ih htail 0
    | produce => simpa [issued, grantCount] using ih htail c
    | producePlain => simpa [issued, grantCount] using ih htail c

/-- The ids of a process, from the `c`-th on. -/
def idsFrom (c n : ℕ) : List ℤ := (range' c n).map fun k : ℕ => wrapI64 (1 + k)

theorem issued_of_granted {c : ℕ} (hlife : ∀ before after, h = before ++ .restart :: after → .initProducerId ∉ after) :
    issued c h = idsFrom c (grantCount h) := by
  induction h generalizing c with
  | nil => rfl
  | cons e h ih =>
    have htail : ∀ before after, h = before ++ .restart :: after → .initProducerId ∉ after :=
      fun before after heq => hlife (e :: before) after (by rw [heq, cons_append])
    cases e with
    | initProducerId =>
      have hcount : grantCount (.initProducerId :: h) = grantCount h + 1 := by simp [grantCount]
      rw [issued, ih htail, hcount]
      rfl
    | restart =>
      obtain ⟨hissued, hcount⟩ := issued_eq_nil (hlife [] h rfl) 0
      have : grantCount (.restart :: h) = 0 := by simpa [grantCount] using hcount
      rw [issued, hissued, this]
      rfl
    | produce => simpa [issued, grantCount] using ih htail
    | producePlain => simpa [issued, grantCount] using ih htail

theorem issued_of_oneLifetime (hlife : OneLifetime h) : issued 0 h = idsFrom 0 (grantCount h) := by
  induction h with
  | nil => rfl
  | cons e h ih =>
    have htail : OneLifetime h := by
      intro before after heq
      refine (hlife (e :: before) after (by rw [heq, cons_append])).imp_left fun hnot hm => ?_
      exact hnot (mem_cons_of_mem _ hm)
    cases e with
    | initProducerId =>
      refine issued_of_granted fun before after heq => ?_
      refine (hlife before after heq).resolve_left fun hnot => hnot ?_
      cases before with
      | nil => cases heq
      | cons e before =>
        rw [cons_append, cons.injEq] at heq
        rw [← heq.1]
        exact mem_cons_self
    | restart => simpa [issued, grantCount] using ih htail
    | produce => simpa [issued, grantCount] using ih htail
    | producePlain => simpa [issued, grantCount] using ih htail

theorem nodup_idsFrom {n : ℕ} : (idsFrom 0 n).Nodup ↔ n ≤ 2 ^ 64 := by
  rw [idsFrom, ← range_eq_range']
  constructor
  · intro h
    by_contra hlt
    have := inj_on_of_nodup_map h (mem_range.2 (show 0 < n by omega))
      (mem_range.2 (show 2 ^ 64 < n by omega)) (by decide)
    omega
  · intro hn
    refine Nodup.map_on (fun a ha b hb heq => ?_) nodup_range
    rw [mem_range] at ha hb
    unfold wrapI64 at heq
    omega

/-- **The ids of a history are distinct exactly when one process grants them all** and its
counter does not come round. -/
theorem nodup_issued : (issued 0 h).Nodup ↔ OneLifetime h ∧ grantCount h ≤ 2 ^ 64 := by
  constructor
  · intro hnodup
    have hlife : OneLifetime h := by
      intro before after heq
      by_contra hboth
      rw [not_or, not_not, not_not] at hboth
      rw [heq, issued_append_restart] at hnodup
      exact (nodup_append.1 hnodup).2.2 _ (first_mem_issued hboth.1) _ (first_mem_issued hboth.2) rfl
    rw [issued_of_oneLifetime hlife] at hnodup
    exact ⟨hlife, nodup_idsFrom.1 hnodup⟩
  · rintro ⟨hlife, hcount⟩
    rw [issued_of_oneLifetime hlife]
    exact nodup_idsFrom.2 hcount

theorem range_of_mem_issued {c : ℕ} {pid : ℤ} (hmem : pid ∈ issued c h) : i64Min ≤ pid ∧ pid ≤ i64Max := by
  induction h generalizing c with
  | nil => cases hmem
  | cons e h ih =>
    cases e with
    | initProducerId =>
      rcases mem_cons.1 hmem with heq | hmem
      · rw [heq]
        exact wrapI64_mem _
      · exact ih hmem
    | restart => exact ih hmem
    | produce => exact ih hmem
    | producePlain => exact ih hmem

end Issued

/-- **The identities of producers keep apart exactly when all grants fall into one lifetime**
of the daemon, and there are at most `2 ^ 64` of them. -/
theorem identities_apart_iff (C : Crypto) (r : Route) (table : List Bytes) (h : List Event) :
    IdentitiesApart C r table h ↔ OneLifetime h ∧ grantCount h ≤ 2 ^ 64 := by
  have hgrants : ((historyMachine C r).final (.new C r table) h).grants = issued 0 h :=
    grants_final (c := 0) (w := .new C r table) rfl h
  rw [← nodup_issued]
  constructor
  · intro hapart
    rw [nodup_iff_getElem?_ne_getElem?]
    intro i j hij hj heq
    obtain ⟨p, hget⟩ : ∃ p, (issued 0 h)[j]? = some p := ⟨_, getElem?_eq_getElem hj⟩
    rw [← hgrants] at heq hget
    exact hapart.streams i j _ _ (heq.trans hget) hget hij.ne ⟨"", 0, by decide⟩ rfl
  · intro hnodup
    have hrange : ∀ {i p}, (issued 0 h)[i]? = some p → i64Min ≤ p ∧ p ≤ i64Max := fun hp =>
      range_of_mem_issued (mem_of_getElem? hp)
    refine ⟨?_, ?_⟩
    · intro i j p q hp hq hij ch heq
      rw [hgrants] at hp hq
      obtain ⟨-, rfl⟩ := channelStream_inj (hrange hp) (hrange hq) heq
      exact hij ((getElem?_inj (List.getElem?_eq_some_iff.1 hp).1 hnodup).1 (hp.trans hq.symm))
    · intro k g ch base count values env hk hfirst pid hpid high
      have hnone : ((historyMachine C r).final (.new C r table) (h.take k)).daemon.db.watermarks.get
          (channelStream r ch pid) = none := by
        by_contra hsome
        obtain ⟨v, hv⟩ := Option.ne_none_iff_exists'.1 hsome
        obtain ⟨j, hj, e, g', ch', pid', he, hunder, hpid', heq⟩ := owned table h k _ hv
        have hgranted := getElem?_grants_final (C := C) (r := r) (h := h.drop k) hpid
        have hgranted' := getElem?_grants_final (C := C) (r := r) (h := h.drop j) hpid'
        rw [← Machine.final_append, take_append_drop, hgrants] at hgranted hgranted'
        obtain ⟨rfl, rfl⟩ := channelStream_inj (hrange hgranted) (hrange hgranted') heq
        obtain rfl := (getElem?_inj (List.getElem?_eq_some_iff.1 hgranted).1 hnodup).1
          (hgranted.trans hgranted'.symm)
        rw [hfirst j hj e he hunder] at hpid'
        cases hpid'
      intro db
      rw [Db.txnBodySeq, show db.watermarks.get _ = none from hnone]

/-- A producer initialised after a restart is granted the id of the one before it.  Its first
batch is answered `0`, and the table holds the other one's record only. -/
theorem restart_skips_first_batch :
    let channel : Channel := ⟨"t", 0, by decide⟩
    let history : List Event :=
      [.initProducerId, .produce 0 channel 0 1 [[7]] (committing .none), .restart,
        .initProducerId, .produce 1 channel 0 1 [[8]] (committing .none)]
    let machine := historyMachine .transparent openRoute
    (machine.trace (.new .transparent openRoute []) history).map Prod.snd = [1, 0, 0, 1, 0] ∧
      (machine.final (.new .transparent openRoute []) history).daemon.db.table = [[7]] := by
  decide +kernel

end Datarail.Ingest
