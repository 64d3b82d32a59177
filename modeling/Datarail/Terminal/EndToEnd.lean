/-
# From one terminal to the other

A source terminal boards batches one after the other (`sourceMachine`), and cofres are
presented to the destination terminal in any order, any number of times, and mixed with
others that the source never sealed (`destMachine`).

`route_delivers_once`: the sink holds the batches that boarded and were presented, in the
order of their first presentation, each once.  A cofre of the source is delivered the first
time and a duplicate ever after; any other cofre is dead-lettered.

That a signature cannot be forged is an assumption about the cofres presented: one that
verifies was signed by the source.  That the keyed hash is injective is one about the record
keys in use.
-/

import Datarail.Once.Safety
import Datarail.Terminal.Terminal

namespace Datarail.Terminal

open Lib Once List

/-- A call of `board`. -/
structure Boarding where
  draws : Draws
  records : List Bytes
  recordKey : Bytes

section Machines

variable (C : Crypto)

/-- The source, asked to board one batch after the other. -/
def sourceMachine : Machine SourceTerminal Boarding (Option Cofre) where
  step t b :=
    match t.board C b.draws b.records b.recordKey with
    | .ok (cofre, t') => (t', some cofre)
    | .error _ => (t, none)

/-- The destination, presented with one cofre after the other. -/
def destMachine : Machine DestTerminal Cofre Disposition where
  step := DestTerminal.offload C

/-- The calls that boarded, each with its cofre. -/
def shippedIn (h : List (Boarding × Option Cofre)) : List (Boarding × Cofre) :=
  h.filterMap fun e => e.2.map fun cofre => (e.1, cofre)

/-- What a source ships. -/
def shipped (src : SourceTerminal) (boards : List Boarding) : List (Boarding × Cofre) :=
  shippedIn ((sourceMachine C).trace src boards)

end Machines

/-- The batch a cofre of the source was boarded with. -/
def recordsOf (ship : List (Boarding × Cofre)) (cofre : Cofre) : Option (List Bytes) :=
  (ship.find? fun p => p.2 = cofre).map fun p => p.1.records

/-- The signature is one the source made: no other signature verifies under its key. -/
def Unforged (C : Crypto) (pinnedVk : Arr 32) (ship : List (Boarding × Cofre)) (cofre : Cofre) : Prop :=
  C.verifyDomain Crypto.ctxLacre pinnedVk (Cofre.signedRegion cofre.etiqueta cofre.carga) cofre.lacre = true →
    ∃ p ∈ ship, Cofre.signedRegion p.2.etiqueta p.2.carga = Cofre.signedRegion cofre.etiqueta cofre.carga ∧
      p.2.lacre = cofre.lacre

instance (C : Crypto) (pinnedVk : Arr 32) (ship : List (Boarding × Cofre)) (cofre : Cofre) :
    Decidable (Unforged C pinnedVk ship cofre) :=
  inferInstanceAs (Decidable (_ → _))

/-- What is known of all that a source shipped: its numbers, and that its keys differ. -/
structure Manifest (C : Crypto) (src : SourceTerminal) (ship : List (Boarding × Cofre)) : Prop where
  boarded : ∀ (i : ℕ) (b : Boarding) (cofre : Cofre), ship[i]? = some (b, cofre) →
    src.boardAt C b.draws b.records b.recordKey (UInt64.ofNat i) = .ok cofre
  count : ship.length ≤ maxReorderHorizon
  keys : ∀ (i j : ℕ) (b b' : Boarding) (cofre cofre' : Cofre), ship[i]? = some (b, cofre) → ship[j]? = some (b', cofre') →
    C.keyedHash src.config.tenantSecret b.recordKey = C.keyedHash src.config.tenantSecret b'.recordKey → i = j

section Source

variable {C : Crypto} {src : SourceTerminal}

theorem shippedIn_append (h : List (Boarding × Option Cofre)) (b : Boarding) (out : Option Cofre) :
    shippedIn (h ++ [(b, out)]) = shippedIn h ++ (out.map fun cofre => (b, cofre)).toList := by
  rw [shippedIn, filterMap_append]
  cases out with
  | none => rfl
  | some cofre => rfl

theorem map_fst_shippedIn (h : List (Boarding × Option Cofre)) :
    ((shippedIn h).map Prod.fst).Sublist (h.map Prod.fst) := by
  induction h with
  | nil => exact Sublist.refl _
  | cons e h ih =>
    obtain ⟨b, out⟩ := e
    cases out with
    | none => exact ih.cons b
    | some cofre => exact ih.cons_cons b

/-- The cofres of a fresh source are numbered from zero. -/
theorem boardAt_shipped (hseq : src.seq = 0) (boards : List Boarding) :
    ∀ i b cofre, (shipped C src boards)[i]? = some (b, cofre) →
      src.boardAt C b.draws b.records b.recordKey (UInt64.ofNat i) = .ok cofre := by
  have hinv := (sourceMachine C).invariant_of_step (fun _ _ => True)
    (fun h t => t = { src with seq := UInt64.ofNat (shippedIn h).length } ∧
      ∀ i b cofre, (shippedIn h)[i]? = some (b, cofre) →
        src.boardAt C b.draws b.records b.recordKey (UInt64.ofNat i) = .ok cofre) ?_
    src boards [] ((sourceMachine C).guarded_true src boards)
    ⟨by rw [show src = { src with seq := 0 } by rw [← hseq]]; rfl, nofun⟩
  · exact hinv.2
  · rintro h t b - ⟨ht, hboarded⟩
    rw [shippedIn_append]
    have hat : t.boardAt C b.draws b.records b.recordKey t.seq =
        src.boardAt C b.draws b.records b.recordKey (UInt64.ofNat (shippedIn h).length) := by
      rw [ht]
      rfl
    cases hout : src.boardAt C b.draws b.records b.recordKey (UInt64.ofNat (shippedIn h).length) with
    | error e =>
      have hstep : (sourceMachine C).step t b = (t, none) := by
        simp only [sourceMachine, SourceTerminal.board, hat, hout]
        rfl
      rw [hstep]
      simpa using ⟨ht, hboarded⟩
    | ok cofre =>
      have hstep : (sourceMachine C).step t b = ({ t with seq := t.seq + 1 }, some cofre) := by
        simp only [sourceMachine, SourceTerminal.board, hat, hout]
        rfl
      rw [hstep]
      refine ⟨?_, fun i b' cofre' hi => ?_⟩
      · rw [ht]
        simp
      · simp only [Option.map_some, Option.toList_some] at hi
        rcases Nat.lt_or_ge i (shippedIn h).length with hlt | hge
        · rw [getElem?_append_left hlt] at hi
          exact hboarded i b' cofre' hi
        · rw [getElem?_append_right hge, getElem?_singleton] at hi
          split_ifs at hi with hlast
          obtain ⟨rfl, rfl⟩ := Prod.mk.inj (Option.some.inj hi)
          rw [show i = (shippedIn h).length by omega]
          exact hout

/-- Distinct record keys under an injective keyed hash make a manifest. -/
theorem manifest_shipped (hseq : src.seq = 0) {boards : List Boarding}
    (hkeys : (boards.map Boarding.recordKey).Nodup) (hcount : boards.length ≤ maxReorderHorizon)
    (hmac : ∀ b ∈ boards, ∀ b' ∈ boards, C.keyedHash src.config.tenantSecret b.recordKey =
      C.keyedHash src.config.tenantSecret b'.recordKey → b.recordKey = b'.recordKey) :
    Manifest C src (shipped C src boards) := by
  have hsub := map_fst_shippedIn ((sourceMachine C).trace src boards)
  rw [Machine.map_fst_trace] at hsub
  refine ⟨boardAt_shipped hseq boards, ?_, fun i j b b' cofre cofre' hi hj heq => ?_⟩
  · have := hsub.length_le
    rw [length_map] at this
    exact this.trans hcount
  · have hnodup := hkeys.sublist (hsub.map Boarding.recordKey)
    rw [map_map] at hnodup
    have hkey := hmac b (hsub.subset (mem_map_of_mem (mem_of_getElem? hi)))
      b' (hsub.subset (mem_map_of_mem (mem_of_getElem? hj))) heq
    have hlt : i < ((shippedIn ((sourceMachine C).trace src boards)).map (Boarding.recordKey ∘ Prod.fst)).length := by
      rw [length_map]
      exact (List.getElem?_eq_some_iff.1 hi).1
    refine (getElem?_inj hlt hnodup).1 ?_
    simp only [shipped] at hi hj
    rw [getElem?_map, getElem?_map, hi, hj]
    exact congrArg some hkey

end Source

namespace Manifest

variable {C : Crypto} {src : SourceTerminal} {ship : List (Boarding × Cofre)} {i : ℕ} {b : Boarding} {cofre : Cofre}

theorem lt_length (hi : ship[i]? = some (b, cofre)) : i < ship.length := (List.getElem?_eq_some_iff.1 hi).1

/-- A cofre carries its position. -/
theorem toNat_seq (h : Manifest C src ship) (hi : ship[i]? = some (b, cofre)) : cofre.etiqueta.seq.toNat = i := by
  have hcount : i < 2 ^ 20 := (lt_length hi).trans_le h.count
  rw [(etiqueta_boardAt (h.boarded i b cofre hi)).2.1]
  exact UInt64.toNat_ofNat_of_lt' (hcount.trans (by decide))

theorem recordsOf_eq (h : Manifest C src ship) (hi : ship[i]? = some (b, cofre)) :
    recordsOf ship cofre = some b.records := by
  cases hfind : ship.find? fun p => p.2 = cofre with
  | none =>
    have hnone := find?_eq_none.1 hfind _ (mem_of_getElem? hi)
    simp at hnone
  | some p =>
    obtain ⟨b', cofre'⟩ := p
    obtain rfl : cofre' = cofre := by simpa using find?_some hfind
    obtain ⟨j, hj⟩ := getElem?_of_mem (mem_of_find?_eq_some hfind)
    obtain rfl : i = j := (h.toNat_seq hi).symm.trans (h.toNat_seq hj)
    obtain ⟨rfl, -⟩ := Prod.mk.inj (Option.some.inj (hi.symm.trans hj))
    rw [recordsOf, hfind]
    rfl

end Manifest

variable {ship : List (Boarding × Cofre)}

theorem isSome_recordsOf {cofre : Cofre} :
    (recordsOf ship cofre).isSome ↔ cofre ∈ ship.map Prod.snd := by
  rw [recordsOf, Option.isSome_map, find?_isSome]
  simp

theorem exists_of_isSome {cofre : Cofre}
    (h : (recordsOf ship cofre).isSome) : ∃ (i : ℕ) (b : Boarding), ship[i]? = some (b, cofre) := by
  obtain ⟨⟨b, _⟩, hp, rfl⟩ := mem_map.1 (isSome_recordsOf.1 h)
  obtain ⟨i, hi⟩ := getElem?_of_mem hp
  exact ⟨i, b, hi⟩

/-- The numbers of the source's cofres among those presented. -/
def numbers (ship : List (Boarding × Cofre)) (presented : List Cofre) : Finset ℕ :=
  ((presented.filter fun cofre => (recordsOf ship cofre).isSome).map fun cofre =>
    cofre.etiqueta.seq.toNat).toFinset

/-- The key that goes with a number. -/
def KeyOf (ship : List (Boarding × Cofre)) (n : ℕ) (key : Arr 32) : Prop :=
  ∃ b cofre, ship[n]? = some (b, cofre) ∧ cofre.etiqueta.idempotencyKey = key

/-- What the destination holds after some cofres have been presented to it. -/
structure Landed (C : Crypto) (src : SourceTerminal) (ship : List (Boarding × Cofre)) (gcLag : ℕ)
    (presented : List Cofre) (t : DestTerminal) : Prop where
  paired : Paired C src t
  lag : t.once.gcLag = gcLag
  tracks : (t.once.stream src.config.streamId).Tracks gcLag (KeyOf ship) (numbers ship presented)
  sink : t.committed = (presented.eraseDups.filterMap (recordsOf ship)).flatten

section Presented

variable {ship : List (Boarding × Cofre)} {presented : List Cofre} {cofre : Cofre}

theorem mem_numbers {n : ℕ} : n ∈ numbers ship presented ↔
    ∃ cofre ∈ presented, (recordsOf ship cofre).isSome ∧ cofre.etiqueta.seq.toNat = n := by
  simp only [numbers, mem_toFinset, mem_map, mem_filter, and_assoc]

theorem numbers_append (hsome : (recordsOf ship cofre).isSome) :
    numbers ship (presented ++ [cofre]) = insert cofre.etiqueta.seq.toNat (numbers ship presented) := by
  have hfilter : [cofre].filter (fun c => (recordsOf ship c).isSome) = [cofre] := by simp [hsome]
  ext n
  rw [numbers, filter_append, hfilter, Finset.mem_insert]
  simp [numbers]

theorem numbers_append_foreign (hnone : recordsOf ship cofre = none) :
    numbers ship (presented ++ [cofre]) = numbers ship presented := by
  simp [numbers, filter_append, hnone]

theorem eraseDups_append_singleton : (presented ++ [cofre]).eraseDups =
      if cofre ∈ presented then presented.eraseDups else presented.eraseDups ++ [cofre] := by
  rw [eraseDups_append, removeAll]
  split_ifs with hmem
  · simp [hmem]
  · simp [hmem, eraseDups_cons]

end Presented

section Offload

variable {C : Crypto} {t : DestTerminal} {cofre : Cofre}

/-- A cofre that opens is the gate's to decide. -/
theorem offload_of_open {records : List Bytes} {senderId : Option (Arr 32)}
    (hopen : t.openRecords C cofre = .ok (records, senderId)) :
    let out := Gate.machine.step t.once
      ⟨cofre.etiqueta.streamId, cofre.etiqueta.seq.toNat, cofre.etiqueta.idempotencyKey⟩
    ∃ sender, t.offload C cofre = ({ t with
      once := out.1
      committed := if out.2 = .delivered then t.committed ++ records else t.committed
      lastSenderId := sender }, out.2) := by
  intro out
  have hout : t.once.admitSeq cofre.etiqueta.streamId cofre.etiqueta.seq.toNat cofre.etiqueta.idempotencyKey = out := rfl
  simp only [DestTerminal.offload, hopen, hout]
  split
  · rename_i hd
    exact ⟨senderId, by rw [hd, if_pos rfl]⟩
  · rename_i hd
    exact ⟨t.lastSenderId, by rw [if_neg hd]⟩

/-- A cofre that does not verify is dead-lettered. -/
theorem offload_of_unverified (hverify : C.verifyDomain Crypto.ctxLacre t.pinnedSourceVk
      (Cofre.signedRegion cofre.etiqueta cofre.carga) cofre.lacre = false) :
    ∃ reason, t.offload C cofre = ({ t with deadLetters := t.deadLetters.push cofre reason }, .deadLettered) := by
  have hfail : ∃ e, cofre.verify C t.pinnedSourceVk = .error e := by
    rw [Cofre.verify, hverify, if_neg Bool.false_ne_true]
    split_ifs
    · exact ⟨_, rfl⟩
    · exact ⟨_, rfl⟩
    · exact ⟨_, rfl⟩
  obtain ⟨e, he⟩ := hfail
  refine ⟨.sealFailed e, ?_⟩
  simp only [DestTerminal.offload, DestTerminal.openRecords, he]

end Offload

namespace Landed

variable {C : Crypto} {src : SourceTerminal} {ship : List (Boarding × Cofre)} {gcLag : ℕ}
  {presented : List Cofre} {t : DestTerminal} {cofre : Cofre}

/-- **A cofre of the source lands the first time.** -/
theorem offload_shipped (h : Landed C src ship gcLag presented t) (hm : Manifest C src ship) {i : ℕ}
    {b : Boarding} (hi : ship[i]? = some (b, cofre)) :
    (t.offload C cofre).2 = (if cofre ∈ presented then .duplicate else .delivered) ∧
      Landed C src ship gcLag (presented ++ [cofre]) (t.offload C cofre).1 := by
  have hboarded := hm.boarded i b cofre hi
  have hrecords := hm.recordsOf_eq hi
  have hsome : (recordsOf ship cofre).isSome := by rw [hrecords]; rfl
  have hseq := hm.toNat_seq hi
  obtain ⟨hstream, -, hkey⟩ := etiqueta_boardAt hboarded
  obtain ⟨sender, hoffload⟩ := offload_of_open (openRecords_boardAt h.paired hboarded)
  have hmem : i ∈ numbers ship presented ↔ cofre ∈ presented := by
    rw [mem_numbers]
    constructor
    · rintro ⟨other, hother, hsome', hseq'⟩
      obtain ⟨j, b', hj⟩ := exists_of_isSome hsome'
      obtain rfl : j = i := (hm.toNat_seq hj).symm.trans hseq'
      obtain ⟨-, rfl⟩ := Prod.mk.inj (Option.some.inj (hi.symm.trans hj))
      exact hother
    · exact fun hmem => ⟨cofre, hmem, hsome, hseq⟩
  have hanswer := Gate.answer_step t.once
    ⟨cofre.etiqueta.streamId, cofre.etiqueta.seq.toNat, cofre.etiqueta.idempotencyKey⟩
  have hnext := Gate.stream_step t.once
    ⟨cofre.etiqueta.streamId, cofre.etiqueta.seq.toNat, cofre.etiqueta.idempotencyKey⟩ src.config.streamId
  simp only [hstream, hseq, h.lag, if_pos] at hanswer hnext
  rw [hoffload, hstream, hseq]
  have hpaired : ∀ once committed, Paired C src
      { t with once := once, committed := committed, lastSenderId := sender } := fun _ _ =>
    { h.paired with }
  by_cases hseen : cofre ∈ presented
  · have hadmitted := h.tracks.admitSeq_of_mem (hmem.2 hseen) cofre.etiqueta.idempotencyKey
    rw [hadmitted] at hanswer hnext
    rw [if_pos hseen]
    refine ⟨hanswer, hpaired _ _, h.lag, ?_, ?_⟩
    · rw [numbers_append hsome, hseq, Finset.insert_eq_of_mem (hmem.2 hseen)]
      exact hnext ▸ h.tracks
    · rw [hanswer, if_neg Disposition.noConfusion, eraseDups_append_singleton, if_pos hseen]
      exact h.sink
  · have hnew : i ∉ numbers ship presented := fun hin => hseen (hmem.1 hin)
    have hbelow : insert i (numbers ship presented) ⊆ Finset.range ship.length := by
      intro n hn
      rw [Finset.mem_range]
      rcases Finset.mem_insert.1 hn with rfl | hn
      · exact Manifest.lt_length hi
      · obtain ⟨other, -, hsome', rfl⟩ := mem_numbers.1 hn
        obtain ⟨j, b', hj⟩ := exists_of_isSome hsome'
        rw [hm.toNat_seq hj]
        exact Manifest.lt_length hj
    have hcard : (insert i (numbers ship presented)).card ≤ maxReorderHorizon :=
      (Finset.card_le_card hbelow).trans (by rw [Finset.card_range]; exact hm.count)
    have hown : ∀ n, KeyOf ship n cofre.etiqueta.idempotencyKey → n = i := by
      rintro n ⟨b', cofre', hn, heq⟩
      rw [(etiqueta_boardAt (hm.boarded n b' cofre' hn)).2.2, hkey] at heq
      exact hm.keys n i b' b cofre' cofre hn hi heq
    obtain ⟨hdelivered, htracks⟩ := h.tracks.admitSeq_of_notMem hnew ⟨b, cofre, hi, rfl⟩ hown hcard
    rw [hdelivered] at hanswer
    rw [if_neg hseen]
    refine ⟨hanswer, hpaired _ _, h.lag, ?_, ?_⟩
    · rw [numbers_append hsome, hseq]
      exact hnext ▸ htracks
    · rw [hanswer, if_pos rfl, eraseDups_append_singleton, if_neg hseen, filterMap_append,
        flatten_append, h.sink, filterMap_cons_some hrecords]
      simp

/-- **A foreign cofre does not land.** -/
theorem offload_foreign (h : Landed C src ship gcLag presented t) (hnone : recordsOf ship cofre = none)
    (hunforged : Unforged C t.pinnedSourceVk ship cofre) :
    (t.offload C cofre).2 = .deadLettered ∧ Landed C src ship gcLag (presented ++ [cofre]) (t.offload C cofre).1 := by
  have hverify : C.verifyDomain Crypto.ctxLacre t.pinnedSourceVk
      (Cofre.signedRegion cofre.etiqueta cofre.carga) cofre.lacre = false := by
    by_contra htrue
    obtain ⟨p, hp, hregion, hlacre⟩ := hunforged (Bool.eq_true_of_not_eq_false htrue)
    obtain ⟨hetiqueta, hcarga⟩ := Cofre.signedRegion_inj hregion
    have heq : p.2 = cofre := by
      rw [show p.2 = ⟨p.2.etiqueta, p.2.carga, p.2.lacre⟩ from rfl, hetiqueta, hcarga, hlacre]
    have hsome := isSome_recordsOf.2 (mem_map.2 ⟨p, hp, heq⟩)
    rw [hnone] at hsome
    cases hsome
  obtain ⟨reason, hoffload⟩ := offload_of_unverified hverify
  rw [hoffload]
  refine ⟨rfl, { h.paired with }, h.lag, ?_, ?_⟩
  · rw [numbers_append_foreign hnone]
    exact h.tracks
  · rw [eraseDups_append_singleton]
    split_ifs
    · exact h.sink
    · rw [filterMap_append, filterMap_cons_none hnone, filterMap_nil, append_nil]
      exact h.sink

/-- One presentation, of any cofre. -/
theorem offload (h : Landed C src ship gcLag presented t) (hm : Manifest C src ship)
    (hunforged : Unforged C (C.verifyingKey src.sourceSeed) ship cofre) :
    (t.offload C cofre).2 = (if (recordsOf ship cofre).isSome then
      if cofre ∈ presented then .duplicate else .delivered else .deadLettered) ∧
      Landed C src ship gcLag (presented ++ [cofre]) (t.offload C cofre).1 := by
  cases hrecords : recordsOf ship cofre with
  | none => exact h.offload_foreign hrecords (by rwa [h.paired.pinned])
  | some records =>
    have hsome : (recordsOf ship cofre).isSome := by rw [hrecords]; rfl
    obtain ⟨i, b, hi⟩ := exists_of_isSome hsome
    exact h.offload_shipped hm hi

theorem final (h : Landed C src ship gcLag [] t) (hm : Manifest C src ship)
    (hunforged : ∀ cofre ∈ presented, Unforged C (C.verifyingKey src.sourceSeed) ship cofre) :
    Landed C src ship gcLag presented ((destMachine C).final t presented) := by
  induction presented using reverseRecOn with
  | nil => exact h
  | append_singleton presented cofre ih =>
    rw [Machine.final_append, Machine.final_cons, Machine.final_nil]
    have hland := ih fun c hc => hunforged c (mem_append_left _ hc)
    exact (hland.offload hm (hunforged cofre (by simp))).2

end Landed

/-- **One route delivers once.**  Whatever is presented to the destination, the sink holds the
batches of the source that were presented, in the order of first presentation and each once.
A cofre of the source is delivered the first time and a duplicate after; any other is
dead-lettered. -/
theorem route_delivers_once {C : Crypto} {src : SourceTerminal} {dst : DestTerminal}
    (hpaired : Paired C src dst) (hseq : src.seq = 0) (honce : dst.once = .new) (hsink : dst.committed = [])
    (boards : List Boarding) (hkeys : (boards.map Boarding.recordKey).Nodup) (hcount : boards.length ≤ 2 ^ 20)
    (hmac : ∀ b ∈ boards, ∀ b' ∈ boards, C.keyedHash src.config.tenantSecret b.recordKey =
      C.keyedHash src.config.tenantSecret b'.recordKey → b.recordKey = b'.recordKey)
    (presented : List Cofre)
    (hunforged : ∀ cofre ∈ presented, Unforged C (C.verifyingKey src.sourceSeed) (shipped C src boards) cofre) :
    ((destMachine C).final dst presented).committed =
        (presented.eraseDups.filterMap (recordsOf (shipped C src boards))).flatten ∧
      ∀ i cofre disposition, ((destMachine C).trace dst presented)[i]? = some (cofre, disposition) →
        disposition = if cofre ∈ (shipped C src boards).map Prod.snd then
          if cofre ∈ presented.take i then .duplicate else .delivered else .deadLettered := by
  have hm : Manifest C src (shipped C src boards) := manifest_shipped hseq hkeys hcount hmac
  have hstart : Landed C src (shipped C src boards) defaultGcLag [] dst := by
    refine ⟨hpaired, by rw [honce]; rfl, ?_, hsink⟩
    rw [honce]
    exact StreamState.Tracks.new
  refine ⟨(hstart.final hm hunforged).sink, fun i cofre disposition hi => ?_⟩
  rw [Machine.getElem?_trace] at hi
  obtain ⟨c, hc, heq⟩ := Option.map_eq_some_iff.1 hi
  obtain ⟨rfl, rfl⟩ := Prod.mk.inj heq
  have htake : ∀ c ∈ presented.take i, Unforged C (C.verifyingKey src.sourceSeed) (shipped C src boards) c :=
    fun c hc => hunforged c (mem_of_mem_take hc)
  have hland := hstart.final hm htake
  refine ((hland.offload hm (hunforged c (mem_of_getElem? hc))).1).trans ?_
  simp only [isSome_recordsOf]

/-- A stand-in whose signatures depend on what is signed, so that not every one verifies. -/
def signing : Crypto :=
  { Crypto.transparent with
    sign := fun _ msg => Crypto.fit 64 msg
    verify := fun _ msg sig => decide (sig = Crypto.fit 64 msg)
    verify_sign := fun _ _ => decide_eq_true rfl }

/-- Two batches presented the other way round, a cofre with no signature, and the first
batch again. -/
theorem route_delivers_once_reordered :
    let config : TerminalConfig := ⟨Arr.zero 16, Arr.zero 16, .gcm256, Arr.zero 32, Arr.zero 32⟩
    let contract := ContentContract.new signing 100 []
    let src := SourceTerminal.new config contract (Arr.zero 32)
    let dst := DestTerminal.new config contract (signing.verifyingKey (Arr.zero 32)) (Arr.zero 32)
    let draws : Draws := ⟨some (Arr.zero 32), some (Arr.zero 32)⟩
    let boards : List Boarding := [⟨draws, [[1]], [1]⟩, ⟨draws, [[2], [3]], [2]⟩]
    let cofres := (shipped signing src boards).map Prod.snd
    let foreign : Cofre := ⟨src.header signing [9] 5 (nonceOf (Arr.zero 32)) (Arr.zero 32), [7], Arr.zero 64⟩
    let presented := cofres.reverse ++ [foreign] ++ cofres
    ((destMachine signing).final dst presented).committed = [[2], [3], [1]] := by
  intro config contract src dst draws boards cofres foreign presented
  have hpaired : Paired signing src dst := ⟨rfl, rfl, rfl, rfl, nofun⟩
  exact (route_delivers_once hpaired rfl rfl rfl boards (by decide +kernel) (by decide) (by decide +kernel)
    presented (by decide +kernel)).1.trans (by decide +kernel)

section Siding

variable (C : Crypto)

/-- The cofre and the reason, if it does not open. -/
def DestTerminal.rejected (t : DestTerminal) (cofre : Cofre) : Option (Cofre × DeadLetterReason) :=
  match t.openRecords C cofre with
  | .error reason => some (cofre, reason)
  | .ok _ => none

/-- The siding after some cofres: the last of them, and how many came before. -/
def DeadLetterSiding.after (xs : List (Cofre × DeadLetterReason)) : DeadLetterSiding :=
  ⟨xs.drop (xs.length - maxDeadLettersRetained), min (xs.length - maxDeadLettersRetained) (2 ^ 64 - 1)⟩

theorem DeadLetterSiding.push_after (xs : List (Cofre × DeadLetterReason)) (x : Cofre × DeadLetterReason) :
    (after xs).push x.1 x.2 = after (xs ++ [x]) := by
  unfold push after
  have hmax : 0 < maxDeadLettersRetained := by decide
  generalize maxDeadLettersRetained = m at hmax ⊢
  rw [length_drop, length_append, length_singleton, drop_append_of_le_length (by omega)]
  split_ifs with hfull
  · rw [tail_drop, show xs.length - m + 1 = xs.length + 1 - m by omega, mk.injEq]
    exact ⟨rfl, by dsimp only; omega⟩
  · rw [show xs.length + 1 - m = xs.length - m by omega]

/-- **The siding holds the last cofres that did not open**, in the order they came and up to
`MAX_DEAD_LETTERS_RETAINED` of them, and counts the others, whatever opened in between. -/
theorem siding_retains_last (dst : DestTerminal) (presented : List Cofre) :
    ((destMachine C).final { dst with deadLetters := ⟨[], 0⟩ } presented).deadLetters =
      .after (presented.filterMap (dst.rejected C)) := by
  suffices h : ∀ xs t, t.deadLetters = .after xs → t.rejected C = dst.rejected C →
      ((destMachine C).final t presented).deadLetters = .after (xs ++ presented.filterMap (dst.rejected C)) from
    h [] _ rfl rfl
  induction presented with
  | nil => exact fun xs t h _ => by rwa [filterMap_nil, append_nil]
  | cons cofre presented ih =>
    intro xs t hsiding hsame
    rw [Machine.final_cons, filterMap_cons, ← hsame]
    change ((destMachine C).final (t.offload C cofre).1 presented).deadLetters = _
    -- what opens does not depend on what an offload changes
    cases ho : t.openRecords C cofre with
    | error reason =>
      have hpush := DeadLetterSiding.push_after xs (cofre, reason)
      rw [← hsiding] at hpush
      simp only [DestTerminal.offload, DestTerminal.rejected, ho]
      rw [append_cons, hsame]
      exact ih _ _ hpush hsame
    | ok opened =>
      obtain ⟨sender, hoff⟩ := offload_of_open ho
      rw [hoff, DestTerminal.rejected, ho, hsame]
      exact ih xs _ hsiding hsame

end Siding

/-- The sum of the reservations on a partition is where its next one starts. -/
theorem SourceTerminal.reserveSeqs_eq_min (config : TerminalConfig) (contract : ContentContract) (seed : Arr 32)
    (calls : List (ℕ × ℕ)) (p n : ℕ) :
    ((calls.foldl (fun t c => (t.reserveSeqs c.1 c.2).2) (new config contract seed)).reserveSeqs p n).1 =
      min ((calls.filter (·.1 = p)).map Prod.snd).sum (2 ^ 64 - 1) := by
  induction calls using reverseRecOn with
  | nil => rfl
  | append_singleton calls c ih =>
    simp only [reserveSeqs] at ih ⊢
    rw [foldl_append, foldl_cons, foldl_nil, Table.get_insert, filter_append, map_append, sum_append]
    split_ifs with hp
    · subst hp
      rw [Option.getD_some, ih]
      simp
      omega
    · rw [ih]
      simp [Ne.symm hp]

/-- **Reserved numbers are apart.**  A reservation starts where those before it on its partition end, whatever
was reserved on others, up to the end of `u64`, where the counter stays.  So no later reservation of the partition
starts below the end of this one, and the ranges that `reserve_seqs` hands to parallel sealers are disjoint. -/
theorem SourceTerminal.reserveSeqs_start (config : TerminalConfig) (contract : ContentContract) (seed : Arr 32)
    (calls : List (ℕ × ℕ)) (p n : ℕ) :
    let reserve (calls : List (ℕ × ℕ)) (n : ℕ) :=
      ((calls.foldl (fun t c => (t.reserveSeqs c.1 c.2).2) (new config contract seed)).reserveSeqs p n).1
    reserve calls n = min ((calls.filter (·.1 = p)).map Prod.snd).sum (2 ^ 64 - 1) ∧
    ∀ later m, min (reserve calls n + n) (2 ^ 64 - 1) ≤ reserve (calls ++ (p, n) :: later) m := by
  refine ⟨reserveSeqs_eq_min config contract seed calls p n, fun later m => ?_⟩
  dsimp only
  rw [reserveSeqs_eq_min, reserveSeqs_eq_min, filter_append, filter_cons_of_pos (by simp), map_append, sum_append,
    map_cons, sum_cons]
  omega

end Datarail.Terminal
