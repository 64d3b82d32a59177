/-
# The datagram mover is ordered and exactly-once

A message is known by its number.  `log` is what an end has numbered so far, with a gap where the socket's
send failed.  For each direction (`Carries`): a data frame the sender has ever sent is in the log under its
number; what the receiver has handed out or holds is in the log under its number; what the receiver has
acknowledged it has handed out or holds (`Got`), so that what left the in-flight map is not lost.  Every
operation of a call keeps this for both directions, whatever the network delivers of what was sent.
-/

import Datarail.ReliableUdp.Link
import Mathlib.Order.Interval.Finset.Nat

namespace Datarail.ReliableUdp

open Lib FaspLink List Nat Function AList

variable {cfg cfg' : FaspCfg} {l r : FaspLink} {log log' : List (Option Bytes)} {ret ret' : List Bytes}

/-- The link has handed this message out or holds it. -/
def FaspLink.Got (l : FaspLink) (seq : ℕ) : Prop := seq < l.nextDeliver ∨ seq ∈ l.reorder

/-- What a receiver has handed out and holds, when `ret` has been consumed. -/
structure Receives (window : ℕ) (log : List (Option Bytes)) (ret : List Bytes) (r : FaspLink) : Prop where
  order : log.take r.nextDeliver = (ret ++ r.ready).map some
  length : r.nextDeliver ≤ log.length
  held : ∀ seq p, r.reorder.lookup seq = some p →
    r.nextDeliver ≤ seq ∧ seq < ret.length + window ∧ log[seq]? = some (some p)
  room : r.nextDeliver ≤ ret.length + window

/-- One direction, from `s` to `r`. -/
structure Carries (cfgS cfgR : FaspCfg) (s r : FaspLink) (log : List (Option Bytes)) (ret : List Bytes) : Prop where
  length : log.length = s.nextSeq
  small : s.nextSeq ≤ u64Max
  sent : ∀ f, Heard s f → f.kind = kindData → log[f.seq]? = some (some f.payload)
  frames : ∀ seq frame, s.inflight.lookup seq = some frame → ∃ p : Bytes, p.length ≤ maxFaspPayload ∧
    frame = encodeFrame ⟨seq, kindData, p⟩ ∧ log[seq]? = some (some p)
  kept : ∀ seq p, log[seq]? = some (some p) → seq ∈ s.inflight ∨ r.Got seq
  acked : ∀ f, Heard r f → f.kind = kindAck → r.Got f.seq
  pending : ∀ seq ∈ r.pendingAcks, r.Got seq ∧ seq < 2 ^ 64
  receives : Receives cfgR.recvWindow log ret r
  gap : r.reorder.lookup r.nextDeliver = none
  bounded : s.inflight.keys.length ≤ cfgS.maxInflight

/-- Both directions, seen from the end `l`. -/
structure Pair (cfg cfg' : FaspCfg) (l r : FaspLink) (log log' : List (Option Bytes)) (ret ret' : List Bytes) :
    Prop where
  out : Carries cfg cfg' l r log ret'
  into : Carries cfg' cfg r l log' ret

/-! ### The receiver -/

variable {window : ℕ}

theorem Receives.length_eq (h : Receives window log ret r) : ret.length + r.ready.length = r.nextDeliver := by
  have hlen := congrArg List.length h.order
  rw [length_take, length_map, length_append, min_eq_left h.length] at hlen
  exact hlen.symm

/-- The window starts at what has been consumed. -/
theorem Receives.base_eq (h : Receives window log ret r) : r.nextDeliver - r.ready.length = ret.length := by
  have := h.length_eq
  omega

/-- One message moves on. -/
theorem Receives.advance {bytes : Bytes} (h : Receives window log ret r)
    (hnext : r.reorder.lookup r.nextDeliver = some bytes) :
    Receives window log ret { r with
      reorder := r.reorder.erase r.nextDeliver
      ready := r.ready ++ [bytes]
      nextDeliver := r.nextDeliver + 1 } := by
  obtain ⟨-, hroom, hlog⟩ := h.held _ _ hnext
  refine ⟨?_, ?_, fun seq p hseq => ?_, by dsimp only; omega⟩
  · rw [take_add_one, hlog, h.order]
    simp
  · exact (List.getElem?_eq_some_iff.1 hlog).1
  · dsimp only at hseq ⊢
    rw [lookup_erase_ite] at hseq
    split_ifs at hseq with hne
    obtain ⟨hle, hlt, hp⟩ := h.held seq p hseq
    exact ⟨by omega, hlt, hp⟩

/-- **The messages in order are handed out**, and nothing that the link had is lost. -/
theorem deliver_spec (rounds : ℕ) (h : Receives window log ret r) : ∃ reorder ready nextDeliver,
      deliver rounds r = { r with reorder := reorder, ready := ready, nextDeliver := nextDeliver } ∧
      Receives window log ret (deliver rounds r) ∧ (∀ seq, r.Got seq → (deliver rounds r).Got seq) ∧
      (r.reorder.keys.length ≤ rounds → (deliver rounds r).reorder.lookup (deliver rounds r).nextDeliver = none) := by
  induction rounds generalizing r with
  | zero =>
    refine ⟨_, _, _, rfl, h, fun _ hgot => hgot, fun hempty => ?_⟩
    rw [AList.lookup_eq_none, AList.mem_keys, deliver, length_eq_zero_iff.1 (le_zero.1 hempty)]
    exact not_mem_nil
  | succ rounds ih =>
    cases hnext : r.reorder.lookup r.nextDeliver with
    | none =>
      have hsame : deliver (rounds + 1) r = r := by rw [deliver, hnext]
      rw [hsame]
      exact ⟨_, _, _, rfl, h, fun _ hgot => hgot, fun _ => hnext⟩
    | some bytes =>
      obtain ⟨reorder, ready, nextDeliver, heq, hreceives, hgot, hgap⟩ := ih (h.advance hnext)
      have hstep : deliver (rounds + 1) r = deliver rounds { r with
          reorder := r.reorder.erase r.nextDeliver
          ready := r.ready ++ [bytes]
          nextDeliver := r.nextDeliver + 1 } := by rw [deliver, hnext]
      rw [hstep]
      refine ⟨reorder, ready, nextDeliver, heq, hreceives, fun seq hseq => hgot seq ?_, fun hlen => hgap ?_⟩
      · rcases hseq with hseq | hseq
        · exact .inl (lt_succ_of_lt hseq)
        · by_cases hne : seq = r.nextDeliver
          · exact .inl (by rw [hne]; exact lt_succ_self _)
          · exact .inr (mem_erase.2 ⟨hne, hseq⟩)
      · have hmem : r.nextDeliver ∈ r.reorder.keys := by
          rw [← AList.mem_keys, ← AList.lookup_isSome, hnext]
          rfl
        rw [keys_erase, length_erase_of_mem hmem]
        omega

/-- The receiver's part is exchanged for another. -/
theorem Carries.of_receiver {s r' : FaspLink} (h : Carries cfg' cfg s r log ret)
    (hgot : ∀ seq, r.Got seq → r'.Got seq) (hacked : ∀ f, Heard r' f → f.kind = kindAck → r'.Got f.seq)
    (hpending : ∀ seq ∈ r'.pendingAcks, r'.Got seq ∧ seq < 2 ^ 64)
    (hreceives : Receives cfg.recvWindow log ret' r') (hgap : r'.reorder.lookup r'.nextDeliver = none) :
    Carries cfg' cfg s r' log ret' :=
  { h with
    kept := fun seq p hp => (h.kept seq p hp).imp_right (hgot seq)
    acked := hacked
    pending := hpending
    receives := hreceives
    gap := hgap }

/-- A message within the window is put with those that wait. -/
theorem Receives.insert {window seq : ℕ} {payload : Bytes} (h : Receives window log ret r) (hle : r.nextDeliver ≤ seq)
    (hlt : seq < ret.length + window) (hlog : log[seq]? = some (some payload)) (pendingAcks : List ℕ) :
    Receives window log ret { r with
      pendingAcks := pendingAcks
      reorder := r.reorder.insert seq payload } := by
  refine { h with held := fun seq' p hp => ?_ }
  rw [lookup_insert_ite] at hp
  split_ifs at hp with heq
  · cases hp
    rw [heq]
    exact ⟨hle, hlt, hlog⟩
  · exact h.held seq' p hp

variable {f : Frame}

/-- The receiver takes a data frame of the sender. -/
theorem Carries.onData {s : FaspLink} (h : Carries cfg' cfg s l log ret) (hf : Heard s f)
    (hdata : f.kind = kindData) :
    ∃ pendingAcks reorder ready nextDeliver, onData cfg l f =
        { l with pendingAcks := pendingAcks, reorder := reorder, ready := ready, nextDeliver := nextDeliver } ∧
      Carries cfg' cfg s (onData cfg l f) log ret ∧ ∀ seq, l.Got seq → (onData cfg l f).Got seq := by
  have hlog := h.sent f hf hdata
  have hvalid : f.Valid := by
    obtain ⟨dgram, -, hmem⟩ := hf
    exact valid_of_mem_framesOf hmem
  simp only [FaspLink.onData, h.receives.base_eq]
  split_ifs with hwindow hnew
  · exact ⟨_, _, _, _, rfl, h, fun _ hgot => hgot⟩
  · obtain ⟨hle, hnotMem⟩ := hnew
    have hinsert := h.receives.insert hle (by omega) hlog (l.pendingAcks ++ [f.seq])
    obtain ⟨reorder, ready, nextDeliver, heq, hreceives, hgot, hgap⟩ := deliver_spec (l.reorder.keys.length + 1) hinsert
    have hgot' : ∀ seq, l.Got seq → (deliver (l.reorder.keys.length + 1) { l with
        pendingAcks := l.pendingAcks ++ [f.seq], reorder := l.reorder.insert f.seq f.payload }).Got seq := by
      intro seq hseq
      refine hgot seq (hseq.imp_right fun hmem => ?_)
      exact (mem_insert _).2 (.inr hmem)
    refine ⟨l.pendingAcks ++ [f.seq], reorder, ready, nextDeliver, heq,
      h.of_receiver hgot' (fun g hg hack => hgot' _ (h.acked g ?_ hack)) (fun seq hseq => ?_) hreceives (hgap ?_), hgot'⟩
    · rw [heq] at hg
      exact hg
    · rw [heq] at hseq
      rcases mem_append.1 hseq with hseq | hseq
      · exact (h.pending seq hseq).imp_left (hgot' seq)
      · rw [mem_singleton.1 hseq]
        exact ⟨hgot _ (.inr ((mem_insert _).2 (.inl rfl))), hvalid.seq_lt⟩
    · dsimp only
      rw [keys_insert, length_cons]
      exact succ_le_succ length_erase_le
  · have hgot : l.Got f.seq := by
      by_cases hlt : f.seq < l.nextDeliver
      · exact .inl hlt
      · exact .inr (by_contra fun hmem => hnew ⟨not_lt.1 hlt, hmem⟩)
    refine ⟨l.pendingAcks ++ [f.seq], l.reorder, l.ready, l.nextDeliver, rfl,
      h.of_receiver (fun _ hseq => hseq) h.acked ?_ { h.receives with } h.gap, fun _ hseq => hseq⟩
    exact forall_mem_append.2 ⟨h.pending, forall_mem_singleton.2 ⟨hgot, hvalid.seq_lt⟩⟩

/-! ### The operations of a call -/

/-- A frame that the link may send. -/
def Benign (log : List (Option Bytes)) (l : FaspLink) (f : Frame) : Prop :=
  (f.kind = kindData → log[f.seq]? = some (some f.payload)) ∧ (f.kind = kindAck → l.Got f.seq)

/-- A change of the socket only, by which the link sends nothing but what it may. -/
theorem Pair.of_socket (h : Pair cfg cfg' l r log log' ret ret') {txCount : ℕ} {wire : List Bytes}
    {failures : List (Option IoError)}
    (hwire : ∀ f, Heard { l with wire := wire } f → Heard l f ∨ Benign log l f) :
    Pair cfg cfg' { l with txCount := txCount, wire := wire, failures := failures } r log log' ret ret' := by
  refine ⟨{ h.out with sent := fun f hf hdata => ?_ },
    h.into.of_receiver (fun _ hgot => hgot) (fun f hf hack => ?_) h.into.pending { h.into.receives with } h.into.gap⟩
  · rcases hwire f hf with hold | hnew
    · exact h.out.sent f hold hdata
    · exact hnew.1 hdata
  · rcases hwire f hf with hold | hnew
    · exact h.into.acked f hold hack
    · exact hnew.2 hack

/-- What each part of a call keeps, the call keeps. -/
theorem Pair.andThen {α : Type} {x : FaspLink × Except FaspError Unit}
    {rest : FaspLink → FaspLink × Except FaspError α} (hx : Pair cfg cfg' x.1 r log log' ret ret')
    (hrest : Pair cfg cfg' x.1 r log log' ret ret' → Pair cfg cfg' (rest x.1).1 r log log' ret ret') :
    Pair cfg cfg' (andThen x rest).1 r log log' ret ret' := by
  obtain ⟨l, _ | _⟩ := x
  · exact hx
  · exact hrest hx

/-- What a send does. -/
theorem wireSend_spec (cfg : FaspCfg) (dgram : Bytes) (l : FaspLink) : ∃ txCount wire failures,
      (wireSend cfg dgram l).1 = { l with txCount := txCount, wire := wire, failures := failures } ∧
      (wire = l.wire ∨ wire = l.wire ++ [dgram] ∧ (wireSend cfg dgram l).2 = .ok ()) := by
  simp only [FaspLink.wireSend]
  split_ifs
  · exact ⟨_, _, _, rfl, .inl rfl⟩
  · cases l.failures.headD none with
    | some e => exact ⟨_, _, _, rfl, .inl rfl⟩
    | none => exact ⟨_, _, _, rfl, .inr ⟨rfl, rfl⟩⟩

variable {dgram : Bytes}

/-- A send that the socket takes. -/
theorem wireSend_ok {cfg : FaspCfg} {l : FaspLink} (h : l.failures.headD none = none) :
    (wireSend cfg dgram l).2 = .ok () := by
  simp only [FaspLink.wireSend, h]
  split_ifs <;> rfl

/-- What is heard of a link once it has sent one more datagram. -/
theorem heard_concat (h : Heard { l with wire := l.wire ++ [dgram] } f) :
    Heard l f ∨ f ∈ framesOf dgram := by
  obtain ⟨d, hd, hmem⟩ := h
  rcases mem_append.1 hd with hd | hd
  · exact .inl ⟨d, hd, hmem⟩
  · rw [mem_singleton.1 hd] at hmem
    exact .inr hmem

/-- A datagram is put on the wire, or dropped, or its send fails. -/
theorem Pair.wireSend (h : Pair cfg cfg' l r log log' ret ret') (dgram : Bytes)
    (hbenign : ∀ f ∈ framesOf dgram, Benign log l f) :
    Pair cfg cfg' (wireSend cfg dgram l).1 r log log' ret ret' := by
  obtain ⟨txCount, wire, failures, heq, hwire⟩ := wireSend_spec cfg dgram l
  rw [heq]
  refine h.of_socket fun f hf => ?_
  rcases hwire with rfl | ⟨rfl, -⟩
  · exact .inl hf
  · exact (heard_concat hf).imp_right (hbenign f)

/-- A frame that the peer has sent. -/
theorem Pair.onFrame (h : Pair cfg cfg' l r log log' ret ret') (hf : Heard r f) :
    Pair cfg cfg' (onFrame cfg l f) r log log' ret ret' := by
  unfold FaspLink.onFrame
  split_ifs with hdata hack
  · obtain ⟨pendingAcks, reorder, ready, nextDeliver, heq, hinto, -⟩ := h.into.onData hf hdata
    refine ⟨?_, hinto⟩
    rw [heq]
    exact { h.out with }
  · -- what is acknowledged has arrived
    have hgot := h.out.acked f hf hack
    refine ⟨{ h.out with
      frames := fun seq frame hframe => ?_
      kept := fun seq p hp => ?_
      bounded := ?_ }, { h.into with receives := { h.into.receives with } }⟩
    · dsimp only at hframe
      rw [lookup_erase_ite] at hframe
      split_ifs at hframe
      exact h.out.frames seq frame hframe
    · by_cases heq : seq = f.seq
      · exact .inr (heq ▸ hgot)
      · exact (h.out.kept seq p hp).imp_left fun hmem => mem_erase.2 ⟨heq, hmem⟩
    · dsimp only
      rw [keys_erase]
      exact le_trans length_erase_le h.out.bounded
  · exact h

theorem got_wireSend (cfg : FaspCfg) (dgram : Bytes) (l : FaspLink) (seq : ℕ) :
    (wireSend cfg dgram l).1.Got seq ↔ l.Got seq := by
  obtain ⟨txCount, wire, failures, heq, -⟩ := wireSend_spec cfg dgram l
  rw [heq]
  exact Iff.rfl

theorem kindAck_ne : kindAck ≠ kindData := by decide

/-- The acknowledgements of these messages in one datagram. -/
def ackDgram (seqs : List ℕ) : Bytes := seqs.flatMap fun seq => encodeFrame ⟨seq, kindAck, []⟩

theorem framesOf_ackDgram {seqs : List ℕ} (h : ∀ seq ∈ seqs, seq < 2 ^ 64) :
    framesOf (ackDgram seqs) = seqs.map fun seq => ⟨seq, kindAck, []⟩ := by
  have hflat : ackDgram seqs = (seqs.map fun seq => (⟨seq, kindAck, []⟩ : Frame)).flatMap encodeFrame := by
    rw [flatMap_map, ackDgram]
  rw [hflat]
  refine framesOf_flatMap fun f hf => ?_
  obtain ⟨seq, hseq, rfl⟩ := mem_map.1 hf
  exact ⟨h seq hseq, zero_le _⟩

/-- What has arrived may be acknowledged. -/
theorem benign_ackDgram {seqs : List ℕ} (h : ∀ seq ∈ seqs, l.Got seq ∧ seq < 2 ^ 64) :
    ∀ f ∈ framesOf (ackDgram seqs), Benign log l f := by
  intro f hf
  rw [framesOf_ackDgram fun seq hseq => (h seq hseq).2] at hf
  obtain ⟨seq, hseq, rfl⟩ := mem_map.1 hf
  exact ⟨fun hdata => absurd hdata kindAck_ne, fun _ => (h seq hseq).1⟩

theorem Pair.packAcks (h : Pair cfg cfg' l r log log' ret ret') (done acks : List ℕ)
    (hacks : ∀ seq ∈ done ++ acks, l.Got seq ∧ seq < 2 ^ 64) :
    Pair cfg cfg' (packAcks cfg acks (ackDgram done) l).1 r log log' ret ret' := by
  induction acks generalizing done l with
  | nil =>
    rw [FaspLink.packAcks]
    split_ifs
    · exact h
    · exact h.wireSend _ (benign_ackDgram (by simpa using hacks))
  | cons seq acks ih =>
    have hdone : ∀ seq ∈ done, l.Got seq ∧ seq < 2 ^ 64 := fun seq hseq => hacks seq (mem_append_left _ hseq)
    have hrest : ∀ j ∈ seq :: acks, l.Got j ∧ j < 2 ^ 64 := fun j hj => hacks j (mem_append_right _ hj)
    rw [FaspLink.packAcks]
    split_ifs
    · refine (h.wireSend _ (benign_ackDgram hdone)).andThen fun hsend => ?_
      refine ih hsend [seq] fun j hj => ?_
      rw [got_wireSend]
      exact hrest j hj
    · have hnext := ih h (done ++ [seq]) (by simpa using hacks)
      rwa [show ackDgram (done ++ [seq]) = ackDgram done ++ encodeFrame ⟨seq, kindAck, []⟩ by
        simp [ackDgram]] at hnext

/-- The acknowledgements are sent. -/
theorem Pair.flushAcks (h : Pair cfg cfg' l r log log' ret ret') :
    Pair cfg cfg' (flushAcks cfg l).1 r log log' ret ret' := by
  rw [FaspLink.flushAcks]
  split_ifs
  · exact h
  · have htaken : Pair cfg cfg' { l with pendingAcks := [] } r log log' ret ret' :=
      ⟨{ h.out with }, h.into.of_receiver (fun _ hgot => hgot) h.into.acked nofun { h.into.receives with } h.into.gap⟩
    exact htaken.packAcks [] _ h.into.pending

/-- What is due is sent again. -/
theorem Pair.resend (h : Pair cfg cfg' l r log log' ret ret') (due : List ℕ) :
    Pair cfg cfg' (resend cfg due l).1 r log log' ret ret' := by
  induction due generalizing l with
  | nil => exact h
  | cons seq due ih =>
    rw [FaspLink.resend]
    cases hframe : l.inflight.lookup seq with
    | none => exact ih h
    | some frame =>
      obtain ⟨p, hp, rfl, hlog⟩ := h.out.frames seq frame hframe
      have hlt : seq < 2 ^ 64 := by
        have hseq := (List.getElem?_eq_some_iff.1 hlog).1
        have hsmall := h.out.small
        rw [h.out.length] at hseq
        rw [u64Max] at hsmall
        omega
      refine (h.wireSend _ fun f hf => ?_).andThen ih
      rw [framesOf_encodeFrame ⟨hlt, hp⟩, mem_singleton] at hf
      rw [hf]
      exact ⟨fun _ => hlog, fun hack => absurd hack kindAck_ne.symm⟩

theorem Pair.onDatagram (h : Pair cfg cfg' l r log log' ret ret') {peer source : Addr}
    (hheard : source = peer → ∀ f ∈ framesOf dgram, Heard r f) :
    Pair cfg cfg' (onDatagram cfg peer l dgram source) r log log' ret ret' := by
  rw [FaspLink.onDatagram]
  split_ifs with hsource
  · exact h
  · have hall := hheard (not_not.1 hsource)
    generalize framesOf dgram = frames at hall ⊢
    induction frames generalizing l with
    | nil => exact h
    | cons f frames ih =>
      exact ih (h.onFrame (hall f mem_cons_self)) fun g hg => hall g (mem_cons_of_mem _ hg)

theorem Pair.flushLong (h : Pair cfg cfg' l r log log' ret ret') :
    Pair cfg cfg' (flushLong cfg l).1 r log log' ret ret' := by
  rw [FaspLink.flushLong]
  split_ifs
  · exact h.flushAcks
  · exact h

/-- All that has arrived is taken. -/
theorem Pair.drain (h : Pair cfg cfg' l r log log' ret ret') {x : Side} {incoming : List Incoming}
    (hseems : Plausible x r incoming) :
    Pair cfg cfg' (drain cfg (.of x) incoming l).1 r log log' ret ret' := by
  induction incoming generalizing l with
  | nil => exact h
  | cons item incoming ih =>
    have hrest : Plausible x r incoming := fun bytes hbytes => hseems bytes (mem_cons_of_mem _ hbytes)
    cases item with
    | failed e => exact h
    | interrupted => exact h.flushLong.andThen fun hflush => ih hflush hrest
    | datagram bytes source =>
      have htaken : Pair cfg cfg' (FaspLink.onDatagram cfg (.of x) l bytes source) r log log' ret ret' := by
        refine h.onDatagram fun hsource => ?_
        subst hsource
        exact hseems bytes mem_cons_self
      exact htaken.flushLong.andThen fun hflush => ih hflush hrest

/-- **`pump` keeps both directions.** -/
theorem Pair.pump (h : Pair cfg cfg' l r log log' ret ret') (x : Side) (script : Script)
    (hseems : Plausible x r script.incoming) :
    Pair cfg cfg' (pump cfg (.of x) script l).1 r log log' ret ret' := by
  have hstart : Pair cfg cfg' { l with failures := script.failures } r log log' ret ret' :=
    h.of_socket fun _ hf => .inl hf
  exact (hstart.drain hseems).andThen fun hdrain => hdrain.flushAcks.andThen fun hflush => hflush.resend _

theorem room_of_canSend {window : Bool} (h : canSend cfg window l = true) :
    l.inflight.keys.length < cfg.maxInflight := by
  rw [FaspLink.canSend, Bool.and_eq_true] at h
  exact of_decide_eq_true h.1

/-- **Waiting for room keeps both directions**, and when it ends well there is room. -/
theorem Pair.awaitRoom (h : Pair cfg cfg' l r log log' ret ret') {x : Side} {rounds : List Round}
    (hseems : Plausible x r (rounds.flatMap fun round => round.script.incoming)) :
    Pair cfg cfg' (awaitRoom cfg (.of x) rounds l).1 r log log' ret ret' ∧
      ((awaitRoom cfg (.of x) rounds l).2 = .ok () →
        (awaitRoom cfg (.of x) rounds l).1.inflight.keys.length < cfg.maxInflight) := by
  induction rounds generalizing l with
  | nil =>
    rw [FaspLink.awaitRoom]
    split_ifs with hroom
    · exact ⟨h, fun _ => room_of_canSend hroom⟩
    · exact ⟨h, fun hok => absurd hok (by simp)⟩
  | cons round rounds ih =>
    have hpump := h.pump x round.script fun bytes hbytes =>
      hseems bytes (mem_flatMap.2 ⟨round, mem_cons_self, hbytes⟩)
    have hrest : Plausible x r (rounds.flatMap fun round => round.script.incoming) := fun bytes hbytes =>
      hseems bytes (by rw [flatMap_cons]; exact mem_append_right _ hbytes)
    rw [FaspLink.awaitRoom]
    split_ifs with hroom
    · exact ⟨h, fun _ => room_of_canSend hroom⟩
    · rcases hresult : FaspLink.pump cfg (.of x) round.script l with ⟨l', _ | _⟩
      · rw [hresult] at hpump
        exact ⟨hpump, fun hok => absurd hok (by simp)⟩
      · rw [hresult] at hpump
        rw [andThen_ok]
        split_ifs
        · exact ⟨hpump, fun hok => absurd hok (by simp)⟩
        · exact ih hpump hrest

theorem logged_append {seq : ℕ} {o : Option Bytes} (h : log[seq]? = some o) (more : List (Option Bytes)) :
    (log ++ more)[seq]? = some o := by
  rw [getElem?_append_left (List.getElem?_eq_some_iff.1 h).1, h]

theorem Receives.append (h : Receives window log ret r) (more : List (Option Bytes)) :
    Receives window (log ++ more) ret r := by
  refine { h with order := ?_, length := ?_, held := fun seq p hp => ?_ }
  · rw [take_append_of_le_length h.length, h.order]
  · rw [length_append]
    exact le_add_right_of_le h.length
  · obtain ⟨hle, hlt, hlog⟩ := h.held seq p hp
    exact ⟨hle, hlt, logged_append hlog more⟩

/-- One more number is given, with what is in flight then. -/
theorem Carries.number (h : Carries cfg cfg' l r log ret) {o : Option Bytes} {inflight : AList fun _ : ℕ => Bytes}
    (hsmall : l.nextSeq < u64Max)
    (hframes : ∀ seq frame, inflight.lookup seq = some frame → l.inflight.lookup seq = some frame ∨
      seq = l.nextSeq ∧ ∃ p : Bytes, p.length ≤ maxFaspPayload ∧ frame = encodeFrame ⟨seq, kindData, p⟩ ∧ o = some p)
    (hkept : ∀ seq ∈ l.inflight, seq ∈ inflight) (hnew : o ≠ none → l.nextSeq ∈ inflight)
    (hbounded : inflight.keys.length ≤ cfg.maxInflight) :
    Carries cfg cfg' { l with nextSeq := l.nextSeq + 1, inflight := inflight } r (log ++ [o]) ret where
  length := by rw [length_append, h.length, length_singleton]
  small := hsmall
  sent f hf hdata := logged_append (h.sent f hf hdata) _
  frames seq frame hframe := by
    rcases hframes seq frame hframe with hold | ⟨rfl, p, hp, hframe, rfl⟩
    · obtain ⟨p, hp, hframe, hlog⟩ := h.frames seq frame hold
      exact ⟨p, hp, hframe, logged_append hlog _⟩
    · exact ⟨p, hp, hframe, by rw [← h.length, getElem?_concat_length]⟩
  kept seq p hp := by
    rw [getElem?_append] at hp
    split_ifs at hp with hlt
    · exact (h.kept seq p hp).imp_left (hkept seq)
    · obtain ⟨hlast, ho⟩ := List.getElem?_eq_some_iff.1 hp
      rw [length_singleton] at hlast
      rw [getElem_singleton] at ho
      have heq : seq = l.nextSeq := by
        rw [← h.length]
        omega
      exact .inl (heq ▸ hnew (by rw [ho]; exact Option.some_ne_none p))
  acked := h.acked
  pending := h.pending
  receives := h.receives.append _
  gap := h.gap
  bounded := hbounded

/-- **A message is numbered and sent.**  When its send fails its number stays empty. -/
theorem Pair.sendData (h : Pair cfg cfg' l r log log' ret ret') {payload : Bytes} {failure : Option IoError}
    (hlen : payload.length ≤ maxFaspPayload) (hroom : l.inflight.keys.length < cfg.maxInflight) :
    ∃ more : List (Option Bytes), Pair cfg cfg' (sendData cfg payload failure l).1 r (log ++ more) log' ret ret' ∧
      ((sendData cfg payload failure l).2 = .ok () → more = [some payload]) ∧
      ((sendData cfg payload failure l).2 ≠ .ok () → more = [] ∨ more = [none] ∧ failure ≠ none) := by
  rw [FaspLink.sendData]
  split_ifs with hsmall
  · refine ⟨[], ?_, fun hok => absurd hok (by simp), fun _ => .inl rfl⟩
    rw [append_nil]
    exact h
  · have hinto : ∀ {inflight : AList fun _ : ℕ => Bytes}, Carries cfg' cfg r
        { l with nextSeq := l.nextSeq + 1, inflight := inflight } log' ret :=
      { h.into with receives := { h.into.receives with } }
    obtain ⟨txCount, wire, failures, heq, hwire⟩ := wireSend_spec cfg (encodeFrame ⟨l.nextSeq, kindData, payload⟩)
      { l with nextSeq := l.nextSeq + 1, failures := [failure] }
    simp only
    rcases hresult : FaspLink.wireSend cfg (encodeFrame ⟨l.nextSeq, kindData, payload⟩)
      { l with nextSeq := l.nextSeq + 1, failures := [failure] } with ⟨l', e | _⟩
    · -- the number is spent and the message is in flight nowhere
      rw [hresult] at heq hwire
      have hpair : Pair cfg cfg' { l with nextSeq := l.nextSeq + 1 } r (log ++ [none]) log' ret ret' :=
        ⟨h.out.number (Nat.lt_of_not_le hsmall) (fun _ _ hold => .inl hold) (fun _ hmem => hmem)
          (fun hne => absurd rfl hne) h.out.bounded, hinto⟩
      have hfailure : failure ≠ none := by
        rintro rfl
        have hok := congrArg Prod.snd hresult
        rw [wireSend_ok rfl] at hok
        cases hok
      refine ⟨[none], ?_, fun hok => absurd hok (by simp), fun _ => .inr ⟨rfl, hfailure⟩⟩
      rw [show l' = _ from heq]
      refine hpair.of_socket fun f hf => ?_
      rcases hwire with rfl | ⟨-, hok⟩
      · exact .inl hf
      · exact absurd hok (by simp)
    · rw [hresult] at heq hwire
      have hlt : l.nextSeq < 2 ^ 64 := by
        rw [u64Max] at hsmall
        omega
      have hpair : Pair cfg cfg' { l with
          nextSeq := l.nextSeq + 1
          inflight := l.inflight.insert l.nextSeq (encodeFrame ⟨l.nextSeq, kindData, payload⟩) }
          r (log ++ [some payload]) log' ret ret' := by
        refine ⟨h.out.number (Nat.lt_of_not_le hsmall) (fun seq frame hframe => ?_)
          (fun seq hmem => (mem_insert _).2 (.inr hmem)) (fun _ => (mem_insert _).2 (.inl rfl)) ?_, hinto⟩
        · rw [lookup_insert_ite] at hframe
          split_ifs at hframe with hseq
          · cases hframe
            exact .inr ⟨hseq, payload, hlen, by rw [hseq], rfl⟩
          · exact .inl hframe
        · rw [keys_insert, length_cons]
          exact lt_of_le_of_lt length_erase_le hroom
      refine ⟨[some payload], ?_, fun _ => rfl, fun hne => absurd rfl hne⟩
      rw [show l' = _ from heq]
      refine hpair.of_socket fun f hf => ?_
      rcases hwire with rfl | ⟨rfl, -⟩
      · exact .inl hf
      · refine (heard_concat hf).imp_right fun hmem => ?_
        rw [framesOf_encodeFrame ⟨hlt, hlen⟩, mem_singleton] at hmem
        rw [hmem]
        refine ⟨fun _ => ?_, fun hack => absurd hack kindAck_ne.symm⟩
        rw [← h.out.length, getElem?_concat_length]

/-- **`send` keeps both directions**; the payload is in the log if it returns `Ok`. -/
theorem Pair.send (h : Pair cfg cfg' l r log log' ret ret') (x : Side) (payload : Bytes) (rounds : List Round)
    (failure : Option IoError) (hseems : Plausible x r (rounds.flatMap fun round => round.script.incoming)) :
    ∃ more : List (Option Bytes), Pair cfg cfg' (send cfg (.of x) payload rounds failure l).1 r (log ++ more) log' ret ret' ∧
      ((send cfg (.of x) payload rounds failure l).2 = .ok () → more = [some payload]) ∧
      ((send cfg (.of x) payload rounds failure l).2 ≠ .ok () → more = [] ∨ more = [none] ∧ failure ≠ none) := by
  have hsame : Pair cfg cfg' l r (log ++ []) log' ret ret' := by
    rw [append_nil]
    exact h
  rw [FaspLink.send]
  split_ifs with hlen
  · exact ⟨[], hsame, fun hok => absurd hok (by simp), fun _ => .inl rfl⟩
  · obtain ⟨hwait, hroom⟩ := h.awaitRoom hseems
    rcases hresult : FaspLink.awaitRoom cfg (.of x) rounds l with ⟨l', _ | _⟩
    · rw [hresult] at hwait
      refine ⟨[], ?_, fun hok => absurd hok (by simp), fun _ => .inl rfl⟩
      rw [append_nil]
      exact hwait
    · rw [hresult] at hwait hroom
      exact hwait.sendData (Nat.le_of_not_lt hlen) (hroom rfl)

/-- One message is consumed. -/
theorem Receives.pop {p : Bytes} {ready : List Bytes} (h : Receives window log ret l)
    (hready : l.ready = p :: ready) : Receives window log (ret ++ [p]) { l with ready := ready } where
  order := by rw [h.order, hready, append_assoc, singleton_append]
  length := h.length
  held seq q hq := by
    obtain ⟨hle, hlt, hlog⟩ := h.held seq q hq
    refine ⟨hle, ?_, hlog⟩
    rw [length_append]
    omega
  room := by
    have := h.room
    rw [length_append]
    dsimp only
    omega

/-- **`recv` keeps both directions.** -/
theorem Pair.recv (h : Pair cfg cfg' l r log log' ret ret') (x : Side) (script : Script)
    (hseems : Plausible x r script.incoming) :
    ∃ got : List Bytes, Pair cfg cfg' (recv cfg (.of x) script l).1 r log log' (ret ++ got) ret' ∧
      (∀ p, (recv cfg (.of x) script l).2 = .ok (some p) → got = [p]) ∧
      ((∀ p, (recv cfg (.of x) script l).2 ≠ .ok (some p)) → got = []) := by
  have hpump := h.pump x script hseems
  rw [FaspLink.recv]
  rcases hresult : FaspLink.pump cfg (.of x) script l with ⟨l', _ | _⟩
  · rw [hresult] at hpump
    refine ⟨[], ?_, fun p hp => absurd hp (by simp), fun _ => rfl⟩
    rw [append_nil]
    exact hpump
  · rw [hresult] at hpump
    rw [andThen_ok]
    cases hready : l'.ready with
    | nil =>
      refine ⟨[], ?_, fun p hp => absurd hp (by simp), fun _ => rfl⟩
      rw [append_nil, tail_nil, ← hready]
      exact hpump
    | cons p ready =>
      refine ⟨[p], ⟨{ hpump.out with }, ?_⟩, fun q hq => ?_, fun hne => absurd rfl (hne p)⟩
      · exact { hpump.into with receives := hpump.into.receives.pop hready }
      · rw [head?_cons] at hq
        cases hq
        rfl

/-! ### What a reader sees -/

/-- What was returned is the beginning of what was accepted. -/
theorem Receives.returned_prefix (h : Receives window log ret r) : ret <+: log.filterMap id := by
  have htake : (log.take r.nextDeliver).filterMap id = ret ++ r.ready := by
    rw [h.order, filterMap_map, id_comp, filterMap_some]
  have hprefix : (log.take r.nextDeliver).filterMap id <+: log.filterMap id := ( take_prefix _ _).filterMap _
  rw [htake] at hprefix
  exact (prefix_append ret r.ready).trans hprefix

/-- A message the receiver has got is the one in the log. -/
theorem Receives.message {window seq : ℕ} {p : Bytes} (h : Receives window log ret r) (hgot : r.Got seq)
    (hlog : log[seq]? = some (some p)) : (ret ++ r.ready)[seq]? = some p ∨ r.reorder.lookup seq = some p := by
  rcases hgot with hlt | hmem
  · have htake : (log.take r.nextDeliver)[seq]? = some (some p) := by rw [getElem?_take_of_lt hlt, hlog]
    rw [h.order, getElem?_map, Option.map_eq_some_iff] at htake
    obtain ⟨q, hq, heq⟩ := htake
    exact .inl (by rw [hq, heq])
  · obtain ⟨q, hq⟩ := Option.isSome_iff_exists.1 (lookup_isSome.2 hmem)
    obtain ⟨-, -, hlog'⟩ := h.held seq q hq
    rw [hlog, Option.some_inj, Option.some_inj] at hlog'
    exact .inr (by rw [hq, hlog'])

/-- What the receiver buffers fits its window. -/
theorem Receives.buffered_le (h : Receives window log ret r) : r.reorder.keys.length + r.ready.length ≤ window := by
  have hsub : r.reorder.keys.toFinset ⊆ Finset.Ico r.nextDeliver (ret.length + window) := by
    intro seq hseq
    rw [mem_toFinset, ← AList.mem_keys, ← AList.lookup_isSome, Option.isSome_iff_exists] at hseq
    obtain ⟨p, hp⟩ := hseq
    obtain ⟨hle, hlt, -⟩ := h.held seq p hp
    exact Finset.mem_Ico.2 ⟨hle, hlt⟩
  have hcard := Finset.card_le_card hsub
  rw [toFinset_card_of_nodup r.reorder.keys_nodup, card_Ico] at hcard
  have hlen := h.length_eq
  have hroom := h.room
  omega

/-! ### Runs -/

theorem Side.eq_or_other (x y : Side) : y = x ∨ y = x.other := by cases x <;> cases y <;> decide

variable {conf : Side → FaspCfg} {log : Side → List (Option Bytes)} {h h' : List (Event × Answer)} {w : World} {x : Side}

/-- **The invariant of a run**: both directions, with what was accepted and what was returned. -/
structure Joined (conf : Side → FaspCfg) (log : Side → List (Option Bytes)) (h : List (Event × Answer)) (w : World) :
    Prop where
  numbered : ∀ x, (log x).filterMap id = accepted h x
  carries : ∀ x, Carries (conf x) (conf x.other) (w x) (w x.other) (log x) (returned h x.other)

theorem Joined.pair (hj : Joined conf log h w) (x : Side) :
    Pair (conf x) (conf x.other) (w x) (w x.other) (log x) (log x.other) (returned h x) (returned h x.other) := by
  have hinto := hj.carries x.other
  rw [Side.other_other] at hinto
  exact ⟨hj.carries x, hinto⟩

/-- A call at one end. -/
theorem Joined.of_pair (hj : Joined conf log h w) (more : List (Option Bytes)) (got : List Bytes)
    (hpair : Pair (conf x) (conf x.other) l (w x.other) (log x ++ more) (log x.other) (returned h x ++ got)
      (returned h x.other))
    (hacc : ∀ y, accepted h' y = accepted h y ++ if y = x then more.filterMap id else [])
    (hret : ∀ y, returned h' y = returned h y ++ if y = x then got else []) :
    Joined conf (update log x (log x ++ more)) h' (update w x l) := by
  have hx : accepted h' x = accepted h x ++ more.filterMap id := by rw [hacc, if_pos rfl]
  have hx' : accepted h' x.other = accepted h x.other := by
    rw [hacc, if_neg x.other_ne, append_nil]
  have hr : returned h' x = returned h x ++ got := by rw [hret, if_pos rfl]
  have hr' : returned h' x.other = returned h x.other := by rw [hret, if_neg x.other_ne, append_nil]
  refine ⟨fun y => ?_, fun y => ?_⟩
  · rcases Side.eq_or_other x y with rfl | rfl
    · rw [update_self, filterMap_append, hj.numbered, hx]
    · rw [update_of_ne x.other_ne, hj.numbered, hx']
  · rcases Side.eq_or_other x y with rfl | rfl
    · rw [update_self, update_self, update_of_ne y.other_ne, hr']
      exact hpair.out
    · rw [Side.other_other, update_self, update_of_ne x.other_ne, update_of_ne x.other_ne, hr]
      exact hpair.into

theorem accepted_concat (h : List (Event × Answer)) (e : Event) (a : Answer) (y : Side) :
    accepted (h ++ [(e, a)]) y = accepted h y ++ accepted [(e, a)] y := filterMap_append

theorem returned_concat (h : List (Event × Answer)) (e : Event) (a : Answer) (y : Side) :
    returned (h ++ [(e, a)]) y = returned h y ++ returned [(e, a)] y := filterMap_append

variable {e : Event}

/-- **One call.**  A `send` may make the log of its end longer, by an empty entry only if the socket fails. -/
theorem Joined.step (hj : Joined conf log h w) (hnet : Allowed w e) :
    ∃ more, Joined conf (update log e.side (log e.side ++ more))
      (h ++ [(e, ((machine conf).step w e).2)]) ((machine conf).step w e).1 ∧
      (none ∈ more → e.failure ≠ none) ∧ (¬e.IsSend → more = []) := by
  cases e with
  | send x payload rounds failure =>
    obtain ⟨more, hnext, hok, hfail⟩ := (hj.pair x).send x.other payload rounds failure hnet
    refine ⟨more, hj.of_pair more [] ?_ (fun y => ?_) (fun y => ?_), fun hnone => ?_, fun hno => absurd trivial hno⟩
    · rw [append_nil]
      exact hnext
    · rw [accepted_concat]
      cases hresult : (FaspLink.send (conf x) (.of x.other) payload rounds failure (w x)).2 with
      | error e => rcases hfail (by simp [hresult]) with rfl | ⟨rfl, -⟩ <;> simp [accepted, machine, Event.side, hresult]
      | ok =>
        rw [hok hresult]
        rcases eq_or_ne y x with rfl | hy
        · simp [accepted, machine, Event.side, hresult]
        · simp [accepted, machine, Event.side, hresult, hy, hy.symm]
    · rw [returned_concat]
      simp [returned, machine]
    · by_cases hresult : (FaspLink.send (conf x) (.of x.other) payload rounds failure (w x)).2 = .ok ()
      · rw [hok hresult] at hnone
        simp at hnone
      · rcases hfail hresult with rfl | ⟨-, hfailure⟩
        · cases hnone
        · exact hfailure
  | recv x script =>
    obtain ⟨got, hnext, hsome, hnone⟩ := (hj.pair x).recv x.other script hnet
    refine ⟨[], hj.of_pair [] got ?_ (fun y => ?_) (fun y => ?_), nofun, fun _ => rfl⟩
    · rw [append_nil]
      exact hnext
    · rw [accepted_concat]
      simp [accepted, machine]
    · rw [returned_concat]
      rcases hresult : (FaspLink.recv (conf x) (.of x.other) script (w x)).2 with e | _ | p
      · simp [returned, machine, hresult, hnone fun p => by simp [hresult]]
      · simp [returned, machine, hresult, hnone fun p => by simp [hresult]]
      · rw [hsome p hresult]
        rcases eq_or_ne y x with rfl | hy
        · simp [returned, machine, Event.side, hresult]
        · simp [returned, machine, Event.side, hresult, hy, hy.symm]
  | pump x script =>
    refine ⟨[], hj.of_pair [] [] ?_ (fun y => ?_) (fun y => ?_), nofun, fun _ => rfl⟩
    · rw [append_nil, append_nil]
      exact (hj.pair x).pump x.other script hnet
    · rw [accepted_concat]
      simp [accepted, machine]
    · rw [returned_concat]
      simp [returned, machine]

theorem joined_initial (conf : Side → FaspCfg) : Joined conf (fun _ => []) [] initial :=
  ⟨fun _ => rfl, fun _ => {
    length := rfl
    small := zero_le _
    sent := fun _ hf => absurd hf (by simp [Heard, initial, FaspLink.new])
    frames := fun _ _ hframe => by simp [initial, FaspLink.new] at hframe
    kept := fun _ _ hp => by simp at hp
    acked := fun _ hf => absurd hf (by simp [Heard, initial, FaspLink.new])
    pending := nofun
    receives := ⟨rfl, le_refl 0, fun _ _ hp => by simp [initial, FaspLink.new] at hp, zero_le _⟩
    gap := by simp [initial, FaspLink.new]
    bounded := zero_le _ }⟩

/-- A log only grows. -/
theorem le_update (log : Side → List (Option Bytes)) (x y : Side) (more : List (Option Bytes)) :
    log y <+: update log x (log x ++ more) y := by
  rcases eq_or_ne y x with rfl | hy
  · rw [update_self]
    exact prefix_append _ _
  · rw [update_of_ne hy]

variable {events : List Event}

/-- **Every run.** -/
theorem Joined.run (hj : Joined conf log h w) (hnet : (machine conf).Guarded Allowed w events) :
    ∃ log', (∀ x, log x <+: log' x) ∧
      Joined conf log' (h ++ (machine conf).trace w events) ((machine conf).final w events) := by
  refine (machine conf).invariant_of_step Allowed (fun h w => ∃ log', (∀ x, log x <+: log' x) ∧ Joined conf log' h w)
    (fun h w e he ⟨log', hle, hj'⟩ => ?_) w events h hnet ⟨log, fun x => prefix_rfl, hj⟩
  obtain ⟨more, hnext, -⟩ := hj'.step he
  exact ⟨_, fun x => (hle x).trans (le_update log' e.side x more), hnext⟩

theorem joined_run (hnet : (machine conf).Guarded Allowed initial events) :
    ∃ log, Joined conf log ((machine conf).trace initial events) ((machine conf).final initial events) := by
  obtain ⟨log, -, hj⟩ := (joined_initial conf).run hnet
  exact ⟨log, hj⟩

/-- What a call at one end does to the other. -/
theorem step_of_ne (w : World) (e : Event) {y : Side} (hy : y ≠ e.side) : ((machine conf).step w e).1 y = w y := by
  cases e with
  | send x payload rounds failure => exact update_of_ne hy _ _
  | recv x script => exact update_of_ne hy _ _
  | pump x script => exact update_of_ne hy _ _

/-- **Nothing leaves the in-flight map before the receiver has it.** -/
theorem Joined.left_inflight (hj : Joined conf log h w) (hnet : Allowed w e) {seq : ℕ} {frame : Bytes}
    (hbefore : (w x).inflight.lookup seq = some frame)
    (hafter : seq ∉ (((machine conf).step w e).1 x).inflight) :
    ∃ p, frame = encodeFrame ⟨seq, kindData, p⟩ ∧
      ((returned h x.other ++ (w x.other).ready)[seq]? = some p ∨ (w x.other).reorder.lookup seq = some p) := by
  obtain ⟨p, -, hframe, hp⟩ := (hj.carries x).frames seq frame hbefore
  refine ⟨p, hframe, (hj.carries x).receives.message ?_ hp⟩
  rcases Side.eq_or_other e.side x with hx | hx
  · obtain ⟨more, hnext, -⟩ := hj.step hnet
    have hkept := (hnext.carries x).kept seq p
    subst hx
    rw [update_self, step_of_ne w e e.side.other_ne] at hkept
    exact (hkept (logged_append hp more)).resolve_left hafter
  · rw [step_of_ne w e (hx ▸ Side.other_ne _), ← lookup_isSome, hbefore] at hafter
    exact absurd rfl hafter

/-- **Reliable UDP is ordered and exactly-once.**  Whatever the calls at the two ends and whatever the network
does: what the receiver's `recv` has returned is the beginning of what the sender's `send` has accepted; what
leaves the in-flight map in a call was handed out or held by the receiver before it; and the buffers of both ends
keep their bounds. -/
theorem reliable_ordered_once (conf : Side → FaspCfg) (events : List Event) (x : Side)
    (hnet : (machine conf).Guarded Allowed initial events) :
    returned ((machine conf).trace initial events) x.other <+: accepted ((machine conf).trace initial events) x ∧
    (∀ e seq frame, Allowed ((machine conf).final initial events) e →
      ((machine conf).final initial events x).inflight.lookup seq = some frame →
      seq ∉ ((machine conf).final initial (events ++ [e]) x).inflight →
      ∃ p, frame = encodeFrame ⟨seq, kindData, p⟩ ∧ ((returned ((machine conf).trace initial events) x.other ++
            ((machine conf).final initial events x.other).ready)[seq]? = some p ∨
          ((machine conf).final initial events x.other).reorder.lookup seq = some p)) ∧
    ((machine conf).final initial events x.other).reorder.keys.length +
      ((machine conf).final initial events x.other).ready.length ≤ (conf x.other).recvWindow ∧
    ((machine conf).final initial events x).inflight.keys.length ≤ (conf x).maxInflight := by
  obtain ⟨log, hj⟩ := joined_run hnet
  refine ⟨?_, fun e seq frame he hbefore hafter => ?_, (hj.carries x).receives.buffered_le, (hj.carries x).bounded⟩
  · rw [← hj.numbered]
    exact (hj.carries x).receives.returned_prefix
  · rw [Machine.final_append, Machine.final_cons, Machine.final_nil] at hafter
    exact hj.left_inflight he hbefore hafter

/-- Datagrams that are delivered unchanged. -/
theorem allowed_of_mem_wire {w : World}
    (h : ∀ item ∈ e.incoming, ∃ bytes ∈ (w e.side.other).wire, item = .datagram bytes (.of e.side.other)) :
    Allowed w e := by
  intro bytes hbytes f hf
  obtain ⟨bytes', hmem, heq⟩ := h _ hbytes
  cases heq
  exact ⟨bytes, hmem, hf⟩

/-- A message is sent, read and acknowledged. -/
theorem reliable_ordered_once_acknowledged : ∃ events, (machine fun _ => ⟨4, 2, 0⟩).Guarded Allowed initial events ∧
      accepted ((machine fun _ => ⟨4, 2, 0⟩).trace initial events) .left = [[1]] ∧
      returned ((machine fun _ => ⟨4, 2, 0⟩).trace initial events) .right = [[1]] ∧
      returned ((machine fun _ => ⟨4, 2, 0⟩).trace initial events) .right <+:
        accepted ((machine fun _ => ⟨4, 2, 0⟩).trace initial events) .left := by
  have hnet : (machine fun _ => ⟨4, 2, 0⟩).Guarded Allowed initial
      [.send .left [1] [] none, .recv .right ⟨[.datagram (encodeFrame ⟨0, kindData, [1]⟩) (.of .left)], [], []⟩,
        .pump .left ⟨[.datagram (encodeFrame ⟨0, kindAck, []⟩) (.of .right)], [], []⟩] := by
    refine ⟨allowed_of_mem_wire ?_, allowed_of_mem_wire ?_, allowed_of_mem_wire ?_, trivial⟩
    · decide
    · decide +kernel
    · decide +kernel
  exact ⟨_, hnet, by decide +kernel, by decide +kernel, (reliable_ordered_once _ _ .left hnet).1⟩

end Datarail.ReliableUdp
