/-
# A failed send leaves a hole

`send` takes a number, transmits, and records the message as in flight only after that: when the socket's send
fails in between, the number is spent and no retransmission will ever fill it.  The receiver hands out nothing
past it (`Receives.nextDeliver_le`).

A failure anywhere else, of an acknowledgement or of a retransmission, does no harm.  So as long as no first
transmission fails, every number is in flight or has arrived, and even if the network has lost all that was sent,
retransmission brings every accepted message to the receiver (`exists_delivery`).
-/

import Datarail.ReliableUdp.Reliable

namespace Datarail.ReliableUdp

open Lib FaspLink List Machine

variable {cfg : FaspCfg} {l r : FaspLink}

/-! ### Calls that the socket does not disturb -/

/-- A part of a call that goes well and changes no buffer. -/
def Settled (l : FaspLink) (x : FaspLink × Except FaspError Unit) : Prop :=
  x.2 = .ok () ∧ ∃ txCount wire, x.1 = { l with txCount := txCount, wire := wire }

theorem Settled.refl (l : FaspLink) : Settled l (l, .ok ()) := ⟨rfl, _, _, rfl⟩

variable {x : FaspLink × Except FaspError Unit}

theorem Settled.same (h : Settled l x) :
    x.1.pendingAcks = l.pendingAcks ∧ x.1.inflight = l.inflight := by
  obtain ⟨-, txCount, wire, heq⟩ := h
  rw [heq]
  exact ⟨rfl, rfl⟩

theorem Settled.andThen {rest : FaspLink → FaspLink × Except FaspError Unit}
    (h : Settled l x) (hrest : ∀ txCount wire, Settled { l with txCount := txCount, wire := wire }
      (rest { l with txCount := txCount, wire := wire })) :
    Settled l (andThen x rest) := by
  rw [andThen_of_ok h.1]
  obtain ⟨-, txCount, wire, heq⟩ := h
  obtain ⟨hok, txCount', wire', heq'⟩ := hrest txCount wire
  rw [heq]
  exact ⟨hok, txCount', wire', heq'⟩

variable (cfg)

theorem settled_wireSend (dgram : Bytes) (h : l.failures = []) : Settled l (wireSend cfg dgram l) := by
  obtain ⟨nextSeq, inflight, txCount, pendingAcks, nextDeliver, reorder, ready, wire, failures⟩ := l
  obtain rfl : failures = [] := h
  simp only [wireSend]
  split_ifs
  · exact ⟨rfl, _, _, rfl⟩
  · exact ⟨rfl, _, _, rfl⟩

theorem settled_packAcks (acks : List ℕ) (dgram : Bytes) (h : l.failures = []) :
    Settled l (packAcks cfg acks dgram l) := by
  induction acks generalizing dgram l with
  | nil =>
    rw [packAcks]
    split_ifs
    · exact .refl l
    · exact settled_wireSend cfg dgram h
  | cons seq acks ih =>
    rw [packAcks]
    split_ifs
    · exact (settled_wireSend cfg dgram h).andThen fun _ _ => ih _ h
    · exact ih _ h

theorem settled_flushAcks (h : l.failures = []) : Settled { l with pendingAcks := [] } (flushAcks cfg l) := by
  rw [flushAcks]
  split_ifs with hnone
  · rw [← hnone]
    exact .refl l
  · exact settled_packAcks cfg l.pendingAcks [] h

theorem settled_resend (due : List ℕ) (h : l.failures = []) : Settled l (resend cfg due l) := by
  induction due generalizing l with
  | nil => exact .refl l
  | cons seq due ih =>
    rw [resend]
    cases l.inflight.lookup seq with
    | none => exact ih h
    | some frame => exact (settled_wireSend cfg frame h).andThen fun _ _ => ih h

/-- The end of a `pump`, when the socket takes everything. -/
theorem settled_flush_retransmit (due : List ℕ) (h : l.failures = []) :
    Settled { l with pendingAcks := [] } (andThen (flushAcks cfg l) fun l => retransmitDue cfg due l) :=
  (settled_flushAcks cfg h).andThen fun _ _ => settled_resend cfg _ h

/-- A `pump` for which nothing has arrived. -/
theorem settled_pump (peer : Addr) (due : List ℕ) (l : FaspLink) :
    Settled { l with pendingAcks := [], failures := [] } (pump cfg peer ⟨[], [], due⟩ l) :=
  settled_flush_retransmit cfg due (l := { l with failures := [] }) rfl

/-- A `pump` for which one datagram has arrived. -/
theorem settled_pump_datagram (peer : Addr) (bytes : Bytes) (source : Addr) (l : FaspLink)
    (h : (onDatagram cfg peer { l with failures := [] } bytes source).failures = []) :
    Settled { onDatagram cfg peer { l with failures := [] } bytes source with pendingAcks := [] }
      (pump cfg peer ⟨[.datagram bytes source], [], []⟩ l) := by
  have hlong : ∃ pendingAcks, Settled { onDatagram cfg peer { l with failures := [] } bytes source with
      pendingAcks := pendingAcks } (flushLong cfg (onDatagram cfg peer { l with failures := [] } bytes source)) := by
    rw [flushLong]
    split_ifs
    · exact ⟨[], settled_flushAcks cfg h⟩
    · exact ⟨_, .refl _⟩
  obtain ⟨pendingAcks, hok, txCount, wire, heq⟩ := hlong
  rw [pump, drain, andThen_of_ok hok, heq, drain, andThen_ok]
  obtain ⟨hok', txCount', wire', heq'⟩ := settled_flush_retransmit cfg [] (l := { onDatagram cfg peer
    { l with failures := [] } bytes source with pendingAcks := pendingAcks, txCount := txCount, wire := wire }) h
  exact ⟨hok', txCount', wire', heq'⟩

/-! ### One message is sent again -/

variable {seq : ℕ} {frame : Bytes}

/-- With no acknowledgements to send, a `pump` sends again what is due. -/
theorem pump_due (peer : Addr) (hpending : l.pendingAcks = []) (hframe : l.inflight.lookup seq = some frame) :
    pump cfg peer ⟨[], [], [seq]⟩ l = wireSend cfg frame { l with failures := [] } := by
  have hmem : seq ∈ l.inflight := by
    rw [← AList.lookup_isSome, hframe]
    rfl
  have hdue : (sortedKeys l.inflight).filter (· ∈ [seq]) = [seq] := by
    have hnodup : (sortedKeys l.inflight).Nodup := (perm_insertionSort _ _).nodup_iff.2 l.inflight.keys_nodup
    simp only [mem_singleton]
    rw [filter_eq, count_eq_one_of_mem hnodup (mem_sortedKeys.2 hmem)]
    rfl
  have hsend := settled_wireSend cfg frame (l := { l with failures := [] }) rfl
  rw [pump, drain, andThen_ok, flushAcks, if_pos hpending, andThen_ok, retransmitDue, hdue, resend]
  simp only [hframe]
  rw [andThen_of_ok hsend.1, resend, ← hsend.1]

/-- **Of two transmissions the simulated loss leaves one.** -/
theorem mem_wire_twice (frame : Bytes) (l : FaspLink) (hloss : cfg.lossSimDropEvery ≠ 1) :
    frame ∈ (wireSend cfg frame { (wireSend cfg frame { l with failures := [] }).1 with failures := [] }).1.wire := by
  have hone : cfg.lossSimDropEvery ∣ l.txCount + 1 → cfg.lossSimDropEvery ∣ l.txCount + 1 + 1 → False := by
    intro hfirst hsecond
    exact hloss (Nat.dvd_one.1 ((Nat.dvd_add_right hfirst).1 hsecond))
  simp only [wireSend, ← Nat.dvd_iff_mod_eq_zero, headD_nil]
  split_ifs with hfirst hsecond hsecond
  · exact absurd hsecond.2 (hone hfirst.2)
  · exact mem_append_right _ (mem_singleton_self _)
  · exact mem_append_right _ (mem_singleton_self _)
  · exact mem_append_right _ (mem_singleton_self _)

/-- **Three calls put a message on the wire again**, whatever the simulated loss takes. -/
theorem mem_wire_pumps (peer : Addr) (hframe : l.inflight.lookup seq = some frame)
    (hloss : cfg.lossSimDropEvery ≠ 1) :
    frame ∈ (pump cfg peer ⟨[], [], [seq]⟩
      (pump cfg peer ⟨[], [], [seq]⟩ (pump cfg peer ⟨[], [], []⟩ l).1).1).1.wire := by
  obtain ⟨hpending, hinflight⟩ := (settled_pump cfg peer [] l).same
  obtain ⟨hpending', hinflight'⟩ := (settled_wireSend cfg frame
    (l := { (pump cfg peer ⟨[], [], []⟩ l).1 with failures := [] }) rfl).same
  have hframe' := (congrArg (AList.lookup seq) hinflight).trans hframe
  rw [pump_due cfg peer hpending hframe', pump_due cfg peer (hpending'.trans hpending)
    ((congrArg (AList.lookup seq) hinflight').trans hframe')]
  exact mem_wire_twice cfg frame _ hloss

/-! ### The receiver gets the next message -/

theorem deliver_keeps (rounds : ℕ) (l : FaspLink) :
    (deliver rounds l).failures = l.failures ∧ l.ready <+: (deliver rounds l).ready := by
  induction rounds generalizing l with
  | zero => exact ⟨rfl, prefix_rfl⟩
  | succ rounds ih =>
    rw [deliver]
    cases l.reorder.lookup l.nextDeliver with
    | none => exact ⟨rfl, prefix_rfl⟩
    | some bytes =>
      obtain ⟨hfailures, hready⟩ := ih { l with
        reorder := l.reorder.erase l.nextDeliver, ready := l.ready ++ [bytes], nextDeliver := l.nextDeliver + 1 }
      exact ⟨hfailures, (prefix_append _ _).trans hready⟩

/-- The message that the link waits for is handed out. -/
theorem onData_next {f : Frame} (hseq : f.seq = l.nextDeliver) (hready : l.ready = [])
    (hgap : l.reorder.lookup l.nextDeliver = none) (hwindow : 0 < cfg.recvWindow) (hsmall : f.seq < u64Max) :
    (onData cfg l f).failures = l.failures ∧ ∃ rest, (onData cfg l f).ready = f.payload :: rest := by
  have hin : ¬min (l.nextDeliver - l.ready.length + cfg.recvWindow) u64Max ≤ f.seq := by
    rw [hready, length_nil]
    omega
  have hnew : l.nextDeliver ≤ f.seq ∧ f.seq ∉ l.reorder := by
    refine ⟨hseq.ge, ?_⟩
    rw [hseq]
    exact AList.lookup_eq_none.1 hgap
  simp only [onData, if_neg hin, if_pos hnew]
  rw [deliver]
  simp only [hseq, AList.lookup_insert, hready, nil_append]
  obtain ⟨hfailures, rest, hrest⟩ := deliver_keeps l.reorder.keys.length { l with
    pendingAcks := l.pendingAcks ++ [l.nextDeliver]
    reorder := (l.reorder.insert l.nextDeliver f.payload).erase l.nextDeliver
    ready := [f.payload]
    nextDeliver := l.nextDeliver + 1 }
  exact ⟨hfailures, rest, hrest.symm⟩

/-! ### Nothing that was accepted is out of reach -/

variable {cfg} {conf : Side → FaspCfg} {log : Side → List (Option Bytes)} {h : List (Event × Answer)} {w : World}
  {x : Side}

/-- The network has lost all that was sent so far. -/
def lost (w : World) : World := fun x => { w x with wire := [] }

theorem Joined.lost (hj : Joined conf log h w) : Joined conf log h (lost w) where
  numbered := hj.numbered
  carries x := { hj.carries x with
    sent := fun f hf => absurd hf (by simp [Heard, ReliableUdp.lost])
    acked := fun f hf => absurd hf (by simp [Heard, ReliableUdp.lost])
    receives := { (hj.carries x).receives with } }

/-- What may happen without a `send`. -/
def Idle (w : World) (e : Event) : Prop := Allowed w e ∧ ¬e.IsSend

variable {events : List Event}

/-- Calls that are no `send` keep the log. -/
theorem Joined.run_idle (hj : Joined conf log h w) (hidle : (machine conf).Guarded Idle w events) :
    Joined conf log (h ++ (machine conf).trace w events) ((machine conf).final w events) := by
  refine (machine conf).invariant_of_step Idle (Joined conf log) (fun w e h he hj => ?_) w events h hidle hj
  obtain ⟨more, hnext, -, hmore⟩ := hj.step he.1
  rwa [hmore he.2, append_nil, Function.update_eq_self] at hnext

theorem idle_pump (w : World) (x : Side) (due : List ℕ) : Idle w (.pump x ⟨[], [], due⟩) :=
  ⟨nofun, id⟩

/-- The sender puts a message that is in flight on the wire again. -/
theorem exists_retransmission (h : List (Event × Answer))
    (hframe : (w x).inflight.lookup seq = some frame) (hloss : (conf x).lossSimDropEvery ≠ 1) :
    ∃ events, (machine conf).Guarded Idle w events ∧ (machine conf).final w events x.other = w x.other ∧
      frame ∈ ((machine conf).final w events x).wire ∧
      ∀ y, returned (h ++ (machine conf).trace w events) y = returned h y := by
  refine ⟨[.pump x ⟨[], [], []⟩, .pump x ⟨[], [], [seq]⟩, .pump x ⟨[], [], [seq]⟩],
    ⟨idle_pump _ _ _, idle_pump _ _ _, idle_pump _ _ _, trivial⟩, ?_, ?_, fun y => ?_⟩
  · simp only [final_cons, final_nil]
    rw [step_of_ne _ _ x.other_ne, step_of_ne _ _ x.other_ne, step_of_ne _ _ x.other_ne]
  · simpa [machine] using mem_wire_pumps (conf x) (.of x.other) hframe hloss
  · simp [returned, machine]

/-- A `recv` after whose `pump` a message is ready. -/
theorem returned_recv {script : Script} {p : Bytes} {rest : List Bytes} (h : List (Event × Answer))
    (hpump : Settled l (pump (conf x) (.of x.other) script (w x))) (hready : l.ready = p :: rest) :
    returned (h ++ (machine conf).trace w [.recv x script]) x = returned h x ++ [p] := by
  obtain ⟨hok, txCount, wire, heq⟩ := hpump
  have hrecv : (recv (conf x) (.of x.other) script (w x)).2 = .ok (some p) := by
    rw [recv, andThen_of_ok hok, heq, hready]
    rfl
  simp [returned, machine, hrecv]

/-- **As long as something accepted has not been returned, more can be.** -/
theorem Joined.progress (hj : Joined conf log h w) (hfull : none ∉ log x) (hwindow : 0 < (conf x.other).recvWindow)
    (hloss : (conf x).lossSimDropEvery ≠ 1) (hleft : (returned h x.other).length < (log x).length) :
    ∃ events, (machine conf).Guarded Idle w events ∧
      (returned h x.other).length < (returned (h ++ (machine conf).trace w events) x.other).length := by
  have hcarries := hj.carries x
  cases hready : (w x.other).ready with
  | cons p rest =>
    refine ⟨[.recv x.other ⟨[], [], []⟩], ⟨⟨nofun, id⟩, trivial⟩, ?_⟩
    rw [returned_recv h (settled_pump _ _ _ _) hready]
    simp
  | nil =>
    have hnext : (w x.other).nextDeliver = (returned h x.other).length := by
      have hlength := hcarries.receives.length_eq
      rw [hready] at hlength
      exact hlength.symm
    rw [← hnext] at hleft
    -- the message that the receiver waits for is in flight
    obtain ⟨p, hp⟩ : ∃ p, (log x)[(w x.other).nextDeliver]? = some (some p) := by
      rw [getElem?_eq_getElem hleft]
      cases hentry : (log x)[(w x.other).nextDeliver] with
      | none => exact absurd (hentry ▸ getElem_mem hleft) hfull
      | some p => exact ⟨p, rfl⟩
    have hmem : (w x.other).nextDeliver ∈ (w x).inflight := by
      refine (hcarries.kept _ p hp).resolve_right ?_
      rintro (hlt | hheld)
      · exact Nat.lt_irrefl _ hlt
      · exact AList.lookup_eq_none.1 hcarries.gap hheld
    obtain ⟨frame, hframe⟩ := Option.isSome_iff_exists.1 (AList.lookup_isSome.2 hmem)
    obtain ⟨p', hlen, rfl, hp'⟩ := hcarries.frames _ _ hframe
    have hsmall : (w x.other).nextDeliver < u64Max := by
      have := hcarries.small
      rw [hcarries.length] at hleft
      omega
    have hvalid : Frame.Valid ⟨(w x.other).nextDeliver, kindData, p'⟩ := by
      refine ⟨?_, hlen⟩
      rw [u64Max] at hsmall
      dsimp only
      omega
    obtain ⟨events, hidle, hother, hwire, hreturned⟩ := exists_retransmission h hframe hloss
    refine ⟨events ++ [.recv x.other ⟨[.datagram (encodeFrame ⟨(w x.other).nextDeliver, kindData, p'⟩) (.of x)], [], []⟩],
      (guarded_append _ _ _ _).2 ⟨hidle, ⟨allowed_of_mem_wire ?_, id⟩, trivial⟩, ?_⟩
    · intro item hitem
      rw [mem_singleton.1 hitem]
      exact ⟨_, by simpa [Event.side] using hwire, by simp [Event.side]⟩
    · -- the datagram brings the message, and `recv` returns it
      have hdatagram : onDatagram (conf x.other) (.of x) { w x.other with failures := [] }
          (encodeFrame ⟨(w x.other).nextDeliver, kindData, p'⟩) (.of x) =
          onData (conf x.other) { w x.other with failures := [] } ⟨(w x.other).nextDeliver, kindData, p'⟩ := by
        rw [onDatagram, if_neg (not_not.2 rfl), framesOf_encodeFrame hvalid]
        rfl
      obtain ⟨hfailures, rest, hrest⟩ := onData_next (conf x.other) (l := { w x.other with failures := [] })
        (f := ⟨(w x.other).nextDeliver, kindData, p'⟩) rfl hready hcarries.gap hwindow hsmall
      have hpump := settled_pump_datagram (conf x.other) (.of x)
        (encodeFrame ⟨(w x.other).nextDeliver, kindData, p'⟩) (.of x) (w x.other) (by rw [hdatagram, hfailures])
      rw [hdatagram] at hpump
      rw [trace_append, ← append_assoc, returned_recv (l := { onData (conf x.other)
        { w x.other with failures := [] } ⟨(w x.other).nextDeliver, kindData, p'⟩ with pendingAcks := [] })
        _ (by rw [hother, Side.other_other]; exact hpump) hrest, hreturned]
      simp

/-- **Whatever was accepted can still be returned**, even when all that was sent is lost. -/
theorem Joined.exists_delivery (hj : Joined conf log h w) (hfull : none ∉ log x)
    (hwindow : 0 < (conf x.other).recvWindow) (hloss : (conf x).lossSimDropEvery ≠ 1) :
    ∃ more, (machine conf).Guarded Idle w more ∧
      returned (h ++ (machine conf).trace w more) x.other = accepted h x := by
  obtain ⟨more, hidle, hjoined, hdone⟩ := (machine conf).exists_run_of_progress Idle (Joined conf log)
    (fun h => (log x).length - (returned h x.other).length) (fun h w hj hleft => by
      obtain ⟨events, hidle, hlt⟩ := hj.progress hfull hwindow hloss (by omega)
      exact ⟨events, hidle, hj.run_idle hidle, by omega⟩) hj
  have hlen : (log x).length = ((log x).filterMap id).length := by
    refine (filterMap_length_eq_length.2 fun o ho => ?_).symm
    cases o with
    | none => exact absurd ho hfull
    | some p => rfl
  refine ⟨more, hidle, ?_⟩
  rw [← hj.numbered]
  exact (hjoined.carries x).receives.returned_prefix.eq_of_length_le (by omega)

/-- Nothing past a hole is handed out. -/
theorem Receives.nextDeliver_le {window i : ℕ} {log : List (Option Bytes)} {ret : List Bytes}
    (h : Receives window log ret r) (hnone : log[i]? = some none) : r.nextDeliver ≤ i := by
  by_contra hlt
  have hentry : (log.take r.nextDeliver)[i]? = some none := by
    rw [getElem?_take_of_lt (Nat.lt_of_not_le hlt), hnone]
  rw [h.order, getElem?_map] at hentry
  simp at hentry

/-- A call in which no first transmission fails.  Acknowledgements and retransmissions may. -/
def Unfailing (w : World) (e : Event) : Prop := Allowed w e ∧ e.failure = none

/-- Without failed first transmissions every number has a message. -/
theorem full_run (hnet : (machine conf).Guarded Unfailing initial events) :
    ∃ log, Joined conf log ((machine conf).trace initial events) ((machine conf).final initial events) ∧
      ∀ x, none ∉ log x := by
  refine (machine conf).invariant_of_step Unfailing (fun h w => ∃ log, Joined conf log h w ∧ ∀ x, none ∉ log x)
    (fun h w e he ⟨log, hj, hfull⟩ => ?_) initial events [] hnet ⟨_, joined_initial conf, fun _ => not_mem_nil⟩
  obtain ⟨more, hnext, hmore, -⟩ := hj.step he.1
  refine ⟨_, hnext, fun x hnone => ?_⟩
  rcases eq_or_ne x e.side with rfl | hx
  · rw [Function.update_self, mem_append] at hnone
    exact hnone.elim (hfull _) fun hnone => hmore hnone he.2
  · rw [Function.update_of_ne hx] at hnone
    exact hfull x hnone

/-- **No hole, as long as no first transmission fails.**  Then in every state each number that was given is in
flight or has arrived; and even if the network has lost all that was sent, calls of `pump` and `recv` alone, with
retransmissions, bring the receiver all that was accepted.  (A receiver without a window and a sender that drops
every datagram of its own deliver nothing.) -/
theorem no_hole_unfailing (conf : Side → FaspCfg) (events : List Event) (x : Side)
    (hnet : (machine conf).Guarded Unfailing initial events) :
    (∀ seq < ((machine conf).final initial events x).nextSeq,
      seq ∈ ((machine conf).final initial events x).inflight ∨ ((machine conf).final initial events x.other).Got seq) ∧
    (0 < (conf x.other).recvWindow → (conf x).lossSimDropEvery ≠ 1 →
      ∃ more, (machine conf).Guarded Idle (lost ((machine conf).final initial events)) more ∧
        returned ((machine conf).trace initial events ++
          (machine conf).trace (lost ((machine conf).final initial events)) more) x.other =
          accepted ((machine conf).trace initial events) x) := by
  obtain ⟨log, hj, hfull⟩ := full_run hnet
  refine ⟨fun seq hseq => ?_, fun hwindow hloss => hj.lost.exists_delivery (hfull x) hwindow hloss⟩
  rw [← (hj.carries x).length] at hseq
  cases hentry : (log x)[seq] with
  | none => exact absurd (hentry ▸ getElem_mem hseq) (hfull x)
  | some p => exact (hj.carries x).kept seq p (by rw [getElem?_eq_getElem hseq, hentry])

/-- Messages are sent, and nothing of them has arrived. -/
theorem no_hole_unfailing_two : ∃ events more, (machine fun _ => ⟨4, 2, 2⟩).Guarded Unfailing initial events ∧
      accepted ((machine fun _ => ⟨4, 2, 2⟩).trace initial events) .left = [[1], [2]] ∧
      returned ((machine fun _ => ⟨4, 2, 2⟩).trace initial events ++ more) .right =
        accepted ((machine fun _ => ⟨4, 2, 2⟩).trace initial events) .left := by
  have hnet : (machine fun _ => ⟨4, 2, 2⟩).Guarded Unfailing initial
      [.send .left [1] [] none, .send .left [2] [] none] :=
    ⟨⟨nofun, rfl⟩, ⟨nofun, rfl⟩, trivial⟩
  obtain ⟨more, -, hmore⟩ := (no_hole_unfailing _ _ .left hnet).2 (by decide) (by decide)
  exact ⟨_, _, hnet, by decide +kernel, hmore⟩

/-- **A hole blocks the receiver.**  A number that is neither in flight nor has arrived stays so, and nothing from
it on is ever returned. -/
theorem returned_le_hole {events more : List Event} (hnet : (machine conf).Guarded Allowed initial (events ++ more))
    (hseq : seq < ((machine conf).final initial events x).nextSeq)
    (hinflight : seq ∉ ((machine conf).final initial events x).inflight)
    (hgot : ¬((machine conf).final initial events x.other).Got seq) :
    (returned ((machine conf).trace initial (events ++ more)) x.other).length ≤ seq := by
  obtain ⟨hbefore, hafter⟩ := (guarded_append _ _ _ _).1 hnet
  obtain ⟨log, hj⟩ := joined_run hbefore
  rw [← (hj.carries x).length] at hseq
  have hhole : (log x)[seq]? = some none := by
    rw [getElem?_eq_getElem hseq]
    cases hentry : (log x)[seq] with
    | none => rfl
    | some p =>
      have hkept := (hj.carries x).kept seq p (by rw [getElem?_eq_getElem hseq, hentry])
      exact absurd hkept (not_or.2 ⟨hinflight, hgot⟩)
  obtain ⟨log', hle, hj'⟩ := hj.run hafter
  obtain ⟨new, hnew⟩ := hle x
  have hreceives := (hj'.carries x).receives
  have hstop := hreceives.nextDeliver_le (hnew ▸ logged_append hhole new)
  have hlength := hreceives.length_eq
  rw [trace_append]
  omega

/-- The socket refuses the first of two messages. -/
def refusedRun : List Event :=
  [.send .left [1] [] (some ⟨.wouldBlock, "Resource temporarily unavailable (os error 11)"⟩), .send .left [2] [] none]

/-- **A send that would block leaves a hole**: its number is neither in flight nor has it arrived, and although the
next `send` returns `Ok`, no run that follows returns anything to the receiver. -/
theorem failed_send_leaves_hole : (machine fun _ => ⟨4, 2, 0⟩).Guarded Allowed initial refusedRun ∧
      0 < ((machine fun _ => ⟨4, 2, 0⟩).final initial refusedRun .left).nextSeq ∧
      0 ∉ ((machine fun _ => ⟨4, 2, 0⟩).final initial refusedRun .left).inflight ∧
      ¬((machine fun _ => ⟨4, 2, 0⟩).final initial refusedRun .right).Got 0 ∧
      accepted ((machine fun _ => ⟨4, 2, 0⟩).trace initial refusedRun) .left = [[2]] ∧
      ∀ more, (machine fun _ => ⟨4, 2, 0⟩).Guarded Allowed initial (refusedRun ++ more) →
        returned ((machine fun _ => ⟨4, 2, 0⟩).trace initial (refusedRun ++ more)) .right = [] := by
  have hnext : 0 < ((machine fun _ => ⟨4, 2, 0⟩).final initial refusedRun .left).nextSeq := by decide +kernel
  have hinflight : 0 ∉ ((machine fun _ => ⟨4, 2, 0⟩).final initial refusedRun .left).inflight := by decide +kernel
  have hgot : ¬((machine fun _ => ⟨4, 2, 0⟩).final initial refusedRun .right).Got 0 := by
    rintro (hlt | hmem)
    · exact absurd hlt (by decide +kernel)
    · exact absurd hmem (by decide +kernel)
  refine ⟨?_, hnext, hinflight, hgot, by decide +kernel, fun more hmore => ?_⟩
  · exact ⟨nofun, nofun, trivial⟩
  · exact length_eq_zero_iff.1 (Nat.le_zero.1 (returned_le_hole (x := .left) hmore hnext hinflight hgot))

end Datarail.ReliableUdp
