/-
# When a byte stream is a queue

What is buffered and what is under way are together the frames of the cofres that were accepted and not
delivered, in every run.  `recv` takes the first of them when it has arrived, so the order is never wrong.

It may return an error, though.  It reads all that is readable before it takes a frame, and what it reads must
not exceed one frame of the largest size together with what is left from earlier calls.  Small frames that
arrive in a burst can exceed it.  A call returns an error exactly then (`recv_error_iff`), so a run is that of
a queue exactly when no call finds more than that (`fifo_iff`).
-/

import Datarail.Substrate.Stream

namespace Datarail.Substrate
namespace Stream

open Lib List Answer

variable {τ : Type} {C : Channel τ} {start : τ}

/-- Bodies with their lengths, one after the other. -/
def wire (q : List (Cofre × Bytes)) : Bytes := q.flatMap fun p => leBytes 4 p.2.length ++ p.2

theorem wire_cons (c : Cofre) (body : Bytes) (q : List (Cofre × Bytes)) :
    wire ((c, body) :: q) = leBytes 4 body.length ++ (body ++ wire q) := by
  rfl

theorem wire_concat (q : List (Cofre × Bytes)) (c : Cofre) (body : Bytes) :
    wire (q ++ [(c, body)]) = wire q ++ leBytes 4 body.length ++ body := by
  simp [wire]

/-- What a channel must do: the bodies are opened in the order in which they were closed. -/
structure Lawful (C : Channel τ) (start : τ) where
  /-- These bodies are closed and not opened. -/
  Queued : τ → List (Cofre × Bytes) → Prop
  start : Queued start []
  close : ∀ {t q c t' body}, Queued t q → C.close t c = .ok (t', body) →
    Queued t' (q ++ [(c, body)]) ∧ body.length ≤ C.limit
  open_ : ∀ {t c body q}, Queued t ((c, body) :: q) → ∃ t', C.open_ t body = (t', .ok c) ∧ Queued t' q
  limit_lt : C.limit < 2 ^ 32

/-- How many bytes a call of `recv` would read, with this much under way. -/
def arriving : List Read → ℕ → ℕ
  | [], _ => 0
  | .interrupted :: reads, ahead => arriving reads ahead
  | .bytes n :: reads, ahead =>
    if min (min n readSize) ahead = 0 then 0
    else min (min n readSize) ahead + arriving reads (ahead - min (min n readSize) ahead)

/-- What `recv` reads: all that is readable, or more than it may. -/
theorem fill_spec (C : Channel τ) (reads : List Read) (ahead buf : Bytes) :
    ∃ n r, fill C reads ahead buf = ((ahead.drop n, buf ++ ahead.take n), r) ∧
      ((r = .ok () ∧ n = arriving reads ahead.length ∧ (n = 0 ∨ buf.length + n ≤ C.limit + 4)) ∨
        (r = .error C.tooMuch ∧ C.limit + 4 < buf.length + arriving reads ahead.length ∧
          0 < arriving reads ahead.length)) := by
  induction reads generalizing ahead buf with
  | nil => exact ⟨0, .ok (), by simp [fill], .inl ⟨rfl, rfl, .inl rfl⟩⟩
  | cons read reads ih =>
    cases read with
    | interrupted => exact ih ahead buf
    | bytes k =>
      set size := min (min k readSize) ahead.length with hsize
      have hpiece : ahead.take (min k readSize) = ahead.take size := by
        rw [hsize, take_eq_take_iff]
        omega
      have hrest : ahead.drop (min k readSize) = ahead.drop size := by
        by_cases h : min k readSize ≤ ahead.length
        · rw [hsize, Nat.min_eq_left h]
        · have hall : size = ahead.length := by omega
          rw [hall, drop_length, drop_of_length_le (by omega)]
      have hlen : (ahead.take size).length = size := by
        rw [length_take]
        omega
      have hzero : ahead.take size = [] ↔ size = 0 := by rw [← length_eq_zero_iff, hlen]
      simp only [fill, arriving, ← hsize, hpiece, hrest, hzero]
      split_ifs with h0 hmuch
      · exact ⟨0, .ok (), by simp, .inl ⟨rfl, rfl, .inl rfl⟩⟩
      · rw [length_append, hlen] at hmuch
        exact ⟨size, _, rfl, .inr ⟨rfl, by omega, by omega⟩⟩
      · rw [length_append, hlen] at hmuch
        obtain ⟨n, r, hfill, hcases⟩ := ih (ahead.drop size) (buf ++ ahead.take size)
        rw [length_append, hlen, length_drop] at hcases
        refine ⟨size + n, r, ?_, ?_⟩
        · rw [hfill, drop_drop, append_assoc, ← take_add]
        · rcases hcases with ⟨hr, hn, hle⟩ | ⟨hr, hlt, hpos⟩
          · exact .inl ⟨hr, by omega, .inr (by omega)⟩
          · exact .inr ⟨hr, by omega, by omega⟩

/-! ### One call -/

/-- The frames under way and what they are of. -/
structure Inv (L : Lawful C start) (s : State τ) (q : List (Cofre × Bytes)) : Prop where
  queued : L.Queued s.channel q
  bounded : ∀ p ∈ q, p.2.length ≤ C.limit
  bytes : s.buf ++ s.ahead = wire q

section

variable {L : Lawful C start} {s : State τ} {q : List (Cofre × Bytes)} {ahead buf : Bytes}

/-- **One frame is taken when it has arrived**, and nothing else happens. -/
theorem takeFrame_spec (h : Inv L ⟨s.channel, ahead, buf⟩ q) :
    (takeFrame C s.channel ahead buf = (⟨s.channel, ahead, buf⟩, .ok none) ∧ (ahead = [] → q = [])) ∨
      ∃ c body q' t buf', q = (c, body) :: q' ∧ buf = leBytes 4 body.length ++ (body ++ buf') ∧
        takeFrame C s.channel ahead buf = (⟨t, ahead, buf'⟩, .ok (some c)) ∧ Inv L ⟨t, ahead, buf'⟩ q' := by
  obtain ⟨hqueued, hbounded, hbytes⟩ := h
  dsimp only at hqueued hbytes
  rw [takeFrame]
  cases q with
  | nil =>
    obtain ⟨rfl, rfl⟩ := append_eq_nil_iff.1 hbytes
    exact .inl ⟨rfl, fun _ => rfl⟩
  | cons p q =>
    obtain ⟨c, body⟩ := p
    have hlimit := hbounded (c, body) mem_cons_self
    rw [wire_cons] at hbytes
    have hlength := congrArg length hbytes
    simp only [length_append, length_leBytes] at hlength
    by_cases h4 : buf.length < 4
    · rw [if_pos h4]
      refine .inl ⟨rfl, fun hnil => ?_⟩
      rw [hnil, length_nil] at hlength
      omega
    · -- the length of the first frame is there
      have hhead : buf.take 4 = leBytes 4 body.length := by
        have htake := congrArg (take 4) hbytes
        rwa [take_append_of_le_length (by omega), take_left' (length_leBytes 4 body.length)] at htake
      have hlen : leNat (buf.take 4) = body.length := by
        have hlt := L.limit_lt
        rw [hhead, leNat_leBytes_of_lt]
        dsimp only at hlimit
        omega
      rw [if_neg h4]
      simp only [hlen, if_neg (Nat.not_lt.2 hlimit)]
      by_cases hshort : buf.length < 4 + body.length
      · rw [if_pos hshort]
        refine .inl ⟨rfl, fun hnil => ?_⟩
        rw [hnil, length_nil] at hlength
        omega
      · -- and so is its body
        have hframe : buf.take (4 + body.length) = leBytes 4 body.length ++ body := by
          have htake := congrArg (take (4 + body.length)) hbytes
          rwa [take_append_of_le_length (by omega), ← append_assoc,
            take_left' (by rw [length_append, length_leBytes])] at htake
        have hbuf : buf = leBytes 4 body.length ++ (body ++ buf.drop (4 + body.length)) := by
          rw [← append_assoc, ← hframe, take_append_drop]
        have hbody : (buf.drop 4).take body.length = body := by
          have hdrop : buf.drop 4 = body ++ buf.drop (4 + body.length) := by
            conv_lhs => rw [hbuf]
            exact drop_left' (length_leBytes 4 body.length)
          rw [hdrop, take_left]
        obtain ⟨t, hopen, hnext⟩ := L.open_ hqueued
        refine .inr ⟨c, body, q, t, buf.drop (4 + body.length), rfl, hbuf, ?_, hnext,
          fun p hp => hbounded p (mem_cons_of_mem _ hp), ?_⟩
        · rw [if_neg hshort, hbody, hopen]
          rfl
        · rw [hbuf, append_assoc, append_assoc] at hbytes
          exact append_cancel_left (append_cancel_left hbytes)

end

/-- Nothing is readable, or it makes no more than one frame with what is buffered. -/
def Within (C : Channel τ) (s : State τ) (reads : List Read) : Prop :=
  arriving reads s.ahead.length = 0 ∨ s.buf.length + arriving reads s.ahead.length ≤ C.limit + 4

instance (C : Channel τ) (s : State τ) (reads : List Read) : Decidable (Within C s reads) :=
  inferInstanceAs (Decidable (_ ∨ _))

section

variable {L : Lawful C start} {s : State τ} {q : List (Cofre × Bytes)} {reads : List Read}

/-- What a call of `recv` has read, whatever comes of it. -/
theorem Inv.read (h : Inv L s q) (n : ℕ) : Inv L ⟨s.channel, s.ahead.drop n, s.buf ++ s.ahead.take n⟩ q :=
  ⟨h.queued, h.bounded, by dsimp only; rw [append_assoc, take_append_drop, h.bytes]⟩

/-- A call that finds too much returns an error. -/
theorem recv_of_exceeds (h : Inv L s q) (hexceeds : ¬ Within C s reads) :
    (recv C reads s).2 = .error C.tooMuch ∧ Inv L (recv C reads s).1 q := by
  rw [Within, not_or] at hexceeds
  obtain ⟨n, r, hfill, ⟨-, rfl, hn⟩ | ⟨rfl, -, -⟩⟩ := fill_spec C reads s.ahead s.buf
  · omega
  · rw [recv, hfill]
    exact ⟨rfl, h.read n⟩

/-- Any other call returns the next cofre if it has arrived. -/
theorem recv_of_within (h : Inv L s q) (hwithin : Within C s reads) :
    ((recv C reads s).2 = .ok none ∧ Inv L (recv C reads s).1 q ∧ ((recv C reads s).1.ahead = [] → q = [])) ∨
      ∃ c body q', q = (c, body) :: q' ∧ (recv C reads s).2 = .ok (some c) ∧ Inv L (recv C reads s).1 q' := by
  obtain ⟨n, r, hfill, ⟨rfl, -, -⟩ | ⟨-, hlt, hpos⟩⟩ := fill_spec C reads s.ahead s.buf
  · simp only [recv, hfill]
    rcases takeFrame_spec (h.read n) with ⟨htake, hempty⟩ | ⟨c, body, q', t, buf', hq, -, htake, hinv⟩
    · rw [htake]
      exact .inl ⟨rfl, h.read n, hempty⟩
    · rw [htake]
      exact .inr ⟨c, body, q', hq, rfl, hinv⟩
  · unfold Within at hwithin
    omega

/-- **A call returns an error exactly when it finds too much.** -/
theorem recv_error_iff (h : Inv L s q) : (∃ e, (recv C reads s).2 = .error e) ↔ ¬ Within C s reads := by
  constructor
  · rintro ⟨e, he⟩ hwithin
    rcases recv_of_within h hwithin with ⟨hnone, -⟩ | ⟨c, body, q', -, hsome, -⟩
    · rw [hnone] at he
      cases he
    · rw [hsome] at he
      cases he
  · exact fun hexceeds => ⟨_, (recv_of_exceeds h hexceeds).1⟩

theorem arriving_zero (reads : List Read) : arriving reads 0 = 0 := by
  induction reads with
  | nil => rfl
  | cons read reads ih =>
    cases read with
    | interrupted => exact ih
    | bytes n => simp [arriving]

theorem ahead_takeFrame (C : Channel τ) (channel : τ) (ahead buf : Bytes) :
    (takeFrame C channel ahead buf).1.ahead = ahead := by
  simp only [takeFrame]
  split_ifs <;> rfl

/-- When everything has arrived, nothing is under way. -/
theorem ahead_recv (hahead : s.ahead = []) : (recv C reads s).1.ahead = [] := by
  obtain ⟨n, r, hfill, -⟩ := fill_spec C reads s.ahead s.buf
  rw [recv, hfill]
  rcases r with e | _
  · simp [hahead]
  · simp only [ahead_takeFrame, hahead, drop_nil]

end

/-! ### Every run -/

/-- The frames under way are those of the cofres that were accepted and not delivered. -/
def Pending (L : Lawful C start) (h : List (Event × Option Answer)) (s : State τ) : Prop :=
  ∃ q, Inv L s q ∧ accepted h = delivered h ++ q.map Prod.fst

section

variable {L : Lawful C start} {h : List (Event × Option Answer)} {s : State τ}

/-- One call. -/
theorem Pending.step (hp : Pending L h s) (e : Event) :
    Pending L (h ++ [(e, ((machine C).step s e).2)]) ((machine C).step s e).1 := by
  obtain ⟨q, hinv, hpending⟩ := hp
  cases e with
  | send c =>
    simp only [machine, send]
    cases hclose : C.close s.channel c with
    | error e =>
      exact ⟨q, hinv, by simp [accepted_concat, delivered_concat, Answer.accepted, Answer.delivered, hpending]⟩
    | ok r =>
      obtain ⟨t, body⟩ := r
      obtain ⟨hqueued, hlimit⟩ := L.close hinv.queued hclose
      refine ⟨q ++ [(c, body)], ⟨hqueued, forall_mem_append.2 ⟨hinv.bounded, forall_mem_singleton.2 hlimit⟩, ?_⟩, ?_⟩
      · rw [wire_concat, ← hinv.bytes]
        simp only [append_assoc]
      · simp [accepted_concat, delivered_concat, Answer.accepted, Answer.delivered, hpending]
  | recv reads =>
    simp only [machine]
    by_cases hwithin : Within C s reads
    · rcases recv_of_within hinv hwithin with ⟨hnone, hnext, -⟩ | ⟨c, body, q', rfl, hsome, hnext⟩
      · refine ⟨q, hnext, ?_⟩
        simp [accepted_concat, delivered_concat, Answer.accepted, Answer.delivered, hpending, hnone]
      · refine ⟨q', hnext, ?_⟩
        simp [accepted_concat, delivered_concat, Answer.accepted, Answer.delivered, hpending, hsome]
    · obtain ⟨herror, hnext⟩ := recv_of_exceeds hinv hwithin
      refine ⟨q, hnext, ?_⟩
      simp [accepted_concat, delivered_concat, Answer.accepted, Answer.delivered, hpending, herror]

theorem Pending.run (hp : Pending L h s) (events : List Event) :
    Pending L (h ++ (machine C).trace s events) ((machine C).final s events) :=
  (machine C).invariant_of_step (fun _ _ => True) (Pending L) (fun _ _ e _ hs => hs.step e) s events h
    ((machine C).guarded_true s events) hp

/-- No call of `recv` of a run finds too much. -/
def Calm (C : Channel τ) (s : State τ) (events : List Event) : Prop :=
  (machine C).Guarded (fun s e => ∀ reads, e = .recv reads → Within C s reads) s events

theorem Pending.no_error_iff (hp : Pending L h s) (events : List Event) :
    (∀ x ∈ (machine C).trace s events, ∀ e, x.2 ≠ some (.received (.error e))) ↔ Calm C s events := by
  induction events generalizing h s with
  | nil => exact ⟨fun _ => trivial, nofun⟩
  | cons e events ih =>
    rw [Machine.trace_cons, forall_mem_cons]
    refine and_congr ?_ (ih (hp.step e))
    obtain ⟨q, hinv, -⟩ := hp
    cases e with
    | send c => simp [machine]
    | recv reads =>
      have hiff : (∃ e, (recv C reads s).2 = .error e) ↔ ¬ Within C s reads := recv_error_iff hinv
      constructor
      · rintro hno _ ⟨⟩
        by_contra hwithin
        obtain ⟨e, he⟩ := hiff.2 hwithin
        exact hno e (by rw [← he]; rfl)
      · intro hwithin e he
        refine hiff.1 ⟨e, ?_⟩ (hwithin reads rfl)
        simpa [machine] using he

/-- When everything has arrived, as many calls as there are cofres left return them. -/
theorem Pending.drain (hp : Pending L h s) (hahead : s.ahead = []) (calls : List (List Read))
    (hcalls : (accepted h).length ≤ (delivered h).length + calls.length) :
    delivered (h ++ (machine C).trace s (calls.map .recv)) = accepted h := by
  induction calls generalizing h s with
  | nil =>
    obtain ⟨q, -, hpending⟩ := hp
    rw [hpending, length_append, length_nil] at hcalls
    rw [length_eq_zero_iff.1 (show (q.map Prod.fst).length = 0 by omega), append_nil] at hpending
    rw [hpending]
    simp
  | cons reads calls ih =>
    have hnext := hp.step (.recv reads)
    obtain ⟨q, hinv, hpending⟩ := hp
    have hwithin : Within C s reads := .inl (by rw [hahead, length_nil, arriving_zero])
    have hanswer : ((machine C).step s (.recv reads)).2 = some (.received (recv C reads s).2) := rfl
    have haccepted := accepted_concat h (.recv reads) ((machine C).step s (.recv reads)).2
    have hdelivered := delivered_concat h (.recv reads) ((machine C).step s (.recv reads)).2
    have hsame : ((machine C).step s (.recv reads)).2.bind Answer.accepted = none := rfl
    rw [hsame, Option.toList_none, append_nil] at haccepted
    have hlength : (accepted h).length ≤
        (delivered (h ++ [(.recv reads, ((machine C).step s (.recv reads)).2)])).length + calls.length := by
      rw [hdelivered, hanswer]
      rcases recv_of_within hinv hwithin with ⟨hnone, -, hempty⟩ | ⟨c, body, q', -, hsome, -⟩
      · rw [hpending, hempty (ahead_recv hahead), hnone]
        simp [Answer.delivered]
      · rw [hsome]
        simp only [Option.bind_some, Answer.delivered, Option.toList_some, length_append, length_cons] at hcalls ⊢
        omega
    have hrest := ih hnext (ahead_recv hahead) (by rw [haccepted]; exact hlength)
    rw [haccepted, append_assoc] at hrest
    exact hrest

end

/-! ### The two substrates -/

/-- **A run that is one of a queue**: no call of `recv` returns an error, the cofres it returns are those that
were sent, in order and each once, and when all bytes have arrived, calling it goes on to return all of them. -/
structure Fifo (C : Channel τ) (start : τ) (events : List Event) : Prop where
  no_error : ∀ x ∈ (machine C).trace ⟨start, [], []⟩ events, ∀ e, x.2 ≠ some (.received (.error e))
  order : delivered ((machine C).trace ⟨start, [], []⟩ events) <+: accepted ((machine C).trace ⟨start, [], []⟩ events)
  complete : ((machine C).final ⟨start, [], []⟩ events).ahead = [] → ∀ calls : List (List Read),
    (accepted ((machine C).trace ⟨start, [], []⟩ events)).length ≤
        (delivered ((machine C).trace ⟨start, [], []⟩ events)).length + calls.length →
      delivered ((machine C).trace ⟨start, [], []⟩ (events ++ calls.map .recv)) =
        accepted ((machine C).trace ⟨start, [], []⟩ events)

theorem Lawful.pending_start (L : Lawful C start) : Pending L [] ⟨start, [], []⟩ :=
  ⟨[], ⟨L.start, nofun, rfl⟩, rfl⟩

/-- A run is one of a queue exactly when no call of `recv` finds too much. -/
theorem Lawful.fifo_iff (L : Lawful C start) (events : List Event) :
    Fifo C start events ↔ Calm C ⟨start, [], []⟩ events := by
  have hstart := L.pending_start
  have hrun := hstart.run events
  refine ⟨fun h => (hstart.no_error_iff events).1 h.no_error, fun h => ⟨(hstart.no_error_iff events).2 h, ?_, ?_⟩⟩
  · obtain ⟨q, -, hpending⟩ := hrun
    exact ⟨_, hpending.symm⟩
  · intro hahead calls hcalls
    rw [Machine.trace_append]
    exact hrun.drain hahead calls hcalls

variable {c : Cofre}

theorem decode_encode (h : Carried c) : decode c.encode = .ok c := by
  rw [decode, h.decode]
  rfl

/-- A stream carries the encodings as they are. -/
def lawfulPlain : Lawful plain () where
  Queued _ q := ∀ p ∈ q, Carried p.1 ∧ p.2 = p.1.encode
  start := nofun
  close := by
    intro t q c t' body hq hclose
    simp only [plain] at hclose
    split_ifs at hclose with hmax hword
    cases hclose
    exact ⟨forall_mem_append.2 ⟨hq, forall_mem_singleton.2 ⟨Nat.not_lt.1 hmax, rfl⟩⟩, Nat.not_lt.1 hmax⟩
  open_ := by
    intro t c body q hq
    have hfirst := hq (c, body) mem_cons_self
    dsimp only at hfirst
    obtain ⟨hcarried, rfl⟩ := hfirst
    exact ⟨(), congrArg (Prod.mk _) (decode_encode hcarried), fun p hp => hq p (mem_cons_of_mem _ hp)⟩
  limit_lt := by decide

/-- A Noise session numbers its messages on both sides. -/
def lawfulNoise (K : Session) : Lawful (noise K) ⟨0, 0⟩ where
  Queued nonces q := nonces.encrypted = nonces.decrypted + q.length ∧ ∀ i p, q[i]? = some p →
    p.1.encode.length ≤ maxNoiseFrame - noiseTag ∧ p.2 = K.encrypt (nonces.decrypted + i) p.1.encode
  start := ⟨rfl, fun i p hp => by simp at hp⟩
  close := by
    intro t q c t' body hq hclose
    simp only [noise] at hclose
    split_ifs at hclose with hmax
    cases hclose
    have hfits := Nat.not_lt.1 hmax
    have hlimit : maxNoiseFrame - noiseTag + noiseTag = maxNoiseFrame := by decide
    refine ⟨⟨by rw [length_append, length_singleton, hq.1]; rfl, fun i p hp => ?_⟩, ?_⟩
    · by_cases hi : i < q.length
      · rw [getElem?_append_left hi] at hp
        exact hq.2 i p hp
      · have hlt := (List.getElem?_eq_some_iff.1 hp).1
        rw [length_append, length_singleton] at hlt
        obtain rfl : i = q.length := by omega
        rw [getElem?_concat_length] at hp
        cases hp
        exact ⟨hfits, by rw [← hq.1]⟩
    · rw [K.length_encrypt]
      change _ ≤ maxNoiseFrame
      omega
  open_ := by
    intro t c body q hq
    have hfirst := hq.2 0 (c, body) rfl
    rw [Nat.add_zero] at hfirst
    dsimp only at hfirst
    obtain ⟨hfits, rfl⟩ := hfirst
    have hcarried : Carried c := Nat.le_trans hfits (by decide)
    have hlimit : maxNoiseFrame - noiseTag + noiseTag = maxNoiseFrame := by decide
    have hlength : ¬ maxNoiseFrame < (K.encrypt t.decrypted c.encode).length := by
      rw [K.length_encrypt]
      omega
    refine ⟨⟨t.encrypted, t.decrypted + 1⟩, ?_, ?_, fun i p hp => ?_⟩
    · simp only [noise, if_neg hlength, K.decrypt_encrypt, decode_encode hcarried]
    · have hcount := hq.1
      rw [length_cons] at hcount
      dsimp only
      omega
    · have hnext := hq.2 (i + 1) p hp
      rwa [← Nat.add_assoc, Nat.add_right_comm] at hnext
  limit_lt := show maxNoiseFrame < 2 ^ 32 by decide

/-- **A byte stream is a queue exactly when no burst exceeds one frame.**  For both substrates and every run of
calls, however the transport splits and delays the bytes: `recv` never returns an error and returns exactly
what was sent if and only if every call of `recv` finds nothing to read, or finds no more than one frame of the
largest size together with what it has buffered. -/
theorem stream_fifo_iff (K : Session) (events : List Event) : (Fifo plain () events ↔ Calm plain ⟨(), [], []⟩ events) ∧
      (Fifo (noise K) ⟨0, 0⟩ events ↔ Calm (noise K) ⟨⟨0, 0⟩, [], []⟩ events) :=
  ⟨lawfulPlain.fifo_iff events, (lawfulNoise K).fifo_iff events⟩

/-- A cofre of this many bytes. -/
def cofreOf (n : ℕ) : Cofre where
  etiqueta := ⟨Arr.zero 16, Arr.zero 16, 0, Arr.zero 32, Arr.zero 32, Arr.zero 32, .gcmsiv256, Arr.zero 12,
    Arr.zero 32, Arr.zero 32, false, 0⟩
  carga := replicate n 0
  lacre := Arr.zero 64

theorem length_encode_cofreOf (n : ℕ) : (cofreOf n).encode.length = n + 303 := by
  rw [Cofre.length_encode, cofreOf, length_replicate]

/-- Two cofres whose bytes are all there when `recv` is called for the first time. -/
theorem Lawful.burst (L : Lawful C start) {t t' : τ} {body body' : Bytes}
    (hfirst : C.close start c = .ok (t, body)) (hsecond : C.close t c = .ok (t', body')) {reads : List Read}
    (hlarge : C.limit + 4 < arriving reads (4 + body.length + (4 + body'.length))) :
    (send C c ⟨start, [], []⟩).2 = .ok () ∧ (send C c (send C c ⟨start, [], []⟩).1).2 = .ok () ∧
      (recv C reads (send C c (send C c ⟨start, [], []⟩).1).1).2 = .error C.tooMuch := by
  obtain ⟨q, hinv, -⟩ := L.pending_start.run [.send c, .send c]
  have hsend : send C c ⟨start, [], []⟩ = (⟨t, leBytes 4 body.length ++ body, []⟩, .ok ()) := by
    simp only [send, hfirst, nil_append]
  have hsend' : send C c ⟨t, leBytes 4 body.length ++ body, []⟩ =
      (⟨t', leBytes 4 body.length ++ body ++ leBytes 4 body'.length ++ body', []⟩, .ok ()) := by
    simp only [send, hsecond]
  simp only [Machine.final_cons, Machine.final_nil, machine, hsend, hsend'] at hinv ⊢
  refine ⟨trivial, trivial, (recv_of_exceeds hinv ?_).1⟩
  rw [Within, not_or]
  simp only [length_append, length_leBytes, length_nil, Nat.add_assoc] at hlarge ⊢
  omega

theorem close_noise {K : Session} (hfits : c.encode.length ≤ maxNoiseFrame - noiseTag) (nonces : Nonces) :
    (noise K).close nonces c = .ok (⟨nonces.encrypted + 1, nonces.decrypted⟩, K.encrypt nonces.encrypted c.encode) := by
  simp only [noise, if_neg (Nat.not_lt.2 hfits)]

/-- A session that adds a tag and encrypts nothing. -/
def tagged : Session where
  encrypt _ plaintext := plaintext ++ replicate noiseTag 0
  decrypt _ ciphertext := some (ciphertext.take (ciphertext.length - noiseTag))
  decrypt_encrypt _ plaintext := by simp
  length_encrypt _ plaintext := by simp

/-- Two cofres of 40 kB are sent, and all their bytes are there when `recv` is called for the first time: it
returns an error. -/
theorem stream_burst_fails : (send (noise tagged) (cofreOf 40000) ⟨⟨0, 0⟩, [], []⟩).2 = .ok () ∧
      (send (noise tagged) (cofreOf 40000) (send (noise tagged) (cofreOf 40000) ⟨⟨0, 0⟩, [], []⟩).1).2 = .ok () ∧
      (recv (noise tagged) (replicate 10 (.bytes 8192))
        (send (noise tagged) (cofreOf 40000) (send (noise tagged) (cofreOf 40000) ⟨⟨0, 0⟩, [], []⟩).1).1).2 =
        .error ⟨.invalidData, "noise frame exceeds the maximum size"⟩ :=
  (lawfulNoise tagged).burst (close_noise (by rw [length_encode_cofreOf]; decide) _)
    (close_noise (by rw [length_encode_cofreOf]; decide) _)
    (by rw [tagged.length_encrypt, tagged.length_encrypt, length_encode_cofreOf]; decide)

end Stream
end Datarail.Substrate
