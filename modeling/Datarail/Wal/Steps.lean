/-
# What a caller sees of a write-ahead log

`Seen` is what a caller knows of a run: what it sent, what a flush covered, what it was given
and what it acked.  `Sound` ties it to the log: the entries of the log were sent in that order,
what was covered is among those that a sync covers, and what was given out since the log was
opened is the end of what is behind the cursor.

Every event keeps it (`Sound.step`), with any fault and any loss, as long as `recv` is not
called while the log holds bytes that no sync covers (`Quiet`).
-/

import Datarail.Wal.Recovery
import Mathlib.Data.List.Infix

namespace Datarail.Wal

open Lib List DurableLog

/-- What a caller has seen of a run. -/
structure Seen where
  /-- All that `send` was called with. -/
  sent : List Cofre
  /-- Sent with success, and not covered. -/
  pending : List Cofre
  /-- Covered by a flush that succeeded. -/
  covered : List Cofre
  received : List Cofre
  /-- Received since the log was opened. -/
  out : List Cofre
  /-- All that `ack` was called with. -/
  acked : List (Arr 32)
  /-- All that it was called with before the log was opened. -/
  ackedBefore : List (Arr 32)

namespace Seen

def start : Seen := ⟨[], [], [], [], [], [], []⟩

/-- Nothing that was sent is left in the buffer. -/
def cover (seen : Seen) (flushed : Bool) : Seen :=
  if flushed then { seen with covered := seen.covered ++ seen.pending, pending := [] } else seen

/-- The log is opened again, and what was in the buffer is out of sight. -/
def reopened (seen : Seen) : Seen := { seen with pending := [], out := [], ackedBefore := seen.acked }

/-- A call that a crash interrupts. -/
def attempt (seen : Seen) : Option (Op × Fault) → Seen
  | some (.send c _, _) => { seen with sent := seen.sent ++ [c] }
  | some (.ack id, _) => { seen with acked := seen.acked ++ [id] }
  | _ => seen

/-- What one event adds. -/
def next (seen : Seen) : Event × Answer → Seen
  | (.call (.send c _) _, a) =>
    cover { seen with
      sent := seen.sent ++ [c]
      pending := if a.result = some .done then seen.pending ++ [c] else seen.pending } a.flushed
  | (.call .flush _, a) => seen.cover (decide (a.result = some .done))
  | (.call .recv _, a) =>
    match a.result with
    | some (.received (some c)) =>
      cover { seen with received := seen.received ++ [c], out := seen.out ++ [c] } a.flushed
    | _ => seen.cover a.flushed
  | (.call (.ack id) _, _) => { seen with acked := seen.acked ++ [id] }
  | (.crash during _, _) => (seen.attempt during).reopened
  | (.reopen _, _) => seen.reopened

/-- What was seen of a run. -/
def ofTrace (trace : List (Event × Answer)) : Seen := trace.foldl next start

theorem ofTrace_append (trace : List (Event × Answer)) (e : Event × Answer) :
    ofTrace (trace ++ [e]) = (ofTrace trace).next e := by
  rw [ofTrace, foldl_append]
  rfl

/-- What was dealt with. -/
def dealt (seen : Seen) (unique : Prop) : Dealt := ⟨seen.received, seen.acked, unique⟩

@[simp] theorem dealt_cover (seen : Seen) (flushed : Bool) (unique : Prop) :
    (seen.cover flushed).dealt unique = seen.dealt unique := by
  cases flushed <;> rfl

/-- What was sent only grows. -/
theorem sent_prefix_next (seen : Seen) (e : Event × Answer) : seen.sent <+: (seen.next e).sent := by
  have hcover : ∀ (seen : Seen) (flushed : Bool), (seen.cover flushed).sent = seen.sent := by
    intro seen flushed
    cases flushed <;> rfl
  obtain ⟨event, answer⟩ := e
  cases event with
  | call op fault =>
    cases op with
    | send c due =>
      rw [next, hcover]
      exact prefix_append _ _
    | flush =>
      rw [next, hcover]
    | recv =>
      unfold next
      dsimp only
      split
      · rw [hcover]
      · rw [hcover]
    | ack id => exact prefix_refl _
  | crash during loss =>
    unfold next attempt reopened
    dsimp only
    split
    · exact prefix_append _ _
    · exact prefix_refl _
    · exact prefix_refl _
  | reopen fault => exact prefix_refl _

end Seen

/-- The log holds what was seen. -/
structure Told (unique : Prop) (seen : Seen) (v : View) (poisoned : Bool) : Prop where
  sent : v.cofres.Sublist seen.sent
  covered : ∀ c ∈ seen.covered, ∃ e ∈ v.safe, e.2 = c
  pending : poisoned = false → seen.pending = v.pending
  out : ∃ pre fresh, v.before = pre ++ fresh ∧ fresh.map Prod.snd = seen.out ∧
    (unique → ∀ e ∈ pre, idOf e.2 ∈ seen.ackedBefore)

namespace Told

variable {unique : Prop} {seen : Seen} {v v' : View} {l l' : DurableLog}

/-- Nothing was in the buffer. -/
theorem cover (h : Told unique seen v l.poisoned) {flushed : Bool}
    (hflushed : flushed = true → v.pending = [] ∧ l.poisoned = false) :
    Told unique (seen.cover flushed) v l.poisoned := by
  cases flushed with
  | false => exact h
  | true =>
    obtain ⟨hnil, hp⟩ := hflushed rfl
    refine ⟨h.sent, fun c hc => ?_, fun _ => hnil.symm, h.out⟩
    change c ∈ seen.covered ++ seen.pending at hc
    rw [h.pending hp, hnil, append_nil] at hc
    exact h.covered c hc

/-- What was in the buffer is covered. -/
theorem flush (h : Told unique seen v l.poisoned) (hf : Flushes l v v' l') :
    Told unique (seen.cover (!l'.poisoned)) v' l'.poisoned := by
  have hout : ∃ pre fresh, v'.before = pre ++ fresh ∧ fresh.map Prod.snd = seen.out ∧
      (unique → ∀ e ∈ pre, idOf e.2 ∈ seen.ackedBefore) := by
    rw [hf.before]
    exact h.out
  have hcovered : ∀ c ∈ seen.covered, ∃ e ∈ v'.safe, e.2 = c := by
    intro c hc
    obtain ⟨e, he, hec⟩ := h.covered c hc
    exact ⟨e, hf.safe e he, hec⟩
  have hsent : v'.cofres.Sublist seen.sent := hf.cofres ▸ h.sent
  cases hp : l'.poisoned with
  | true => exact ⟨hsent, hcovered, nofun, hout⟩
  | false =>
    refine ⟨hsent, fun c hc => ?_, fun _ => (hf.pending hp).symm, hout⟩
    rcases mem_append.1 hc with hc | hc
    · exact hcovered c hc
    · rw [h.pending (hf.poisoned hp)] at hc
      exact hf.covers hp c hc

/-- The first entry ahead is out. -/
theorem deliver {poisoned : Bool} (h : Told unique seen v poisoned) {e : Entry} {rest : List Entry} (hrest : v.rest = e :: rest) :
    Told unique { seen with received := seen.received ++ [e.2], out := seen.out ++ [e.2] } (v.advance e rest) poisoned := by
  obtain ⟨pre, fresh, hbefore, hout, hpre⟩ := h.out
  refine ⟨?_, ?_, h.pending, pre, fresh ++ [e], ?_, ?_, hpre⟩
  · have hcofres : (v.advance e rest).cofres = v.cofres := by
      rw [View.cofres, View.written_advance hrest]
      rfl
    rw [hcofres]
    exact h.sent
  · rw [View.safe_advance hrest]
    exact h.covered
  · rw [← append_assoc, ← hbefore]
    rfl
  · rw [map_append, hout]
    rfl

/-- The log is opened again, and what is behind the cursor was dealt with. -/
theorem reopened {poisoned poisoned' : Bool} (h : Told unique seen v poisoned) (hsent : v'.cofres.Sublist v.cofres)
    (hsafe : ∀ e ∈ v.safe, e ∈ v'.safe) (hpending : v'.pending = []) (hdone : ∀ e ∈ v'.before, (seen.dealt unique).Done e) :
    Told unique seen.reopened v' poisoned' := by
  refine ⟨hsent.trans h.sent, fun c hc => ?_, fun _ => hpending.symm, v'.before, [], (append_nil _).symm, rfl,
    fun hunique e he => (hdone e he).2 hunique⟩
  obtain ⟨e, he, hec⟩ := h.covered c hc
  exact ⟨e, hsafe e he, hec⟩

/-- More was sent. -/
theorem mono {poisoned : Bool} {seen' : Seen} (h : Told unique seen v poisoned) (hsent : seen.sent.Sublist seen'.sent)
    (hcovered : seen'.covered = seen.covered) (hpending : seen'.pending = seen.pending) (hout : seen'.out = seen.out)
    (hacked : seen'.ackedBefore = seen.ackedBefore) : Told unique seen' v poisoned := by
  refine ⟨h.sent.trans hsent, hcovered ▸ h.covered, fun hp => hpending.trans (h.pending hp), ?_⟩
  rw [hout, hacked]
  exact h.out

end Told

/-- The log is what was seen. -/
structure Sound (unique : Prop) (seen : Seen) (v : View) (l : DurableLog) : Prop where
  holds : Holds (seen.dealt unique) v l
  told : Told unique seen v l.poisoned

/-- Nothing is on disk that no sync covers. -/
def Quiet (l : DurableLog) : Prop := l.disk.entry = true ∧ l.disk.durable = (l.disk.content l.activeId).length

instance (l : DurableLog) : Decidable (Quiet l) := inferInstanceAs (Decidable (_ ∧ _))

/-- No entry is unsure, and the log is not poisoned. -/
structure Calm (v : View) (l : DurableLog) : Prop where
  loose : v.loose = []
  poisoned : l.poisoned = false
  entry : l.disk.entry = true

section Steps

variable {unique : Prop} {seen : Seen} {v : View} {l : DurableLog}

theorem Sound.distinct (h : Sound unique seen v l) (hunique : unique → (seen.sent.map idOf).Nodup) :
    unique → Distinct v := fun hu => (hunique hu).sublist (h.told.sent.map idOf)

variable {d : Dealt}

theorem Holds.loose_eq_nil (h : Holds d v l) (hquiet : Quiet l) : v.loose = [] := by
  refine eq_nil_of_bytesAt h.stored.loose (eq_nil_of_length_eq_zero ?_)
  have hlen := hquiet.2
  rw [h.stored.durable, h.content, View.written_eq, bytesAt_append, length_append] at hlen
  omega

theorem Calm.quiet (hcalm : Calm v l) (h : Holds d v l) : Quiet l := by
  refine ⟨hcalm.entry, ?_⟩
  rw [h.stored.durable, h.content, View.written_eq, hcalm.loose, append_nil]

/-- An event without a fault; a crash takes what it takes. -/
def Unfailing : Event → Prop
  | .call _ fault => fault = .none
  | .crash _ _ => True
  | .reopen fault => fault = .none

/-- What an event keeps: the invariant, what a sync covers, and, without a fault, that
everything is sure. -/
def Keeps (unique : Prop) (seen' : Seen) (v : View) (l l' : DurableLog) (unfailing : Prop) : Prop :=
  ∃ v', Sound unique seen' v' l' ∧ (∀ e ∈ v.safe, e ∈ v'.safe) ∧ (unfailing → Calm v l → Calm v' l')

/-- The log after a call. -/
abbrev after (cfg : WalConfig) (l : DurableLog) (event : Event) : DurableLog := ((machine cfg).step l event).1

/-- The answer to a call. -/
abbrev answer (cfg : WalConfig) (l : DurableLog) (event : Event) : Answer := ((machine cfg).step l event).2

theorem after_call (cfg : WalConfig) (l : DurableLog) (op : Op) (fault : Fault) :
    after cfg l (.call op fault) = (l.call cfg fault op).1 := rfl

theorem call_recv {cfg : WalConfig} {fault : Fault} {l' : DurableLog} {c : Option Cofre}
    (h : l.recv cfg fault = (l', .ok c)) : l.call cfg fault .recv = (l', .received c) := by
  simp only [call, h]

/-- What a flush does to the flag of an answer. -/
theorem flag_flush {v' : View} {l' : DurableLog} (h : Holds d v' l') (hf : Flushes l v v' l') :
    (decide (l'.buf = []) && !l'.poisoned) = !l'.poisoned := by
  cases hp : l'.poisoned with
  | true => rw [Bool.not_true, Bool.and_false]
  | false => simp [h.reading.buf_eq_nil.2 (hf.pending hp)]

/-- What the flag of an answer says. -/
theorem Holds.of_flag (h : Holds d v l) (hflag : (decide (l.buf = []) && !l.poisoned) = true) :
    v.pending = [] ∧ l.poisoned = false := by
  rw [Bool.and_eq_true, decide_eq_true_iff] at hflag
  exact ⟨h.reading.buf_eq_nil.1 hflag.1, by simpa using hflag.2⟩

theorem Sound.flush (h : Sound unique seen v l) (cfg : WalConfig) (fault : Fault) :
    Keeps unique (seen.next (.call .flush fault, answer cfg l (.call .flush fault))) v l
      (after cfg l (.call .flush fault)) (fault = .none) := by
  obtain ⟨v', hv', hflush⟩ := h.holds.flush cfg fault
  have hok := flush_ok_iff l cfg fault
  have hdone : decide ((answer cfg l (.call .flush fault)).result = some .done) = !(l.flush cfg fault).1.poisoned := by
    change decide (some (Result.ofUnit (l.flush cfg fault).2) = some .done) = _
    cases hres : (l.flush cfg fault).2 with
    | ok u => rw [hok.1 hres]; rfl
    | error e =>
      cases hp : (l.flush cfg fault).1.poisoned with
      | true => rfl
      | false =>
        rw [hok.2 hp] at hres
        cases hres
  refine ⟨v', ⟨?_, ?_⟩, hflush.safe, fun hnone hcalm => ?_⟩
  · rw [Seen.next, Seen.dealt_cover]
    exact hv'
  · rw [Seen.next, hdone]
    exact h.told.flush hflush
  · subst hnone
    have hcalm' := flush_calm cfg hcalm.poisoned
    exact ⟨hflush.loose hcalm'.1 hcalm.loose, hcalm'.1, hcalm'.2 hcalm.entry⟩

/-- **What `send` does to the log**: it refuses the cofre, takes it, or takes it and flushes. -/
theorem append_cases (cfg : WalConfig) (due : Bool) (fault : Fault) (l : DurableLog) (c : Cofre) :
    (∃ e, l.append cfg due fault c = (l, .error e)) ∨
    (l.poisoned = false ∧ FitsWire c ∧
      (l.append cfg due fault c = (l.push c, .ok ()) ∨ l.append cfg due fault c = (l.push c).flush cfg fault)) := by
  unfold append
  dsimp only
  by_cases hp : l.poisoned = true
  · rw [if_pos hp]
    exact .inl ⟨_, rfl⟩
  · rw [if_neg hp]
    by_cases hfits : maxCofreWireLen < c.encode.length
    · rw [if_pos hfits]
      exact .inl ⟨_, rfl⟩
    · rw [if_neg hfits]
      refine .inr ⟨Bool.eq_false_of_not_eq_true hp, Nat.le_of_not_lt hfits, ?_⟩
      split_ifs
      · exact .inr rfl
      · exact .inl rfl

/-- A call, with what it returns. -/
theorem keeps_of_call {cfg : WalConfig} {fault : Fault} {op : Op} (l' : DurableLog) (result : Result)
    (hcall : l.call cfg fault op = (l', result))
    (hkeeps : Keeps unique (seen.next (.call op fault, ⟨some result, decide (l'.buf = []) && !l'.poisoned⟩)) v l l'
      (fault = .none)) :
    Keeps unique (seen.next (.call op fault, answer cfg l (.call op fault))) v l (after cfg l (.call op fault))
      (fault = .none) := by
  simp only [after, answer, machine, hcall]
  exact hkeeps

/-- What a caller has seen once a cofre was taken. -/
def Seen.push (seen : Seen) (c : Cofre) : Seen :=
  { seen with sent := seen.sent ++ [c], pending := seen.pending ++ [c] }

/-- A cofre is in the buffer. -/
theorem Sound.push (h : Sound unique seen v l) (hp : l.poisoned = false) {c : Cofre} (hc : FitsWire c) :
    Sound unique (seen.push c) (v.push c) (l.push c) := by
  refine ⟨h.holds.push hp hc, ?_, h.told.covered, fun hok => ?_, h.told.out⟩
  · change (v.written.map Prod.snd ++ (v.pending ++ [c])).Sublist (seen.sent ++ [c])
    rw [← append_assoc]
    exact h.told.sent.append (Sublist.refl _)
  · change seen.pending ++ [c] = v.pending ++ [c]
    rw [h.told.pending hok]

theorem Sound.send (h : Sound unique seen v l) (cfg : WalConfig) (due : Bool) (fault : Fault) (c : Cofre) :
    Keeps unique (seen.next (.call (.send c due) fault, answer cfg l (.call (.send c due) fault))) v l
      (after cfg l (.call (.send c due) fault)) (fault = .none) := by
  rcases append_cases cfg due fault l c with ⟨e, heq⟩ | ⟨hp, hc, heq | heq⟩
  · refine keeps_of_call l (.failed e) (by simp only [call, heq, Result.ofUnit]) ?_
    refine ⟨v, ⟨?_, ?_⟩, fun _ he => he, fun _ hcalm => hcalm⟩
    · rw [Seen.next, Seen.dealt_cover]
      exact h.holds
    · refine Told.cover ?_ h.holds.of_flag
      exact ⟨h.told.sent.trans (sublist_append_left _ _), h.told.covered, h.told.pending, h.told.out⟩
  · have hpush := h.push hp hc
    refine keeps_of_call (l.push c) .done (by simp only [call, heq, Result.ofUnit]) ?_
    refine ⟨v.push c, ⟨?_, ?_⟩, fun _ he => he, fun _ hcalm => { hcalm with }⟩
    · rw [Seen.next, Seen.dealt_cover]
      exact hpush.holds
    · exact hpush.told.cover hpush.holds.of_flag
  · have hpush := h.push hp hc
    obtain ⟨v', hv', hflush⟩ := hpush.holds.flush cfg fault
    have htold := hpush.told.flush hflush
    have hok := flush_ok_iff (l.push c) cfg fault
    refine keeps_of_call ((l.push c).flush cfg fault).1 (.ofUnit ((l.push c).flush cfg fault).2)
      (by simp only [call, heq]) ?_
    refine ⟨v', ⟨?_, ?_⟩, hflush.safe, fun hnone hcalm => ?_⟩
    · rw [Seen.next, Seen.dealt_cover]
      exact hv'
    · rw [Seen.next, flag_flush hv' hflush]
      cases hpoisoned : ((l.push c).flush cfg fault).1.poisoned with
      | true =>
        rw [hpoisoned] at htold
        exact ⟨htold.sent, htold.covered, by simp, htold.out⟩
      | false =>
        rw [hpoisoned] at htold
        rw [hok.2 hpoisoned]
        exact htold
    · subst hnone
      have hcalm' := @flush_calm (l.push c) cfg hcalm.poisoned
      exact ⟨hflush.loose hcalm'.1 hcalm.loose, hcalm'.1, hcalm'.2 hcalm.entry⟩

/-- **What an ack does**: it fails and changes nothing in flight, or the id is no longer in flight and what is
doomed is gone. -/
theorem ack_cases (fault : Fault) {l : DurableLog} (id : Arr 32)
    (hpos : ∀ s, l.inflight.get id = some s → 0 < countOf l.segInflight s) :
    ∃ disk inflight segInflight, (l.ack fault id).1 = { l with disk, inflight, segInflight } ∧
      (l.disk.entry = true → disk.entry = true) ∧
      (∀ s, l.readId ≤ s → disk.segments.lookup s = l.disk.segments.lookup s) ∧
      ((inflight = l.inflight ∧ (∀ s, countOf segInflight s = countOf l.segInflight s) ∧ (l.ack fault id).2 ≠ .ok ()) ∨
        (inflight = (l.settle id).inflight ∧ (∀ s, countOf segInflight s = countOf (l.settle id).segInflight s) ∧
          ∀ s, (l.settle id).Doomed s → disk.segments.lookup s = none)) := by
  obtain ⟨inflight, segInflight, hs⟩ : ∃ inflight segInflight, l.settle id = { l with inflight, segInflight } := by
    unfold settle
    split
    · exact ⟨_, _, rfl⟩
    · exact ⟨_, _, rfl⟩
  have hback := unsettle_settle hpos
  unfold DurableLog.ack
  rw [hs] at hback ⊢
  cases hres : ({ l with inflight, segInflight } : DurableLog).checkpoint fault with
  | mk l' res =>
    cases res with
    | ok u =>
      have hl' := checkpoint_ok _ fault (by rw [hres])
      rw [hres] at hl'
      subst hl'
      have hlookup := lookup_retain { l with inflight, segInflight }
      have hkept (s) (hs : l.readId ≤ s) := (hlookup s).trans (if_neg fun hd => absurd hd.2.2 (Nat.not_lt.2 hs))
      have hgone (s) (hd) := (hlookup s).trans (if_pos hd)
      have hcounts := countOf_retain { l with inflight, segInflight }
      unfold collect
      dsimp only
      split_ifs <;> exact ⟨_, _, _, rfl, fun _ => rfl, hkept, .inr ⟨rfl, hcounts, hgone⟩⟩
    | error e =>
      obtain ⟨cursor, stale, hl'⟩ := checkpoint_error _ fault (by rw [hres])
      rw [hres] at hl'
      dsimp only at hl' ⊢
      obtain ⟨hinflight, hcounts⟩ := hback l' (by rw [hl']) (by rw [hl'])
      rw [unsettle_eq]
      subst hl'
      exact ⟨_, _, _, rfl, fun he => he, fun _ _ => rfl, .inl ⟨hinflight, hcounts, nofun⟩⟩

theorem Sound.ack (h : Sound unique seen v l) (cfg : WalConfig) (fault : Fault) (id : Arr 32) :
    Keeps unique (seen.next (.call (.ack id) fault, answer cfg l (.call (.ack id) fault))) v l
      (after cfg l (.call (.ack id) fault)) (fault = .none) := by
  have hholds := h.holds.ack fault id
  obtain ⟨disk, inflight, segInflight, heq, hentry, -⟩ := ack_cases fault id fun _ => h.holds.flight.count_pos
  rw [heq] at hholds
  refine ⟨v, ?_, fun _ he => he, fun _ hcalm => ?_⟩ <;> rw [after_call, show (l.call cfg fault (.ack id)).1 = _ from heq]
  · exact ⟨hholds, h.told.mono (Sublist.refl _) rfl rfl rfl rfl⟩
  · exact ⟨hcalm.loose, hcalm.poisoned, hentry hcalm.entry⟩

/-- `recv` with nothing ahead flushes the buffer, and gives out the first cofre that was in it. -/
theorem Sound.recv_flush (h : Sound unique seen v l) (hunique : unique → (seen.sent.map idOf).Nodup) (hquiet : Quiet l)
    (hrest : v.rest = []) {c : Cofre} {pending : List Cofre} (hpending : v.pending = c :: pending) (cfg : WalConfig)
    (fault : Fault) :
    Keeps unique (seen.next (.call .recv fault, answer cfg l (.call .recv fault))) v l
      (after cfg l (.call .recv fault)) (fault = .none) := by
  have hloose := h.holds.loose_eq_nil hquiet
  have hahead : v.ahead = [] := by rw [View.ahead, hloose, hrest, append_nil]
  have hreading := h.holds.reading
  rw [hahead, hpending] at hreading
  obtain ⟨hfail, hdeliver⟩ := hreading.recv_flush cfg fault
  set l₁ := l.seek l.activeId (bytesAt v.before l.activeId).length with hl₁
  obtain ⟨v', hv', hflush⟩ := (h.holds.seekEnd hahead hquiet.1).flush cfg fault
  have htold : Told unique (seen.cover (!(l₁.flush cfg fault).1.poisoned)) v' (l₁.flush cfg fault).1.poisoned :=
    Told.flush (l := l₁) h.told hflush
  have hflag := flag_flush hv' hflush
  have hok := flush_ok_iff l₁ cfg fault
  cases hres : (l₁.flush cfg fault).2 with
  | error e =>
    have hp : ¬ (l₁.flush cfg fault).1.poisoned = false := by
      simp [← hok, hres]
    refine keeps_of_call (l₁.flush cfg fault).1 (.failed e) (by simp only [call, hfail e hres]) ?_
    refine ⟨v', ⟨?_, ?_⟩, hflush.safe, fun hnone hcalm => ?_⟩
    · rw [Seen.next, Seen.dealt_cover]
      exact hv'
    · rw [Seen.next, hflag]
      exact htold
    · subst hnone
      exact absurd (@flush_calm l₁ cfg hcalm.poisoned).1 hp
  | ok u =>
    have hp := hok.1 hres
    have hrest' : v'.rest = (l.activeId, c) :: Reading.flushed l₁ pending := by
      have := hflush.ahead hp
      rw [View.ahead, hflush.loose hp hloose, append_nil, hahead, hpending] at this
      exact this
    obtain ⟨hid, hoff, -⟩ := cursor_flush cfg fault l₁
    have hseek : (l₁.flush cfg fault).1.seek l.activeId (bytesAt v'.before l.activeId).length =
        (l₁.flush cfg fault).1 := by
      refine seek_self hid.symm ?_
      rw [hoff, hflush.before]
      rfl
    have hdistinct : unique → Distinct v' := by
      intro hu
      unfold Distinct
      rw [hflush.cofres]
      exact h.distinct hunique hu
    have hholds := hv'.deliver hdistinct hrest'
    rw [hseek] at hholds
    refine keeps_of_call ((l₁.flush cfg fault).1.deliver c (wire.frame c.encode).length) (.received (some c))
      (call_recv (hdeliver hres)) ?_
    refine ⟨v'.advance (l.activeId, c) (Reading.flushed l₁ pending), ⟨?_, ?_⟩, fun x hx => ?_, fun hnone hcalm => ?_⟩
    · rw [Seen.next, Seen.dealt_cover]
      exact hholds
    · have hcovered := htold.deliver hrest'
      rw [hp] at hcovered hflag
      change Told unique (Seen.cover _ (decide ((l₁.flush cfg fault).1.buf = []) && !(l₁.flush cfg fault).1.poisoned)) _
        (l₁.flush cfg fault).1.poisoned
      rw [hp, hflag]
      exact hcovered
    · rw [View.safe_advance hrest']
      exact hflush.safe x hx
    · subst hnone
      have hcalm' := @flush_calm l₁ cfg hcalm.poisoned
      exact ⟨hflush.loose hcalm'.1 hcalm.loose, hcalm'.1, hcalm'.2 hcalm.entry⟩

/-- **`recv` on a quiet log.** -/
theorem Sound.recv (h : Sound unique seen v l) (hunique : unique → (seen.sent.map idOf).Nodup) (hquiet : Quiet l)
    (cfg : WalConfig) (fault : Fault) :
    Keeps unique (seen.next (.call .recv fault, answer cfg l (.call .recv fault))) v l
      (after cfg l (.call .recv fault)) (fault = .none) := by
  have hloose := h.holds.loose_eq_nil hquiet
  have hahead : v.ahead = v.rest := by rw [View.ahead, hloose, append_nil]
  have hreading := h.holds.reading
  rw [hahead] at hreading
  cases hrest : v.rest with
  | cons e rest =>
    rw [hrest] at hreading
    have hholds := h.holds.deliver (h.distinct hunique) hrest
    refine keeps_of_call ((l.seek e.1 (bytesAt v.before e.1).length).deliver e.2 (wire.frame e.2.encode).length)
      (.received (some e.2)) (call_recv hreading.recv_cons) ?_
    refine ⟨v.advance e rest, ⟨?_, ?_⟩, fun x hx => ?_, fun _ hcalm => { hcalm with }⟩
    · rw [Seen.next, Seen.dealt_cover]
      exact hholds
    · exact (h.told.deliver hrest).cover hholds.of_flag
    · rw [View.safe_advance hrest]
      exact hx
  | nil =>
    rw [hrest] at hreading
    have hend := h.holds.seekEnd (hahead.trans hrest) hquiet.1
    cases hpending : v.pending with
    | nil =>
      rw [hpending] at hreading
      refine keeps_of_call (l.seek l.activeId (bytesAt v.before l.activeId).length) (.received none)
        (call_recv hreading.recv_nil) ?_
      refine ⟨v, ⟨?_, ?_⟩, fun _ he => he, fun _ hcalm => { hcalm with }⟩
      · rw [Seen.next, Seen.dealt_cover]
        exact hend
      · exact h.told.cover hend.of_flag
    | cons c pending => exact h.recv_flush hunique hquiet hrest hpending cfg fault

/-- The written entries were sent. -/
theorem View.sublist_cofres (v : View) : (v.written.map Prod.snd).Sublist v.cofres := sublist_append_left _ _

/-- A directory that is opened well, and what was seen. -/
theorem Sound.open {v' : View} {torn : Bytes} {disk : Disk} {top : ℕ} {poisoned : Bool}
    (htold : Told unique seen v poisoned) (hshelf : Shelf (seen.dealt unique) v' torn disk top)
    (hsent : (v'.written.map Prod.snd).Sublist v.cofres) (hsafe : ∀ e ∈ v.safe, e ∈ v'.safe) :
    Sound unique seen.reopened v' (.openWith disk) := by
  refine ⟨hshelf.holds, htold.reopened ?_ hsafe hshelf.pending hshelf.done⟩
  rw [View.cofres, hshelf.pending, append_nil]
  exact hsent

theorem Sound.reopen (h : Sound unique seen v l) (cfg : WalConfig) (fault : Fault) :
    Keeps unique seen.reopened v l (.openWith (l.drop cfg fault).disk) (fault = .none) := by
  obtain ⟨v₁, hv₁, hcofres, hsafe₁, hcalm₁⟩ := h.holds.drop cfg fault
  obtain ⟨v₂, hshelf, hwritten, hsafe₂, hloose⟩ := hv₁.shelf
  have hsafe : ∀ e ∈ v.safe, e ∈ v₂.safe := fun e he => hsafe₂ ▸ hsafe₁ e he
  refine ⟨v₂, .open h.told hshelf ?_ hsafe, hsafe, fun hnone hcalm => ⟨?_, rfl, rfl⟩⟩
  · rw [hwritten, ← hcofres]
    exact v₁.sublist_cofres
  · rw [hloose]
    exact hcalm₁ hnone hcalm.poisoned hcalm.loose

/-- **A crash**, with what was seen up to it. -/
theorem Sound.crash (h : Sound unique seen v l) (loss : Loss) :
    ∃ v', Sound unique seen.reopened v' (.openWith (l.disk.crash loss)) ∧ (∀ e ∈ v.safe, e ∈ v'.safe) ∧
      Calm v' (.openWith (l.disk.crash loss)) := by
  obtain ⟨v', torn, top, hshelf, hloose, hsub, hsafe⟩ := h.holds.crash loss
  exact ⟨v', .open h.told hshelf ((hsub.map _).trans v.sublist_cofres) hsafe, hsafe, hloose, rfl, rfl⟩

/-- The same calls were made, and no less was covered. -/
structure Seen.Extends (seen₁ seen₂ : Seen) : Prop where
  sent : seen₁.sent = seen₂.sent
  received : seen₁.received = seen₂.received
  acked : seen₁.acked = seen₂.acked
  covered : seen₂.covered ⊆ seen₁.covered

variable {seen₁ seen₂ : Seen}

theorem Seen.Extends.cover (h : seen₁.Extends seen₂) (flushed : Bool) :
    (seen₁.cover flushed).Extends seen₂ := by
  cases flushed with
  | false => exact h
  | true => exact ⟨h.sent, h.received, h.acked, fun c hc => mem_append_left _ (h.covered hc)⟩

/-- Less was seen. -/
theorem Sound.forget (h : Sound unique seen₁.reopened v l) (hextends : seen₁.Extends seen₂) :
    Sound unique seen₂.reopened v l := by
  have hdealt : seen₁.reopened.dealt unique = seen₂.reopened.dealt unique := by
    simp only [Seen.dealt, Seen.reopened, hextends.received, hextends.acked]
  refine ⟨hdealt ▸ h.holds, ?_, fun c hc => h.told.covered c (hextends.covered hc), h.told.pending, ?_⟩
  · have := h.told.sent
    rwa [show seen₁.reopened.sent = seen₂.reopened.sent from hextends.sent] at this
  · have := h.told.out
    rwa [show seen₁.reopened.ackedBefore = seen₂.reopened.ackedBefore from hextends.acked] at this

/-- What a crash in the middle of a call finds. -/
theorem Sound.struck (h : Sound unique seen v l) (cfg : WalConfig) (during : Option (Op × Fault)) :
    ∃ seen₁ v₁, Sound unique seen₁ v₁ (l.struck cfg during) ∧ seen₁.Extends (seen.attempt during) ∧
      ∀ e ∈ v.safe, e ∈ v₁.safe := by
  have hsame : ∀ seen : Seen, seen.Extends seen := fun seen => ⟨rfl, rfl, rfl, Subset.refl _⟩
  cases during with
  | none => exact ⟨seen, v, h, hsame _, fun _ he => he⟩
  | some call =>
    obtain ⟨op, fault⟩ := call
    cases op with
    | send c due =>
      obtain ⟨v₁, hsound, hsafe, -⟩ := h.send cfg due fault c
      have hpushed : Seen.Extends { seen with
          sent := seen.sent ++ [c]
          pending := if (answer cfg l (.call (.send c due) fault)).result = some .done then seen.pending ++ [c]
            else seen.pending } (seen.attempt (some (.send c due, fault))) :=
        ⟨rfl, rfl, rfl, Subset.refl _⟩
      exact ⟨_, v₁, hsound, hpushed.cover _, hsafe⟩
    | flush =>
      obtain ⟨v₁, hsound, hsafe, -⟩ := h.flush cfg fault
      exact ⟨_, v₁, hsound, (hsame _).cover _, hsafe⟩
    | recv =>
      obtain ⟨v₁, hsound, hsafe, -⟩ := h.flush cfg fault
      exact ⟨_, v₁, hsound, (hsame _).cover _, hsafe⟩
    | ack id =>
      obtain ⟨v₁, hsound, hsafe, -⟩ := h.ack cfg fault id
      exact ⟨_, v₁, hsound, hsame _, hsafe⟩

/-- `recv` is called when nothing on disk is unsure. -/
def ReadsQuiet (l : DurableLog) : Event → Prop
  | .call .recv _ => Quiet l
  | _ => True

instance (l : DurableLog) : ∀ event, Decidable (ReadsQuiet l event)
  | .call .recv _ => inferInstanceAs (Decidable (Quiet l))
  | .call (.send _ _) _ => inferInstanceAs (Decidable True)
  | .call .flush _ => inferInstanceAs (Decidable True)
  | .call (.ack _) _ => inferInstanceAs (Decidable True)
  | .crash _ _ => inferInstanceAs (Decidable True)
  | .reopen _ => inferInstanceAs (Decidable True)

/-- **Every event keeps the invariant.** -/
theorem Sound.step (h : Sound unique seen v l) (hunique : unique → (seen.sent.map idOf).Nodup) (cfg : WalConfig)
    (event : Event) (hquiet : ReadsQuiet l event) :
    Keeps unique (seen.next (event, answer cfg l event)) v l (after cfg l event) (Unfailing event) := by
  cases event with
  | call op fault =>
    cases op with
    | send c due => exact h.send cfg due fault c
    | flush => exact h.flush cfg fault
    | recv => exact h.recv hunique hquiet cfg fault
    | ack id => exact h.ack cfg fault id
  | crash during loss =>
    obtain ⟨seen₁, v₁, hsound, hextends, hsafe⟩ := h.struck cfg during
    obtain ⟨v', hsound', hsafe', hcalm⟩ := hsound.crash loss
    exact ⟨v', hsound'.forget hextends, fun e he => hsafe' e (hsafe e he), fun _ _ => hcalm⟩
  | reopen fault => exact h.reopen cfg fault

/-- An empty directory. -/
theorem Sound.start (unique : Prop) : Sound unique .start ⟨[], [], [], []⟩ (.openWith .empty) := by
  have hnone : ∀ e ∈ ([] : List Entry), (Seen.start.dealt unique).Done e := nofun
  have hshelf : Shelf (Seen.start.dealt unique) ⟨[], [], [], []⟩ [] Disk.empty 1 :=
    { highest := rfl
      content := rfl
      torn := Codec.parse_nil
      sorted := .nil
      fits := nofun
      range := nofun
      loose := nofun
      files := nofun
      durable := rfl
      position := ⟨nofun, nofun, rfl⟩
      low := le_refl _
      present := fun s hlow hlt => absurd hlow (Nat.not_le.2 hlt)
      done := hnone
      pending := rfl }
  have htold : Told unique Seen.start ⟨[], [], [], []⟩ false :=
    ⟨Sublist.refl _, nofun, fun _ => rfl, [], [], rfl, rfl, nofun⟩
  exact .open htold hshelf (Sublist.refl _) fun _ he => he

end Steps

end Datarail.Wal
