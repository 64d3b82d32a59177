/-
# The write-ahead log delivers at least once

The runs of a log from an empty directory.  Without faults nothing on disk is ever unsure
(`calm_run`), and the log delivers at least once, in order, whatever crashes take
(`delivers_at_least_once`).

With faults that is so for a caller that does not read while something on disk is unsure
(`cursor_within_log_of_quiet`).  `recv` itself does not look: it gives out a cofre whose sync
has failed, and the ack of that cofre moves the cursor behind bytes that a crash may take
(`acked_unsynced_hides_flushed`).
-/

import Datarail.Wal.Steps

namespace Datarail.Wal

open Lib List Machine DurableLog

section Runs

variable (cfg : WalConfig)

/-- The log after some events, from an empty directory. -/
def logAfter (events : List Event) : DurableLog := (machine cfg).final (.openWith .empty) events

/-- What was seen of some events, from an empty directory. -/
def seenOf (events : List Event) : Seen := .ofTrace ((machine cfg).trace (.openWith .empty) events)

variable {events : List Event}

/-- **The invariant along a run**: guarded, it holds at the end. -/
theorem sound_run {unique : Prop} (hguarded : (machine cfg).Guarded ReadsQuiet (.openWith .empty) events)
    (hunique : unique → ((seenOf cfg events).sent.map idOf).Nodup) :
    ∃ v, Sound unique (seenOf cfg events) v (logAfter cfg events) := by
  have hrun := (machine cfg).invariant_of_step ReadsQuiet
    (fun trace l => (unique → ((Seen.ofTrace trace).sent.map idOf).Nodup) → ∃ v, Sound unique (.ofTrace trace) v l)
    (fun trace l event hquiet hinv hunique => ?_) (.openWith .empty) events [] hguarded
    (fun _ => ⟨_, .start unique⟩)
  · exact hrun hunique
  · rw [Seen.ofTrace_append] at hunique ⊢
    have hbefore : unique → ((Seen.ofTrace trace).sent.map idOf).Nodup := fun hu =>
      (hunique hu).sublist ((Seen.sent_prefix_next _ _).sublist.map idOf)
    obtain ⟨v, hv⟩ := hinv hbefore
    obtain ⟨v', hv', -, -⟩ := hv.step hbefore cfg event hquiet
    exact ⟨v', hv'⟩

theorem seenOf_append (events : List Event) (event : Event) :
    seenOf cfg (events ++ [event]) = (seenOf cfg events).next (event, answer cfg (logAfter cfg events) event) := by
  rw [seenOf, trace_append, trace_cons, trace_nil, Seen.ofTrace_append]
  rfl

theorem logAfter_append (events : List Event) (event : Event) :
    logAfter cfg (events ++ [event]) = after cfg (logAfter cfg events) event := by
  rw [logAfter, final_append, final_cons, final_nil]
  rfl

theorem nodup_of_append {event : Event}
    (h : ((seenOf cfg (events ++ [event])).sent.map idOf).Nodup) : ((seenOf cfg events).sent.map idOf).Nodup := by
  rw [seenOf_append] at h
  exact h.sublist ((Seen.sent_prefix_next _ _).sublist.map idOf)

/-- **Without faults nothing is ever unsure.** -/
theorem calm_run (hunfailing : ∀ e ∈ events, Unfailing e) (hdistinct : ((seenOf cfg events).sent.map idOf).Nodup) :
    ∃ v, Sound True (seenOf cfg events) v (logAfter cfg events) ∧ Calm v (logAfter cfg events) := by
  induction events using reverseRecOn with
  | nil => exact ⟨_, .start True, rfl, rfl, rfl⟩
  | append_singleton events event ih =>
    have hbefore := nodup_of_append cfg hdistinct
    obtain ⟨v, hv, hcalm⟩ := ih (fun e he => hunfailing e (mem_append_left _ he)) hbefore
    have hquiet : ReadsQuiet (logAfter cfg events) event := by
      unfold ReadsQuiet
      split
      · exact hcalm.quiet hv.holds
      · trivial
    obtain ⟨v', hv', -, hcalm'⟩ := hv.step (fun _ => hbefore) cfg event hquiet
    rw [seenOf_append, logAfter_append]
    exact ⟨v', hv', hcalm' (hunfailing event (mem_append_right _ mem_cons_self)) hcalm⟩

end Runs

section Results

variable {unique : Prop} {seen : Seen} {v : View} {l : DurableLog}

/-- What was covered was given out since the log was opened, or was acked before, or is ahead
of the cursor. -/
theorem Sound.covered (h : Sound unique seen v l) {c : Cofre} (hc : c ∈ seen.covered) :
    c ∈ seen.out ∨ (unique → idOf c ∈ seen.ackedBefore) ∨ c ∈ v.rest.map Prod.snd := by
  obtain ⟨e, he, rfl⟩ := h.told.covered c hc
  obtain ⟨pre, fresh, hbefore, hout, hacked⟩ := h.told.out
  rcases mem_append.1 he with he | he
  · rw [hbefore] at he
    rcases mem_append.1 he with he | he
    · exact .inr (.inl fun hunique => hacked hunique e he)
    · rw [← hout]
      exact .inl (mem_map_of_mem he)
  · exact .inr (.inr (mem_map_of_mem he))

/-- What is given out since the log was opened is in the order in which it was sent. -/
theorem Sound.out_sublist (h : Sound unique seen v l) : seen.out.Sublist seen.sent := by
  obtain ⟨pre, fresh, hbefore, hout, -⟩ := h.told.out
  have hfresh : fresh.Sublist v.written := by
    rw [View.written, hbefore]
    exact (sublist_append_right _ _).trans (sublist_append_left _ _)
  rw [← hout]
  exact (hfresh.map _).trans (v.sublist_cofres.trans h.told.sent)

/-- An entry in a segment that is not there was returned and acked. -/
theorem Holds.done_of_absent {d : Dealt} (h : Holds d v l) {e : Entry} (he : e ∈ v.written)
    (habsent : l.disk.segments.lookup e.1 = none) : d.Done e := by
  have hm := h.marks _ mem_cons_self
  obtain ⟨b, a, hb, hdiv, hdone⟩ := hm.splits
  have hlt : e.1 < markId l.disk.cursor := by
    by_contra hge
    have hsome := hm.present e.1 (Nat.le_of_not_lt hge) (h.stored.range e he).2
    rw [habsent] at hsome
    cases hsome
  rw [View.written, hb, append_assoc] at he
  rcases mem_append.1 he with he | he
  · exact hdone e he
  · exact absurd (hdiv.ahead e he) (Nat.not_le.2 hlt)

/-- The records of a file are its entries. -/
theorem Holds.mem_records {d : Dealt} (h : Holds d v l) {s : ℕ} {content body : Bytes}
    (hs : l.disk.segments.lookup s = some content) (hbody : body ∈ wire.records content) :
    ∃ e ∈ v.written, e.1 = s ∧ e.2.encode = body := by
  have hfits : ∀ body ∈ (v.written.filter fun e => decide (e.1 = s)).map fun e => e.2.encode, wire.Fits body := by
    intro body hbody
    obtain ⟨e, he, rfl⟩ := mem_map.1 hbody
    exact fits_encode (h.stored.fits e (mem_of_mem_filter he))
  have hrecords := (Codec.records_frames hfits Codec.parse_nil).1
  rw [append_nil] at hrecords
  rw [(h.stored.files s content hs).2.2, bytesAt, hrecords] at hbody
  obtain ⟨e, he, rfl⟩ := mem_map.1 hbody
  obtain ⟨hmem, heq⟩ := mem_filter.1 he
  exact ⟨e, hmem, of_decide_eq_true heq, rfl⟩

theorem recv_of_result {cfg : WalConfig} {fault : Fault}
    (h : (answer cfg l (.call .recv fault)).result = some (.received none)) : (l.recv cfg fault).2 = .ok none := by
  have hcall : (l.call cfg fault .recv).2 = .received none := Option.some.inj h
  unfold call at hcall
  cases hres : l.recv cfg fault with
  | mk l' res =>
    rw [hres] at hcall
    cases res with
    | error e => cases hcall
    | ok c =>
      cases hcall
      rfl

variable (cfg : WalConfig)

/-- **The write-ahead log delivers at least once.**  In every run without failing calls, with
any crashes and with no id sent twice, look at any of its steps:
* if it is a `recv` that returns nothing, all that was covered by a flush and was not acked
  before the log was opened has come out since it was opened;
* calling `recv` from there on until it returns nothing ends, and gives out the rest of it;
* what has come out since the log was opened is in the order in which it was sent;
* of a segment file that is gone, every cofre was received and acked. -/
theorem delivers_at_least_once (events : List Event) (event : Event) (hunfailing : ∀ e ∈ events ++ [event], Unfailing e)
    (hdistinct : ((seenOf cfg (events ++ [event])).sent.map idOf).Nodup) :
    let seen := seenOf cfg (events ++ [event])
    (event = .call .recv .none → (answer cfg (logAfter cfg events) event).result = some (.received none) →
      ∀ c ∈ seen.covered, idOf c ∉ seen.ackedBefore → c ∈ seen.out) ∧
    (∃ cofres, Drains cfg (logAfter cfg (events ++ [event])) cofres ∧
      ∀ c ∈ seen.covered, idOf c ∉ seen.ackedBefore → c ∈ seen.out ++ cofres) ∧
    seen.out.Sublist seen.sent ∧
    (∀ s content, (logAfter cfg events).disk.segments.lookup s = some content →
      (logAfter cfg (events ++ [event])).disk.segments.lookup s = none →
      ∀ body ∈ wire.records content, ∃ c ∈ seen.received, c.encode = body ∧ idOf c ∈ seen.acked) := by
  have hbefore := nodup_of_append cfg hdistinct
  obtain ⟨v, hv, hcalm⟩ := calm_run cfg (fun e he => hunfailing e (mem_append_left _ he)) hbefore
  have hquiet := hcalm.quiet hv.holds
  have hreads : ReadsQuiet (logAfter cfg events) event := by
    unfold ReadsQuiet
    split
    · exact hquiet
    · trivial
  obtain ⟨v', hv', hsafe, -⟩ := hv.step (fun _ => hbefore) cfg event hreads
  rw [← seenOf_append, ← logAfter_append] at hv'
  have hwritten : v.written = v.safe := by rw [View.written_eq, hcalm.loose, append_nil]
  refine ⟨fun hrecv hnone c hc hnot => ?_, ⟨_, hv'.holds.reading.drains cfg, fun c hc hnot => ?_⟩, hv'.out_sublist,
    fun s content hs hgone body hbody => ?_⟩
  · subst hrecv
    rw [seenOf_append, Seen.next, hnone] at hc hnot ⊢
    obtain ⟨hahead, hpending⟩ := hv.holds.reading.eq_nil_of_recv_none (recv_of_result hnone)
    have hsame : Sound True ((seenOf cfg events).cover (answer cfg (logAfter cfg events) (.call .recv .none)).flushed) v
        (logAfter cfg events) :=
      ⟨by rw [Seen.dealt_cover]; exact hv.holds, hv.told.cover fun _ => ⟨hpending, hcalm.poisoned⟩⟩
    rcases hsame.covered hc with hout | hacked | hrest
    · exact hout
    · exact absurd (hacked trivial) hnot
    · rw [(append_eq_nil_iff.1 hahead).1] at hrest
      cases hrest
  · rcases hv'.covered hc with hout | hacked | hrest
    · exact mem_append_left _ hout
    · exact absurd (hacked trivial) hnot
    · rw [View.ahead, map_append]
      exact mem_append_right _ (mem_append_left _ (mem_append_left _ hrest))
  · obtain ⟨e, he, rfl, rfl⟩ := hv.holds.mem_records hs hbody
    rw [hwritten] at he
    obtain ⟨hreceived, hacked⟩ := hv'.holds.done_of_absent (View.mem_safe (hsafe e he)) hgone
    exact ⟨e.2, hreceived, rfl, hacked trivial⟩

/-- A small cofre. -/
def sampleCofre (n : UInt8) : Cofre where
  etiqueta :=
    { routeId := Arr.zero 16
      streamId := Arr.zero 16
      seq := 0
      cofreId := ⟨replicate 32 n, length_replicate⟩
      idempotencyKey := Arr.zero 32
      contractFp := Arr.zero 32
      aeadAlg := .chaCha20Poly1305
      nonce := Arr.zero 12
      signerKeyId := Arr.zero 32
      ephPk := Arr.zero 32
      senderPresent := false
      ts := 0 }
  carga := []
  lacre := Arr.zero 64

/-- A crash that takes all that it can. -/
def totalLoss : Loss := ⟨0, [], true, 0, fun _ => false⟩

/-- Two cofres in two segments, and a crash: both come out when the log is opened again. -/
theorem delivers_at_least_once_crash :
    let events : List Event := [.call (.send (sampleCofre 1) false) .none, .call (.send (sampleCofre 2) false) .none,
      .crash none totalLoss]
    ∃ cofres, Drains ⟨0, 1⟩ (logAfter ⟨0, 1⟩ (events ++ [.reopen .none])) cofres ∧
      sampleCofre 1 ∈ cofres ∧ sampleCofre 2 ∈ cofres := by
  obtain ⟨-, ⟨cofres, hdrains, hcovered⟩, -⟩ := delivers_at_least_once ⟨0, 1⟩
    [.call (.send (sampleCofre 1) false) .none, .call (.send (sampleCofre 2) false) .none, .crash none totalLoss]
    (.reopen .none) (by simp [Unfailing]) (by decide +kernel)
  exact ⟨cofres, hdrains, hcovered (sampleCofre 1) (by decide +kernel) (by decide +kernel),
    hcovered (sampleCofre 2) (by decide +kernel) (by decide +kernel)⟩

/-- **A log that is read only while it is quiet.**  In every run, with any faults and crashes,
in which `recv` is not called while bytes or a segment are on disk that no sync covers: the
cursor never lies beyond the end of its segment, and every cofre that a flush covered was
received or comes out when `recv` is called until it returns nothing. -/
theorem cursor_within_log_of_quiet (events : List Event)
    (hquiet : (machine cfg).Guarded ReadsQuiet (.openWith .empty) events) :
    let l := logAfter cfg events
    l.readId ≤ l.activeId ∧ l.readOff ≤ (l.disk.content l.readId).length ∧ ∃ cofres, Drains cfg l cofres ∧
        ∀ c ∈ (seenOf cfg events).covered, c ∈ (seenOf cfg events).received ∨ c ∈ cofres := by
  obtain ⟨v, h⟩ := @sound_run cfg events False hquiet False.elim
  have hcontent := h.holds.present (le_refl _) h.holds.placed.high
  refine ⟨h.holds.placed.high, ?_, _, h.holds.reading.drains cfg, fun c hc => ?_⟩
  · rw [Disk.content, hcontent, h.holds.placed.position.off_eq, View.written, bytesAt_append]
    simp
  · obtain ⟨e, he, rfl⟩ := h.told.covered c hc
    rcases mem_append.1 he with he | he
    · exact .inl (h.holds.flight.received e he)
    · exact .inr (mem_append_left _ (mem_map_of_mem (mem_append_left _ he)))

/-- `recv` is called on the new log and behind the crash that takes what a failed sync left; what is sent and synced
afterwards comes out. -/
theorem cursor_within_log_of_quiet_failed_sync :
    let events : List Event := [.call .recv .none, .call (.send (sampleCofre 1) false) .none, .call .flush .sync,
      .crash none totalLoss, .call .recv .none, .call (.send (sampleCofre 2) false) .none, .call .flush .none]
    ∃ cofres, Drains ⟨1024, 1024⟩ (logAfter ⟨1024, 1024⟩ events) cofres ∧ sampleCofre 2 ∈ cofres := by
  obtain ⟨-, -, cofres, hdrains, hcovered⟩ := cursor_within_log_of_quiet ⟨1024, 1024⟩
    [.call .recv .none, .call (.send (sampleCofre 1) false) .none, .call .flush .sync, .crash none totalLoss,
      .call .recv .none, .call (.send (sampleCofre 2) false) .none, .call .flush .none] (by decide +kernel)
  refine ⟨cofres, hdrains, (hcovered (sampleCofre 2) (by decide +kernel)).resolve_left ?_⟩
  decide +kernel

/-- The log whose first cofre is written and not synced. -/
def unsynced : DurableLog := { ((openWith .empty).push (sampleCofre 1)).written with poisoned := true }

theorem logAfter_unsynced :
    logAfter ⟨1024, 1024⟩ [.call (.send (sampleCofre 1) false) .none, .call .flush .sync] = unsynced := by
  have hsend : (openWith .empty).append ⟨1024, 1024⟩ false .none (sampleCofre 1) =
      ((openWith .empty).push (sampleCofre 1), .ok ()) := by
    unfold append
    rw [if_neg (by decide), if_neg (by decide +kernel), if_neg (by decide +kernel)]
    rfl
  have hflush : ((openWith .empty).push (sampleCofre 1)).flush ⟨1024, 1024⟩ .sync = (unsynced, .error .io) := by
    unfold flush
    rfl
  simp only [logAfter, final_cons, final_nil, machine, call, hsend, hflush]

/-- `recv` gives out a cofre whose sync has failed. -/
theorem recv_unsynced (cfg : WalConfig) : unsynced.recv cfg .none =
    ((unsynced.seek 1 0).deliver (sampleCofre 1) (wire.frame (sampleCofre 1).encode).length, .ok (some (sampleCofre 1))) := by
  have hfits : FitsWire (sampleCofre 1) := by
    unfold FitsWire
    decide +kernel
  have hholds := ((Sound.start False).holds.push rfl hfits).written rfl
  exact hholds.reading.recv_cons

theorem logAfter_received :
    logAfter ⟨1024, 1024⟩ ([.call (.send (sampleCofre 1) false) .none, .call .flush .sync] ++ [.call .recv .none]) =
      (unsynced.seek 1 0).deliver (sampleCofre 1) (wire.frame (sampleCofre 1).encode).length := by
  rw [logAfter_append, logAfter_unsynced, after_call, call_recv (recv_unsynced _)]

theorem logAfter_final (cfg : WalConfig) (events later : List Event) :
    logAfter cfg (events ++ later) = (machine cfg).final (logAfter cfg events) later := final_append _ _ _ _

/-- **`recv` gives out a cofre whose sync has failed, and its ack moves the cursor behind it.**
After a crash that takes the cofre, the cursor lies beyond the end of the log, and the next
cofre is written below it: its flush succeeds, and `recv` returns nothing. -/
theorem acked_unsynced_hides_flushed :
    let events : List Event := ([.call (.send (sampleCofre 1) false) .none, .call .flush .sync] ++ [.call .recv .none]) ++
      [.call (.ack (idOf (sampleCofre 1))) .none, .crash none totalLoss]
    let later : List Event := [.call (.send (sampleCofre 2) false) .none, .call .flush .none, .call .recv .none]
    let l := logAfter ⟨1024, 1024⟩ events
    (l.disk.content l.readId).length < l.readOff ∧ ((machine ⟨1024, 1024⟩).trace l later).map (fun e => e.2.result) =
        [some .done, some .done, some (.received none)] := by
  -- the checksum is not computed here: that the frame reads back is a theorem
  dsimp only
  rw [logAfter_final, logAfter_received]
  decide +kernel

end Results

end Datarail.Wal
