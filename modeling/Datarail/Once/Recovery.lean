/-
# Closing, crashing and reopening the persistent gate

A run of `FileOnce` is admissions, clean reopens, and crashes in the middle of an admission.
A crash leaves the log with some prefix of the record that was being written, or with the
record and possibly the snapshot that followed it.

As long as no record is written behind a torn one, the log replays to a gate that is coarser
than the running one (`Persistent`), and with that every delivery is settled for good
(`deliveries_survive_crashes`).  `open` leaves the torn bytes in the file, however, so that
everything appended behind them is out of reach of the next replay
(`delivery_behind_torn_record_forgotten`).

Without crashes the answers are those of the gate in memory, as long as no key comes back
under a new number while its old one is below the watermark and not yet collected
(`reopened_gate_answers_alike`).  Such a key is known in memory and forgotten by a snapshot
(`snapshot_forgets_key`).
-/

import Datarail.Once.Persist

namespace Datarail.Once

open Lib List Crypto Gate Prod

namespace Gate

variable {ι κ : Type} [DecidableEq ι] [DecidableEq κ] {gcLag : ℕ} {g g' g'' : Gate ι κ}

/-- Stream by stream, `g'` has forgotten some keys below the watermark. -/
structure Coarser (gcLag : ℕ) (g g' : Gate ι κ) : Prop where
  lag : g.gcLag = gcLag
  lag' : g'.gcLag = gcLag
  streams : ∀ s, StreamState.Coarser gcLag (g.stream s) (g'.stream s)

namespace Coarser

omit [DecidableEq κ] in
theorem trans (h : Coarser gcLag g g') (h' : Coarser gcLag g' g'') : Coarser gcLag g g'' :=
  ⟨h.lag, h'.lag', fun s => (h.streams s).trans (h'.streams s)⟩

omit [DecidableEq κ] in
theorem refl_right (h : Coarser gcLag g g') : Coarser gcLag g' g' :=
  ⟨h.lag', h.lag', fun s => StreamState.Coarser.refl (h.streams s).sound'⟩

theorem step (h : Coarser gcLag g g') {a : Admission ι κ} (hd : (machine.step g a).2 = .delivered) :
    (machine.step g' a).2 = .delivered ∧ Coarser gcLag (machine.step g a).1 (machine.step g' a).1 := by
  have hs := h.streams a.stream
  rw [answer_step, h.lag, StreamState.admitSeq_eq] at hd
  split_ifs at hd with hnew
  have hnew' : ¬ (g'.stream a.stream).Repeats a.seq a.key := fun hrep => hnew (hs.repeats_of_repeats hrep)
  refine ⟨by rw [answer_step, h.lag', StreamState.admitSeq_eq, if_neg hnew'], h.lag, h.lag', fun s => ?_⟩
  rw [stream_step, stream_step]
  split_ifs with heq
  · rw [h.lag, h.lag', heq, StreamState.admitSeq_eq, StreamState.admitSeq_eq, if_neg hnew, if_neg hnew']
    exact hs.deliver hnew
  · exact h.streams s

end Coarser

/-- An admission that is turned away changes no stream. -/
theorem stream_step_of_duplicate {a : Admission ι κ} (hd : (machine.step g a).2 ≠ .delivered) (s : ι) :
    (machine.step g a).1.stream s = g.stream s := by
  rw [answer_step, StreamState.admitSeq_eq] at hd
  rw [stream_step]
  split_ifs at hd with hrep
  · split_ifs with heq
    · rw [heq, StreamState.admitSeq_eq, if_pos hrep]
    · rfl
  · exact absurd rfl hd

end Gate

section Rebuild

open Gate

variable {gcLag : ℕ}

/-- The entries of a checkpoint reach their own stream only. -/
theorem stream_foldl_entries (g : Gate (Arr 16) (Arr 32)) (s : Arr 16) (entries : List (ℕ × Arr 32)) (t : Arr 16) :
    ((entries.map fun e => Record.delivered s e.1 e.2).foldl Record.apply g).gcLag = g.gcLag ∧
      ((entries.map fun e => Record.delivered s e.1 e.2).foldl Record.apply g).stream t =
        if t = s then entries.foldl (fun st e => (st.admitSeq g.gcLag e.1 e.2).1) (g.stream s)
        else g.stream t := by
  induction entries generalizing g with
  | nil =>
    refine ⟨rfl, ?_⟩
    split_ifs with h
    · rw [h]
      rfl
    · rfl
  | cons e entries ih =>
    obtain ⟨hlag, hstream⟩ := ih (machine.step g ⟨s, e.1, e.2⟩).1
    refine ⟨hlag, ?_⟩
    refine hstream.trans ?_
    rw [stream_step, stream_step, if_pos rfl]
    split_ifs
    · rfl
    · rfl

/-- The records of one stream in a snapshot. -/
def block (g : Gate (Arr 16) (Arr 32)) (s : Arr 16) : List Record :=
  .checkpoint s (g.stream s).lowWatermark :: (g.stream s).entries.map fun e => .delivered s e.1 e.2

theorem foldl_block {g g' : Gate (Arr 16) (Arr 32)} {s : Arr 16} (hlag : g'.gcLag = gcLag)
    (hsound : (g.stream s).Sound gcLag) (hnew : g'.stream s = .new) (t : Arr 16) :
    ((block g s).foldl Record.apply g').gcLag = gcLag ∧
      (t ≠ s → ((block g s).foldl Record.apply g').stream t = g'.stream t) ∧
      StreamState.Coarser gcLag (g.stream s) (((block g s).foldl Record.apply g').stream s) := by
  have hrestore : ∀ t, (g'.restoreWatermark s (g.stream s).lowWatermark).stream t =
      if t = s then (StreamState.new).restoreWatermark gcLag (g.stream s).lowWatermark
      else g'.stream t := by
    intro t
    rw [restoreWatermark, hnew, hlag]
    simp only [stream, lookup_insert_ite]
    split_ifs
    · rfl
    · rfl
  have hfold := stream_foldl_entries (g'.restoreWatermark s (g.stream s).lowWatermark) s (g.stream s).entries
  refine ⟨(hfold t).1.trans hlag, fun hne => ?_, ?_⟩
  · exact (hfold t).2.trans (by rw [if_neg hne, hrestore, if_neg hne])
  · have hs := (hfold s).2
    rw [if_pos rfl, hrestore, if_pos rfl, show (g'.restoreWatermark s _).gcLag = gcLag from hlag] at hs
    exact hs ▸ StreamState.coarser_of_entries hsound

/-- **A snapshot replays to a coarser gate.** -/
theorem coarser_rebuild_snapshot (order : KeyOrder (Arr 16)) {g : Gate (Arr 16) (Arr 32)}
    (hlag : g.gcLag = gcLag) (hsound : ∀ s, (g.stream s).Sound gcLag) :
    Coarser gcLag g (rebuild gcLag (snapshot order g)) := by
  have hrun : ∀ (l : List (Arr 16)) (g' : Gate (Arr 16) (Arr 32)), l.Nodup → g'.gcLag = gcLag →
      (∀ s ∈ l, g'.stream s = .new) →
      ((l.flatMap (block g)).foldl Record.apply g').gcLag = gcLag ∧
        (∀ s, s ∉ l → ((l.flatMap (block g)).foldl Record.apply g').stream s = g'.stream s) ∧
        ∀ s ∈ l, StreamState.Coarser gcLag (g.stream s) (((l.flatMap (block g)).foldl Record.apply g').stream s) := by
    intro l
    induction l with
    | nil => exact fun g' _ hlag' _ => ⟨hlag', fun _ _ => rfl, nofun⟩
    | cons s l ih =>
      intro g' hnodup hlag' hnew
      obtain ⟨hnot, hnodup⟩ := nodup_cons.1 hnodup
      have hblock := fun t => foldl_block hlag' (hsound s) (hnew s mem_cons_self) t
      rw [flatMap_cons, foldl_append]
      obtain ⟨h₁, h₂, h₃⟩ := ih ((block g s).foldl Record.apply g') hnodup (hblock s).1 fun t ht => by
        rw [(hblock t).2.1 fun heq => hnot (heq ▸ ht)]
        exact hnew t (mem_cons_of_mem _ ht)
      refine ⟨h₁, fun t ht => ?_, fun t ht => ?_⟩
      · rw [mem_cons, not_or] at ht
        rw [h₂ t ht.2, (hblock t).2.1 ht.1]
      · rcases mem_cons.1 ht with rfl | ht
        · rw [h₂ t hnot]
          exact (hblock t).2.2
        · exact h₃ t ht
  have hsnapshot : snapshot order g = (order.order g.streams.keys).flatMap (block g) := by
    rw [snapshot, checkpoints, flatMap_map]
    rfl
  have hkeys := order.perm g.streams.keys
  obtain ⟨h₁, h₂, h₃⟩ := hrun (order.order g.streams.keys) (.withGcLag gcLag)
    (hkeys.nodup_iff.2 g.streams.keys_nodup) rfl fun s _ => rfl
  rw [rebuild, hsnapshot]
  refine ⟨hlag, h₁, fun s => ?_⟩
  by_cases hs : s ∈ order.order g.streams.keys
  · exact h₃ s hs
  · rw [h₂ s hs, Gate.stream, AList.lookup_eq_none.2 fun h => hs (hkeys.mem_iff.2 h)]
    exact StreamState.Coarser.refl StreamState.Sound.new

end Rebuild

/-- How far an admission got when the process died. -/
inductive Fate where
  /-- The record was not synced: some prefix of it is in the file. -/
  | torn (n : ℕ)
  /-- The record was synced; a snapshot, if one was due, was not renamed into place. -/
  | synced
  /-- The snapshot that was due was in place. -/
  | compacted (order : KeyOrder (Arr 16))

/-- What happens to a persistent gate. -/
inductive Event where
  | admitSeq (a : Admission (Arr 16) (Arr 32)) (order : KeyOrder (Arr 16))
  /-- The process dies in an admission and is started again. -/
  | crash (a : Admission (Arr 16) (Arr 32)) (fate : Fate)
  /-- The gate is closed and opened again. -/
  | reopen

section Run

variable (C : Crypto) (gcLag compactEvery : ℕ)

/-- The log a process leaves that dies while it writes a delivered record. -/
def FileOnce.logAfter (f : FileOnce) (a : Admission (Arr 16) (Arr 32)) : Fate → Bytes
  | .torn n => f.log ++ (encodeRecord C (.delivered a.stream a.seq a.key)).take n
  | .synced => (f.append C a).log
  | .compacted order =>
    if compactEvery ≤ (f.append C a).appended then ((f.append C a).compact C order).log
    else (f.append C a).log

/-- The process dies in an admission, and the log is opened again. -/
def FileOnce.crash (f : FileOnce) (a : Admission (Arr 16) (Arr 32)) (fate : Fate) : FileOnce :=
  .open C gcLag (if (machine.step f.once a).2 = .delivered then f.logAfter C compactEvery a fate else f.log)

/-- The runs of a persistent gate; admissions have an answer. -/
def fileMachine : Machine FileOnce Event (Option Disposition) where
  step f
    | .admitSeq a order => ((f.admitSeq C compactEvery order a).1, some (f.admitSeq C compactEvery order a).2)
    | .crash a fate => (f.crash C gcLag compactEvery a fate, none)
    | .reopen => (.open C gcLag f.log, none)

end Run

section Persistence

variable {C : Crypto} {gcLag compactEvery : ℕ} {f : FileOnce}

/-- The log replays to a gate that has at most forgotten keys below the watermark. -/
structure Persistent (C : Crypto) (gcLag : ℕ) (f : FileOnce) : Prop where
  coarser : Gate.Coarser gcLag f.once (rebuild gcLag ((recordCodec C).records f.log))
  bounded : ∀ s, (f.once.stream s).Bounded (2 ^ 64 - 1)

theorem Persistent.sound (h : Persistent C gcLag f) (s : Arr 16) : (f.once.stream s).Sound gcLag :=
  (h.coarser.streams s).sound

variable {log : Bytes}

/-- The records of a log that ends with a whole record, and one more. -/
theorem records_append (htail : (recordCodec C).tail log = []) {r : Record} (hr : r.number < 2 ^ 64) :
    (recordCodec C).records (log ++ encodeRecord C r) = (recordCodec C).records log ++ [r] ∧
      (recordCodec C).tail (log ++ encodeRecord C r) = [] := by
  have h := Codec.records_append (K := recordCodec C) [r] htail
    (fun r' hr' => (mem_singleton.1 hr') ▸ hr) Codec.parse_nil
  rwa [Codec.frames_cons, Codec.frames_nil, append_nil, append_nil] at h

/-- A torn record adds nothing. -/
theorem records_torn (htail : (recordCodec C).tail log = []) {r : Record}
    (hr : r.number < 2 ^ 64) {n : ℕ} (hn : n < (encodeRecord C r).length) :
    (recordCodec C).records (log ++ (encodeRecord C r).take n) = (recordCodec C).records log := by
  have h := Codec.records_append (K := recordCodec C) [] htail nofun
    (Codec.parse_torn (K := recordCodec C) (r := r) hr hn)
  rw [append_nil] at h
  exact h.1

/-- The numbers of a snapshot fit. -/
theorem fits_snapshot (order : KeyOrder (Arr 16)) {g : Gate (Arr 16) (Arr 32)}
    (hsound : ∀ s, (g.stream s).Sound gcLag) (hbounded : ∀ s, (g.stream s).Bounded (2 ^ 64 - 1)) :
    ∀ r ∈ snapshot order g, r.number < 2 ^ 64 := by
  intro r hr
  simp only [snapshot, checkpoints, mem_flatMap, mem_map] at hr
  obtain ⟨-, ⟨s, -, rfl⟩, hr⟩ := hr
  rcases mem_cons.1 hr with rfl | hr
  · have := (hbounded s).low
    simp only [Record.number]
    omega
  · obtain ⟨⟨n, key⟩, hmem, rfl⟩ := mem_map.1 hr
    obtain ⟨hle, hkey⟩ := StreamState.mem_entries.1 hmem
    have := (hbounded s).ahead n (((hsound s).ahead n).2 ⟨hle, by rw [hkey]; rfl⟩)
    simp only [Record.number]
    omega

variable {a : Admission (Arr 16) (Arr 32)}

/-- What a delivered admission appends, the replay delivers too. -/
theorem Persistent.append (h : Persistent C gcLag f)
    (hseq : a.seq < 2 ^ 64 - 1) (htail : (recordCodec C).tail f.log = [])
    (hd : (machine.step f.once a).2 = .delivered) :
    Persistent C gcLag (f.append C a) ∧ (recordCodec C).tail (f.append C a).log = [] := by
  obtain ⟨hrecords, htail'⟩ := records_append htail
    (show (Record.delivered a.stream a.seq a.key).number < 2 ^ 64 by simp only [Record.number]; omega)
  have hbounded (s : Arr 16) : ((machine.step f.once a).1.stream s).Bounded (2 ^ 64 - 1) := by
    rw [stream_step]
    split_ifs
    · rw [h.coarser.lag]
      exact (h.bounded s).admitSeq (h.sound s) hseq _
    · exact h.bounded s
  refine ⟨⟨?_, hbounded⟩, htail'⟩
  have hstep := (h.coarser.step hd).2
  rw [FileOnce.log_append, hrecords, rebuild, foldl_append]
  exact hstep

theorem Persistent.compact (h : Persistent C gcLag f) (order : KeyOrder (Arr 16)) :
    Persistent C gcLag (f.compact C order) ∧ (recordCodec C).tail (f.compact C order).log = [] := by
  obtain ⟨hrecords, htail⟩ := Codec.records_frames (K := recordCodec C) (fits_snapshot order h.sound h.bounded)
    Codec.parse_nil
  rw [append_nil] at hrecords htail
  refine ⟨⟨?_, h.bounded⟩, htail⟩
  rw [FileOnce.log_compact, hrecords]
  exact coarser_rebuild_snapshot order h.coarser.lag h.sound

/-- A gate opened again is the replay of its log. -/
theorem Persistent.open (h : Persistent C gcLag f)
    (hrecords : (recordCodec C).records f.log = (recordCodec C).records log) :
    Persistent C gcLag (.open C gcLag log) ∧ Gate.Coarser gcLag f.once (FileOnce.open C gcLag log).once := by
  have hcoarser := h.coarser
  rw [hrecords] at hcoarser
  refine ⟨⟨hcoarser.refl_right, fun s => ?_⟩, hcoarser⟩
  have hs := hcoarser.streams s
  exact ⟨hs.low.le.trans (h.bounded s).low, fun n hn => (h.bounded s).ahead n (hs.ahead ▸ hn)⟩

theorem persistent_new (C : Crypto) (gcLag : ℕ) : Persistent C gcLag (.open C gcLag []) where
  coarser := ⟨rfl, rfl, fun _ => StreamState.Coarser.refl StreamState.Sound.new⟩
  bounded _ := ⟨Nat.zero_le _, fun n hn => absurd hn (Finset.notMem_empty n)⟩

/-- **An admission is as durable as its answer.** -/
theorem Persistent.admitSeq (h : Persistent C gcLag f) (hseq : a.seq < 2 ^ 64 - 1)
    (htail : (machine.step f.once a).2 = .delivered → (recordCodec C).tail f.log = [])
    (order : KeyOrder (Arr 16)) :
    Persistent C gcLag (f.admitSeq C compactEvery order a).1 ∧
      ((recordCodec C).tail f.log = [] → (recordCodec C).tail (f.admitSeq C compactEvery order a).1.log = []) := by
  unfold FileOnce.admitSeq
  by_cases hd : (machine.step f.once a).2 = .delivered
  · simp only [if_pos (show (f.once.admitSeq a.stream a.seq a.key).2 = .delivered from hd)]
    obtain ⟨hp, htail'⟩ := h.append hseq (htail hd) hd
    split_ifs
    · obtain ⟨hp', htail''⟩ := hp.compact order
      exact ⟨hp', fun _ => htail''⟩
    · exact ⟨hp, fun _ => htail'⟩
  · simp only [if_neg (show ¬ (f.once.admitSeq a.stream a.seq a.key).2 = .delivered from hd)]
    refine ⟨⟨⟨h.coarser.lag, h.coarser.lag', fun s => ?_⟩, fun s => ?_⟩, id⟩
    · change StreamState.Coarser gcLag ((machine.step f.once a).1.stream s) _
      rw [stream_step_of_duplicate hd]
      exact h.coarser.streams s
    · change ((machine.step f.once a).1.stream s).Bounded _
      rw [stream_step_of_duplicate hd]
      exact h.bounded s

theorem once_admitSeq (order : KeyOrder (Arr 16)) (a : Admission (Arr 16) (Arr 32)) :
    (f.admitSeq C compactEvery order a).1.once = (machine.step f.once a).1 ∧
      (f.admitSeq C compactEvery order a).2 = (machine.step f.once a).2 := by
  simp only [FileOnce.admitSeq]
  split_ifs <;> exact ⟨rfl, rfl⟩

/-- The log a crash leaves is one of the gate before the admission or after it. -/
theorem Persistent.crash (h : Persistent C gcLag f) (hseq : a.seq < 2 ^ 64 - 1)
    (htail : (machine.step f.once a).2 = .delivered → (recordCodec C).tail f.log = []) (fate : Fate) :
    ∃ f', Persistent C gcLag f' ∧ (f'.once = f.once ∨ f'.once = (machine.step f.once a).1) ∧
      (recordCodec C).records f'.log = (recordCodec C).records (f.crash C gcLag compactEvery a fate).log := by
  unfold FileOnce.crash
  by_cases hd : (machine.step f.once a).2 = .delivered
  · simp only [if_pos hd, FileOnce.open]
    obtain ⟨hp, -⟩ := h.append hseq (htail hd) hd
    cases fate with
    | torn n =>
      simp only [FileOnce.logAfter]
      by_cases hn : n < (encodeRecord C (.delivered a.stream a.seq a.key)).length
      · refine ⟨f, h, .inl rfl, (records_torn (htail hd) ?_ hn).symm⟩
        simp only [Record.number]
        omega
      · exact ⟨_, hp, .inr rfl, by rw [take_of_length_le (Nat.le_of_not_lt hn)]; rfl⟩
    | synced => exact ⟨_, hp, .inr rfl, rfl⟩
    | compacted order =>
      simp only [FileOnce.logAfter]
      split_ifs
      · exact ⟨_, (hp.compact order).1, .inr rfl, rfl⟩
      · exact ⟨_, hp, .inr rfl, rfl⟩
  · simp only [if_neg hd, FileOnce.open]
    exact ⟨f, h, .inl rfl, rfl⟩

/-- No record is written behind a torn one. -/
def Whole (C : Crypto) (f : FileOnce) : Event → Prop
  | .admitSeq a _ | .crash a _ => a.seq < 2 ^ 64 - 1 ∧
      ((machine.step f.once a).2 = .delivered → (recordCodec C).tail f.log = [])
  | .reopen => True

instance (C : Crypto) (f : FileOnce) : ∀ e, Decidable (Whole C f e)
  | .admitSeq .. | .crash .. => inferInstanceAs (Decidable (_ ∧ _))
  | .reopen => inferInstanceAs (Decidable True)

/-- What is settled stays settled, through admissions, crashes and reopens. -/
theorem step_settled (h : Persistent C gcLag f) {e : Event} (hok : Whole C f e) :
    Persistent C gcLag ((fileMachine C gcLag compactEvery).step f e).1 ∧ ∀ s n, (f.once.stream s).Settled n →
        (((fileMachine C gcLag compactEvery).step f e).1.once.stream s).Settled n := by
  have hstep : ∀ a : Admission (Arr 16) (Arr 32), ∀ s n, (f.once.stream s).Settled n →
      ((machine.step f.once a).1.stream s).Settled n := by
    intro a s n hn
    rw [stream_step]
    split_ifs
    · rw [h.coarser.lag]
      exact hn.admitSeq (h.sound s) _ _
    · exact hn
  cases e with
  | admitSeq a order =>
    refine ⟨(h.admitSeq hok.1 hok.2 order).1, fun s n hn => ?_⟩
    change ((FileOnce.admitSeq C compactEvery order f a).1.once.stream s).Settled n
    rw [(once_admitSeq order a).1]
    exact hstep a s n hn
  | crash a fate =>
    obtain ⟨f', hp, honce, hrecords⟩ := h.crash hok.1 hok.2 fate
    obtain ⟨hp', hcoarser⟩ := hp.open hrecords
    refine ⟨hp', fun s n hn => ((hcoarser.streams s).settled_iff n).2 ?_⟩
    rcases honce with honce | honce
    · rwa [honce]
    · rw [honce]
      exact hstep a s n hn
  | reopen =>
    obtain ⟨hp', hcoarser⟩ := h.open rfl
    exact ⟨hp', fun s n hn => ((hcoarser.streams s).settled_iff n).2 hn⟩

/-- **Deliveries survive crashes.**  In every run in which no record is written behind a torn
one, an admission that was answered `Delivered` is a `Duplicate` ever after. -/
theorem deliveries_survive_crashes (C : Crypto) (gcLag compactEvery : ℕ) (events : List Event)
    (hok : (fileMachine C gcLag compactEvery).Guarded (Whole C) (.open C gcLag []) events)
    (a : Admission (Arr 16) (Arr 32)) (order order' : KeyOrder (Arr 16))
    (ha : (.admitSeq a order, some .delivered) ∈ (fileMachine C gcLag compactEvery).trace (.open C gcLag []) events) :
    (((fileMachine C gcLag compactEvery).final (.open C gcLag []) events).admitSeq C compactEvery order' a).2 =
      .duplicate := by
  have hinv := (fileMachine C gcLag compactEvery).invariant_of_step (Whole C)
    (fun h f => Persistent C gcLag f ∧ ∀ a order, (Event.admitSeq a order, some Disposition.delivered) ∈ h →
      (f.once.stream a.stream).Settled a.seq) ?_ (.open C gcLag []) events [] hok
    ⟨persistent_new C gcLag, nofun⟩
  · obtain ⟨hp, hsettled⟩ := hinv
    have hs := hsettled a order ha
    rw [(once_admitSeq order' a).2, answer_step, StreamState.admitSeq_eq, if_pos]
    exact hs.imp_right .inr
  · rintro h f e hwhole ⟨hp, hsettled⟩
    obtain ⟨hp', hkeep⟩ := step_settled hp hwhole
    refine ⟨hp', fun a order hmem => ?_⟩
    rcases mem_append.1 hmem with hmem | hmem
    · exact hkeep _ _ (hsettled a order hmem)
    · obtain ⟨rfl, hd⟩ := mk.inj (mem_singleton.1 hmem)
      have hd : (machine.step f.once a).2 = .delivered := by
        rw [← (once_admitSeq order a).2]
        exact (Option.some.inj hd).symm
      change ((FileOnce.admitSeq C compactEvery order f a).1.once.stream a.stream).Settled a.seq
      rw [(once_admitSeq order a).1, stream_step, if_pos rfl, hp.coarser.lag]
      refine StreamState.settled_admitSeq (hp.sound _) fun hseen => absurd hd ?_
      have hrep : (f.once.stream a.stream).Repeats a.seq a.key := .inr (.inl hseen)
      rw [answer_step, StreamState.admitSeq_eq, if_pos hrep]
      exact Disposition.noConfusion

/-- The order in which the keys stand in the map. -/
def inOrder : KeyOrder (Arr 16) := ⟨id, Perm.refl⟩

/-- A crash that tears a record, with nothing written behind it, and one that does not. -/
theorem deliveries_survive_crashes_torn :
    let first : Admission (Arr 16) (Arr 32) := ⟨Arr.zero 16, 0, fit 32 [1]⟩
    let second : Admission (Arr 16) (Arr 32) := ⟨Arr.zero 16, 1, fit 32 [2]⟩
    let events : List Event := [.admitSeq first inOrder, .crash second .synced, .admitSeq second inOrder,
      .crash ⟨Arr.zero 16, 2, fit 32 [3]⟩ (.torn 5)]
    (((fileMachine transparent 1024 8).final (.open transparent 1024 []) events).admitSeq
      transparent 8 inOrder first).2 = .duplicate := by
  intro first second events
  have hanswer : ((FileOnce.open transparent 1024 []).admitSeq transparent 8 inOrder first).2 =
      .delivered := by decide +kernel
  refine deliveries_survive_crashes transparent 1024 8 events (by decide +kernel) first inOrder inOrder ?_
  exact mem_cons.2 (.inl (Prod.ext rfl (congrArg some hanswer.symm)))

/-- **A delivery behind a torn record is forgotten.**  The first admission is torn by a crash;
the second is delivered, and delivered again after the next reopen. -/
theorem delivery_behind_torn_record_forgotten :
    let a : Admission (Arr 16) (Arr 32) := ⟨Arr.zero 16, 0, fit 32 [1]⟩
    ((fileMachine transparent defaultGcLag defaultCompactEvery).trace (.open transparent defaultGcLag [])
        [.crash a (.torn 5), .admitSeq a inOrder, .reopen, .admitSeq a inOrder]).map snd =
      [none, some .delivered, none, some .delivered] := by
  decide +kernel

end Persistence

section Alike

variable {C : Crypto} {gcLag compactEvery : ℕ} {f : FileOnce}

/-- A number from the watermark on does not come with the key of a number below it. -/
def Apart (g : Gate (Arr 16) (Arr 32)) (a : Admission (Arr 16) (Arr 32)) : Prop :=
  a.seq < 2 ^ 64 - 1 ∧ ((g.stream a.stream).lowWatermark ≤ a.seq →
    ∀ n < (g.stream a.stream).lowWatermark, (g.stream a.stream).deliveredKeys.lookup n ≠ some a.key)

instance (g : Gate (Arr 16) (Arr 32)) (a : Admission (Arr 16) (Arr 32)) : Decidable (Apart g a) :=
  inferInstanceAs (Decidable (_ ∧ _))

variable {g g' : Gate (Arr 16) (Arr 32)} {a : Admission (Arr 16) (Arr 32)}

/-- What a coarser gate has forgotten is not asked for. -/
theorem repeats_coarser (h : Gate.Coarser gcLag g g') (hok : Apart g a) :
    (g'.stream a.stream).Repeats a.seq a.key ↔ (g.stream a.stream).Repeats a.seq a.key := by
  have hs := h.streams a.stream
  refine ⟨hs.repeats_of_repeats, fun hrep => ?_⟩
  by_cases hlow : a.seq < (g.stream a.stream).lowWatermark
  · exact .inl (hs.low ▸ hlow)
  have hlow := Nat.le_of_not_lt hlow
  rcases hrep with hlt | hseen | hsome
  · omega
  · obtain ⟨n, hn⟩ := (hs.sound.seen a.key).1 hseen
    have hle : (g.stream a.stream).lowWatermark ≤ n := by
      by_contra hlt
      exact hok.2 hlow n (Nat.lt_of_not_le hlt) hn
    exact .inr (.inl ((hs.sound'.seen a.key).2 ⟨n, (hs.above n hle).trans hn⟩))
  · exact .inr (.inr (by rwa [hs.above a.seq hlow]))

theorem Gate.Coarser.step_alike (h : Gate.Coarser gcLag g g') (hok : Apart g a) :
    (machine.step g' a).2 = (machine.step g a).2 ∧ Gate.Coarser gcLag (machine.step g a).1 (machine.step g' a).1 := by
  by_cases hd : (machine.step g a).2 = .delivered
  · obtain ⟨hd', hnext⟩ := h.step hd
    exact ⟨hd'.trans hd.symm, hnext⟩
  · have hanswer : (machine.step g' a).2 = (machine.step g a).2 := by
      simp only [answer_step, StreamState.admitSeq_eq, repeats_coarser h hok]
      split_ifs
      · rfl
      · rfl
    refine ⟨hanswer, h.lag, h.lag', fun s => ?_⟩
    rw [stream_step_of_duplicate hd, stream_step_of_duplicate (hanswer ▸ hd)]
    exact h.streams s

/-- **Coarser gates answer alike** as long as forgotten keys do not come back. -/
theorem Gate.Coarser.answers_alike (h : Gate.Coarser gcLag g g')
    {later : List (Admission (Arr 16) (Arr 32))} (hok : machine.Guarded Apart g later) :
    (machine.trace g' later).map snd = (machine.trace g later).map snd := by
  induction later generalizing g g' with
  | nil => rfl
  | cons a later ih =>
    obtain ⟨hanswer, hnext⟩ := h.step_alike hok.1
    rw [Machine.trace_cons, Machine.trace_cons, map_cons, map_cons, hanswer, ih hnext hok.2]

/-- The admission of an event that has an answer. -/
def Event.presented : Event → Option (Admission (Arr 16) (Arr 32))
  | .admitSeq a _ => some a
  | .crash .. | .reopen => none

/-- The process does not die. -/
def Event.Clean : Event → Prop
  | .admitSeq .. | .reopen => True
  | .crash .. => False

instance : ∀ e : Event, Decidable e.Clean
  | .admitSeq .. | .reopen => inferInstanceAs (Decidable True)
  | .crash .. => inferInstanceAs (Decidable False)

/-- The file gate is coarser than the gate in memory, and its log is whole. -/
theorem clean_run {g : Gate (Arr 16) (Arr 32)} (hcoarser : Gate.Coarser gcLag g f.once)
    (h : Persistent C gcLag f) (htail : (recordCodec C).tail f.log = []) {events : List Event}
    (hclean : ∀ e ∈ events, e.Clean) (hok : machine.Guarded Apart g (events.filterMap Event.presented)) :
    ((fileMachine C gcLag compactEvery).trace f events).filterMap snd =
      (machine.trace g (events.filterMap Event.presented)).map snd := by
  induction events generalizing g f with
  | nil => rfl
  | cons e events ih =>
    have hrest : ∀ e ∈ events, e.Clean := fun e he => hclean e (mem_cons_of_mem _ he)
    rw [Machine.trace_cons]
    cases e with
    | admitSeq a order =>
      obtain ⟨honce, hanswer⟩ : (f.admitSeq C compactEvery order a).1.once = (machine.step f.once a).1 ∧
          (f.admitSeq C compactEvery order a).2 = (machine.step f.once a).2 := once_admitSeq order a
      obtain ⟨hp, htail'⟩ : Persistent C gcLag (f.admitSeq C compactEvery order a).1 ∧ _ :=
        h.admitSeq hok.1.1 (fun _ => htail) order
      obtain ⟨halike, hnext⟩ := hcoarser.step_alike hok.1
      have hfile : (fileMachine C gcLag compactEvery).step f (.admitSeq a order) =
          ((f.admitSeq C compactEvery order a).1, some (f.admitSeq C compactEvery order a).2) := rfl
      have hpresented : (Event.admitSeq a order :: events).filterMap Event.presented =
          a :: events.filterMap Event.presented := rfl
      rw [hfile, hpresented, Machine.trace_cons, map_cons,
        filterMap_cons_some (f := snd) (b := (f.admitSeq C compactEvery order a).2) rfl, hanswer, halike,
        ih (honce ▸ hnext) hp (htail' htail) hrest hok.2]
    | crash a fate => exact (hclean _ mem_cons_self).elim
    | reopen =>
      obtain ⟨hp, hreopened⟩ := h.open rfl
      have hfile : (fileMachine C gcLag compactEvery).step f .reopen = (.open C gcLag f.log, none) := rfl
      exact ih (hcoarser.trans hreopened) hp htail hrest hok

/-- **A gate that is closed and opened again answers like one that never was**, and so does
one that is restored from checkpoints, as long as no key below the watermark comes back under
a number above it. -/
theorem reopened_gate_answers_alike (C : Crypto) (gcLag compactEvery : ℕ) :
    (∀ events : List Event, (∀ e ∈ events, e.Clean) →
      machine.Guarded Apart (.withGcLag gcLag) (events.filterMap Event.presented) →
      ((fileMachine C gcLag compactEvery).trace (.open C gcLag []) events).filterMap snd =
        (machine.trace (.withGcLag gcLag) (events.filterMap Event.presented)).map snd) ∧
    ∀ (calls later : List (Admission (Arr 16) (Arr 32))) (order : KeyOrder (Arr 16)),
      machine.Guarded Apart (machine.final (.withGcLag gcLag) calls) later →
      (machine.trace (rebuild gcLag (snapshot order (machine.final (.withGcLag gcLag) calls))) later).map snd =
        (machine.trace (machine.final (.withGcLag gcLag) calls) later).map snd := by
  refine ⟨fun events hclean hok => ?_, fun calls later order hok => ?_⟩
  · exact clean_run (persistent_new C gcLag).coarser (persistent_new C gcLag) rfl hclean hok
  · have hk := kept_final gcLag calls
    exact (coarser_rebuild_snapshot order hk.lag hk.sound).answers_alike hok

/-- A log that is compacted at each record, and a redelivery after a reopen. -/
theorem reopened_gate_answers_alike_compacted :
    let events : List Event := [.admitSeq ⟨Arr.zero 16, 0, fit 32 [1]⟩ inOrder, .reopen,
      .admitSeq ⟨Arr.zero 16, 1, fit 32 [2]⟩ inOrder, .reopen,
      .admitSeq ⟨Arr.zero 16, 0, fit 32 [1]⟩ inOrder]
    ((fileMachine transparent 1024 1).trace (.open transparent 1024 []) events).filterMap
      snd = [.delivered, .delivered, .duplicate] := by
  intro events
  exact ((reopened_gate_answers_alike transparent 1024 1).1 events (by decide +kernel)
    (by decide +kernel)).trans (by decide +kernel)

/-- **A snapshot forgets a key.**  A key that comes back under the next number is a duplicate
for the gate in memory; the gate that was compacted and reopened delivers it, and so does one
restored from the checkpoints. -/
theorem snapshot_forgets_key :
    let key := fit 32 [1]
    let first : Admission (Arr 16) (Arr 32) := ⟨Arr.zero 16, 0, key⟩
    let second : Admission (Arr 16) (Arr 32) := ⟨Arr.zero 16, 1, key⟩
    let memory := (machine.step (.withGcLag defaultGcLag) first).1
    (machine.step memory second).2 = .duplicate ∧
      ((fileMachine transparent defaultGcLag 1).trace (.open transparent defaultGcLag [])
          [.admitSeq first inOrder, .reopen, .admitSeq second inOrder]).filterMap snd =
        [.delivered, .delivered] ∧
      (machine.step (rebuild defaultGcLag (snapshot inOrder memory)) second).2 = .delivered := by
  decide +kernel

end Alike

end Datarail.Once
