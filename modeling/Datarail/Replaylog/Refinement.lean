/-
# A replay log is a list of records

`archive` is what a `ReplayLog` is for: a list of records with their offsets, to which records are
added and from whose end they are taken.  It knows nothing of segments, and the size of a segment,
which a log is given each time it is opened, is nothing to it.

`logMachine` is the log over time, on a disk that does not fail.  It answers like the archive, and the
log holds the archive's records in some groups (`Represents`, `archive_simulates`).  A reader that is
made at the offset of a record yields that record and all behind it, and then nothing, however its reads
are cut and whatever is written to the log meanwhile (`replay_refines`).
-/

import Datarail.Lib.Run
import Datarail.Replaylog.Spaced

namespace Datarail.Replaylog

open Lib List Codec Nat ReplayLog

/-- What happens to a log. -/
inductive LogOp where
  | append (record : Bytes)
  | sync
  | truncateTo (offset : ℕ)
  /-- The log is closed, and opened with segments of a size. -/
  | reopen (segmentBytes : ℕ)
  deriving DecidableEq, Repr

/-- What an operation answers: the offset of a record, nothing, or an error. -/
abbrev LogReply := Except ReplayError (Option ℕ)

/-- A log over time. -/
def logMachine : Machine ReplayLog LogOp LogReply where
  step l
    | .append record => ((l.append .none record).1, (l.append .none record).2.map some)
    | .sync => ((l.sync .none).1, (l.sync .none).2.map fun _ => none)
    | .truncateTo offset => ((l.truncateTo offset).1, (l.truncateTo offset).2.map fun _ => none)
    | .reopen segmentBytes => (ReplayLog.open l.files segmentBytes, .ok none)

/-- A log in a new directory, after some operations. -/
def logAfter (segmentBytes : ℕ) (ops : List LogOp) : ReplayLog :=
  logMachine.final (ReplayLog.open Files.empty segmentBytes) ops

section Archive

/-- The offset behind the last record. -/
def endOf (s : List (ℕ × Bytes)) : ℕ := (s.getLast?.map fun e => e.1 + (wire.frame e.2).length).getD 0

/-- Records with their offsets, over time. -/
def archive : Machine (List (ℕ × Bytes)) LogOp LogReply where
  step s
    | .append record =>
      if maxRecord < record.length then (s, .error (.tooLarge record.length))
      else (s ++ [(endOf s, record)], .ok (some (endOf s)))
    | .sync => (s, .ok none)
    | .truncateTo offset =>
      if offset = endOf s ∨ offset ∈ s.map Prod.fst then (s.filter fun e => decide (e.1 < offset), .ok none)
      else (s, .error (.badOffset offset))
    | .reopen _ => (s, .ok none)

/-- The archive after some operations. -/
def archiveAfter (ops : List LogOp) : List (ℕ × Bytes) := archive.final [] ops

theorem endOf_entries (records : List Bytes) : endOf (wire.entries 0 records) = wire.size records := by
  rcases eq_nil_or_concat records with rfl | ⟨rs, r, rfl⟩
  · rfl
  · rw [concat_eq_append, entries_append, endOf, zero_add, entries, entries,
      getLast?_concat, size_append, size_cons, size_nil, add_zero]
    rfl

end Archive

section Truncation

variable {done todo : List Bytes}

/-- The scan that looks for the start of a record. -/
theorem isFrameBoundary_eq {before tail : Bytes} {x : Bytes} {target fuel : ℕ}
    (hfits : ∀ r ∈ done ++ x :: todo, wire.Fits r) (hlow : before.length + wire.size done ≤ target)
    (hhigh : target < before.length + wire.size done + (wire.frame x).length) (hfuel : done.length < fuel) :
    isFrameBoundary (before ++ (wire.frames (done ++ x :: todo) ++ tail)) target fuel before.length =
      decide (target = before.length + wire.size done) := by
  induction done generalizing before fuel with
  | nil =>
    rw [size_nil, add_zero] at hlow hhigh ⊢
    rw [nil_append] at hfits ⊢
    cases fuel with
    | zero => omega
    | succ fuel =>
      have hx := hfits x mem_cons_self
      obtain ⟨h₁, hlen, -, h₃, -, -, -⟩ := parse_some (parse_frame hx (wire.frames todo ++ tail))
      have hframe := length_frame x
      have hall : (before ++ (wire.frame x ++ (wire.frames todo ++ tail))).length =
          before.length + (wire.frame x ++ (wire.frames todo ++ tail)).length := length_append
      rw [isFrameBoundary, frames_cons, append_assoc]
      simp only [drop_left, hlen, hall]
      by_cases hat : target ≤ before.length
      · have heq : target = before.length := by omega
        rw [if_pos hat, heq, decide_eq_true rfl]
        exact beq_self_eq_true _
      · rw [if_neg hat, if_neg (by omega), if_pos (.inl (by omega)), decide_eq_false (by omega)]
  | cons r done ih =>
    cases fuel with
    | zero => omega
    | succ fuel =>
      have hr := hfits r mem_cons_self
      rw [size_cons] at hlow hhigh ⊢
      obtain ⟨h₁, hlen, -, h₃, h₄, -, -⟩ :=
        parse_some (parse_frame hr (wire.frames (done ++ x :: todo) ++ tail))
      have hframe := length_frame r
      have hnext := @ih (before ++ wire.frame r) fuel (fun y hy => hfits y (mem_cons_of_mem _ hy))
        (by rw [length_append]; omega) (by rw [length_append]; omega) (lt_of_succ_lt_succ hfuel)
      rw [length_append, append_assoc] at hnext
      have hall : (before ++ (wire.frame r ++ (wire.frames (done ++ x :: todo) ++ tail))).length =
          before.length + (wire.frame r ++ (wire.frames (done ++ x :: todo) ++ tail)).length := length_append
      rw [isFrameBoundary, cons_append, frames_cons, append_assoc]
      simp only [drop_left, hlen, hall]
      rw [if_neg (by omega), if_neg (by omega), if_neg (by omega), if_neg (not_ne_iff.2 h₄),
        show before.length + 4 + r.length + 4 = before.length + (wire.frame r).length by omega, hnext,
        add_assoc]

variable {l : ReplayLog} {full : List (List Bytes)} {last : List Bytes} {before after : List (List Bytes)}

/-- Where `truncate_to` finds an offset. -/
theorem Holds.target (h : Holds l full last []) {g : List Bytes}
    (hsplit : full ++ [last] = before ++ g :: after) (stop : ℕ) (hlow : wire.size before.flatten ≤ stop)
    (hhigh : stop < wire.size before.flatten + wire.size g) :
    stop < l.writeOffset ∧ (l.files.segmentStarts.takeWhile fun s => decide (s ≤ stop)).length - 1 = before.length ∧
      l.files.segments.lookup (wire.size before.flatten) = some (wire.frames g) := by
  refine ⟨?_, h.layout.segment_index hsplit hlow (.inr hhigh), ?_⟩
  · rw [h.end_eq, hsplit, flatten_append, flatten_cons, size_append, size_append]
    omega
  · rw [h.layout.lookup_group hsplit]
    cases after <;> exact congrArg some (append_nil _)

/-- **`truncate_to` goes back to the start of a record**, and refuses any other place. -/
theorem Holds.truncateTo (h : Holds l full last [])
    {x : Bytes} (hsplit : full ++ [last] = before ++ (done ++ x :: todo) :: after) {stop : ℕ}
    (hlow : wire.size before.flatten + wire.size done ≤ stop)
    (hhigh : stop < wire.size before.flatten + wire.size done + (wire.frame x).length) :
    if stop = wire.size before.flatten + wire.size done then
      ∃ l', l.truncateTo stop = (l', .ok ()) ∧ Holds l' before done []
    else l.truncateTo stop = (l, .error (.badOffset stop)) := by
  obtain ⟨hend, hindex, hlookup⟩ := h.target hsplit stop (by omega) (by rw [size_append, size_cons]; omega)
  have hstart := h.layout.getElem?_segmentStarts hsplit
  have htarget : l.files.segmentStarts[(l.files.segmentStarts.takeWhile fun s =>
      decide (s ≤ stop)).length - 1]?.getD 0 = wire.size before.flatten := by
    rw [hindex, hstart, Option.getD_some]
  have hfound : l.files.segments.lookup (l.files.segmentStarts[(l.files.segmentStarts.takeWhile fun s =>
      decide (s ≤ stop)).length - 1]?.getD 0) = some (wire.frames (done ++ x :: todo)) := by
    rw [htarget]
    exact hlookup
  have hfits : ∀ r ∈ done ++ x :: todo, wire.Fits r := fun r hr =>
    h.layout.fits_group (hsplit ▸ mem_append_right _ mem_cons_self) hr
  have hdone : done.length ≤ wire.size done := length_le_frames done
  have hboundary := @isFrameBoundary_eq done todo [] [] x (stop - wire.size before.flatten)
    (stop - wire.size before.flatten + 1) hfits (by rw [length_nil]; omega) (by rw [length_nil]; omega)
    (by omega)
  rw [append_nil, nil_append, length_nil, zero_add] at hboundary
  have hsize : (wire.frames (done ++ x :: todo)).length = wire.size done + ((wire.frame x).length + wire.size todo) := by
    rw [← size_cons, ← size_append]
    rfl
  split
  · rename_i hat
    have hrel : stop - wire.size before.flatten = wire.size done := by omega
    rw [hrel, decide_eq_true rfl] at hboundary
    have hcut : (wire.frames (done ++ x :: todo)).take (wire.size done) = wire.frames done := by
      rw [frames_append, Codec.size, take_left]
    have hlong : ¬ ((wire.frames (done ++ x :: todo)).length < wire.size done ∨
        isFrameBoundary (wire.frames (done ++ x :: todo)) (wire.size done) (wire.size done + 1) 0 = false) := by
      rw [hboundary]
      simp only [Bool.true_eq_false, or_false]
      omega
    let files : Files := { l.files with
      segments := (retainKeys l.files.segments fun s =>
          decide (s ∉ l.files.segmentStarts.drop (before.length + 1))).insert (wire.size before.flatten)
        (wire.frames done)
      durable := wire.size done }
    refine ⟨{ l with files := files.fsyncDir, activeStart := wire.size before.flatten, writeOffset := stop }, ?_,
      ⟨h.layout.truncated hsplit ?_, rfl, hat, h.segmentBytes⟩⟩
    · simp only [ReplayLog.truncateTo, if_neg (not_lt.2 hend.le), if_neg hend.ne, hfound, hindex, hstart,
        Option.getD_some, hrel, if_neg hlong, hcut, files]
    · change files.segments = _
      simp only [files, h.layout.drop_segmentStarts hsplit]
  · rename_i hne
    rw [decide_eq_false (by omega)] at hboundary
    simp only [ReplayLog.truncateTo, if_neg (not_lt.2 hend.le), if_neg hend.ne, hfound, htarget, hboundary,
      or_true, if_true]

end Truncation

section Simulation

variable {l : ReplayLog} {full : List (List Bytes)} {last : List Bytes} {s : List (ℕ × Bytes)}

/-- A log holds the records of an archive. -/
def Represents (l : ReplayLog) (s : List (ℕ × Bytes)) : Prop :=
  ∃ full last, Holds l full last [] ∧ s = wire.entries 0 (full.flatten ++ last)

/-- An `append` on a disk that does not fail. -/
theorem Holds.append_none (h : Holds l full last []) {record : Bytes} (hlen : ¬ maxRecord < record.length) :
    ∃ l' full' last', l.append .none record = (l', .ok l.writeOffset) ∧ Holds l' full' last' [] ∧
      full'.flatten ++ last' = full.flatten ++ last ++ [record] ∧ Extends full last full' last' := by
  rcases h.append .none record with ⟨l', full', last', happ, -, hrest⟩ | ⟨l', e, full', last', torn, happ, -⟩
  · exact ⟨l', full', last', happ, hrest⟩
  · obtain ⟨_, _, hok⟩ := append_calm (wire_fits.2 (not_lt.1 hlen)) l
    cases hok.symm.trans happ

theorem Represents.endOf (h : Represents l s) : endOf s = l.writeOffset := by
  obtain ⟨full, last, hl, rfl⟩ := h
  rw [endOf_entries, size_append, hl.writeOffset]

theorem Represents.append (h : Represents l s) (record : Bytes) :
    (logMachine.step l (.append record)).2 = (archive.step s (.append record)).2 ∧
      Represents (logMachine.step l (.append record)).1 (archive.step s (.append record)).1 := by
  have hend := h.endOf
  by_cases hlen : maxRecord < record.length
  · have happ : l.append .none record = (l, .error (.tooLarge record.length)) := if_pos hlen
    simp only [logMachine, archive, happ, if_pos hlen]
    exact ⟨rfl, h⟩
  · obtain ⟨full, last, hl, rfl⟩ := h
    obtain ⟨l', full', last', happ, hl', hsame, -⟩ := hl.append_none hlen
    simp only [logMachine, archive, happ, if_neg hlen, hend]
    refine ⟨rfl, full', last', hl', ?_⟩
    rw [hsame, entries_append wire 0 (full.flatten ++ last), hl.writeOffset, size_append, zero_add]
    rfl

theorem mem_starts_iff {before after : List (List Bytes)} {done todo : List Bytes} {x : Bytes} {offset : ℕ}
    (hsplit : full ++ [last] = before ++ (done ++ x :: todo) :: after)
    (hlow : wire.size before.flatten + wire.size done ≤ offset)
    (hhigh : offset < wire.size before.flatten + wire.size done + (wire.frame x).length) :
    offset ∈ (wire.entries 0 (full.flatten ++ last)).map Prod.fst ↔
      offset = wire.size before.flatten + wire.size done := by
  rw [map_fst_entries, records_of_split hsplit, cons_append, mem_offsets_iff, size_append] <;> rw [size_append]
  · exact hlow
  · exact hhigh

theorem Represents.truncateTo (h : Represents l s) (offset : ℕ) :
    (logMachine.step l (.truncateTo offset)).2 = (archive.step s (.truncateTo offset)).2 ∧
      Represents (logMachine.step l (.truncateTo offset)).1 (archive.step s (.truncateTo offset)).1 := by
  have hend := h.endOf
  obtain ⟨full, last, hl, rfl⟩ := h
  have hsize := hl.end_eq
  rcases lt_trichotomy offset l.writeOffset with hlt | rfl | hgt
  · rw [hsize] at hlt
    obtain ⟨before, done, x, todo, after, hsplit, hlow, hhigh⟩ := exists_group_at hlt
    have hrecords := records_of_split hsplit
    have hmem := mem_starts_iff hsplit hlow hhigh
    have hne : offset ≠ l.writeOffset := by omega
    have hstep := hl.truncateTo hsplit hlow hhigh
    by_cases hat : offset = wire.size before.flatten + wire.size done
    · rw [if_pos hat] at hstep
      obtain ⟨l', htrunc, hl'⟩ := hstep
      simp only [logMachine, archive, htrunc, if_pos (.inr (hmem.2 hat) : offset = Replaylog.endOf _ ∨ _)]
      refine ⟨rfl, before, done, hl', ?_⟩
      have hfilter := filter_entries (K := wire) 0 (before.flatten ++ done) (x :: todo ++ after.flatten)
      rwa [size_append, zero_add, ← hrecords, ← hat] at hfilter
    · rw [if_neg hat] at hstep
      have hrefused : ¬ (offset = Replaylog.endOf (wire.entries 0 (full.flatten ++ last)) ∨
          offset ∈ (wire.entries 0 (full.flatten ++ last)).map Prod.fst) := by
        rw [hmem, hend]
        exact not_or.2 ⟨hne, hat⟩
      simp only [logMachine, archive, hstep, if_neg hrefused]
      exact ⟨rfl, full, last, hl, rfl⟩
  · have htrunc : l.truncateTo l.writeOffset = (l, .ok ()) := by
      rw [truncateTo, if_neg (lt_irrefl _), if_pos rfl]
    simp only [logMachine, archive, htrunc, hend, true_or, if_true]
    refine ⟨rfl, full, last, hl, ?_⟩
    have hfilter := filter_entries (K := wire) 0 (full.flatten ++ last) []
    rwa [append_nil, zero_add, size_append, ← hl.writeOffset] at hfilter
  · have htrunc : l.truncateTo offset = (l, .error (.badOffset offset)) := if_pos hgt
    have hrefused : ¬ (offset = Replaylog.endOf (wire.entries 0 (full.flatten ++ last)) ∨
        offset ∈ (wire.entries 0 (full.flatten ++ last)).map Prod.fst) := by
      rintro (heq | hmem)
      · omega
      · obtain ⟨e, he, rfl⟩ := mem_map.1 hmem
        have := (mem_entries he).2
        rw [← flatten_concat] at this
        omega
    simp only [logMachine, archive, htrunc, if_neg hrefused]
    exact ⟨rfl, full, last, hl, rfl⟩

/-- **The log answers like the archive.** -/
theorem archive_simulates (h : Represents l s) (ops : List LogOp) :
    logMachine.trace l ops = archive.trace s ops ∧ Represents (logMachine.final l ops) (archive.final s ops) := by
  refine logMachine.simulation archive Represents (fun l s op h => ?_) h ops
  cases op with
  | append record => exact h.append record
  | truncateTo offset => exact h.truncateTo offset
  | sync =>
    obtain ⟨full, last, hl, rfl⟩ := h
    exact ⟨rfl, full, last, hl.of_segments rfl rfl rfl rfl, rfl⟩
  | reopen segmentBytes =>
    obtain ⟨full, last, hl, rfl⟩ := h
    exact ⟨rfl, full, last, holds_open hl.layout segmentBytes, rfl⟩

theorem represents_new (segmentBytes : ℕ) : Represents (ReplayLog.open Files.empty segmentBytes) [] :=
  ⟨[], [], holds_open_empty segmentBytes, rfl⟩

end Simulation

section Later

variable {l : ReplayLog} {full : List (List Bytes)} {last : List Bytes}

/-- A log in the middle of an `append`: some bytes of the frame are written. -/
def ReplayLog.writing (l : ReplayLog) : Option (Bytes × ℕ) → ReplayLog
  | none => l
  | some (record, n) => (l.append (.torn n) record).1

/-- What may be on disk at a time after a log was as it is: it has grown, and a record may be half written. -/
def Later (l : ReplayLog) (segments : AList fun _ : ℕ => Bytes) : Prop :=
  ∃ (ops : List LogOp) (half : Option (Bytes × ℕ)), (∀ op ∈ ops, ∀ offset, op ≠ .truncateTo offset) ∧
    segments = ((logMachine.final l ops).writing half).files.segments

/-- A log only grows while it is not truncated. -/
theorem Holds.grown (h : Holds l full last []) {ops : List LogOp} (hops : ∀ op ∈ ops, ∀ offset, op ≠ .truncateTo offset) :
    ∃ full' last', Holds (logMachine.final l ops) full' last' [] ∧ Extends full last full' last' := by
  induction ops generalizing l full last with
  | nil => exact ⟨full, last, h, .refl full last⟩
  | cons op ops ih =>
    obtain ⟨full₁, last₁, h₁, hext₁⟩ : ∃ full₁ last₁, Holds (logMachine.step l op).1 full₁ last₁ [] ∧
        Extends full last full₁ last₁ := by
      cases op with
      | append record =>
        by_cases hlen : maxRecord < record.length
        · have happ : l.append .none record = (l, .error (.tooLarge record.length)) := if_pos hlen
          refine ⟨full, last, ?_, .refl full last⟩
          simp only [logMachine, happ]
          exact h
        · obtain ⟨l', full', last', happ, hl', -, hext⟩ := h.append_none hlen
          refine ⟨full', last', ?_, hext⟩
          simp only [logMachine, happ]
          exact hl'
      | sync => exact ⟨full, last, h.of_segments rfl rfl rfl rfl, .refl full last⟩
      | truncateTo offset => exact absurd rfl (hops _ mem_cons_self offset)
      | reopen segmentBytes => exact ⟨full, last, holds_open h.layout segmentBytes, .refl full last⟩
    obtain ⟨full', last', h', hext'⟩ := ih h₁ fun op hop => hops op (mem_cons_of_mem _ hop)
    exact ⟨full', last', h', hext₁.trans hext'⟩

/-- What was there stays there. -/
theorem Layout.of_extends {f : Files} {full' : List (List Bytes)} {last' : List Bytes} {torn : Bytes}
    (h : Layout f full' last' torn) (hext : Extends full last full' last') :
    (∀ e ∈ wire.pack 0 full, f.segments.lookup e.1 = some (wire.frames e.2)) ∧
      ∃ more, f.segments.lookup (sizeOf full) = some (wire.frames last ++ more) := by
  rcases hext with ⟨rfl, more, rfl⟩ | ⟨g, rest, rfl, more, rfl⟩
  · refine ⟨h.complete, wire.frames more ++ torn, ?_⟩
    rw [h.active, frames_append, append_assoc]
  · have hpack : wire.pack 0 (full ++ (last ++ more) :: rest) = wire.pack 0 full ++ (sizeOf full, last ++ more) ::
        wire.pack (sizeOf full + wire.size (last ++ more)) rest := by
      rw [pack_append, zero_add]
      rfl
    refine ⟨fun e he => h.complete e ?_, wire.frames more, ?_⟩
    · rw [hpack]
      exact mem_append_left _ he
    · rw [h.complete (sizeOf full, last ++ more) (by rw [hpack]; exact mem_append_right _ mem_cons_self), frames_append]

theorem Holds.later (h : Holds l full last []) {segments : AList fun _ : ℕ => Bytes} (hlater : Later l segments) :
    (∀ e ∈ wire.pack 0 full, segments.lookup e.1 = some (wire.frames e.2)) ∧
      ∃ more, segments.lookup (sizeOf full) = some (wire.frames last ++ more) := by
  obtain ⟨ops, half, hops, rfl⟩ := hlater
  obtain ⟨full₁, last₁, h₁, hext₁⟩ := h.grown hops
  cases half with
  | none => exact h₁.layout.of_extends hext₁
  | some w =>
    rcases h₁.append (.torn w.2) w.1 with ⟨l', full', last', happ, -, h', -, hext⟩ |
      ⟨l', e, full', last', torn, happ, h', -, -, hext⟩
    · change _ ∧ ∃ more, ((logMachine.final l ops).append (.torn w.2) w.1).1.files.segments.lookup _ = _
      simp only [writing, happ]
      exact h'.layout.of_extends (hext₁.trans hext)
    · change _ ∧ ∃ more, ((logMachine.final l ops).append (.torn w.2) w.1).1.files.segments.lookup _ = _
      simp only [writing, happ]
      exact h'.layout.of_extends (hext₁.trans hext)

/-- A reader that is made at the offset of a record yields all from there on. -/
theorem Represents.yields {s : List (ℕ × Bytes)} (h : Represents l s) {i offset : ℕ} {record : Bytes}
    (hi : s[i]? = some (offset, record)) {view : View} (hview : ∀ k, Later l (view k).segments) :
    ∃ r, l.replayFrom view offset = .ok r ∧ Yields view r (s.drop i) := by
  obtain ⟨full, last, hl, rfl⟩ := h
  have hlt := (List.getElem?_eq_some_iff.1 hi).1
  rw [length_entries, ← flatten_concat] at hlt
  obtain ⟨before, g, after, done, x, todo, hsplit, rfl, rfl⟩ := exists_group hlt
  have hrecords := records_of_split hsplit
  have hdrop : (wire.entries 0 (full.flatten ++ last)).drop (before.flatten.length + done.length) =
      wire.entries (wire.size before.flatten + wire.size done) (x :: todo ++ after.flatten) := by
    rw [hrecords, ← length_append, drop_entries, size_append, zero_add]
  have hoffset : offset = wire.size before.flatten + wire.size done := by
    rw [← head?_drop, hdrop] at hi
    exact (Prod.mk.inj (Option.some.inj hi)).1.symm
  have hkeeps : Keeps view 0 full last := by
    refine ⟨fun k => (hl.later (hview k)).1, fun k => ?_⟩
    rw [zero_add]
    exact (hl.later (hview k)).2
  obtain ⟨r, hr, hstream⟩ := hl.replayFrom hkeeps hsplit (.inr (cons_ne_nil x todo))
  refine ⟨r, ?_, ?_⟩
  · rw [hoffset]
    exact hr
  · have hyields := hstream.yields
    rw [leftOver, entries_partsOf] at hyields
    rw [hdrop, entries_append]
    rwa [size_append, ← add_assoc] at hyields

end Later

/-- **A replay log is a list of records.**  After every history it has answered like the archive, and a reader
that is made at the offset of a record yields the records of the archive from there on, with their offsets,
and then nothing: for every size of the segments, however reads are cut, and whatever is written meanwhile. -/
theorem replay_refines (segmentBytes : ℕ) (ops : List LogOp) :
    logMachine.trace (ReplayLog.open Files.empty segmentBytes) ops = archive.trace [] ops ∧
      ∀ (i offset : ℕ) (record : Bytes), (archiveAfter ops)[i]? = some (offset, record) →
        ∀ view : View, (∀ k, Later (logAfter segmentBytes ops) (view k).segments) →
          ∃ r, (logAfter segmentBytes ops).replayFrom view offset = .ok r ∧
            Yields view r ((archiveAfter ops).drop i) := by
  obtain ⟨htrace, hrep⟩ := archive_simulates (represents_new segmentBytes) ops
  exact ⟨htrace, fun i offset record hi view hview => hrep.yields hi hview⟩

/-- Three records, of which the last is taken back. -/
def threeRecords : List LogOp := [.append [1, 2], .append [3], .sync, .append [], .truncateTo 19, .reopen 4096]

/-- A record is appended at once, and a read returns one byte at a time. -/
def byteByByte : View := fun _ => ⟨(logMachine.final (logAfter 0 threeRecords) [.append [7]]).files.segments, refillChunk⟩

/-- A replay from the second record yields it, and not what is appended later. -/
theorem replay_refines_byte_by_byte :
    ∃ r, (logAfter 0 threeRecords).replayFrom byteByByte 10 = .ok r ∧ Yields byteByByte r [(10, [3])] := by
  have hlater : ∀ k, Later (logAfter 0 threeRecords) (byteByByte k).segments := by
    refine fun _ => ⟨[.append [7]], none, fun op hop offset => ?_, by simp only [byteByByte, writing]⟩
    rw [mem_singleton.1 hop]
    exact LogOp.noConfusion
  have hrest : (archiveAfter threeRecords).drop 1 = [(10, [3])] := by decide +kernel
  obtain ⟨r, hr, hyields⟩ := (replay_refines 0 threeRecords).2 1 10 [3] (by decide +kernel) byteByByte hlater
  exact ⟨r, hr, hyields⟩

end Datarail.Replaylog
