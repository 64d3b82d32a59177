/-
# A truncation that is cut short

`truncate_to` removes the segments behind its target one by one, the oldest first, and cuts the
target at last.  If the process stops between two removals there is a gap in the log: a replay of
the log that is opened next goes on behind the gap.  `truncation_crash_iff` says for which logs this
cannot happen.
-/

import Datarail.Replaylog.Refinement

namespace Datarail.Replaylog

open Lib List Codec

/-- The directory when `truncate_to` stops after some of its steps on disk. -/
def ReplayLog.truncating (l : ReplayLog) (stop steps : ℕ) : Files :=
  if l.writeOffset ≤ stop then l.files
  else
    let starts := l.files.segmentStarts
    let targetIndex := (starts.takeWhile fun s => decide (s ≤ stop)).length - 1
    let targetStart := starts[targetIndex]?.getD 0
    let later := starts.drop (targetIndex + 1)
    let kept := retainKeys l.files.segments fun s => decide (s ∉ later.take steps)
    if steps ≤ later.length then { l.files with segments := kept }
    else { l.files with segments := kept.insert targetStart ((l.files.content targetStart).take (stop - targetStart)) }

section Crash

variable {l l' : ReplayLog} {full before after : List (List Bytes)} {last done todo : List Bytes} {x : Bytes} {view : View}

/-- **A replay after a crash** in the middle of a truncation: the segments up to the target, and those that were not
removed; or, after the last step, the records before the place. -/
theorem Holds.truncating (h : Holds l full last [])
    (hsplit : full ++ [last] = before ++ (done ++ x :: todo) :: after) (steps : ℕ) {segmentBytes : ℕ}
    (hl : l' = ReplayLog.open (l.truncating (wire.size before.flatten + wire.size done) steps) segmentBytes) :
    ∃ r, l'.replayFrom l'.files.still 0 = .ok r ∧ Yields l'.files.still r
      (if steps ≤ after.length then wire.entries 0 (before.flatten ++ (done ++ x :: todo)) ++
        wire.entries (wire.size before.flatten + wire.size (done ++ x :: todo) + wire.size (after.take steps).flatten)
          (after.drop steps).flatten
      else wire.entries 0 (before.flatten ++ done)) := by
  have hpos := size_pos (K := wire) (cons_ne_nil x todo)
  obtain ⟨hend, hindex, hlookup⟩ := h.target hsplit (wire.size before.flatten + wire.size done) (Nat.le_add_right _ _)
    (by rw [size_append]; omega)
  simp only [ReplayLog.truncating, if_neg (not_le.2 hend), hindex, h.layout.getElem?_segmentStarts hsplit,
    Option.getD_some, h.layout.drop_segmentStarts hsplit, length_map, length_pack] at hl
  split at hl
  · rename_i hsteps
    rw [if_pos hsteps]
    generalize hm : wire.size before.flatten + wire.size (done ++ x :: todo) = m at hl
    have hparts : partsOf m after = partsOf m (after.take steps) ++
        partsOf (m + wire.size (after.take steps).flatten) (after.drop steps) := by
      rw [← partsOf_append, take_append_drop]
    have htake : ((wire.pack m after).map Prod.fst).take steps = (partsOf m (after.take steps)).map Part.start := by
      rw [← map_start_partsOf, hparts, map_append, take_left' (by simp [partsOf]; omega)]
    have hspaced := h.layout.spaced
    rw [hsplit, ← singleton_append, ← append_assoc, partsOf_append, Nat.zero_add, flatten_concat, size_append, hm,
      hparts, ← append_assoc] at hspaced
    have hreplay := (hspaced.remove (by rw [htake])).replay_opened (by cases before <;> rfl)
      (fun q hq => (mem_append.1 hq).elim junk_partsOf junk_partsOf) hl
    rwa [flatMap_append, entries_partsOf, entries_partsOf, flatten_concat] at hreplay
  · rename_i hsteps
    rw [if_neg hsteps]
    have hcut : (wire.frames (done ++ x :: todo)).take (wire.size done) = wire.frames done := by
      rw [frames_append, size, take_left]
    have hreplay := (h.layout.truncated hsplit (by
      rw [Files.content, hlookup, Option.getD_some, Nat.add_sub_cancel_left, hcut,
        take_of_length_le (l := (wire.pack _ after).map Prod.fst) (by rw [length_map, length_pack]; omega)])).spaced.replay_opened
      (by cases before <;> rfl) (fun q => junk_partsOf) hl
    rwa [entries_partsOf, flatten_concat] at hreplay

/-- A replay yields one list. -/
theorem Yields.unique {r : Replay} {out out' : List (ℕ × Bytes)} (h : Yields view r out) (h' : Yields view r out') :
    out = out' := by
  induction out generalizing r out' with
  | nil =>
    obtain ⟨r₁, hr⟩ := h
    cases out' with
    | nil => rfl
    | cons e es =>
      obtain ⟨r₂, hr', -⟩ := h'
      cases hr.symm.trans hr'
  | cons e es ih =>
    obtain ⟨r₁, hr, hrest⟩ := h
    cases out' with
    | nil =>
      obtain ⟨r₂, hr'⟩ := h'
      cases hr.symm.trans hr'
    | cons e' es' =>
      obtain ⟨r₂, hr', hrest'⟩ := h'
      cases hr.symm.trans hr'
      rw [ih hrest hrest']

/-- A replay of the log yields a first part of some records, with all that are below an offset. -/
def ReplayLog.Retains (l : ReplayLog) (s : List (ℕ × Bytes)) (stop : ℕ) : Prop :=
  ∃ r out, l.replayFrom l.files.still 0 = .ok r ∧ Yields l.files.still r out ∧ out <+: s ∧ ∀ e ∈ s, e.1 < stop → e ∈ out

/-- Records behind a gap are not those that were there before it. -/
theorem entries_prefix_iff {m n : ℕ} {g rs : List Bytes} (hg : g ≠ []) (hn : m < n) :
    wire.entries n rs <+: wire.entries m (g ++ rs) ↔ rs = [] := by
  constructor
  · intro h
    cases rs with
    | nil => rfl
    | cons r rs =>
      obtain ⟨y, ys, rfl⟩ := exists_cons_of_ne_nil hg
      have hhead := (cons_prefix_cons.1 h).1
      exact absurd (Prod.mk.inj hhead).1 hn.ne'
  · rintro rfl
    exact nil_prefix

/-- The crash leaves a first part of the records at every step, if there is no segment to be removed before another
one with records. -/
theorem Holds.retains_iff (h : Holds l full last [])
    (hsplit : full ++ [last] = before ++ (done ++ x :: todo) :: after) (segmentBytes : ℕ) :
    (∀ steps, (ReplayLog.open (l.truncating (wire.size before.flatten + wire.size done) steps) segmentBytes).Retains
      (wire.entries 0 (full.flatten ++ last)) (wire.size before.flatten + wire.size done)) ↔
      after.length ≤ 1 ∨ after.length = 2 ∧ last = [] := by
  have hall : wire.entries 0 (full.flatten ++ last) = wire.entries 0 (before.flatten ++ (done ++ x :: todo)) ++
      wire.entries (wire.size before.flatten + wire.size (done ++ x :: todo)) after.flatten := by
    rw [← flatten_concat, hsplit, flatten_append, flatten_cons, ← append_assoc, entries_append, zero_add, size_append]
  have hcut : wire.entries 0 (before.flatten ++ done) <+: wire.entries 0 (before.flatten ++ (done ++ x :: todo)) := by
    rw [← append_assoc, entries_append wire 0 (before.flatten ++ done)]
    exact prefix_append _ _
  have hbelow : ∀ e ∈ wire.entries 0 (full.flatten ++ last), e.1 < wire.size before.flatten + wire.size done →
      e ∈ wire.entries 0 (before.flatten ++ done) := by
    intro e he hlt
    rw [records_of_split hsplit] at he
    rw [← filter_entries (K := wire) 0 (before.flatten ++ done) (x :: todo ++ after.flatten), mem_filter, zero_add,
      size_append]
    exact ⟨he, decide_eq_true hlt⟩
  -- the groups before the last one are not empty
  have hfull := full_of_split hsplit
  constructor
  · intro hretains
    obtain ⟨r, out, hr, hyields, hpre, -⟩ := hretains 1
    obtain ⟨r', hr', hyields'⟩ := h.truncating hsplit 1 (rfl : _ = ReplayLog.open _ segmentBytes)
    cases hr.symm.trans hr'
    rw [hyields.unique hyields'] at hpre
    rcases after with _ | ⟨g, _ | ⟨g', rest⟩⟩
    · exact .inl (Nat.zero_le _)
    · exact .inl le_rfl
    rw [if_pos (by simp), hall, prefix_append_right_inj] at hpre
    have hg : g ≠ [] := h.layout.nonempty g (by rw [hfull]; simp)
    have hpos := size_pos (K := wire) hg
    have hempty : (g' :: rest).flatten = [] := (entries_prefix_iff hg (by simpa using hpos)).1 hpre
    have hg' : g' = [] := (append_eq_nil_iff.1 hempty).1
    cases rest with
    | nil =>
      have hlast : last = g' := by simpa using congrArg getLast? hsplit
      exact .inr ⟨rfl, hlast.trans hg'⟩
    | cons y rest => exact absurd hg' (h.layout.nonempty g' (by rw [hfull]; simp))
  · intro hcond steps
    obtain ⟨r, hr, hyields⟩ := h.truncating hsplit steps (rfl : _ = ReplayLog.open _ segmentBytes)
    refine ⟨r, _, hr, hyields, ?_⟩
    split_ifs with hsteps
    · refine ⟨?_, fun e he hlt => mem_append_left _ (hcut.subset (hbelow e he hlt))⟩
      rw [hall, prefix_append_right_inj]
      cases steps with
      | zero => exact prefix_rfl
      | succ n =>
        have hrest : (after.drop (n + 1)).flatten = [] := by
          rcases hcond with hle | ⟨htwo, rfl⟩
          · rw [drop_of_length_le (by omega), flatten_nil]
          · obtain ⟨g, g', rfl⟩ := length_eq_two.1 htwo
            have hlast : [] = g' := by simpa using congrArg getLast? hsplit
            rw [← hlast]
            cases n <;> simp
        rw [hrest]
        exact nil_prefix
    · exact ⟨hall ▸ hcut.trans (prefix_append _ _), hbelow⟩

/-- **A truncation survives a crash** exactly if at most one segment starts behind the place, or two of which the
newer one has no records.  For every log, every start of a record and every step of the truncation: a replay of the
log that is opened next yields a first part of the records, with all those before the place. -/
theorem truncation_crash_iff (segmentBytes : ℕ) (ops : List LogOp) (stop reopenBytes : ℕ)
    (hstop : stop = endOf (archiveAfter ops) ∨ stop ∈ (archiveAfter ops).map Prod.fst) :
    let l := logAfter segmentBytes ops
    let later := l.files.segmentStarts.filter fun s => decide (stop < s)
    (∀ steps, (ReplayLog.open (l.truncating stop steps) reopenBytes).Retains (archiveAfter ops) stop) ↔
      later.length ≤ 1 ∨ later.length = 2 ∧ l.activeStart = l.writeOffset := by
  intro l later
  have hrep := (archive_simulates (represents_new segmentBytes) ops).2
  have hend := hrep.endOf
  obtain ⟨full, last, hl, hs⟩ := hrep
  change archiveAfter ops = _ at hs
  change Holds l full last [] at hl
  change endOf (archiveAfter ops) = l.writeOffset at hend
  rw [hend] at hstop
  by_cases hlt : stop < l.writeOffset
  · obtain ⟨before, done, x, todo, after, hsplit, hlow, hhigh⟩ := exists_group_at (hl.end_eq ▸ hlt)
    have hat := (mem_starts_iff hsplit hlow hhigh).1 (hs ▸ hstop.resolve_left hlt.ne)
    have hlater : later = (wire.pack (wire.size before.flatten + wire.size (done ++ x :: todo)) after).map Prod.fst := by
      change l.files.segmentStarts.filter _ = _
      rw [hl.layout.starts_split hsplit, filter_append, filter_cons_of_neg (by simp; omega), filter_eq_nil_iff.2 ?_,
        nil_append, filter_eq_self.2 ?_]
      · intro s hmem
        obtain ⟨e, he, rfl⟩ := mem_map.1 hmem
        have := (le_of_mem_pack he).1
        rw [size_append, size_cons] at this
        exact decide_eq_true (by omega)
      · intro s hmem
        obtain ⟨e, he, rfl⟩ := mem_map.1 hmem
        have := (le_of_mem_pack he).2
        simp only [decide_eq_true_eq]
        omega
    have hempty : l.activeStart = l.writeOffset ↔ last = [] := by
      rw [hl.activeStart, hl.writeOffset, ← size_eq_zero (K := wire)]
      omega
    rw [hlater, length_map, length_pack, hempty, hs, hat]
    exact hl.retains_iff hsplit reopenBytes
  · have hnone : later = [] := filter_eq_nil_iff.2 fun s hmem => by
      rw [hl.layout.segmentStarts_eq] at hmem
      obtain ⟨e, he, rfl⟩ := mem_map.1 hmem
      have := hl.end_eq ▸ (le_of_mem_pack he).2
      simp only [decide_eq_true_eq]
      omega
    rw [hnone]
    refine iff_of_true (fun steps => ?_) (.inl (Nat.zero_le _))
    rw [ReplayLog.truncating, if_pos (not_lt.1 hlt)]
    obtain ⟨r, hr, hyields⟩ := hl.layout.spaced.replay_opened (by cases full <;> rfl) (fun q => junk_partsOf)
      (rfl : _ = ReplayLog.open _ reopenBytes)
    rw [entries_partsOf, flatten_concat, ← hs] at hyields
    exact ⟨r, _, hr, hyields, prefix_rfl, fun e he _ => he⟩

/-- Two full segments of empty records, and a third one. -/
def threeSegments : List LogOp := replicate 256 (.append []) ++ [.append [7]]

/-- The third of them is emptied. -/
def emptiedThird : List LogOp := threeSegments ++ [.truncateTo 2048]

/-- A log that is cut in the first of three segments, the last of them empty: two are removed, and a crash behind any
step leaves a log that replays right. -/
theorem truncation_crash_emptied_third :
    (logAfter 0 emptiedThird).files.segmentStarts = [0, 1024, 2048] ∧ ∀ steps,
      (ReplayLog.open ((logAfter 0 emptiedThird).truncating 8 steps) 0).Retains (archiveAfter emptiedThird) 8 := by
  have hstarts : (logAfter 0 emptiedThird).files.segmentStarts = [0, 1024, 2048] := by decide +kernel
  have hempty : (logAfter 0 emptiedThird).activeStart = (logAfter 0 emptiedThird).writeOffset := by decide +kernel
  refine ⟨hstarts, (truncation_crash_iff 0 emptiedThird 8 0 (by decide +kernel)).2 (.inr ⟨?_, hempty⟩)⟩
  rw [hstarts]
  rfl

/-- **A crash leaves a gap.**  The second of three segments is removed when the process stops: the replay has the
last record right behind those of the first segment. -/
theorem crash_leaves_gap :
    let l := ReplayLog.open ((logAfter 0 threeSegments).truncating 0 1) 0
    ∃ r out, l.replayFrom l.files.still 0 = .ok r ∧ Yields l.files.still r out ∧
      out[128]? = some (2048, [7]) ∧ (archiveAfter threeSegments)[128]? = some (1024, []) := by
  have hkeys : ((logAfter 0 threeSegments).truncating 0 1).segments.keys = [2048, 0] := by decide +kernel
  have hspaced : Spaced ((logAfter 0 threeSegments).truncating 0 1)
      [⟨0, replicate 128 [], []⟩, ⟨2048, [[7]], []⟩] := by
    refine ⟨fun s => ?_, by decide +kernel, by decide +kernel, pairwise_pair.2 ⟨by decide, by decide +kernel⟩,
      fun p hp x hx => wire_fits.2 ?_⟩
    · rw [AList.mem_keys, hkeys, mem_pair, or_comm]
      exact mem_pair.symm
    · have hlen : ∀ p ∈ ([⟨0, replicate 128 [], []⟩, ⟨2048, [[7]], []⟩] : List Part), ∀ x ∈ p.records,
          x.length ≤ 1 := by decide +kernel
      exact (hlen p hp x hx).trans (by decide)
  obtain ⟨r, hr, hyields⟩ := hspaced.replay_opened rfl (by decide +kernel) rfl
  exact ⟨r, _, hr, hyields, by decide +kernel, by decide +kernel⟩

end Crash

end Datarail.Replaylog
