/-
# Segments with gaps between them

`Spaced` says what a directory holds segment by segment: whole frames, and bytes behind them that are
no frame, each segment ending where the next one starts or before.  A log as it was written is spaced
(`Layout.spaced`), and it stays so when segments are removed (`Spaced.remove`) and when the bytes of one
are replaced by no more than there were (`Spaced.replace`).  A replay yields what the segments show, past
every gap (`Spaced.replay`).
-/

import Datarail.Replaylog.Cursor

namespace Datarail.Replaylog

open Lib List Codec AList

/-- One segment ends before another one starts. -/
def Part.Before (p q : Part) : Prop := p.start < q.start ∧ p.start + wire.size p.records + p.junk.length ≤ q.start

/-- The segments of a directory, in order. -/
structure Spaced (f : Files) (ps : List Part) : Prop where
  has : f.Has (ps.map Part.start)
  lookup : ∀ p ∈ ps, f.segments.lookup p.start = some (wire.frames p.records ++ p.junk)
  unread : ∀ p ∈ ps, wire.parse p.junk = none
  apart : ps.Pairwise Part.Before
  fits : ∀ p ∈ ps, ∀ x ∈ p.records, wire.Fits x

variable {f f' : Files} {p p' : Part} {ps a b c : List Part} {view : View}

theorem shows_of_apart {stop : ℕ}
    (hlookup : ∀ q ∈ p :: ps, ∀ k, (view k).segments.lookup q.start = some (wire.frames q.records ++ q.junk))
    (hunread : ∀ q ∈ p :: ps, wire.parse q.junk = none) (hapart : (p :: ps).Pairwise Part.Before)
    (hstop : ∀ q, (p :: ps).getLast? = some q → q.start + wire.size q.records = stop) : Shows view stop p ps := by
  induction ps generalizing p with
  | nil => exact ⟨fun k => ⟨p.junk, hlookup p mem_cons_self k⟩, hstop p rfl⟩
  | cons q ps ih =>
    obtain ⟨hnext, hrest⟩ := pairwise_cons.1 hapart
    obtain ⟨hlt, hle⟩ := hnext q mem_cons_self
    exact ⟨hlookup p mem_cons_self, hunread p mem_cons_self, hlt, hle, ih (forall_mem_cons.1 hlookup).2
      (forall_mem_cons.1 hunread).2 hrest hstop⟩

namespace Spaced

theorem segmentStarts (h : Spaced f ps) : f.segmentStarts = ps.map Part.start :=
  h.has.segmentStarts (pairwise_map.2 (h.apart.imp fun hlt => hlt.1))

/-- **A replay goes on behind a gap.** -/
theorem replay {l : ReplayLog} (h : Spaced l.files ps) (hhead : ps.head?.map Part.start = some 0)
    (hstop : ∀ q, ps.getLast? = some q → q.start + wire.size q.records = l.writeOffset)
    (hview : ∀ k, (view k).segments = l.files.segments) :
    ∃ r, l.replayFrom view 0 = .ok r ∧ Yields view r (ps.flatMap Part.entries) := by
  cases ps with
  | nil => cases hhead
  | cons p ps =>
    exact l.replay_all h.segmentStarts (Option.some.inj hhead).symm
      (shows_of_apart (fun q hq k => by rw [hview]; exact h.lookup q hq) h.unread h.apart hstop) h.fits

/-- The bytes of a segment are replaced by no more than there were. -/
theorem replace (h : Spaced f (a ++ p :: c)) (hstart : p'.start = p.start)
    (hsize : wire.size p'.records + p'.junk.length ≤ wire.size p.records + p.junk.length)
    (hunread : wire.parse p'.junk = none) (hfits : ∀ x ∈ p'.records, wire.Fits x)
    (hseg : f'.segments = f.segments.insert p.start (wire.frames p'.records ++ p'.junk)) :
    Spaced f' (a ++ p' :: c) := by
  obtain ⟨ha, hpc, hac⟩ := pairwise_append.1 h.apart
  obtain ⟨hp, hc⟩ := pairwise_cons.1 hpc
  -- what holds of the other segments and of the new one
  have hothers : ∀ {P : Part → Prop}, (∀ q ∈ a ++ p :: c, q.start ≠ p.start → P q) → P p' → ∀ q ∈ a ++ p' :: c, P q := by
    intro P hold hnew
    exact forall_mem_append.2 ⟨fun q hq => hold q (mem_append_left _ hq) (hac q hq p mem_cons_self).1.ne,
      forall_mem_cons.2 ⟨hnew, fun q hq => hold q (mem_append_right _ (mem_cons_of_mem _ hq)) (hp q hq).1.ne'⟩⟩
  refine ⟨fun s => ?_, hothers (fun q hq hne => ?_) ?_, hothers (fun q hq _ => h.unread q hq) hunread,
    pairwise_append.2 ⟨ha, pairwise_cons.2 ⟨fun q hq => ?_, hc⟩, fun q hq => forall_mem_cons.2 ⟨?_, fun q' hq' => ?_⟩⟩,
    hothers (fun q hq _ => h.fits q hq) hfits⟩
  · have hsame : (a ++ p' :: c).map Part.start = (a ++ p :: c).map Part.start := by
      rw [map_append, map_append, map_cons, map_cons, hstart]
    rw [hseg, mem_insert, h.has s, hsame, or_iff_right_iff_imp]
    rintro rfl
    exact mem_map_of_mem (mem_append_right _ mem_cons_self)
  · rw [hseg, lookup_insert_ne hne, h.lookup q hq]
  · rw [hseg, hstart, lookup_insert]
  · obtain ⟨hlt, hle⟩ := hp q hq
    exact ⟨hstart ▸ hlt, by omega⟩
  · obtain ⟨hlt, hle⟩ := hac q hq p mem_cons_self
    exact ⟨hstart ▸ hlt, hstart ▸ hle⟩
  · exact hac q hq q' (mem_cons_of_mem _ hq')

/-- Some segments are removed. -/
theorem remove (h : Spaced f (a ++ b ++ c))
    (hseg : f'.segments = retainKeys f.segments fun s => decide (s ∉ b.map Part.start)) : Spaced f' (a ++ c) := by
  have hsub : a ++ c <+ a ++ b ++ c := (sublist_append_left a b).append_right c
  -- the starts that stay are not among those that go
  have hstay : ∀ q ∈ a ++ c, q.start ∉ b.map Part.start := by
    intro q hq hb
    obtain ⟨q', hq', heq⟩ := mem_map.1 hb
    have hab := pairwise_append.1 h.apart
    rcases mem_append.1 hq with hq | hq
    · exact absurd ((pairwise_append.1 hab.1).2.2 q hq q' hq').1 (by omega)
    · exact absurd (hab.2.2 q' (mem_append_right _ hq') q hq).1 (by omega)
  have hlookup : ∀ q ∈ a ++ c, f'.segments.lookup q.start = some (wire.frames q.records ++ q.junk) := fun q hq => by
    rw [hseg, lookup_retainKeys, if_pos (decide_eq_true (hstay q hq)), h.lookup q (hsub.subset hq)]
  refine ⟨fun s => ⟨fun hs => ?_, fun hs => ?_⟩, hlookup, fun q hq => h.unread q (hsub.subset hq),
    h.apart.sublist hsub, fun q hq => h.fits q (hsub.subset hq)⟩
  · rw [← lookup_isSome, hseg, lookup_retainKeys] at hs
    split at hs
    · rename_i hnot
      have hmem := (h.has s).1 (lookup_isSome.1 hs)
      simp only [map_append, mem_append] at hmem ⊢
      exact hmem.imp_left fun hab => hab.resolve_right (of_decide_eq_true hnot)
    · cases hs
  · obtain ⟨q, hq, rfl⟩ := mem_map.1 hs
    rw [← lookup_isSome, hlookup q hq]
    rfl

/-- `open` finds all of the last segment. -/
theorem opened (h : Spaced f (a ++ [p])) (hjunk : p.junk = []) (segmentBytes : ℕ) :
    Spaced (ReplayLog.open f segmentBytes).files (a ++ [p]) ∧
      (ReplayLog.open f segmentBytes).writeOffset = p.start + wire.size p.records := by
  have hmem : p ∈ a ++ [p] := mem_append_right _ (mem_singleton_self _)
  have hlast : f.segmentStarts.getLast?.getD 0 = p.start := by
    rw [h.segmentStarts, map_append, map_singleton, getLast?_concat]
    rfl
  have hcontent : f.content p.start = wire.frames p.records := by
    rw [Files.content, h.lookup p hmem, hjunk, append_nil]
    rfl
  have hlen := length_le_frames (K := wire) p.records
  have hscan := @scanValidLen_eq [] [] p.records ((wire.frames p.records).length + 1) (h.fits p hmem) parse_nil (by omega)
  rw [nil_append, append_nil, length_nil, Nat.zero_add] at hscan
  refine ⟨h.replace rfl le_rfl (h.unread p hmem) (h.fits p hmem) ?_, ?_⟩
  · simp only [ReplayLog.open, Files.fsyncDir, hlast, hcontent, hscan, hjunk]
    rw [size, take_length, append_nil]
  · simp only [ReplayLog.open, hlast, hcontent, hscan]

/-- A replay of the log that is opened. -/
theorem replay_opened (h : Spaced f ps) (hhead : ps.head?.map Part.start = some 0) (hjunk : ∀ q ∈ ps, q.junk = [])
    {l : ReplayLog} {segmentBytes : ℕ} (hl : l = ReplayLog.open f segmentBytes) :
    ∃ r, l.replayFrom l.files.still 0 = .ok r ∧ Yields l.files.still r (ps.flatMap Part.entries) := by
  subst hl
  rcases eq_nil_or_concat ps with rfl | ⟨a, p, rfl⟩
  · cases hhead
  · rw [concat_eq_append] at *
    obtain ⟨hopened, hend⟩ := h.opened (hjunk p (mem_append_right _ mem_cons_self)) segmentBytes
    refine hopened.replay hhead (fun q hq => ?_) fun _ => rfl
    rw [getLast?_concat] at hq
    cases hq
    exact hend.symm

end Spaced

section Groups

variable {full before after : List (List Bytes)} {last g : List Bytes}

theorem partsOf_append (start : ℕ) (gs gs' : List (List Bytes)) :
    partsOf start (gs ++ gs') = partsOf start gs ++ partsOf (start + wire.size gs.flatten) gs' := by
  rw [partsOf, pack_append, map_append]
  rfl

theorem junk_partsOf {start : ℕ} {gs : List (List Bytes)} {q : Part} (h : q ∈ partsOf start gs) : q.junk = [] := by
  obtain ⟨e, -, rfl⟩ := mem_map.1 h
  rfl

theorem Layout.spaced (h : Layout f full last []) : Spaced f (partsOf 0 (full ++ [last])) := by
  have hstarts : startsOf full = (partsOf 0 (full ++ [last])).map Part.start := by
    rw [map_start_partsOf, ← h.segmentStarts_eq, h.segmentStarts]
  have hsorted := Layout.pairwise_startsOf h.nonempty
  refine ⟨hstarts ▸ h.has, fun q hq => ?_, fun q hq => ?_, ?_, fun q hq x hx => h.fits_group (mem_records_partsOf hq) hx⟩
  · rw [partsOf_append, Nat.zero_add] at hq
    rcases mem_append.1 hq with hq | hq
    · obtain ⟨e, he, rfl⟩ := mem_map.1 hq
      rw [h.complete e he, append_nil]
    · rw [mem_singleton.1 hq]
      exact h.active
  · rw [junk_partsOf hq]
    exact parse_nil
  · rw [hstarts, pairwise_map] at hsorted
    exact hsorted.and (pairwise_map.2 (pairwise_pack_le 0 _))

theorem Layout.of_spaced (hnonempty : ∀ g ∈ full, g ≠ []) (hfits : ∀ r ∈ full.flatten ++ last, wire.Fits r)
    (h : Spaced f (partsOf 0 (full ++ [last]))) : Layout f full last [] := by
  rw [partsOf_append, Nat.zero_add] at h
  refine ⟨hnonempty, hfits, parse_nil, fun s => ?_, fun e he => ?_, ?_⟩
  · rw [h.has s, map_append, map_start_partsOf]
    rfl
  · have := h.lookup _ (mem_append_left _ (mem_map_of_mem he))
    rwa [append_nil] at this
  · exact h.lookup _ (mem_append_right _ mem_cons_self)

/-- The parts of a log of which one group is singled out. -/
theorem partsOf_split (before : List (List Bytes)) (g : List Bytes) (after : List (List Bytes)) :
    partsOf 0 (before ++ g :: after) = partsOf 0 before ++ ⟨wire.size before.flatten, g, []⟩ ::
      partsOf (wire.size before.flatten + wire.size g) after := by
  rw [partsOf_append, Nat.zero_add]
  rfl

/-- The log ends in the middle of a group: later segments are removed, and its own is cut. -/
theorem Layout.truncated {done todo : List Bytes} (h : Layout f full last [])
    (hsplit : full ++ [last] = before ++ (done ++ todo) :: after)
    (hseg : f'.segments = (retainKeys f.segments fun s =>
        decide (s ∉ (wire.pack (wire.size before.flatten + wire.size (done ++ todo)) after).map Prod.fst)).insert
      (sizeOf before) (wire.frames done)) :
    Layout f' before done [] := by
  have hfits : ∀ r ∈ before.flatten ++ done, wire.Fits r := fun r hr =>
    h.fits r (records_of_split hsplit ▸ mem_append_left _ hr)
  have hspaced := h.spaced
  rw [hsplit, partsOf_split, ← singleton_append, ← append_assoc,
    ← append_nil (_ ++ partsOf (wire.size before.flatten + wire.size (done ++ todo)) after)] at hspaced
  have hkept := @Spaced.remove f { f with segments := retainKeys f.segments fun s => decide (s ∉ _) } _ _ _ hspaced rfl
  rw [append_nil, map_start_partsOf] at hkept
  refine .of_spaced (fun g hg => h.nonempty g ?_) hfits ?_
  · rw [full_of_split hsplit]
    exact mem_append_left _ hg
  · rw [partsOf_split]
    refine hkept.replace rfl ?_ parse_nil (fun x hx => hfits x (mem_append_right _ hx)) ?_
    · rw [size_append]
      exact Nat.add_le_add_right (Nat.le_add_right _ _) _
    · rw [hseg, append_nil]

/-- A log ends behind its last segment. -/
theorem Holds.stop_eq {l : ReplayLog} (h : Holds l full last []) (q : Part)
    (hq : (partsOf 0 (full ++ [last])).getLast? = some q) : q.start + wire.size q.records = l.writeOffset := by
  rw [partsOf_split, getLast?_append_of_ne_nil _ (cons_ne_nil _ _)] at hq
  cases hq
  exact h.writeOffset.symm

end Groups

end Datarail.Replaylog
