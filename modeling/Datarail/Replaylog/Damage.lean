/-
# A damaged segment

The file of a segment that is not the last one is overwritten with anything, no longer than it was.
A checksum that is never wrong lets a frame pass only if it is the one that was appended at its
place (`Detected`), so what a reader finds in the file begins with some of the records that were there
(`records_prefix`), and behind them are bytes that are no frame.  There the reader jumps to
the next segment, and it cannot jump too far, since the bytes end where the segment ended.

So a replay of the whole log yields all records but some of those in the damaged segment
(`replay_past_damage`).
-/

import Datarail.Replaylog.Refinement

namespace Datarail.Replaylog

open Lib List Codec

/-- The file of a segment is overwritten. -/
def ReplayLog.damage (l : ReplayLog) (start : ℕ) (bytes : Bytes) : ReplayLog :=
  { l with files := { l.files with segments := l.files.segments.insert start bytes } }

/-- Whatever passes for a frame in a segment was appended there. -/
def Detected (s : List (ℕ × Bytes)) (start : ℕ) (bytes : Bytes) : Prop :=
  ∀ p body rest, wire.parse (bytes.drop p) = some (body, rest) → (start + p, body) ∈ s

/-- **What a damaged segment still shows begins with what was in it.** -/
theorem records_prefix {bytes : Bytes} {before g after : List Bytes}
    (hcrc : Detected (wire.entries 0 (before ++ (g ++ after))) (wire.size before) bytes)
    (hlen : bytes.length ≤ wire.size g) : wire.records bytes <+: g := by
  refine @prefix_of_entries _ _ wire (wire.size before) _ _ fun e he => ?_
  have hbytes := wire.frames_records bytes
  obtain ⟨done, todo, hrs, hat⟩ := exists_of_mem_entries he
  have hfits : wire.Fits e.2 := wire.fits_records bytes e.2 (hrs ▸ mem_append_right _ mem_cons_self)
  -- the frame passes, so it was appended there, and there is the segment
  have hparse : wire.parse (bytes.drop (wire.size done)) = some (e.2, wire.frames todo ++ wire.tail bytes) := by
    have hdrop : bytes.drop (wire.size done) = wire.frame e.2 ++ (wire.frames todo ++ wire.tail bytes) := by
      conv_lhs => rw [← hbytes, hrs, frames_append, append_assoc, size, drop_left, frames_cons, append_assoc]
    rw [hdrop, parse_frame hfits]
  have hmem := hcrc _ _ _ hparse
  rw [← hat, entries_append, entries_append, mem_append, mem_append, Nat.zero_add] at hmem
  obtain ⟨hlow, hhigh⟩ := mem_entries he
  have hsize : wire.size (wire.records bytes) ≤ bytes.length := by
    have := congrArg length hbytes
    rw [length_append] at this
    exact Nat.le.intro this
  rcases hmem with hmem | hmem | hmem
  · have : e.1 < 0 + wire.size before := (mem_entries hmem).2
    omega
  · exact hmem
  · have : wire.size before + wire.size g ≤ e.1 := (mem_entries hmem).1
    omega

section Replay

variable {l : ReplayLog} {full before after : List (List Bytes)} {last g g' : List Bytes} {bytes : Bytes} {view : View}

/-- A replay of a log with a damaged segment. -/
theorem Holds.replay_damaged (h : Holds l full last []) (hsplit : full ++ [last] = before ++ g :: g' :: after)
    (hlen : bytes.length ≤ wire.size g)
    (hview : ∀ k, (view k).segments = (l.damage (wire.size before.flatten) bytes).files.segments) :
    ∃ r, (l.damage (wire.size before.flatten) bytes).replayFrom view 0 = .ok r ∧
      Yields view r (wire.entries 0 before.flatten ++ (wire.entries (wire.size before.flatten) (wire.records bytes) ++
          wire.entries (wire.size before.flatten + wire.size g) (g' :: after).flatten)) := by
  have hspaced := h.layout.spaced
  have hstop := h.stop_eq
  rw [hsplit, partsOf_split] at hspaced hstop
  have hbytes := wire.frames_records bytes
  obtain ⟨-, hfits, htail⟩ := scan_spec (le_refl bytes.length)
  have hdamaged := @Spaced.replace l.files (l.damage (wire.size before.flatten) bytes).files _
    ⟨wire.size before.flatten, wire.records bytes, wire.tail bytes⟩ _ _ hspaced rfl ?_ htail hfits ?_
  · have hreplay := hdamaged.replay (by cases before <;> rfl) (fun q hq => hstop q ?_) hview
    · rwa [flatMap_append, flatMap_cons, entries_partsOf, entries_partsOf] at hreplay
    · simpa [partsOf, pack] using hq
  · have hlens := congrArg length hbytes
    rw [length_append] at hlens
    change (wire.frames (wire.records bytes)).length + (wire.tail bytes).length ≤ wire.size g
    omega
  · change l.files.segments.insert (wire.size before.flatten) bytes = _
    rw [hbytes]

end Replay

/-- **Damage to a segment stays in it.**  If a segment that is not the last is overwritten with no more bytes
than it had, and no frame passes that was not appended where it is, a replay of the whole log comes to an end,
yields only what was appended, in order, and all of it but what was in the segment. -/
theorem replay_past_damage (segmentBytes : ℕ) (ops : List LogOp) (start : ℕ) (bytes : Bytes)
    (hstart : start ∈ (logAfter segmentBytes ops).files.segmentStarts)
    (hfinal : (logAfter segmentBytes ops).files.segmentStarts.getLast? ≠ some start)
    (hlen : bytes.length ≤ ((logAfter segmentBytes ops).files.content start).length)
    (hcrc : Detected (archiveAfter ops) start bytes) (view : View)
    (hview : ∀ k, (view k).segments = ((logAfter segmentBytes ops).damage start bytes).files.segments) :
    ∃ r out, ((logAfter segmentBytes ops).damage start bytes).replayFrom view 0 = .ok r ∧ Yields view r out ∧
      out.Sublist (archiveAfter ops) ∧
      ∀ e ∈ archiveAfter ops,
        ¬ (start ≤ e.1 ∧ e.1 < start + ((logAfter segmentBytes ops).files.content start).length) → e ∈ out := by
  obtain ⟨-, full, last, hl, harchive⟩ := archive_simulates (represents_new segmentBytes) ops
  change Holds (logAfter segmentBytes ops) full last [] at hl
  change archiveAfter ops = wire.entries 0 (full.flatten ++ last) at harchive
  obtain ⟨before, g, g', after, hsplit, rfl⟩ : ∃ before g g' after, full ++ [last] = before ++ g :: g' :: after ∧
      start = wire.size before.flatten := by
    rw [hl.layout.segmentStarts, startsOf] at hstart hfinal
    rw [getLast?_append_of_ne_nil _ (cons_ne_nil _ _)] at hfinal
    rcases mem_append.1 hstart with hmem | hmem
    · obtain ⟨e, he, rfl⟩ := mem_map.1 hmem
      obtain ⟨before, rest, rfl, hat⟩ := mem_pack he
      obtain ⟨g', after, hrest⟩ := exists_cons_of_ne_nil (show rest ++ [last] ≠ [] by simp)
      refine ⟨before, e.2, g', after, ?_, by rw [hat, Nat.zero_add]⟩
      rw [append_assoc, cons_append, hrest]
    · rw [mem_singleton.1 hmem] at hfinal
      exact absurd rfl hfinal
  have hcontent : (logAfter segmentBytes ops).files.content (wire.size before.flatten) = wire.frames g := by
    rw [Files.content, hl.layout.lookup_group hsplit, Option.getD_some, behind, append_nil]
  have hrecords : full.flatten ++ last = before.flatten ++ (g ++ (g' :: after).flatten) := by
    have := @records_of_split full before (g' :: after) last [] g hsplit
    rwa [append_nil] at this
  have hall : archiveAfter ops = wire.entries 0 before.flatten ++ (wire.entries (wire.size before.flatten) g ++
      wire.entries (wire.size before.flatten + wire.size g) (g' :: after).flatten) := by
    rw [harchive, hrecords, entries_append, entries_append, Nat.zero_add]
  rw [hcontent] at hlen
  obtain ⟨r, hr, hyields⟩ := hl.replay_damaged hsplit hlen hview
  have hpre : wire.records bytes <+: g := by
    rw [harchive, hrecords] at hcrc
    exact records_prefix hcrc hlen
  obtain ⟨lost, hlost⟩ := hpre
  refine ⟨r, _, hr, hyields, ?_, fun e he hout => ?_⟩
  · rw [hall, ← hlost, entries_append]
    refine (Sublist.refl _).append (Sublist.append ?_ (Sublist.refl _))
    exact sublist_append_left _ _
  · rw [hall] at he
    rw [hcontent] at hout
    rcases mem_append.1 he with he | he
    · exact mem_append_left _ he
    · rcases mem_append.1 he with he | he
      · exact absurd (mem_entries he) hout
      · exact mem_append_right _ (mem_append_right _ he)

/-- Two segments: 128 empty records, and one more. -/
def twoSegments : List LogOp := replicate 129 (.append [])

/-- The first segment is overwritten with a length that no frame has. -/
theorem replay_past_damage_two_segments : ∃ r out, ((logAfter 0 twoSegments).damage 0 [255, 255, 255, 255]).replayFrom
        ((logAfter 0 twoSegments).damage 0 [255, 255, 255, 255]).files.still 0 = .ok r ∧
      Yields ((logAfter 0 twoSegments).damage 0 [255, 255, 255, 255]).files.still r out ∧ (1024, []) ∈ out := by
  have hcrc : Detected (archiveAfter twoSegments) 0 [255, 255, 255, 255] := by
    intro p body rest hparse
    cases p with
    | zero =>
      have hnone : wire.parse [255, 255, 255, 255] = none := by decide
      cases hparse
    | succ p =>
      obtain ⟨h₁, -⟩ := parse_some hparse
      rw [length_drop] at h₁
      simp only [length_cons, length_nil] at h₁
      omega
  obtain ⟨r, out, hr, hyields, -, hkept⟩ := replay_past_damage 0 twoSegments 0 [255, 255, 255, 255]
    (by decide +kernel) (by decide +kernel) (by decide +kernel) hcrc
    ((logAfter 0 twoSegments).damage 0 [255, 255, 255, 255]).files.still fun _ => by rw [Files.still]
  exact ⟨r, out, hr, hyields, hkept (1024, []) (by decide +kernel) (by decide +kernel)⟩

end Datarail.Replaylog
