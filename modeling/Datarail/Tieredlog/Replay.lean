/-
# What `replay_from` returns

`replay_from` goes through the segments it finds, in the order of their starts.  A segment that it skips has no
record it would return, as long as no segment reaches beyond the start of the next one.  So it returns the records
of all segments it finds, from the offset on (`replayFrom_eq`), whether these are all there were or not.
-/

import Datarail.Tieredlog.Layout

namespace Datarail.Tieredlog

open Lib List Codec TieredLog Replaylog
open Replaylog (wire startsOf)

/-- What a segment shows: its frames up to the first bytes that are none. -/
def shown (e : ℕ × Bytes) : List (ℕ × Bytes) := wire.entries e.1 (wire.records e.2)

/-- The frames that `replay_from` shows of a segment are its records at their offsets. -/
theorem shown_frames {start : ℕ} {rs : List Bytes} (hfits : ∀ r ∈ rs, wire.Fits r) :
    shown (start, wire.frames rs) = wire.entries start rs := by
  have h := records_frames hfits (parse_nil (K := wire))
  rw [append_nil] at h
  rw [shown, h.1]

section Starts

variable {l : TieredLog}

/-- `blob_key_start` reads the names that `seg_blob_key` gives. -/
theorem coldStarts_map (starts : List ℕ) : coldStarts (starts.map .segment) = .ok starts := by
  induction starts with
  | nil => rfl
  | cons start starts ih => rw [map_cons, coldStarts, blobKeyStart, ih]; rfl

/-- Keys that are all names of segments have starts. -/
theorem exists_starts {keys : List BlobKey} (h : ∀ key ∈ keys, ∃ start, key = .segment start) :
    ∃ starts : List ℕ, keys = starts.map BlobKey.segment := by
  induction keys with
  | nil => exact ⟨[], rfl⟩
  | cons key keys ih =>
    obtain ⟨start, rfl⟩ := h key mem_cons_self
    obtain ⟨starts, rfl⟩ := ih fun key hkey => h key (mem_cons_of_mem _ hkey)
    exact ⟨start :: starts, rfl⟩

/-- `all_starts` finds the blobs and the newest local segment, in order. -/
theorem allStarts_eq {starts : List ℕ} (hkeys : ∀ key ∈ l.disk.cold, ∃ start, key = .segment start)
    (hsorted : starts.Pairwise (· < ·))
    (hmem : ∀ s, s ∈ starts ↔ BlobKey.segment s ∈ l.disk.cold ∨ s = l.activeStart) :
    l.allStarts = .ok starts := by
  obtain ⟨cold, hcold⟩ := @exists_starts l.disk.cold.keys hkeys
  have hnodup : cold.Nodup := by
    have h := l.disk.cold.keys_nodup
    rw [hcold] at h
    exact h.of_map _
  have hin : ∀ s, BlobKey.segment s ∈ l.disk.cold ↔ s ∈ cold := by
    intro s
    change BlobKey.segment s ∈ l.disk.cold.keys ↔ _
    rw [hcold, mem_map_of_injective fun _ _ => BlobKey.segment.inj]
  have hperm : (if l.activeStart ∈ cold then cold else cold ++ [l.activeStart]).Perm starts := by
    refine (perm_ext_iff_of_nodup ?_ (hsorted.imp fun h => h.ne)).2 fun s => ?_
    · split_ifs with hactive
      · exact hnodup
      · exact Nodup.append hnodup (nodup_singleton _) (disjoint_singleton.2 hactive)
    · rw [hmem, hin]
      split_ifs with hactive
      · refine ⟨.inl, ?_⟩
        rintro (hs | rfl)
        · exact hs
        · exact hactive
      · rw [mem_append, mem_singleton]
  rw [allStarts, hcold, coldStarts_map]
  exact congrArg Except.ok (Perm.eq_of_pairwise' (pairwise_insertionSort _ _) (hsorted.imp fun h => h.le)
    ((perm_insertionSort _ _).trans hperm))

end Starts

section Replay

variable {l : TieredLog} {startOffset : ℕ} {segs : List (ℕ × Bytes)}

/-- The loop over segments none of which reaches beyond the next one. -/
theorem replaySegments_eq (hload : ∀ e ∈ segs, l.loadSegment e.1 = .ok e.2)
    (hnext : segs.Pairwise fun e e' => ∀ x ∈ shown e, x.1 < e'.1)
    (hend : ∀ e ∈ segs, ∀ x ∈ shown e, x.1 < l.writeOffset) :
    l.replaySegments startOffset (segs.map Prod.fst) =
      .ok ((segs.flatMap shown).filter fun x => decide (startOffset ≤ x.1)) := by
  induction segs with
  | nil => rfl
  | cons e segs ih =>
    obtain ⟨hfirst, hnext⟩ := pairwise_cons.1 hnext
    have hrest := ih (fun e' he' => hload e' (mem_cons_of_mem _ he')) hnext
      fun e' he' => hend e' (mem_cons_of_mem _ he')
    -- the end that the loop takes for the segment is behind all of its records
    have hroom : ∀ x ∈ shown e, x.1 < (segs.map Prod.fst).head?.getD l.writeOffset := by
      intro x hx
      cases segs with
      | nil => exact hend e mem_cons_self x hx
      | cons e' segs => exact hfirst e' mem_cons_self x hx
    rw [map_cons, replaySegments, flatMap_cons, filter_append]
    by_cases hskip : (segs.map Prod.fst).head?.getD l.writeOffset ≤ startOffset
    · have hnone : ((shown e).filter fun x => decide (startOffset ≤ x.1)) = [] := by
        refine filter_eq_nil_iff.2 fun x hx => ?_
        have := hroom x hx
        rw [decide_eq_true_iff]
        omega
      rw [if_pos hskip, hrest, hnone, nil_append]
    · rw [if_neg hskip, hload e mem_cons_self, hrest]
      change Except.ok (readFrames startOffset e.2 (e.2.length + 1) 0 e.1 ++ _) = _
      rw [readFrames_records]
      rfl

/-- **`replay_from` returns what the segments it finds show**, from the offset on. -/
theorem replayFrom_eq (hstarts : l.allStarts = .ok (segs.map Prod.fst))
    (hload : ∀ e ∈ segs, l.loadSegment e.1 = .ok e.2)
    (hnext : segs.Pairwise fun e e' => ∀ x ∈ shown e, x.1 < e'.1)
    (hend : ∀ e ∈ segs, ∀ x ∈ shown e, x.1 < l.writeOffset) :
    l.replayFrom startOffset = .ok ((segs.flatMap shown).filter fun x => decide (startOffset ≤ x.1)) := by
  rw [replayFrom, hstarts]
  exact replaySegments_eq hload hnext hend

end Replay

/-- The blob store after some blobs were deleted and others overwritten.  The checksum is never wrong: what passes
for a frame in a blob was in the blob, at that place. -/
structure Damaged (l l' : TieredLog) : Prop where
  segments : l'.disk.segments = l.disk.segments
  activeStart : l'.activeStart = l.activeStart
  writeOffset : l'.writeOffset = l.writeOffset
  keys : ∀ key ∈ l'.disk.cold, key ∈ l.disk.cold
  detected : ∀ start bytes bytes', l.disk.cold.lookup (.segment start) = some bytes →
    l'.disk.cold.lookup (.segment start) = some bytes' → ∀ x ∈ shown (start, bytes'), x ∈ shown (start, bytes)

/-- No damage at all. -/
theorem Damaged.refl (l : TieredLog) : Damaged l l where
  segments := rfl
  activeStart := rfl
  writeOffset := rfl
  keys _ hkey := hkey
  detected start bytes bytes' h h' x hx := by rwa [Option.some.inj (h.symm.trans h')]

/-- The records that are left of a group: none, if its blob is missing. -/
def left (l : TieredLog) (e : ℕ × List Bytes) : List Bytes :=
  ((l.disk.cold.lookup (.segment e.1)).map wire.records).getD []

namespace Holds

variable {l l' : TieredLog} {full : List (List Bytes)} {synced pending : List Bytes} {e : ℕ × List Bytes}

/-- Every record of a full segment fits a frame. -/
theorem fits_of_mem_pack (h : Holds l full synced pending) (he : e ∈ wire.pack 0 full) :
    ∀ r ∈ e.2, wire.Fits r := fun r hr =>
  h.layout.fits r (mem_append_left _ (mem_flatten.2 ⟨e.2, mem_of_mem_pack he, hr⟩))

/-- What a damaged blob shows was in its group. -/
theorem mem_of_shown (h : Holds l full synced pending) (hd : Damaged l l')
    (he : e ∈ wire.pack 0 full) {bytes : Bytes} (hbytes : l'.disk.cold.lookup (.segment e.1) = some bytes) :
    ∀ x ∈ shown (e.1, bytes), x ∈ wire.entries e.1 e.2 := by
  intro x hx
  have hin := hd.detected e.1 _ bytes (h.layout.cold e he) hbytes x hx
  rwa [shown_frames (h.fits_of_mem_pack he)] at hin

/-- The blobs of complete groups that are left. -/
def blobs (l : TieredLog) (full : List (List Bytes)) : List (ℕ × Bytes) :=
  (wire.pack 0 full).filterMap fun e => (l.disk.cold.lookup (.segment e.1)).map fun bytes => (e.1, bytes)

/-- A blob is what is stored under the start of a full segment. -/
theorem mem_blobs {b : ℕ × Bytes} :
    b ∈ blobs l full ↔ ∃ e ∈ wire.pack 0 full, b.1 = e.1 ∧ l.disk.cold.lookup (.segment e.1) = some b.2 := by
  rw [blobs, mem_filterMap]
  refine exists_congr fun e => and_congr_right fun _ => ?_
  rw [Option.map_eq_some_iff]
  constructor
  · rintro ⟨bytes, hbytes, rfl⟩
    exact ⟨rfl, hbytes⟩
  · rintro ⟨hstart, hbytes⟩
    exact ⟨b.2, hbytes, by rw [← hstart]⟩

/-- Segment by segment, the blobs show what is left of the records. -/
theorem flatMap_blobs (l : TieredLog) (full : List (List Bytes)) :
    (blobs l full).flatMap shown = (wire.pack 0 full).flatMap fun e => wire.entries e.1 (left l e) := by
  rw [blobs]
  induction wire.pack 0 full with
  | nil => rfl
  | cons e es ih =>
    rw [flatMap_cons, ← ih, filterMap_cons]
    rcases hbytes : l.disk.cold.lookup (.segment e.1) with _ | bytes
    · rw [left, hbytes]
      rfl
    · rw [left, hbytes]
      rfl

/-- The blobs are in the order of their groups. -/
theorem pairwise_blobs {S : ℕ × Bytes → ℕ × Bytes → Prop}
    (hS : ∀ e ∈ wire.pack 0 full, ∀ e' ∈ wire.pack 0 full, e.1 + wire.size e.2 ≤ e'.1 → ∀ bytes bytes',
      l.disk.cold.lookup (.segment e.1) = some bytes → S (e.1, bytes) (e'.1, bytes')) :
    (blobs l full).Pairwise S := by
  have hpack := (pairwise_pack_le (K := wire) 0 full).imp_of_mem
    (S := fun e e' => e ∈ wire.pack 0 full ∧ e' ∈ wire.pack 0 full ∧ e.1 + wire.size e.2 ≤ e'.1)
    fun he he' hle => ⟨he, he', hle⟩
  refine hpack.filterMap _ fun e e' hee b hb b' hb' => ?_
  obtain ⟨bytes, hbytes, rfl⟩ := Option.map_eq_some_iff.1 hb
  obtain ⟨bytes', -, rfl⟩ := Option.map_eq_some_iff.1 hb'
  exact hS e hee.1 e' hee.2.1 hee.2.2 bytes bytes' hbytes

/-- **What `replay_from` returns from a damaged store**: of each group what is left of it. -/
theorem replayFrom_damaged (h : Holds l full synced pending) (hd : Damaged l l') (startOffset : ℕ) :
    l'.replayFrom startOffset = .ok ((((wire.pack 0 full).flatMap fun e => wire.entries e.1 (left l' e)) ++
      wire.entries (Replaylog.sizeOf full) (synced ++ pending)).filter fun x => decide (startOffset ≤ x.1)) := by
  have hlast : shown (Replaylog.sizeOf full, wire.frames (synced ++ pending)) =
      wire.entries (Replaylog.sizeOf full) (synced ++ pending) := shown_frames h.layout.fits_last
  have hactive : l'.activeStart = Replaylog.sizeOf full := hd.activeStart.trans h.activeStart
  have hinside : ∀ b ∈ blobs l' full, ∀ x ∈ shown b, x.1 < Replaylog.sizeOf full := by
    intro b hb x hx
    obtain ⟨e, he, hstart, hbytes⟩ := mem_blobs.1 hb
    obtain ⟨start, bytes⟩ := b
    obtain rfl : start = e.1 := hstart
    have hmem := (mem_entries (h.mem_of_shown hd he hbytes x hx)).2
    have hle := (le_of_mem_pack he).2
    rw [Nat.zero_add] at hle
    exact lt_of_lt_of_le hmem hle
  have hsegs := @replayFrom_eq l' startOffset
    (blobs l' full ++ [(Replaylog.sizeOf full, wire.frames (synced ++ pending))])
  rw [flatMap_append, flatMap_blobs, flatMap_singleton, hlast] at hsegs
  refine hsegs ?_ ?_ ?_ ?_
  · refine allStarts_eq (fun key hkey => ?_) ?_ fun s => ?_
    · obtain ⟨start, -, rfl⟩ := h.layout.keys key (hd.keys key hkey)
      exact ⟨start, rfl⟩
    · rw [map_append, pairwise_append]
      refine ⟨pairwise_map.2 (pairwise_blobs fun e he e' _ hle _ _ _ => ?_), pairwise_singleton _ _,
        fun s hs t ht => ?_⟩
      · have := size_pos (K := wire) (h.layout.nonempty e.2 (mem_of_mem_pack he))
        omega
      · obtain ⟨b, hb, rfl⟩ := mem_map.1 hs
        obtain ⟨e, he, hstart, -⟩ := mem_blobs.1 hb
        rw [mem_singleton.1 ht, hstart]
        exact h.layout.lt_of_mem_pack he
    · rw [map_append, mem_append, map_singleton, mem_singleton, hactive]
      constructor
      · rintro (hs | rfl)
        · obtain ⟨b, hb, rfl⟩ := mem_map.1 hs
          obtain ⟨e, -, hstart, hbytes⟩ := mem_blobs.1 hb
          rw [hstart]
          exact .inl (mem_of_lookup hbytes)
        · exact .inr rfl
      · rintro (hs | rfl)
        · obtain ⟨start, hstart, heq⟩ := h.layout.keys _ (hd.keys _ hs)
          obtain rfl := BlobKey.segment.inj heq
          rw [startsOf, mem_append, mem_singleton] at hstart
          refine hstart.imp_left fun hin => ?_
          obtain ⟨e, he, rfl⟩ := mem_map.1 hin
          obtain ⟨bytes, hbytes⟩ := Option.isSome_iff_exists.1 (AList.lookup_isSome.2 hs)
          exact mem_map.2 ⟨(e.1, bytes), mem_blobs.2 ⟨e, he, rfl, hbytes⟩, rfl⟩
        · exact .inr rfl
  · intro b hb
    rcases mem_append.1 hb with hb | hb
    · obtain ⟨e, he, hstart, hbytes⟩ := mem_blobs.1 hb
      rw [hstart, loadSegment, if_neg (by rw [hactive]; exact (h.layout.lt_of_mem_pack he).ne), hbytes]
    · rw [mem_singleton.1 hb, loadSegment, if_pos hactive.symm, hd.segments, h.layout.active, append_nil]
  · refine pairwise_append.2 ⟨pairwise_blobs fun e he e' _ hle bytes _ hbytes x hx => ?_,
      pairwise_singleton _ _, fun b hb b' hb' x hx => ?_⟩
    · exact lt_of_lt_of_le (mem_entries (h.mem_of_shown hd he hbytes x hx)).2 hle
    · rw [mem_singleton.1 hb']
      exact hinside b hb x hx
  · intro b hb x hx
    rw [hd.writeOffset, h.writeOffset]
    rcases mem_append.1 hb with hb | hb
    · exact lt_of_lt_of_le (hinside b hb x hx) (Nat.le_add_right _ _)
    · rw [mem_singleton.1 hb, hlast] at hx
      exact (mem_entries hx).2

/-- **What `replay_from` returns from an intact log**: its records, from the offset on. -/
theorem replayFrom (h : Holds l full synced pending) (startOffset : ℕ) : l.replayFrom startOffset =
      .ok ((wire.entries 0 (full.flatten ++ (synced ++ pending))).filter fun x => decide (startOffset ≤ x.1)) := by
  have hleft : ∀ e ∈ wire.pack 0 full, wire.entries e.1 (left l e) = wire.entries e.1 e.2 := by
    intro e he
    rw [left, h.layout.cold e he]
    exact shown_frames (h.fits_of_mem_pack he)
  rw [h.replayFrom_damaged (Damaged.refl l), flatMap_congr hleft, flatMap_entries_pack,
    entries_append wire 0 full.flatten, Nat.zero_add]

end Holds

end Datarail.Tieredlog
