/-
# What a replay of a damaged store leaves out

`replay_from` takes the segments from a listing of the blob store, and stops a segment at the first bytes that are
no frame.  So a blob that was deleted, or that was overwritten, is left out with no error, although
`TieredError::MissingSegment` is there for a segment that is "missing or corrupt".

What is left of a group is a beginning of it (`Holds.left_prefix`).  From a record boundary a replay is complete
exactly if each sealed blob that ends behind it is there and begins with what was stored (`replay_exact_iff`).
-/

import Datarail.Tieredlog.Recovery

namespace Datarail.Tieredlog

open Lib List Codec Replaylog

/-- Bytes that begin with some frames show these records first. -/
theorem prefix_records {rs : List Bytes} {bytes : Bytes} (hfits : ∀ r ∈ rs, wire.Fits r)
    (h : wire.frames rs <+: bytes) : rs <+: wire.records bytes := by
  obtain ⟨rest, rfl⟩ := h
  have hall : ∀ r ∈ rs ++ wire.records rest, wire.Fits r := fun r hr =>
    (mem_append.1 hr).elim (hfits r) (wire.fits_records rest r)
  have hrecords := (records_frames hall (wire.parse_tail rest)).1
  rw [frames_append, append_assoc, wire.frames_records] at hrecords
  rw [hrecords]
  exact prefix_append _ _

namespace Holds

variable {l l' : TieredLog} {full : List (List Bytes)} {synced pending : List Bytes} {e : ℕ × List Bytes}

/-- **What is left of a group is a beginning of it.** -/
theorem left_prefix (h : Holds l full synced pending) (hd : Damaged l l') (he : e ∈ wire.pack 0 full) :
    left l' e <+: e.2 := by
  rcases hbytes : l'.disk.cold.lookup (.segment e.1) with _ | bytes
  · rw [left, hbytes]
    exact nil_prefix
  · rw [left, hbytes]
    exact prefix_of_entries (h.mem_of_shown hd he hbytes)

/-- A group is left as it was exactly if its blob still begins with it. -/
theorem left_eq_iff (h : Holds l full synced pending) (hd : Damaged l l') (he : e ∈ wire.pack 0 full) :
    left l' e = e.2 ↔ ∃ bytes, l'.disk.cold.lookup (.segment e.1) = some bytes ∧ wire.frames e.2 <+: bytes := by
  constructor
  · intro hleft
    rcases hbytes : l'.disk.cold.lookup (.segment e.1) with _ | bytes
    · rw [left, hbytes] at hleft
      exact absurd hleft.symm (h.layout.nonempty e.2 (mem_of_mem_pack he))
    · rw [left, hbytes] at hleft
      refine ⟨bytes, hbytes, wire.tail bytes, ?_⟩
      rw [← hleft]
      exact wire.frames_records bytes
  · rintro ⟨bytes, hbytes, hprefix⟩
    have hle := h.left_prefix hd he
    have hge : e.2 <+: left l' e := by
      rw [left, hbytes]
      exact prefix_records (h.fits_of_mem_pack he) hprefix
    exact hle.eq_of_length (Nat.le_antisymm hle.length_le hge.length_le)

variable {startOffset : ℕ}

/-- The last record of a group that ends behind a record boundary is not before it. -/
theorem boundary_le_last (he : e ∈ wire.pack 0 full) {init : List Bytes} {r : Bytes} (hlast : e.2 = init ++ [r])
    (hin : startOffset ∈ wire.offsets 0 (full.flatten ++ (synced ++ pending)))
    (hbehind : startOffset < e.1 + wire.size e.2) : startOffset ≤ e.1 + wire.size init := by
  obtain ⟨before, after, rfl, hstart⟩ := mem_pack he
  rw [Nat.zero_add] at hstart
  by_contra hlt
  have hrs : (before ++ e.2 :: after).flatten ++ (synced ++ pending) =
      (before.flatten ++ init) ++ r :: (after.flatten ++ (synced ++ pending)) := by
    rw [hlast]
    simp
  have hsize : wire.size (before.flatten ++ init) = e.1 + wire.size init := by rw [size_append, hstart]
  rw [hlast, size_append, size_cons, size_nil, Nat.add_zero] at hbehind
  rw [hrs, mem_offsets_iff (by omega) (by omega)] at hin
  omega

/-- A replay is complete exactly if each group that ends behind the boundary is left as it was. -/
theorem replayFrom_damaged_iff (h : Holds l full synced pending) (hd : Damaged l l')
    (hboundary : startOffset ∈ wire.offsets 0 (full.flatten ++ (synced ++ pending)) ∨ startOffset = l.writeOffset) :
    (l'.replayFrom startOffset =
        .ok ((wire.entries 0 (full.flatten ++ (synced ++ pending))).filter fun x => decide (startOffset ≤ x.1))) ↔
      ∀ e ∈ wire.pack 0 full, startOffset < e.1 + wire.size e.2 → left l' e = e.2 := by
  have hall : wire.entries 0 (full.flatten ++ (synced ++ pending)) =
      ((wire.pack 0 full).flatMap fun e => wire.entries e.1 e.2) ++
        wire.entries (Replaylog.sizeOf full) (synced ++ pending) := by
    rw [flatMap_entries_pack, entries_append, Nat.zero_add]
  rw [h.replayFrom_damaged hd, Except.ok.injEq, hall]
  constructor
  · intro heq e he hbehind
    -- the last record of the group is returned, so it is left, and so is all of the group
    obtain ⟨init, r, hlast⟩ := eq_nil_or_concat' e.2 |>.resolve_left (h.layout.nonempty e.2 (mem_of_mem_pack he))
    have hend : e.1 + wire.size e.2 ≤ Replaylog.sizeOf full := by
      have hle := (le_of_mem_pack he).2
      rwa [Nat.zero_add] at hle
    have hin : startOffset ∈ wire.offsets 0 (full.flatten ++ (synced ++ pending)) := by
      refine hboundary.resolve_right fun hw => ?_
      rw [hw, h.writeOffset] at hbehind
      omega
    have hle := boundary_le_last he hlast hin hbehind
    have hmem : (e.1 + wire.size init, r) ∈ wire.entries e.1 e.2 := by
      rw [hlast, entries_append]
      exact mem_append_right _ mem_cons_self
    have hreturned : (e.1 + wire.size init, r) ∈ ((wire.pack 0 full).flatMap fun e => wire.entries e.1 (left l' e)) ++
          wire.entries (Replaylog.sizeOf full) (synced ++ pending) := by
      refine mem_of_mem_filter (p := fun x => decide (startOffset ≤ x.1)) ?_
      rw [heq]
      exact mem_filter.2 ⟨mem_append_left _ (mem_flatMap.2 ⟨e, he, hmem⟩), decide_eq_true hle⟩
    have hplace := mem_entries hmem
    have hleft : (e.1 + wire.size init, r) ∈ wire.entries e.1 (left l' e) := by
      rcases mem_append.1 hreturned with hin | hin
      · obtain ⟨e', he', hin⟩ := mem_flatMap.1 hin
        obtain ⟨t, ht⟩ := h.left_prefix hd he'
        have hplace' : (e.1 + wire.size init, r) ∈ wire.entries e'.1 e'.2 := by
          rw [← ht, entries_append]
          exact mem_append_left _ hin
        obtain rfl : e = e' := eq_of_mem_pack he he' hplace (mem_entries hplace')
        exact hin
      · have hlow : Replaylog.sizeOf full ≤ e.1 + wire.size init := (mem_entries hin).1
        omega
    obtain ⟨t, ht⟩ := h.left_prefix hd he
    have hsize := (mem_entries hleft).2
    rcases t with _ | ⟨y, t⟩
    · rwa [append_nil] at ht
    · -- what is left ends where the last record starts, or before
      have hinit : (left l' e).length ≤ init.length := by
        have := congrArg length ht
        rw [hlast, length_append, length_append, length_cons, length_singleton] at this
        omega
      have hfirst : init <+: e.2 := by
        rw [hlast]
        exact prefix_append _ _
      have hleft_init : left l' e <+: init := prefix_of_prefix_length_le ⟨y :: t, ht⟩ hfirst hinit
      obtain ⟨u, hu⟩ := hleft_init
      rw [← hu, size_append] at hsize
      omega
  · intro hleft
    rw [filter_append, filter_append, filter_flatMap, filter_flatMap]
    refine congrArg (· ++ _) (flatMap_congr fun e he => ?_)
    by_cases hbehind : startOffset < e.1 + wire.size e.2
    · rw [hleft e he hbehind]
    · -- nothing of the group is asked for
      have hnone : ∀ x ∈ wire.entries e.1 e.2, ¬ decide (startOffset ≤ x.1) = true := by
        intro x hx
        have := (mem_entries hx).2
        rw [decide_eq_true_iff]
        omega
      obtain ⟨t, ht⟩ := h.left_prefix hd he
      rw [filter_eq_nil_iff.2 hnone, filter_eq_nil_iff.2 fun x hx => hnone x ?_]
      rw [← ht, entries_append]
      exact mem_append_left _ hx

end Holds

/-- A blob is deleted. -/
def TieredLog.deleteBlob (l : TieredLog) (start : ℕ) : TieredLog :=
  { l with disk := { l.disk with cold := l.disk.cold.erase (.segment start) } }

/-- The removal of a blob is damage. -/
theorem damaged_deleteBlob (l : TieredLog) (start : ℕ) : Damaged l (l.deleteBlob start) where
  segments := rfl
  activeStart := rfl
  writeOffset := rfl
  keys _ hkey := (AList.mem_erase.1 hkey).2
  detected s bytes bytes' h h' x hx := by
    change (l.disk.cold.erase (.segment start)).lookup (.segment s) = some bytes' at h'
    rw [lookup_erase_ite] at h'
    split_ifs at h' with hs
    rwa [Option.some.inj (h.symm.trans h')]

/-- **When a replay of a damaged store leaves nothing out.**  Take any log, delete and overwrite blobs of it, and
replay it from a record boundary.  Each result is all records from there on exactly if each blob of a sealed segment
that ends behind the boundary is there and begins with what was stored in it. -/
theorem replay_exact_iff (segmentBytes : ℕ) (events : List Event) (l' : TieredLog) (startOffset : ℕ)
    (hd : Damaged (recorded.final (fresh segmentBytes) events).1 l')
    (hboundary : startOffset ∈ (recorded.final (fresh segmentBytes) events).2.all.map Prod.fst ∨
      startOffset = (recorded.final (fresh segmentBytes) events).1.writeOffset) :
    (∀ out, l'.replayFrom startOffset = .ok out →
        out = (recorded.final (fresh segmentBytes) events).2.all.filter fun x => decide (startOffset ≤ x.1)) ↔
      ∀ start bytes, (recorded.final (fresh segmentBytes) events).1.disk.cold.lookup (.segment start) = some bytes →
        start ≠ (recorded.final (fresh segmentBytes) events).1.activeStart → startOffset < start + bytes.length →
        ∃ bytes', l'.disk.cold.lookup (.segment start) = some bytes' ∧ bytes <+: bytes' := by
  obtain ⟨full, synced, pending, hholds, hsynced, hpending⟩ := (recorded_fresh segmentBytes).final events
  rw [Recorded.all_eq hsynced hpending, map_fst_entries] at hboundary
  rw [Recorded.all_eq hsynced hpending]
  have hiff := hholds.replayFrom_damaged_iff hd hboundary
  constructor
  · intro hout start bytes hcold hsealed hbehind
    have hleft := hiff.1 (by
      rw [hholds.replayFrom_damaged hd]
      exact congrArg Except.ok (hout _ (hholds.replayFrom_damaged hd startOffset)))
    -- a blob other than that of the newest segment is that of a complete group
    obtain ⟨start', hstart, hkey⟩ := hholds.layout.keys (.segment start) (mem_of_lookup hcold)
    obtain rfl := BlobKey.segment.inj hkey
    rw [startsOf, mem_append, mem_singleton] at hstart
    rw [hholds.activeStart] at hsealed
    obtain ⟨e, he, rfl⟩ := mem_map.1 (hstart.resolve_right hsealed)
    obtain rfl : wire.frames e.2 = bytes := Option.some.inj ((hholds.layout.cold e he).symm.trans hcold)
    exact (hholds.left_eq_iff hd he).1 (hleft e he hbehind)
  · intro hkept out hreplay
    have hall := hiff.2 fun e he hbehind => (hholds.left_eq_iff hd he).2 (hkept e.1 _ (hholds.layout.cold e he)
        (by rw [hholds.activeStart]; exact (hholds.layout.lt_of_mem_pack he).ne) hbehind)
    exact Except.ok.inj (hreplay.symm.trans hall)

/-- A log with one sealed segment: a record that fills it, and one behind it. -/
def sealedOnce : List Event := [.append (replicate 1016 0) .evicted, .append [1] .evicted, .sync]

/-- Without the sealed segment, a replay from behind it is complete. -/
theorem replay_exact_behind_gap :
    ((recorded.final (fresh 1024) sealedOnce).1.deleteBlob 0).replayFrom 1024 = .ok [(1024, [1])] ∧
      ∀ out, ((recorded.final (fresh 1024) sealedOnce).1.deleteBlob 0).replayFrom 1024 = .ok out →
        out = (recorded.final (fresh 1024) sealedOnce).2.all.filter fun x => decide (1024 ≤ x.1) := by
  refine ⟨by decide +kernel, ?_⟩
  refine (replay_exact_iff 1024 sealedOnce _ 1024 (damaged_deleteBlob _ 0) (.inl (by decide +kernel))).2 ?_
  intro start bytes hcold _ hbehind
  have hblobs : (recorded.final (fresh 1024) sealedOnce).1.disk.cold.entries =
      [⟨.segment 0, wire.frame (replicate 1016 0)⟩] := by decide +kernel
  have hin := AList.mem_lookup_iff.1 hcold
  rw [hblobs, mem_singleton, Sigma.mk.injEq] at hin
  obtain rfl := BlobKey.segment.inj hin.1
  rw [eq_of_heq hin.2, length_frame, length_replicate] at hbehind
  omega

/-- Without the sealed segment, a replay from the start returns the record behind it, and no error. -/
theorem replay_skips_deleted_blob :
    ((recorded.final (fresh 1024) sealedOnce).1.deleteBlob 0).replayFrom 0 = .ok [(1024, [1])] ∧
      (recorded.final (fresh 1024) sealedOnce).2.all = [(0, replicate 1016 0), (1024, [1])] := by
  decide +kernel

end Datarail.Tieredlog
