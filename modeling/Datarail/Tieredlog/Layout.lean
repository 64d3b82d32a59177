/-
# What the tiers of a log hold

The records of a log are in groups, one group a segment.  `Layout` says that the complete groups `full` are
in the blob store and the last one in the newest local segment, with some bytes behind it that are no frame.
The last group is `synced ++ pending`: its first records are synced.  `Holds` says it of an open log.

A crash keeps the synced records, and of the others the first ones (`Layout.crash`); `open` drops the bytes
behind them (`holds_open`).  `seal_and_rotate` is followed step by step: up to the creation of the new segment
the groups are as before (`Holds.sync`, `Holds.offload`), and from it on the last group is complete
(`Holds.createNext`, `Holds.evict`).
-/

import Datarail.Tieredlog.Log

namespace Datarail.Tieredlog

open Lib List Codec TieredLog Replaylog

section Frames

variable {startOffset pos offset fuel : ℕ} {bytes body rest : Bytes}

/-- The loop stops at bytes that are no frame. -/
theorem readFrames_of_none (h : wire.parse (bytes.drop pos) = none) :
    readFrames startOffset bytes (fuel + 1) pos offset = [] := by
  rw [parse_eq] at h
  simp only [length_drop, drop_drop] at h
  rw [readFrames]
  by_cases h₁ : bytes.length < pos + 4
  · rw [if_pos h₁]
  · rw [if_neg (by omega)] at h
    rw [if_neg h₁]
    by_cases h₂ : maxRecord < leNat ((bytes.drop pos).take 4) ∨
        bytes.length < pos + 4 + leNat ((bytes.drop pos).take 4) + 4
    · rw [if_pos h₂]
    · rw [not_or, Nat.not_lt, Nat.not_lt] at h₂
      rw [if_neg (by simpa using h₂.1), if_neg (by omega)] at h
      rw [if_neg (by omega)]
      by_cases h₃ : (bytes.drop (pos + 4 + leNat ((bytes.drop pos).take 4))).take 4 ≠
          checks.checksum ((bytes.drop pos).take (4 + leNat ((bytes.drop pos).take 4)))
      · rw [if_pos h₃]
      · rw [← Nat.add_assoc, if_neg h₃] at h
        cases h

/-- The loop takes a frame. -/
theorem readFrames_of_some (h : wire.parse (bytes.drop pos) = some (body, rest)) :
    readFrames startOffset bytes (fuel + 1) pos offset = (if startOffset ≤ offset then [(offset, body)] else []) ++
        readFrames startOffset bytes fuel (pos + (wire.frame body).length) (offset + (wire.frame body).length) := by
  obtain ⟨h₁, hlen, hmax, h₃, h₄, hbody, -⟩ := parse_some h
  rw [length_drop] at h₁ h₃
  rw [drop_drop, ← Nat.add_assoc] at h₄
  rw [drop_drop] at hbody
  rw [readFrames, if_neg (by omega)]
  rw [hlen, if_neg (by omega), if_neg (not_ne_iff.2 h₄), hbody, length_frame,
    show 4 + body.length + 4 = body.length + 8 by omega]

/-- The inner loop of `replay_from` reads whole frames and stops at the torn one. -/
theorem readFrames_eq {before torn : Bytes} {rs : List Bytes} (hfits : ∀ r ∈ rs, wire.Fits r)
    (htorn : wire.parse torn = none) (hfuel : rs.length < fuel) :
    readFrames startOffset (before ++ (wire.frames rs ++ torn)) fuel before.length offset =
      (wire.entries offset rs).filter fun e => decide (startOffset ≤ e.1) := by
  induction rs generalizing before fuel offset with
  | nil =>
    obtain ⟨fuel, rfl⟩ : ∃ n, fuel = n + 1 := ⟨fuel - 1, by simp only [length_nil] at hfuel; omega⟩
    refine readFrames_of_none ?_
    rwa [drop_left]
  | cons r rs ih =>
    obtain ⟨fuel, rfl⟩ : ∃ n, fuel = n + 1 := ⟨fuel - 1, by omega⟩
    have hbytes : wire.frames (r :: rs) ++ torn = wire.frame r ++ (wire.frames rs ++ torn) := by
      rw [frames_cons, append_assoc]
    have hparse : wire.parse ((before ++ (wire.frames (r :: rs) ++ torn)).drop before.length) =
        some (r, wire.frames rs ++ torn) := by
      rw [drop_left, hbytes, parse_frame (hfits r mem_cons_self)]
    have hnext := @ih (offset + (wire.frame r).length) fuel (before ++ wire.frame r)
      (fun x hx => hfits x (mem_cons_of_mem _ hx)) (by simpa using hfuel)
    rw [length_append, append_assoc] at hnext
    rw [readFrames_of_some hparse, hbytes, hnext, entries, filter_cons]
    by_cases hle : startOffset ≤ offset
    · rw [if_pos hle, if_pos (decide_eq_true hle)]
      rfl
    · rw [if_neg hle, if_neg (by simpa using hle), nil_append]

/-- **What `replay_from` takes from a segment**: the records of its bytes, whatever they are. -/
theorem readFrames_records (startOffset start : ℕ) (bytes : Bytes) :
    readFrames startOffset bytes (bytes.length + 1) 0 start =
      (wire.entries start (wire.records bytes)).filter fun e => decide (startOffset ≤ e.1) := by
  have hle : (wire.records bytes).length ≤ bytes.length := by
    have h := congrArg length (wire.frames_records bytes)
    have := wire.length_le_frames (wire.records bytes)
    rw [length_append] at h
    omega
  have h := @readFrames_eq startOffset start (bytes.length + 1) [] (wire.tail bytes) (wire.records bytes)
    (wire.fits_records bytes) (wire.parse_tail bytes) (Nat.lt_succ_of_le hle)
  rwa [wire.frames_records bytes, nil_append] at h

end Frames

/-- The tiers hold complete groups, and a last one with bytes behind it that are no frame. -/
structure Layout (d : Disk) (full : List (List Bytes)) (synced pending : List Bytes) (torn : Bytes) : Prop where
  nonempty : ∀ g ∈ full, g ≠ []
  fits : ∀ r ∈ full.flatten ++ (synced ++ pending), wire.Fits r
  unread : wire.parse torn = none
  active : d.segments.lookup (Replaylog.sizeOf full) = some (wire.frames (synced ++ pending) ++ torn)
  /-- A local copy of a sealed segment may be left, and no later segment. -/
  newest_le : ∀ s ∈ d.segments, s ≤ Replaylog.sizeOf full
  cold : ∀ e ∈ wire.pack 0 full, d.cold.lookup (.segment e.1) = some (wire.frames e.2)
  /-- Of the newest segment an older copy may be in the blob store. -/
  keys : ∀ key ∈ d.cold, ∃ start ∈ startsOf full, key = .segment start
  durable : d.durable = wire.size synced

namespace Layout

variable {d d' : Disk} {full : List (List Bytes)} {synced pending : List Bytes} {torn : Bytes}

/-- The newest local segment starts behind the full ones. -/
theorem newest (h : Layout d full synced pending torn) : d.newest = Replaylog.sizeOf full := by
  have hmem : Replaylog.sizeOf full ∈ d.segments := mem_of_lookup h.active
  rw [Disk.newest, Disk.localSegmentStarts, getLast?_sortedKeys hmem h.newest_le, Option.getD_some]

/-- It holds the frames of its records, and what is torn behind them. -/
theorem content (h : Layout d full synced pending torn) :
    d.content (Replaylog.sizeOf full) = wire.frames (synced ++ pending) ++ torn := by
  rw [Disk.content, h.active, Option.getD_some]

/-- A full segment starts below the newest. -/
theorem lt_of_mem_pack (h : Layout d full synced pending torn) {e : ℕ × List Bytes} (he : e ∈ wire.pack 0 full) :
    e.1 < Replaylog.sizeOf full :=
  (pairwise_append.1 (Replaylog.Layout.pairwise_startsOf h.nonempty)).2.2 e.1 (mem_map_of_mem he) _
    (mem_singleton_self _)

/-- `append` has checked the size of every record. -/
theorem fits_last (h : Layout d full synced pending torn) : ∀ r ∈ synced ++ pending, wire.Fits r := fun r hr =>
  h.fits r (mem_append_right _ hr)

/-- Only the newest local segment changes. -/
theorem set_active (h : Layout d full synced pending torn) {synced' pending' : List Bytes} {torn' : Bytes}
    (hfits : ∀ r ∈ synced' ++ pending', wire.Fits r) (htorn : wire.parse torn' = none)
    (hseg : d'.segments = d.segments.insert (Replaylog.sizeOf full) (wire.frames (synced' ++ pending') ++ torn'))
    (hcold : d'.cold = d.cold) (hdurable : d'.durable = wire.size synced') :
    Layout d' full synced' pending' torn' where
  nonempty := h.nonempty
  fits := forall_mem_append.2 ⟨(forall_mem_append.1 h.fits).1, hfits⟩
  unread := htorn
  active := by rw [hseg, AList.lookup_insert]
  newest_le s hs := by
    rw [hseg, AList.mem_insert] at hs
    rcases hs with rfl | hs
    · exact le_refl _
    · exact h.newest_le s hs
  cold := by rw [hcold]; exact h.cold
  keys := by rw [hcold]; exact h.keys
  durable := hdurable

/-- **A crash keeps the synced records**, and of the others the first ones. -/
theorem crash (h : Layout d full synced pending []) (kept : ℕ) :
    ∃ k torn, Layout (d.crash kept) full synced (pending.take k) torn := by
  have hpending : ∀ r ∈ pending, wire.Fits r := fun r hr => h.fits_last r (mem_append_right _ hr)
  obtain ⟨k, torn, htake, htorn⟩ := exists_take_frames hpending (max d.durable kept - wire.size synced)
  refine ⟨k, torn, ?_⟩
  have hmem : d.newest ∈ d.segments := by
    rw [h.newest]
    exact mem_of_lookup h.active
  have hcut : (d.content d.newest).take (max d.durable kept) = wire.frames (synced ++ pending.take k) ++ torn := by
    have hsize : (wire.frames synced).length ≤ max d.durable kept := by
      rw [h.durable]
      exact le_max_left _ _
    rw [h.newest, h.content, append_nil, frames_append, take_append, take_of_length_le hsize,
      frames_append, append_assoc, ← htake]
    rfl
  rw [Disk.crash, if_pos hmem]
  refine h.set_active (forall_mem_append.2 ⟨(forall_mem_append.1 h.fits_last).1, fun r hr => hpending r
    (mem_of_mem_take hr)⟩) htorn ?_ rfl h.durable
  rw [hcut, h.newest]

end Layout

/-- An open log holds complete groups and a last one, and ends behind the last record. -/
structure Holds (l : TieredLog) (full : List (List Bytes)) (synced pending : List Bytes) : Prop where
  layout : Layout l.disk full synced pending []
  activeStart : l.activeStart = Replaylog.sizeOf full
  writeOffset : l.writeOffset = Replaylog.sizeOf full + wire.size (synced ++ pending)
  segmentBytes : 0 < l.segmentBytes

/-- `open` on what a crash has left. -/
theorem holds_open {d : Disk} {full : List (List Bytes)} {synced pending : List Bytes} {torn : Bytes}
    (h : Layout d full synced pending torn) (segmentBytes : ℕ) :
    Holds (.open d segmentBytes) full synced pending := by
  have hscan : scanValidLen ((d.content d.newest).length + 1) (d.content d.newest) 0 =
      wire.size (synced ++ pending) := by
    have hlen := wire.length_le_frames (synced ++ pending)
    have hfuel : (synced ++ pending).length < (wire.frames (synced ++ pending) ++ torn).length + 1 := by
      refine Nat.lt_succ_of_le (hlen.trans ?_)
      rw [@length_append _ (wire.frames _)]
      exact Nat.le_add_right _ _
    have hvalid := @scanValidLen_eq [] torn _ _ h.fits_last h.unread hfuel
    rw [h.newest, h.content]
    rwa [nil_append, length_nil, Nat.zero_add] at hvalid
  refine ⟨?_, h.newest, ?_, ?_⟩
  · refine h.set_active h.fits_last parse_nil ?_ rfl ?_
    · change d.segments.insert d.newest ((d.content d.newest).take _) = _
      rw [hscan, h.newest, h.content, append_nil, take_left' (by rfl)]
    · change min d.durable _ = _
      rw [hscan, h.durable, size_append]
      exact min_eq_left (Nat.le_add_right _ _)
  · change d.newest + _ = _
    rw [hscan, h.newest]
  · exact lt_of_lt_of_le (by decide) (le_max_right segmentBytes 1024)

/-- `open` where there is nothing. -/
theorem holds_open_empty (segmentBytes : ℕ) : Holds (.open .empty segmentBytes) [] [] [] where
  layout :=
    { nonempty := nofun
      fits := nofun
      unread := parse_nil
      active := rfl
      newest_le := fun s hs => by
        rcases (AList.mem_insert _).1 hs with rfl | hs
        · exact le_refl _
        · exact absurd hs (AList.notMem_empty s)
      cold := nofun
      keys := fun key hkey => absurd hkey (AList.notMem_empty key)
      durable := rfl }
  activeStart := rfl
  writeOffset := rfl
  segmentBytes := lt_of_lt_of_le (by decide) (le_max_right segmentBytes 1024)

namespace Holds

variable {l : TieredLog} {full : List (List Bytes)} {synced pending : List Bytes}

/-- An open log has no torn tail: `open` has cut it off. -/
theorem content (h : Holds l full synced pending) : l.disk.content l.activeStart = wire.frames (synced ++ pending) := by
  rw [h.activeStart, h.layout.content, append_nil]

/-- `sync`: all records are synced. -/
theorem sync (h : Holds l full synced pending) : Holds l.sync full (synced ++ pending) [] :=
  { h with
    layout :=
      { h.layout with
        fits := by rw [append_nil]; exact h.layout.fits
        active := by
          rw [append_nil (synced ++ pending)]
          exact h.layout.active
        durable := congrArg length h.content }
    writeOffset := by rw [append_nil]; exact h.writeOffset }

/-- A copy of the newest segment in the blob store changes no group. -/
theorem offload (h : Holds l full synced pending) : Holds l.offload full synced pending :=
  { h with
    layout :=
      { h.layout with
        cold := fun e he => by
          have hne : BlobKey.segment e.1 ≠ .segment l.activeStart := by
            rw [h.activeStart]
            exact fun heq => (h.layout.lt_of_mem_pack he).ne (BlobKey.segment.inj heq)
          exact (AList.lookup_insert_ne hne).trans (h.layout.cold e he)
        keys := fun key hkey => by
          rcases (AList.mem_insert _).1 hkey with rfl | hkey
          · refine ⟨l.activeStart, ?_, rfl⟩
            rw [h.activeStart]
            exact mem_append_right _ (mem_singleton_self _)
          · exact h.layout.keys key hkey } }

/-- The new segment is created: the last group, which is in the blob store, is complete. -/
theorem createNext (h : Holds l full synced []) (hsynced : synced ≠ [])
    (hcold : l.disk.cold.lookup (.segment l.activeStart) = some (wire.frames synced)) :
    Holds l.createNext (full ++ [synced]) [] [] := by
  have hsize : Replaylog.sizeOf (full ++ [synced]) = Replaylog.sizeOf full + wire.size synced := by
    rw [Replaylog.sizeOf, flatten_concat, size_append]
  have hpack : wire.pack 0 (full ++ [synced]) = wire.pack 0 full ++ [(Replaylog.sizeOf full, synced)] := by
    rw [pack_append, Nat.zero_add]
    rfl
  have hend : l.writeOffset = Replaylog.sizeOf (full ++ [synced]) := by
    rw [h.writeOffset, append_nil, hsize]
  have hpos := size_pos (K := wire) hsynced
  have hfresh : l.disk.content l.writeOffset = [] := by
    rw [Disk.content, AList.lookup_eq_none.2, Option.getD_none]
    intro hmem
    have := h.layout.newest_le _ hmem
    omega
  refine ⟨⟨forall_mem_append.2 ⟨h.layout.nonempty, forall_mem_singleton.2 hsynced⟩, fun r hr => ?_, parse_nil, ?_,
    fun s hs => ?_, fun e he => ?_, fun key hkey => ?_, rfl⟩, hend, ?_, h.segmentBytes⟩
  · rw [flatten_concat, append_nil, append_nil] at hr
    refine h.layout.fits r ?_
    rwa [append_nil]
  · change (l.disk.segments.insert l.writeOffset (l.disk.content l.writeOffset)).lookup _ = _
    rw [← hend, AList.lookup_insert, hfresh]
    rfl
  · rcases (AList.mem_insert _).1 hs with rfl | hs
    · exact hend.le
    · have := h.layout.newest_le s hs
      omega
  · rw [hpack] at he
    rcases mem_append.1 he with he | he
    · exact h.layout.cold e he
    · rw [mem_singleton.1 he, ← h.activeStart]
      exact hcold
  · obtain ⟨start, hstart, rfl⟩ := h.layout.keys key hkey
    refine ⟨start, mem_append_left _ ?_, rfl⟩
    rw [hpack, map_append]
    exact hstart
  · rw [append_nil, size_nil, Nat.add_zero]
    exact hend

/-- A copy of a sealed segment is removed. -/
theorem evict (h : Holds l full synced pending) {start : ℕ} (hstart : start ≠ l.activeStart) :
    Holds (l.evict start) full synced pending :=
  { h with
    layout :=
      { h.layout with
        active := by
          rw [h.activeStart] at hstart
          exact (AList.lookup_erase_ne hstart.symm).trans h.layout.active
        newest_le := fun s hs => h.layout.newest_le s (AList.mem_erase.1 hs).2 } }

/-- A full segment has a record in it. -/
theorem last_ne_nil (h : Holds l full synced pending) (hfull : l.Full) : synced ++ pending ≠ [] := by
  intro hnil
  have hle : l.segmentBytes ≤ l.writeOffset - l.activeStart := hfull
  have hpos := h.segmentBytes
  rw [h.writeOffset, h.activeStart, hnil, size_nil] at hle
  omega

/-- **Behind each step of `seal_and_rotate`** the records are where they can be found: nothing has happened, or
all of them are synced and the last group is still open, or it is complete. -/
theorem sealTo (h : Holds l full synced pending) (hfull : l.Full) (behind : SealStep) :
    (behind = .entered ∧ Holds (l.sealTo behind) full synced pending) ∨
      (behind ≠ .entered ∧ (Holds (l.sealTo behind) full (synced ++ pending) [] ∨
        Holds (l.sealTo behind) (full ++ [synced ++ pending]) [] [])) := by
  have hlast := h.last_ne_nil hfull
  have hoffload := h.sync.offload
  have hcold : l.sync.offload.disk.cold.lookup (.segment l.activeStart) = some (wire.frames (synced ++ pending)) :=
    (AList.lookup_insert _).trans (congrArg some h.content)
  have hcreate := hoffload.createNext hlast hcold
  cases behind with
  | entered => exact .inl ⟨rfl, h⟩
  | synced => exact .inr ⟨SealStep.noConfusion, .inl h.sync⟩
  | offloaded => exact .inr ⟨SealStep.noConfusion, .inl hoffload⟩
  | created => exact .inr ⟨SealStep.noConfusion, .inr hcreate⟩
  | evicted =>
    refine .inr ⟨SealStep.noConfusion, .inr (hcreate.evict ?_)⟩
    have hpos := size_pos (K := wire) hlast
    change l.activeStart ≠ l.writeOffset
    rw [h.activeStart, h.writeOffset]
    omega

/-- A record is written behind the others. -/
theorem write (h : Holds l full synced pending) {record : Bytes} (hfits : wire.Fits record) :
    Holds (l.write record) full synced (pending ++ [record]) := by
  have hpos : l.writeOffset - l.activeStart = (wire.frames (synced ++ pending)).length := by
    rw [h.writeOffset, h.activeStart]
    exact Nat.add_sub_cancel_left _ _
  have hframes : wire.frames (synced ++ (pending ++ [record])) = wire.frames (synced ++ pending) ++ wire.frame record := by
    rw [← append_assoc, frames_append, frames_cons, frames_nil, append_nil]
  refine ⟨h.layout.set_active (fun r hr => ?_) parse_nil ?_ rfl h.layout.durable, h.activeStart, ?_, h.segmentBytes⟩
  · rw [← append_assoc] at hr
    rcases mem_append.1 hr with hr | hr
    · exact h.layout.fits_last r hr
    · rwa [mem_singleton.1 hr]
  · change l.disk.segments.insert l.activeStart _ = _
    rw [h.content, hpos, take_length, drop_eq_nil_of_le (Nat.le_add_right _ _), append_nil,
      append_nil, hframes, h.activeStart]
  · change l.writeOffset + (8 + record.length) = _
    rw [h.writeOffset, size, size, hframes, length_append, length_frame]
    omega

end Holds

end Datarail.Tieredlog
