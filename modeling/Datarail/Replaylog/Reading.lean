/-
# What the readers of a partition return

`scan_starts` reads a whole log with a `Replay` and finds where each record starts, whatever is torn at
its end (`Stores.scanStarts`).

`read_sealed_from` reads one segment only.  From the start of a record it returns that record
and some of those behind it (`Published.read`).
-/

import Datarail.Replaylog.Cursor
import Datarail.Replaylog.Partition

namespace Datarail.Replaylog

open Lib List Codec

theorem size_le_volume {f : Files} {torn : Bytes} {start : ℕ} {gs : List (List Bytes)}
    (h : Contents f.segments torn start gs) :
    wire.size gs.flatten ≤ (((wire.pack start gs).map Prod.fst).map fun s => (f.content s).length).sum := by
  induction gs generalizing start with
  | nil => exact le_refl _
  | cons g gs ih =>
    have hrest := ih h.2
    rw [flatten_cons, size_append, pack, map_cons, map_cons, sum_cons,
      Files.content, h.1, Option.getD_some, length_append]
    exact Nat.add_le_add (Nat.le_add_right _ _) hrest

namespace Layout

variable {f : Files} {full : List (List Bytes)} {last : List Bytes} {torn : Bytes}

/-- The segment that a record is in, and what is in it from the record on. -/
theorem exists_segment (h : Layout f full last torn) {i : ℕ} (hi : i < (full.flatten ++ last).length) :
    ∃ start segStart content record todo more, (wire.offsets 0 (full.flatten ++ last))[i]? = some start ∧
      (f.segmentStarts.reverse.find? fun s => decide (s ≤ start)) = some segStart ∧ segStart ≤ start ∧
      f.segments.lookup segStart = some content ∧
      content.drop (start - segStart) = wire.frames (record :: todo) ++ more ∧ wire.parse more = none ∧
      (∀ x ∈ record :: todo, wire.Fits x) ∧ (record :: todo) <+: (full.flatten ++ last).drop i := by
  rw [← flatten_concat] at hi
  obtain ⟨before, g, after, done, record, todo, hgroups, rfl, rfl⟩ := exists_group hi
  have hrecords : full.flatten ++ last = (before.flatten ++ done) ++ record :: (todo ++ after.flatten) :=
    records_of_split hgroups
  have hlookup := contents_at (by rw [← hgroups]; exact h.contents)
  rw [Nat.zero_add] at hlookup
  refine ⟨wire.size before.flatten + wire.size done, wire.size before.flatten, _, record, todo, behind torn after,
    ?_, ?_, Nat.le_add_right _ _, hlookup, ?_, parse_behind h.unread after, fun x hx => ?_, ?_⟩
  · rw [hrecords, ← length_append, getElem?_offsets, size_append, Nat.zero_add]
  · -- later segments start behind the record, its own segment does not
    rw [h.segmentStarts_eq, hgroups, pack_append, pack, map_append, map_cons,
      Nat.zero_add, reverse_append, reverse_cons, append_assoc, find?_append]
    have hlater : (((wire.pack (wire.size before.flatten + wire.size (done ++ record :: todo)) after).map
        Prod.fst).reverse.find? fun s => decide (s ≤ wire.size before.flatten + wire.size done)) = none := by
      refine find?_eq_none.2 fun s hs => ?_
      obtain ⟨e, he, rfl⟩ := mem_map.1 (mem_reverse.1 hs)
      have hlow := (le_of_mem_pack he).1
      have hpos := length_pos_of_ne_nil (wire.frame_ne_nil record)
      rw [size_append, size_cons] at hlow
      simp only [decide_eq_true_eq]
      omega
    rw [hlater, Option.none_or, singleton_append, find?_cons_of_pos (by simp)]
  · rw [Nat.add_sub_cancel_left, frames_append, append_assoc, size, drop_left]
  · refine h.fits x ?_
    rw [hrecords]
    exact mem_append_right _ (by simpa [or_assoc] using Or.inl (mem_cons.1 hx))
  · rw [hrecords, ← length_append, drop_left]
    exact ⟨after.flatten, by rw [cons_append]⟩

end Layout

section Scan

variable {l : ReplayLog} {records : List Bytes} {torn : Bytes}

/-- The loop of `scan_starts` finds where the records start that a reader yields. -/
theorem Yields.scanLoop {view : View} {r : Replay} {es : List (ℕ × Bytes)} (h : Yields view r es) {fuel : ℕ}
    (hfuel : es.length < fuel) : Replaylog.scanLoop view fuel r = .ok (es.map Prod.fst) := by
  induction es generalizing r fuel with
  | nil =>
    obtain ⟨r', hr'⟩ := h
    cases fuel with
    | zero => omega
    | succ fuel =>
      simp only [Replaylog.scanLoop, hr']
      rfl
  | cons e es ih =>
    obtain ⟨r', hr', hrest⟩ := h
    cases fuel with
    | zero => omega
    | succ fuel =>
      have hscan := ih hrest (Nat.lt_of_succ_lt_succ hfuel)
      simp only [Replaylog.scanLoop, hr', hscan]
      rfl

/-- **`scan_starts` finds where each record starts**, whatever is torn at the end. -/
theorem Stores.scanStarts (h : Stores l records torn) : scanStarts l = .ok (wire.offsets 0 records) := by
  obtain ⟨full, last, hl, rfl⟩ := h
  obtain ⟨g, gs, hsplit⟩ := exists_cons_of_ne_nil (show full ++ [last] ≠ [] by simp)
  have hflat : g ++ gs.flatten = full.flatten ++ last := by
    rw [← flatten_cons, ← hsplit, flatten_concat]
  have hin : gs = [] ∨ g ≠ [] := by
    by_cases hgs : gs = []
    · exact .inl hgs
    · refine .inr (hl.layout.nonempty g ?_)
      have := congrArg dropLast hsplit
      rw [dropLast_concat, dropLast_cons_of_ne_nil hgs] at this
      rw [this]
      exact mem_cons_self
  -- nothing changes on the disk meanwhile
  have hkeeps : Keeps l.files.still 0 full last :=
    ⟨fun _ => hl.layout.complete, fun _ => ⟨torn, by rw [Nat.zero_add]; exact hl.layout.active⟩⟩
  obtain ⟨r, hr, hstream⟩ := @Holds.replayFrom [] g _ l full last torn hl hkeeps [] gs hsplit hin
  have hleft : leftOver ⟨0, g, []⟩ [] g (partsOf (0 + wire.size g) gs) = wire.entries 0 (full.flatten ++ last) := by
    rw [leftOver, entries_partsOf, ← hflat, entries_append]
    rfl
  have hyields := hstream.yields
  change Yields _ r (leftOver ⟨0, g, []⟩ [] g (partsOf (0 + wire.size g) gs)) at hyields
  rw [hleft] at hyields
  have hvolume := size_le_volume hl.layout.contents
  rw [flatten_concat, ← hl.layout.segmentStarts_eq] at hvolume
  have hlen := (length_le_frames (K := wire) _).trans hvolume
  have hscan := hyields.scanLoop (show _ < l.files.volume + 1 by
    rw [length_entries]
    exact Nat.lt_succ_of_le hlen)
  rw [map_fst_entries] at hscan
  change l.replayFrom l.files.still 0 = .ok r at hr
  simp only [Replaylog.scanStarts, hr, hscan]

end Scan

section ReadLoop

variable {torn : Bytes}

theorem readLoop_frame {record : Bytes} (hfits : wire.Fits record) (fuel : ℕ) (bytes : Bytes) (read maxBytes : ℤ) :
    readLoop (fuel + 1) (wire.frame record ++ bytes) read maxBytes =
      if maxBytes ≤ read + Kafka.clampI64 record.length then [record]
      else record :: readLoop fuel bytes (read + Kafka.clampI64 record.length) maxBytes := by
  obtain ⟨h₁, hn, hmax, h₃, h₄, hbody, hrest⟩ := parse_some (parse_frame hfits bytes)
  simp only [readLoop, hn]
  rw [if_neg h₁, if_neg (by omega), if_neg h₃, if_neg (not_ne_iff.2 h₄), hbody, hrest]

theorem readLoop_torn (htorn : wire.parse torn = none) (fuel : ℕ) (read maxBytes : ℤ) :
    readLoop fuel torn read maxBytes = [] := by
  cases fuel with
  | zero => rfl
  | succ fuel =>
    rw [parse_eq] at htorn
    simp only [readLoop]
    by_cases h₁ : torn.length < 4
    · rw [if_pos h₁]
    · by_cases h₂ : maxRecord < leNat (torn.take 4)
      · rw [if_neg h₁, if_pos h₂]
      · rw [if_neg h₁, if_neg (by simpa using h₂)] at htorn
        rw [if_neg h₁, if_neg h₂]
        split_ifs at htorn with h₃ h₄
        · rw [if_pos h₃]
        · rw [if_neg h₃, if_pos h₄]

/-- A read returns some of the records that are left in the segment. -/
theorem readLoop_frames {rs : List Bytes} (hfits : ∀ r ∈ rs, wire.Fits r) (htorn : wire.parse torn = none)
    {fuel : ℕ} (hfuel : rs.length < fuel) (read maxBytes : ℤ) :
    ∃ k, readLoop fuel (wire.frames rs ++ torn) read maxBytes = rs.take k := by
  induction rs generalizing fuel read with
  | nil => exact ⟨0, readLoop_torn htorn fuel read maxBytes⟩
  | cons r rs ih =>
    cases fuel with
    | zero => omega
    | succ fuel =>
      rw [frames_cons, append_assoc, readLoop_frame (hfits r mem_cons_self)]
      split_ifs
      · exact ⟨1, rfl⟩
      · obtain ⟨k, hk⟩ := ih (fun x hx => hfits x (mem_cons_of_mem _ hx))
          (Nat.lt_of_succ_lt_succ hfuel) (read + Kafka.clampI64 r.length)
        exact ⟨k + 1, by rw [hk]; rfl⟩

end ReadLoop

/-- A partition log publishes the records that its log stores. -/
structure Published (p : SealedPartitionLog) (records : List Bytes) (torn : Bytes) : Prop where
  stores : Stores p.log records torn
  starts : p.starts = wire.offsets 0 records

namespace Published

variable {p : SealedPartitionLog} {records : List Bytes} {torn : Bytes}

theorem length_starts (h : Published p records torn) : p.starts.length = records.length := by
  rw [h.starts, length_offsets]

variable {i : ℕ}

/-- A read goes through the segment from the record on. -/
theorem readSealedFrom_eq {i start segStart : ℕ} {content : Bytes} (hstart : p.starts[i]? = some start)
    (hseg : (p.log.files.segmentStarts.reverse.find? fun s => decide (s ≤ start)) = some segStart)
    (hlookup : p.log.files.segments.lookup segStart = some content) (maxBytes : ℤ) :
    p.readSealedFrom i maxBytes =
      .ok (readLoop ((content.drop (start - segStart)).length + 1) (content.drop (start - segStart)) 0 maxBytes) := by
  have hfind : ((p.log.files.segmentStarts.reverse.find? fun s => decide (s ≤ start)).getD 0) = segStart := by
    rw [hseg, Option.getD_some]
  unfold SealedPartitionLog.readSealedFrom
  simp only [hstart]
  rw [hfind, hlookup]

/-- **A read returns consecutive records**, at least one if there is one. -/
theorem read (h : Published p records torn) (hi : i < records.length) (maxBytes : ℤ) :
    ∃ k, 0 < k ∧ p.readSealedFrom i maxBytes = .ok ((records.drop i).take k) := by
  obtain ⟨full, last, hl, rfl⟩ := h.stores
  obtain ⟨start, segStart, content, record, todo, more, hstart, hseg, -, hlookup, hdrop, hmore, hfits, hpre⟩ :=
    hl.layout.exists_segment hi
  rw [← h.starts] at hstart
  have hlen := length_le_frames (K := wire) (record :: todo)
  have hfuel : (record :: todo).length < (content.drop (start - segStart)).length + 1 := by
    rw [hdrop, length_append]
    omega
  obtain ⟨rest, hrest⟩ := hpre
  have hloop : ∃ k, readLoop ((content.drop (start - segStart)).length + 1) (content.drop (start - segStart)) 0
      maxBytes = record :: todo.take k := by
    rw [hdrop] at hfuel ⊢
    rw [frames_cons, append_assoc, readLoop_frame (hfits record mem_cons_self)]
    split_ifs
    · exact ⟨0, rfl⟩
    · obtain ⟨k, hk⟩ := readLoop_frames (fun x hx => hfits x (mem_cons_of_mem _ hx)) hmore
        (Nat.lt_of_succ_lt_succ (by rw [frames_cons, append_assoc] at hfuel; exact hfuel))
        (0 + Kafka.clampI64 record.length) maxBytes
      exact ⟨k, by rw [hk]⟩
  obtain ⟨k, hk⟩ := hloop
  refine ⟨min k todo.length + 1, Nat.succ_pos _, ?_⟩
  rw [readSealedFrom_eq hstart hseg hlookup, hk, ← hrest, cons_append, take_succ_cons,
    take_append_of_le_length (Nat.min_le_right _ _), ← take_take, take_length]

/-- A read at or past the end returns nothing. -/
theorem read_end (h : Published p records torn) (hi : records.length ≤ i) (maxBytes : ℤ) :
    p.readSealedFrom i maxBytes = .ok [] := by
  have hnone : p.starts[i]? = none := getElem?_eq_none (by rw [h.length_starts]; exact hi)
  simp only [SealedPartitionLog.readSealedFrom, hnone]

end Published

end Datarail.Replaylog
