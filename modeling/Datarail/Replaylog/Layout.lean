/-
# What the segments of a replay log hold

The records of a log are in groups, one group a segment.  `Layout` says that a directory holds
the groups `full`, which are complete, and the group `last`, with some bytes behind it that are
no frame.  `Holds` says it of an open log, whose logical end is behind the last record.

The operations are then what they are for.  `open` drops the bytes behind the last record
(`holds_open`), a rotation starts an empty group (`Holds.rotate`), and a write puts a record
at the end, or a part of its frame behind it (`Holds.write`).  `append` is followed through all
it can do by `Holds.append`.
-/

import Datarail.Lib.Segments
import Datarail.Replaylog.Log
import Mathlib.Data.List.TakeWhile

namespace Datarail.Replaylog

open Lib List Codec Nat AList ReplayLog Prod

section Frames

theorem parse_eq (bytes : Bytes) : wire.parse bytes = if bytes.length < 4 then none
    else if decide (leNat (bytes.take 4) ≤ maxRecord) = false then none
    else if bytes.length < 4 + leNat (bytes.take 4) + 4 then none
    else if (bytes.drop (4 + leNat (bytes.take 4))).take 4 ≠
      checks.checksum (bytes.take (4 + leNat (bytes.take 4))) then none
    else some ((bytes.drop 4).take (leNat (bytes.take 4)), bytes.drop (4 + leNat (bytes.take 4) + 4)) := rfl

/-- What a reader checks, in one: the bytes begin with a frame exactly if all four tests pass. -/
theorem parse_some {bytes body rest : Bytes} (h : wire.parse bytes = some (body, rest)) :
    ¬ bytes.length < 4 ∧ leNat (bytes.take 4) = body.length ∧ body.length ≤ maxRecord ∧
      ¬ bytes.length < 4 + body.length + 4 ∧
      (bytes.drop (4 + body.length)).take 4 = checks.checksum (bytes.take (4 + body.length)) ∧
      (bytes.drop 4).take body.length = body ∧ bytes.drop (4 + body.length + 4) = rest := by
  rw [parse_eq] at h
  split_ifs at h with h₁ h₂ h₃ h₄
  obtain ⟨hbody, hrest⟩ := mk.inj (Option.some.inj h)
  have hmax : leNat (bytes.take 4) ≤ maxRecord := by simpa using h₂
  have hlen : leNat (bytes.take 4) = body.length := by
    rw [← hbody, length_take, length_drop]
    omega
  rw [hlen] at h₃ h₄ hbody hrest hmax
  exact ⟨h₁, hlen, hmax, h₃, not_ne_iff.1 h₄, hbody, hrest⟩

/-- The scan that opens a log finds the whole frames. -/
theorem scanValidLen_eq {before torn : Bytes} {rs : List Bytes} {fuel : ℕ} (hfits : ∀ r ∈ rs, wire.Fits r)
    (htorn : wire.parse torn = none) (hfuel : rs.length < fuel) :
    scanValidLen fuel (before ++ (wire.frames rs ++ torn)) before.length = before.length + wire.size rs := by
  induction rs generalizing before fuel with
  | nil =>
    cases fuel with
    | zero => omega
    | succ fuel =>
      rw [parse_eq] at htorn
      simp only [scanValidLen, frames_nil, nil_append, drop_left, length_append, size_nil, add_zero]
      by_cases h₁ : torn.length < 4
      · rw [if_pos (by omega)]
      · rw [if_neg h₁] at htorn
        rw [if_neg (by omega)]
        by_cases h₂ : leNat (torn.take 4) ≤ maxRecord
        · rw [if_neg (by simpa using h₂)] at htorn
          rw [if_neg (by omega)]
          by_cases h₃ : torn.length < 4 + leNat (torn.take 4) + 4
          · rw [if_pos (by omega)]
          · rw [if_neg h₃] at htorn
            rw [if_neg (by omega)]
            by_cases h₄ : (torn.drop (4 + leNat (torn.take 4))).take 4 ≠
                checks.checksum (torn.take (4 + leNat (torn.take 4)))
            · rw [if_pos h₄]
            · rw [if_neg h₄] at htorn
              cases htorn
        · rw [if_pos (by omega)]
  | cons r rs ih =>
    cases fuel with
    | zero => omega
    | succ fuel =>
      have hr := hfits r mem_cons_self
      have hbytes : wire.frames (r :: rs) ++ torn = wire.frame r ++ (wire.frames rs ++ torn) := by
        rw [frames_cons, append_assoc]
      obtain ⟨h₁, hlen, hmax, h₃, h₄, -, -⟩ := parse_some (parse_frame hr (wire.frames rs ++ torn))
      have hframe := length_frame r
      have hnext := @ih (before ++ wire.frame r) fuel
        (fun x hx => hfits x (mem_cons_of_mem _ hx)) (by simpa using hfuel)
      rw [length_append, append_assoc] at hnext
      rw [scanValidLen, hbytes]
      have hall : (before ++ (wire.frame r ++ (wire.frames rs ++ torn))).length =
          before.length + (wire.frame r ++ (wire.frames rs ++ torn)).length := length_append
      simp only [drop_left, hlen, hall]
      rw [if_neg (by omega), if_neg (by omega), if_neg (by omega), if_neg (not_ne_iff.2 h₄),
        show before.length + 4 + r.length + 4 = before.length + (wire.frame r).length by omega, hnext,
        size_cons, add_assoc]

/-- A part of bytes that are no frame is no frame. -/
theorem parse_take_none {torn : Bytes} (h : wire.parse torn = none) (n : ℕ) : wire.parse (torn.take n) = none := by
  rcases hp : wire.parse (torn.take n) with _ | ⟨r, rest⟩
  · rfl
  · obtain ⟨hfits, htake⟩ := wire.parse_eq_some.1 hp
    have hwhole : torn = wire.frame r ++ (rest ++ torn.drop n) := by
      rw [← append_assoc, ← htake, take_append_drop]
    rw [hwhole, parse_frame hfits] at h
    cases h

end Frames

/-- The directory has the segments `starts`. -/
def Files.Has (f : Files) (starts : List ℕ) : Prop := ∀ s, s ∈ f.segments ↔ s ∈ starts

theorem Files.Has.segmentStarts {f : Files} {starts : List ℕ} (h : f.Has starts)
    (hsorted : starts.Pairwise (· < ·)) : f.segmentStarts = starts := by
  have hnodup : starts.Nodup := hsorted.imp fun hlt => hlt.ne
  have hperm : f.segments.keys.Perm starts :=
    (perm_ext_iff_of_nodup f.segments.keys_nodup hnodup).2 fun s => h s
  refine Perm.eq_of_pairwise' (pairwise_insertionSort _ _) (hsorted.imp fun hlt => hlt.le)
    ((perm_insertionSort _ _).trans hperm)

/-- The bytes of the complete groups. -/
abbrev sizeOf (full : List (List Bytes)) : ℕ := wire.size full.flatten

/-- Where the segments start. -/
def startsOf (full : List (List Bytes)) : List ℕ := (wire.pack 0 full).map fst ++ [sizeOf full]

/-- A directory that holds complete groups, and a last one with bytes behind it that are no frame. -/
structure Layout (f : Files) (full : List (List Bytes)) (last : List Bytes) (torn : Bytes) : Prop where
  nonempty : ∀ g ∈ full, g ≠ []
  fits : ∀ r ∈ full.flatten ++ last, wire.Fits r
  unread : wire.parse torn = none
  has : f.Has (startsOf full)
  complete : ∀ e ∈ wire.pack 0 full, f.segments.lookup e.1 = some (wire.frames e.2)
  active : f.segments.lookup (sizeOf full) = some (wire.frames last ++ torn)

namespace Layout

variable {f : Files} {full : List (List Bytes)} {last : List Bytes} {torn : Bytes}

theorem pairwise_startsOf (h : ∀ g ∈ full, g ≠ []) : (startsOf full).Pairwise (· < ·) := by
  refine pairwise_append.2 ⟨pairwise_pack h, pairwise_singleton _ _, fun s hs t ht => ?_⟩
  obtain ⟨e, he, rfl⟩ := mem_map.1 hs
  obtain ⟨before, after, rfl, hstart⟩ := mem_pack he
  have hpos := size_pos (K := wire) (h e.2 (mem_append_right _ mem_cons_self))
  rw [mem_singleton.1 ht, hstart, sizeOf, flatten_append, flatten_cons, size_append, size_append]
  omega

theorem segmentStarts (h : Layout f full last torn) : f.segmentStarts = startsOf full :=
  h.has.segmentStarts (pairwise_startsOf h.nonempty)

theorem newest (h : Layout f full last torn) : f.segmentStarts.getLast?.getD 0 = sizeOf full := by
  rw [h.segmentStarts, startsOf, getLast?_append_of_ne_nil _ (cons_ne_nil _ _)]
  rfl

theorem content (h : Layout f full last torn) : f.content (sizeOf full) = wire.frames last ++ torn := by
  rw [Files.content, h.active, Option.getD_some]

theorem fits_group (h : Layout f full last torn) {g : List Bytes} (hg : g ∈ full ++ [last]) {x : Bytes} (hx : x ∈ g) :
    wire.Fits x :=
  h.fits x (flatten_concat ▸ mem_flatten_of_mem hg hx)

theorem lt_of_mem_pack (h : Layout f full last torn) {e : ℕ × List Bytes} (he : e ∈ wire.pack 0 full) :
    e.1 < sizeOf full :=
  (pairwise_append.1 (pairwise_startsOf h.nonempty)).2.2 e.1 (mem_map_of_mem he) _ (mem_singleton_self _)

/-- Only the last segment is written. -/
theorem set_active (h : Layout f full last torn) {last' : List Bytes} {torn' : Bytes} {f' : Files}
    (hfits : ∀ r ∈ last', wire.Fits r) (htorn : wire.parse torn' = none)
    (hseg : f'.segments = f.segments.insert (sizeOf full) (wire.frames last' ++ torn')) :
    Layout f' full last' torn' where
  nonempty := h.nonempty
  fits := forall_mem_append.2 ⟨(forall_mem_append.1 h.fits).1, hfits⟩
  unread := htorn
  has s := by
    rw [hseg, mem_insert, h.has s, or_iff_right_iff_imp]
    rintro rfl
    exact mem_append_right _ (mem_singleton_self _)
  complete e he := by
    rw [hseg, lookup_insert_ne (h.lt_of_mem_pack he).ne]
    exact h.complete e he
  active := by rw [hseg, lookup_insert]

/-- A new segment behind a group that is not empty. -/
theorem rotated (h : Layout f full last []) (hlast : last ≠ []) {f' : Files}
    (hseg : f'.segments = f.segments.insert (sizeOf full + wire.size last) (f.content (sizeOf full + wire.size last))) :
    Layout f' (full ++ [last]) [] [] := by
  have hsize : sizeOf (full ++ [last]) = sizeOf full + wire.size last := by
    rw [sizeOf, flatten_concat, size_append]
  have hpack : wire.pack 0 (full ++ [last]) = wire.pack 0 full ++ [(sizeOf full, last)] := by
    rw [pack_append, zero_add]
    rfl
  have hpos := size_pos (K := wire) hlast
  have hfresh : f.segments.lookup (sizeOf full + wire.size last) = none := by
    refine lookup_eq_none.2 fun hmem => ?_
    rcases mem_append.1 ((h.has _).1 hmem) with hs | hs
    · obtain ⟨e, he, heq⟩ := mem_map.1 hs
      have := h.lt_of_mem_pack he
      omega
    · have := mem_singleton.1 hs
      omega
  refine ⟨forall_mem_append.2 ⟨h.nonempty, forall_mem_singleton.2 hlast⟩, fun r hr => ?_, parse_nil, fun s => ?_,
    fun e he => ?_, ?_⟩
  · rw [flatten_concat, append_nil] at hr
    exact h.fits r hr
  · rw [hseg, mem_insert, h.has s, startsOf, startsOf, hpack, hsize, map_append]
    simp only [mem_append, mem_singleton, map_cons, map_nil]
    exact or_comm
  · have hne : e.1 ≠ sizeOf full + wire.size last := by
      rw [hpack] at he
      rcases mem_append.1 he with he | he
      · have := h.lt_of_mem_pack he
        omega
      · rw [mem_singleton.1 he]
        exact Nat.ne_of_lt (Nat.lt_add_of_pos_right hpos)
    rw [hseg, lookup_insert_ne hne]
    rw [hpack] at he
    rcases mem_append.1 he with he | he
    · exact h.complete e he
    · rw [mem_singleton.1 he, h.active, append_nil]
  · rw [hseg, hsize, lookup_insert, Files.content, hfresh]
    rfl

end Layout

section Split

variable {full before after : List (List Bytes)} {last g done todo : List Bytes}

/-- The complete groups, if a group is singled out. -/
theorem full_of_split (h : full ++ [last] = before ++ g :: after) : full = before ++ (g :: after).dropLast := by
  have := congrArg dropLast h
  rwa [dropLast_concat, dropLast_append_of_ne_nil (cons_ne_nil _ _)] at this

/-- The records, if a place in a group is singled out. -/
theorem records_of_split (h : full ++ [last] = before ++ (done ++ todo) :: after) :
    full.flatten ++ last = (before.flatten ++ done) ++ (todo ++ after.flatten) := by
  rw [← flatten_concat, h, flatten_append, flatten_cons]
  simp only [append_assoc]

end Split

/-- What is behind the records of a segment: torn bytes, in the last segment only. -/
def behind (torn : Bytes) : List (List Bytes) → Bytes
  | [] => torn
  | _ :: _ => []

/-- The segments from a start on hold some groups. -/
def Contents (segments : AList fun _ : ℕ => Bytes) (torn : Bytes) : ℕ → List (List Bytes) → Prop
  | _, [] => True
  | start, g :: gs => segments.lookup start = some (wire.frames g ++ behind torn gs) ∧
      Contents segments torn (start + wire.size g) gs

section Contents

variable {segments : AList fun _ : ℕ => Bytes} {torn : Bytes}

theorem contents_at {start : ℕ} {before after : List (List Bytes)} {g : List Bytes}
    (h : Contents segments torn start (before ++ g :: after)) :
    segments.lookup (start + wire.size before.flatten) = some (wire.frames g ++ behind torn after) := by
  induction before generalizing start with
  | nil => exact h.1
  | cons g' before ih =>
    have := ih h.2
    rwa [flatten_cons, size_append, ← add_assoc]

theorem contents_of_complete {start : ℕ} {full : List (List Bytes)} {last : List Bytes}
    (hfull : ∀ e ∈ wire.pack start full, segments.lookup e.1 = some (wire.frames e.2))
    (hlast : segments.lookup (start + wire.size full.flatten) = some (wire.frames last ++ torn)) :
    Contents segments torn start (full ++ [last]) := by
  induction full generalizing start with
  | nil => exact ⟨hlast, trivial⟩
  | cons g gs ih =>
    have hbehind : behind torn (gs ++ [last]) = [] := by cases gs <;> rfl
    refine ⟨?_, ih (fun e he => hfull e (mem_cons_of_mem _ he)) ?_⟩
    · rw [hfull (start, g) mem_cons_self]
      change some (wire.frames g) = some (wire.frames g ++ behind torn (gs ++ [last]))
      rw [hbehind, append_nil]
    · rwa [flatten_cons, size_append, ← add_assoc] at hlast

theorem parse_behind (h : wire.parse torn = none) (gs : List (List Bytes)) : wire.parse (behind torn gs) = none := by
  cases gs with
  | nil => exact h
  | cons g gs => exact parse_nil

end Contents

/-- The last of the starts at or below an offset. -/
theorem index_of_starts {earlier later : List ℕ} {start offset : ℕ} (hearlier : ∀ s ∈ earlier, s ≤ start)
    (hstart : start ≤ offset) (hlater : ∀ s ∈ later, offset < s) :
    ((earlier ++ start :: later).takeWhile fun s => decide (s ≤ offset)).length - 1 = earlier.length := by
  have hnone : later.takeWhile (fun s => decide (s ≤ offset)) = [] := by
    cases later with
    | nil => rfl
    | cons s later => exact takeWhile_cons_of_neg (by simpa using hlater s mem_cons_self)
  rw [takeWhile_append_of_pos fun s hs => decide_eq_true ((hearlier s hs).trans hstart),
    takeWhile_cons_of_pos (by simpa using hstart), hnone, length_append, length_singleton]
  exact Nat.add_sub_cancel _ _

namespace Layout

variable {f : Files} {full before after : List (List Bytes)} {last g : List Bytes} {torn : Bytes}

theorem contents (h : Layout f full last torn) : Contents f.segments torn 0 (full ++ [last]) :=
  contents_of_complete h.complete (by rw [zero_add]; exact h.active)

theorem segmentStarts_eq (h : Layout f full last torn) : f.segmentStarts = (wire.pack 0 (full ++ [last])).map fst := by
  rw [h.segmentStarts, startsOf, pack_append, map_append, zero_add]
  rfl

/-- The starts of the segments before a group, of its own, and of those behind it. -/
theorem starts_split (h : Layout f full last torn) (hsplit : full ++ [last] = before ++ g :: after) :
    f.segmentStarts = (wire.pack 0 before).map fst ++ wire.size before.flatten ::
      (wire.pack (wire.size before.flatten + wire.size g) after).map fst := by
  rw [h.segmentStarts_eq, hsplit, pack_append, map_append, zero_add]
  rfl

/-- The segment that an offset is in. -/
theorem segment_index (h : Layout f full last torn) (hsplit : full ++ [last] = before ++ g :: after) {offset : ℕ}
    (hlow : wire.size before.flatten ≤ offset) (hhigh : after = [] ∨ offset < wire.size before.flatten + wire.size g) :
    (f.segmentStarts.takeWhile fun s => decide (s ≤ offset)).length - 1 = before.length := by
  have hindex := @index_of_starts ((wire.pack 0 before).map fst)
    ((wire.pack (wire.size before.flatten + wire.size g) after).map fst) (wire.size before.flatten) offset ?_ hlow ?_
  · rwa [← h.starts_split hsplit, length_map, length_pack] at hindex
  · intro s hs
    obtain ⟨e, he, rfl⟩ := mem_map.1 hs
    have := (le_of_mem_pack he).2
    omega
  · intro s hs
    obtain ⟨e, he, rfl⟩ := mem_map.1 hs
    have := (le_of_mem_pack he).1
    rcases hhigh with rfl | hhigh
    · cases he
    · omega

theorem getElem?_segmentStarts (h : Layout f full last torn) (hsplit : full ++ [last] = before ++ g :: after) :
    f.segmentStarts[before.length]? = some (wire.size before.flatten) := by
  have hlen : ((wire.pack 0 before).map fst).length = before.length := by
    rw [length_map, length_pack]
  rw [h.starts_split hsplit, getElem?_append_right hlen.le, hlen, Nat.sub_self]
  rfl

theorem drop_segmentStarts (h : Layout f full last torn) (hsplit : full ++ [last] = before ++ g :: after) :
    f.segmentStarts.drop (before.length + 1) = (wire.pack (wire.size before.flatten + wire.size g) after).map fst := by
  have hlen : ((wire.pack 0 before).map fst).length = before.length := by
    rw [length_map, length_pack]
  rw [h.starts_split hsplit, ← drop_drop, ← hlen, drop_left]
  rfl

theorem lookup_group (h : Layout f full last torn) (hsplit : full ++ [last] = before ++ g :: after) :
    f.segments.lookup (wire.size before.flatten) = some (wire.frames g ++ behind torn after) := by
  have hcontents := h.contents
  rw [hsplit] at hcontents
  have := contents_at hcontents
  rwa [zero_add] at this

end Layout

/-- An open log holds complete groups and a last one, and ends behind the last record. -/
structure Holds (l : ReplayLog) (full : List (List Bytes)) (last : List Bytes) (torn : Bytes) : Prop where
  layout : Layout l.files full last torn
  activeStart : l.activeStart = sizeOf full
  writeOffset : l.writeOffset = sizeOf full + wire.size last
  segmentBytes : 0 < l.segmentBytes

/-- The groups of a log after it has grown: the last one has more records, and there may be groups behind it. -/
def Extends (full : List (List Bytes)) (last : List Bytes) (full' : List (List Bytes)) (last' : List Bytes) : Prop :=
  (full' = full ∧ last <+: last') ∨ ∃ g rest, full' = full ++ g :: rest ∧ last <+: g

namespace Extends

variable {full full' full'' : List (List Bytes)} {last last' last'' : List Bytes}

theorem refl (full : List (List Bytes)) (last : List Bytes) : Extends full last full last :=
  .inl ⟨rfl, prefix_rfl⟩

theorem rotated (full : List (List Bytes)) (last : List Bytes) : Extends full last (full ++ [last]) [] :=
  .inr ⟨last, [], rfl, prefix_rfl⟩

theorem trans (h : Extends full last full' last') (h' : Extends full' last' full'' last'') :
    Extends full last full'' last'' := by
  rcases h with ⟨rfl, hlast⟩ | ⟨g, rest, rfl, hlast⟩
  · rcases h' with ⟨rfl, hlast'⟩ | ⟨g', rest', rfl, hlast'⟩
    · exact .inl ⟨rfl, hlast.trans hlast'⟩
    · exact .inr ⟨g', rest', rfl, hlast.trans hlast'⟩
  · rcases h' with ⟨rfl, -⟩ | ⟨g', rest', rfl, -⟩
    · exact .inr ⟨g, rest, rfl, hlast⟩
    · refine .inr ⟨g, rest ++ g' :: rest', ?_, hlast⟩
      rw [append_assoc]
      rfl

end Extends

/-- An open log stores some records, in order. -/
def Stores (l : ReplayLog) (records : List Bytes) (torn : Bytes) : Prop :=
  ∃ full last, Holds l full last torn ∧ records = full.flatten ++ last

section Operations

variable {l : ReplayLog} {full : List (List Bytes)} {last records : List Bytes} {torn : Bytes}

/-- `open` drops what is behind the last record. -/
theorem holds_open {f : Files} (h : Layout f full last torn) (segmentBytes : ℕ) :
    Holds (ReplayLog.open f segmentBytes) full last [] := by
  have hlen := length_le_frames (K := wire) last
  have hscan := @scanValidLen_eq [] torn last ((f.content (sizeOf full)).length + 1)
    (fun r hr => h.fits r (mem_append_right _ hr)) h.unread
    (by rw [h.content, length_append]; omega)
  rw [nil_append, length_nil, zero_add, ← h.content] at hscan
  refine ⟨h.set_active (fun r hr => h.fits r (mem_append_right _ hr)) parse_nil ?_, ?_, ?_, ?_⟩
  · simp only [ReplayLog.open, Files.fsyncDir, h.newest, hscan]
    rw [h.content, Codec.size, take_left, append_nil]
  · exact h.newest
  · simp only [ReplayLog.open, h.newest, hscan]
  · exact lt_of_lt_of_le (by decide) (le_max_right segmentBytes 1024)

/-- `open` makes a log where there is none. -/
theorem holds_open_empty (segmentBytes : ℕ) : Holds (ReplayLog.open Files.empty segmentBytes) [] [] [] where
  layout := by
    refine ⟨nofun, nofun, parse_nil, fun s => ?_, nofun, rfl⟩
    change s ∈ insert 0 ([] : Bytes) (∅ : AList fun _ : ℕ => Bytes) ↔ s ∈ [0]
    rw [mem_insert, mem_singleton]
    exact or_iff_left (notMem_empty s)
  activeStart := rfl
  writeOffset := rfl
  segmentBytes := lt_of_lt_of_le (by decide) (le_max_right segmentBytes 1024)

/-- A record that fits is appended when nothing goes wrong. -/
theorem append_calm {record : Bytes} (hfits : wire.Fits record) (l : ReplayLog) :
    ∃ l' offset, l.append .none record = (l', .ok offset) := by
  simp only [ReplayLog.append, if_neg (not_lt.2 (wire_fits.1 hfits))]
  split <;> exact ⟨_, _, rfl⟩

namespace Holds

theorem end_eq (h : Holds l full last torn) : l.writeOffset = wire.size (full ++ [last]).flatten := by
  rw [h.writeOffset, flatten_concat, size_append]

/-- The files change in nothing that is read. -/
theorem of_segments (h : Holds l full last torn) {l' : ReplayLog} (hseg : l'.files.segments = l.files.segments)
    (hstart : l'.activeStart = l.activeStart) (hoff : l'.writeOffset = l.writeOffset)
    (hbytes : l'.segmentBytes = l.segmentBytes) : Holds l' full last torn where
  layout := by
    have := h.layout
    refine ⟨this.nonempty, this.fits, this.unread, fun s => ?_, ?_, ?_⟩
    · rw [hseg]
      exact this.has s
    · rw [hseg]
      exact this.complete
    · rw [hseg]
      exact this.active
  activeStart := hstart.trans h.activeStart
  writeOffset := hoff.trans h.writeOffset
  segmentBytes := by
    rw [hbytes]
    exact h.segmentBytes

/-- Bytes that are written to a log without a torn tail. -/
theorem extend (h : Holds l full last []) {more : List Bytes} {bytes : Bytes} (hmore : ∀ r ∈ more, wire.Fits r)
    (hbytes : wire.parse bytes = none) :
    Holds { l.extend (wire.frames more ++ bytes) with writeOffset := l.writeOffset + wire.size more }
      full (last ++ more) bytes where
  layout := by
    refine h.layout.set_active (forall_mem_append.2 ⟨(forall_mem_append.1 h.layout.fits).2, hmore⟩) hbytes ?_
    simp only [ReplayLog.extend, h.activeStart, h.layout.content]
    rw [append_nil, frames_append, append_assoc]
  activeStart := h.activeStart
  writeOffset := by
    rw [h.writeOffset, size_append, add_assoc]
  segmentBytes := h.segmentBytes

/-- The write of a frame: all of it, or a part. -/
theorem write (h : Holds l full last []) (fault : WriteFault) {record : Bytes} (hfits : wire.Fits record) :
    (∃ l', l.write fault record = (l', .ok l.writeOffset) ∧ Holds l' full (last ++ [record]) []) ∨
      ∃ l' torn, l.write fault record = (l', .error .io) ∧ Holds l' full last torn ∧ (fault = .torn 0 → torn = []) := by
  have hwhole := @extend _ _ _ h [record] [] (by simpa using hfits) parse_nil
  have hsize : wire.size [record] = (wire.frame record).length := by
    rw [size_cons, size_nil, add_zero]
  rw [hsize, append_nil, frames_cons, frames_nil, append_nil] at hwhole
  cases fault with
  | none => exact .inl ⟨_, rfl, hwhole⟩
  | rotateSync => exact .inl ⟨_, rfl, hwhole⟩
  | rotateDir => exact .inl ⟨_, rfl, hwhole⟩
  | torn n =>
    by_cases hn : n < (wire.frame record).length
    · have hpart := @extend _ _ _ h [] _ nofun (parse_torn hfits hn)
      rw [append_nil] at hpart
      refine .inr ⟨_, _, by simp only [ReplayLog.write, if_pos hn]; rfl, hpart, fun hzero => ?_⟩
      rw [WriteFault.torn.inj hzero, take_zero]
    · exact .inl ⟨_, by simp only [ReplayLog.write, if_neg hn], hwhole⟩

/-- A rotation: an empty group, or the log as it was. -/
theorem rotate (h : Holds l full last []) (hlast : last ≠ []) (fault : WriteFault) :
    (∃ l', l.rotate fault = (l', .ok ()) ∧ Holds l' (full ++ [last]) [] [] ∧ l'.writeOffset = l.writeOffset) ∨
      ∃ l' full' last', l.rotate fault = (l', .error .io) ∧ Holds l' full' last' [] ∧
        full'.flatten ++ last' = full.flatten ++ last ∧ Extends full last full' last' := by
  have hsize : sizeOf (full ++ [last]) = sizeOf full + wire.size last := by
    rw [sizeOf, flatten_concat, size_append]
  have hnew : ∀ l' : ReplayLog, l'.files.segments = l.files.segments.insert l.writeOffset
      (l.files.content l.writeOffset) → l'.activeStart = l.writeOffset → l'.writeOffset = l.writeOffset →
      l'.segmentBytes = l.segmentBytes → Holds l' (full ++ [last]) [] [] := by
    intro l' hseg hstart hoff hbytes
    refine ⟨h.layout.rotated hlast (by rw [hseg, h.writeOffset]), ?_, ?_, ?_⟩
    · rw [hstart, h.writeOffset, hsize]
    · rw [hoff, h.writeOffset, hsize]
      rfl
    · rw [hbytes]
      exact h.segmentBytes
  cases fault with
  | none => exact .inl ⟨_, rfl, hnew _ rfl rfl rfl rfl, rfl⟩
  | torn n => exact .inl ⟨_, rfl, hnew _ rfl rfl rfl rfl, rfl⟩
  | rotateSync => exact .inr ⟨l, full, last, rfl, h, rfl, .refl full last⟩
  | rotateDir =>
    refine .inr ⟨_, full ++ [last], [], rfl, hnew _ rfl rfl rfl rfl, ?_, .rotated full last⟩
    rw [flatten_concat, append_nil]

/-- **What `append` can do** to a log without a torn tail, by groups. -/
theorem append (h : Holds l full last []) (fault : WriteFault) (record : Bytes) :
    (∃ l' full' last', l.append fault record = (l', .ok l.writeOffset) ∧ wire.Fits record ∧
        Holds l' full' last' [] ∧ full'.flatten ++ last' = full.flatten ++ last ++ [record] ∧
        Extends full last full' last') ∨
      ∃ l' e full' last' torn, l.append fault record = (l', .error e) ∧ Holds l' full' last' torn ∧
        (fault = .torn 0 → torn = []) ∧ full'.flatten ++ last' = full.flatten ++ last ∧
        Extends full last full' last' := by
  by_cases hlen : maxRecord < record.length
  · exact .inr ⟨l, .tooLarge record.length, full, last, [], by simp only [ReplayLog.append, if_pos hlen], h,
      fun _ => rfl, rfl, .refl full last⟩
  · have hfits : wire.Fits record := wire_fits.2 (by omega)
    -- a full segment is closed first, and that may fail
    have hready : (∃ l₁ full₁ last₁, l.append fault record = l₁.write fault record ∧ Holds l₁ full₁ last₁ [] ∧
          full₁.flatten ++ last₁ = full.flatten ++ last ∧ l₁.writeOffset = l.writeOffset ∧ Extends full last full₁ last₁) ∨
        ∃ l' full' last', l.append fault record = (l', .error .io) ∧ Holds l' full' last' [] ∧
          full'.flatten ++ last' = full.flatten ++ last ∧ Extends full last full' last' := by
      by_cases hfull : l.segmentBytes ≤ l.writeOffset - l.activeStart
      · have hlast : last ≠ [] := by
          rintro rfl
          have := h.segmentBytes
          rw [h.writeOffset, h.activeStart, size_nil] at hfull
          omega
        simp only [ReplayLog.append, if_neg hlen, if_pos hfull]
        rcases h.rotate hlast fault with ⟨l', hrot, hl', hoff⟩ | ⟨l', full', last', hrot, hl'⟩ <;> rw [hrot]
        · refine .inl ⟨l', full ++ [last], [], rfl, hl', ?_, hoff, .rotated full last⟩
          rw [flatten_concat, append_nil]
        · exact .inr ⟨l', full', last', rfl, hl'⟩
      · exact .inl ⟨l, full, last, by simp only [ReplayLog.append, if_neg hlen, if_neg hfull], h, rfl, rfl,
          .refl full last⟩
    rcases hready with ⟨l₁, full₁, last₁, heq, h₁, hsame, hoff, hext⟩ | ⟨l', full', last', heq, hl'⟩ <;> rw [heq]
    · rcases h₁.write fault hfits with ⟨l', hw, hl'⟩ | ⟨l', torn, hw, hl', htorn⟩
      · rw [hoff] at hw
        refine .inl ⟨l', full₁, last₁ ++ [record], hw, hfits, hl', ?_, hext.trans (.inl ⟨rfl, prefix_append _ _⟩)⟩
        rw [← append_assoc, hsame]
      · exact .inr ⟨l', .io, full₁, last₁, torn, hw, hl', htorn, hsame, hext⟩
    · exact .inr ⟨l', .io, full', last', [], rfl, hl'.1, fun _ => rfl, hl'.2⟩

end Holds

namespace Stores

theorem writeOffset (h : Stores l records torn) : l.writeOffset = wire.size records := by
  obtain ⟨full, last, hl, rfl⟩ := h
  rw [hl.writeOffset, size_append]

/-- **What `append` can do** to a log without a torn tail: store the record, or fail and store
nothing. -/
theorem append (h : Stores l records []) (fault : WriteFault) (record : Bytes) :
    (∃ l', l.append fault record = (l', .ok (wire.size records)) ∧ wire.Fits record ∧
        Stores l' (records ++ [record]) []) ∨
      ∃ l' e torn, l.append fault record = (l', .error e) ∧ Stores l' records torn ∧ (fault = .torn 0 → torn = []) := by
  have hoff := h.writeOffset
  obtain ⟨full, last, hl, rfl⟩ := h
  rw [← hoff]
  rcases hl.append fault record with ⟨l', full', last', happ, hfits, hl', hsame, -⟩ |
    ⟨l', e, full', last', torn, happ, hl', htorn, hsame, -⟩
  · exact .inl ⟨l', happ, hfits, full', last', hl', hsame.symm⟩
  · exact .inr ⟨l', e, torn, happ, ⟨full', last', hl', hsame.symm⟩, htorn⟩

/-- `sync` changes nothing that is read. -/
theorem sync (h : Stores l records torn) (fault : SyncFault) : Stores (l.sync fault).1 records torn := by
  obtain ⟨full, last, hl, rfl⟩ := h
  refine ⟨full, last, ?_, rfl⟩
  cases fault with
  | none => exact hl.of_segments rfl rfl rfl rfl
  | file => exact hl
  | dir => exact hl.of_segments rfl rfl rfl rfl

end Stores

end Operations

end Datarail.Replaylog
