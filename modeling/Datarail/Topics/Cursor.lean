/-
# The cursor of a consumer group

The records of a topic are `rs`, and a group stands before one of them, the one with the number `i` (`At`).  The
reader it keeps was made earlier: it has the records up to the number `j` that were there then, and the log has
grown since.  What a reader has left does not change when the log grows (`Reading.grown`).

`At.dispatchNext` says all that a poll can do: with no member nothing; else it returns the record of the group's
number, and the group stands before the next one, or nothing, and the group stands where it stood.  It returns
nothing only at the end, or if the reader is at its end, and then there is no reader any more.
-/

import Datarail.Topics.Server

namespace Datarail.Topics

open Lib List Codec
open Replaylog (ReplayLog Replay ReplayError Files View wire Part Shows Stream Reads leftOver partsOf Keeps Extends)

section Reading

variable {view view' : View} {r : Replay} {p : Part} {done todo : List Bytes} {ps : List Part}

/-- A reader does not depend on how it got where it is. -/
theorem stream_of_shows (h : Stream view r p done todo ps) (hshows : Shows view' r.stop p ps) :
    Stream view' r p done todo ps :=
  ⟨h.split, hshows, h.fits, h.pos, h.file, h.bytes, h.starts, h.opened⟩

/-- Only what is on disk counts, not how reads are cut. -/
theorem shows_congr (hsame : ∀ k, (view' k).segments = (view k).segments) {stop : ℕ} (h : Shows view stop p ps) :
    Shows view' stop p ps := by
  induction ps generalizing p with
  | nil => exact ⟨fun k => by rw [hsame]; exact h.1 k, h.2⟩
  | cons q ps ih =>
    obtain ⟨hlookup, hjunk, hlt, hle, hq⟩ := h
    exact ⟨fun k => by rw [hsame]; exact hlookup k, hjunk, hlt, hle, ih hq⟩

theorem stream_during {f : Files} {short : ℕ} (h : Stream (during f short) r p done todo ps) (short' : ℕ) :
    Stream (during f short') r p done todo ps :=
  stream_of_shows h (@shows_congr (during f short) (during f short') p ps (fun _ => rfl) r.stop h.shows)

/-- A reader that has some records left. -/
def Reading (f : Files) (r : Replay) (es : List (ℕ × Bytes)) : Prop :=
  ∃ p done todo ps, Stream (during f 0) r p done todo ps ∧ leftOver p done todo ps = es

variable {f : Files} {es : List (ℕ × Bytes)}

/-- `read_next` on a reader with nothing left. -/
theorem Reading.readNext_nil (h : Reading f r []) (short : ℕ) : ∃ r', r.readNext (during f short) = .ok (r', none) := by
  obtain ⟨p, done, todo, ps, hstream, hleft⟩ := h
  have hreads := (stream_during hstream short).readNext
  rw [hleft] at hreads
  exact hreads

/-- `read_next` on a reader with a record left. -/
theorem Reading.readNext_cons {e : ℕ × Bytes} (h : Reading f r (e :: es)) (short : ℕ) :
    ∃ r', r.readNext (during f short) = .ok (r', some e) ∧ Reading f r' es := by
  obtain ⟨p, done, todo, ps, hstream, hleft⟩ := h
  have hreads := (stream_during hstream short).readNext
  rw [hleft] at hreads
  obtain ⟨r', p', done', todo', ps', hr', hstream', hleft'⟩ := hreads
  exact ⟨r', hr', p', done', todo', ps', stream_during hstream' 0, hleft'⟩

end Reading

section Grown

variable {l l' : ReplayLog} {full full' : List (List Bytes)} {last last' : List Bytes}

/-- A segment of a log that has grown: a complete one is as it was, the last one may have more bytes. -/
theorem lookup_grown (h : Replaylog.Holds l full last []) (h' : Replaylog.Holds l' full' last' [])
    (hext : Extends full last full' last') {s : ℕ} {bytes : Bytes} (hs : l.files.segments.lookup s = some bytes) :
    (s < Replaylog.sizeOf full ∧ l'.files.segments.lookup s = some bytes) ∨
      (s = Replaylog.sizeOf full ∧ ∃ more, l'.files.segments.lookup s = some (bytes ++ more)) := by
  obtain ⟨hcomplete, more, hactive⟩ := h'.layout.of_extends hext
  have hmem : s ∈ l.files.segments := mem_of_lookup hs
  rcases mem_append.1 ((h.layout.has s).1 hmem) with hin | hin
  · obtain ⟨e, he, rfl⟩ := mem_map.1 hin
    obtain rfl : wire.frames e.2 = bytes := Option.some.inj ((h.layout.complete e he).symm.trans hs)
    exact .inl ⟨h.layout.lt_of_mem_pack he, hcomplete e he⟩
  · obtain rfl := mem_singleton.1 hin
    have hbytes := h.layout.active.symm.trans hs
    rw [append_nil] at hbytes
    obtain rfl := Option.some.inj hbytes
    exact .inr ⟨rfl, more, hactive⟩

theorem le_of_lookup (h : Replaylog.Holds l full last []) {s : ℕ} {bytes : Bytes}
    (hs : l.files.segments.lookup s = some bytes) : s ≤ Replaylog.sizeOf full := by
  rcases lookup_grown h h (.refl full last) hs with ⟨hlt, -⟩ | ⟨rfl, -⟩
  · exact hlt.le
  · exact le_refl _

theorem shows_grown (h : Replaylog.Holds l full last []) (h' : Replaylog.Holds l' full' last' [])
    (hext : Extends full last full' last') {stop : ℕ} {p : Part} {ps : List Part}
    (hshows : Shows (during l.files 0) stop p ps) : Shows (during l'.files 0) stop p ps := by
  induction ps generalizing p with
  | nil =>
    refine ⟨fun k => ?_, hshows.2⟩
    obtain ⟨more, hmore⟩ := hshows.1 k
    rcases lookup_grown h h' hext hmore with ⟨-, hsame⟩ | ⟨-, more', hsame⟩
    · exact ⟨more, hsame⟩
    · exact ⟨more ++ more', by rw [← append_assoc]; exact hsame⟩
  | cons q ps ih =>
    obtain ⟨hlookup, hjunk, hlt, hle, hq⟩ := hshows
    refine ⟨fun k => ?_, hjunk, hlt, hle, ih hq⟩
    -- a segment with one behind it is complete
    obtain ⟨more, hnext, -⟩ := hq.lookup 0
    have hbound := le_of_lookup h hnext
    rcases lookup_grown h h' hext (hlookup k) with ⟨-, hsame⟩ | ⟨heq, -⟩
    · exact hsame
    · omega

/-- **What a reader has left stays while the log grows.** -/
theorem Reading.grown {r : Replay} {es : List (ℕ × Bytes)} (hr : Reading l.files r es)
    (h : Replaylog.Holds l full last []) (h' : Replaylog.Holds l' full' last' [])
    (hext : Extends full last full' last') : Reading l'.files r es := by
  obtain ⟨p, done, todo, ps, hstream, hleft⟩ := hr
  exact ⟨p, done, todo, ps, stream_of_shows hstream (shows_grown h h' hext hstream.shows), hleft⟩

end Grown

/-- Where the record with a number starts. -/
def offsetOf (rs : List Bytes) (i : ℕ) : ℕ := wire.size (rs.take i)

variable {rs : List Bytes}

theorem offsetOf_succ {i : ℕ} {x : Bytes} (h : rs[i]? = some x) :
    offsetOf rs (i + 1) = offsetOf rs i + 8 + x.length := by
  rw [offsetOf, offsetOf, take_add_one, h, Option.toList_some, size_append, size_cons, size_nil, Replaylog.length_frame]
  omega

/-- The records with the numbers from `i` to `j`, each with its offset. -/
def between (rs : List Bytes) (i j : ℕ) : List (ℕ × Bytes) := (wire.entries 0 (rs.take j)).drop i

theorem between_self (rs : List Bytes) (i : ℕ) : between rs i i = [] := by
  rw [between, drop_eq_nil_of_le]
  rw [length_entries, length_take]
  exact Nat.min_le_left _ _

theorem between_lt {i j : ℕ} (hij : i < j) (hj : j ≤ rs.length) :
    ∃ x, rs[i]? = some x ∧ between rs i j = (offsetOf rs i, x) :: between rs (i + 1) j := by
  have hi : i < rs.length := by omega
  refine ⟨rs[i], getElem?_eq_getElem hi, ?_⟩
  have hsplit : rs.take j = rs.take i ++ (rs.take j).drop i := by
    have h := (take_append_drop i (rs.take j)).symm
    rwa [take_take, Nat.min_eq_left hij.le] at h
  have hhead : (rs.take j).drop i = rs[i] :: (rs.take j).drop (i + 1) := by
    rw [drop_eq_getElem_cons (by rw [length_take]; omega), getElem_take]
  have hlen : (rs.take i).length = i := by
    rw [length_take]
    omega
  have hdrop : between rs i j = wire.entries (offsetOf rs i) ((rs.take j).drop i) := by
    have h := drop_entries wire 0 (rs.take i) ((rs.take j).drop i)
    rwa [← hsplit, hlen, Nat.zero_add] at h
  have hnext : between rs (i + 1) j = (between rs i j).drop 1 := by
    rw [between, between, drop_drop]
  rw [hnext, hdrop, hhead]
  rfl

section Numbers

variable {rs : List Bytes} {i j : ℕ}

theorem offsetOf_append (h : i ≤ rs.length) (more : List Bytes) : offsetOf (rs ++ more) i = offsetOf rs i := by
  rw [offsetOf, offsetOf, take_append_of_le_length h]

end Numbers

/-- The log holds some records. -/
def HoldsAll (l : ReplayLog) (rs : List Bytes) : Prop :=
  ∃ full last, Replaylog.Holds l full last [] ∧ rs = full.flatten ++ last

/-- A reader that is made at a record, or at the end, has all from there on. -/
theorem HoldsAll.replayFrom {l : ReplayLog} (h : HoldsAll l rs) {i : ℕ} (hi : i ≤ rs.length) (short : ℕ) :
    ∃ r, l.replayFrom (during l.files short) (offsetOf rs i) = .ok r ∧ Reading l.files r (between rs i rs.length) := by
  obtain ⟨full, last, hl, rfl⟩ := h
  have hkeeps : Keeps (during l.files short) 0 full last :=
    ⟨fun _ => hl.layout.complete, fun _ => ⟨[], by rw [Nat.zero_add]; exact hl.layout.active⟩⟩
  have hflat : (full ++ [last]).flatten = full.flatten ++ last := by
    rw [flatten_concat]
  -- the segment with the record, or the last one
  obtain ⟨before, done, todo, after, hsplit, hin, hnum⟩ : ∃ before done todo after,
      full ++ [last] = before ++ (done ++ todo) :: after ∧ (after = [] ∨ todo ≠ []) ∧
        i = (before.flatten ++ done).length := by
    rcases Nat.lt_or_eq_of_le hi with hlt | rfl
    · rw [← hflat] at hlt
      obtain ⟨before, g, after, done, x, todo, hsplit, rfl, hnum⟩ := exists_group hlt
      exact ⟨before, done, x :: todo, after, hsplit, .inr (cons_ne_nil _ _), by rw [hnum, length_append]⟩
    · exact ⟨full, last, [], [], by rw [append_nil], .inl rfl, rfl⟩
  obtain ⟨r, hr, hstream⟩ := hl.replayFrom hkeeps hsplit hin
  have hrecords : full.flatten ++ last = (before.flatten ++ done) ++ (todo ++ after.flatten) := by
    rw [← hflat, hsplit, flatten_append, flatten_cons]
    simp only [append_assoc]
  have hoffset : offsetOf (full.flatten ++ last) i = wire.size before.flatten + wire.size done := by
    rw [offsetOf, hrecords, hnum, take_left' rfl, size_append]
  refine ⟨r, by rw [hoffset]; exact hr, _, _, _, _, stream_during hstream 0, ?_⟩
  rw [leftOver, Replaylog.entries_partsOf, between, take_length, hrecords, hnum, drop_entries,
    entries_append, size_append, size_append, Nat.zero_add, ← Nat.add_assoc]

/-- A group stands before the record with a number. -/
structure At (l : ReplayLog) (rs : List Bytes) (g : Group) (i : ℕ) : Prop where
  le : i ≤ rs.length
  cursor : g.cursor = offsetOf rs i
  replay : ∀ r, g.replay = some r → ∃ j, i ≤ j ∧ j ≤ rs.length ∧ Reading l.files r (between rs i j)

/-- Each record can be split. -/
def WellFormed (rs : List Bytes) : Prop := ∀ x ∈ rs, ∃ record, splitRecord x = some record

namespace At

variable {l : ReplayLog} {rs : List Bytes} {g : Group} {i : ℕ}

/-- The group has the reader it needs. -/
theorem reader (h : At l rs g i) (hl : HoldsAll l rs) (short : ℕ) :
    ∃ r j, (Topic.mk l).reader (during l.files short) g = .ok r ∧ i ≤ j ∧ j ≤ rs.length ∧
      Reading l.files r (between rs i j) ∧ (g.replay = none → j = rs.length) := by
  rcases hreplay : g.replay with _ | r
  · obtain ⟨r, hr, hreading⟩ := hl.replayFrom h.le short
    refine ⟨r, rs.length, ?_, h.le, le_refl _, hreading, fun _ => rfl⟩
    rw [Topic.reader, hreplay, h.cursor]
    exact hr
  · obtain ⟨j, hij, hj, hreading⟩ := h.replay r hreplay
    exact ⟨r, j, by rw [Topic.reader, hreplay], hij, hj, hreading, nofun⟩

/-- **All that a poll can do.** -/
theorem dispatchNext (h : At l rs g i) (hl : HoldsAll l rs) (hwell : WellFormed rs) (hmembers : g.router.nodes ≠ [])
    (short : ℕ) :
    (∃ g' x d, (Topic.mk l).dispatchNext short g = (g', .ok (some d)) ∧ rs[i]? = some x ∧
      splitRecord x = some (d.key, d.payload) ∧ At l rs g' (i + 1) ∧ g'.router = g.router) ∨
    ((Topic.mk l).dispatchNext short g = ({ g with replay := none }, .ok none) ∧ (g.replay = none → i = rs.length)) := by
  obtain ⟨r, j, hr, hij, hj, hreading, hnew⟩ := h.reader hl short
  rcases Nat.lt_or_eq_of_le hij with hlt | rfl
  · obtain ⟨x, hx, hbetween⟩ := between_lt hlt hj
    rw [hbetween] at hreading
    obtain ⟨r', hr', hreading'⟩ := hreading.readNext_cons short
    obtain ⟨⟨key, payload⟩, hsplit⟩ := hwell x (mem_of_getElem? hx)
    obtain ⟨member, hroute⟩ := Router.exists_routeKeyhash hmembers (fnv1a key)
    refine .inl ⟨{ g with cursor := offsetOf rs i + 8 + x.length, replay := some r' }, x,
      ⟨member, offsetOf rs i, key, payload⟩, ?_, hx, hsplit, ⟨?_, ?_, ?_⟩, rfl⟩
    · simp only [Topic.dispatchNext, if_neg hmembers, hr, hr', hsplit, Router.route, hroute]
    · omega
    · exact (offsetOf_succ hx).symm
    · rintro r'' heq
      obtain rfl := Option.some.inj heq
      exact ⟨j, hlt, hj, hreading'⟩
  · rw [between_self] at hreading
    obtain ⟨r', hr'⟩ := hreading.readNext_nil short
    refine .inr ⟨?_, fun hnone => hnew hnone⟩
    simp only [Topic.dispatchNext, if_neg hmembers, hr, hr']

/-- A group without its reader stands where it stood. -/
theorem forget (h : At l rs g i) : At l rs { g with replay := none } i :=
  ⟨h.le, h.cursor, nofun⟩

/-- A group stands where it stood when records are added. -/
theorem grown (h : At l rs g i) {l' : ReplayLog} {more : List Bytes}
    (hreading : ∀ r es, Reading l.files r es → Reading l'.files r es) : At l' (rs ++ more) g i := by
  refine ⟨?_, ?_, fun r hr => ?_⟩
  · rw [length_append]
    exact h.le.trans (Nat.le_add_right _ _)
  · rw [offsetOf_append h.le]
    exact h.cursor
  · obtain ⟨j, hij, hj, hread⟩ := h.replay r hr
    refine ⟨j, hij, ?_, ?_⟩
    · rw [length_append]
      exact hj.trans (Nat.le_add_right _ _)
    · rw [between, take_append_of_le_length hj]
      exact hreading r _ hread

end At

end Datarail.Topics
