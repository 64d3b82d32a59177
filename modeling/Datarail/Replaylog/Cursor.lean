/-
# The reader of a replay log

A `Replay` reads a log that may go on growing, in reads of any length.  `Shows` says what it finds
on disk, whenever it looks: each segment is whole frames and bytes behind them that are no frame, and
nothing of that changes but the last segment, which may get more bytes.  `Stream` describes a reader
in the middle: the buffer has the next bytes of its segment, and the segments it has not opened are
those behind it.

A refill keeps what is left to read (`Stream.refill`), so does the jump to the next segment from bytes
that are no frame (`Stream.resync`), and `read_next` returns the first record that is left, with
its offset (`Stream.readNext`).  A reader yields exactly what is left, and then nothing
(`Stream.yields`).
-/

import Datarail.Replaylog.Layout
import Mathlib.Data.List.Infix

namespace Datarail.Replaylog

open Lib List Codec Nat Replay

/-- A segment as a reader finds it: whole frames, and bytes behind them that are no frame. -/
structure Part where
  start : ℕ
  records : List Bytes
  junk : Bytes

namespace Part

/-- The records of a segment, each with its offset. -/
def entries (p : Part) : List (ℕ × Bytes) := wire.entries p.start p.records

end Part

/-- What a reader finds in a segment and those behind it.  The last one may grow, and the log ends
behind its records. -/
def Shows (view : View) (stop : ℕ) : Part → List Part → Prop
  | p, [] => (∀ k, ∃ more, (view k).segments.lookup p.start = some (wire.frames p.records ++ more)) ∧
      p.start + wire.size p.records = stop
  | p, q :: ps => (∀ k, (view k).segments.lookup p.start = some (wire.frames p.records ++ p.junk)) ∧
      wire.parse p.junk = none ∧ p.start < q.start ∧ p.start + wire.size p.records + p.junk.length ≤ q.start ∧
      Shows view stop q ps

section Shows

variable {view : View} {stop : ℕ} {p : Part} {ps : List Part}

theorem Shows.lookup (h : Shows view stop p ps) (k : ℕ) :
    ∃ more, (view k).segments.lookup p.start = some (wire.frames p.records ++ more) ∧ (ps ≠ [] → more = p.junk) := by
  cases ps with
  | nil =>
    obtain ⟨more, hmore⟩ := h.1 k
    exact ⟨more, hmore, fun hne => absurd rfl hne⟩
  | cons q ps => exact ⟨p.junk, h.1 k, fun _ => rfl⟩

/-- No segment has records behind the end of the log. -/
theorem Shows.le_stop (h : Shows view stop p ps) : p.start + wire.size p.records ≤ stop := by
  induction ps generalizing p with
  | nil => exact h.2.le
  | cons q ps ih =>
    obtain ⟨-, -, -, hle, hq⟩ := h
    have := ih hq
    omega

theorem Shows.lt_start (h : Shows view stop p ps) : ∀ q ∈ ps, p.start < q.start := by
  induction ps generalizing p with
  | nil => exact forall_mem_nil _
  | cons q ps ih =>
    obtain ⟨-, -, hlt, -, hq⟩ := h
    exact forall_mem_cons.2 ⟨hlt, fun q' hq' => hlt.trans (ih hq q' hq')⟩

/-- Without records up to the end of the log there are none. -/
theorem Shows.entries_eq_nil (h : Shows view stop p ps) (hstop : stop ≤ p.start) :
    (p :: ps).flatMap Part.entries = [] := by
  induction ps generalizing p with
  | nil =>
    have hsize : wire.size p.records = 0 := by
      have := h.2
      omega
    rw [flatMap_cons, flatMap_nil, append_nil, Part.entries, size_eq_zero.1 hsize]
    rfl
  | cons q ps ih =>
    obtain ⟨-, -, hlt, -, hq⟩ := h
    have := hq.le_stop
    omega

end Shows

namespace Replay

/-- The logical offset of the next byte. -/
def pos (r : Replay) : ℕ := r.bufBase + r.cursor

/-- The bytes that are read and not consumed. -/
def avail (r : Replay) : Bytes := r.buf.drop r.cursor

end Replay

/-- A reader in a segment, with the records `todo` of it left, and the segments `ps` behind it. -/
structure Stream (view : View) (r : Replay) (p : Part) (done todo : List Bytes) (ps : List Part) : Prop where
  split : p.records = done ++ todo
  shows : Shows view r.stop p ps
  fits : ∀ q ∈ p :: ps, ∀ x ∈ q.records, wire.Fits x
  pos : r.pos = p.start + wire.size done
  file : r.file = some (p.start, wire.size done + r.avail.length)
  bytes : ∃ behind, r.avail <+: wire.frames todo ++ behind ∧ (ps ≠ [] → behind = p.junk)
  starts : r.starts.drop (r.segIdx + 1) = ps.map Part.start
  opened : ∀ s ∈ r.starts.take (r.segIdx + 1), s ≤ p.start

/-- What is left for a reader, each record with its offset. -/
def leftOver (p : Part) (done todo : List Bytes) (ps : List Part) : List (ℕ × Bytes) :=
  wire.entries (p.start + wire.size done) todo ++ ps.flatMap Part.entries

/-- The rounds of the loop of `read_next` that a reader may need. -/
def cost (r : Replay) (ps : List Part) : ℕ :=
  ps.length * roundsPerSegment + (roundsPerSegment - 1 - r.avail.length)

namespace Stream

variable {view : View} {r : Replay} {p : Part} {done todo : List Bytes} {ps : List Part}

theorem compact (h : Stream view r p done todo ps) : Stream view r.compact p done todo ps :=
  { h with }

/-- What is in the file behind the bytes that are read. -/
theorem read_eq (h : Stream view r p done todo ps) (k : ℕ) :
    ∃ more, (ps ≠ [] → more = p.junk) ∧ (view k).read p.start (wire.size done + r.avail.length) =
      ((wire.frames todo ++ more).drop r.avail.length).take (max 1 (refillChunk - (view k).short)) := by
  obtain ⟨more, hlookup, hmore⟩ := h.shows.lookup k
  refine ⟨more, hmore, ?_⟩
  rw [Glance.read, hlookup, Option.getD_some, h.split, frames_append, append_assoc, ← drop_drop, Codec.size, drop_left]

/-- A read that returns bytes. -/
theorem refillLoop_left (h : Stream view r p done todo ps) (hcursor : r.cursor = 0)
    (hread : (view r.looks).read p.start (wire.size done + r.avail.length) ≠ []) (fuel : ℕ) :
    ∃ r', refillLoop view (fuel + 1) r = .ok (r', true) ∧ Stream view r' p done todo ps ∧
      r.avail.length < r'.avail.length ∧ r'.starts = r.starts := by
  obtain ⟨more, hmore, heq⟩ := h.read_eq r.looks
  obtain ⟨behind, hpre, hbehind⟩ := h.bytes
  let bytes := (view r.looks).read p.start (wire.size done + r.avail.length)
  let r' : Replay := { r with
    buf := r.buf ++ bytes, file := some (p.start, wire.size done + r.avail.length + bytes.length)
    looks := r.looks + 1 }
  have havail : r'.avail = r.avail ++ bytes := by
    change (r.buf ++ bytes).drop r.cursor = r.buf.drop r.cursor ++ bytes
    rw [hcursor, drop_zero, drop_zero]
  refine ⟨r', ?_, ⟨h.split, h.shows, h.fits, h.pos, ?_, ?_, h.starts, h.opened⟩, ?_, rfl⟩
  · simp only [refillLoop, h.file, if_neg hread]
    rfl
  · rw [havail, length_append, ← add_assoc]
  · rw [havail]
    have htake : bytes <+: (wire.frames todo ++ more).drop r.avail.length := by
      change (view r.looks).read _ _ <+: _
      rw [heq]
      exact take_prefix _ _
    by_cases hshort : r.avail.length ≤ (wire.frames todo).length
    · -- the bytes behind the records are those the disk has now
      have hpart : r.avail = (wire.frames todo ++ more).take r.avail.length := by
        rw [take_append_of_le_length hshort]
        have := prefix_iff_eq_take.1 hpre
        rwa [take_append_of_le_length hshort] at this
      refine ⟨more, ?_, hmore⟩
      have := (prefix_append_right_inj r.avail).2 htake
      nth_rewrite 2 [hpart] at this
      rwa [take_append_drop] at this
    · obtain ⟨tail, htail⟩ : ∃ tail, r.avail = wire.frames todo ++ tail := by
        obtain ⟨rest, hrest⟩ := hpre
        have hframes : wire.frames todo <+: r.avail := by
          refine prefix_of_prefix_length_le ⟨behind, rfl⟩ ⟨rest, hrest⟩ (by omega)
        obtain ⟨tail, htail⟩ := hframes
        exact ⟨tail, htail.symm⟩
      cases ps with
      | nil =>
        refine ⟨tail ++ bytes, ?_, fun hne => absurd rfl hne⟩
        rw [htail, append_assoc]
      | cons q ps =>
        have hsame : behind = more := (hbehind (cons_ne_nil _ _)).trans (hmore (cons_ne_nil _ _)).symm
        refine ⟨behind, ?_, hbehind⟩
        have hpart := prefix_iff_eq_take.1 hpre
        have := (prefix_append_right_inj r.avail).2 htake
        nth_rewrite 2 [hpart] at this
        rwa [← hsame, take_append_drop] at this
  · have := length_pos_of_ne_nil hread
    rw [havail, length_append]
    exact Nat.lt_add_of_pos_right this

variable {qs : List Part} {q : Part}

/-- A segment is opened at the start of a record. -/
theorem opened_at (hshows : Shows view r.stop q qs)
    (hfits : ∀ p ∈ q :: qs, ∀ x ∈ p.records, wire.Fits x) (hstart : r.starts[r.segIdx]? = some q.start)
    (hstarts : r.starts.drop (r.segIdx + 1) = qs.map Part.start)
    (hopened : ∀ s ∈ r.starts.take (r.segIdx + 1), s ≤ q.start) (hsplit : q.records = done ++ todo) :
    ∃ r', r.openSegment view (q.start + wire.size done) = .ok r' ∧ Stream view r' q done todo qs ∧ r'.avail = [] ∧
      r'.cursor = 0 ∧ r'.starts = r.starts ∧ r'.stop = r.stop := by
  obtain ⟨more, hlookup, -⟩ := hshows.lookup r.looks
  refine ⟨{ r with
    file := some (q.start, wire.size done), buf := [], cursor := 0, bufBase := q.start + wire.size done
    looks := r.looks + 1 }, ?_, ⟨hsplit, hshows, hfits, rfl, rfl, ⟨q.junk, nil_prefix, fun _ => rfl⟩, hstarts,
    hopened⟩, rfl, rfl, rfl, rfl⟩
  simp only [Replay.openSegment, hstart, hlookup, Nat.add_sub_cancel_left]

/-- The segment that comes next. -/
theorem following (h : Stream view r p done todo (q :: qs)) :
    r.starts[r.segIdx + 1]? = some q.start ∧ r.starts.drop (r.segIdx + 1 + 1) = qs.map Part.start ∧
      ∀ s ∈ r.starts.take (r.segIdx + 1 + 1), s ≤ q.start := by
  have hdrop := h.starts
  have hnext : r.starts[r.segIdx + 1]? = some q.start := by
    rw [← head?_drop, hdrop]
    rfl
  refine ⟨hnext, ?_, fun s hs => ?_⟩
  · rw [← drop_drop, hdrop]
    rfl
  · rw [take_add_one, hnext, Option.toList_some] at hs
    obtain ⟨-, -, hlt, -, -⟩ := h.shows
    rcases mem_append.1 hs with hs | hs
    · exact (h.opened s hs).trans hlt.le
    · exact (mem_singleton.1 hs).le

/-- At the end of a segment the reader opens the next one. -/
theorem next (h : Stream view r p done todo (q :: qs)) :
    ∃ r', { r with file := none, segIdx := r.segIdx + 1, looks := r.looks + 1 }.openSegment view q.start = .ok r' ∧
      Stream view r' q [] q.records qs ∧ r'.avail = [] ∧ r'.cursor = 0 ∧ r'.starts = r.starts := by
  obtain ⟨hnext, hrest, hopened⟩ := h.following
  obtain ⟨-, -, -, -, hshows⟩ := h.shows
  obtain ⟨r', hr', hstream, havail, hcursor, hsame, -⟩ := @opened_at view
    { r with file := none, segIdx := r.segIdx + 1, looks := r.looks + 1 } [] q.records qs q hshows
    (fun p hp => h.fits p (mem_cons_of_mem _ hp)) hnext hrest hopened rfl
  exact ⟨r', hr', hstream, havail, hcursor, hsame⟩

/-- A read at the end of a segment without records left goes on to the next one that has bytes. -/
theorem refillLoop_next (h : Stream view r p done [] ps)
    (hread : (view r.looks).read p.start (wire.size done + r.avail.length) = []) {fuel : ℕ} (hfuel : ps.length < fuel) :
    (∃ r' q qs, refillLoop view fuel r = .ok (r', true) ∧ Stream view r' q [] q.records qs ∧
        qs.length < ps.length ∧ leftOver q [] q.records qs = leftOver p done [] ps ∧ r'.starts = r.starts) ∨
      ∃ r', refillLoop view fuel r = .ok (r', false) ∧ leftOver p done [] ps = [] := by
  induction ps generalizing r p done fuel with
  | nil =>
    cases fuel with
    | zero => omega
    | succ fuel =>
      have hnone : r.starts[r.segIdx + 1]? = none := by
        rw [← head?_drop, h.starts]
        rfl
      refine .inr ⟨{ r with file := none, segIdx := r.segIdx + 1, looks := r.looks + 1 }, ?_, rfl⟩
      simp only [refillLoop, h.file, hread, if_true, hnone]
  | cons q qs ih =>
    cases fuel with
    | zero => omega
    | succ fuel =>
      obtain ⟨hnext, -, -⟩ := h.following
      obtain ⟨r₁, hopen, hstream, havail, hcursor, hstarts⟩ := h.next
      have hloop : refillLoop view (fuel + 1) r = refillLoop view fuel r₁ := by
        simp only [refillLoop, h.file, hread, if_true, hnext, hopen]
      have hleft : leftOver q [] q.records qs = leftOver p done [] (q :: qs) := by
        rfl
      rw [length_cons] at hfuel ⊢
      rw [hloop]
      by_cases hread₁ : (view r₁.looks).read q.start (wire.size [] + r₁.avail.length) = []
      · -- a segment without bytes holds no record and is passed over
        have hnil : q.records = [] := by
          obtain ⟨more, -, heq⟩ := hstream.read_eq r₁.looks
          rw [heq, havail, length_nil, drop_zero, take_eq_nil_iff] at hread₁
          rcases hread₁ with hzero | hnil
          · omega
          · exact size_eq_zero.1 (congrArg length (append_eq_nil_iff.1 hnil).1)
        rw [hnil] at hstream hleft
        rcases ih hstream hread₁ (show qs.length < fuel by omega) with
          ⟨r', q', qs', hr', hstream', hless, hsame, hst⟩ | ⟨r', hr', hend⟩
        · exact .inl ⟨r', q', qs', hr', hstream', by omega, hsame.trans hleft, hst.trans hstarts⟩
        · exact .inr ⟨r', hr', hleft.symm.trans hend⟩
      · cases fuel with
        | zero => omega
        | succ fuel =>
          obtain ⟨r', hr', hstream', -, hst⟩ := hstream.refillLoop_left hcursor hread₁ fuel
          exact .inl ⟨r', q, qs, hr', hstream', by omega, hleft, hst.trans hstarts⟩

/-- `refill` has a round for each segment that is left. -/
theorem length_parts (h : Stream view r p done todo ps) : ps.length < r.starts.length - r.segIdx + 1 := by
  have := congrArg length h.starts
  rw [length_drop, length_map] at this
  omega

/-- **A refill keeps what is left**, and brings the reader forward; or nothing is left. -/
theorem refill (h : Stream view r p done todo ps) (hshort : r.avail.length < maxRecord + 8)
    (htodo : todo = [] ∨ r.avail.length < wire.size todo) :
    (∃ r' p' done' todo' ps', r.refill view = .ok (r', true) ∧ Stream view r' p' done' todo' ps' ∧
        cost r' ps' < cost r ps ∧ leftOver p' done' todo' ps' = leftOver p done todo ps ∧ r'.starts = r.starts) ∨
      ∃ r', r.refill view = .ok (r', false) ∧ leftOver p done todo ps = [] := by
  by_cases hread : (view r.compact.looks).read p.start (wire.size done + r.compact.avail.length) = []
  · have hnil : todo = [] := by
      rcases htodo with hnil | hlt
      · exact hnil
      · exfalso
        obtain ⟨more, -, heq⟩ := h.compact.read_eq r.compact.looks
        rw [heq, take_eq_nil_iff, drop_eq_nil_iff, length_append] at hread
        change _ ∨ (wire.frames todo).length + _ ≤ r.avail.length at hread
        unfold Codec.size at hlt
        omega
    subst hnil
    rcases h.compact.refillLoop_next hread h.length_parts with
      ⟨r', q, qs, hr', hstream, hless, hsame, hstarts⟩ | ⟨r', hr', hend⟩
    · refine .inl ⟨r', q, [], q.records, qs, hr', hstream, ?_, hsame, hstarts⟩
      have hmul : (qs.length + 1) * roundsPerSegment ≤ ps.length * roundsPerSegment :=
        mul_le_mul_right _ hless
      rw [add_mul, one_mul] at hmul
      have hpos : 0 < roundsPerSegment := by decide
      unfold cost
      omega
    · exact .inr ⟨r', hr', hend⟩
  · obtain ⟨r', hr', hstream, hmore, hstarts⟩ := h.compact.refillLoop_left rfl hread (r.starts.length - r.segIdx)
    refine .inl ⟨r', p, done, todo, ps, hr', hstream, ?_, rfl, hstarts⟩
    have hrounds : roundsPerSegment = maxRecord + 10 := rfl
    change r.avail.length < r'.avail.length at hmore
    unfold cost
    omega

/-- From bytes that are no frame the reader jumps to the next segment. -/
theorem resync (h : Stream view r p done [] (q :: qs)) (hpos : r.pos < q.start) :
    ∃ r', r.resyncOrStop view r.pos = .ok (r', true) ∧ Stream view r' q [] q.records qs ∧ r'.avail = [] := by
  obtain ⟨hnext, hrest, hopened⟩ := h.following
  have hdrop := h.starts
  rw [map_cons] at hdrop
  have hbefore : ∀ s ∈ r.starts.take (r.segIdx + 1), decide (s ≤ r.pos) = true := by
    intro s hs
    have := h.opened s hs
    have := h.pos
    exact decide_eq_true (by omega)
  have hwhile : (r.starts.takeWhile fun s => decide (s ≤ r.pos)).length = r.segIdx + 1 := by
    have hlen := (List.getElem?_eq_some_iff.1 hnext).1
    conv_lhs => rw [← take_append_drop (r.segIdx + 1) r.starts, hdrop]
    rw [takeWhile_append_of_pos hbefore, takeWhile_cons_of_neg (by simpa using hpos), append_nil, length_take]
    omega
  obtain ⟨-, -, -, -, hshows⟩ := h.shows
  obtain ⟨r', hr', hstream, havail, -⟩ := @opened_at view { r with segIdx := r.segIdx + 1 } [] q.records qs q hshows
    (fun p hp => h.fits p (mem_cons_of_mem _ hp)) hnext hrest hopened rfl
  refine ⟨r', ?_, hstream, havail⟩
  change { r with segIdx := r.segIdx + 1 }.openSegment view q.start = .ok r' at hr'
  simp only [resyncOrStop, hwhile, hnext, hr']

/-- In the last segment there is nothing to jump to. -/
theorem resync_end (h : Stream view r p done todo []) : r.resyncOrStop view r.pos = .ok (r, false) := by
  have hall : r.starts.take (r.segIdx + 1) = r.starts := by
    have hdrop := h.starts
    rw [map_nil] at hdrop
    have := take_append_drop (r.segIdx + 1) r.starts
    rwa [hdrop, append_nil] at this
  have hwhile : r.starts.takeWhile (fun s => decide (s ≤ r.pos)) = r.starts := by
    refine takeWhile_eq_self_iff.2 fun s hs => decide_eq_true ?_
    rw [← hall] at hs
    have := h.opened s hs
    have := h.pos
    omega
  simp only [resyncOrStop, hwhile, getElem?_length]

end Stream

/-- What a `read_next` returns with some records left: the first one, and the reader stands behind
it; at the end nothing. -/
def Reads (view : View) : List (ℕ × Bytes) → Except ReplayError (Replay × Option (ℕ × Bytes)) → Prop
  | [], out => ∃ r', out = .ok (r', none)
  | e :: es, out => ∃ r' p done todo ps, out = .ok (r', some e) ∧ Stream view r' p done todo ps ∧
      leftOver p done todo ps = es

namespace Stream

variable {view : View} {r : Replay} {p : Part} {done todo : List Bytes} {ps : List Part}

/-- The loop of `read_next` with some rounds left returns what is to be read. -/
def Goes (view : View) (fuel : ℕ) : Prop :=
  ∀ {r p done todo ps}, Stream view r p done todo ps → cost r ps < fuel →
    Reads view (leftOver p done todo ps) (readNextLoop view fuel r)

variable {xs : List Bytes} {x : Bytes}

/-- The next record fits, and it is before the end of the log. -/
theorem head (h : Stream view r p done (x :: xs) ps) :
    wire.Fits x ∧ ¬ r.stop ≤ r.pos := by
  have hsize := h.shows.le_stop
  have hpos := h.pos
  rw [h.split, size_append, size_cons, length_frame] at hsize
  refine ⟨h.fits p mem_cons_self x ?_, by omega⟩
  rw [h.split]
  exact mem_append_right _ mem_cons_self

/-- A whole frame in the buffer is returned. -/
theorem reads_frame (h : Stream view r p done (x :: xs) ps)
    (hwhole : ¬ r.avail.length < 4 + x.length + 4) (fuel : ℕ) :
    Reads view (leftOver p done (x :: xs) ps) (readNextLoop view (fuel + 1) r) := by
  obtain ⟨hfits, hstop⟩ := h.head
  have hlen := length_frame x
  obtain ⟨behind, hpre, hbehind⟩ := h.bytes
  rw [frames_cons, append_assoc] at hpre
  obtain ⟨tail, htail⟩ : wire.frame x <+: r.avail :=
    prefix_of_prefix_length_le (prefix_append _ _) hpre (by omega)
  have hdrop : r.avail.drop (4 + x.length + 4) = tail := by
    rw [← htail, show 4 + x.length + 4 = (wire.frame x).length by omega, drop_left]
  have hparse : wire.parse r.avail = some (x, tail) := wire.parse_eq_some.2 ⟨hfits, htail.symm⟩
  obtain ⟨h₁, hn, hmax, h₃, h₄, hbody, -⟩ := parse_some hparse
  have hdone : wire.size (done ++ [x]) = wire.size done + (4 + x.length + 4) := by
    rw [size_append, size_cons, size_nil]
    omega
  let r' : Replay := { r with cursor := r.cursor + (4 + x.length + 4) }
  have havail : r'.avail = tail := (drop_drop.symm).trans hdrop
  have hpos := h.pos
  have hoffset : p.start + wire.size done = r.bufBase + r.cursor := hpos.symm
  refine ⟨r', p, done ++ [x], xs, ps, ?_, ⟨?_, h.shows, h.fits, ?_, ?_, ⟨behind, ?_, hbehind⟩, h.starts, h.opened⟩, ?_⟩
  · unfold Replay.avail at h₁ hn h₃ h₄ hbody
    unfold Replay.pos at hstop
    simp only [Replay.readNextLoop, hn]
    rw [if_neg h₁, if_neg (by omega), if_neg h₃, if_neg hstop, if_neg (not_ne_iff.2 h₄), hbody, hoffset]
  · rw [h.split, append_assoc]
    rfl
  · change r.bufBase + (r.cursor + (4 + x.length + 4)) = _
    omega
  · have hlens := congrArg length htail
    rw [length_append] at hlens
    rw [h.file, havail, hdone, show wire.size done + r.avail.length = wire.size done + (4 + x.length + 4) + tail.length by
      omega]
  · rw [havail]
    rw [← htail] at hpre
    exact (prefix_append_right_inj _).1 hpre
  · rw [leftOver, hdone, ← add_assoc, show p.start + wire.size done + (4 + x.length + 4) =
      p.start + wire.size done + (wire.frame x).length by omega]
    rfl

variable {fuel : ℕ}

/-- A part of a frame in the buffer, or bytes that may be one: the loop goes on with a refill. -/
theorem reads_refill (h : Stream view r p done todo ps) (hcost : cost r ps < fuel + 1) (ih : Goes view fuel)
    (hshort : r.avail.length < maxRecord + 8) (htodo : todo = [] ∨ r.avail.length < wire.size todo) :
    Reads view (leftOver p done todo ps) (again (readNextLoop view fuel) (r.refill view)) := by
  rcases h.refill hshort htodo with ⟨r', p', done', todo', ps', hr', hstream, hless, hsame, -⟩ | ⟨r', hr', hend⟩
  · rw [hr', ← hsame]
    exact ih hstream (by omega)
  · rw [hr', hend]
    exact ⟨r', rfl⟩

/-- With records left in its segment, a reader returns the first of them. -/
theorem reads_record (h : Stream view r p done (x :: xs) ps) (hcost : cost r ps < fuel + 1) (ih : Goes view fuel) :
    Reads view (leftOver p done (x :: xs) ps) (readNextLoop view (fuel + 1) r) := by
  by_cases hwhole : r.avail.length < 4 + x.length + 4
  · obtain ⟨hfits, hstop⟩ := h.head
    have hmax := wire_fits.1 hfits
    have hlen := length_frame x
    have hrefill := h.reads_refill hcost ih (by omega) (.inr (by rw [size_cons]; omega))
    have hloop : readNextLoop view (fuel + 1) r = Replay.again (Replay.readNextLoop view fuel) (r.refill view) := by
      unfold Replay.pos at hstop
      by_cases h₁ : r.avail.length < 4
      · unfold Replay.avail at h₁
        simp only [Replay.readNextLoop, if_pos h₁, if_neg hstop]
      · obtain ⟨behind, ⟨rest, hbytes⟩, -⟩ := h.bytes
        rw [frames_cons, append_assoc] at hbytes
        obtain ⟨-, hn, -, -, -, -, -⟩ := parse_some (parse_frame hfits (wire.frames xs ++ behind))
        rw [← hbytes, take_append_of_le_length (by omega)] at hn
        unfold avail at h₁ hn hwhole
        simp only [readNextLoop, hn]
        rw [if_neg h₁, if_neg (by omega), if_pos hwhole]
    rw [hloop]
    exact hrefill
  · exact h.reads_frame hwhole fuel

/-- With no record left in the last segment, a reader returns nothing, whatever is behind the log's end. -/
theorem reads_end (h : Stream view r p done [] []) (hcost : cost r [] < fuel + 1) (ih : Goes view fuel) :
    Reads view [] (readNextLoop view (fuel + 1) r) := by
  have hstop : r.stop ≤ r.bufBase + r.cursor := by
    have hend := h.shows.2
    rw [h.split, append_nil, ← h.pos] at hend
    exact hend.ge
  simp only [readNextLoop]
  by_cases h₁ : (r.buf.drop r.cursor).length < 4
  · rw [if_pos h₁, if_pos hstop]
    exact ⟨r, rfl⟩
  · rw [if_neg h₁]
    by_cases h₂ : maxRecord < leNat ((r.buf.drop r.cursor).take 4)
    · have hresync := h.resync_end
      unfold Replay.pos at hresync
      rw [if_pos h₂, hresync]
      exact ⟨r, rfl⟩
    · rw [if_neg h₂]
      by_cases h₃ : (r.buf.drop r.cursor).length < 4 + leNat ((r.buf.drop r.cursor).take 4) + 4
      · rw [if_pos h₃]
        have hshort : r.avail.length < maxRecord + 8 := by
          unfold avail
          omega
        exact h.reads_refill hcost ih hshort (.inl rfl)
      · rw [if_neg h₃, if_pos hstop]
        exact ⟨r, rfl⟩

/-- With no record left in its segment, a reader goes on to the next, whatever is behind the records. -/
theorem reads_on {q : Part} {qs : List Part} (h : Stream view r p done [] (q :: qs))
    (hcost : cost r (q :: qs) < fuel + 1) (ih : Goes view fuel) :
    Reads view (leftOver p done [] (q :: qs)) (readNextLoop view (fuel + 1) r) := by
  obtain ⟨-, hjunk, -, hle, hq⟩ := h.shows
  obtain ⟨behind, hpre, hbehind⟩ := h.bytes
  have hpos := h.pos
  have hdone : p.records = done := by rw [h.split, append_nil]
  rw [frames_nil, nil_append, hbehind (cons_ne_nil _ _)] at hpre
  rw [hdone] at hle
  have hlen := hpre.length_le
  have hleft : leftOver q [] q.records qs = leftOver p done [] (q :: qs) := by
    rfl
  have hresync : r.pos < q.start → Reads view (leftOver p done [] (q :: qs))
      (again (readNextLoop view fuel) (r.resyncOrStop view (r.bufBase + r.cursor))) := by
    intro hlt
    obtain ⟨r', hr', hstream, havail⟩ := h.resync hlt
    unfold Replay.pos at hr'
    rw [hr', ← hleft]
    refine ih hstream ?_
    have hrounds : 0 < roundsPerSegment := by decide
    unfold cost at hcost ⊢
    rw [length_cons, add_mul, one_mul] at hcost
    omega
  simp only [readNextLoop]
  by_cases h₁ : (r.buf.drop r.cursor).length < 4
  · rw [if_pos h₁]
    have hshort : r.avail.length < maxRecord + 8 := by
      unfold avail
      omega
    split
    · rename_i hstop
      change r.stop ≤ r.pos at hstop
      rw [← hleft]
      have hnone := hq.entries_eq_nil (by omega)
      rw [flatMap_cons] at hnone
      change Reads view (q.entries ++ qs.flatMap Part.entries) _
      rw [hnone]
      exact ⟨r, rfl⟩
    · exact h.reads_refill hcost ih hshort (.inl rfl)
  · -- the bytes are no frame, and they end before the next segment
    have hlt : r.pos < q.start := by
      unfold avail at hlen
      omega
    rw [if_neg h₁]
    by_cases h₂ : maxRecord < leNat ((r.buf.drop r.cursor).take 4)
    · rw [if_pos h₂]
      exact hresync hlt
    · rw [if_neg h₂]
      by_cases h₃ : (r.buf.drop r.cursor).length < 4 + leNat ((r.buf.drop r.cursor).take 4) + 4
      · rw [if_pos h₃]
        have hshort : r.avail.length < maxRecord + 8 := by
          unfold avail
          omega
        exact h.reads_refill hcost ih hshort (.inl rfl)
      · have hstop : ¬ r.stop ≤ r.bufBase + r.cursor := by
          have := hq.le_stop
          unfold Replay.pos at hlt
          omega
        have hnone : wire.parse (r.buf.drop r.cursor) = none := by
          have := parse_take_none hjunk r.avail.length
          rwa [← prefix_iff_eq_take.1 hpre] at this
        rw [parse_eq, if_neg h₁, if_neg (by simpa using h₂), if_neg h₃] at hnone
        split_ifs at hnone with h₄
        rw [if_neg h₃, if_neg hstop, if_pos h₄]
        exact hresync hlt

/-- **`read_next` returns the first record that is left.** -/
theorem readNextLoop (h : Stream view r p done todo ps) (hcost : cost r ps < fuel) :
    Reads view (leftOver p done todo ps) (readNextLoop view fuel r) := by
  induction fuel generalizing r p done todo ps with
  | zero => omega
  | succ fuel ih =>
    cases todo with
    | cons x xs => exact h.reads_record hcost ih
    | nil =>
      cases ps with
      | nil => exact h.reads_end hcost ih
      | cons q qs => exact h.reads_on hcost ih

theorem readNext (h : Stream view r p done todo ps) : Reads view (leftOver p done todo ps) (r.readNext view) := by
  refine h.readNextLoop ?_
  have hlen := congrArg length h.starts
  rw [length_drop, length_map] at hlen
  have hmul : roundsPerSegment * ps.length ≤ roundsPerSegment * r.starts.length :=
    mul_le_mul_left _ (by omega)
  have hrounds : 0 < roundsPerSegment := by decide
  rw [mul_comm] at hmul
  unfold cost
  omega

end Stream

/-- A reader returns some records, one after the other, and then nothing. -/
def Yields (view : View) : Replay → List (ℕ × Bytes) → Prop
  | r, [] => ∃ r', r.readNext view = .ok (r', none)
  | r, e :: es => ∃ r', r.readNext view = .ok (r', some e) ∧ Yields view r' es

variable {done todo : List Bytes} {view : View} {ps : List Part} {p : Part}

/-- **A reader yields what is left.** -/
theorem Stream.yields {r : Replay} (h : Stream view r p done todo ps) : Yields view r (leftOver p done todo ps) := by
  induction hrest : leftOver p done todo ps generalizing r p done todo ps with
  | nil =>
    have hreads := h.readNext
    rw [hrest] at hreads
    exact hreads
  | cons e es ih =>
    have hreads := h.readNext
    rw [hrest] at hreads
    obtain ⟨r', p', done', todo', ps', hr', hstream, hsame⟩ := hreads
    exact ⟨r', hr', ih hstream hsame⟩

/-- Groups as segments of a log without damage. -/
def partsOf (start : ℕ) (gs : List (List Bytes)) : List Part := (wire.pack start gs).map fun e => ⟨e.1, e.2, []⟩

theorem map_start_partsOf (start : ℕ) (gs : List (List Bytes)) :
    (partsOf start gs).map Part.start = (wire.pack start gs).map Prod.fst := by
  rw [partsOf, map_map]
  rfl

theorem entries_partsOf (start : ℕ) (gs : List (List Bytes)) :
    (partsOf start gs).flatMap Part.entries = wire.entries start gs.flatten := by
  rw [partsOf, flatMap_map]
  exact flatMap_entries_pack start gs

theorem mem_records_partsOf {start : ℕ} {gs : List (List Bytes)} {q : Part} (h : q ∈ partsOf start gs) :
    q.records ∈ gs := by
  obtain ⟨e, he, rfl⟩ := mem_map.1 h
  exact mem_of_mem_pack he

/-- Whenever a reader looks, the complete groups from a place on are there, and the last one with something
behind it. -/
structure Keeps (view : View) (start : ℕ) (gs : List (List Bytes)) (last : List Bytes) : Prop where
  complete : ∀ k, ∀ e ∈ wire.pack start gs, (view k).segments.lookup e.1 = some (wire.frames e.2)
  active : ∀ k, ∃ more, (view k).segments.lookup (start + wire.size gs.flatten) = some (wire.frames last ++ more)

namespace Keeps

variable {view : View} {start : ℕ} {gs : List (List Bytes)} {last : List Bytes}

theorem drop {before : List (List Bytes)} (h : Keeps view start (before ++ gs) last) :
    Keeps view (start + wire.size before.flatten) gs last := by
  refine ⟨fun k e he => h.complete k e ?_, fun k => ?_⟩
  · rw [pack_append]
    exact mem_append_right _ he
  · have := h.active k
    rwa [flatten_append, size_append, ← add_assoc] at this

theorem shows (h : Keeps view start gs last) (hnonempty : ∀ g ∈ gs, g ≠ []) {g : List Bytes}
    {rest : List (List Bytes)} (hsplit : gs ++ [last] = g :: rest) :
    Shows view (start + wire.size gs.flatten + wire.size last) ⟨start, g, []⟩ (partsOf (start + wire.size g) rest) := by
  induction gs generalizing start g rest with
  | nil =>
    obtain ⟨rfl, rfl⟩ := cons.inj hsplit
    exact ⟨h.active, rfl⟩
  | cons g₁ gs ih =>
    rw [cons_append] at hsplit
    obtain ⟨rfl, rfl⟩ := cons.inj hsplit
    obtain ⟨g', rest', hrest⟩ := exists_cons_of_ne_nil (show gs ++ [last] ≠ [] by simp)
    have hg : g₁ ≠ [] := hnonempty g₁ mem_cons_self
    have hnext := @drop view start gs last [g₁] h
    rw [flatten_singleton] at hnext
    have hshows := ih hnext (fun g hg => hnonempty g (mem_cons_of_mem _ hg)) hrest
    rw [hrest, flatten_cons, size_append, ← add_assoc start]
    refine ⟨fun k => ?_, parse_nil, Nat.lt_add_of_pos_right (size_pos hg), le_refl _, hshows⟩
    rw [append_nil]
    exact h.complete k (start, g₁) mem_cons_self

end Keeps

/-- **A replay stands before the record it starts at**, in any segments that it finds. -/
theorem ReplayLog.replay_at {l : ReplayLog} {earlier : List ℕ}
    (hstarts : l.files.segmentStarts = earlier ++ p.start :: ps.map Part.start)
    (hearlier : ∀ s ∈ earlier, s ≤ p.start) (hsplit : p.records = done ++ todo)
    (hshows : Shows view l.writeOffset p ps) (hfits : ∀ q ∈ p :: ps, ∀ x ∈ q.records, wire.Fits x)
    (hin : ∀ q ∈ ps, p.start + wire.size done < q.start) :
    ∃ r, l.replayFrom view (p.start + wire.size done) = .ok r ∧ Stream view r p done todo ps := by
  have hindex := @index_of_starts earlier (ps.map Part.start) p.start (p.start + wire.size done) hearlier
    (le_add_right _ _) (forall_mem_map.2 hin)
  rw [← hstarts] at hindex
  have hoffset : ¬ l.writeOffset < p.start + wire.size done := by
    have hle := hshows.le_stop
    rw [hsplit, size_append] at hle
    omega
  obtain ⟨r, hr, hstream, -⟩ := @Stream.opened_at view
    { starts := l.files.segmentStarts, segIdx := earlier.length, file := none
      bufBase := p.start + wire.size done, buf := [], cursor := 0, stop := l.writeOffset, looks := 0 }
    done todo ps p hshows hfits (by simp [hstarts]) (by simp [hstarts, drop_append])
    (fun s hs => by
      simp only [hstarts, take_length_add_append, take_succ_cons, take_zero] at hs
      exact (mem_append.1 hs).elim (hearlier s) fun hs => (mem_singleton.1 hs).le) hsplit
  refine ⟨r, ?_, hstream⟩
  simp only [ReplayLog.replayFrom, if_neg hoffset, hindex]
  exact hr

/-- A replay from the beginning yields all segments. -/
theorem ReplayLog.replay_all (l : ReplayLog)
    (hstarts : l.files.segmentStarts = p.start :: ps.map Part.start) (hzero : 0 = p.start)
    (hshows : Shows view l.writeOffset p ps) (hfits : ∀ q ∈ p :: ps, ∀ x ∈ q.records, wire.Fits x) :
    ∃ r, l.replayFrom view 0 = .ok r ∧ Yields view r ((p :: ps).flatMap Part.entries) := by
  obtain ⟨r, hr, hstream⟩ := @replay_at [] p.records view ps p l [] hstarts (forall_mem_nil _) rfl hshows hfits
    hshows.lt_start
  refine ⟨r, by rw [hzero]; exact hr, ?_⟩
  have hyields := hstream.yields
  rwa [leftOver, size_nil, Nat.add_zero] at hyields

/-- The same for complete groups. -/
theorem Holds.replayFrom {l : ReplayLog} {full : List (List Bytes)} {last : List Bytes} {torn : Bytes}
    (h : Holds l full last torn) (hkeeps : Keeps view 0 full last) {before after : List (List Bytes)}
    (hsplit : full ++ [last] = before ++ (done ++ todo) :: after)
    (hin : after = [] ∨ todo ≠ []) :
    ∃ r, l.replayFrom view (wire.size before.flatten + wire.size done) = .ok r ∧
      Stream view r ⟨wire.size before.flatten, done ++ todo, []⟩ done todo
        (partsOf (wire.size before.flatten + wire.size (done ++ todo)) after) := by
  have hfull := full_of_split hsplit
  have hrest : ((done ++ todo) :: after).dropLast ++ [last] = (done ++ todo) :: after := by
    rw [hfull, append_assoc] at hsplit
    exact append_cancel_left hsplit
  have hshows : Shows view l.writeOffset ⟨wire.size before.flatten, done ++ todo, []⟩
      (partsOf (wire.size before.flatten + wire.size (done ++ todo)) after) := by
    have hnonempty := h.layout.nonempty
    rw [hfull] at hkeeps hnonempty
    have := hkeeps.drop.shows (fun g hg => hnonempty g (mem_append_right _ hg)) hrest
    rwa [zero_add, ← size_append, ← flatten_append, ← hfull, ← h.writeOffset] at this
  have hfits : ∀ q ∈ (⟨wire.size before.flatten, done ++ todo, []⟩ : Part) ::
      partsOf (wire.size before.flatten + wire.size (done ++ todo)) after, ∀ x ∈ q.records, wire.Fits x := by
    intro q hq x hx
    refine h.layout.fits_group (g := q.records) ?_ hx
    rw [hsplit]
    rcases mem_cons.1 hq with rfl | hq
    · exact mem_append_right _ mem_cons_self
    · exact mem_append_right _ (mem_cons_of_mem _ (mem_records_partsOf hq))
  refine @ReplayLog.replay_at done todo view _ _ l ((wire.pack 0 before).map Prod.fst) ?_ (fun s hs => ?_) rfl hshows
    hfits fun q hq => ?_
  · rw [h.layout.starts_split hsplit, map_start_partsOf]
  · obtain ⟨e, he, rfl⟩ := mem_map.1 hs
    have := (le_of_mem_pack he).2
    change e.1 ≤ wire.size before.flatten
    omega
  · obtain ⟨e, he, rfl⟩ := mem_map.1 hq
    have := (le_of_mem_pack he).1
    rcases hin with rfl | htodo
    · cases he
    · have := size_pos (K := wire) htodo
      rw [size_append] at *
      change wire.size before.flatten + wire.size done < e.1
      omega

end Datarail.Replaylog
