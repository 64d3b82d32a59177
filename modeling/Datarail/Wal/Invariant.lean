/-
# The invariant of the write-ahead log

A `View` is what a log holds: the entries behind the cursor, those ahead of it that a sync
covers, those that are written and not synced, and the cofres in the buffer.  `Holds` ties it
to the bytes on disk and to the bookkeeping of the log:

* every file is the frames of the entries of its segment (`Stored`),
* the cursor stands between what was delivered and the rest (`Placed`),
* what was delivered was returned, and is acked or in flight (`Flight`),
* below every cursor file that a crash may leave, everything is acked, and above it every
  segment is there (`Mark`).

Each step of the log keeps it; what a step does to the view is said in the same lemma.
-/

import Datarail.Wal.View

namespace Datarail.Wal

open Lib List DurableLog

/-- What a log holds. -/
structure View where
  /-- Behind the cursor. -/
  before : List Entry
  /-- Ahead of the cursor, and synced. -/
  rest : List Entry
  /-- Written and not synced. -/
  loose : List Entry
  /-- In the buffer. -/
  pending : List Cofre

namespace View

def ahead (v : View) : List Entry := v.rest ++ v.loose

/-- All entries. -/
def written (v : View) : List Entry := v.before ++ v.ahead

/-- The entries that a sync covers. -/
def safe (v : View) : List Entry := v.before ++ v.rest

/-- The cofres, in the order in which they were sent. -/
def cofres (v : View) : List Cofre := v.written.map Prod.snd ++ v.pending

theorem written_eq (v : View) : v.written = v.safe ++ v.loose := (append_assoc _ _ _).symm

theorem mem_safe {v : View} {e : Entry} (h : e ∈ v.safe) : e ∈ v.written := by
  rw [written_eq]
  exact mem_append_left _ h

theorem mem_before {v : View} {e : Entry} (h : e ∈ v.before) : e ∈ v.written := mem_append_left _ h

end View

/-- The id of a cofre. -/
abbrev idOf (c : Cofre) : Arr 32 := c.etiqueta.cofreId

/-- What was returned by `recv` and passed to `ack` so far.  Only if no id is sent twice does
an ack tell which cofre it is about. -/
structure Dealt where
  received : List Cofre
  acked : List (Arr 32)
  /-- No id is sent twice. -/
  unique : Prop

/-- An entry was returned and acked. -/
def Dealt.Done (d : Dealt) (e : Entry) : Prop := e.2 ∈ d.received ∧ (d.unique → idOf e.2 ∈ d.acked)

/-- More was returned and acked. -/
structure Dealt.Le (d d' : Dealt) : Prop where
  received : d.received ⊆ d'.received
  acked : d.acked ⊆ d'.acked
  unique : d'.unique → d.unique

/-- A cofre is returned. -/
def Dealt.receive (d : Dealt) (c : Cofre) : Dealt := { d with received := d.received ++ [c] }

/-- An id is acked. -/
def Dealt.ack (d : Dealt) (id : Arr 32) : Dealt := { d with acked := d.acked ++ [id] }

theorem Dealt.le_receive (d : Dealt) (c : Cofre) : d.Le (d.receive c) :=
  ⟨subset_append_left _ _, Subset.refl _, id⟩

theorem Dealt.le_ack (d : Dealt) (id : Arr 32) : d.Le (d.ack id) :=
  ⟨Subset.refl _, subset_append_left _ _, fun h => h⟩

/-- The files are the frames of the entries. -/
structure Stored (v : View) (disk : Disk) (activeId : ℕ) : Prop where
  sorted : v.written.Pairwise fun x y => x.1 ≤ y.1
  fits : ∀ e ∈ v.written, FitsWire e.2
  range : ∀ e ∈ v.written, 1 ≤ e.1 ∧ e.1 ≤ activeId
  loose : ∀ e ∈ v.loose, e.1 = activeId
  files : ∀ s content, disk.segments.lookup s = some content → 1 ≤ s ∧ s ≤ activeId ∧ content = bytesAt v.written s
  durable : disk.durable = (bytesAt v.safe activeId).length
  unlinked : ∀ e ∈ disk.unlinked, e.2 = bytesAt v.written e.1

/-- The cursor stands in its place. -/
structure Placed (v : View) (l : DurableLog) : Prop where
  position : Divides v.before v.ahead l.readId l.readOff
  low : 1 ≤ l.readId
  high : l.readId ≤ l.activeId
  entry : l.disk.entry = false → l.poisoned = true ∧ l.readId < l.activeId ∧ ∀ e ∈ v.written, e.1 < l.activeId

/-- The buffer is the frames of what is pending. -/
structure Buffered (v : View) (l : DurableLog) : Prop where
  buf : l.buf = wire.frames (v.pending.map Cofre.encode)
  fits : ∀ c ∈ v.pending, FitsWire c
  ends : l.poisoned = false → l.writeOff = (bytesAt v.written l.activeId).length
  poisoned : l.poisoned = true → v.pending = []

/-- The count of a segment. -/
abbrev countOf (segInflight : AList fun _ : ℕ => ℕ) (s : ℕ) : ℕ := (segInflight.lookup s).getD 0

/-- What was delivered is acked or in flight, and a segment counts at least what is in flight
from it. -/
structure Flight (d : Dealt) (before : List Entry) (inflight : Table (Arr 32) ℕ)
    (segInflight : AList fun _ : ℕ => ℕ) : Prop where
  received : ∀ e ∈ before, e.2 ∈ d.received
  acked : d.unique → ∀ e ∈ before, idOf e.2 ∈ d.acked ∨ inflight.get (idOf e.2) = some e.1
  counts : ∀ (s : ℕ) (ids : List (Arr 32)), ids.Nodup → (∀ id ∈ ids, inflight.get id = some s) →
    ids.length ≤ countOf segInflight s
  counted : ∀ s, 0 < countOf segInflight s → ∃ c, (s, c) ∈ before

/-- What is in flight is still on disk, with all that follows it. -/
structure Kept (disk : Disk) (readId activeId : ℕ) (segInflight : AList fun _ : ℕ => ℕ) : Prop where
  present : ∀ s, 0 < countOf segInflight s → ∀ t, s ≤ t → t ≤ activeId → (disk.segments.lookup t).isSome
  gone : ∀ e ∈ disk.unlinked, 1 ≤ e.1 ∧ e.1 < readId ∧ ∀ s, 0 < countOf segInflight s → e.1 < s

/-- Where a log that finds this cursor file starts to read. -/
def markId (cursor : Option Cursor) : ℕ := max (cursor.getD ⟨1, 0, 1, 0⟩).ackId 1

def markOff (cursor : Option Cursor) : ℕ := (cursor.getD ⟨1, 0, 1, 0⟩).ackOff

/-- Below a cursor file everything is dealt with, above it every segment is there. -/
structure Mark (d : Dealt) (v : View) (disk : Disk) (readId activeId : ℕ) (cursor : Option Cursor) : Prop where
  low : markId cursor ≤ readId
  present : ∀ s, markId cursor ≤ s → s ≤ activeId → (disk.segments.lookup s).isSome
  gone : ∀ e ∈ disk.unlinked, e.1 < markId cursor
  splits : ∃ b a, v.before = b ++ a ∧ Divides b (a ++ v.ahead) (markId cursor) (markOff cursor) ∧ ∀ e ∈ b, d.Done e

/-- The invariant. -/
structure Holds (d : Dealt) (v : View) (l : DurableLog) : Prop where
  stored : Stored v l.disk l.activeId
  placed : Placed v l
  buffered : Buffered v l
  flight : Flight d v.before l.inflight l.segInflight
  kept : Kept l.disk l.readId l.activeId l.segInflight
  marks : ∀ cursor ∈ l.disk.cursor :: l.disk.stale, Mark d v l.disk l.readId l.activeId cursor

/-- The entries and the buffer hold no id twice. -/
def Distinct (v : View) : Prop := (v.cofres.map idOf).Nodup

section Basic

variable {d d' : Dealt} {v : View} {l : DurableLog}

theorem Holds.present (h : Holds d v l) {s : ℕ} (hlow : l.readId ≤ s) (hhigh : s ≤ l.activeId) :
    l.disk.segments.lookup s = some (bytesAt v.written s) := by
  have hmark := h.marks l.disk.cursor mem_cons_self
  obtain ⟨content, hcontent⟩ := Option.isSome_iff_exists.1 (hmark.present s (hmark.low.trans hlow) hhigh)
  rw [hcontent, (h.stored.files s content hcontent).2.2]

theorem Holds.content (h : Holds d v l) : l.disk.content l.activeId = bytesAt v.written l.activeId := by
  rw [Disk.content, h.present h.placed.high (le_refl _)]
  rfl

theorem Holds.reading (h : Holds d v l) : Reading v.before v.ahead v.pending l where
  position := h.placed.position
  sorted := (pairwise_append.1 h.stored.sorted).2.1
  fits e he := h.stored.fits e (mem_append_right _ he)
  range e he := (h.stored.range e (mem_append_right _ he)).2
  within := h.placed.high
  files _ hlow hhigh := h.present hlow hhigh
  buf := h.buffered.buf
  fitsBuf := h.buffered.fits
  ends hne := by
    have hp : l.poisoned = false := by
      cases hp : l.poisoned with
      | false => rfl
      | true => exact absurd (h.buffered.poisoned hp) hne
    exact ⟨hp, h.buffered.ends hp⟩

theorem Dealt.Done.mono {e : Entry} (h : d.Done e) (hle : d.Le d') : d'.Done e :=
  ⟨hle.received h.1, fun hunique => hle.acked (h.2 (hle.unique hunique))⟩

theorem Mark.mono {disk : Disk} {readId activeId : ℕ} {cursor : Option Cursor}
    (h : Mark d v disk readId activeId cursor) (hle : d.Le d') : Mark d' v disk readId activeId cursor := by
  obtain ⟨b, a, hb, hdiv, hdone⟩ := h.splits
  exact ⟨h.low, h.present, h.gone, b, a, hb, hdiv, fun e he => (hdone e he).mono hle⟩

theorem Flight.mono {before : List Entry} {inflight : Table (Arr 32) ℕ} {segInflight : AList fun _ : ℕ => ℕ}
    (h : Flight d before inflight segInflight) (hle : d.Le d') : Flight d' before inflight segInflight :=
  ⟨fun e he => hle.received (h.received e he),
    fun hunique e he => (h.acked (hle.unique hunique) e he).imp_left fun ha => hle.acked ha, h.counts, h.counted⟩

/-- More calls have been made. -/
theorem Holds.mono (h : Holds d v l) (hle : d.Le d') : Holds d' v l :=
  ⟨h.stored, h.placed, h.buffered, h.flight.mono hle, h.kept, fun cursor hc => (h.marks cursor hc).mono hle⟩

/-- A sync of the directory only makes things sure. -/
theorem Holds.fsyncDir (h : Holds d v l) : Holds d v { l with disk := l.disk.fsyncDir } where
  stored := ⟨h.stored.sorted, h.stored.fits, h.stored.range, h.stored.loose, h.stored.files, h.stored.durable, nofun⟩
  placed := ⟨h.placed.position, h.placed.low, h.placed.high, nofun⟩
  buffered := { h.buffered with }
  flight := h.flight
  kept := ⟨h.kept.present, nofun⟩
  marks cursor hc := by
    have hm := h.marks cursor (by
      rw [mem_singleton.1 hc]
      exact mem_cons_self)
    exact ⟨hm.low, hm.present, nofun, hm.splits⟩

end Basic

section Flush

variable {d : Dealt} {v : View} {l l' : DurableLog}

/-- The view with the buffer written. -/
def View.wrote (v : View) (l : DurableLog) : View :=
  { v with loose := v.loose ++ Reading.flushed l v.pending, pending := [] }

/-- The view with everything synced. -/
def View.sync (v : View) : View := { v with rest := v.rest ++ v.loose, loose := [] }

theorem View.written_wrote (v : View) (l : DurableLog) :
    (v.wrote l).written = v.written ++ Reading.flushed l v.pending := by
  simp only [written, ahead, wrote, append_assoc]

theorem View.written_sync (v : View) : v.sync.written = v.written := by
  simp only [written, ahead, sync, append_nil]

theorem View.cofres_wrote (v : View) (l : DurableLog) : (v.wrote l).cofres = v.cofres := by
  have hsnd : (Reading.flushed l v.pending).map Prod.snd = v.pending := by
    rw [Reading.flushed, map_map]
    exact map_id _
  rw [cofres, written_wrote, map_append, hsnd]
  exact append_nil _

/-- The buffer is written; the log is of no more use for writing. -/
theorem Holds.written (h : Holds d v l) (hp : l.poisoned = false) :
    Holds d (v.wrote l) { l.written with poisoned := true } := by
  have hread := h.reading.written
  have hnew : ∀ e ∈ Reading.flushed l v.pending, e.1 = l.activeId ∧ e.2 ∈ v.pending :=
    fun e he => Reading.mem_flushed he
  have hone : 1 ≤ l.activeId := h.placed.low.trans h.placed.high
  have hfile : ∀ s, (l.disk.segments.lookup s).isSome → (l.written.disk.segments.lookup s).isSome := by
    intro s hs
    rw [lookup_written]
    split_ifs
    · rfl
    · exact hs
  refine ⟨⟨?_, fun e he => ?_, fun e he => ?_, fun e he => ?_, fun s content hs => ?_, h.stored.durable,
      fun e he => ?_⟩, ⟨?_, h.placed.low, h.placed.high, fun he => ?_⟩,
    ⟨rfl, nofun, nofun, fun _ => rfl⟩,
    h.flight, ⟨fun s hs t hlow hhigh => ?_, h.kept.gone⟩, fun cursor hc => ?_⟩
  · rw [View.written_wrote]
    refine pairwise_append.2 ⟨h.stored.sorted, ?_, fun x hx y hy => ?_⟩
    · exact pairwise_of_forall_mem_list fun x hx y hy => by rw [(hnew x hx).1, (hnew y hy).1]
    · rw [(hnew y hy).1]
      exact (h.stored.range x hx).2
  · rw [View.written_wrote] at he
    rcases mem_append.1 he with he | he
    · exact h.stored.fits e he
    · exact h.buffered.fits e.2 (hnew e he).2
  · rw [View.written_wrote] at he
    rcases mem_append.1 he with he | he
    · exact h.stored.range e he
    · rw [(hnew e he).1]
      exact ⟨hone, le_refl _⟩
  · rcases mem_append.1 he with he | he
    · exact h.stored.loose e he
    · exact (hnew e he).1
  · have hlookup : l.written.disk.segments.lookup s = some content := hs
    rw [lookup_written] at hlookup
    rw [View.written_wrote, bytesAt_append, Reading.flushed, bytesAt_tagged]
    split_ifs at hlookup with heq
    · subst heq
      rw [if_pos rfl, ← Option.some.inj hlookup, h.content, h.buffered.buf]
      exact ⟨hone, le_refl _, rfl⟩
    · rw [if_neg (Ne.symm heq), append_nil]
      exact h.stored.files s content hlookup
  · have hlt := (h.kept.gone e he).2.1
    have := h.placed.high
    rw [View.written_wrote, bytesAt_append, Reading.flushed, bytesAt_tagged, if_neg (by omega), append_nil]
    exact h.stored.unlinked e he
  · have := hread.position
    rwa [View.ahead, append_assoc] at this
  · have := (h.placed.entry he).1
    rw [hp] at this
    cases this
  · exact hfile t (h.kept.present s hs t hlow hhigh)
  · have hm := h.marks cursor hc
    obtain ⟨b, a, hb, hdiv, hdone⟩ := hm.splits
    refine ⟨hm.low, fun s hlow hhigh => hfile s (hm.present s hlow hhigh), hm.gone, b, a, hb, ?_, hdone⟩
    · have hmore : ∀ e ∈ Reading.flushed l v.pending, markId cursor ≤ e.1 := by
        intro e he
        rw [(hnew e he).1]
        exact hm.low.trans h.placed.high
      have := hdiv.append hmore
      rwa [View.ahead, append_assoc, append_assoc] at this

theorem View.ahead_sync (v : View) : v.sync.ahead = v.ahead := append_nil _

theorem View.safe_sync (v : View) : v.sync.safe = v.written := rfl

/-- The buffer is written and synced. -/
theorem Holds.synced (h : Holds d v l) (hp : l.poisoned = false) : Holds d (v.wrote l).sync l.synced := by
  have hw := h.written hp
  have hlen : (l.disk.content l.activeId ++ l.buf).length = (bytesAt (v.wrote l).written l.activeId).length := by
    have hfile := lookup_written l l.activeId
    rw [if_pos rfl] at hfile
    rw [← (hw.stored.files _ _ hfile).2.2]
  have hahead := (v.wrote l).ahead_sync
  refine ⟨⟨?_, ?_, ?_, nofun, ?_, ?_, ?_⟩, ⟨?_, h.placed.low, h.placed.high, fun he => ?_⟩,
    ⟨hw.buffered.buf, hw.buffered.fits, fun _ => ?_, fun _ => rfl⟩, hw.flight,
    ⟨hw.kept.present, hw.kept.gone⟩, fun cursor hc => ?_⟩
  · rw [View.written_sync]
    exact hw.stored.sorted
  · rw [View.written_sync]
    exact hw.stored.fits
  · rw [View.written_sync]
    exact hw.stored.range
  · rw [View.written_sync]
    exact hw.stored.files
  · rw [View.safe_sync]
    exact hlen
  · rw [View.written_sync]
    exact hw.stored.unlinked
  · rw [hahead]
    exact hw.placed.position
  · have := (h.placed.entry he).1
    rw [hp] at this
    cases this
  · rw [View.written_sync]
    refine Eq.trans ?_ hlen
    rw [length_append, h.content, ← h.buffered.ends hp]
    rfl
  · have hm := hw.marks cursor hc
    obtain ⟨b, a, hb, hdiv, hdone⟩ := hm.splits
    refine ⟨hm.low, hm.present, hm.gone, b, a, hb, ?_, hdone⟩
    rw [hahead]
    exact hdiv

/-- A new segment; the log is of no more use for writing. -/
theorem Holds.created (h : Holds d v l) (hloose : v.loose = []) (hpending : v.pending = []) :
    Holds d v { l.created with poisoned := true } := by
  have hbelow : ∀ e ∈ v.written, e.1 < l.activeId + 1 := fun e he => Nat.lt_succ_of_le (h.stored.range e he).2
  have hnone : bytesAt v.written (l.activeId + 1) = [] := bytesAt_eq_nil fun e he => (hbelow e he).ne
  have hfile : ∀ s, s ≤ l.activeId + 1 → (s ≤ l.activeId → (l.disk.segments.lookup s).isSome) →
      (l.created.disk.segments.lookup s).isSome := by
    intro s hhigh hs
    rw [lookup_created]
    split_ifs with heq
    · rfl
    · exact hs (by omega)
  refine ⟨⟨h.stored.sorted, h.stored.fits, fun e he => ⟨(h.stored.range e he).1, (hbelow e he).le⟩, ?_,
      fun s content hs => ?_, ?_, h.stored.unlinked⟩,
    ⟨h.placed.position, h.placed.low, h.placed.high.trans (Nat.le_succ _),
      fun _ => ⟨rfl, Nat.lt_succ_of_le h.placed.high, hbelow⟩⟩,
    ⟨h.buffered.buf, h.buffered.fits, nofun, fun _ => hpending⟩, h.flight,
    ⟨fun s hs t hlow hhigh => hfile t hhigh (h.kept.present s hs t hlow), h.kept.gone⟩, fun cursor hc => ?_⟩
  · rw [hloose]
    exact nofun
  · have hlookup := lookup_created l s
    rw [show l.created.disk.segments.lookup s = some content from hs] at hlookup
    split_ifs at hlookup with heq
    · subst heq
      exact ⟨Nat.le_add_left _ _, le_refl _, by rw [hnone]; exact Option.some.inj hlookup⟩
    · obtain ⟨hlow, hhigh, hcontent⟩ := h.stored.files s content hlookup.symm
      exact ⟨hlow, hhigh.trans (Nat.le_succ _), hcontent⟩
  · have hsafe : bytesAt v.safe (l.activeId + 1) = [] :=
      bytesAt_eq_nil fun e he => (hbelow e (View.mem_safe he)).ne
    rw [show ({ l.created with poisoned := true } : DurableLog).activeId = l.activeId + 1 from rfl, hsafe]
    rfl
  · have hm := h.marks cursor hc
    exact ⟨hm.low, fun s hlow hhigh => hfile s hhigh (hm.present s hlow), hm.gone, hm.splits⟩

/-- A new segment. -/
theorem Holds.rolled (h : Holds d v l) (hloose : v.loose = []) (hpending : v.pending = []) : Holds d v l.rolled := by
  have hc := (h.created hloose hpending).fsyncDir
  have hnone : bytesAt v.written (l.activeId + 1) = [] :=
    bytesAt_eq_nil fun e he => (Nat.lt_succ_of_le (h.stored.range e he).2).ne
  refine ⟨hc.stored, ⟨hc.placed.position, hc.placed.low, hc.placed.high, nofun⟩,
    ⟨hc.buffered.buf, hc.buffered.fits, fun _ => ?_, fun _ => hpending⟩, hc.flight, hc.kept, hc.marks⟩
  change 0 = (bytesAt v.written (l.activeId + 1)).length
  rw [hnone]
  rfl

/-- What a flush does to a view; when it fails the log is poisoned. -/
structure Flushes (l : DurableLog) (v v' : View) (l' : DurableLog) : Prop where
  before : v'.before = v.before
  cofres : v'.cofres = v.cofres
  safe : ∀ e ∈ v.safe, e ∈ v'.safe
  poisoned : l'.poisoned = false → l.poisoned = false
  pending : l'.poisoned = false → v'.pending = []
  ahead : l'.poisoned = false → v'.ahead = v.ahead ++ Reading.flushed l v.pending
  loose : l'.poisoned = false → v.loose = [] → v'.loose = []
  covers : l'.poisoned = false → ∀ c ∈ v.pending, ∃ e ∈ v'.safe, e.2 = c

theorem View.cofres_sync (v : View) : v.sync.cofres = v.cofres := by
  rw [cofres, written_sync]
  rfl

/-- The log is poisoned. -/
theorem flushes_wrote (hp : l'.poisoned = true) : Flushes l v (v.wrote l) l' := by
  have hbad : ¬ l'.poisoned = false := by simp [hp]
  exact ⟨rfl, v.cofres_wrote l, fun _ he => he, fun hok => absurd hok hbad, fun hok => absurd hok hbad,
    fun hok => absurd hok hbad, fun hok => absurd hok hbad, fun hok => absurd hok hbad⟩

theorem flushes_sync (hp : l.poisoned = false) : Flushes l v (v.wrote l).sync l' := by
  refine ⟨rfl, ((v.wrote l).cofres_sync).trans (v.cofres_wrote l), fun e he => ?_, fun _ => hp, fun _ => rfl, fun _ => ?_,
    fun _ _ => rfl, fun _ c hc => ⟨(l.activeId, c), ?_, rfl⟩⟩
  · rw [View.safe_sync, View.written_wrote]
    exact mem_append_left _ (View.mem_safe he)
  · rw [View.ahead_sync]
    exact (append_assoc _ _ _).symm
  · rw [View.safe_sync, View.written_wrote]
    exact mem_append_right _ (mem_map.2 ⟨c, hc, rfl⟩)

/-- **A flush keeps the invariant**, whether it succeeds or not. -/
theorem Holds.flush (h : Holds d v l) (cfg : WalConfig) (fault : Fault) :
    ∃ v', Holds d v' (l.flush cfg fault).1 ∧ Flushes l v v' (l.flush cfg fault).1 := by
  rcases flush_cases cfg fault l with ⟨hp, heq⟩ | ⟨hp, hbuf, heq⟩ | ⟨hp, -, -, heq⟩ | ⟨hp, -, heq⟩ |
    ⟨hp, -, -, heq⟩ | ⟨hp, -, heq⟩ <;> rw [heq]
  · have hbad : ¬ l.poisoned = false := by simp [hp]
    exact ⟨v, h, rfl, rfl, fun _ he => he, fun hok => absurd hok hbad, fun hok => absurd hok hbad,
      fun hok => absurd hok hbad, fun hok => absurd hok hbad, fun hok => absurd hok hbad⟩
  · have hpending := h.reading.buf_eq_nil.1 hbuf
    refine ⟨v, h, rfl, rfl, fun _ he => he, fun _ => hp, fun _ => hpending, fun _ => ?_, fun _ hloose => hloose,
      fun _ c hc => ?_⟩
    · rw [hpending]
      exact (append_nil _).symm
    · rw [hpending] at hc
      cases hc
  · exact ⟨_, h.written hp, flushes_wrote rfl⟩
  · exact ⟨_, h.synced hp, flushes_sync hp⟩
  · exact ⟨_, (h.synced hp).created rfl rfl, flushes_sync hp⟩
  · exact ⟨_, (h.synced hp).rolled rfl rfl, flushes_sync hp⟩

/-- The view with one more cofre in the buffer. -/
def View.push (v : View) (c : Cofre) : View := { v with pending := v.pending ++ [c] }

/-- The log with one more cofre in the buffer. -/
def DurableLog.push (l : DurableLog) (c : Cofre) : DurableLog := { l with buf := l.buf ++ wire.frame c.encode }

/-- A cofre goes into the buffer. -/
theorem Holds.push (h : Holds d v l) (hp : l.poisoned = false) {c : Cofre} (hc : FitsWire c) :
    Holds d (v.push c) (l.push c) := by
  refine ⟨{ h.stored with }, { h.placed with },
    ⟨?_, forall_mem_append.2 ⟨h.buffered.fits, forall_mem_singleton.2 hc⟩, h.buffered.ends, fun hf => ?_⟩, h.flight,
    h.kept, fun cursor hc => ?_⟩
  · simp only [DurableLog.push, View.push, h.buffered.buf, map_append, map_cons, map_nil,
      Codec.frames_append, Codec.frames_cons, Codec.frames_nil, append_nil]
  · rw [show l.poisoned = true from hf] at hp
    cases hp
  · have hm := h.marks cursor hc
    exact { hm with }

end Flush

section Deliver

variable {d : Dealt} {v : View} {l : DurableLog}

/-- The view with the first entry ahead delivered. -/
def View.advance (v : View) (e : Entry) (rest : List Entry) : View :=
  { v with before := v.before ++ [e], rest }

variable {rest : List Entry} {e : Entry}

theorem View.written_advance {v : View} (h : v.rest = e :: rest) :
    (v.advance e rest).written = v.written := by
  simp only [written, ahead, advance, h, append_assoc, cons_append, nil_append]

theorem View.safe_advance {v : View} (h : v.rest = e :: rest) :
    (v.advance e rest).safe = v.safe := by
  simp only [safe, advance, h, append_assoc, singleton_append]

/-- What is ahead has not been delivered. -/
theorem Distinct.fresh (h : Distinct v) {x e : Entry} (hx : x ∈ v.before) (he : e ∈ v.ahead) : idOf x.2 ≠ idOf e.2 := by
  unfold Distinct View.cofres View.written at h
  rw [map_append, map_map, map_append] at h
  exact (nodup_append.1 (nodup_append.1 h).1).2.2 _ (mem_map_of_mem hx) _ (mem_map_of_mem he)

theorem countOf_countUp (segInflight : AList fun _ : ℕ => ℕ) (s t : ℕ) :
    countOf (countUp segInflight s) t = if t = s then countOf segInflight s + 1 else countOf segInflight t := by
  rw [countOf, countUp, lookup_insert_ite]
  split_ifs <;> rfl

theorem Flight.deliver {before : List Entry} {inflight : Table (Arr 32) ℕ} {segInflight : AList fun _ : ℕ => ℕ}
    (h : Flight d before inflight segInflight)
    (hfresh : d.unique → ∀ x ∈ before, idOf x.2 ≠ idOf e.2) :
    Flight (d.receive e.2) (before ++ [e]) (inflight.insert (idOf e.2) e.1) (countUp segInflight e.1) := by
  refine ⟨forall_mem_append.2 ⟨fun x hx => mem_append_left _ (h.received x hx),
      forall_mem_singleton.2 (mem_append_right _ mem_cons_self)⟩,
    fun hunique => forall_mem_append.2 ⟨fun x hx => ?_, forall_mem_singleton.2 (.inr (Table.get_insert_self _ _ _))⟩,
    fun s ids hnodup hids => ?_, fun s hs => ?_⟩
  · rw [Table.get_insert_of_ne (hfresh hunique x hx)]
    exact h.acked hunique x hx
  · -- all but the new one were in flight before
    have hold : ∀ id ∈ ids.erase (idOf e.2), inflight.get id = some s := by
      intro id hid
      obtain ⟨hne, hid⟩ := hnodup.mem_erase_iff.1 hid
      rw [← hids id hid, Table.get_insert_of_ne hne]
    have hcount := h.counts s _ (hnodup.erase _) hold
    rw [countOf_countUp]
    by_cases hmem : idOf e.2 ∈ ids
    · have hs := hids _ hmem
      rw [Table.get_insert_self] at hs
      rw [length_erase_of_mem hmem, ← Option.some.inj hs] at hcount
      rw [if_pos (Option.some.inj hs).symm]
      omega
    · rw [erase_of_not_mem hmem] at hcount
      split_ifs with hs
      · rw [hs] at hcount
        exact hcount.trans (Nat.le_succ _)
      · exact hcount
  · rw [countOf_countUp] at hs
    split_ifs at hs with heq
    · rw [heq]
      exact ⟨e.2, mem_append_right _ mem_cons_self⟩
    · obtain ⟨c, hc⟩ := h.counted s hs
      exact ⟨c, mem_append_left _ hc⟩

/-- **`recv` delivers the first entry ahead of the cursor.** -/
theorem Holds.deliver (h : Holds d v l) (hdistinct : d.unique → Distinct v) (hrest : v.rest = e :: rest) :
    Holds (d.receive e.2) (v.advance e rest)
      ((l.seek e.1 (bytesAt v.before e.1).length).deliver e.2 (wire.frame e.2.encode).length) := by
  have hahead : v.ahead = e :: (v.advance e rest).ahead := by
    rw [View.ahead, hrest]
    rfl
  have hmem : e ∈ v.ahead := by
    rw [hahead]
    exact mem_cons_self
  have hreading := h.reading
  rw [hahead] at hreading
  have hle := hreading.position.ahead e mem_cons_self
  have hrange := h.stored.range e (mem_append_right _ hmem)
  refine ⟨⟨?_, ?_, ?_, h.stored.loose, ?_, ?_, ?_⟩, ⟨hreading.deliver.position, hrange.1, hrange.2, fun he => ?_⟩,
    ⟨h.buffered.buf, h.buffered.fits, ?_, h.buffered.poisoned⟩, h.flight.deliver fun hunique x hx => (hdistinct hunique).fresh hx hmem,
    ⟨fun s hs t hlow hhigh => ?_, fun x hx => ⟨(h.kept.gone x hx).1, ?_, fun s hs => ?_⟩⟩, fun cursor hc => ?_⟩
  · rw [View.written_advance hrest]
    exact h.stored.sorted
  · rw [View.written_advance hrest]
    exact h.stored.fits
  · rw [View.written_advance hrest]
    exact h.stored.range
  · rw [View.written_advance hrest]
    exact h.stored.files
  · rw [View.safe_advance hrest]
    exact h.stored.durable
  · rw [View.written_advance hrest]
    exact h.stored.unlinked
  · rw [View.written_advance hrest]
    obtain ⟨hp, -, hall⟩ := h.placed.entry he
    exact ⟨hp, hall e (mem_append_right _ hmem), hall⟩
  · rw [View.written_advance hrest]
    exact h.buffered.ends
  · change 0 < countOf (countUp l.segInflight e.1) s at hs
    rw [countOf_countUp] at hs
    split_ifs at hs with heq
    · have hm := h.marks _ mem_cons_self
      rw [heq] at hlow
      exact hm.present t ((hm.low.trans hle).trans hlow) hhigh
    · exact h.kept.present s hs t hlow hhigh
  · exact (h.kept.gone x hx).2.1.trans_le hle
  · change 0 < countOf (countUp l.segInflight e.1) s at hs
    rw [countOf_countUp] at hs
    split_ifs at hs with heq
    · rw [heq]
      exact (h.kept.gone x hx).2.1.trans_le hle
    · exact (h.kept.gone x hx).2.2 s hs
  · have hm := h.marks cursor hc
    obtain ⟨b, a, hb, hdiv, hdone⟩ := hm.splits
    refine ⟨hm.low.trans hle, hm.present, hm.gone, b, a ++ [e], ?_, ?_, fun x hx => (hdone x hx).mono (d.le_receive e.2)⟩
    · rw [← append_assoc, ← hb]
      rfl
    · rw [append_assoc, singleton_append, ← hahead]
      exact hdiv

/-- With nothing ahead, the cursor goes to the end. -/
theorem Holds.seekEnd (h : Holds d v l) (hahead : v.ahead = []) (hentry : l.disk.entry = true) :
    Holds d v (l.seek l.activeId (bytesAt v.before l.activeId).length) := by
  have hreading := h.reading
  rw [hahead] at hreading
  have hposition := hreading.seekEnd.position
  rw [← hahead] at hposition
  refine ⟨h.stored, ⟨hposition, h.placed.low.trans h.placed.high, le_refl _, fun he => ?_⟩,
    { h.buffered with }, h.flight,
    ⟨h.kept.present, fun x hx => ⟨(h.kept.gone x hx).1, (h.kept.gone x hx).2.1.trans_le h.placed.high,
      (h.kept.gone x hx).2.2⟩⟩, fun cursor hc => ?_⟩
  · rw [show l.disk.entry = false from he] at hentry
    cases hentry
  · have hm := h.marks cursor hc
    exact ⟨hm.low.trans h.placed.high, hm.present, hm.gone, hm.splits⟩

end Deliver

section Ack

variable {d : Dealt} {v : View} {l : DurableLog}

variable {before : List Entry} {inflight : Table (Arr 32) ℕ} {segInflight segInflight' : AList fun _ : ℕ => ℕ}

/-- Only the counts matter. -/
theorem Flight.congr
    (h : Flight d before inflight segInflight) (hcounts : ∀ s, countOf segInflight' s = countOf segInflight s) :
    Flight d before inflight segInflight' :=
  ⟨h.received, h.acked, fun s ids hnodup hids => (h.counts s ids hnodup hids).trans (hcounts s).ge,
    fun s hs => h.counted s (hcounts s ▸ hs)⟩

variable {segInflight : AList fun _ : ℕ => ℕ} {id : Arr 32} {s : ℕ}

/-- A segment with something in flight counts it. -/
theorem Flight.count_pos
    (h : Flight d before inflight segInflight) (hs : inflight.get id = some s) :
    0 < countOf segInflight s :=
  h.counts s [id] (nodup_singleton id) fun id' hid' => by rwa [mem_singleton.1 hid']

theorem settle_of_none (h : l.inflight.get id = none) : l.settle id = l := by
  simp only [settle, h]

theorem settle_of_some {s n : ℕ} (h : l.inflight.get id = some s) (hn : l.segInflight.lookup s = some n) :
    l.settle id = { l with inflight := l.inflight.erase id, segInflight := l.segInflight.insert s (n - 1) } := by
  simp only [settle, h, hn]

/-- Only the bookkeeping of what is in flight changes. -/
theorem settle_frame (l : DurableLog) (id : Arr 32) :
    (l.settle id).disk = l.disk ∧ (l.settle id).readId = l.readId ∧ (l.settle id).activeId = l.activeId := by
  cases hs : l.inflight.get id with
  | none => rw [settle_of_none hs]; exact ⟨rfl, rfl, rfl⟩
  | some s => simp only [settle, hs, and_self]

theorem unsettle_eq (l : DurableLog) (id : Arr 32) (s : Option ℕ) : l.unsettle id s =
    { l with inflight := (l.unsettle id s).inflight, segInflight := (l.unsettle id s).segInflight } := by
  cases s <;> rfl

/-- A segment that counts something has an entry. -/
theorem lookup_of_countOf (hpos : 0 < countOf segInflight s) : ∃ n, segInflight.lookup s = some (n + 1) := by
  unfold countOf at hpos
  cases hn : segInflight.lookup s with
  | none =>
    rw [hn] at hpos
    cases hpos
  | some n =>
    rw [hn] at hpos
    exact ⟨n - 1, congrArg some (Nat.succ_pred_eq_of_pos hpos).symm⟩

/-- Counts only go down when an ack is booked. -/
theorem countOf_insert_le {s n : ℕ} (hn : segInflight.lookup s = some (n + 1)) (t : ℕ) :
    countOf (segInflight.insert s (n + 1 - 1)) t + (if t = s then 1 else 0) = countOf segInflight t := by
  rw [countOf, countOf, lookup_insert_ite]
  split_ifs with ht
  · rw [ht, hn]
    rfl
  · rfl

theorem Flight.settle (h : Flight d before l.inflight l.segInflight) (id : Arr 32) :
    Flight (d.ack id) before (l.settle id).inflight (l.settle id).segInflight := by
  cases hs : l.inflight.get id with
  | none =>
    rw [settle_of_none hs]
    exact h.mono (d.le_ack id)
  | some s =>
    obtain ⟨n, hn⟩ := lookup_of_countOf (h.count_pos hs)
    have hcount := countOf_insert_le hn
    rw [settle_of_some hs hn]
    change Flight (d.ack id) before (l.inflight.erase id) (l.segInflight.insert s (n + 1 - 1))
    refine ⟨h.received, fun hunique e he => ?_, fun t ids hnodup hids => ?_, fun t ht => ?_⟩
    · by_cases heq : idOf e.2 = id
      · exact .inl (heq ▸ mem_append_right _ mem_cons_self)
      · rw [Table.get_erase_of_ne heq]
        exact (h.acked hunique e he).imp_left fun ha => (d.le_ack id).acked ha
    · -- the id that is acked was in flight besides these
      have hold : ∀ id' ∈ ids, id' ≠ id ∧ l.inflight.get id' = some t := by
        intro id' hid'
        have := hids id' hid'
        rw [Table.get_erase] at this
        split_ifs at this with hne
        exact ⟨hne, this⟩
      have ht := hcount t
      split_ifs at ht with heq
      · have hmore := h.counts t (id :: ids) (nodup_cons.2 ⟨fun hmem => (hold id hmem).1 rfl, hnodup⟩)
          (forall_mem_cons.2 ⟨heq ▸ hs, fun id' hid' => (hold id' hid').2⟩)
        rw [length_cons] at hmore
        omega
      · have hsame := h.counts t ids hnodup fun id' hid' => (hold id' hid').2
        omega
    · have := hcount t
      exact h.counted t (by omega)

/-- An ack that fails leaves everything in flight as it was. -/
theorem unsettle_settle (hpos : ∀ s, l.inflight.get id = some s → 0 < countOf l.segInflight s)
    (l' : DurableLog) (hinflight : l'.inflight = (l.settle id).inflight)
    (hcounts : l'.segInflight = (l.settle id).segInflight) :
    (l'.unsettle id (l.inflight.get id)).inflight = l.inflight ∧
      ∀ s, countOf (l'.unsettle id (l.inflight.get id)).segInflight s = countOf l.segInflight s := by
  cases hs : l.inflight.get id with
  | none =>
    rw [settle_of_none hs] at hinflight hcounts
    exact ⟨hinflight, fun s => congrArg (countOf · s) hcounts⟩
  | some s =>
    obtain ⟨n, hn⟩ := lookup_of_countOf (hpos s hs)
    rw [settle_of_some hs hn] at hinflight hcounts
    refine ⟨Table.ext fun k => ?_, fun t => ?_⟩
    · simp only [DurableLog.unsettle, hinflight, Table.get_insert, Table.get_erase]
      split_ifs with hk
      · rw [hk, hs]
      · rfl
    · have ht := countOf_insert_le hn t
      simp only [DurableLog.unsettle, hcounts, countOf_countUp]
      split_ifs at ht ⊢ with heq
      · subst heq
        exact ht
      · exact ht

/-- **The floor**: the oldest segment with something in flight, or the cursor. -/
theorem ackFloor_cases (l : DurableLog) :
    (∃ s, l.ackFloor = (s, 0) ∧ 0 < countOf l.segInflight s ∧ ∀ t, 0 < countOf l.segInflight t → s ≤ t) ∨
    (l.ackFloor = (l.readId, l.readOff) ∧ ∀ t, ¬ 0 < countOf l.segInflight t) := by
  have hmem : ∀ t, t ∈ ((l.segInflight.entries.filter fun e => decide (0 < e.2)).map fun e => e.1) ↔
      0 < countOf l.segInflight t := by
    intro t
    rw [mem_map, countOf]
    constructor
    · rintro ⟨e, he, rfl⟩
      obtain ⟨hentry, hpos⟩ := mem_filter.1 he
      rw [AList.mem_lookup_iff.2 hentry]
      exact of_decide_eq_true hpos
    · intro hpos
      cases hn : l.segInflight.lookup t with
      | none =>
        rw [hn] at hpos
        cases hpos
      | some n =>
        rw [hn] at hpos
        exact ⟨⟨t, n⟩, mem_filter.2 ⟨AList.mem_lookup_iff.1 hn, decide_eq_true hpos⟩, rfl⟩
  cases hmin : ((l.segInflight.entries.filter fun e => decide (0 < e.2)).map fun e => e.1).min? with
  | none =>
    refine .inr ⟨by simp only [ackFloor, hmin], fun t ht => ?_⟩
    rw [min?_eq_none_iff] at hmin
    have := (hmem t).2 ht
    rw [hmin] at this
    cases this
  | some s =>
    obtain ⟨hs, hle⟩ := min?_eq_some_iff.1 hmin
    exact .inl ⟨s, by simp only [ackFloor, hmin], (hmem s).1 hs, fun t ht => hle t ((hmem t).2 ht)⟩

/-- What is behind the cursor and in no segment with something in flight is dealt with. -/
theorem Flight.done_of_count (h : Flight d before inflight segInflight) {e : Entry} (he : e ∈ before)
    (hcount : ¬ 0 < countOf segInflight e.1) : d.Done e :=
  ⟨h.received e he, fun hunique => (h.acked hunique e he).resolve_right fun hflight => hcount (h.count_pos hflight)⟩

/-- Entries in the order of their segments divide at each segment. -/
theorem exists_split {es : List Entry} (hsorted : es.Pairwise fun x y => x.1 ≤ y.1) (s : ℕ) :
    ∃ b a, es = b ++ a ∧ (∀ e ∈ b, e.1 < s) ∧ ∀ e ∈ a, s ≤ e.1 := by
  induction es with
  | nil => exact ⟨[], [], rfl, nofun, nofun⟩
  | cons x es ih =>
    obtain ⟨hx, hsorted⟩ := pairwise_cons.1 hsorted
    rcases Nat.lt_or_ge x.1 s with hlt | hge
    · obtain ⟨b, a, rfl, hb, ha⟩ := ih hsorted
      exact ⟨x :: b, a, rfl, forall_mem_cons.2 ⟨hlt, hb⟩, ha⟩
    · exact ⟨[], x :: es, rfl, nofun, forall_mem_cons.2 ⟨hge, fun e he => hge.trans (hx e he)⟩⟩

/-- The cursor that `checkpoint` writes. -/
def floorCursor (l : DurableLog) : Cursor := ⟨l.readId, l.readOff, l.ackFloor.1, l.ackFloor.2⟩

/-- **Below the floor everything is dealt with.** -/
theorem Holds.mark_floor (h : Holds d v l) :
    Mark d v l.disk l.readId l.activeId (some (floorCursor l)) ∧ markId (some (floorCursor l)) = l.ackFloor.1 := by
  rcases ackFloor_cases l with ⟨s, hfloor, hpos, hmin⟩ | ⟨hfloor, hnone⟩
  · obtain ⟨c, hc⟩ := h.flight.counted s hpos
    have hone : 1 ≤ s := (h.stored.range _ (View.mem_before hc)).1
    have hmark : markId (some (floorCursor l)) = s := by
      simp only [markId, floorCursor, Option.getD_some, hfloor]
      omega
    have hoff : markOff (some (floorCursor l)) = 0 := by
      simp only [markOff, floorCursor, Option.getD_some, hfloor]
    obtain ⟨b, a, hsplit, hbelow, habove⟩ := exists_split (pairwise_append.1 h.stored.sorted).1 s
    refine ⟨⟨?_, ?_, ?_, b, a, hsplit, ?_, fun e he => ?_⟩, by rw [hmark, hfloor]⟩
    · rw [hmark]
      exact h.placed.position.behind _ hc
    · rw [hmark]
      exact h.kept.present s hpos
    · rw [hmark]
      exact fun e he => (h.kept.gone e he).2.2 s hpos
    · rw [hmark, hoff]
      refine ⟨fun e he => (hbelow e he).le, forall_mem_append.2 ⟨habove, fun e he =>
        (h.placed.position.behind _ hc).trans (h.placed.position.ahead e he)⟩, ?_⟩
      rw [bytesAt_eq_nil fun e he => (hbelow e he).ne]
      rfl
    · refine h.flight.done_of_count (hsplit ▸ mem_append_left _ he) fun hpos' => ?_
      have := hmin _ hpos'
      have := hbelow e he
      omega
  · have hmark : markId (some (floorCursor l)) = l.readId := by
      have := h.placed.low
      simp only [markId, floorCursor, Option.getD_some, hfloor]
      omega
    have hoff : markOff (some (floorCursor l)) = l.readOff := by
      simp only [markOff, floorCursor, Option.getD_some, hfloor]
    have hm := h.marks _ mem_cons_self
    refine ⟨⟨hmark.le, ?_, ?_, v.before, [], (append_nil _).symm, ?_, fun e he => ?_⟩, by rw [hmark, hfloor]⟩
    · rw [hmark]
      exact fun t ht => hm.present t (hm.low.trans ht)
    · rw [hmark]
      exact fun e he => (h.kept.gone e he).2.1
    · rw [hmark, hoff]
      exact h.placed.position
    · exact h.flight.done_of_count he (hnone _)

/-- **A checkpoint keeps the invariant**, whether it succeeds or not. -/
theorem Holds.checkpoint (h : Holds d v l) (fault : Fault) : Holds d v (l.checkpoint fault).1 := by
  have hrenamed : Holds d v { l with
      disk := { l.disk with cursor := some (floorCursor l), stale := l.disk.cursor :: l.disk.stale } } := by
    refine ⟨{ h.stored with }, { h.placed with }, { h.buffered with }, h.flight,
      ⟨h.kept.present, h.kept.gone⟩, fun cursor hc => ?_⟩
    have hm : Mark d v l.disk l.readId l.activeId cursor := by
      rcases mem_cons.1 hc with rfl | hc
      · exact h.mark_floor.1
      · exact h.marks cursor hc
    exact { hm with }
  unfold DurableLog.checkpoint
  split_ifs
  · exact h
  · exact hrenamed
  · exact hrenamed.fsyncDir

theorem checkpoint_ok (l : DurableLog) (fault : Fault) (hok : (l.checkpoint fault).2 = .ok ()) :
    (l.checkpoint fault).1 = { l with
      disk := { l.disk with cursor := some (floorCursor l), stale := [], entry := true, unlinked := [] } } := by
  unfold checkpoint at hok ⊢
  split_ifs at hok ⊢
  rfl

/-- What a checkpoint that fails leaves alone. -/
theorem checkpoint_error (l : DurableLog) (fault : Fault) {e : WalError} (herror : (l.checkpoint fault).2 = .error e) :
    ∃ cursor stale, (l.checkpoint fault).1 = { l with disk := { l.disk with cursor, stale } } := by
  unfold checkpoint at herror ⊢
  split_ifs at herror ⊢
  · exact ⟨_, _, rfl⟩
  · exact ⟨_, _, rfl⟩

/-- Other cofres are in flight. -/
theorem Holds.refly (h : Holds d v l)
    (hflight : Flight d v.before inflight segInflight) (hkept : Kept l.disk l.readId l.activeId segInflight) :
    Holds d v { l with inflight, segInflight } :=
  ⟨h.stored, { h.placed with }, { h.buffered with }, hflight, hkept, h.marks⟩

/-- Fewer segments count something. -/
theorem Kept.mono {disk : Disk} {readId activeId : ℕ}
    (h : Kept disk readId activeId segInflight) (hle : ∀ s, countOf segInflight' s ≤ countOf segInflight s) :
    Kept disk readId activeId segInflight' :=
  ⟨fun s hs => h.present s (hs.trans_le (hle s)),
    fun e he => ⟨(h.gone e he).1, (h.gone e he).2.1, fun s hs => (h.gone e he).2.2 s (hs.trans_le (hle s))⟩⟩

/-- Nothing below the floor is in flight. -/
theorem ackFloor_le (hs : 0 < countOf l.segInflight s) : l.ackFloor.1 ≤ s := by
  rcases ackFloor_cases l with ⟨s', hs', -, hmin⟩ | ⟨-, hnone⟩
  · rw [hs']
    exact hmin s hs
  · exact absurd hs (hnone s)

theorem countOf_retain (l : DurableLog) (s : ℕ) :
    countOf (retainKeys l.segInflight fun s => decide (¬ l.Doomed s)) s = countOf l.segInflight s := by
  rw [countOf, lookup_retainKeys]
  by_cases hd : l.Doomed s
  · have hzero : ¬ 0 < countOf l.segInflight s := fun hpos => absurd (ackFloor_le hpos) (Nat.not_le.2 hd.2.1)
    simp only [hd, not_true_eq_false, decide_false, Bool.false_eq_true, if_false, Option.getD_none]
    omega
  · simp [hd]

theorem lookup_retain (l : DurableLog) (s : ℕ) : (retainKeys l.disk.segments fun s => decide (¬ l.Doomed s)).lookup s =
    if l.Doomed s then none else l.disk.segments.lookup s := by
  rw [lookup_retainKeys]
  by_cases hd : l.Doomed s <;> simp [hd]

/-- **What is doomed can go**, once the floor is durable. -/
theorem Holds.collect (h : Holds d v l) (hcursor : l.disk.cursor = some (floorCursor l)) (hstale : l.disk.stale = [])
    (fault : Fault) : Holds d v (l.collect fault).1 := by
  set deleted := (l.disk.segments.entries.filter fun e => decide (l.Doomed e.1)).map fun e => (e.1, e.2) with hdeleted
  have hmark := h.mark_floor.2
  have hdoomed : ∀ e ∈ deleted, l.Doomed e.1 ∧ l.disk.segments.lookup e.1 = some e.2 := by
    intro e he
    obtain ⟨x, hx, rfl⟩ := mem_map.1 he
    obtain ⟨hentry, hd⟩ := mem_filter.1 hx
    exact ⟨of_decide_eq_true hd, AList.mem_lookup_iff.2 hentry⟩
  have hlookup := lookup_retain l
  have hfloor (s) (hs : 0 < countOf l.segInflight s) := ackFloor_le hs
  have hcounts := countOf_retain l
  have hremoved : Holds d v { l with
      disk := { l.disk with
        segments := retainKeys l.disk.segments fun s => decide (¬ l.Doomed s)
        unlinked := deleted ++ l.disk.unlinked }
      segInflight := retainKeys l.segInflight fun s => decide (¬ l.Doomed s) } := by
    refine ⟨⟨h.stored.sorted, h.stored.fits, h.stored.range, h.stored.loose, fun s content hs => ?_, h.stored.durable,
        fun e he => ?_⟩, { h.placed with },
      { h.buffered with }, h.flight.congr hcounts,
      ⟨fun s hs t hlow hhigh => ?_, fun e he => ?_⟩, fun cursor hc => ?_⟩
    · change (retainKeys l.disk.segments fun s => decide (¬ l.Doomed s)).lookup s = some content at hs
      rw [hlookup] at hs
      split_ifs at hs
      exact h.stored.files s content hs
    · rcases mem_append.1 he with he | he
      · exact (h.stored.files e.1 e.2 (hdoomed e he).2).2.2
      · exact h.stored.unlinked e he
    · change ((retainKeys l.disk.segments fun s => decide (¬ l.Doomed s)).lookup t).isSome
      have hs : 0 < countOf l.segInflight s := hcounts s ▸ hs
      rw [hlookup, if_neg fun hd => absurd ((hfloor s hs).trans hlow) (Nat.not_le.2 hd.2.1)]
      exact h.kept.present s hs t hlow hhigh
    · rcases mem_append.1 he with he | he
      · obtain ⟨hpos, hlow, hread⟩ := (hdoomed e he).1
        exact ⟨hpos, hread, fun s hs => hlow.trans_le (hfloor s (hcounts s ▸ hs))⟩
      · exact ⟨(h.kept.gone e he).1, (h.kept.gone e he).2.1, fun s hs => (h.kept.gone e he).2.2 s (hcounts s ▸ hs)⟩
    · have hc : cursor = some (floorCursor l) := by
        rw [hcursor, hstale] at hc
        exact mem_singleton.1 hc
      subst hc
      have hm := h.mark_floor.1
      refine ⟨hm.low, fun s hlow hhigh => ?_, fun e he => ?_, hm.splits⟩
      · change ((retainKeys l.disk.segments fun s => decide (¬ l.Doomed s)).lookup s).isSome
        rw [hmark] at hlow
        rw [hlookup, if_neg fun hd => absurd hlow (Nat.not_le.2 hd.2.1)]
        exact hm.present s (hmark.le.trans hlow) hhigh
      · rcases mem_append.1 he with he | he
        · rw [hmark]
          exact (hdoomed e he).1.2.1
        · exact hm.gone e he
  unfold DurableLog.collect
  dsimp only
  split_ifs
  · exact hremoved
  · exact hremoved
  · exact hremoved.fsyncDir

/-- An ack is booked. -/
theorem Holds.settle (h : Holds d v l) (id : Arr 32) : Holds (d.ack id) v (l.settle id) := by
  have hflight := h.flight.settle id
  have hm := h.mono (d.le_ack id)
  cases hs : l.inflight.get id with
  | none =>
    rw [settle_of_none hs]
    exact hm
  | some s =>
    obtain ⟨n, hn⟩ := lookup_of_countOf (h.flight.count_pos hs)
    rw [settle_of_some hs hn] at hflight ⊢
    refine hm.refly hflight (h.kept.mono fun t => ?_)
    have := countOf_insert_le hn t
    omega

/-- **An ack keeps the invariant**, whether it succeeds or not. -/
theorem Holds.ack (h : Holds d v l) (fault : Fault) (id : Arr 32) : Holds (d.ack id) v (l.ack fault id).1 := by
  have hchecked := (h.settle id).checkpoint fault
  unfold DurableLog.ack
  cases hres : (l.settle id).checkpoint fault with
  | mk l' res =>
    rw [hres] at hchecked
    cases res with
    | ok u =>
      have hl' := checkpoint_ok (l.settle id) fault (by rw [hres])
      rw [hres] at hl'
      subst hl'
      exact hchecked.collect rfl rfl fault
    | error e =>
      obtain ⟨cursor, stale, hl'⟩ := checkpoint_error (l.settle id) fault (by rw [hres])
      rw [hres] at hl'
      dsimp only at hl' hchecked ⊢
      obtain ⟨hinflight, hcounts⟩ := unsettle_settle (fun _ => h.flight.count_pos) l' (by rw [hl']) (by rw [hl'])
      have hkept : Kept l'.disk l'.readId l'.activeId (l'.unsettle id (l.inflight.get id)).segInflight := by
        obtain ⟨hdisk, hread, hactive⟩ := settle_frame l id
        have hkept : Kept l'.disk l'.readId l'.activeId l.segInflight := by
          rw [hl']
          rw [hdisk, hread, hactive]
          exact ⟨h.kept.present, h.kept.gone⟩
        exact hkept.mono fun s => (hcounts s).le
      rw [unsettle_eq, hinflight]
      exact hchecked.refly ((h.flight.congr hcounts).mono (d.le_ack id)) hkept

/-- **Dropping the log keeps the invariant.** -/
theorem Holds.drop (h : Holds d v l) (cfg : WalConfig) (fault : Fault) :
    ∃ v', Holds d v' (l.drop cfg fault) ∧ v'.cofres = v.cofres ∧ (∀ e ∈ v.safe, e ∈ v'.safe) ∧
      (fault = .none → l.poisoned = false → v.loose = [] → v'.loose = []) := by
  unfold DurableLog.drop
  split_ifs with hp
  · exact ⟨v, h, rfl, fun _ he => he, fun _ _ hloose => hloose⟩
  · obtain ⟨v', hv', hflush⟩ := h.flush cfg fault
    refine ⟨v', hv'.checkpoint fault, hflush.cofres, hflush.safe, fun hfault hok hloose => ?_⟩
    subst hfault
    exact hflush.loose (flush_calm cfg hok).1 hloose

end Ack

end Datarail.Wal
