/-
# Every synced record is replayed

The ledger of a run keeps what `append` has returned: the records that are synced, with their offsets, and those
that may be lost.  A record is synced by `sync`, or by `seal_and_rotate`, whose first step is a sync; a crash
drops records that are not synced, from some offset on.

`Recorded.final` says what a log and its ledger have to do with each other after any run, and
`synced_records_replayed` reads it off `replay_from(0)`.  The crashes are those of `Event`: what a step of
`seal_and_rotate` has created or removed stays so.  A loss of power can do more, since the directory is never
synced: without its local entries the log starts again at offset 0 (`writeOffset_open_loseEntries`), and synced
records are gone.
-/

import Datarail.Tieredlog.Replay

namespace Datarail.Tieredlog

open Lib List TieredLog
open Replaylog (wire maxRecord startsOf wire_fits)

/-- What `append` has returned: the synced records, and those that are not. -/
structure Ledger where
  synced : List (ℕ × Bytes)
  pending : List (ℕ × Bytes)
  deriving DecidableEq, Repr

namespace Ledger

def empty : Ledger := ⟨[], []⟩

def all (g : Ledger) : List (ℕ × Bytes) := g.synced ++ g.pending

/-- All records are synced. -/
def settle (g : Ledger) : Ledger := ⟨g.all, []⟩

/-- The records that are not synced are lost from an offset on. -/
def cutAt (g : Ledger) (offset : ℕ) : Ledger := { g with pending := g.pending.filter fun e => decide (e.1 < offset) }

/-- One event, from the log before it, its answer and the log after it. -/
def note (g : Ledger) (l l' : TieredLog) : Event → Option (Except TieredError ℕ) → Ledger
  | .append record _, some (.ok offset) =>
    -- the segment was sealed exactly if it was full
    let g := if l.Full then g.settle else g
    { g with pending := g.pending ++ [(offset, record)] }
  -- what fails is a step of `seal_and_rotate`, behind its sync or not
  | .append _ reached, some (.error .io) => if reached = .entered then g else g.settle
  | .append _ _, _ => g
  | .sync, _ => g.settle
  | .crash _ _, _ => g.cutAt l'.writeOffset
  | .crashInSeal behind _ _, _ => if l.Full ∧ behind ≠ .entered then g.settle else g.cutAt l'.writeOffset

end Ledger

/-- The log, and its ledger. -/
def recorded : Machine (TieredLog × Ledger) Event (Option (Except TieredError ℕ)) where
  step s e := (((s.1.step e).1, s.2.note s.1 (s.1.step e).1 e (s.1.step e).2), (s.1.step e).2)

/-- A new log with an empty ledger. -/
def fresh (segmentBytes : ℕ) : TieredLog × Ledger := (.open .empty segmentBytes, .empty)

/-- The ledger is what the log holds. -/
def Recorded (s : TieredLog × Ledger) : Prop :=
  ∃ full synced pending, Holds s.1 full synced pending ∧ s.2.synced = wire.entries 0 (full.flatten ++ synced) ∧
    s.2.pending = wire.entries (wire.size (full.flatten ++ synced)) pending

section Ledger

variable {g : Ledger} {l : TieredLog} {full : List (List Bytes)} {synced pending : List Bytes}

/-- What `settle` makes of a ledger that is right. -/
theorem settle_eq (hsynced : g.synced = wire.entries 0 (full.flatten ++ synced))
    (hpending : g.pending = wire.entries (wire.size (full.flatten ++ synced)) pending) :
    g.settle = ⟨wire.entries 0 (full.flatten ++ (synced ++ pending)), []⟩ := by
  rw [Ledger.settle, Ledger.all, hsynced, hpending, ← append_assoc full.flatten, Codec.entries_append wire 0 _ pending,
    Nat.zero_add]

/-- A log whose records are all synced, in either layout. -/
theorem recorded_settle (hsynced : g.synced = wire.entries 0 (full.flatten ++ synced))
    (hpending : g.pending = wire.entries (wire.size (full.flatten ++ synced)) pending)
    (h : Holds l full (synced ++ pending) [] ∨ Holds l (full ++ [synced ++ pending]) [] []) :
    Recorded (l, g.settle) := by
  rw [settle_eq hsynced hpending]
  rcases h with h | h
  · exact ⟨full, synced ++ pending, [], h, rfl, rfl⟩
  · refine ⟨full ++ [synced ++ pending], [], [], h, ?_, rfl⟩
    rw [flatten_concat, append_nil]

/-- A crash where the records are as the ledger says. -/
theorem recorded_reopen (hsynced : g.synced = wire.entries 0 (full.flatten ++ synced))
    (hpending : g.pending = wire.entries (wire.size (full.flatten ++ synced)) pending)
    (h : Holds l full synced pending) (kept segmentBytes : ℕ) :
    Recorded (l.reopen kept segmentBytes, g.cutAt (l.reopen kept segmentBytes).writeOffset) := by
  obtain ⟨k, torn, hcrash⟩ := h.layout.crash kept
  have hopen := holds_open hcrash segmentBytes
  refine ⟨full, synced, pending.take k, hopen, hsynced, ?_⟩
  have hend : (l.reopen kept segmentBytes).writeOffset =
      wire.size (full.flatten ++ synced) + wire.size (pending.take k) := by
    rw [reopen, hopen.writeOffset, Codec.size_append, Codec.size_append, Nat.add_assoc]
  have hfilter := Codec.filter_entries (K := wire) (wire.size (full.flatten ++ synced)) (pending.take k) (pending.drop k)
  rw [take_append_drop] at hfilter
  change g.pending.filter _ = _
  rw [hpending, hend, hfilter]

/-- A crash after everything was synced loses nothing. -/
theorem holds_reopen (h : Holds l full synced []) (kept segmentBytes : ℕ) :
    Holds (l.reopen kept segmentBytes) full synced [] := by
  obtain ⟨k, torn, hcrash⟩ := h.layout.crash kept
  rw [take_nil] at hcrash
  exact holds_open hcrash segmentBytes

end Ledger

variable {s : TieredLog × Ledger}

/-- **One event keeps the ledger right.** -/
theorem Recorded.step (h : Recorded s) (e : Event) : Recorded (recorded.step s e).1 := by
  obtain ⟨l, g⟩ := s
  obtain ⟨full, synced, pending, hholds, hsynced, hpending⟩ := h
  cases e with
  | append record reached =>
    simp only [recorded, TieredLog.step]
    rcases l.append_cases record reached with happend | ⟨hfull, -, happend⟩ | ⟨hfits, happend⟩ <;> rw [happend]
    · exact ⟨full, synced, pending, hholds, hsynced, hpending⟩
    · simp only [Ledger.note]
      rcases hholds.sealTo hfull reached with ⟨hreached, hsame⟩ | ⟨hreached, hsealed⟩
      · rw [if_pos hreached]
        exact ⟨full, synced, pending, hsame, hsynced, hpending⟩
      · rw [if_neg hreached]
        exact recorded_settle hsynced hpending hsealed
    · -- what the log holds when the record is written
      have hready : Recorded (if l.Full then l.sealTo .evicted else l, if l.Full then g.settle else g) := by
        by_cases hfull : l.Full
        · rw [if_pos hfull, if_pos hfull]
          rcases hholds.sealTo hfull .evicted with ⟨heq, -⟩ | ⟨-, hsealed⟩
          · cases heq
          · exact recorded_settle hsynced hpending hsealed
        · rw [if_neg hfull, if_neg hfull]
          exact ⟨full, synced, pending, hholds, hsynced, hpending⟩
      obtain ⟨full', synced', pending', hholds', hsynced', hpending'⟩ := hready
      refine ⟨full', synced', pending' ++ [record], ?_, ?_, ?_⟩
      · exact hholds'.write (wire_fits.2 hfits)
      · exact hsynced'
      · simp only [Ledger.note]
        rw [hpending', Codec.entries_append, hholds'.writeOffset, Codec.size_append, Codec.size_append, Nat.add_assoc]
        rfl
  | sync => exact recorded_settle hsynced hpending (.inl hholds.sync)
  | crash kept segmentBytes => exact recorded_reopen hsynced hpending hholds kept segmentBytes
  | crashInSeal behind kept segmentBytes =>
    simp only [recorded, TieredLog.step, Ledger.note]
    by_cases hfull : l.Full
    · rw [if_pos hfull]
      rcases hholds.sealTo hfull behind with ⟨rfl, hsame⟩ | ⟨hbehind, hsealed⟩
      · rw [if_neg (fun h => h.2 rfl)]
        exact recorded_reopen hsynced hpending hsame kept segmentBytes
      · rw [if_pos ⟨hfull, hbehind⟩]
        exact recorded_settle hsynced hpending
          (hsealed.imp (holds_reopen · kept segmentBytes) (holds_reopen · kept segmentBytes))
    · rw [if_neg hfull, if_neg (fun h => hfull h.1)]
      exact recorded_reopen hsynced hpending hholds kept segmentBytes

/-- The ledger is right after every run. -/
theorem Recorded.final (h : Recorded s) (events : List Event) :
    Recorded (recorded.final s events) := by
  induction events generalizing s with
  | nil => exact h
  | cons e events ih => exact ih (h.step e)

/-- A new log and an empty ledger agree. -/
theorem recorded_fresh (segmentBytes : ℕ) : Recorded (fresh segmentBytes) :=
  ⟨[], [], [], holds_open_empty segmentBytes, rfl, rfl⟩

/-- The whole ledger, from its two parts. -/
theorem Recorded.all_eq {g : Ledger} {full : List (List Bytes)} {synced pending : List Bytes}
    (hsynced : g.synced = wire.entries 0 (full.flatten ++ synced))
    (hpending : g.pending = wire.entries (wire.size (full.flatten ++ synced)) pending) :
    g.all = wire.entries 0 (full.flatten ++ (synced ++ pending)) :=
  congrArg Ledger.synced (settle_eq hsynced hpending)

/-- A synced record stays in the ledger. -/
theorem synced_note (g : Ledger) (l l' : TieredLog) (e : Event) (answer : Option (Except TieredError ℕ)) :
    g.synced <+: (g.note l l' e answer).synced := by
  have hsettle : g.synced <+: g.settle.synced := prefix_append _ _
  cases e with
  | append record reached =>
    rcases answer with _ | (_ | _ | _) | offset
    · exact prefix_rfl
    · change g.synced <+: (if reached = .entered then g else g.settle).synced
      split_ifs
      · exact prefix_rfl
      · exact hsettle
    · exact prefix_rfl
    · exact prefix_rfl
    · change g.synced <+: (if l.Full then g.settle else g).synced
      split_ifs
      · exact hsettle
      · exact prefix_rfl
  | sync => exact hsettle
  | crash kept segmentBytes => exact prefix_rfl
  | crashInSeal behind kept segmentBytes =>
    change g.synced <+: (if l.Full ∧ behind ≠ .entered then g.settle else g.cutAt l'.writeOffset).synced
    split_ifs
    · exact hsettle
    · exact prefix_rfl

/-- A synced record stays in the ledger through every run. -/
theorem synced_final (s : TieredLog × Ledger) (events : List Event) :
    s.2.synced <+: (recorded.final s events).2.synced := by
  induction events generalizing s with
  | nil => exact prefix_rfl
  | cons e events ih =>
    have hstep := synced_note s.2 s.1 (s.1.step e).1 e (s.1.step e).2
    exact hstep.trans (ih (recorded.step s e).1)

/-- **Every synced record is replayed.**  After every run of appends, syncs and crashes, also with faults and crashes
inside `seal_and_rotate`, `replay_from(0)` returns the synced records and then those that are left of the others, each at
the offset that `append` returned, in order and once.  A record that was synced at any time is among them. -/
theorem synced_records_replayed (segmentBytes : ℕ) (events : List Event) :
    (recorded.final (fresh segmentBytes) events).1.replayFrom 0 =
        .ok (recorded.final (fresh segmentBytes) events).2.all ∧
      ((recorded.final (fresh segmentBytes) events).2.all.map Prod.fst).Pairwise (· < ·) ∧
      ∀ k, (recorded.final (fresh segmentBytes) (events.take k)).2.synced <+:
        (recorded.final (fresh segmentBytes) events).2.synced := by
  obtain ⟨full, synced, pending, hholds, hsynced, hpending⟩ := (recorded_fresh segmentBytes).final events
  have hall := Recorded.all_eq hsynced hpending
  refine ⟨?_, ?_, fun k => ?_⟩
  · rw [hholds.replayFrom, hall, filter_eq_self.2 fun x _ => decide_eq_true (Nat.zero_le _)]
  · rw [hall, Codec.map_fst_entries]
    exact Codec.pairwise_offsets 0 _
  · have hmore := synced_final (recorded.final (fresh segmentBytes) (events.take k)) (events.drop k)
    rwa [← Machine.final_append, take_append_drop] at hmore

/-- **A replay from an offset is the rest of the whole replay**, after every run and wherever the offset is. -/
theorem replayFrom_rest (segmentBytes : ℕ) (events : List Event) (startOffset : ℕ) :
    let l := (recorded.final (fresh segmentBytes) events).1
    l.replayFrom startOffset = (l.replayFrom 0).map (·.filter fun x => decide (startOffset ≤ x.1)) := by
  obtain ⟨full, synced, pending, hholds, -, -⟩ := (recorded_fresh segmentBytes).final events
  intro l
  rw [hholds.replayFrom, hholds.replayFrom, Except.map, filter_filter]
  simp

/-- Without the entries of its local segments a log starts again at offset 0, whatever was synced in them. -/
theorem writeOffset_open_loseEntries (d : Disk) (segmentBytes : ℕ) :
    (TieredLog.open (d.loseEntries []) segmentBytes).writeOffset = 0 := by
  have hnone : (d.loseEntries []).segments = ∅ := AList.ext (filter_eq_nil_iff.2 (by simp))
  change (TieredLog.open { d with segments := (d.loseEntries []).segments } segmentBytes).writeOffset = 0
  rw [hnone]
  rfl

end Datarail.Tieredlog
