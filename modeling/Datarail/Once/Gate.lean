/-
# The once-gate

`Once::admit` of `crates/datarail-once/src/lib.rs`: the admission decision of a
destination terminal.  Per stream it keeps the keys it has delivered, the sequence
numbers delivered above a contiguous low-watermark, and a floor below which keys have
been forgotten.  Sequence numbers are naturals: they stay below `u64::MAX` here.

`StreamState.Below` is what a stream knows when everything presented to it so far has
a sequence number below a bound: such a stream delivers the next number at once
(`admitSeq_fresh`).
-/

import Datarail.Lib.Collections
import Mathlib.Order.Lattice.Nat

namespace Datarail.Once

open Lib List

/-- `StreamState`. -/
structure StreamState (κ : Type) where
  /-- The keys delivered and not forgotten. -/
  seen : List κ
  /-- `delivered_keys`, by sequence number. -/
  deliveredKeys : AList fun _ : ℕ => κ
  /-- The numbers delivered above the watermark. -/
  ahead : Finset ℕ
  /-- Every number below it is settled. -/
  lowWatermark : ℕ
  /-- Keys of numbers below it are forgotten. -/
  gcFloor : ℕ

/-- `Disposition`; the gate itself never dead-letters. -/
inductive Disposition where
  | delivered
  | duplicate
  | deadLettered
  deriving DecidableEq, Repr

/-- `MAX_REORDER_HORIZON`. -/
def maxReorderHorizon : ℕ := 2 ^ 20

/-- `DEFAULT_GC_LAG`. -/
def defaultGcLag : ℕ := 1024

/-- `while ahead.remove(&low_watermark)`: at most `fuel` rounds. -/
def drain : ℕ → Finset ℕ → ℕ → Finset ℕ × ℕ
  | 0, ahead, low => (ahead, low)
  | fuel + 1, ahead, low =>
    if low ∈ ahead then drain fuel (ahead.erase low) (low + 1) else (ahead, low)

/-- `while ahead.len() > MAX_REORDER_HORIZON`: seal the lowest gap. -/
def sealGaps : ℕ → Finset ℕ → ℕ → Finset ℕ × ℕ
  | 0, ahead, low => (ahead, low)
  | fuel + 1, ahead, low =>
    if maxReorderHorizon < ahead.card then
      let (ahead', low') := drain ahead.card ahead (low + 1)
      sealGaps fuel ahead' low'
    else (ahead, low)

namespace StreamState

variable {κ : Type} [DecidableEq κ]

/-- A stream nothing was presented to. -/
def new : StreamState κ :=
  { seen := [], deliveredKeys := ∅, ahead := ∅, lowWatermark := 0, gcFloor := 0 }

/-- The watermark once a number has been delivered. -/
def advance (ahead : Finset ℕ) (low seq : ℕ) : Finset ℕ × ℕ :=
  if seq = low then drain ahead.card ahead (low + 1)
  else
    let ahead := insert seq ahead
    -- each round raises the watermark, which ends above the largest number parked
    sealGaps (ahead.sup id + 1) ahead low

/-- The rounds that forget keys. -/
def collect : ℕ → StreamState κ → StreamState κ
  | 0, st => st
  | rounds + 1, st =>
    collect rounds { st with
      seen := match st.deliveredKeys.lookup st.gcFloor with
        | some key => st.seen.filter (· ≠ key)
        | none => st.seen
      deliveredKeys := st.deliveredKeys.erase st.gcFloor
      gcFloor := st.gcFloor + 1 }

/-- `Once::admit` on the state of the stream. -/
def admitSeq (gcLag : ℕ) (st : StreamState κ) (seq : ℕ) (key : κ) : StreamState κ × Disposition :=
  if seq < st.lowWatermark then (st, .duplicate)
  else if key ∈ st.seen then (st, .duplicate)
  else if (st.deliveredKeys.lookup seq).isSome then (st, .duplicate)
  else
    let (ahead, low) := advance st.ahead st.lowWatermark seq
    let st := { st with
      seen := key :: st.seen
      deliveredKeys := st.deliveredKeys.insert seq key
      ahead := ahead
      lowWatermark := low }
    (collect (low - gcLag - st.gcFloor) st, .delivered)

/-- Everything presented so far has a number below `bound` and a key in `keys`. -/
structure Below (bound : ℕ) (keys : List κ) (st : StreamState κ) : Prop where
  low : st.lowWatermark ≤ bound
  ahead : ∀ n ∈ st.ahead, st.lowWatermark < n ∧ n < bound
  delivered : ∀ n, bound ≤ n → st.deliveredKeys.lookup n = none
  seen : ∀ key ∈ st.seen, key ∈ keys

end StreamState

variable {fuel low bound : ℕ} {ahead : Finset ℕ}

theorem drain_below (hlow : low ≤ bound) (h : ∀ n ∈ ahead, low ≤ n ∧ n < bound) (hfuel : ahead.card ≤ fuel) :
    (drain fuel ahead low).2 ≤ bound ∧ ∀ n ∈ (drain fuel ahead low).1, (drain fuel ahead low).2 < n ∧ n < bound := by
  induction fuel generalizing ahead low with
  | zero =>
    have hempty : ahead = ∅ := Finset.card_eq_zero.1 (Nat.le_zero.1 hfuel)
    subst hempty
    exact ⟨hlow, fun n hn => absurd hn (Finset.notMem_empty n)⟩
  | succ fuel ih =>
    simp only [drain]
    split_ifs with hmem
    · refine ih (by have := (h low hmem).2; omega) (fun n hn => ?_) ?_
      · obtain ⟨hne, hn⟩ := Finset.mem_erase.1 hn
        have := h n hn
        omega
      · rw [Finset.card_erase_of_mem hmem]
        omega
    · refine ⟨hlow, fun n hn => ⟨lt_of_le_of_ne (h n hn).1 ?_, (h n hn).2⟩⟩
      rintro rfl
      exact hmem hn

theorem sealGaps_below (hlow : low ≤ bound) (h : ∀ n ∈ ahead, low < n ∧ n < bound) :
    (sealGaps fuel ahead low).2 ≤ bound ∧
      ∀ n ∈ (sealGaps fuel ahead low).1, (sealGaps fuel ahead low).2 < n ∧ n < bound := by
  induction fuel generalizing ahead low with
  | zero => exact ⟨hlow, h⟩
  | succ fuel ih =>
    simp only [sealGaps]
    split_ifs with hcard
    · obtain ⟨n, hn⟩ := Finset.card_pos.1 (Nat.zero_lt_of_lt hcard)
      have hn := h n hn
      obtain ⟨h₁, h₂⟩ := drain_below (by omega) (fun m hm => ⟨(h m hm).1, (h m hm).2⟩) (le_refl ahead.card)
      exact ih h₁ h₂
    · exact ⟨hlow, h⟩

namespace StreamState

variable {κ : Type} [DecidableEq κ]

omit [DecidableEq κ] in
theorem Below.new : (new : StreamState κ).Below 0 [] :=
  ⟨le_refl _, fun _ hn => absurd hn (Finset.notMem_empty _), fun _ _ => rfl, nofun⟩

variable {st : StreamState κ} {keys : List κ}

omit [DecidableEq κ] in
theorem Below.mono {bound bound' : ℕ} (h : st.Below bound keys) (hle : bound ≤ bound') : st.Below bound' keys where
  low := h.low.trans hle
  ahead n hn := ⟨(h.ahead n hn).1, (h.ahead n hn).2.trans_le hle⟩
  delivered n hn := h.delivered n (hle.trans hn)
  seen := h.seen

/-- Delivering a number below the bound leaves the watermark and all that is parked there. -/
theorem advance_below {bound seq low : ℕ} {ahead : Finset ℕ} (h : ∀ n ∈ ahead, low < n ∧ n < bound)
    (hlow : low ≤ seq) (hseq : seq < bound) :
    (advance ahead low seq).2 ≤ bound ∧ ∀ n ∈ (advance ahead low seq).1, (advance ahead low seq).2 < n ∧ n < bound := by
  unfold advance
  split_ifs with heq
  · refine drain_below (by omega) (fun n hn => ?_) (le_refl _)
    have := h n hn
    omega
  · refine sealGaps_below (by omega) fun n hn => ?_
    rcases Finset.mem_insert.1 hn with rfl | hn
    · omega
    · exact h n hn

theorem Below.collect {bound : ℕ} (h : st.Below bound keys) (rounds : ℕ) : (st.collect rounds).Below bound keys := by
  induction rounds generalizing st with
  | zero => exact h
  | succ rounds ih =>
    refine ih ⟨h.low, h.ahead, fun n hn => ?_, fun key hkey => ?_⟩
    · rw [lookup_erase_ite]
      split_ifs
      · rfl
      · exact h.delivered n hn
    · cases hget : st.deliveredKeys.lookup st.gcFloor with
      | none =>
        simp only [hget] at hkey
        exact h.seen key hkey
      | some forgotten =>
        simp only [hget] at hkey
        exact h.seen key (mem_of_mem_filter hkey)

/-- **A fresh number with a fresh key is delivered.** -/
theorem admitSeq_fresh (gcLag : ℕ) {bound seq : ℕ} {key : κ}
    (h : st.Below bound keys) (hseq : bound ≤ seq) (hkey : key ∉ keys) :
    (st.admitSeq gcLag seq key).2 = .delivered ∧ (st.admitSeq gcLag seq key).1.Below (seq + 1) (key :: keys) := by
  have hlow : ¬ seq < st.lowWatermark := by
    have := h.low
    omega
  have hseen : key ∉ st.seen := fun hk => hkey (h.seen key hk)
  have hdelivered : ¬ (st.deliveredKeys.lookup seq).isSome = true := by
    rw [h.delivered seq hseq]
    exact Bool.false_ne_true
  simp only [admitSeq, if_neg hlow, if_neg hseen, if_neg hdelivered]
  have hahead : ∀ n ∈ st.ahead, st.lowWatermark < n ∧ n < seq + 1 := fun n hn => by
    have := h.ahead n hn
    omega
  obtain ⟨h₁, h₂⟩ := advance_below hahead (by omega) (Nat.lt_succ_self seq)
  refine ⟨trivial, Below.collect ⟨h₁, h₂, fun n hn => ?_, fun k hk => ?_⟩ _⟩
  · rw [AList.lookup_insert_ne (by omega)]
    exact h.delivered n (by omega)
  · rcases mem_cons.1 hk with rfl | hk
    · exact mem_cons_self
    · exact mem_cons_of_mem _ (h.seen k hk)

end StreamState

/-- `Once`: the streams of a destination. -/
structure Gate (ι κ : Type) where
  streams : AList fun _ : ι => StreamState κ
  gcLag : ℕ

namespace Gate

variable {ι κ : Type} [DecidableEq ι] [DecidableEq κ]

/-- `Once::with_gc_lag`. -/
def withGcLag (gcLag : ℕ) : Gate ι κ := { streams := ∅, gcLag }

/-- `Once::new`. -/
def new : Gate ι κ := withGcLag defaultGcLag

/-- `streams.entry(stream).or_default()`. -/
def stream (g : Gate ι κ) (s : ι) : StreamState κ := (g.streams.lookup s).getD .new

/-- `Once::admit`. -/
def admitSeq (g : Gate ι κ) (s : ι) (seq : ℕ) (key : κ) : Gate ι κ × Disposition :=
  let (st, disposition) := (g.stream s).admitSeq g.gcLag seq key
  ({ g with streams := g.streams.insert s st }, disposition)

theorem admitSeq_fresh {bound seq : ℕ} {keys : List κ} {key : κ} {s : ι} {g : Gate ι κ}
    (h : (g.stream s).Below bound keys) (hseq : bound ≤ seq) (hkey : key ∉ keys) :
    (g.admitSeq s seq key).2 = .delivered ∧ ((g.admitSeq s seq key).1.stream s).Below (seq + 1) (key :: keys) := by
  obtain ⟨hdelivered, hbelow⟩ := StreamState.admitSeq_fresh g.gcLag h hseq hkey
  refine ⟨hdelivered, ?_⟩
  simp only [admitSeq, stream, AList.lookup_insert, Option.getD_some]
  exact hbelow

end Gate

end Datarail.Once
