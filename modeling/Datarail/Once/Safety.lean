/-
# What the once-gate guarantees

A stream of the gate has five fields that each admission moves together: the keys it
remembers, the numbers they were delivered under, the numbers parked above the watermark,
the watermark and the floor of the garbage collection.  `Sound` relates them, and every
admission keeps it (`Sound.admitSeq`).  A delivered number is remembered until it is below the
floor, hence below the watermark, and its key until the watermark has left it `gcLag`
behind: each number is delivered once, and a key again only after that
(`gate_delivers_once`).

Progress is another matter.  An admission that is turned away for its key leaves its
number unrecorded, and the watermark stops there (`repeated_key_holds_watermark`).  Where
every number that is turned away is settled, the watermark passes all that was presented
(`watermark_passes_presented`).
-/

import Datarail.Once.Gate
import Datarail.Lib.Run

namespace Datarail.Once

open Lib List Nat Machine StreamState

/-- What advancing the watermark from `low` over the parked numbers leads to. -/
structure Advanced (parked : Finset ℕ) (low : ℕ) (out : Finset ℕ × ℕ) : Prop where
  le : low ≤ out.2
  ahead : out.1 = parked.filter (out.2 < ·)
  gap : out.2 ∉ parked

variable {parked : Finset ℕ}

/-- The drained watermark is the next number that is not parked. -/
theorem drain_advanced {fuel : ℕ} (low : ℕ) (h : ∀ n ∈ parked, low ≤ n) (hfuel : parked.card ≤ fuel) :
    Advanced parked low (drain fuel parked low) ∧ ∀ n, low ≤ n → n < (drain fuel parked low).2 → n ∈ parked := by
  induction fuel generalizing parked low with
  | zero =>
    obtain rfl : parked = ∅ := Finset.card_eq_zero.1 (le_zero.1 hfuel)
    exact ⟨⟨le_rfl, rfl, Finset.notMem_empty _⟩, fun n h₁ h₂ => absurd h₂ (not_lt.2 h₁)⟩
  | succ fuel ih =>
    simp only [drain]
    split_ifs with hmem
    · obtain ⟨hadv, hfull⟩ := @ih (parked.erase low) (low + 1) (fun n hn => by
          have := h n (Finset.mem_of_mem_erase hn)
          have := Finset.ne_of_mem_erase hn
          omega)
        (by rw [Finset.card_erase_of_mem hmem]; omega)
      have hlt := hadv.le
      refine ⟨⟨by omega, ?_, fun hin => hadv.gap (Finset.mem_erase.2 ⟨by omega, hin⟩)⟩, fun n h₁ h₂ => ?_⟩
      · rw [hadv.ahead]
        ext n
        simp only [Finset.mem_filter, Finset.mem_erase]
        constructor
        · rintro ⟨⟨-, hn⟩, hlt⟩
          exact ⟨hn, hlt⟩
        · rintro ⟨hn, hlt⟩
          exact ⟨⟨by omega, hn⟩, hlt⟩
      · rcases eq_or_lt_of_le h₁ with rfl | h₁
        · exact hmem
        · exact Finset.mem_of_mem_erase (hfull n h₁ h₂)
    · refine ⟨⟨le_rfl, ?_, hmem⟩, fun n h₁ h₂ => absurd h₂ (not_lt.2 h₁)⟩
      refine (Finset.filter_true_of_mem fun n hn => lt_of_le_of_ne (h n hn) ?_).symm
      rintro rfl
      exact hmem hn

/-- The rounds that seal gaps end with at most `MAX_REORDER_HORIZON` numbers parked. -/
theorem sealGaps_advanced (fuel : ℕ) {low : ℕ} (h : ∀ n ∈ parked, low < n) (hfuel : ∀ n ∈ parked, n < low + fuel) :
    Advanced parked low (sealGaps fuel parked low) ∧ (sealGaps fuel parked low).1.card ≤ maxReorderHorizon := by
  have hgap : low ∉ parked := fun hin => lt_irrefl _ (h low hin)
  have hsame : parked = parked.filter (low < ·) := (Finset.filter_true_of_mem h).symm
  induction fuel generalizing parked low with
  | zero =>
    obtain rfl : parked = ∅ := by
      refine Finset.eq_empty_of_forall_notMem fun n hn => ?_
      have := h n hn
      have := hfuel n hn
      omega
    exact ⟨⟨le_rfl, hsame, hgap⟩, zero_le _⟩
  | succ fuel ih =>
    simp only [sealGaps]
    split_ifs with hcard
    · obtain ⟨hdrain, -⟩ := drain_advanced (low + 1) h (le_refl parked.card)
      set out := drain parked.card parked (low + 1)
      have hlt := hdrain.le
      have hsub : ∀ n, n ∈ out.1 ↔ n ∈ parked ∧ out.2 < n := by
        intro n
        rw [hdrain.ahead, Finset.mem_filter]
      obtain ⟨hadv, hend⟩ := @ih out.1 out.2 (fun n hn => ((hsub n).1 hn).2) (fun n hn => by
          have := hfuel n ((hsub n).1 hn).1
          omega)
        (fun hin => lt_irrefl _ ((hsub _).1 hin).2)
        (Finset.filter_true_of_mem fun n hn => ((hsub n).1 hn).2).symm
      have hle := hadv.le
      refine ⟨⟨by omega, ?_, fun hin => ?_⟩, hend⟩
      · rw [hadv.ahead]
        ext n
        simp only [Finset.mem_filter, hsub]
        constructor
        · rintro ⟨⟨hn, -⟩, hlt⟩
          exact ⟨hn, hlt⟩
        · rintro ⟨hn, hlt⟩
          exact ⟨⟨hn, by omega⟩, hlt⟩
      · rcases eq_or_lt_of_le hle with heq | hlt'
        · rw [← heq] at hin
          exact hdrain.gap hin
        · exact hadv.gap ((hsub _).2 ⟨hin, hlt'⟩)
    · exact ⟨⟨le_rfl, hsame, hgap⟩, Nat.le_of_not_lt hcard⟩

namespace StreamState

/-- **Where the watermark goes when a number is delivered.**  It skips an undelivered number
only past the horizon. -/
theorem advance_advanced {ahead : Finset ℕ} {low seq : ℕ} (h : ∀ n ∈ ahead, low < n) (hseq : low ≤ seq)
    (hhorizon : ahead.card ≤ maxReorderHorizon) :
    Advanced (insert seq ahead) low (advance ahead low seq) ∧ (advance ahead low seq).1.card ≤ maxReorderHorizon ∧
      ((insert seq ahead).card ≤ maxReorderHorizon →
        ∀ n, low ≤ n → n < (advance ahead low seq).2 → n ∈ insert seq ahead) := by
  unfold advance
  split_ifs with heq
  · obtain ⟨hadv, hfull⟩ := drain_advanced (low + 1) h (le_refl ahead.card)
    have hlt := hadv.le
    refine ⟨⟨by omega, ?_, fun hin => ?_⟩, ?_, fun _ n h₁ h₂ => ?_⟩
    · rw [hadv.ahead, Finset.filter_insert, if_neg (by omega)]
    · rcases Finset.mem_insert.1 hin with heq' | hin
      · omega
      · exact hadv.gap hin
    · rw [hadv.ahead]
      exact (Finset.card_filter_le _ _).trans hhorizon
    · rcases eq_or_lt_of_le h₁ with rfl | h₁
      · exact heq ▸ Finset.mem_insert_self _ _
      · exact Finset.mem_insert_of_mem (hfull n h₁ h₂)
  · have habove : ∀ n ∈ insert seq ahead, low < n := by
      intro n hn
      rcases Finset.mem_insert.1 hn with rfl | hn
      · omega
      · exact h n hn
    have hsup : ∀ n ∈ insert seq ahead, n ≤ (insert seq ahead).sup id := fun n hn =>
      Finset.le_sup (f := id) hn
    obtain ⟨hadv, hcard⟩ := sealGaps_advanced ((insert seq ahead).sup id + 1) habove fun n hn => by
      have := hsup n hn
      omega
    refine ⟨hadv, hcard, fun hfits n h₁ h₂ => ?_⟩
    rw [sealGaps, if_neg (not_lt.2 hfits)] at h₂
    exact absurd h₂ (not_lt.2 h₁)

section Collect

variable {κ : Type} [DecidableEq κ]

@[simp] theorem lowWatermark_collect (rounds : ℕ) (st : StreamState κ) :
    (st.collect rounds).lowWatermark = st.lowWatermark := by
  induction rounds generalizing st with
  | zero => rfl
  | succ rounds ih => rw [collect, ih]

@[simp] theorem ahead_collect (rounds : ℕ) (st : StreamState κ) : (st.collect rounds).ahead = st.ahead := by
  induction rounds generalizing st with
  | zero => rfl
  | succ rounds ih => rw [collect, ih]

@[simp] theorem gcFloor_collect (rounds : ℕ) (st : StreamState κ) :
    (st.collect rounds).gcFloor = st.gcFloor + rounds := by
  induction rounds generalizing st with
  | zero => rfl
  | succ rounds ih =>
    rw [collect, ih]
    exact succ_add_eq_add_succ _ _

/-- Collection forgets the numbers from the floor on, one a round. -/
theorem get_collect (rounds : ℕ) (st : StreamState κ) (n : ℕ) : (st.collect rounds).deliveredKeys.lookup n =
      if st.gcFloor ≤ n ∧ n < st.gcFloor + rounds then none else st.deliveredKeys.lookup n := by
  induction rounds generalizing st with
  | zero =>
    rw [if_neg (by omega)]
    rfl
  | succ rounds ih =>
    rw [collect, ih]
    simp only [lookup_erase_ite]
    split_ifs <;> first | rfl | omega

/-- `seen` is the set of the keys of `delivered_keys`, each of which has one number. -/
structure Indexed (st : StreamState κ) : Prop where
  seen : ∀ key, key ∈ st.seen ↔ ∃ n, st.deliveredKeys.lookup n = some key
  unique : ∀ n m key, st.deliveredKeys.lookup n = some key → st.deliveredKeys.lookup m = some key → n = m

omit [DecidableEq κ] in
theorem Indexed.insert {st st' : StreamState κ} {seq : ℕ} {key : κ} (h : st.Indexed)
    (hkey : key ∉ st.seen) (hseq : st.deliveredKeys.lookup seq = none) (hseen : st'.seen = key :: st.seen)
    (hkeys : st'.deliveredKeys = st.deliveredKeys.insert seq key) : st'.Indexed := by
  have hget : ∀ n, st'.deliveredKeys.lookup n = if n = seq then some key else st.deliveredKeys.lookup n := by
    intro n
    rw [hkeys, lookup_insert_ite]
  refine ⟨fun k => ?_, fun n m k hn hm => ?_⟩
  · simp only [hget, hseen, mem_cons, h.seen]
    constructor
    · rintro (rfl | ⟨n, hn⟩)
      · exact ⟨seq, if_pos rfl⟩
      · refine ⟨n, ?_⟩
        rw [if_neg, hn]
        rintro rfl
        rw [hseq] at hn
        cases hn
    · rintro ⟨n, hn⟩
      split_ifs at hn with heq
      · exact .inl (Option.some.inj hn).symm
      · exact .inr ⟨n, hn⟩
  · rw [hget] at hn hm
    have hold : ∀ m, st.deliveredKeys.lookup m ≠ some key := fun m hm => hkey ((h.seen key).2 ⟨m, hm⟩)
    split_ifs at hn hm with h₁ h₂ h₂
    · exact h₁.trans h₂.symm
    · exact absurd (hn ▸ hm) (hold m)
    · exact absurd (hm ▸ hn) (hold n)
    · exact h.unique n m k hn hm

theorem Indexed.collect {st : StreamState κ} (h : st.Indexed) (rounds : ℕ) : (st.collect rounds).Indexed := by
  induction rounds generalizing st with
  | zero => exact h
  | succ rounds ih =>
    have hget : ∀ n key, (st.deliveredKeys.erase st.gcFloor).lookup n = some key ↔
        n ≠ st.gcFloor ∧ st.deliveredKeys.lookup n = some key := by
      intro n key
      rw [lookup_erase_ite]
      split_ifs with hn <;> simp [hn]
    refine ih ⟨fun key => ?_, fun n m key hn hm => ?_⟩
    · simp only [hget]
      cases hfloor : st.deliveredKeys.lookup st.gcFloor with
      | none =>
        simp only [h.seen]
        refine exists_congr fun n => ⟨fun hn => ⟨?_, hn⟩, And.right⟩
        rintro rfl
        rw [hfloor] at hn
        cases hn
      | some forgotten =>
        simp only [mem_filter, h.seen, decide_eq_true_eq]
        constructor
        · rintro ⟨⟨n, hn⟩, hne⟩
          refine ⟨n, ?_, hn⟩
          rintro rfl
          exact hne (Option.some.inj (hn.symm.trans hfloor))
        · rintro ⟨n, hne, hn⟩
          refine ⟨⟨n, hn⟩, ?_⟩
          rintro rfl
          exact hne (h.unique _ _ _ hn hfloor)
    · exact h.unique n m key ((hget n key).1 hn).2 ((hget m key).1 hm).2

end Collect

variable {κ : Type} [DecidableEq κ]

/-- The admission is turned away. -/
def Repeats (st : StreamState κ) (seq : ℕ) (key : κ) : Prop :=
  seq < st.lowWatermark ∨ key ∈ st.seen ∨ (st.deliveredKeys.lookup seq).isSome

instance (st : StreamState κ) (seq : ℕ) (key : κ) : Decidable (st.Repeats seq key) :=
  inferInstanceAs (Decidable (_ ∨ _ ∨ _))

/-- The stream once a number has been delivered. -/
def deliver (gcLag : ℕ) (st : StreamState κ) (seq : ℕ) (key : κ) : StreamState κ :=
  let out := advance st.ahead st.lowWatermark seq
  collect (out.2 - gcLag - st.gcFloor) { st with
      seen := key :: st.seen
      deliveredKeys := st.deliveredKeys.insert seq key
      ahead := out.1
      lowWatermark := out.2 }

/-- **What an admission does.** -/
theorem admitSeq_eq (gcLag : ℕ) (st : StreamState κ) (seq : ℕ) (key : κ) : st.admitSeq gcLag seq key =
      if st.Repeats seq key then (st, .duplicate) else (st.deliver gcLag seq key, .delivered) := by
  unfold admitSeq
  by_cases h₁ : seq < st.lowWatermark
  · have hrep : st.Repeats seq key := .inl h₁
    rw [if_pos h₁, if_pos hrep]
  · by_cases h₂ : key ∈ st.seen
    · have hrep : st.Repeats seq key := .inr (.inl h₂)
      rw [if_neg h₁, if_pos h₂, if_pos hrep]
    · by_cases h₃ : (st.deliveredKeys.lookup seq).isSome
      · have hrep : st.Repeats seq key := .inr (.inr h₃)
        rw [if_neg h₁, if_neg h₂, if_pos h₃, if_pos hrep]
      · have hnew : ¬ st.Repeats seq key := by
          rintro (h | h | h)
          · exact h₁ h
          · exact h₂ h
          · exact h₃ h
        rw [if_neg h₁, if_neg h₂, if_neg h₃, if_neg hnew]
        rfl

/-- The fields of a stream fit together. -/
structure Sound (gcLag : ℕ) (st : StreamState κ) : Prop extends st.Indexed where
  floor : st.gcFloor = st.lowWatermark - gcLag
  retained : ∀ n key, st.deliveredKeys.lookup n = some key → st.gcFloor ≤ n
  ahead : ∀ n, n ∈ st.ahead ↔ st.lowWatermark ≤ n ∧ (st.deliveredKeys.lookup n).isSome
  gap : st.deliveredKeys.lookup st.lowWatermark = none
  horizon : st.ahead.card ≤ maxReorderHorizon

namespace Sound

variable {gcLag : ℕ} {st : StreamState κ}

omit [DecidableEq κ] in
/-- A new stream. -/
theorem new : (new : StreamState κ).Sound gcLag where
  seen key := by simp [StreamState.new]
  unique n m key h := by cases h
  floor := (Nat.zero_sub gcLag).symm
  retained n key h := by cases h
  ahead n := by simp [StreamState.new]
  gap := rfl
  horizon := zero_le _

omit [DecidableEq κ] in
/-- What is parked is above the watermark. -/
theorem lt_of_mem_ahead (h : st.Sound gcLag) {n : ℕ} (hn : n ∈ st.ahead) : st.lowWatermark < n := by
  obtain ⟨hle, hsome⟩ := (h.ahead n).1 hn
  refine lt_of_le_of_ne hle ?_
  rintro rfl
  rw [h.gap] at hsome
  cases hsome

/-- What delivering a number does to the stream. -/
structure Delivers (gcLag : ℕ) (st : StreamState κ) (seq : ℕ) (key : κ) (st' : StreamState κ) : Prop where
  sound : st'.Sound gcLag
  advanced : Advanced (insert seq st.ahead) st.lowWatermark (st'.ahead, st'.lowWatermark)
  contiguous : (insert seq st.ahead).card ≤ maxReorderHorizon →
    ∀ n, st.lowWatermark ≤ n → n < st'.lowWatermark → n ∈ insert seq st.ahead
  get : ∀ n, st'.deliveredKeys.lookup n =
    if n < st'.gcFloor then none else if n = seq then some key else st.deliveredKeys.lookup n

theorem deliver (h : st.Sound gcLag) {seq : ℕ} {key : κ} (hnew : ¬ st.Repeats seq key) :
    Delivers gcLag st seq key (st.deliver gcLag seq key) := by
  obtain ⟨hlow, hkey, hseq⟩ : st.lowWatermark ≤ seq ∧ key ∉ st.seen ∧ st.deliveredKeys.lookup seq = none := by
    simpa [Repeats, not_or] using hnew
  obtain ⟨hadv, hcard, hfull⟩ := advance_advanced (fun n hn => h.lt_of_mem_ahead hn) hlow h.horizon
  have hle := hadv.le
  have hfloor := h.floor
  set out := advance st.ahead st.lowWatermark seq with hout
  set mid : StreamState κ := { st with
    seen := key :: st.seen
    deliveredKeys := st.deliveredKeys.insert seq key
    ahead := out.1
    lowWatermark := out.2 } with hmid
  have hst : st.deliver gcLag seq key = mid.collect (out.2 - gcLag - st.gcFloor) := rfl
  have hfloor' : (st.deliver gcLag seq key).gcFloor = out.2 - gcLag := by
    rw [hst, gcFloor_collect]
    simp only [hmid]
    omega
  have hlow' : (st.deliver gcLag seq key).lowWatermark = out.2 := by rw [hst, lowWatermark_collect]
  have hahead' : (st.deliver gcLag seq key).ahead = out.1 := by rw [hst, ahead_collect]
  have hmidget : ∀ n, mid.deliveredKeys.lookup n = if n = seq then some key else st.deliveredKeys.lookup n :=
    fun n => lookup_insert_ite _ _ _ _
  have hget : ∀ n, (st.deliver gcLag seq key).deliveredKeys.lookup n =
      if n < out.2 - gcLag then none else if n = seq then some key else st.deliveredKeys.lookup n := by
    intro n
    rw [hst, get_collect, hmidget]
    simp only [hmid]
    by_cases hn : n < out.2 - gcLag
    · rw [if_pos hn]
      split_ifs with h₁ h₂
      · rfl
      · omega
      · -- below the old floor there was nothing
        rcases hold : st.deliveredKeys.lookup n with _ | key'
        · rfl
        · have := h.retained n key' hold
          omega
    · rw [if_neg hn, if_neg (by omega)]
  have hindexed : (st.deliver gcLag seq key).Indexed := by
    exact (h.toIndexed.insert hkey hseq rfl rfl).collect _
  have hparked : ∀ n, n ∈ insert seq st.ahead ↔
      st.lowWatermark ≤ n ∧ (if n = seq then some key else st.deliveredKeys.lookup n).isSome := by
    intro n
    rw [Finset.mem_insert, h.ahead]
    by_cases hn : n = seq
    · simp [hn, hlow]
    · simp [hn]
  refine ⟨⟨hindexed, ?_, fun n k hn => ?_, fun n => ?_, ?_, ?_⟩, ?_, ?_, ?_⟩
  · rw [hfloor', hlow']
  · rw [hget] at hn
    split_ifs at hn <;> omega
  · rw [hahead', hlow', hget, hadv.ahead, Finset.mem_filter, hparked]
    have hgap := hadv.gap
    constructor
    · rintro ⟨⟨-, hsome⟩, hlt⟩
      exact ⟨hlt.le, by rwa [if_neg (by omega)]⟩
    · rintro ⟨hle', hsome⟩
      rw [if_neg (by omega)] at hsome
      refine ⟨⟨by omega, hsome⟩, lt_of_le_of_ne hle' ?_⟩
      rintro rfl
      exact hgap ((hparked _).2 ⟨hle, hsome⟩)
  · rw [hlow', hget, if_neg (by omega)]
    by_contra hne
    exact hadv.gap ((hparked _).2 ⟨hle, Option.isSome_iff_ne_none.2 hne⟩)
  · rw [hahead']
    exact hcard
  · rw [hahead', hlow']
    exact hadv
  · rw [hlow']
    exact hfull
  · rw [hfloor']
    exact hget

/-- **Every admission keeps the fields together.** -/
theorem admitSeq (h : st.Sound gcLag) (seq : ℕ) (key : κ) : (st.admitSeq gcLag seq key).1.Sound gcLag := by
  rw [admitSeq_eq]
  split_ifs with hrep
  · exact h
  · exact (h.deliver hrep).sound

/-- The watermark never falls. -/
theorem lowWatermark_le_admitSeq (h : st.Sound gcLag) (seq : ℕ) (key : κ) :
    st.lowWatermark ≤ (st.admitSeq gcLag seq key).1.lowWatermark := by
  rw [admitSeq_eq]
  split_ifs with hrep
  · exact le_rfl
  · exact (h.deliver hrep).advanced.le

/-- Nor does the floor. -/
theorem gcFloor_le_admitSeq (h : st.Sound gcLag) (seq : ℕ) (key : κ) :
    st.gcFloor ≤ (st.admitSeq gcLag seq key).1.gcFloor := by
  have := h.lowWatermark_le_admitSeq seq key
  rw [h.floor, (h.admitSeq seq key).floor]
  omega

end Sound

section Memory

variable {gcLag : ℕ} {st : StreamState κ}

/-- A delivery is remembered, or so old that its key has been forgotten. -/
def Remembers (st : StreamState κ) (seq : ℕ) (key : κ) : Prop :=
  seq < st.gcFloor ∨ st.deliveredKeys.lookup seq = some key

/-- An admission keeps what is remembered. -/
theorem Remembers.admitSeq (h : st.Sound gcLag) {n : ℕ} {k : κ} (hn : st.Remembers n k) (seq : ℕ) (key : κ) :
    (st.admitSeq gcLag seq key).1.Remembers n k := by
  have hfloor := h.gcFloor_le_admitSeq seq key
  rw [admitSeq_eq] at hfloor ⊢
  split_ifs at hfloor ⊢ with hrep
  · exact hn
  · rcases hn with hn | hn
    · exact .inl (hn.trans_le hfloor)
    · by_cases hlt : n < (st.deliver gcLag seq key).gcFloor
      · exact .inl hlt
      · refine .inr ?_
        rw [(h.deliver hrep).get, if_neg hlt, if_neg, hn]
        rintro rfl
        exact hrep (.inr (.inr (by rw [hn]; rfl)))

variable {seq : ℕ}

/-- A delivered number is remembered. -/
theorem remembers_of_delivered (h : st.Sound gcLag) {key : κ}
    (hd : (st.admitSeq gcLag seq key).2 = .delivered) : (st.admitSeq gcLag seq key).1.Remembers seq key := by
  rw [admitSeq_eq] at hd ⊢
  split_ifs at hd ⊢ with hrep
  by_cases hlt : seq < (st.deliver gcLag seq key).gcFloor
  · exact .inl hlt
  · exact .inr (by rw [(h.deliver hrep).get, if_neg hlt, if_pos rfl])

/-- **A remembered delivery is not repeated**, neither its number nor, within the lag, its key. -/
theorem Remembers.of_delivered (h : st.Sound gcLag) {n seq : ℕ} {k key : κ} (hn : st.Remembers n k)
    (hd : (st.admitSeq gcLag seq key).2 = .delivered) :
    n ≠ seq ∧ (k = key → n < st.lowWatermark - gcLag) := by
  rw [admitSeq_eq] at hd
  split_ifs at hd with hrep
  obtain ⟨hlow, hkey, hseq⟩ : st.lowWatermark ≤ seq ∧ key ∉ st.seen ∧ st.deliveredKeys.lookup seq = none := by
    simpa [Repeats, not_or] using hrep
  have hfloor := h.floor
  rcases hn with hn | hn
  · exact ⟨by omega, fun _ => by omega⟩
  · refine ⟨?_, ?_⟩
    · rintro rfl
      rw [hseq] at hn
      cases hn
    · rintro rfl
      exact absurd ((h.seen k).2 ⟨n, hn⟩) hkey

/-- A number is below the watermark or delivered. -/
def Settled (st : StreamState κ) (seq : ℕ) : Prop :=
  seq < st.lowWatermark ∨ (st.deliveredKeys.lookup seq).isSome

instance (st : StreamState κ) (seq : ℕ) : Decidable (st.Settled seq) :=
  inferInstanceAs (Decidable (_ ∨ _))

/-- A settled number stays settled. -/
theorem Settled.admitSeq (h : st.Sound gcLag) {n : ℕ} (hn : st.Settled n) (seq : ℕ) (key : κ) :
    (st.admitSeq gcLag seq key).1.Settled n := by
  have hlow := h.lowWatermark_le_admitSeq seq key
  have hfloor := (h.admitSeq seq key).floor
  rcases hn with hn | hn
  · exact .inl (hn.trans_le hlow)
  · obtain ⟨k, hk⟩ := Option.isSome_iff_exists.1 hn
    rcases Remembers.admitSeq h (.inr hk) seq key with hlt | hget
    · exact .inl (by omega)
    · exact .inr (by rw [hget]; rfl)

/-- A number is settled by its own admission, unless it is turned away for its key. -/
theorem settled_admitSeq (h : st.Sound gcLag) {key : κ} (hkey : key ∈ st.seen → st.Settled seq) :
    (st.admitSeq gcLag seq key).1.Settled seq := by
  have hfloor := (h.admitSeq seq key).floor
  by_cases hrep : st.Repeats seq key
  · refine Settled.admitSeq h ?_ seq key
    rcases hrep with hlow | hseen | hget
    · exact .inl hlow
    · exact hkey hseen
    · exact .inr hget
  · have hd : (st.admitSeq gcLag seq key).2 = .delivered := by rw [admitSeq_eq, if_neg hrep]
    rcases remembers_of_delivered h hd with hlt | hget
    · exact .inl (by omega)
    · exact .inr (by rw [hget]; rfl)

/-- Exactly the numbers of `done` are settled, and the keys are theirs. -/
structure Tracks (gcLag : ℕ) (Key : ℕ → κ → Prop) (done : Finset ℕ) (st : StreamState κ) : Prop where
  sound : st.Sound gcLag
  settled : ∀ n, st.Settled n ↔ n ∈ done
  keys : ∀ n key, st.deliveredKeys.lookup n = some key → Key n key

namespace Tracks

variable {Key : ℕ → κ → Prop} {done : Finset ℕ}

omit [DecidableEq κ] in
theorem new : (new : StreamState κ).Tracks gcLag Key ∅ where
  sound := Sound.new
  settled n := by simp [Settled, StreamState.new]
  keys n key h := by cases h

theorem admitSeq_of_mem (h : st.Tracks gcLag Key done) {seq : ℕ} (hseq : seq ∈ done) (key : κ) :
    st.admitSeq gcLag seq key = (st, .duplicate) := by
  have hrep : st.Repeats seq key := ((h.settled seq).2 hseq).imp_right .inr
  rw [admitSeq_eq, if_pos hrep]

/-- Within the horizon no gap is sealed: a new number is delivered, and no other is settled
by it. -/
theorem admitSeq_of_notMem (h : st.Tracks gcLag Key done) {seq : ℕ} {key : κ} (hseq : seq ∉ done)
    (hkey : Key seq key) (hown : ∀ n, Key n key → n = seq)
    (hcard : (insert seq done).card ≤ maxReorderHorizon) :
    (st.admitSeq gcLag seq key).2 = .delivered ∧ (st.admitSeq gcLag seq key).1.Tracks gcLag Key (insert seq done) := by
  have hnew : ¬ st.Repeats seq key := by
    rintro (hlow | hseen | hsome)
    · exact hseq ((h.settled seq).1 (.inl hlow))
    · obtain ⟨n, hn⟩ := (h.sound.seen key).1 hseen
      obtain rfl := hown n (h.keys n key hn)
      exact hseq ((h.settled n).1 (.inr (by rw [hn]; rfl)))
    · exact hseq ((h.settled seq).1 (.inr hsome))
  have hd := h.sound.deliver hnew
  have hparked : insert seq st.ahead ⊆ insert seq done := by
    refine Finset.insert_subset_insert seq fun n hn => ?_
    exact (h.settled n).1 (.inr ((h.sound.ahead n).1 hn).2)
  have hsettled : (st.admitSeq gcLag seq key).1.Settled seq :=
    settled_admitSeq h.sound fun hseen => absurd (.inr (.inl hseen)) hnew
  have hkept : ∀ n ∈ done, (st.admitSeq gcLag seq key).1.Settled n := fun n hn =>
    Settled.admitSeq h.sound ((h.settled n).2 hn) seq key
  rw [admitSeq_eq, if_neg hnew] at hsettled hkept ⊢
  refine ⟨rfl, hd.sound, fun n => ⟨fun hn => ?_, fun hn => ?_⟩, fun n k hk => ?_⟩
  · rcases hn with hlow | hsome
    · by_cases hold : n < st.lowWatermark
      · exact Finset.mem_insert_of_mem ((h.settled n).1 (.inl hold))
      · exact hparked (hd.contiguous ((Finset.card_le_card hparked).trans hcard) n (Nat.le_of_not_lt hold) hlow)
    · rw [hd.get] at hsome
      split_ifs at hsome with h₁ h₂
      · cases hsome
      · exact h₂ ▸ Finset.mem_insert_self seq done
      · exact Finset.mem_insert_of_mem ((h.settled n).1 (.inr hsome))
  · rcases Finset.mem_insert.1 hn with rfl | hn
    · exact hsettled
    · exact hkept n hn
  · rw [hd.get] at hk
    split_ifs at hk with h₁ h₂
    · obtain rfl := Option.some.inj hk
      exact h₂ ▸ hkey
    · exact h.keys n k hk

end Tracks

/-- The watermark and all that is parked stay below a bound on the numbers presented. -/
structure Bounded (bound : ℕ) (st : StreamState κ) : Prop where
  low : st.lowWatermark ≤ bound
  ahead : ∀ n ∈ st.ahead, n < bound

theorem Bounded.admitSeq {bound : ℕ} (h : st.Sound gcLag) (hb : st.Bounded bound)
    (hseq : seq < bound) (key : κ) : (st.admitSeq gcLag seq key).1.Bounded bound := by
  rw [admitSeq_eq]
  split_ifs with hrep
  · exact hb
  · have hlow : st.lowWatermark ≤ seq := Nat.le_of_not_lt fun hlt => hrep (.inl hlt)
    obtain ⟨h₁, h₂⟩ := advance_below (fun n hn => ⟨h.lt_of_mem_ahead hn, hb.ahead n hn⟩) hlow hseq
    refine ⟨?_, fun n hn => ?_⟩
    · simpa [deliver] using h₁
    · exact (h₂ n (by simpa [deliver] using hn)).2

end Memory

end StreamState

/-- A call of `admit`. -/
structure Admission (ι κ : Type) where
  stream : ι
  seq : ℕ
  key : κ

namespace Gate

variable {ι κ : Type} [DecidableEq ι] [DecidableEq κ]

/-- The gate, asked to admit one record after the other. -/
def machine : Machine (Gate ι κ) (Admission ι κ) Disposition where
  step g a := g.admitSeq a.stream a.seq a.key

/-- An admission changes its own stream only. -/
theorem stream_step (g : Gate ι κ) (a : Admission ι κ) (s : ι) : (machine.step g a).1.stream s =
      if s = a.stream then ((g.stream s).admitSeq g.gcLag a.seq a.key).1 else g.stream s := by
  simp only [machine, admitSeq, stream, lookup_insert_ite]
  split_ifs with h
  · rw [h]
    rfl
  · rfl

theorem answer_step (g : Gate ι κ) (a : Admission ι κ) :
    (machine.step g a).2 = ((g.stream a.stream).admitSeq g.gcLag a.seq a.key).2 := rfl

/-- What the gate knows of the calls made so far. -/
structure Kept (gcLag : ℕ) (h : List (Admission ι κ × Disposition)) (g : Gate ι κ) : Prop where
  lag : g.gcLag = gcLag
  sound : ∀ s, (g.stream s).Sound gcLag
  remembers : ∀ a, (a, Disposition.delivered) ∈ h → (g.stream a.stream).Remembers a.seq a.key

theorem Kept.step {gcLag : ℕ} {h : List (Admission ι κ × Disposition)} {g : Gate ι κ} (hk : Kept gcLag h g)
    (a : Admission ι κ) : Kept gcLag (h ++ [(a, (machine.step g a).2)]) (machine.step g a).1 := by
  have hsound : ∀ s, ((machine.step g a).1.stream s).Sound gcLag := by
    intro s
    rw [stream_step]
    split_ifs
    · rw [hk.lag]
      exact (hk.sound s).admitSeq _ _
    · exact hk.sound s
  refine ⟨hk.lag, hsound, fun b hb => ?_⟩
  rw [stream_step]
  rcases mem_append.1 hb with hb | hb
  · split_ifs
    · rw [hk.lag]
      exact StreamState.Remembers.admitSeq (hk.sound _) (hk.remembers b hb) _ _
    · exact hk.remembers b hb
  · obtain ⟨rfl, hd⟩ := Prod.mk.inj (mem_singleton.1 hb)
    rw [answer_step, hk.lag] at hd
    rw [if_pos rfl, hk.lag]
    exact remembers_of_delivered (hk.sound _) hd.symm

/-- The invariant along a run of the gate. -/
theorem kept_final (gcLag : ℕ) (calls : List (Admission ι κ)) :
    Kept gcLag (machine.trace (withGcLag gcLag) calls) (machine.final (withGcLag gcLag) calls) := by
  refine machine.invariant_of_step (fun _ _ => True) (Kept gcLag) (fun h g a _ hk => hk.step a)
    (withGcLag gcLag) calls [] (guarded_true _ _ _) ⟨rfl, fun _ => StreamState.Sound.new, ?_⟩
  exact nofun

/-- The calls of one stream are answered as if they were the only ones. -/
theorem trace_filter_stream {g g' : Gate ι κ} {s : ι} (hlag : g.gcLag = g'.gcLag)
    (hs : g.stream s = g'.stream s) (calls : List (Admission ι κ)) :
    (machine.trace g calls).filter (·.1.stream = s) = machine.trace g' (calls.filter (·.stream = s)) ∧
      (machine.final g calls).stream s = (machine.final g' (calls.filter (·.stream = s))).stream s := by
  induction calls generalizing g g' with
  | nil => exact ⟨rfl, hs⟩
  | cons a calls ih =>
    have hstream := stream_step g a s
    by_cases ha : a.stream = s
    · have hstream' := stream_step g' a s
      have hanswer : (machine.step g a).2 = (machine.step g' a).2 := by
        subst ha
        simp only [machine, admitSeq, hs, hlag]
      obtain ⟨htrace, hfinal⟩ := @ih (machine.step g a).1 (machine.step g' a).1 hlag
        (by rw [hstream, hstream', hs, hlag])
      rw [trace_cons, filter_cons_of_pos (by simpa using ha),
        filter_cons_of_pos (by simpa using ha), trace_cons, htrace, hanswer]
      exact ⟨rfl, hfinal⟩
    · rw [if_neg (Ne.symm ha)] at hstream
      rw [trace_cons, filter_cons_of_neg (by simpa using ha), filter_cons_of_neg (by simpa using ha), final_cons]
      exact ih hlag (hstream.trans hs)

/-- A bound on the numbers presented bounds the watermarks. -/
theorem bounded_final (gcLag : ℕ) {bound : ℕ} {calls : List (Admission ι κ)}
    (hseq : ∀ a ∈ calls, a.seq < bound) (s : ι) :
    ((machine.final (withGcLag gcLag) calls).stream s).Bounded bound := by
  induction calls using reverseRecOn with
  | nil => exact ⟨zero_le _, fun n hn => absurd hn (Finset.notMem_empty n)⟩
  | append_singleton calls a ih =>
    have hk := kept_final gcLag calls
    have hb := ih fun b hb => hseq b (mem_append_left _ hb)
    rw [final_append, final_cons, final_nil, stream_step]
    split_ifs
    · rw [hk.lag]
      exact hb.admitSeq (hk.sound s) (hseq a (by simp)) _
    · exact hb

theorem final_mono (gcLag : ℕ) (calls more : List (Admission ι κ)) (s : ι) :
    ((machine.final (withGcLag gcLag) calls).stream s).lowWatermark ≤
        ((machine.final (withGcLag gcLag) (calls ++ more)).stream s).lowWatermark ∧
      ((machine.final (withGcLag gcLag) calls).stream s).gcFloor ≤
        ((machine.final (withGcLag gcLag) (calls ++ more)).stream s).gcFloor := by
  induction more using reverseRecOn with
  | nil => simp
  | append_singleton more a ih =>
    have hk := kept_final gcLag (calls ++ more)
    rw [← append_assoc, final_append _ _ (calls ++ more), final_cons, final_nil, stream_step]
    split_ifs
    · rw [hk.lag]
      exact ⟨ih.1.trans ((hk.sound s).lowWatermark_le_admitSeq _ _), ih.2.trans ((hk.sound s).gcFloor_le_admitSeq _ _)⟩
    · exact ih

/-- **The gate delivers exactly once.**  Over any calls on a fresh gate: no number of a stream
is delivered twice, a key only after the watermark has left its first number `gcLag` behind;
watermarks and floors only rise, and stay in range; and each stream is answered as if it were
alone. -/
theorem gate_delivers_once (gcLag : ℕ) (calls : List (Admission ι κ)) (hseq : ∀ a ∈ calls, a.seq < 2 ^ 64 - 1) :
    (∀ i j a b, i < j → (machine.trace (withGcLag gcLag) calls)[i]? = some (a, .delivered) →
      (machine.trace (withGcLag gcLag) calls)[j]? = some (b, .delivered) → a.stream = b.stream →
      a.seq ≠ b.seq ∧ (a.key = b.key → a.seq <
        ((machine.final (withGcLag gcLag) (calls.take j)).stream b.stream).lowWatermark - gcLag)) ∧
    (∀ s k l, k ≤ l → ((machine.final (withGcLag gcLag) (calls.take k)).stream s).lowWatermark ≤
        ((machine.final (withGcLag gcLag) (calls.take l)).stream s).lowWatermark ∧
      ((machine.final (withGcLag gcLag) (calls.take k)).stream s).gcFloor ≤
        ((machine.final (withGcLag gcLag) (calls.take l)).stream s).gcFloor) ∧
    (∀ s, ((machine.final (withGcLag gcLag) calls).stream s).lowWatermark ≤ 2 ^ 64 - 1) ∧
    (∀ s, (machine.trace (withGcLag gcLag) calls).filter (·.1.stream = s) =
        machine.trace (withGcLag gcLag) (calls.filter (·.stream = s)) ∧
      (machine.final (withGcLag gcLag) calls).stream s =
        (machine.final (withGcLag gcLag) (calls.filter (·.stream = s))).stream s) := by
  refine ⟨fun i j a b hij hi hj hstream => ?_, fun s k l hkl => ?_, fun s => ?_, fun s => ?_⟩
  · have hk := kept_final gcLag (calls.take j)
    have hmem : (a, Disposition.delivered) ∈ machine.trace (withGcLag gcLag) (calls.take j) := by
      rw [trace_take]
      exact mem_of_getElem? (by rw [getElem?_take_of_lt hij, hi])
    have hrem := hk.remembers a hmem
    rw [hstream] at hrem
    rw [getElem?_trace] at hj
    obtain ⟨b', -, heq⟩ := Option.map_eq_some_iff.1 hj
    obtain ⟨rfl, hd⟩ := Prod.mk.inj heq
    rw [answer_step, hk.lag] at hd
    exact hrem.of_delivered (hk.sound _) hd
  · obtain ⟨more, hmore⟩ := take_prefix_take_left hkl (l := calls)
    rw [← hmore]
    exact final_mono gcLag _ _ s
  · exact (bounded_final gcLag hseq s).low
  · exact trace_filter_stream rfl rfl calls

/-- Numbers out of order, a repeated number and a repeated key. -/
theorem gate_delivers_once_reordered :
    let calls : List (Admission ℕ ℕ) := [⟨0, 1, 7⟩, ⟨0, 0, 8⟩, ⟨0, 1, 9⟩, ⟨1, 1, 7⟩, ⟨0, 2, 7⟩]
    (machine.trace (withGcLag 0) calls).map Prod.snd = [.delivered, .delivered, .duplicate, .delivered, .delivered] ∧
      1 < ((machine.final (withGcLag 0) (calls.take 4)).stream 0).lowWatermark - 0 := by
  intro calls
  refine ⟨by decide +kernel, ?_⟩
  exact ((gate_delivers_once 0 calls (by decide)).1 0 4 ⟨0, 1, 7⟩ ⟨0, 2, 7⟩ (by decide) rfl rfl rfl).2 rfl

/-- A call whose key is known presents a number that is settled. -/
def Settling (g : Gate ι κ) (a : Admission ι κ) : Prop :=
  a.key ∈ (g.stream a.stream).seen → (g.stream a.stream).Settled a.seq

instance (g : Gate ι κ) (a : Admission ι κ) : Decidable (Settling g a) :=
  inferInstanceAs (Decidable (_ → _))

/-- **The watermark passes what was presented**, in every run in which the numbers are below
`u64::MAX` and no known key comes with a number that is not settled. -/
theorem watermark_passes_presented (gcLag : ℕ) (calls : List (Admission ι κ))
    (_hseq : ∀ a ∈ calls, a.seq < 2 ^ 64 - 1)
    (hok : machine.Guarded Settling (withGcLag gcLag) calls) (s : ι) (n : ℕ)
    (hall : ∀ m < n, ∃ a ∈ calls, a.stream = s ∧ a.seq = m) :
    n ≤ ((machine.final (withGcLag gcLag) calls).stream s).lowWatermark := by
  have hinv := machine.invariant_of_step Settling
    (fun h g => Kept gcLag h g ∧ ∀ a ∈ h.map Prod.fst, (g.stream a.stream).Settled a.seq) ?_
    (withGcLag gcLag) calls [] hok
    ⟨⟨rfl, fun _ => StreamState.Sound.new, nofun⟩, nofun⟩
  · rw [nil_append, map_fst_trace] at hinv
    obtain ⟨hk, hsettled⟩ := hinv
    by_contra hlt
    obtain ⟨a, ha, hstream, hseq⟩ := hall _ (Nat.lt_of_not_le hlt)
    have := hsettled a ha
    rw [hstream, hseq] at this
    rcases this with hlow | hget
    · exact lt_irrefl _ hlow
    · rw [(hk.sound s).gap] at hget
      cases hget
  · rintro h g a hsettling ⟨hk, hsettled⟩
    refine ⟨hk.step a, fun b hb => ?_⟩
    rw [map_append, map_singleton] at hb
    rw [stream_step]
    rcases mem_append.1 hb with hb | hb
    · split_ifs
      · rw [hk.lag]
        exact (hsettled b hb).admitSeq (hk.sound _) _ _
      · exact hsettled b hb
    · obtain rfl := mem_singleton.1 hb
      rw [if_pos rfl, hk.lag]
      exact settled_admitSeq (hk.sound _) hsettling

/-- A key of its own for each number, in any order and with repetitions. -/
theorem watermark_passes_presented_reordered : 3 ≤ ((machine.final (withGcLag 0)
      [(⟨0, 2, 12⟩ : Admission ℕ ℕ), ⟨0, 0, 10⟩, ⟨0, 0, 10⟩, ⟨0, 1, 11⟩]).stream 0).lowWatermark :=
  watermark_passes_presented 0 _ (by decide) (by decide +kernel) 0 3 (by decide)

/-- A known key under the next number is answered `Duplicate`, and the watermark stays
below that number. -/
theorem repeated_key_holds_watermark :
    let calls : List (Admission ℕ ℕ) := [⟨0, 0, 7⟩, ⟨0, 1, 7⟩]
    (machine.trace (withGcLag 1024) calls).map Prod.snd = [.delivered, .duplicate] ∧
      ((machine.final (withGcLag 1024) calls).stream 0).lowWatermark = 1 := by
  decide +kernel

omit [DecidableEq κ] in
/-- The remembered numbers that satisfy a test are no more than those of a set they are all in. -/
theorem length_filter_keys_le {st : StreamState κ} {test : ℕ → Bool} {bound : Finset ℕ}
    (h : ∀ n key, st.deliveredKeys.lookup n = some key → test n = true → n ∈ bound) :
    (st.deliveredKeys.keys.filter test).length ≤ bound.card := by
  rw [← toFinset_card_of_nodup (st.deliveredKeys.keys_nodup.filter _)]
  refine Finset.card_le_card fun n hn => ?_
  obtain ⟨hmem, htest⟩ := mem_filter.1 (mem_toFinset.1 hn)
  obtain ⟨key, hkey⟩ := Option.isSome_iff_exists.1 (AList.lookup_isSome.2 hmem)
  exact h n key hkey htest

/-- **A stream takes a bounded amount of memory.**  Whatever is presented in whatever order, with numbers below
`u64::MAX`, it remembers at most `gcLag` numbers behind the watermark and at most `MAX_REORDER_HORIZON` from the
watermark on, and only the keys of these. -/
theorem memory_bounded (gcLag : ℕ) (calls : List (Admission ι κ)) (_hseq : ∀ a ∈ calls, a.seq < 2 ^ 64 - 1) (s : ι) :
    let st := (machine.final (withGcLag gcLag) calls).stream s
    (st.deliveredKeys.keys.filter (· < st.lowWatermark)).length ≤ gcLag ∧
      (st.deliveredKeys.keys.filter (st.lowWatermark ≤ ·)).length ≤ maxReorderHorizon ∧
      ∀ key ∈ st.seen, ∃ n, st.deliveredKeys.lookup n = some key := by
  intro st
  have h : st.Sound gcLag := (kept_final gcLag calls).sound s
  refine ⟨?_, (length_filter_keys_le fun n key hkey hge => ?_).trans h.horizon, fun key => (h.seen key).1⟩
  · have hbehind := @length_filter_keys_le _ st (· < st.lowWatermark) (Finset.Ico st.gcFloor st.lowWatermark)
      fun n key hkey hlt => Finset.mem_Ico.2 ⟨h.retained n key hkey, of_decide_eq_true hlt⟩
    rw [Nat.card_Ico, h.floor] at hbehind
    omega
  · rw [h.ahead, hkey]
    exact ⟨of_decide_eq_true hge, rfl⟩

/-- Of two numbers behind the watermark one is remembered; one number waits ahead of it. -/
theorem memory_bounded_reordered :
    let st := (machine.final (withGcLag 1) [(⟨0, 0, 7⟩ : Admission ℕ ℕ), ⟨0, 1, 8⟩, ⟨0, 3, 9⟩]).stream 0
    st.lowWatermark = 2 ∧ st.deliveredKeys.keys.filter (2 ≤ ·) = [3] ∧
      (st.deliveredKeys.keys.filter (· < st.lowWatermark)).length ≤ 1 := by
  refine ⟨by decide +kernel, by decide +kernel, ?_⟩
  exact (memory_bounded 1 [(⟨0, 0, 7⟩ : Admission ℕ ℕ), ⟨0, 1, 8⟩, ⟨0, 3, 9⟩] (by decide) 0).1

end Gate
end Datarail.Once
