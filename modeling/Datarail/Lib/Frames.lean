/-
# Framed logs

A log is frames, one behind the other.  Whoever reads it back takes frames off the front
until what is left does not begin with a whole one: the tail.  A `Codec` is a format of
frames in which the parser finds a record at the front of some bytes exactly when they
begin with its frame.

That law is all the logs need.  Frames read back as their records (`records_frames`), a
frame cut short reads as nothing (`parse_torn`), and any bytes at all are the frames of
their records and the tail (`frames_records`).  `Codec.checked` is the common format of a
length, the bytes and a checksum over both.
-/

import Datarail.Lib.MachineInt
import Mathlib.Data.List.Basic

namespace Lib

open List

/-- The first `n` elements and the rest, if there are as many. -/
def cut {β : Type*} (n : ℕ) (bs : List β) : Option (List β × List β) :=
  if n ≤ bs.length then some (bs.take n, bs.drop n) else none

theorem cut_eq_some {β : Type*} {n : ℕ} {bs front rest : List β} :
    cut n bs = some (front, rest) ↔ front.length = n ∧ bs = front ++ rest := by
  constructor
  · intro h
    rw [cut] at h
    split_ifs at h with hn
    cases h
    exact ⟨by rw [length_take]; omega, (take_append_drop n bs).symm⟩
  · rintro ⟨rfl, rfl⟩
    rw [cut, if_pos (by rw [length_append]; omega), take_left, drop_left]

/-- A format of frames. -/
structure Codec (β ρ : Type*) where
  /-- The records that can be framed. -/
  Fits : ρ → Prop
  frame : ρ → List β
  /-- The first record and what is behind it. -/
  parse : List β → Option (ρ × List β)
  frame_ne_nil : ∀ r, frame r ≠ []
  parse_eq_some : ∀ {bs r rest}, parse bs = some (r, rest) ↔ Fits r ∧ bs = frame r ++ rest

namespace Codec

variable {β ρ : Type*} (K : Codec β ρ)

/-- Records, one behind the other. -/
def frames (rs : List ρ) : List β := rs.flatMap K.frame

/-- Take at most `fuel` frames off the front. -/
def scan : ℕ → List β → List ρ × List β
  | 0, bs => ([], bs)
  | fuel + 1, bs =>
    match K.parse bs with
    | none => ([], bs)
    | some (r, rest) => (r :: (scan fuel rest).1, (scan fuel rest).2)

/-- The records of a log. -/
def records (bs : List β) : List ρ := (K.scan bs.length bs).1

/-- What is left behind the records. -/
def tail (bs : List β) : List β := (K.scan bs.length bs).2

@[simp] theorem frames_nil : K.frames [] = [] := rfl

@[simp] theorem frames_cons (r : ρ) (rs : List ρ) : K.frames (r :: rs) = K.frame r ++ K.frames rs := rfl

@[simp] theorem frames_append (rs rs' : List ρ) : K.frames (rs ++ rs') = K.frames rs ++ K.frames rs' :=
  flatMap_append

variable {K}

theorem parse_frame {r : ρ} (h : K.Fits r) (rest : List β) : K.parse (K.frame r ++ rest) = some (r, rest) :=
  K.parse_eq_some.2 ⟨h, rfl⟩

theorem length_le_frames (rs : List ρ) : rs.length ≤ (K.frames rs).length := by
  induction rs with
  | nil => exact le_refl _
  | cons r rs ih =>
    have := length_pos_of_ne_nil (K.frame_ne_nil r)
    rw [frames_cons, length_append, length_cons]
    omega

theorem length_lt_of_parse {bs rest : List β} {r : ρ} (h : K.parse bs = some (r, rest)) : rest.length < bs.length := by
  obtain ⟨-, rfl⟩ := K.parse_eq_some.1 h
  have := length_pos_of_ne_nil (K.frame_ne_nil r)
  rw [length_append]
  omega

theorem parse_nil : K.parse [] = none := by
  rcases h : K.parse [] with _ | ⟨r, rest⟩
  · rfl
  · exact absurd (length_lt_of_parse h) (Nat.not_lt_zero _)

/-- **A frame cut short reads as nothing.** -/
theorem parse_torn {r : ρ} (h : K.Fits r) {n : ℕ} (hn : n < (K.frame r).length) :
    K.parse ((K.frame r).take n) = none := by
  rcases hp : K.parse ((K.frame r).take n) with _ | ⟨r', rest⟩
  · rfl
  · exfalso
    obtain ⟨hfits, htake⟩ := K.parse_eq_some.1 hp
    have hwhole : K.frame r = K.frame r' ++ (rest ++ (K.frame r).drop n) := by
      rw [← append_assoc, ← htake, take_append_drop]
    have hparse := parse_frame h ([] : List β)
    rw [append_nil, hwhole, parse_frame hfits] at hparse
    have hnil := (Prod.mk.inj (Option.some.inj hparse)).2
    have := congrArg length hnil
    rw [length_append, length_drop, length_nil] at this
    omega

variable {rs : List ρ}

theorem scan_frames {t : List β} (hrs : ∀ r ∈ rs, K.Fits r) (ht : K.parse t = none)
    {fuel : ℕ} (hfuel : (K.frames rs ++ t).length ≤ fuel) : K.scan fuel (K.frames rs ++ t) = (rs, t) := by
  induction rs generalizing fuel with
  | nil =>
    cases fuel with
    | zero => rfl
    | succ fuel => simp only [frames_nil, nil_append, scan, ht]
  | cons r rs ih =>
    have hr := hrs r mem_cons_self
    have hpos := length_pos_of_ne_nil (K.frame_ne_nil r)
    rw [frames_cons, append_assoc] at hfuel ⊢
    rw [length_append] at hfuel
    cases fuel with
    | zero => omega
    | succ fuel =>
      simp only [scan, parse_frame hr, ih (fun r' h => hrs r' (mem_cons_of_mem _ h))
        (show (K.frames rs ++ t).length ≤ fuel by omega)]

/-- **Frames read back.** -/
theorem records_frames {t : List β} (hrs : ∀ r ∈ rs, K.Fits r) (ht : K.parse t = none) :
    K.records (K.frames rs ++ t) = rs ∧ K.tail (K.frames rs ++ t) = t := by
  rw [records, tail, scan_frames hrs ht (le_refl _)]
  exact ⟨rfl, rfl⟩

theorem scan_spec {bs : List β} {fuel : ℕ} (hfuel : bs.length ≤ fuel) :
    bs = K.frames (K.scan fuel bs).1 ++ (K.scan fuel bs).2 ∧ (∀ r ∈ (K.scan fuel bs).1, K.Fits r) ∧
      K.parse (K.scan fuel bs).2 = none := by
  induction fuel generalizing bs with
  | zero =>
    obtain rfl := length_eq_zero_iff.1 (Nat.le_zero.1 hfuel)
    exact ⟨rfl, nofun, parse_nil⟩
  | succ fuel ih =>
    simp only [scan]
    rcases hp : K.parse bs with _ | ⟨r, rest⟩
    · exact ⟨rfl, nofun, hp⟩
    · have hlt := length_lt_of_parse hp
      obtain ⟨hfits, rfl⟩ := K.parse_eq_some.1 hp
      obtain ⟨h₁, h₂, h₃⟩ := @ih rest (by omega)
      refine ⟨?_, ?_, h₃⟩
      · simp only [frames_cons, append_assoc]
        rw [← h₁]
      · exact forall_mem_cons.2 ⟨hfits, h₂⟩

variable (K)

/-- **Any bytes are the frames of their records and the tail.** -/
theorem frames_records (bs : List β) : K.frames (K.records bs) ++ K.tail bs = bs :=
  (scan_spec (le_refl bs.length)).1.symm

theorem fits_records (bs : List β) : ∀ r ∈ K.records bs, K.Fits r :=
  (scan_spec (le_refl bs.length)).2.1

theorem parse_tail (bs : List β) : K.parse (K.tail bs) = none :=
  (scan_spec (le_refl bs.length)).2.2

variable {K}

/-- More frames, and some tail, behind a log of whole frames. -/
theorem records_append {log t : List β} (rs : List ρ) (hlog : K.tail log = []) (hrs : ∀ r ∈ rs, K.Fits r)
    (ht : K.parse t = none) :
    K.records (log ++ (K.frames rs ++ t)) = K.records log ++ rs ∧ K.tail (log ++ (K.frames rs ++ t)) = t := by
  have hframes := K.frames_records log
  rw [hlog, append_nil] at hframes
  have hfits : ∀ r ∈ K.records log ++ rs, K.Fits r := fun r hr =>
    (mem_append.1 hr).elim (K.fits_records log r) (hrs r)
  have h := records_frames hfits ht
  rwa [frames_append, hframes, append_assoc] at h

/-- **Frames cut short are the frames of the first records and a tail.** -/
theorem exists_take_frames (hrs : ∀ r ∈ rs, K.Fits r) (n : ℕ) :
    ∃ k t, (K.frames rs).take n = K.frames (rs.take k) ++ t ∧ K.parse t = none := by
  induction rs generalizing n with
  | nil => exact ⟨0, [], by simp, parse_nil⟩
  | cons r rs ih =>
    rw [frames_cons]
    by_cases hn : n < (K.frame r).length
    · refine ⟨0, (K.frame r).take n, ?_, parse_torn (hrs r mem_cons_self) hn⟩
      rw [take_append_of_le_length (Nat.le_of_lt hn), take_zero, frames_nil, nil_append]
    · obtain ⟨k, t, htake, ht⟩ := ih (fun r' hr' => hrs r' (mem_cons_of_mem r hr')) (n - (K.frame r).length)
      refine ⟨k + 1, t, ?_, ht⟩
      rw [take_append, take_of_length_le (Nat.not_lt.1 hn), htake, take_succ_cons, frames_cons, append_assoc]

variable (K)

/-- How a length is written in four bytes, and a checksum over bytes in four more. -/
structure Checks where
  lenBytes : ℕ → List UInt8
  lenOf : List UInt8 → ℕ
  checksum : List UInt8 → List UInt8
  /-- The lengths a frame may have. -/
  accepts : ℕ → Bool
  length_lenBytes : ∀ n, (lenBytes n).length = 4
  length_checksum : ∀ bs, (checksum bs).length = 4
  lenOf_lenBytes : ∀ n, accepts n = true → lenOf (lenBytes n) = n
  lenBytes_lenOf : ∀ bs, bs.length = 4 → lenBytes (lenOf bs) = bs

section Checked

variable (W : Checks)

/-- A frame: the length, the bytes, the checksum over both. -/
def checkedFrame (r : List UInt8) : List UInt8 :=
  W.lenBytes r.length ++ r ++ W.checksum (W.lenBytes r.length ++ r)

/-- Read a frame: four bytes of length, an accepted length, the bytes, a checksum that agrees. -/
def checkedParse (bs : List UInt8) : Option (List UInt8 × List UInt8) :=
  if bs.length < 4 then none
  else
    let len := W.lenOf (bs.take 4)
    if W.accepts len = false then none
    else if bs.length < 4 + len + 4 then none
    else if (bs.drop (4 + len)).take 4 ≠ W.checksum (bs.take (4 + len)) then none
    else some ((bs.drop 4).take len, bs.drop (4 + len + 4))

theorem length_checkedFrame (r : List UInt8) : (checkedFrame W r).length = r.length + 8 := by
  rw [checkedFrame, length_append, length_append, W.length_lenBytes, W.length_checksum]
  omega

theorem checkedParse_frame {r : List UInt8} (h : W.accepts r.length = true) (rest : List UInt8) :
    checkedParse W (checkedFrame W r ++ rest) = some (r, rest) := by
  have hlen := length_checkedFrame W r
  have hbytes : checkedFrame W r ++ rest =
      W.lenBytes r.length ++ (r ++ (W.checksum (W.lenBytes r.length ++ r) ++ rest)) := by
    simp only [checkedFrame, append_assoc]
  have h4 := W.length_lenBytes r.length
  have htake : (checkedFrame W r ++ rest).take 4 = W.lenBytes r.length := by
    rw [hbytes, take_left' h4]
  have hbody : (checkedFrame W r ++ rest).drop 4 = r ++ (W.checksum (W.lenBytes r.length ++ r) ++ rest) := by
    rw [hbytes, drop_left' h4]
  have hhead : (checkedFrame W r ++ rest).take (4 + r.length) = W.lenBytes r.length ++ r := by
    rw [hbytes, ← append_assoc, take_left' (by rw [length_append, h4])]
  have hsum : (checkedFrame W r ++ rest).drop (4 + r.length) = W.checksum (W.lenBytes r.length ++ r) ++ rest := by
    rw [hbytes, ← append_assoc, drop_left' (by rw [length_append, h4])]
  unfold checkedParse
  rw [if_neg (by rw [length_append]; omega)]
  simp only [htake, W.lenOf_lenBytes _ h]
  rw [if_neg (by rw [h]; exact Bool.true_eq_false_eq_False), if_neg (by rw [length_append]; omega),
    hsum, hhead, take_left' (W.length_checksum _), if_neg (fun hne => hne rfl), hbody,
    take_left' rfl, ← drop_drop, hsum, drop_left' (W.length_checksum _)]

theorem checkedParse_eq_some {bs r rest : List UInt8} :
    checkedParse W bs = some (r, rest) ↔ W.accepts r.length = true ∧ bs = checkedFrame W r ++ rest := by
  constructor
  · intro h
    simp only [checkedParse] at h
    split_ifs at h with h₁ h₂ h₃ h₄
    obtain ⟨hr, hrest⟩ := Prod.mk.inj (Option.some.inj h)
    have hlen : r.length = W.lenOf (bs.take 4) := by
      rw [← hr, length_take, length_drop]
      omega
    have haccepts : W.accepts r.length = true := by
      rw [hlen]
      exact Bool.eq_true_of_not_eq_false h₂
    refine ⟨haccepts, ?_⟩
    have htake : W.lenBytes r.length = bs.take 4 := by
      rw [hlen]
      exact W.lenBytes_lenOf _ (by rw [length_take]; omega)
    have hhead : W.lenBytes r.length ++ r = bs.take (4 + r.length) := by
      rw [htake, hlen, ← hr, take_add]
    have hsplit : ∀ n, bs = bs.take n ++ ((bs.drop n).take 4 ++ bs.drop (n + 4)) := fun n => by
      rw [← drop_drop, take_append_drop, take_append_drop]
    rw [checkedFrame, hhead, ← hrest, hlen, ← not_ne_iff.1 h₄, append_assoc]
    exact hsplit _
  · rintro ⟨h, rfl⟩
    exact checkedParse_frame W h rest

/-- **Frames of a length, the bytes and a checksum are a codec.** -/
def checked : Codec UInt8 (List UInt8) where
  Fits r := W.accepts r.length = true
  frame := checkedFrame W
  parse := checkedParse W
  frame_ne_nil r h := by
    have := length_checkedFrame W r
    rw [h] at this
    exact absurd this (Nat.ne_of_lt (Nat.succ_pos _))
  parse_eq_some := checkedParse_eq_some W

end Checked

end Codec

end Lib
