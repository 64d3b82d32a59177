/-
# Framed logs in segments

A log that is kept in several files puts its records into groups, one group a file, and names
a file by the offset of its first byte in the whole log.  `offsets` are the places at which
records start, `pack` the groups with the places at which they start.

A record is found by its number in two steps: `exists_group` says in which group it is, and
`getElem?_offsets` at which offset, the length of all frames before it.
-/

import Datarail.Lib.Frames

namespace Lib
namespace Codec

open List

variable {β ρ : Type*} (K : Codec β ρ)

/-- The length of the frames of some records. -/
def size (rs : List ρ) : ℕ := (K.frames rs).length

/-- Where each record starts, if the first starts at `start`. -/
def offsets : ℕ → List ρ → List ℕ
  | _, [] => []
  | start, r :: rs => start :: offsets (start + (K.frame r).length) rs

/-- Records, each with the place at which it starts. -/
def entries : ℕ → List ρ → List (ℕ × ρ)
  | _, [] => []
  | start, r :: rs => (start, r) :: entries (start + (K.frame r).length) rs

/-- Groups of records, each with the place at which it starts. -/
def pack : ℕ → List (List ρ) → List (ℕ × List ρ)
  | _, [] => []
  | start, g :: gs => (start, g) :: pack (start + K.size g) gs

section Size

@[simp] theorem size_nil : K.size [] = 0 := rfl

@[simp] theorem size_cons (r : ρ) (rs : List ρ) : K.size (r :: rs) = (K.frame r).length + K.size rs := by
  rw [size, frames_cons, length_append, size]

@[simp] theorem size_append (rs rs' : List ρ) : K.size (rs ++ rs') = K.size rs + K.size rs' := by
  rw [size, frames_append, length_append, size, size]

variable {K}

theorem size_pos {rs : List ρ} (h : rs ≠ []) : 0 < K.size rs := by
  cases rs with
  | nil => exact absurd rfl h
  | cons r rs =>
    have := length_pos_of_ne_nil (K.frame_ne_nil r)
    rw [size_cons]
    omega

theorem size_eq_zero {rs : List ρ} : K.size rs = 0 ↔ rs = [] := by
  constructor
  · intro h
    by_contra hne
    have := size_pos (K := K) hne
    omega
  · rintro rfl
    rfl

end Size

section Offsets

@[simp] theorem length_offsets (start : ℕ) (rs : List ρ) : (K.offsets start rs).length = rs.length := by
  induction rs generalizing start with
  | nil => rfl
  | cons r rs ih => rw [offsets, length_cons, length_cons, ih]

theorem offsets_append (start : ℕ) (rs rs' : List ρ) :
    K.offsets start (rs ++ rs') = K.offsets start rs ++ K.offsets (start + K.size rs) rs' := by
  induction rs generalizing start with
  | nil => rfl
  | cons r rs ih => rw [cons_append, offsets, offsets, ih, size_cons, cons_append, Nat.add_assoc]

/-- The record behind some others starts where their frames end. -/
theorem getElem?_offsets (start : ℕ) (rs : List ρ) (r : ρ) (rs' : List ρ) :
    (K.offsets start (rs ++ r :: rs'))[rs.length]? = some (start + K.size rs) := by
  rw [offsets_append, getElem?_append_right (by rw [length_offsets]), length_offsets, Nat.sub_self]
  rfl

theorem entries_append (start : ℕ) (rs rs' : List ρ) :
    K.entries start (rs ++ rs') = K.entries start rs ++ K.entries (start + K.size rs) rs' := by
  induction rs generalizing start with
  | nil => rfl
  | cons r rs ih => rw [cons_append, entries, entries, ih, size_cons, cons_append, Nat.add_assoc]

@[simp] theorem map_fst_entries (start : ℕ) (rs : List ρ) : (K.entries start rs).map Prod.fst = K.offsets start rs := by
  induction rs generalizing start with
  | nil => rfl
  | cons r rs ih => rw [entries, map_cons, ih, offsets]

@[simp] theorem length_entries (start : ℕ) (rs : List ρ) : (K.entries start rs).length = rs.length := by
  rw [← length_offsets K start, ← map_fst_entries, length_map]

theorem drop_entries (start : ℕ) (rs rs' : List ρ) :
    (K.entries start (rs ++ rs')).drop rs.length = K.entries (start + K.size rs) rs' := by
  rw [entries_append, ← length_entries K start rs, drop_left]

variable {K} {rs : List ρ} {start : ℕ}

/-- A record starts behind those before it. -/
theorem exists_of_mem_entries {e : ℕ × ρ} (h : e ∈ K.entries start rs) :
    ∃ done todo, rs = done ++ e.2 :: todo ∧ e.1 = start + K.size done := by
  induction rs generalizing start with
  | nil => cases h
  | cons r rs ih =>
    rcases mem_cons.1 h with rfl | h
    · exact ⟨[], rs, rfl, rfl⟩
    · obtain ⟨done, todo, rfl, hstart⟩ := ih h
      exact ⟨r :: done, todo, rfl, by rw [hstart, size_cons, Nat.add_assoc]⟩

theorem mem_entries {e : ℕ × ρ} (h : e ∈ K.entries start rs) :
    start ≤ e.1 ∧ e.1 < start + K.size rs := by
  obtain ⟨done, todo, rfl, hstart⟩ := exists_of_mem_entries h
  have hpos := length_pos_of_ne_nil (K.frame_ne_nil e.2)
  rw [size_append, size_cons]
  omega

/-- Records whose entries are all among those of a list are the first ones of it. -/
theorem prefix_of_entries {rs rs' : List ρ} (h : ∀ x ∈ K.entries start rs, x ∈ K.entries start rs') : rs <+: rs' := by
  induction rs generalizing start rs' with
  | nil => exact nil_prefix
  | cons r rs ih =>
    cases rs' with
    | nil => exact absurd (h (start, r) mem_cons_self) not_mem_nil
    | cons r' rs' =>
      have hpos := length_pos_of_ne_nil (K.frame_ne_nil r')
      obtain rfl : r = r' := by
        rcases mem_cons.1 (h (start, r) mem_cons_self) with heq | hin
        · exact (Prod.mk.inj heq).2
        · have := (mem_entries hin).1
          omega
      refine (prefix_cons_inj r).2 (@ih (start + (K.frame r).length) rs' fun x hx => ?_)
      rcases mem_cons.1 (h x (mem_cons_of_mem _ hx)) with rfl | hin
      · have := (mem_entries hx).1
        omega
      · exact hin

/-- Records start one behind the other. -/
theorem pairwise_offsets (start : ℕ) (rs : List ρ) : (K.offsets start rs).Pairwise (· < ·) := by
  induction rs generalizing start with
  | nil => exact Pairwise.nil
  | cons r rs ih =>
    refine pairwise_cons.2 ⟨fun s hs => ?_, ih _⟩
    rw [← map_fst_entries] at hs
    obtain ⟨e, he, rfl⟩ := mem_map.1 hs
    have hpos := length_pos_of_ne_nil (K.frame_ne_nil r)
    have := (mem_entries he).1
    omega

/-- The entries before a record are those at smaller offsets. -/
theorem filter_entries (start : ℕ) (rs rs' : List ρ) :
    (K.entries start (rs ++ rs')).filter (fun e => decide (e.1 < start + K.size rs)) = K.entries start rs := by
  rw [entries_append, filter_append, filter_eq_self.2 fun e he => decide_eq_true (mem_entries he).2,
    filter_eq_nil_iff.2 fun e he => ?_, append_nil]
  have := (mem_entries he).1
  simp only [decide_eq_true_eq]
  omega

/-- Each place in the frames is in a frame. -/
theorem exists_frame {offset : ℕ} (h : offset < K.size rs) :
    ∃ done r todo, rs = done ++ r :: todo ∧ K.size done ≤ offset ∧ offset < K.size done + (K.frame r).length := by
  induction rs generalizing offset with
  | nil => exact absurd h (Nat.not_lt_zero _)
  | cons r rs ih =>
    by_cases hr : offset < (K.frame r).length
    · exact ⟨[], r, rs, rfl, Nat.zero_le _, by rwa [size_nil, Nat.zero_add]⟩
    · rw [size_cons] at h
      obtain ⟨done, x, todo, rfl, hlow, hhigh⟩ := @ih (offset - (K.frame r).length) (by omega)
      refine ⟨r :: done, x, todo, rfl, ?_, ?_⟩ <;> rw [size_cons] <;> omega

/-- The place of a record is the only one in its frame at which a record starts. -/
theorem mem_offsets_iff {done : List ρ} {r : ρ} {todo : List ρ} {offset : ℕ} (hlow : K.size done ≤ offset)
    (hhigh : offset < K.size done + (K.frame r).length) :
    offset ∈ K.offsets 0 (done ++ r :: todo) ↔ offset = K.size done := by
  rw [← map_fst_entries, entries_append, map_append, mem_append, entries, map_cons, mem_cons, Nat.zero_add]
  constructor
  · rintro (hbefore | rfl | hafter)
    · obtain ⟨e, he, rfl⟩ := mem_map.1 hbefore
      have := (mem_entries he).2
      omega
    · rfl
    · obtain ⟨e, he, rfl⟩ := mem_map.1 hafter
      have := (mem_entries he).1
      omega
  · intro heq
    exact .inr (.inl heq)

end Offsets

section Pack

theorem pack_append (start : ℕ) (gs gs' : List (List ρ)) :
    K.pack start (gs ++ gs') = K.pack start gs ++ K.pack (start + K.size gs.flatten) gs' := by
  induction gs generalizing start with
  | nil => rfl
  | cons g gs ih =>
    rw [cons_append, pack, pack, ih, flatten_cons, size_append, cons_append, Nat.add_assoc]

@[simp] theorem length_pack (start : ℕ) (gs : List (List ρ)) : (K.pack start gs).length = gs.length := by
  induction gs generalizing start with
  | nil => rfl
  | cons g gs ih => rw [pack, length_cons, length_cons, ih]

variable {K} {gs : List (List ρ)} {start : ℕ} {e : ℕ × List ρ}

/-- A group starts behind the groups before it. -/
theorem mem_pack (h : e ∈ K.pack start gs) :
    ∃ before after, gs = before ++ e.2 :: after ∧ e.1 = start + K.size before.flatten := by
  induction gs generalizing start with
  | nil => cases h
  | cons g gs ih =>
    rcases mem_cons.1 h with rfl | h
    · exact ⟨[], gs, rfl, rfl⟩
    · obtain ⟨before, after, rfl, hstart⟩ := ih h
      refine ⟨g :: before, after, rfl, ?_⟩
      rw [hstart, flatten_cons, size_append, Nat.add_assoc]

theorem mem_of_mem_pack (h : e ∈ K.pack start gs) : e.2 ∈ gs := by
  obtain ⟨before, after, rfl, -⟩ := mem_pack h
  exact mem_append_right _ mem_cons_self

theorem le_of_mem_pack (h : e ∈ K.pack start gs) :
    start ≤ e.1 ∧ e.1 + K.size e.2 ≤ start + K.size gs.flatten := by
  obtain ⟨before, after, rfl, hstart⟩ := mem_pack h
  rw [hstart, flatten_append, flatten_cons, size_append, size_append]
  omega

/-- The entries of the groups, one after the other. -/
theorem flatMap_entries_pack (start : ℕ) (gs : List (List ρ)) :
    ((K.pack start gs).flatMap fun e => K.entries e.1 e.2) = K.entries start gs.flatten := by
  induction gs generalizing start with
  | nil => rfl
  | cons g gs ih => rw [pack, flatMap_cons, ih, flatten_cons, entries_append]

/-- Each group ends where a later one starts, or before. -/
theorem pairwise_pack_le (start : ℕ) (gs : List (List ρ)) :
    (K.pack start gs).Pairwise fun e e' => e.1 + K.size e.2 ≤ e'.1 := by
  induction gs generalizing start with
  | nil => exact Pairwise.nil
  | cons g gs ih => exact pairwise_cons.2 ⟨fun e he => (le_of_mem_pack he).1, ih _⟩

/-- A place is in one group only. -/
theorem eq_of_mem_pack {e e' : ℕ × List ρ} {offset : ℕ} (he : e ∈ K.pack start gs)
    (he' : e' ∈ K.pack start gs) (h : e.1 ≤ offset ∧ offset < e.1 + K.size e.2)
    (h' : e'.1 ≤ offset ∧ offset < e'.1 + K.size e'.2) : e = e' := by
  induction gs generalizing start with
  | nil => cases he
  | cons g gs ih =>
    rcases mem_cons.1 he with rfl | hlater
    · rcases mem_cons.1 he' with rfl | hlater'
      · rfl
      · have hle := (le_of_mem_pack hlater').1
        exact absurd (h'.1.trans_lt h.2) (Nat.not_lt.2 hle)
    · rcases mem_cons.1 he' with rfl | hlater'
      · have hle := (le_of_mem_pack hlater).1
        exact absurd (h.1.trans_lt h'.2) (Nat.not_lt.2 hle)
      · exact ih hlater hlater'

/-- Groups that are not empty start one behind the other. -/
theorem pairwise_pack (h : ∀ g ∈ gs, g ≠ []) :
    ((K.pack start gs).map Prod.fst).Pairwise (· < ·) := by
  induction gs generalizing start with
  | nil => exact Pairwise.nil
  | cons g gs ih =>
    refine pairwise_cons.2 ⟨fun s hs => ?_, ih fun g hg => h g (mem_cons_of_mem _ hg)⟩
    obtain ⟨e, he, rfl⟩ := mem_map.1 hs
    have hlow := (le_of_mem_pack he).1
    have hpos := size_pos (K := K) (h g mem_cons_self)
    exact lt_of_lt_of_le (by omega) hlow

/-- Each record is in a group. -/
theorem exists_group {i : ℕ} (h : i < gs.flatten.length) :
    ∃ before g after done r todo, gs = before ++ g :: after ∧ g = done ++ r :: todo ∧
      i = before.flatten.length + done.length := by
  induction gs generalizing i with
  | nil => exact absurd h (Nat.not_lt_zero i)
  | cons g gs ih =>
    rw [flatten_cons, length_append] at h
    by_cases hi : i < g.length
    · refine ⟨[], g, gs, g.take i, g.get ⟨i, hi⟩, g.drop (i + 1), rfl, ?_, ?_⟩
      · rw [get_eq_getElem, ← drop_eq_getElem_cons hi, take_append_drop]
      · rw [length_take, flatten_nil, length_nil]
        omega
    · obtain ⟨before, g', after, done, r, todo, rfl, hg, hnum⟩ := @ih (i - g.length) (by omega)
      refine ⟨g :: before, g', after, done, r, todo, rfl, hg, ?_⟩
      rw [flatten_cons, length_append]
      omega

/-- Each place in the frames of some groups is in a frame of one of them. -/
theorem exists_group_at {offset : ℕ} (h : offset < K.size gs.flatten) :
    ∃ before done r todo after, gs = before ++ (done ++ r :: todo) :: after ∧
      K.size before.flatten + K.size done ≤ offset ∧
      offset < K.size before.flatten + K.size done + (K.frame r).length := by
  induction gs generalizing offset with
  | nil => exact absurd h (Nat.not_lt_zero _)
  | cons g gs ih =>
    by_cases hg : offset < K.size g
    · obtain ⟨done, r, todo, rfl, hlow, hhigh⟩ := exists_frame hg
      refine ⟨[], done, r, todo, gs, rfl, ?_, ?_⟩ <;> rw [flatten_nil, size_nil] <;> omega
    · rw [flatten_cons, size_append] at h
      obtain ⟨before, done, r, todo, after, rfl, hlow, hhigh⟩ := @ih (offset - K.size g) (by omega)
      refine ⟨g :: before, done, r, todo, after, rfl, ?_, ?_⟩ <;> rw [flatten_cons, size_append] <;> omega

end Pack

end Codec

end Lib
