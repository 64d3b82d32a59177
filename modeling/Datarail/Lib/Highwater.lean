/-
# Units admitted by a high watermark

A consumer that keeps one number, the highest unit it has taken, and takes a unit only
if it lies above: out of a list of arrivals it takes the ascents.  It takes every unit
once exactly when no unit arrives before a lower one has (`ascents_eq_iff`); any other
list of arrivals costs it a unit for good (`perm_flatMap_ascents_iff`).
-/

import Mathlib.Data.List.Flatten
import Mathlib.Data.List.Range
import Mathlib.Data.List.Sort

namespace Lib

open List

/-- The arrivals that lie at or above the bound when they come; each moves the bound
behind it. -/
def ascents : ℕ → List ℕ → List ℕ
  | _, [] => []
  | b, i :: l => if i < b then ascents b l else i :: ascents (i + 1) l

/-- The bound after some arrivals. -/
def crest : ℕ → List ℕ → ℕ
  | b, [] => b
  | b, i :: l => crest (max b (i + 1)) l

/-- Every arrival comes after all lower units. -/
def InOrder (units l : List ℕ) : Prop :=
  ∀ k i, l[k]? = some i → ∀ j ∈ units, j < i → j ∈ l.take k

instance (units l : List ℕ) : Decidable (InOrder units l) :=
  decidable_of_iff (∀ k : Fin l.length, ∀ j ∈ units, j < l.get k → j ∈ l.take k) ⟨fun h k _ hk j hj hlt => by
      obtain ⟨hlen, rfl⟩ := List.getElem?_eq_some_iff.1 hk
      exact h ⟨k, hlen⟩ j hj hlt,
    fun h k j hj hlt => h k _ (getElem?_eq_getElem k.2) j hj hlt⟩

theorem le_crest (b : ℕ) (l : List ℕ) : b ≤ crest b l := by
  induction l generalizing b with
  | nil => exact le_rfl
  | cons i l ih => exact (le_max_left _ _).trans (ih _)

variable {l : List ℕ}

theorem lt_crest {b i : ℕ} (h : i ∈ l) : i < crest b l := by
  induction l generalizing b with
  | nil => cases h
  | cons a l ih =>
    rcases mem_cons.1 h with rfl | h
    · have := le_crest (max b (i + 1)) l
      rw [crest]
      omega
    · exact ih h

theorem crest_le {b n : ℕ} (hb : b ≤ n) (h : ∀ i ∈ l, i < n) : crest b l ≤ n := by
  induction l generalizing b with
  | nil => exact hb
  | cons a l ih =>
    have ha := h a mem_cons_self
    exact ih (by omega) fun i hi => h i (mem_cons_of_mem _ hi)

theorem crest_append (b : ℕ) (l m : List ℕ) : crest b (l ++ m) = crest (crest b l) m := by
  induction l generalizing b with
  | nil => rfl
  | cons i l ih => exact ih _

theorem ascents_append (b : ℕ) (l m : List ℕ) : ascents b (l ++ m) = ascents b l ++ ascents (crest b l) m := by
  induction l generalizing b with
  | nil => rfl
  | cons i l ih =>
    simp only [cons_append, ascents, crest]
    split_ifs with hi
    · rw [ih, show max b (i + 1) = b by omega]
    · rw [ih, cons_append, show max b (i + 1) = i + 1 by omega]

/-- One more arrival. -/
theorem ascents_concat (b i : ℕ) (l : List ℕ) :
    ascents b (l ++ [i]) = if i < crest b l then ascents b l else ascents b l ++ [i] := by
  rw [ascents_append, ascents]
  split_ifs
  · rw [ascents, append_nil]
  · rw [ascents]

theorem crest_concat (b i : ℕ) (l : List ℕ) : crest b (l ++ [i]) = max (crest b l) (i + 1) := by
  rw [crest_append]
  rfl

theorem mem_ascents {b i : ℕ} (h : i ∈ ascents b l) : i ∈ l ∧ b ≤ i := by
  induction l generalizing b with
  | nil => cases h
  | cons a l ih =>
    rw [ascents] at h
    split_ifs at h with ha
    · exact ⟨mem_cons_of_mem _ (ih h).1, (ih h).2⟩
    · rcases mem_cons.1 h with rfl | h
      · exact ⟨mem_cons_self, by omega⟩
      · exact ⟨mem_cons_of_mem _ (ih h).1, by have := (ih h).2; omega⟩

/-- No unit is taken twice, and the lower ones first. -/
theorem pairwise_ascents (b : ℕ) (l : List ℕ) : (ascents b l).Pairwise (· < ·) := by
  induction l generalizing b with
  | nil => exact Pairwise.nil
  | cons i l ih =>
    rw [ascents]
    split_ifs with hi
    · exact ih b
    · exact pairwise_cons.2 ⟨fun j hj => (mem_ascents hj).2, ih (i + 1)⟩

theorem InOrder.of_append {units l m : List ℕ} (h : InOrder units (l ++ m)) : InOrder units l := by
  intro k i hk j hj hlt
  have hlen : k < l.length := (List.getElem?_eq_some_iff.1 hk).1
  have := h k i (by rw [getElem?_append_left hlen, hk]) j hj hlt
  rwa [take_append_of_le_length hlen.le] at this

variable {units l : List ℕ}

/-- In order, the first arrival of a unit is taken. -/
theorem mem_ascents_of_inOrder {j : ℕ} (h : InOrder units l) (hj : j ∈ units) (hmem : j ∈ l) : j ∈ ascents 0 l := by
  induction l using reverseRecOn with
  | nil => exact hmem
  | append_singleton l i ih =>
    rw [ascents_concat]
    by_cases hl : j ∈ l
    · have := ih h.of_append hl
      split_ifs
      · exact this
      · exact mem_append_left _ this
    · obtain rfl : j = i := by simpa [hl] using hmem
      -- a higher arrival before `j` would have come after it
      have hbelow : ∀ a ∈ l, a < j := by
        intro a ha
        by_contra hge
        have hne : a ≠ j := fun h => hl (h ▸ ha)
        obtain ⟨k, hk⟩ := mem_iff_getElem?.1 ha
        exact hl (mem_of_mem_take (h.of_append k a hk j hj (by omega)))
      have := crest_le (Nat.zero_le j) hbelow
      rw [if_neg (by omega)]
      exact mem_append_right _ (mem_singleton_self _)

/-- Sorted lists are sublists as soon as they are subsets. -/
theorem sublist_of_subset {l₁ l₂ : List ℕ} (h₁ : l₁.Pairwise (· < ·)) (h₂ : l₂.Pairwise (· < ·))
    (h : l₁ ⊆ l₂) : Sublist l₁ l₂ :=
  sublist_of_subperm_of_pairwise (subperm_of_subset (h₁.imp Nat.ne_of_lt) h) h₁ h₂

section Units

variable {units l : List ℕ} (hsorted : units.Pairwise (· < ·)) (hsub : ∀ i ∈ l, i ∈ units)

include hsorted hsub

theorem ascents_sublist : Sublist (ascents 0 l) units :=
  sublist_of_subset (pairwise_ascents 0 l) hsorted fun _ hi => hsub _ (mem_ascents hi).1

/-- **Everything is taken exactly when the arrivals are in order.** -/
theorem ascents_eq_iff (hall : ∀ j ∈ units, j ∈ l) : ascents 0 l = units ↔ InOrder units l := by
  constructor
  · intro h k i hk j hj hlt
    by_contra hmem
    have hj' : j ∈ ascents 0 l := h ▸ hj
    have htake : l.take (k + 1) = l.take k ++ [i] := by
      rw [take_add_one, hk, Option.toList_some]
    rw [← take_append_drop (k + 1) l, ascents_append] at hj'
    rcases mem_append.1 hj' with hj' | hj'
    · have := (mem_ascents hj').1
      rw [htake] at this
      rcases mem_append.1 this with this | this
      · exact hmem this
      · have := mem_singleton.1 this
        omega
    · have hge := (mem_ascents hj').2
      have := lt_crest (b := 0) (show i ∈ l.take (k + 1) by rw [htake]; simp)
      omega
  · intro h
    refine (ascents_sublist hsorted hsub).antisymm (sublist_of_subset hsorted (pairwise_ascents 0 l) ?_)
    exact fun j hj => mem_ascents_of_inOrder h hj (hall j hj)

end Units

variable {α β : Type*}

/-- A list of units by their positions. -/
theorem flatMap_eq_range (l : List α) (f : α → List β) :
    l.flatMap f = (range l.length).flatMap fun i => (l[i]?.map f).getD [] := by
  induction l using reverseRecOn with
  | nil => rfl
  | append_singleton l a ih =>
    have hlast : (((l ++ [a])[l.length]?).map f).getD [] = f a := by simp
    have hinit : ((range l.length).flatMap fun i => ((l ++ [a])[i]?.map f).getD []) =
        (range l.length).flatMap fun i => (l[i]?.map f).getD [] := by
      refine flatMap_congr fun i hi => ?_
      rw [getElem?_append_left (mem_range.1 hi)]
    rw [flatMap_append, length_append, length_singleton, range_succ,
      flatMap_append, hinit, ← ih, flatMap_singleton, flatMap_singleton, hlast]

/-- Empty units add nothing. -/
theorem flatMap_filter_ne_nil [DecidableEq β] (l : List α) (f : α → List β) :
    (l.filter fun a => f a ≠ []).flatMap f = l.flatMap f := by
  induction l with
  | nil => rfl
  | cons a l ih =>
    by_cases h : f a = []
    · rw [filter_cons_of_neg (by simpa using h), flatMap_cons, h, ih, nil_append]
    · rw [filter_cons_of_pos (by simpa using h), flatMap_cons, flatMap_cons, ih]

/-- A shorter selection of nonempty units is shorter in all. -/
theorem eq_of_sublist_of_length_flatMap {f : α → List β} {l₁ l₂ : List α}
    (h : Sublist l₁ l₂) (hf : ∀ a ∈ l₂, f a ≠ [])
    (hlen : (l₁.flatMap f).length = (l₂.flatMap f).length) : l₁ = l₂ := by
  induction h with
  | slnil => rfl
  | @cons l₁ l₂ a h ih =>
    have hle := (h.flatMap f).length_le
    have hpos := length_pos_of_ne_nil (hf a mem_cons_self)
    rw [flatMap_cons, length_append] at hlen
    omega
  | @cons_cons l₁ l₂ a h ih =>
    rw [flatMap_cons, flatMap_cons, length_append, length_append] at hlen
    rw [ih (fun b hb => hf b (mem_cons_of_mem _ hb)) (by omega)]

/-- **What a high watermark lets through is all there is exactly when the arrivals are in
order.** -/
theorem perm_flatMap_ascents_iff {β : Type*} {f : ℕ → List β}
    (hsorted : units.Pairwise (· < ·)) (hsub : ∀ i ∈ l, i ∈ units) (hall : ∀ j ∈ units, j ∈ l)
    (hf : ∀ i ∈ units, f i ≠ []) :
    ((ascents 0 l).flatMap f).Perm (units.flatMap f) ↔ InOrder units l := by
  rw [← ascents_eq_iff hsorted hsub hall]
  constructor
  · exact fun h => eq_of_sublist_of_length_flatMap (ascents_sublist hsorted hsub) hf h.length_eq
  · intro h
    rw [h]

end Lib
