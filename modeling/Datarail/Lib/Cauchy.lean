/-
# Cauchy matrices

The matrix with the entries `1 / (xᵢ - yⱼ)`, for pairwise different points `xᵢ` and `yⱼ`.  No
combination of its columns vanishes in as many rows as it has columns (`eq_zero_of_cauchy`), so that
every square part of it is invertible.

The systematic code over it has a unit row for each data symbol and a row of the matrix for each
parity symbol.  Any `k` different rows determine the data (`eq_zero_of_codeRow`): the code is MDS.
-/

import Mathlib.Algebra.Polynomial.Roots
import Mathlib.Tactic.FieldSimp

namespace Lib
namespace Cauchy

open Polynomial Finset

variable {K : Type*} [Field K]

section

variable {ι κ : Type*} [DecidableEq κ] (x : ι → K) (y : κ → K) (v : κ → K) (S : Finset κ)

/-- The numerator of `∑ vⱼ / (X - yⱼ)`. -/
noncomputable def numerator : K[X] := ∑ j ∈ S, C (v j) * ∏ l ∈ S.erase j, (X - C (y l))

theorem natDegree_numerator_lt (hS : S.Nonempty) : (numerator y v S).natDegree < S.card := by
  have hpos : 0 < S.card := hS.card_pos
  refine lt_of_le_of_lt (natDegree_sum_le_of_forall_le S _ fun j hj => ?_) (Nat.sub_lt hpos one_pos)
  refine (natDegree_C_mul_le _ _).trans ?_
  simp [card_erase_of_mem hj]

theorem eval_numerator_of_notMem {t : K} (ht : ∀ j ∈ S, t ≠ y j) :
    (numerator y v S).eval t = (∏ l ∈ S, (t - y l)) * ∑ j ∈ S, v j * (t - y j)⁻¹ := by
  rw [numerator, eval_finsetSum, mul_sum]
  refine sum_congr rfl fun j hj => ?_
  have hne : t - y j ≠ 0 := sub_ne_zero.2 (ht j hj)
  rw [eval_mul, eval_C, eval_prod, ← mul_prod_erase S _ hj]
  simp only [eval_sub, eval_X, eval_C]
  field_simp

theorem eval_numerator_of_mem {j : κ} (hj : j ∈ S) :
    (numerator y v S).eval (y j) = v j * ∏ l ∈ S.erase j, (y j - y l) := by
  rw [numerator, eval_finsetSum, sum_eq_single_of_mem j hj]
  · simp [eval_prod]
  · intro i _ hij
    -- every other summand has the factor `X - yⱼ`
    rw [eval_mul, eval_prod, prod_eq_zero (mem_erase.2 ⟨hij.symm, hj⟩), mul_zero]
    simp

variable {x y v S}

/-- **A Cauchy matrix has no null columns.**  A combination of columns that vanishes in as many rows
is zero. -/
theorem eq_zero_of_cauchy {P : Finset ι} (hx : Set.InjOn x P) (hy : Set.InjOn y S)
    (hxy : ∀ i ∈ P, ∀ j ∈ S, x i ≠ y j) (hcard : S.card ≤ P.card)
    (h : ∀ i ∈ P, ∑ j ∈ S, v j * (x i - y j)⁻¹ = 0) : ∀ j ∈ S, v j = 0 := by
  classical
  intro j hj
  have hzero : numerator y v S = 0 := by
    refine eq_zero_of_natDegree_lt_card_of_eval_eq_zero' _ (P.image x) ?_ ?_
    · intro t ht
      obtain ⟨i, hi, rfl⟩ := mem_image.1 ht
      rw [eval_numerator_of_notMem y v S (hxy i hi), h i hi, mul_zero]
    · rw [card_image_of_injOn hx]
      exact (natDegree_numerator_lt y v S ⟨j, hj⟩).trans_le hcard
  have heval := eval_numerator_of_mem y v S hj
  rw [hzero, eval_zero] at heval
  refine (mul_eq_zero.1 heval.symm).resolve_right (prod_ne_zero_iff.2 fun l hl => ?_)
  obtain ⟨hne, hl⟩ := mem_erase.1 hl
  exact sub_ne_zero.2 fun he => hne (hy hj hl he).symm

end

variable {k m : ℕ} {x y : ℕ → K}

/-- The row of symbol `i`: a unit row for `i < k`, then the rows of the matrix. -/
def codeRow (k : ℕ) (x y : ℕ → K) (i c : ℕ) : K :=
  if i < k then (if i = c then 1 else 0) else (x (i - k) - y c)⁻¹

/-- **The code is MDS.**  Data that any `k` different symbols find zero is zero. -/
theorem eq_zero_of_codeRow (hx : Set.InjOn x (Set.Iio m)) (hy : Set.InjOn y (Set.Iio k))
    (hxy : ∀ i < m, ∀ j < k, x i ≠ y j) {chosen : Finset ℕ} (hchosen : ∀ i ∈ chosen, i < k + m)
    (hcard : chosen.card = k) {v : ℕ → K}
    (h : ∀ i ∈ chosen, ∑ c ∈ range k, codeRow k x y i c * v c = 0) : ∀ c < k, v c = 0 := by
  -- the data symbols among the chosen ones are zero, and the parity symbols determine the others
  have hdata : ∀ i ∈ chosen, i < k → v i = 0 := by
    intro i hi hik
    have hrow := h i hi
    simp only [codeRow, if_pos hik, ite_mul, one_mul, zero_mul] at hrow
    rwa [sum_ite_eq, if_pos (mem_range.2 hik)] at hrow
  set S := (range k).filter (· ∉ chosen) with hS
  set P := (range m).filter (k + · ∈ chosen) with hP
  have hparity : ∀ i ∈ P, ∑ j ∈ S, v j * (x i - y j)⁻¹ = 0 := by
    intro i hi
    have hrow := h (k + i) (mem_filter.1 hi).2
    simp only [codeRow, Nat.not_lt.2 (Nat.le_add_right k i), if_false, Nat.add_sub_cancel_left] at hrow
    rw [hS, sum_filter]
    refine Eq.trans (sum_congr rfl fun c hc => ?_) hrow
    by_cases hmem : c ∈ chosen
    · simp [hmem, hdata c hmem (mem_range.1 hc)]
    · simp [hmem, mul_comm]
  have hsplit : (range k).filter (· ∈ chosen) ∪ P.image (k + ·) = chosen := by
    ext i
    simp only [hP, mem_union, mem_filter, mem_range, mem_image]
    constructor
    · rintro (⟨-, hi⟩ | ⟨j, ⟨-, hj⟩, rfl⟩)
      · exact hi
      · exact hj
    · intro hi
      by_cases hik : i < k
      · exact .inl ⟨hik, hi⟩
      · have := hchosen i hi
        exact .inr ⟨i - k, ⟨by omega, by rwa [Nat.add_sub_cancel' (Nat.le_of_not_lt hik)]⟩, by omega⟩
  have hdisj : Disjoint ((range k).filter (· ∈ chosen)) (P.image (k + ·)) := by
    rw [disjoint_left]
    intro i hi hi'
    obtain ⟨j, -, rfl⟩ := mem_image.1 hi'
    have := mem_range.1 (mem_filter.1 hi).1
    omega
  have hle : S.card ≤ P.card := by
    have htotal := card_union_of_disjoint hdisj
    rw [hsplit, card_image_of_injective _ (add_right_injective k)] at htotal
    have hrange := card_filter_add_card_filter_not (s := range k) (p := (· ∈ chosen))
    rw [card_range, ← hS] at hrange
    omega
  have hfree := eq_zero_of_cauchy (x := x) (y := y) (v := v) (S := S) (P := P)
    (fun i hi j hj => hx (mem_range.1 (mem_filter.1 hi).1) (mem_range.1 (mem_filter.1 hj).1))
    (fun i hi j hj => hy (mem_range.1 (mem_filter.1 hi).1) (mem_range.1 (mem_filter.1 hj).1))
    (fun i hi j hj => hxy i (mem_range.1 (mem_filter.1 hi).1) j (mem_range.1 (mem_filter.1 hj).1))
    hle hparity
  intro c hc
  by_cases hmem : c ∈ chosen
  · exact hdata c hmem hc
  · exact hfree c (mem_filter.2 ⟨mem_range.2 hc, hmem⟩)

end Cauchy
end Lib
