/-
# Gauss-Jordan elimination

The inverse of a square matrix by row operations on `[matrix | 1]`, column by column: find a row at or
below the diagonal with a nonzero entry, swap it up, normalise it, and clear the column in every other
row.  A matrix is a list of rows and `entry` reads it.  Reciprocals are a parameter, which need be right
on nonzero elements only.

Each column is one step on the two halves at once.  `Reducing` is what the steps keep: the right half
times the matrix is the left half, the left half kills nothing but zero, and its first columns are
unit columns.  So a matrix that kills nothing but zero is inverted (`invert_eq_some`).
-/

import Mathlib.Data.List.GetD
import Mathlib.LinearAlgebra.Matrix.NonsingularInverse

namespace Lib
namespace Elimination

open Finset

variable {K : Type} [Field K] [DecidableEq K]

/-! ## The algorithm -/

/-- The entry in row `r` and column `c`. -/
def entry (a : List (List K)) (r c : ℕ) : K := (a.getD r []).getD c 0

/-- Exchange two rows. -/
def swap (a : List (List K)) (i j : ℕ) : List (List K) := (a.set i (a.getD j [])).set j (a.getD i [])

/-- Multiply a row. -/
def scale (a : List (List K)) (i : ℕ) (p : K) : List (List K) := a.set i ((a.getD i []).map (· * p))

/-- Take `f r` times row `i` from every other row `r`. -/
def clear (a : List (List K)) (i : ℕ) (f : ℕ → K) : List (List K) :=
  a.mapIdx fun r row =>
    if r = i then row
    else if f r = 0 then row
    else List.zipWith (fun x y => x - f r * y) row (a.getD i [])

/-- The unit matrix. -/
def identity (n : ℕ) : List (List K) := (List.range n).map fun i => (List.replicate n 0).set i 1

/-- One column of both halves. -/
def eliminate (recip : K → K) (n : ℕ) : List (List K) × List (List K) → ℕ → Option (List (List K) × List (List K))
  | (matrix, inv), col => do
      let pivot ← (List.range' col (n - col)).find? fun r => entry matrix r col ≠ 0
      let matrix := swap matrix col pivot
      let inv := swap inv col pivot
      let p := recip (entry matrix col col)
      let matrix := scale matrix col p
      let inv := scale inv col p
      let factor := fun r => entry matrix r col
      some (clear matrix col factor, clear inv col factor)

/-- The inverse of a matrix, `none` if some column has no pivot. -/
def invert (recip : K → K) (matrix : List (List K)) : Option (List (List K)) :=
  let n := matrix.length
  ((List.range n).foldlM (eliminate recip n) (matrix, identity n)).map Prod.snd

/-! ## What the row operations do to the entries -/

/-- `n` rows of `n` entries. -/
def Square (n : ℕ) (a : List (List K)) : Prop := a.length = n ∧ ∀ row ∈ a, row.length = n

variable {n i j r c : ℕ} {a : List (List K)} {p : K} {f : ℕ → K}

omit [Field K] [DecidableEq K] in
theorem Square.length_getD (h : Square n a) (hr : r < n) : (a.getD r []).length = n := by
  rw [List.getD_eq_getElem _ _ (h.1.symm ▸ hr)]
  exact h.2 _ (List.getElem_mem _)

omit [Field K] [DecidableEq K] in
theorem Square.set (h : Square n a) {row : List K} (hrow : row.length = n) : Square n (a.set i row) := by
  refine ⟨by rw [List.length_set, h.1], fun q hq => ?_⟩
  rcases List.mem_or_eq_of_mem_set hq with hq | rfl
  · exact h.2 q hq
  · exact hrow

omit [Field K] [DecidableEq K] in
theorem square_swap (h : Square n a) (hi : i < n) (hj : j < n) : Square n (swap a i j) :=
  (h.set (h.length_getD hj)).set (h.length_getD hi)

omit [DecidableEq K] in
theorem square_scale (h : Square n a) (hi : i < n) : Square n (scale a i p) :=
  h.set (by rw [List.length_map, h.length_getD hi])

theorem square_clear (h : Square n a) (hi : i < n) : Square n (clear a i f) := by
  refine ⟨by rw [clear, List.length_mapIdx, h.1], fun row hrow => ?_⟩
  obtain ⟨r, hr, rfl⟩ := List.mem_mapIdx.1 hrow
  have hlen : a[r].length = n := h.2 _ (List.getElem_mem _)
  split_ifs
  · exact hlen
  · exact hlen
  · rw [List.length_zipWith, hlen, h.length_getD hi, min_self]

omit [DecidableEq K] in
theorem square_identity : Square n (identity n : List (List K)) := by
  refine ⟨by simp [identity], fun row hrow => ?_⟩
  obtain ⟨i, -, rfl⟩ := List.mem_map.1 hrow
  simp

omit [DecidableEq K] in
theorem entry_set (row : List K) (hr : r < a.length) :
    entry (a.set i row) r c = if r = i then row.getD c 0 else entry a r c := by
  by_cases h : i = r
  · subst h
    simp [entry, hr]
  · simp [h, Ne.symm h, entry]

/-- Row `j` moves to `i` and row `i` to `j`. -/
def exchange (i j r : ℕ) : ℕ := if r = j then i else if r = i then j else r

@[simp] theorem exchange_left (i j : ℕ) : exchange i j i = j := by
  rw [exchange, if_pos rfl]
  split_ifs with h
  · exact h
  · rfl

omit [DecidableEq K] in
theorem entry_swap (h : Square n a) (hr : r < n) : entry (swap a i j) r c = entry a (exchange i j r) c := by
  rw [swap, entry_set _ (by rw [List.length_set, h.1]; exact hr), entry_set _ (h.1.symm ▸ hr), exchange]
  split_ifs <;> rfl

omit [DecidableEq K] in
theorem entry_scale (h : Square n a) (hr : r < n) (hi : i < n) (hc : c < n) :
    entry (scale a i p) r c = if r = i then entry a i c * p else entry a r c := by
  have hlen := h.length_getD hi
  rw [scale, entry_set _ (h.1.symm ▸ hr)]
  congr 1
  rw [List.getD_eq_getElem _ _ (by rw [List.length_map, hlen]; exact hc), List.getElem_map, entry,
    List.getD_eq_getElem _ 0 (hlen.symm ▸ hc)]

theorem entry_clear (h : Square n a) (hr : r < n) (hi : i < n) (hc : c < n) :
    entry (clear a i f) r c = if r = i then entry a i c else entry a r c - f r * entry a i c := by
  have hra : r < a.length := h.1.symm ▸ hr
  have hrow : a.getD r [] = a[r] := List.getD_eq_getElem _ _ hra
  have hget : (clear a i f).getD r [] = if r = i then a[r] else if f r = 0 then a[r] else
      List.zipWith (fun x y => x - f r * y) a[r] (a.getD i []) := by
    rw [List.getD_eq_getElem _ _ (by rw [clear, List.length_mapIdx]; exact hra)]
    simp only [clear, List.getElem_mapIdx]
  rw [entry, hget]
  by_cases hri : r = i
  · subst hri
    rw [if_pos rfl, if_pos rfl, entry, hrow]
  · rw [if_neg hri, if_neg hri]
    by_cases hf : f r = 0
    · rw [if_pos hf, hf, zero_mul, sub_zero, entry, hrow]
    · have hl : c < a[r].length := by rw [h.2 _ (List.getElem_mem _)]; exact hc
      have hl' : c < (a.getD i []).length := by rw [h.length_getD hi]; exact hc
      rw [if_neg hf, List.getD_eq_getElem _ _ (by rw [List.length_zipWith]; omega), List.getElem_zipWith,
        entry, entry, hrow, List.getD_eq_getElem _ 0 hl, List.getD_eq_getElem _ 0 hl']

omit [DecidableEq K] in
theorem entry_identity (hr : r < n) (hc : c < n) : entry (identity n : List (List K)) r c = if r = c then 1 else 0 := by
  have hrow : (identity n : List (List K)).getD r [] = (List.replicate n 0).set r 1 := by
    rw [List.getD_eq_getElem _ _ (by simpa [identity] using hr)]
    simp [identity]
  rw [entry, hrow, List.getD_eq_getElem _ _ (by simpa using hc), List.getElem_set]
  simp

/-! ## One column -/

/-- The entries of one half after its column: row `pivot` normalised by `p` at `col`, and a multiple of it
taken from every other row. -/
theorem entry_step (h : Square n a) {col pivot : ℕ} (hcol : col < n) (hpivot : pivot < n) (hr : r < n) (hc : c < n) :
    entry (clear (scale (swap a col pivot) col p) col f) r c = if r = col then entry a pivot c * p
      else entry a (exchange col pivot r) c - f r * (entry a pivot c * p) := by
  have hs := square_swap h hcol hpivot
  rw [entry_clear (square_scale hs hcol) hr hcol hc, entry_scale hs hcol hcol hc, if_pos rfl,
    entry_swap h hcol, exchange_left]
  by_cases hne : r = col
  · rw [if_pos hne, if_pos hne]
  · rw [if_neg hne, if_neg hne, entry_scale hs hr hcol hc, if_neg hne, entry_swap h hr]

/-- A matrix that sends no vector but zero to zero. -/
def Regular (n : ℕ) (a : ℕ → ℕ → K) : Prop :=
  ∀ v : ℕ → K, (∀ r < n, ∑ c ∈ range n, a r c * v c = 0) → ∀ c < n, v c = 0

/-- Both halves before column `col`. -/
structure Reducing (n : ℕ) (a : ℕ → ℕ → K) (col : ℕ) (s : List (List K) × List (List K)) : Prop where
  left : Square n s.1
  right : Square n s.2
  /-- The right half times the matrix is the left half. -/
  product : ∀ r < n, ∀ c < n, entry s.1 r c = ∑ j ∈ range n, entry s.2 r j * a j c
  regular : Regular n (entry s.1)
  /-- The columns that are done are unit columns. -/
  unit : ∀ r < n, ∀ c < col, entry s.1 r c = if r = c then 1 else 0

variable {m : ℕ → ℕ → K} {col : ℕ} {s : List (List K) × List (List K)}

omit [DecidableEq K] in
/-- A regular matrix has a pivot in every column. -/
theorem Reducing.exists_pivot (h : Reducing n m col s) (hcol : col < n) :
    ∃ pivot, col ≤ pivot ∧ pivot < n ∧ entry s.1 pivot col ≠ 0 := by
  by_contra hnone
  push Not at hnone
  -- otherwise the column is a combination of the unit columns before it
  have hzero := h.regular (fun c => if c < col then -entry s.1 c col else if c = col then 1 else 0) ?_ col hcol
  · simp at hzero
  intro r hr
  have hsum : ∀ c ∈ range n, entry s.1 r c * (if c < col then -entry s.1 c col else if c = col then 1 else 0) =
      (if c = r then (if r < col then -entry s.1 r col else 0) else 0) + if c = col then entry s.1 r col else 0 := by
    intro c hc
    by_cases hlt : c < col
    · rw [if_pos hlt, h.unit r hr c hlt, if_neg (by omega : ¬c = col), add_zero]
      by_cases hrc : r = c
      · subst hrc
        simp [hlt]
      · simp [hrc, Ne.symm hrc]
    · rw [if_neg hlt]
      by_cases heq : c = col
      · subst heq
        by_cases hrc : c = r
        · subst hrc
          simp
        · simp [hrc]
      · rw [if_neg heq, if_neg heq, mul_zero, add_zero]
        by_cases hrc : c = r
        · subst hrc
          simp [hlt]
        · simp [hrc]
  rw [sum_congr rfl hsum, sum_add_distrib, sum_ite_eq' (range n) r, sum_ite_eq' (range n) col,
    if_pos (mem_range.2 hr), if_pos (mem_range.2 hcol)]
  split_ifs with hlt
  · exact neg_add_cancel _
  · rw [zero_add]
    exact hnone r (Nat.le_of_not_lt hlt) hr

/-- **One column keeps `Reducing`.** -/
theorem Reducing.step (h : Reducing n m col s) (hcol : col < n) {pivot : ℕ} (hle : col ≤ pivot)
    (hlt : pivot < n) (hf : ∀ r < n, r ≠ col → f r = entry s.1 (exchange col pivot r) col)
    (hpivot : entry s.1 pivot col * p = 1) :
    Reducing n m (col + 1) (clear (scale (swap s.1 col pivot) col p) col f,
      clear (scale (swap s.2 col pivot) col p) col f) := by
  have hpne : p ≠ 0 := right_ne_zero_of_mul_eq_one hpivot
  have hex : ∀ r < n, exchange col pivot r < n := by
    intro r hr
    rw [exchange]
    split_ifs <;> assumption
  have hleft : ∀ r < n, ∀ c < n, entry (clear (scale (swap s.1 col pivot) col p) col f) r c = _ :=
    fun r hr c hc => entry_step h.left hcol hlt hr hc
  have hright : ∀ r < n, ∀ c < n, entry (clear (scale (swap s.2 col pivot) col p) col f) r c = _ :=
    fun r hr c hc => entry_step h.right hcol hlt hr hc
  refine ⟨square_clear (square_scale (square_swap h.left hcol hlt) hcol) hcol,
    square_clear (square_scale (square_swap h.right hcol hlt) hcol) hcol, ?_, ?_, ?_⟩
  · intro r hr c hc
    have hsum : ∑ j ∈ range n, entry (clear (scale (swap s.2 col pivot) col p) col f) r j * m j c =
        ∑ j ∈ range n, (if r = col then entry s.2 pivot j * p
          else entry s.2 (exchange col pivot r) j - f r * (entry s.2 pivot j * p)) * m j c :=
      sum_congr rfl fun j hj => by rw [hright r hr j (mem_range.1 hj)]
    rw [hsum, hleft r hr c hc]
    by_cases hrc : r = col
    · simp only [if_pos hrc]
      rw [h.product pivot hlt c hc, sum_mul]
      exact sum_congr rfl fun j _ => by ring
    · simp only [if_neg hrc]
      rw [h.product _ (hex r hr) c hc, h.product pivot hlt c hc, sum_mul, mul_sum, ← sum_sub_distrib]
      exact sum_congr rfl fun j _ => by ring
  · intro v hv
    -- the rows before are combinations of the rows after
    have htop : ∑ c ∈ range n, entry s.1 pivot c * v c = 0 := by
      have hrow := hv col hcol
      rw [sum_congr rfl fun c hc => by rw [hleft col hcol c (mem_range.1 hc), if_pos rfl]] at hrow
      have hfactor : p * ∑ c ∈ range n, entry s.1 pivot c * v c = 0 := by
        rw [← hrow, mul_sum]
        exact sum_congr rfl fun c _ => by ring
      exact (mul_eq_zero.1 hfactor).resolve_left hpne
    have hothers : ∀ r < n, r ≠ col → ∑ c ∈ range n, entry s.1 (exchange col pivot r) c * v c = 0 := by
      intro r hr hrc
      have hrow := hv r hr
      rw [sum_congr rfl fun c hc => by rw [hleft r hr c (mem_range.1 hc), if_neg hrc]] at hrow
      have hsplit : ∑ c ∈ range n, entry s.1 (exchange col pivot r) c * v c =
          ∑ c ∈ range n, (entry s.1 (exchange col pivot r) c - f r * (entry s.1 pivot c * p)) * v c +
            f r * p * ∑ c ∈ range n, entry s.1 pivot c * v c := by
        rw [mul_sum, ← sum_add_distrib]
        exact sum_congr rfl fun c _ => by ring
      rw [hsplit, hrow, htop, mul_zero, add_zero]
    refine h.regular v fun r hr => ?_
    by_cases hrp : r = pivot
    · rw [hrp, htop]
    · by_cases hrc : r = col
      · have hcp : pivot ≠ col := fun he => hrp (hrc.trans he.symm)
        have := hothers pivot hlt hcp
        rwa [exchange, if_pos rfl, ← hrc] at this
      · have := hothers r hr hrc
        rwa [exchange, if_neg hrp, if_neg hrc] at this
  · intro r hr c hc
    rw [hleft r hr c (by omega)]
    by_cases hcc : c = col
    · subst hcc
      by_cases hrc : r = c
      · rw [if_pos hrc, if_pos hrc, hpivot]
      · rw [if_neg hrc, if_neg hrc, hf r hr hrc, hpivot, mul_one, sub_self]
    · have hc' : c < col := by omega
      have hpc : entry s.1 pivot c = 0 := by
        rw [h.unit pivot hlt c hc', if_neg (by omega)]
      rw [hpc, zero_mul, mul_zero, sub_zero]
      by_cases hrc : r = col
      · rw [if_pos hrc, if_neg (by omega)]
      · rw [if_neg hrc, h.unit _ (hex r hr) c hc', exchange]
        by_cases hrp : r = pivot
        · rw [if_pos hrp, if_neg (by omega), if_neg (by omega)]
        · rw [if_neg hrp, if_neg hrc]

variable {recip : K → K}

theorem Reducing.eliminate (h : Reducing n m col s) (hcol : col < n) (hrecip : ∀ x ≠ 0, x * recip x = 1) :
    ∃ s', eliminate recip n s col = some s' ∧ Reducing n m (col + 1) s' := by
  obtain ⟨q, hq, hqn, hqne⟩ := h.exists_pivot hcol
  rcases hfind : (List.range' col (n - col)).find? (fun r => decide (entry s.1 r col ≠ 0)) with _ | pivot
  · have := List.find?_eq_none.1 hfind q (List.mem_range'_1.2 ⟨hq, by omega⟩)
    simp [hqne] at this
  have hmem := List.mem_range'_1.1 (List.mem_of_find?_eq_some hfind)
  have hne : entry s.1 pivot col ≠ 0 := by simpa using List.find?_some hfind
  have hlt : pivot < n := by omega
  have hs := square_swap h.left hcol hlt
  refine ⟨_, ?_, h.step hcol hmem.1 hlt (p := recip (entry (swap s.1 col pivot) col col)) (f := fun r =>
    entry (scale (swap s.1 col pivot) col (recip (entry (swap s.1 col pivot) col col))) r col) ?_ ?_⟩
  · obtain ⟨matrix, inv⟩ := s
    simp only [Elimination.eliminate, hfind, Option.bind_eq_bind, Option.bind_some]
  · intro r hr hrc
    rw [entry_scale hs hr hcol hcol, if_neg hrc, entry_swap h.left hr]
  · rw [entry_swap h.left hcol, exchange_left]
    exact hrecip _ hne

/-- **Elimination inverts a regular matrix.** -/
theorem invert_eq_some (hrecip : ∀ x ≠ 0, x * recip x = 1) {matrix : List (List K)} (h : Square n matrix)
    (hregular : Regular n (entry matrix)) : ∃ inv, invert recip matrix = some inv ∧ Square n inv ∧
      ∀ r < n, ∀ c < n, ∑ j ∈ range n, entry inv r j * entry matrix j c = if r = c then 1 else 0 := by
  have hrun : ∀ col ≤ n, ∃ s, (List.range col).foldlM (eliminate recip n) (matrix, identity n) = some s ∧
      Reducing n (entry matrix) col s := by
    intro col
    induction col with
    | zero =>
      intro _
      refine ⟨_, rfl, h, square_identity, fun r hr c hc => ?_, hregular, by simp⟩
      rw [sum_congr rfl fun j hj => by rw [entry_identity hr (mem_range.1 hj)]]
      simp [hr]
    | succ col ih =>
      intro hcol
      obtain ⟨s, hs, hred⟩ := ih (by omega)
      obtain ⟨s', hstep, hred'⟩ := hred.eliminate (by omega) hrecip
      refine ⟨s', ?_, hred'⟩
      rw [List.range_succ, List.foldlM_append, hs]
      simpa using hstep
  obtain ⟨s, hs, hred⟩ := hrun n le_rfl
  refine ⟨s.2, ?_, hred.right, fun r hr c hc => ?_⟩
  · simp only [invert, h.1, hs, Option.map_some]
  · rw [← hred.product r hr c hc, hred.unit r hr c hc]

variable {a b : ℕ → ℕ → K}

omit [DecidableEq K] in
/-- A left inverse is a right inverse. -/
theorem right_inverse (h : ∀ r < n, ∀ c < n, ∑ j ∈ range n, a r j * b j c = if r = c then 1 else 0) :
    ∀ r < n, ∀ c < n, ∑ j ∈ range n, b r j * a j c = if r = c then 1 else 0 := by
  have hmul : (Matrix.of fun i j : Fin n => a i j) * (Matrix.of fun i j : Fin n => b i j) = 1 := by
    ext i j
    rw [Matrix.mul_apply, Matrix.one_apply]
    simpa [← Fin.sum_univ_eq_sum_range, Fin.ext_iff] using h i i.2 j j.2
  rw [mul_eq_one_comm] at hmul
  intro r hr c hc
  have hentry := congrFun (congrFun hmul ⟨r, hr⟩) ⟨c, hc⟩
  rw [Matrix.mul_apply, Matrix.one_apply] at hentry
  simpa [← Fin.sum_univ_eq_sum_range, Fin.ext_iff] using hentry

omit [DecidableEq K] in
/-- With the inverse at hand, `a · d = s` has the one solution `d = b · s`. -/
theorem solve_iff (h : ∀ r < n, ∀ c < n, ∑ j ∈ range n, b r j * a j c = if r = c then 1 else 0) {d s : ℕ → K} :
    (∀ r < n, s r = ∑ c ∈ range n, a r c * d c) ↔ ∀ j < n, d j = ∑ r ∈ range n, b j r * s r := by
  have hassoc : ∀ (x y : ℕ → ℕ → K) (w : ℕ → K) (i : ℕ), (∀ c < n, ∑ j ∈ range n, x i j * y j c = if i = c then 1 else 0) →
      i < n → ∑ j ∈ range n, x i j * ∑ c ∈ range n, y j c * w c = w i := by
    intro x y w i hxy hi
    calc ∑ j ∈ range n, x i j * ∑ c ∈ range n, y j c * w c = ∑ c ∈ range n, (∑ j ∈ range n, x i j * y j c) * w c := by
          simp only [mul_sum, sum_mul, mul_assoc]
          exact sum_comm
      _ = ∑ c ∈ range n, (if i = c then 1 else 0) * w c :=
          sum_congr rfl fun c hc => by rw [hxy c (mem_range.1 hc)]
      _ = w i := by simp [hi]
  constructor
  · intro hs j hj
    rw [sum_congr rfl fun r hr => by rw [hs r (mem_range.1 hr)], hassoc b a d j (h j hj) hj]
  · intro hd r hr
    rw [sum_congr rfl fun c hc => by rw [hd c (mem_range.1 hc)], hassoc a b s r (right_inverse h r hr) hr]

end Elimination
end Lib
