/-
# A stream that is read in pieces

What one side of a reliable connection has written and the other side has not read yet.  A read returns
some of what is ahead, as much as the transport likes but not nothing, and at the end nothing.  The sizes it
likes are part of the state, so that a result for all pipes is one for all ways to split a stream.

`readExact` reads on until it has what it wants.  What it returns and what it leaves do not depend on the
sizes: `readExact_append`.
-/

import Mathlib.Data.List.Basic

namespace Lib

open List

/-- A stream to read. -/
structure Pipe (α : Type) where
  /-- What has been written and not read. -/
  ahead : List α
  /-- How much the next reads will return, at most. -/
  sizes : List ℕ

namespace Pipe

variable {α : Type}

/-- Read at most `n` symbols. -/
def read (p : Pipe α) (n : ℕ) : Pipe α × List α :=
  let size := min n (max 1 (p.sizes.headD n))
  (⟨p.ahead.drop size, p.sizes.tail⟩, p.ahead.take size)

/-- The rounds of `readExact`: `n` symbols are missing. -/
def readExactLoop : (rounds n : ℕ) → List α → Pipe α → Pipe α × Option (List α)
  | _, 0, acc, p => (p, some acc)
  | 0, _ + 1, _, p => (p, none)
  | rounds + 1, n + 1, acc, p =>
    match p.read (n + 1) with
    | (p, []) => (p, none)
    | (p, piece) => readExactLoop rounds (n + 1 - piece.length) (acc ++ piece) p

/-- Read `n` symbols, or find the end of the stream. -/
def readExact (p : Pipe α) (n : ℕ) : Pipe α × Option (List α) := readExactLoop n n [] p

theorem readExactLoop_append {rounds n : ℕ} (hrounds : n ≤ rounds) (acc w rest : List α) (sizes : List ℕ)
    (hw : w.length = n) : ∃ sizes', readExactLoop rounds n acc ⟨w ++ rest, sizes⟩ =
      (⟨rest, sizes'⟩, some (acc ++ w)) := by
  induction rounds generalizing n acc w sizes with
  | zero =>
    obtain rfl : n = 0 := by omega
    rw [length_eq_zero_iff.1 hw]
    exact ⟨sizes, by rw [readExactLoop, append_nil]; rfl⟩
  | succ rounds ih =>
    cases n with
    | zero =>
      rw [length_eq_zero_iff.1 hw]
      exact ⟨sizes, by rw [readExactLoop, append_nil]; rfl⟩
    | succ n =>
      set size := min (n + 1) (max 1 (sizes.headD (n + 1))) with hsize
      have hle : size ≤ w.length := by omega
      have hread : Pipe.read ⟨w ++ rest, sizes⟩ (n + 1) = (⟨w.drop size ++ rest, sizes.tail⟩, w.take size) := by
        rw [Pipe.read]
        simp only [← hsize, drop_append_of_le_length hle, take_append_of_le_length hle]
      have hpiece : (w.take size).length = size := by
        rw [length_take]
        omega
      obtain ⟨sizes', hrest⟩ := ih (n := n + 1 - size) (by omega) (acc ++ w.take size) (w.drop size)
        sizes.tail (by rw [length_drop]; omega)
      refine ⟨sizes', ?_⟩
      rw [readExactLoop, hread]
      cases hcut : w.take size with
      | nil =>
        rw [hcut] at hpiece
        exact absurd hpiece (by simp; omega)
      | cons x xs =>
        rw [hcut] at hpiece hrest
        simp only [hpiece, hrest, append_assoc, Prod.mk.injEq, Option.some.injEq, true_and]
        rw [← hcut, take_append_drop]

/-- **The splitting does not matter**: what comes next is read, and what follows is left. -/
theorem readExact_append (w rest : List α) (sizes : List ℕ) :
    ∃ sizes', readExact ⟨w ++ rest, sizes⟩ w.length = (⟨rest, sizes'⟩, some w) := by
  obtain ⟨sizes', h⟩ := readExactLoop_append (Nat.le_refl w.length) [] w rest sizes rfl
  exact ⟨sizes', h⟩

/-- At the end of the stream there is nothing to read. -/
theorem readExact_nil (n : ℕ) (sizes : List ℕ) : ((⟨[], sizes⟩ : Pipe α).readExact (n + 1)).2 = none := by
  simp [readExact, readExactLoop, read]

end Pipe

end Lib
