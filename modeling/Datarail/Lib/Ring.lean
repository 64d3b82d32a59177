/-
# Ring buffers

Positions in a stream that is written without end into a buffer of `capacity` cells, position `p` into cell
`p % capacity`.  A copy of several symbols is made in two parts, up to the end of the buffer and from its
start on (`slot`), and still puts each symbol into the cell of its position (`slot_eq`).

`Holds` says that the cells from one position to another hold the stream.  Writing further ahead does not
disturb it as long as the write is within `capacity` of the first position that is still needed.
-/

import Mathlib.Data.List.Basic
import Mathlib.Tactic.SplitIfs

namespace Lib
namespace Ring

variable {α : Type} {capacity pos len i lo hi q : ℕ} {cells stream : List α}

/-- The cell of symbol `i` when `len` symbols are copied to position `pos`: the first of them up to the end
of the buffer, the others to its start. -/
def slot (capacity pos len i : ℕ) : ℕ :=
  let start := pos % capacity
  let first := min len (capacity - start)
  if i < first then start + i else i - first

theorem slot_eq (hi : i < len) (hlen : len ≤ capacity) : slot capacity pos len i = (pos + i) % capacity := by
  have hstart : pos % capacity < capacity := Nat.mod_lt _ (by omega)
  rw [slot, ← Nat.mod_add_mod]
  generalize pos % capacity = start at hstart
  split_ifs with hfirst
  · exact (Nat.mod_eq_of_lt (by omega)).symm
  · rw [Nat.mod_eq_sub_mod (by omega), Nat.mod_eq_of_lt (by omega)]
    omega

/-- Positions within one capacity have different cells. -/
theorem mod_ne_mod (hlt : pos < q) (hq : q < pos + capacity) : pos % capacity ≠ q % capacity := by
  obtain ⟨d, rfl⟩ := Nat.exists_eq_add_of_lt hlt
  have hpos : pos % capacity < capacity := Nat.mod_lt _ (by omega)
  rw [Nat.add_assoc pos, ← Nat.mod_add_mod pos]
  generalize pos % capacity = start at hpos
  by_cases h : start + (d + 1) < capacity
  · rw [Nat.mod_eq_of_lt h]
    omega
  · rw [Nat.mod_eq_sub_mod (by omega), Nat.mod_eq_of_lt (by omega)]
    omega

/-- The cells of the positions from `lo` to `hi` hold the stream. -/
def Holds (cells : List α) (capacity lo hi : ℕ) (stream : List α) : Prop :=
  ∀ p, lo ≤ p → p < hi → cells[p % capacity]? = stream[p]?

/-- A write ahead of what is held, within one capacity of its start. -/
theorem Holds.set (h : Holds cells capacity lo hi stream) (hq : hi ≤ q) (hfree : q < lo + capacity) (x : α) :
    Holds (cells.set (q % capacity) x) capacity lo hi stream := by
  intro p hlo hhi
  rw [List.getElem?_set_ne (mod_ne_mod (show p < q by omega) (by omega)).symm]
  exact h p hlo hhi


/-- What is held, and more behind it. -/
theorem Holds.append (h : Holds cells capacity lo stream.length stream) (more : List α)
    (hmore : ∀ i < more.length, cells[(stream.length + i) % capacity]? = more[i]?) :
    Holds cells capacity lo (stream ++ more).length (stream ++ more) := by
  intro p hlo hhi
  rw [List.length_append] at hhi
  by_cases hp : p < stream.length
  · rw [List.getElem?_append_left hp]
    exact h p hlo hp
  · obtain ⟨i, rfl⟩ := Nat.exists_eq_add_of_le (Nat.not_lt.1 hp)
    rw [List.getElem?_append_right (Nat.le_add_right _ _), Nat.add_sub_cancel_left]
    exact hmore i (by omega)

end Ring
end Lib
