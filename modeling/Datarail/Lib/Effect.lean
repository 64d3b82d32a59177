/-
# Calls that change a state and may stop

An `Action` runs on a state and either returns a value or stops: with an error
the caller sees, with a panic of the calling thread, or because the whole process
died inside the call.  Whatever the state had become by then stays.  Actions
compose with `do`; `bind_of_ok` and `bind_of_stop` run a composition, and
`bind_eq_ok` takes a composition that returned apart.  `Keeps` is the frame rule:
a part of the state that no step of a call touches is as it was.
-/

import Mathlib.Logic.Basic
import Mathlib.Tactic.Basic

namespace Lib

/-- Why a call did not return a value. -/
inductive Stop (ε : Type*) where
  | failed (error : ε)
  | panicked
  | died
  deriving DecidableEq, Repr

/-- How a call ends. -/
inductive Outcome (ε α : Type*) where
  | ok (value : α)
  | stop (why : Stop ε)
  deriving DecidableEq, Repr

/-- A call on a state `σ` with result `α` and errors `ε`. -/
structure Action (ε σ α : Type) where
  /-- Make the call. -/
  run : σ → Outcome ε α × σ

namespace Action

variable {ε σ α β : Type}

/-- Stop. -/
def halt (why : Stop ε) : Action ε σ α := ⟨fun s => (.stop why, s)⟩

/-- Read the state. -/
def read : Action ε σ σ := ⟨fun s => (.ok s, s)⟩

/-- Change the state. -/
def modify (f : σ → σ) : Action ε σ Unit := ⟨fun s => (.ok (), f s)⟩

/-- Run one call after the other; a stop skips the rest. -/
def andThen (x : Action ε σ α) (f : α → Action ε σ β) : Action ε σ β := ⟨fun s =>
  match x.run s with
  | (.ok a, t) => (f a).run t
  | (.stop w, t) => (.stop w, t)⟩

instance : Monad (Action ε σ) where
  pure a := ⟨fun s => (.ok a, s)⟩
  bind := andThen

@[simp] theorem run_pure (a : α) (s : σ) : (pure a : Action ε σ α).run s = (.ok a, s) := rfl

theorem run_bind (x : Action ε σ α) (f : α → Action ε σ β) (s : σ) : (x >>= f).run s = match x.run s with
      | (.ok a, t) => (f a).run t
      | (.stop w, t) => (.stop w, t) := rfl

variable {x : Action ε σ α} {f : α → Action ε σ β} {s t : σ}

theorem bind_of_ok {a : α} (h : x.run s = (.ok a, t)) : (x >>= f).run s = (f a).run t := by
  rw [run_bind, h]

theorem bind_of_stop {w : Stop ε} (h : x.run s = (.stop w, t)) : (x >>= f).run s = (.stop w, t) := by
  rw [run_bind, h]

@[simp] theorem read_bind (f : σ → Action ε σ β) (s : σ) : (read >>= f).run s = (f s).run s := rfl

@[simp] theorem modify_bind (g : σ → σ) (f : Unit → Action ε σ β) (s : σ) :
    (modify g >>= f).run s = (f ()).run (g s) := rfl

/-- A composition that returned: its first part returned, and so did the rest. -/
theorem bind_eq_ok {b : β} (h : (x >>= f).run s = (.ok b, t)) :
    ∃ a u, x.run s = (.ok a, u) ∧ (f a).run u = (.ok b, t) := by
  rcases hx : x.run s with ⟨o, u⟩
  cases o with
  | ok a => exact ⟨a, u, rfl, by rw [← h, bind_of_ok hx]⟩
  | stop w =>
    rw [bind_of_stop hx] at h
    cases h

/-- A composition that stopped: its first part did, or the rest after it. -/
theorem bind_eq_stop {w : Stop ε} (h : (x >>= f).run s = (.stop w, t)) :
    x.run s = (.stop w, t) ∨ ∃ a u, x.run s = (.ok a, u) ∧ (f a).run u = (.stop w, t) := by
  rcases hx : x.run s with ⟨o, u⟩
  cases o with
  | ok a => exact .inr ⟨a, u, rfl, by rw [← h, bind_of_ok hx]⟩
  | stop w' =>
    rw [bind_of_stop hx] at h
    cases h
    exact .inl rfl

/-- The call leaves a part of the state as it was, however it ends. -/
def Keeps {γ : Type*} (part : σ → γ) (x : Action ε σ α) : Prop := ∀ s, part (x.run s).2 = part s

namespace Keeps

variable {γ : Type*} {part : σ → γ}

theorem pure (a : α) : Keeps part (Pure.pure a : Action ε σ α) := fun _ => rfl

theorem halt (w : Stop ε) : Keeps part (Action.halt w : Action ε σ α) := fun _ => rfl

theorem read : Keeps part (Action.read : Action ε σ σ) := fun _ => rfl

theorem modify {g : σ → σ} (h : ∀ s, part (g s) = part s) : Keeps part (Action.modify g : Action ε σ Unit) := h

theorem bind (hx : Keeps part x) (hf : ∀ a, Keeps part (f a)) : Keeps part (x >>= f) := by
  intro s
  have h := hx s
  rw [run_bind]
  rcases hrun : x.run s with ⟨o, t⟩
  rw [hrun] at h
  cases o with
  | ok a => exact (hf a t).trans h
  | stop w => exact h

theorem map {δ : Type*} (g : γ → δ) (h : Keeps part x) : Keeps (fun s => g (part s)) x :=
  fun s => congrArg g (h s)

theorem ite {c : Prop} [Decidable c] {x y : Action ε σ α} (hx : Keeps part x) (hy : Keeps part y) :
    Keeps part (if c then x else y) := by
  split
  · exact hx
  · exact hy

end Keeps

end Action

end Lib
