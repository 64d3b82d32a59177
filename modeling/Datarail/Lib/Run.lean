/-
# Runs of a state machine

A `Machine` answers each request from its state and moves to the next state.
`final` is the state a list of requests leads to, `trace` what was asked and
answered on the way.  `Guarded ok` says that every step of a run starts in a
state where `ok` holds of the request made there.

`invariant_of_step` is the only induction over runs the development needs: a
property of the trace so far and the state, true before the first request and
kept by every guarded step, holds at the end of every guarded run.
-/

import Mathlib.Data.List.Basic

namespace Lib

/-- A deterministic machine: state `σ`, requests `α`, answers `β`. -/
structure Machine (σ α β : Type*) where
  /-- One request: the next state and the answer. -/
  step : σ → α → σ × β

namespace Machine

variable {σ α β : Type*} (M : Machine σ α β)

/-- The state after a list of requests. -/
def final : σ → List α → σ
  | s, [] => s
  | s, a :: as => final (M.step s a).1 as

/-- The requests of a run, each with its answer. -/
def trace : σ → List α → List (α × β)
  | _, [] => []
  | s, a :: as => (a, (M.step s a).2) :: trace (M.step s a).1 as

/-- Every request of the run meets `ok` in the state it is made in. -/
def Guarded (ok : σ → α → Prop) : σ → List α → Prop
  | _, [] => True
  | s, a :: as => ok s a ∧ Guarded ok (M.step s a).1 as

instance decidableGuarded (ok : σ → α → Prop) [∀ s a, Decidable (ok s a)] : ∀ s as, Decidable (M.Guarded ok s as)
  | _, [] => inferInstanceAs (Decidable True)
  | s, a :: as =>
    haveI := decidableGuarded ok (M.step s a).1 as
    inferInstanceAs (Decidable (ok s a ∧ M.Guarded ok (M.step s a).1 as))

@[simp] theorem final_nil (s : σ) : M.final s [] = s := rfl

@[simp] theorem final_cons (s : σ) (a : α) (as : List α) : M.final s (a :: as) = M.final (M.step s a).1 as := rfl

@[simp] theorem trace_nil (s : σ) : M.trace s [] = [] := rfl

@[simp] theorem trace_cons (s : σ) (a : α) (as : List α) :
    M.trace s (a :: as) = (a, (M.step s a).2) :: M.trace (M.step s a).1 as := rfl

@[simp] theorem final_append (s : σ) (as bs : List α) : M.final s (as ++ bs) = M.final (M.final s as) bs := by
  induction as generalizing s with
  | nil => rfl
  | cons a as ih => simp [ih]

@[simp] theorem trace_append (s : σ) (as bs : List α) :
    M.trace s (as ++ bs) = M.trace s as ++ M.trace (M.final s as) bs := by
  induction as generalizing s with
  | nil => rfl
  | cons a as ih => simp [ih]

@[simp] theorem length_trace (s : σ) (as : List α) : (M.trace s as).length = as.length := by
  induction as generalizing s with
  | nil => rfl
  | cons a as ih => simp [ih]

@[simp] theorem map_fst_trace (s : σ) (as : List α) : (M.trace s as).map Prod.fst = as := by
  induction as generalizing s with
  | nil => rfl
  | cons a as ih => simp [ih]

theorem trace_take (s : σ) (as : List α) (n : ℕ) : M.trace s (as.take n) = (M.trace s as).take n := by
  induction as generalizing s n with
  | nil => simp
  | cons a as ih => cases n <;> simp [ih]

/-- The entry of a trace at a position. -/
theorem getElem?_trace (s : σ) (as : List α) (k : ℕ) :
    (M.trace s as)[k]? = as[k]?.map fun a => (a, (M.step (M.final s (as.take k)) a).2) := by
  induction as generalizing s k with
  | nil => simp
  | cons a as ih => cases k <;> simp [ih]

variable {as : List α} {s : σ}

/-- One request further. -/
theorem final_take_succ {k : ℕ} {a : α} (h : as[k]? = some a) :
    M.final s (as.take (k + 1)) = (M.step (M.final s (as.take k)) a).1 := by
  rw [List.take_add_one, h, Option.toList_some, final_append, final_cons, final_nil]

variable {ok : σ → α → Prop}

theorem guarded_append (s : σ) (as bs : List α) :
    M.Guarded ok s (as ++ bs) ↔ M.Guarded ok s as ∧ M.Guarded ok (M.final s as) bs := by
  induction as generalizing s with
  | nil => simp [Guarded]
  | cons a as ih => simp [Guarded, ih, and_assoc]

theorem guarded_take (h : M.Guarded ok s as) (k : ℕ) :
    M.Guarded ok s (as.take k) := by
  rw [← List.take_append_drop k as, guarded_append] at h
  exact h.1

/-- Each step is allowed where the steps before it lead. -/
theorem ok_of_guarded (h : M.Guarded ok s as) {k : ℕ} {a : α}
    (ha : as[k]? = some a) : ok (M.final s (as.take k)) a := by
  have htake := M.guarded_take h (k + 1)
  rw [List.take_add_one, ha, Option.toList_some, guarded_append] at htake
  exact htake.2.1

/-- A run is guarded if each of its requests is, in the state its predecessors lead to. -/
theorem guarded_of_take (s : σ) (as : List α)
    (h : ∀ k a, as[k]? = some a → ok (M.final s (as.take k)) a) : M.Guarded ok s as := by
  induction as generalizing s with
  | nil => trivial
  | cons a as ih =>
    refine ⟨h 0 a rfl, ih _ fun k b hb => ?_⟩
    exact h (k + 1) b hb

/-- **The invariant rule.**  `Inv h s` relates the trace `h` so far to the
state `s`; if each guarded step extends it, a guarded run keeps it. -/
theorem invariant_of_step (ok : σ → α → Prop) (Inv : List (α × β) → σ → Prop)
    (hstep : ∀ h s a, ok s a → Inv h s → Inv (h ++ [(a, (M.step s a).2)]) (M.step s a).1)
    (s : σ) (as : List α) (h : List (α × β)) (hok : M.Guarded ok s as) (hs : Inv h s) :
    Inv (h ++ M.trace s as) (M.final s as) := by
  induction as generalizing s h with
  | nil => simpa using hs
  | cons a as ih =>
    have := ih _ _ hok.2 (hstep h s a hok.1 hs)
    simpa using this

/-- **The progress rule.**  If from every state with the invariant some guarded run keeps it and makes `μ` smaller,
as long as `μ` is not zero, then some guarded run brings `μ` to zero. -/
theorem exists_run_of_progress (ok : σ → α → Prop) (Inv : List (α × β) → σ → Prop) (μ : List (α × β) → ℕ)
    (hprogress : ∀ h s, Inv h s → μ h ≠ 0 → ∃ as, M.Guarded ok s as ∧
      Inv (h ++ M.trace s as) (M.final s as) ∧ μ (h ++ M.trace s as) < μ h)
    {h : List (α × β)} (hs : Inv h s) :
    ∃ as, M.Guarded ok s as ∧ Inv (h ++ M.trace s as) (M.final s as) ∧ μ (h ++ M.trace s as) = 0 := by
  induction hμ : μ h using Nat.strongRecOn generalizing h s with
  | ind n ih =>
    by_cases hzero : μ h = 0
    · exact ⟨[], trivial, by simpa using hs, by simpa using hzero⟩
    · obtain ⟨as, hok, hinv, hlt⟩ := hprogress h s hs hzero
      obtain ⟨bs, hok', hinv', hdone⟩ := ih _ (hμ ▸ hlt) hinv rfl
      refine ⟨as ++ bs, (M.guarded_append s as bs).2 ⟨hok, hok'⟩, ?_, ?_⟩
      · simpa using hinv'
      · simpa using hdone

/-- **The simulation rule.**  Two machines that answer alike from related states, and stay related, have
the same traces. -/
theorem simulation {τ : Type*} (N : Machine τ α β) (R : σ → τ → Prop)
    (hstep : ∀ s t a, R s t → (M.step s a).2 = (N.step t a).2 ∧ R (M.step s a).1 (N.step t a).1)
    {t : τ} (h : R s t) (as : List α) :
    M.trace s as = N.trace t as ∧ R (M.final s as) (N.final t as) := by
  induction as generalizing s t with
  | nil => exact ⟨rfl, h⟩
  | cons a as ih =>
    obtain ⟨hanswer, hnext⟩ := hstep s t a h
    obtain ⟨htrace, hfinal⟩ := ih hnext
    exact ⟨by rw [trace_cons, trace_cons, hanswer, htrace], hfinal⟩

/-- Machines that agree on the steps of a guarded run have the same run. -/
theorem run_congr (N : Machine σ α β) (hstep : ∀ s a, ok s a → N.step s a = M.step s a) (hok : M.Guarded ok s as) :
    N.trace s as = M.trace s as ∧ N.final s as = M.final s as := by
  induction as generalizing s with
  | nil => exact ⟨rfl, rfl⟩
  | cons a as ih =>
    obtain ⟨htrace, hfinal⟩ := ih hok.2
    rw [trace_cons, trace_cons, final_cons, final_cons, hstep s a hok.1]
    exact ⟨by rw [htrace], hfinal⟩

/-- A run that is guarded by nothing is guarded. -/
theorem guarded_true (s : σ) (as : List α) : M.Guarded (fun _ _ => True) s as := by
  induction as generalizing s with
  | nil => trivial
  | cons a as ih => exact ⟨trivial, ih _⟩

end Machine

end Lib
