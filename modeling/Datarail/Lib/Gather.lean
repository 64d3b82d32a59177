/-
# Answers joined back by a key

A request lists items.  Each item that is not skipped is acted upon, the
outcomes are put into a table under the items' keys, and the answers are looked
up there (`gather`).  An item then gets its own outcome if no other item that
was acted upon has its key (`get_gather`), and only then: if the second of two
items with one key succeeds, so does, by the table, the first
(`nodup_of_own`).
-/

import Datarail.Lib.Collections
import Datarail.Lib.Effect

namespace Lib

open List

section Gather

variable {α K V ε σ : Type} [DecidableEq K] (skip : α → Bool) (key : α → K) (land : α → Action ε σ V)

/-- Act upon the items, one after the other, and keep the outcomes by key. -/
def gather : List α → Table K V → Action ε σ (Table K V)
  | [], results => pure results
  | a :: as, results =>
    if skip a then gather as results
    else do
      let v ← land a
      gather as (results.insert (key a) v)

/-- The outcome of each item, up to where a call stops. -/
def ownOutcomes : List α → σ → List (Option V)
  | [], _ => []
  | a :: as, s =>
    if skip a then none :: ownOutcomes as s
    else
      match (land a).run s with
      | (.ok v, t) => some v :: ownOutcomes as t
      | (.stop _, _) => []

/-- The outcomes with their keys. -/
def keyed : List α → List (Option V) → List (K × V)
  | a :: as, some v :: own => (key a, v) :: keyed as own
  | _ :: as, none :: own => keyed as own
  | _, _ => []

variable {skip key land} {as : List α} {s t : σ}

/-- **What was gathered**: the outcomes of all items, inserted in their order. -/
theorem gather_ok {m results : Table K V} (h : (gather skip key land as m).run s = (.ok results, t)) :
    results = (keyed key as (ownOutcomes skip land as s)).foldl (fun m u => m.insert u.1 u.2) m ∧
      (ownOutcomes skip land as s).length = as.length ∧
      (keyed key as (ownOutcomes skip land as s)).map Prod.fst = (as.filter fun a => !skip a).map key := by
  induction as generalizing m s with
  | nil =>
    cases h
    exact ⟨rfl, rfl, rfl⟩
  | cons a as ih =>
    rw [gather] at h
    by_cases hskip : skip a = true
    · rw [if_pos hskip] at h
      obtain ⟨hresults, hlen, hkeys⟩ := ih h
      rw [ownOutcomes, if_pos hskip, filter_cons_of_neg (by simp [hskip])]
      exact ⟨hresults, congrArg (· + 1) hlen, hkeys⟩
    · rw [if_neg hskip] at h
      obtain ⟨v, u, hland, hrest⟩ := Action.bind_eq_ok h
      obtain ⟨hresults, hlen, hkeys⟩ := ih hrest
      rw [ownOutcomes, if_neg hskip, hland, filter_cons_of_pos (by simpa using hskip)]
      exact ⟨hresults, congrArg (· + 1) hlen, congrArg (key a :: ·) hkeys⟩

variable {i : ℕ} {own : List (Option V)}

omit [DecidableEq K] in
theorem mem_keyed {a : α} {v : V} (ha : as[i]? = some a)
    (hv : own[i]? = some (some v)) : (key a, v) ∈ keyed key as own := by
  induction as generalizing own i with
  | nil => cases ha
  | cons b as ih =>
    cases own with
    | nil => cases hv
    | cons o own =>
      cases i with
      | zero =>
        cases ha
        cases hv
        exact mem_cons_self
      | succ i =>
        have hmem : (key a, v) ∈ keyed key as own := ih ha hv
        cases o with
        | none => exact hmem
        | some w => exact mem_cons_of_mem _ hmem

variable {results : Table K V}

/-- What is found under an item's key was put there by an item that was acted upon. -/
theorem get_gather_eq (h : (gather skip key land as .empty).run s = (.ok results, t)) (k : K) :
    results.get k = latest (keyed key as (ownOutcomes skip land as s)) k := by
  rw [(gather_ok h).1, Table.get_insertions, Table.get_empty, Option.or_none]

/-- **An item finds its own outcome**, if the keys are distinct. -/
theorem get_gather (h : (gather skip key land as .empty).run s = (.ok results, t))
    (hkeys : ((as.filter fun a => !skip a).map key).Nodup) {a : α} {v : V} (ha : as[i]? = some a)
    (hv : (ownOutcomes skip land as s)[i]? = some (some v)) : results.get (key a) = some v := by
  rw [get_gather_eq h]
  refine latest_of_nodup ?_ (mem_keyed ha hv)
  rw [(gather_ok h).2.2]
  exact hkeys

/-- An item has an outcome of its own if and only if it is not skipped. -/
theorem ownOutcomes_skipped {s : σ} {a : α} {o : Option V} (ha : as[i]? = some a)
    (ho : (ownOutcomes skip land as s)[i]? = some o) : skip a = true ↔ o = none := by
  induction as generalizing s i with
  | nil => cases ha
  | cons b as ih =>
    rw [ownOutcomes] at ho
    by_cases hskip : skip b = true
    · rw [if_pos hskip] at ho
      cases i with
      | zero =>
        cases ha
        cases ho
        exact ⟨fun _ => rfl, fun _ => hskip⟩
      | succ i => exact ih ha ho
    · rw [if_neg hskip] at ho
      rcases hland : (land b).run s with ⟨v | w, t⟩
      · rw [hland] at ho
        cases i with
        | zero =>
          cases ha
          cases ho
          exact ⟨fun h => absurd h hskip, nofun⟩
        | succ i => exact ih ha ho
      · rw [hland] at ho
        cases ho

omit [DecidableEq K] in
/-- What is kept under a key is the outcome of an item. -/
theorem exists_of_mem_keyed {u : K × V} (h : u ∈ keyed key as own) :
    ∃ (i : ℕ) (a : α), as[i]? = some a ∧ own[i]? = some (some u.2) ∧ key a = u.1 := by
  induction as generalizing own with
  | nil => cases h
  | cons b as ih =>
    rcases own with _ | ⟨_ | v, own⟩
    · cases h
    · obtain ⟨i, a, ha, hv, hk⟩ := @ih own h
      exact ⟨i + 1, a, ha, hv, hk⟩
    · rcases mem_cons.1 h with rfl | h
      · exact ⟨0, b, rfl, rfl, rfl⟩
      · obtain ⟨i, a, ha, hv, hk⟩ := @ih own h
        exact ⟨i + 1, a, ha, hv, hk⟩

/-- An outcome is what the call for its item returned. -/
theorem exists_run_of_ownOutcomes {s : σ} {v : V} (h : (ownOutcomes skip land as s)[i]? = some (some v)) :
    ∃ a t u, as[i]? = some a ∧ (land a).run t = (.ok v, u) := by
  induction as generalizing s i with
  | nil => cases h
  | cons b as ih =>
    rw [ownOutcomes] at h
    by_cases hskip : skip b = true
    · rw [if_pos hskip] at h
      cases i with
      | zero => cases h
      | succ i => exact ih h
    · rw [if_neg hskip] at h
      rcases hland : (land b).run s with ⟨w | w, t⟩
      · rw [hland] at h
        cases i with
        | zero =>
          cases h
          exact ⟨b, s, t, rfl, hland⟩
        | succ i => exact ih h
      · rw [hland] at h
        cases h

end Gather

section Converse

variable {α K V ε : Type} [DecidableEq K] {skip : α → Bool} {key : α → K} {good bad : V}

/-- Every call succeeds but the `n`-th. -/
def failAt (good bad : V) (n : ℕ) (_ : α) : Action ε ℕ V := ⟨fun s => (.ok (if s = n then bad else good), s + 1)⟩

theorem gather_failAt (n : ℕ) (as : List α) (m : Table K V) (s : ℕ) :
    ∃ results t, (gather skip key (failAt (ε := ε) good bad n) as m).run s = (.ok results, t) := by
  induction as generalizing m s with
  | nil => exact ⟨m, s, rfl⟩
  | cons a as ih =>
    rw [gather]
    by_cases hskip : skip a = true
    · rw [if_pos hskip]
      exact ih m s
    · rw [if_neg hskip]
      exact ih _ (s + 1)

omit [DecidableEq K] in
/-- After the `n`-th call, all succeed. -/
theorem good_of_mem_keyed {n : ℕ} {as : List α} {s : ℕ} (hs : n < s) {u : K × V}
    (hu : u ∈ keyed key as (ownOutcomes skip (failAt (ε := ε) good bad n) as s)) : u.2 = good := by
  induction as generalizing s with
  | nil => cases hu
  | cons a as ih =>
    rw [ownOutcomes] at hu
    by_cases hskip : skip a = true
    · rw [if_pos hskip] at hu
      exact ih hs hu
    · rw [if_neg hskip] at hu
      rcases mem_cons.1 hu with rfl | hu
      · exact if_neg (by omega)
      · exact ih (Nat.lt_succ_of_lt hs) hu

/-- **Only if the keys are distinct.**  If, whichever call fails, no item whose own call failed finds a
success under its key, no two items that are acted upon have one key. -/
theorem nodup_of_own (hne : bad ≠ good) {as : List α} {s : ℕ}
    (h : ∀ n, ∀ u ∈ keyed key as (ownOutcomes skip (failAt (ε := ε) good bad n) as s),
      latest (keyed key as (ownOutcomes skip (failAt (ε := ε) good bad n) as s)) u.1 = some good → u.2 = good) :
    ((as.filter fun a => !skip a).map key).Nodup := by
  induction as generalizing s with
  | nil => exact nodup_nil
  | cons a as ih =>
    by_cases hskip : skip a = true
    · rw [filter_cons_of_neg (by simp [hskip])]
      refine @ih s fun n u hu => ?_
      have := h n u
      rw [ownOutcomes, if_pos hskip] at this
      exact this hu
    · rw [filter_cons_of_pos (by simpa using hskip), map_cons, nodup_cons]
      have hcons : ∀ n, keyed key (a :: as) (ownOutcomes skip (failAt (ε := ε) good bad n) (a :: as) s) =
          (key a, if s = n then bad else good) ::
            keyed key as (ownOutcomes skip (failAt (ε := ε) good bad n) as (s + 1)) := by
        intro n
        rw [ownOutcomes, if_neg hskip]
        rfl
      refine ⟨fun hmem => ?_, @ih (s + 1) fun n u hu hlatest => ?_⟩
      · -- The call for the first item fails and a later one for its key succeeds.
        have hfirst := h s (key a, bad)
        rw [hcons, if_pos rfl] at hfirst
        refine hne (hfirst mem_cons_self ?_)
        obtain ⟨results, t, hrun⟩ := @gather_failAt α K V ε _ skip key good bad s as .empty (s + 1)
        rw [← (gather_ok hrun).2.2] at hmem
        rw [latest]
        rcases hlatest : latest (keyed key as (ownOutcomes skip (failAt (ε := ε) good bad s) as (s + 1))) (key a)
          with _ | v
        · exact absurd hmem (latest_eq_none_iff.1 hlatest)
        · have hv : v = good := good_of_mem_keyed (Nat.lt_succ_self s) (mem_of_latest hlatest)
          rw [hv]
          rfl
      · have hrest := h n u
        rw [hcons] at hrest
        refine hrest (mem_cons_of_mem _ hu) ?_
        rw [latest, hlatest]
        rfl

end Converse

end Lib
