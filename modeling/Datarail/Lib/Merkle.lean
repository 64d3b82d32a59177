/-
# Merkle trees with promoted nodes

A binary hash tree over a list of leaves, for any type of digests and any function `node` of two
children.  A level is paired up from the left, and a last node without a partner is promoted as it is
(`nextLevel`); the root is what is left when there is one node.  It is the hash that a recursion from the
root gives (`root_eq_treeHash`).  A path is a list of siblings with their sides, from the leaf to the root,
and `climb` hashes along it.

What a path proves depends on the pairs that were hashed, in the tree (`pairs`) and in the climb
(`climbPairs`).  If no two of them collide (`Separates`), a climb that ends in the root enters the tree at
some position, and from there on it is that position's own path (`exists_entry`).  If it has the sides of
a position's path, it starts at the leaf of that position (`getElem?_of_sides`).
-/

import Mathlib.Algebra.Group.Nat.Defs
import Mathlib.Data.List.Basic
import Mathlib.Order.Basic

namespace Lib
namespace Merkle

open List

variable {H S : Type*} (node : H → H → H)

/-- Pair the nodes up, and promote a last one without a partner. -/
def nextLevel : List H → List H
  | l :: r :: rest => node l r :: nextLevel rest
  | [x] => [x]
  | [] => []

/-- Go up level by level while there is more than one node, with a state that each level is shown to. -/
def ascend (step : List H → S → S) : ℕ → List H → S → List H × S
  | 0, level, s => (level, s)
  | fuel + 1, level, s =>
    if 1 < level.length then ascend step fuel (nextLevel node level) (step level s) else (level, s)

/-- The way up from the leaves.  A level of `n` nodes is reduced in less than `n` steps. -/
def ascent (step : List H → S → S) (level : List H) (s : S) : List H × S :=
  ascend node step level.length level s

/-- The root: there is none over no leaves. -/
def root (level : List H) : Option H := (ascent node (fun _ s => s) level ()).1.head?

/-- The size of the left subtree over `n` leaves: the largest power of two below `n`. -/
def splitSize (n : ℕ) : ℕ := 2 ^ (n - 1).log2

theorem splitSize_lt {n : ℕ} (h : 1 < n) : 0 < splitSize n ∧ splitSize n < n ∧ n ≤ 2 * splitSize n := by
  have hself := Nat.log2_self_le (n := n - 1) (by omega)
  have hlt := Nat.lt_log2_self (n := n - 1)
  unfold splitSize
  exact ⟨Nat.two_pow_pos _, by omega, by omega⟩

/-- The tree hash as a recursion from the root: the leaves are split behind `splitSize` of them. -/
def treeHash (empty : H) (leaves : List H) : H :=
  if 1 < leaves.length then
    node (treeHash empty (leaves.take (splitSize leaves.length))) (treeHash empty (leaves.drop (splitSize leaves.length)))
  else leaves.headD empty
termination_by leaves.length
decreasing_by all_goals have := splitSize_lt ‹_›; simp only [length_take, length_drop]; omega

/-- The sibling beside a position, with its side: none, if the node is promoted. -/
def siblings (level : List H) (i : ℕ) : List (H × Bool) :=
  if i % 2 = 0 then level[i + 1]?.toList.map (·, true) else level[i - 1]?.toList.map (·, false)

/-- What is found on the way up from a position. -/
def gather {A : Type*} (found : List H → ℕ → List A) (level : List H) (i : ℕ) : List A :=
  (ascent node (fun level s => (s.1 ++ found level s.2, s.2 / 2)) level ([], i)).2.1

/-- The path of a position. -/
def pathOf (level : List H) (i : ℕ) : List (H × Bool) := gather node siblings level i

/-- The pairs that `nextLevel` hashes. -/
def levelPairs : List H → List (H × H)
  | l :: r :: rest => (l, r) :: levelPairs rest
  | [_] => []
  | [] => []

/-- All pairs that are hashed in the tree. -/
def pairs (level : List H) : List (H × H) := gather node (fun level _ => levelPairs level) level 0

/-- The children of a step of a path. -/
def children (acc : H) (step : H × Bool) : H × H := if step.2 then (acc, step.1) else (step.1, acc)

/-- Hash along a path. -/
def climb (acc : H) (path : List (H × Bool)) : H :=
  path.foldl (fun acc step => node (children acc step).1 (children acc step).2) acc

/-- The pairs that are hashed along a path. -/
def climbPairs (acc : H) : List (H × Bool) → List (H × H)
  | [] => []
  | step :: path =>
    children acc step :: climbPairs (node (children acc step).1 (children acc step).2) path

/-- No two pairs of a list collide. -/
def Separates (hashed : List (H × H)) : Prop :=
  ∀ p ∈ hashed, ∀ q ∈ hashed, node p.1 p.2 = node q.1 q.2 → p = q

variable {node}

theorem Separates.mono {hashed hashed' : List (H × H)} (h : Separates node hashed) (hsub : hashed' ⊆ hashed) :
    Separates node hashed' := fun p hp q hq => h p (hsub hp) q (hsub hq)

section Level

theorem length_nextLevel (level : List H) : (nextLevel node level).length = (level.length + 1) / 2 := by
  induction level using nextLevel.induct with
  | case1 l r rest ih =>
    rw [nextLevel, length_cons, ih, length_cons, length_cons]
    omega
  | case2 x => rw [nextLevel, length_singleton]
  | case3 => rw [nextLevel, length_nil]

variable {level : List H}

variable (node) in
theorem length_nextLevel_lt (h : 1 < level.length) : (nextLevel node level).length < level.length := by
  rw [length_nextLevel]
  omega

/-- A node of the next level is the hash of two, or a promoted one. -/
theorem getElem?_nextLevel (level : List H) (j : ℕ) : (nextLevel node level)[j]? =
    level[2 * j]?.map fun l => level[2 * j + 1]?.elim l (node l) := by
  induction level using nextLevel.induct generalizing j with
  | case1 l r rest ih =>
    cases j with
    | zero => rfl
    | succ j =>
      rw [nextLevel, getElem?_cons_succ, ih, show 2 * (j + 1) = 2 * j + 1 + 1 by omega,
        getElem?_cons_succ, getElem?_cons_succ, getElem?_cons_succ, getElem?_cons_succ]
  | case2 x =>
    cases j with
    | zero => rfl
    | succ j =>
      rfl
  | case3 => rfl

/-- Neighbours are paired. -/
theorem mem_levelPairs {j : ℕ} {l r : H} (hl : level[2 * j]? = some l)
    (hr : level[2 * j + 1]? = some r) : (l, r) ∈ levelPairs level := by
  induction level using levelPairs.induct generalizing j with
  | case1 a b rest ih =>
    rw [levelPairs, mem_cons]
    cases j with
    | zero => exact .inl (Prod.ext (Option.some.inj hl).symm (Option.some.inj hr).symm)
    | succ j => exact .inr (ih hl hr)
  | case2 x => cases hr
  | case3 => cases hr

variable (node) in
/-- What becomes of a node on the next level: it is promoted, or hashed with its sibling. -/
theorem siblings_cases {i : ℕ} {x : H} (h : level[i]? = some x) :
    (siblings level i = [] ∧ (nextLevel node level)[i / 2]? = some x) ∨
    ∃ step, siblings level i = [step] ∧ children x step ∈ levelPairs level ∧
      (nextLevel node level)[i / 2]? = some (node (children x step).1 (children x step).2) := by
  rw [siblings, getElem?_nextLevel]
  split_ifs with heven
  · have hi : 2 * (i / 2) = i := by omega
    rw [hi, h]
    cases hr : level[i + 1]? with
    | none => exact .inl ⟨rfl, rfl⟩
    | some r =>
      have hmem : (x, r) ∈ levelPairs level := mem_levelPairs (j := i / 2) (by rwa [hi]) (by rwa [hi])
      exact .inr ⟨(r, true), rfl, hmem, rfl⟩
  · have hi : 2 * (i / 2) + 1 = i := by omega
    have hlt : 2 * (i / 2) < level.length := by
      have := (List.getElem?_eq_some_iff.1 h).1
      omega
    have hl := getElem?_eq_getElem hlt
    have hmem : (level[2 * (i / 2)], x) ∈ levelPairs level := mem_levelPairs hl (by rwa [hi])
    rw [show i - 1 = 2 * (i / 2) by omega, hi, hl, h]
    exact .inr ⟨(level[2 * (i / 2)], false), rfl, hmem, rfl⟩

variable (node) in
/-- **Induction on the levels of a tree.** -/
theorem level_induction {motive : List H → Prop} (base : ∀ level, level.length ≤ 1 → motive level)
    (up : ∀ level, 1 < level.length → motive (nextLevel node level) → motive level) (level : List H) :
    motive level := by
  induction hn : level.length using Nat.strongRecOn generalizing level with
  | _ n ih =>
    subst hn
    by_cases h : level.length ≤ 1
    · exact base level h
    · have hlt : 1 < level.length := by omega
      exact up level hlt (ih _ (length_nextLevel_lt node hlt) _ rfl)

end Level

section Ascent

variable {level : List H} {step : List H → S → S} {s : S}

theorem ascend_of_length_le_one (h : level.length ≤ 1) (fuel : ℕ) : ascend node step fuel level s = (level, s) := by
  cases fuel with
  | zero => rfl
  | succ fuel => rw [ascend, if_neg (by omega)]

/-- Once the fuel covers the level, more of it changes nothing. -/
theorem ascend_eq_ascent (level : List H) (s : S) {fuel : ℕ} (h : level.length ≤ fuel) :
    ascend node step fuel level s = ascent node step level s := by
  unfold ascent
  generalize hfuel : level.length = enough
  have henough : level.length ≤ enough := Nat.le_of_eq hfuel
  clear hfuel
  induction level using level_induction node generalizing s fuel enough with
  | base level hlen => rw [ascend_of_length_le_one hlen, ascend_of_length_le_one hlen]
  | up level hlen ih =>
    obtain ⟨fuel, rfl⟩ : ∃ k, fuel = k + 1 := ⟨fuel - 1, by omega⟩
    obtain ⟨enough, rfl⟩ : ∃ k, enough = k + 1 := ⟨enough - 1, by omega⟩
    have hlt := length_nextLevel_lt node hlen
    rw [ascend, ascend, if_pos hlen, if_pos hlen]
    exact ih _ (by omega) _ (by omega)

theorem ascent_of_length_le_one (h : level.length ≤ 1) : ascent node step level s = (level, s) :=
  ascend_of_length_le_one h _

theorem ascent_up (h : 1 < level.length) :
    ascent node step level s = ascent node step (nextLevel node level) (step level s) := by
  have hlt := length_nextLevel_lt node h
  obtain ⟨n, hn⟩ : ∃ n, level.length = n + 1 := ⟨level.length - 1, by omega⟩
  rw [ascent, hn, ascend, if_pos (by omega)]
  exact ascend_eq_ascent _ _ (by omega)

theorem root_up (level : List H) : root node level = root node (nextLevel node level) := by
  match level with
  | [] => rfl
  | [x] => rfl
  | l :: r :: rest =>
    rw [root, ascent_up (Nat.lt_add_of_pos_left (Nat.succ_pos _))]
    rfl

theorem nextLevel_append (l r : List H) (h : l.length % 2 = 0) :
    nextLevel node (l ++ r) = nextLevel node l ++ nextLevel node r := by
  induction l using nextLevel.induct with
  | case1 a b rest ih => exact congrArg (node a b :: ·) (ih ((Nat.add_mod_right _ 2).symm.trans h))
  | case2 x => cases h
  | case3 => rfl

/-- Over a full left subtree and a right one that is not larger, the root is the hash of their roots. -/
theorem root_append {l r : List H} {a b : H} {e : ℕ} (hl : l.length = 2 ^ e) (hr : r.length ≤ 2 ^ e)
    (ha : root node l = some a) (hb : root node r = some b) : root node (l ++ r) = some (node a b) := by
  induction e generalizing l r with
  | zero =>
    obtain ⟨x, rfl⟩ := length_eq_one_iff.1 hl
    match r with
    | [] => cases hb
    | [y] =>
      obtain rfl := Option.some.inj ha
      obtain rfl := Option.some.inj hb
      rfl
    | _ :: _ :: _ => exact absurd hr (by simp)
  | succ e ih =>
    rw [root_up] at ha hb ⊢
    rw [nextLevel_append l r (by omega)]
    exact ih (by rw [length_nextLevel]; omega) (by rw [length_nextLevel]; omega) ha hb

/-- **The level-by-level root is the recursive tree hash.** -/
theorem root_eq_treeHash (empty : H) {leaves : List H} (hne : leaves ≠ []) :
    root node leaves = some (treeHash node empty leaves) := by
  induction leaves using treeHash.induct with
  | case1 leaves hlen ihl ihr =>
    obtain ⟨hpos, hlt, hle⟩ := splitSize_lt hlen
    have hleft : (leaves.take (splitSize leaves.length)).length = splitSize leaves.length := by
      rw [length_take]
      omega
    rw [treeHash, if_pos hlen]
    conv_lhs => rw [← take_append_drop (splitSize leaves.length) leaves]
    have hright := length_drop (i := splitSize leaves.length) (l := leaves)
    refine root_append hleft (show _ ≤ splitSize _ by omega) (ihl ?_) (ihr ?_)
    · exact ne_nil_of_length_pos (by omega)
    · exact ne_nil_of_length_pos (by omega)
  | case2 leaves hlen =>
    obtain ⟨x, rfl⟩ := length_eq_one_iff.1 (Nat.le_antisymm (Nat.not_lt.1 hlen) (length_pos_iff.2 hne))
    rw [treeHash, if_neg hlen]
    rfl

section Gather

variable {A : Type*} (found : List H → ℕ → List A)

theorem gather_append (level : List H) (i : ℕ) (acc : List A) :
    (ascent node (fun level s => (s.1 ++ found level s.2, s.2 / 2)) level (acc, i)).2.1 =
      acc ++ gather node found level i := by
  unfold gather
  induction level using level_induction node generalizing acc i with
  | base level hlen => rw [ascent_of_length_le_one hlen, ascent_of_length_le_one hlen, append_nil]
  | up level hlen ih =>
    rw [ascent_up hlen, ascent_up hlen, ih, ih _ ([] ++ _), nil_append, append_assoc]

theorem gather_of_length_le_one (h : level.length ≤ 1) (i : ℕ) : gather node found level i = [] := by
  rw [gather, ascent_of_length_le_one h]

theorem gather_up (h : 1 < level.length) (i : ℕ) :
    gather node found level i = found level i ++ gather node found (nextLevel node level) (i / 2) := by
  rw [gather, ascent_up h, gather_append, nil_append]

end Gather

theorem pathOf_up (h : 1 < level.length) (i : ℕ) :
    pathOf node level i = siblings level i ++ pathOf node (nextLevel node level) (i / 2) :=
  gather_up _ h i

theorem pairs_up (h : 1 < level.length) : pairs node level = levelPairs level ++ pairs node (nextLevel node level) :=
  gather_up _ h 0

end Ascent

section Climb

variable {acc : H} {level : List H}

theorem climb_append (acc : H) (lower upper : List (H × Bool)) :
    climb node acc (lower ++ upper) = climb node (climb node acc lower) upper := foldl_append

theorem climb_concat (acc : H) (lower : List (H × Bool)) (step : H × Bool) : climb node acc (lower ++ [step]) =
      node (children (climb node acc lower) step).1 (children (climb node acc lower) step).2 :=
  climb_append acc lower [step]

theorem climbPairs_append (acc : H) (lower upper : List (H × Bool)) : climbPairs node acc (lower ++ upper) =
      climbPairs node acc lower ++ climbPairs node (climb node acc lower) upper := by
  induction lower generalizing acc with
  | nil => rfl
  | cons step lower ih => exact congrArg (children acc step :: ·) (ih _)

/-- The last pair of a climb. -/
theorem mem_climbPairs_concat (acc : H) (lower : List (H × Bool)) (step : H × Bool) (upper : List (H × Bool)) :
    children (climb node acc lower) step ∈ climbPairs node acc (lower ++ step :: upper) := by
  rw [climbPairs_append]
  exact mem_append_right _ mem_cons_self

/-- The path of a leaf leads to the root. -/
theorem climb_pathOf {i : ℕ} (h : level[i]? = some acc) : root node level = some (climb node acc (pathOf node level i)) := by
  induction level using level_induction node generalizing i acc with
  | base level hlen =>
    have hi := (List.getElem?_eq_some_iff.1 h).1
    obtain ⟨x, rfl⟩ := length_eq_one_iff.1 (show level.length = 1 by omega)
    obtain rfl : i = 0 := by rw [length_singleton] at hi; omega
    obtain rfl := Option.some.inj h
    rfl
  | up level hlen ih =>
    rw [root_up level, pathOf_up hlen, climb_append]
    refine ih ?_
    rcases siblings_cases node h with ⟨hnone, hnext⟩ | ⟨step, hstep, -, hnext⟩
    · rw [hnone, hnext]
      rfl
    · rw [hstep, hnext]
      rfl

variable {path : List (H × Bool)}

/-- **Where a climb enters the tree.**  If it ends in the root, no two of the pairs hashed collide and it does
not start at an interior node, then at some point it passes through a leaf, and from there on it is the path
of that leaf. -/
theorem exists_entry (hroot : root node level = some (climb node acc path))
    (hsep : Separates node (pairs node level ++ climbPairs node acc path))
    (hacc : ∀ p ∈ pairs node level, node p.1 p.2 ≠ acc) :
    ∃ lower i, path = lower ++ pathOf node level i ∧ level[i]? = some (climb node acc lower) := by
  induction level using level_induction node with
  | base level hlen =>
    refine ⟨path, 0, ?_, ?_⟩
    · rw [pathOf, gather_of_length_le_one _ hlen, append_nil]
    · match level with
      | [] => cases hroot
      | [x] => exact hroot
  | up level hlen ih =>
    rw [pairs_up hlen] at hsep hacc
    obtain ⟨lower, j, hpath, hj⟩ := ih (by rw [← root_up level, hroot])
      (hsep.mono (by rw [append_assoc]; exact subset_append_right _ _))
      (fun p hp => hacc p (mem_append_right _ hp))
    rw [getElem?_nextLevel] at hj
    obtain ⟨l, hl, hj⟩ := Option.map_eq_some_iff.1 hj
    cases hr : level[2 * j + 1]? with
    | none =>
      -- the node was promoted
      rw [hr] at hj
      refine ⟨lower, 2 * j, ?_, by rw [hl, ← hj]; rfl⟩
      rw [pathOf_up hlen, siblings, if_pos (by omega), hr, show 2 * j / 2 = j by omega, hpath]
      rfl
    | some r =>
      rw [hr] at hj
      have hmem : (l, r) ∈ levelPairs level ++ pairs node (nextLevel node level) :=
        mem_append_left _ (mem_levelPairs hl hr)
      rcases eq_nil_or_concat lower with rfl | ⟨lower, step, rfl⟩
      · exact absurd hj (hacc _ hmem)
      · rw [concat_eq_append, climb_concat] at hj
        rw [concat_eq_append, append_assoc, singleton_append] at hpath
        have hclimbed : children (climb node acc lower) step ∈ climbPairs node acc path := by
          rw [hpath]
          exact mem_climbPairs_concat acc lower step _
        have hpair := hsep _ (mem_append_left _ hmem) _ (mem_append_right _ hclimbed) hj
        obtain ⟨sibling, right⟩ := step
        -- the side of the step says which of the two children is ours
        cases right with
        | true =>
          obtain ⟨rfl, rfl⟩ := Prod.mk.inj hpair
          refine ⟨lower, 2 * j, ?_, hl⟩
          rw [pathOf_up hlen, siblings, if_pos (by omega), hr, show 2 * j / 2 = j by omega, hpath]
          rfl
        | false =>
          obtain ⟨rfl, rfl⟩ := Prod.mk.inj hpair
          refine ⟨lower, 2 * j + 1, ?_, hr⟩
          rw [pathOf_up hlen, siblings, if_neg (by omega), Nat.add_sub_cancel, hl,
            show (2 * j + 1) / 2 = j by omega, hpath]
          rfl

/-- The sides being equal, the pair tells which child was ours. -/
theorem eq_of_children {x y : H} {step step' : H × Bool} (h : children x step = children y step')
    (hside : step.2 = step'.2) : x = y := by
  unfold children at h
  rw [hside] at h
  split_ifs at h with hright
  · exact (Prod.mk.inj h).1
  · exact (Prod.mk.inj h).2

/-- **A climb with the sides of a position starts at its leaf.** -/
theorem getElem?_of_sides {i : ℕ} (hi : i < level.length) (hroot : root node level = some (climb node acc path))
    (hsep : Separates node (pairs node level ++ climbPairs node acc path))
    (hsides : path.map Prod.snd = (pathOf node level i).map Prod.snd) : level[i]? = some acc := by
  induction level using level_induction node generalizing acc path i with
  | base level hlen =>
    rw [pathOf, gather_of_length_le_one _ hlen, map_nil, map_eq_nil_iff] at hsides
    subst hsides
    obtain rfl : i = 0 := by omega
    match level with
    | [] => cases hroot
    | [x] => exact hroot
  | up level hlen ih =>
    rw [pathOf_up hlen, map_append] at hsides
    obtain ⟨first, rest, rfl, hfirst, hrest⟩ := map_eq_append_iff.1 hsides
    rw [pairs_up hlen, climbPairs_append] at hsep
    have htree : ∀ p ∈ levelPairs level, ∀ q ∈ climbPairs node acc first, node p.1 p.2 = node q.1 q.2 → p = q :=
      fun p hp q hq => hsep p (mem_append_left _ (mem_append_left _ hp)) q (mem_append_right _ (mem_append_left _ hq))
    have hj := ih (by rw [length_nextLevel]; omega) (by rw [← root_up level, hroot, climb_append]) (hsep.mono ?_) hrest
    · have hx : level[i]? = some level[i] := getElem?_eq_getElem hi
      rcases siblings_cases node hx with ⟨hnone, hnext⟩ | ⟨step, hstep, hmem, hnext⟩
      · rw [hnone, map_nil, map_eq_nil_iff] at hfirst
        rw [hx, ← hnext, hj, hfirst]
        rfl
      · rw [hstep] at hfirst
        obtain ⟨taken, rfl, hside⟩ := map_eq_singleton_iff.1 hfirst
        have hpair := htree _ hmem _ (mem_singleton_self _) (Option.some.inj (hnext.symm.trans hj))
        rw [hx, eq_of_children hpair hside.symm]
    · exact append_subset.2 ⟨fun p hp => mem_append_left _ (mem_append_right _ hp),
        fun p hp => mem_append_right _ (mem_append_right _ hp)⟩

end Climb

end Merkle
end Lib
