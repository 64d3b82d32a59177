/-
# Routes under a changing membership

`crates/datarail-keyrouter/src/lib.rs`: members come and go by `add_node` and `remove_node`, and `rank_keyhash` lists
all of them for a key.  A route is the least node of an order that knows nothing of the list of nodes (`pref`), and
all that is said here comes from that.
-/

import Datarail.Topics.Topic

namespace Datarail.Topics.Router

open List

/-- `rank_keyhash`. -/
def rankKeyhash (r : Router) (keyHash : UInt64) : List UInt64 :=
  r.nodes.mergeSort fun a b =>
    let wa := weight keyHash a
    let wb := weight keyHash b
    ((compare wb wa).then (compare a b)).isLE

inductive Change where
  | add (id : UInt64)
  | remove (id : UInt64)

def change (r : Router) : Change → Router
  | .add id => (r.addNode id).1
  | .remove id => (r.removeNode id).1

/-- The router after some changes of the empty one. -/
def after (changes : List Change) : Router := changes.foldl change ⟨[]⟩

/-- The routes of a key while the node it is routed to leaves, until there is none. -/
inductive Routes (keyHash : UInt64) : Router → List UInt64 → Prop where
  | none {r : Router} : r.routeKeyhash keyHash = none → Routes keyHash r []
  | some {r : Router} {node : UInt64} {nodes : List UInt64} : r.routeKeyhash keyHash = some node →
      Routes keyHash (r.removeNode node).1 nodes → Routes keyHash r (node :: nodes)

variable {r r' : Router} {keyHash a b node : UInt64}

theorem pref_inj : pref keyHash a = pref keyHash b ↔ a = b :=
  ⟨fun h => UInt64.toNat_inj.1 (Prod.mk.inj (toLex_inj.1 h)).2, congrArg _⟩

/-- The comparison of `rank_keyhash` is the order of the routes. -/
theorem isLE_iff_pref_le :
    ((compare (weight keyHash b) (weight keyHash a)).then (compare a b)).isLE ↔ pref keyHash a ≤ pref keyHash b := by
  rw [Ordering.isLE_then_iff_or, Std.compare_eq_lt, Std.compare_eq_iff_eq, Std.isLE_compare, eq_comm, pref, pref,
    Prod.Lex.toLex_le_toLex, OrderDual.toDual_lt_toDual, OrderDual.toDual_inj, UInt64.toNat_inj]
  rfl

theorem routeKeyhash_eq_some_iff : r.routeKeyhash keyHash = some node ↔
    node ∈ r.nodes ∧ ∀ m ∈ r.nodes, pref keyHash node ≤ pref keyHash m := by
  have hleast {best : UInt64} (h : r.routeKeyhash keyHash = some best) :
      best ∈ r.nodes ∧ ∀ m ∈ r.nodes, pref keyHash best ≤ pref keyHash m := by
    rw [routeKeyhash_eq_argmin] at h
    exact ⟨argmin_mem h, fun m hm => le_of_mem_argmin hm h⟩
  refine ⟨hleast, fun ⟨hmem, hle⟩ => ?_⟩
  obtain ⟨best, hbest⟩ := exists_routeKeyhash (ne_nil_of_mem hmem) keyHash
  obtain ⟨hin, hbest_le⟩ := hleast hbest
  rw [hbest, pref_inj.1 ((hbest_le node hmem).antisymm (hle best hin))]

/-- The order of the nodes does not matter. -/
theorem routeKeyhash_congr (h : ∀ n, n ∈ r.nodes ↔ n ∈ r'.nodes) : r.routeKeyhash keyHash = r'.routeKeyhash keyHash :=
  Option.ext fun node => by simp only [routeKeyhash_eq_some_iff, h]

theorem routeKeyhash_addNode (id : UInt64) : (r.addNode id).1.routeKeyhash keyHash = r.routeKeyhash keyHash ∨
    (r.addNode id).1.routeKeyhash keyHash = some id := by
  rw [addNode]
  split
  · exact .inl rfl
  · rw [routeKeyhash_eq_argmin, routeKeyhash_eq_argmin, argmin_concat]
    cases r.nodes.argmin (pref keyHash) with
    | none => exact .inr rfl
    | some best => exact (ite_eq_or_eq ..).symm

theorem routeKeyhash_removeNode (id : UInt64) : r.routeKeyhash keyHash = some id ∨
    (r.removeNode id).1.routeKeyhash keyHash = r.routeKeyhash keyHash := by
  rw [removeNode]
  split
  · rename_i hmem
    obtain ⟨node, hnode⟩ := exists_routeKeyhash (ne_nil_of_mem hmem) keyHash
    obtain ⟨hin, hle⟩ := routeKeyhash_eq_some_iff.1 hnode
    rcases eq_or_ne node id with rfl | hne
    · exact .inl hnode
    · exact .inr (hnode ▸ routeKeyhash_eq_some_iff.2
        ⟨(mem_erase_of_ne hne).2 hin, fun m hm => hle m (mem_of_mem_erase hm)⟩)
  · exact .inr rfl

/-- Nodes in the order in which they are preferred are the routes one after the other. -/
theorem Routes.of_sorted {nodes : List UInt64} (hsorted : nodes.Pairwise (pref keyHash · ≤ pref keyHash ·))
    (hperm : nodes ~ r.nodes) : Routes keyHash r nodes := by
  induction nodes generalizing r with
  | nil => exact .none (by rw [routeKeyhash_eq_argmin, hperm.symm.eq_nil, argmin_nil])
  | cons node nodes ih =>
    obtain ⟨hle, hsorted⟩ := pairwise_cons.1 hsorted
    have hmem : node ∈ r.nodes := hperm.subset mem_cons_self
    refine .some (routeKeyhash_eq_some_iff.2 ⟨hmem, fun m hm => ?_⟩) (ih hsorted ?_)
    · rcases mem_cons.1 (hperm.mem_iff.2 hm) with rfl | hm
      · exact le_rfl
      · exact hle m hm
    · rw [removeNode, if_pos hmem]
      simpa using hperm.erase node

theorem routes_rankKeyhash (r : Router) (keyHash : UInt64) : Routes keyHash r (r.rankKeyhash keyHash) := by
  refine .of_sorted ?_ (mergeSort_perm ..)
  refine (pairwise_mergeSort ?_ ?_ r.nodes).imp isLE_iff_pref_le.1
  · exact fun a b c hab hbc => isLE_iff_pref_le.2 ((isLE_iff_pref_le.1 hab).trans (isLE_iff_pref_le.1 hbc))
  · intro a b
    rw [Bool.or_eq_true, isLE_iff_pref_le, isLE_iff_pref_le]
    exact le_total _ _

/-- Whatever the changes were: the route of a key is that of the set of nodes, a node that comes changes it to itself
only, a node that leaves changes only what it served, and the ranking is the routes as the served node leaves. -/
theorem rendezvous_stable (changes : List Change) (keyHash : UInt64) :
    (∀ others, (∀ n, n ∈ (after others).nodes ↔ n ∈ (after changes).nodes) →
      (after others).routeKeyhash keyHash = (after changes).routeKeyhash keyHash) ∧
    (∀ id, (after (changes ++ [.add id])).routeKeyhash keyHash = (after changes).routeKeyhash keyHash ∨
      (after (changes ++ [.add id])).routeKeyhash keyHash = some id) ∧
    (∀ id, (after changes).routeKeyhash keyHash = some id ∨
      (after (changes ++ [.remove id])).routeKeyhash keyHash = (after changes).routeKeyhash keyHash) ∧
    Routes keyHash (after changes) ((after changes).rankKeyhash keyHash) := by
  simp only [after, foldl_append, foldl_cons, foldl_nil]
  exact ⟨fun others => routeKeyhash_congr, routeKeyhash_addNode, routeKeyhash_removeNode, routes_rankKeyhash _ _⟩

end Datarail.Topics.Router
