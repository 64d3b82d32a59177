/-
# Tables and ordered sets

The collections the verified programs keep their state in.  A `Table` is a hash
map seen through its look-up function: `insert`, `erase` and `retain` are the
operations, and no result may depend on an iteration order, because a `Table`
has none.  A map that is iterated over is an association list (`AList`), and the
order the iteration takes is a `KeyOrder`, any rearrangement of the keys.  A
`SortedSet` is an ordered set seen through its in-order listing; the listing
carries the proof that it is strictly increasing, so a set with a repeated or
misplaced member cannot be built.
-/

import Mathlib.Data.List.AList
import Mathlib.Data.List.Sort

namespace Lib

open List AList

/-- A map from keys to values, as its look-up function. -/
structure Table (K V : Type*) where
  /-- Look a key up. -/
  get : K → Option V

namespace Table

variable {K V : Type*}

/-- The map with no entry. -/
def empty : Table K V := ⟨fun _ => none⟩

/-- Set the value of one key. -/
def insert [DecidableEq K] (m : Table K V) (k : K) (v : V) : Table K V :=
  ⟨Function.update m.get k (some v)⟩

/-- Remove one key. -/
def erase [DecidableEq K] (m : Table K V) (k : K) : Table K V := ⟨Function.update m.get k none⟩

/-- Keep the entries that satisfy a test. -/
def retain (m : Table K V) (keep : K → V → Bool) : Table K V :=
  ⟨fun k => (m.get k).filter (keep k)⟩

theorem ext {m m' : Table K V} (h : ∀ k, m.get k = m'.get k) : m = m' := by
  exact congrArg mk (funext h)

@[simp] theorem get_empty (k : K) : (empty : Table K V).get k = none := rfl

theorem get_insert [DecidableEq K] (m : Table K V) (k j : K) (v : V) :
    (m.insert k v).get j = if j = k then some v else m.get j :=
  Function.update_apply m.get k (some v) j

@[simp] theorem get_insert_self [DecidableEq K] (m : Table K V) (k : K) (v : V) : (m.insert k v).get k = some v := by
  rw [get_insert, if_pos rfl]

@[simp] theorem get_insert_of_ne [DecidableEq K] {k j : K} (h : j ≠ k) (m : Table K V) (v : V) :
    (m.insert k v).get j = m.get j := by
  rw [get_insert, if_neg h]

theorem get_erase [DecidableEq K] (m : Table K V) (k j : K) : (m.erase k).get j = if j = k then none else m.get j :=
  Function.update_apply m.get k none j

@[simp] theorem get_erase_self [DecidableEq K] (m : Table K V) (k : K) : (m.erase k).get k = none := by
  rw [get_erase, if_pos rfl]

@[simp] theorem get_erase_of_ne [DecidableEq K] {k j : K} (h : j ≠ k) (m : Table K V) :
    (m.erase k).get j = m.get j := by
  rw [get_erase, if_neg h]

@[simp] theorem get_retain (m : Table K V) (keep : K → V → Bool) (k : K) :
    (m.retain keep).get k = (m.get k).filter (keep k) := rfl

/-- Setting a list of keys to one value, one after the other. -/
theorem get_foldl_insert [DecidableEq K] (l : List K) (v : V) (m : Table K V) (k : K) :
    (l.foldl (fun m j => m.insert j v) m).get k = if k ∈ l then some v else m.get k := by
  induction l generalizing m with
  | nil => simp
  | cons j l ih =>
    rw [foldl_cons, ih, get_insert]
    by_cases hl : k ∈ l
    · simp [hl]
    · simp [hl]

end Table

/-- An association list with only the keys that pass a test. -/
def retainKeys {K V : Type*} (m : AList fun _ : K => V) (keep : K → Bool) : AList fun _ : K => V :=
  ⟨m.entries.filter fun entry => keep entry.1, m.nodupKeys.sublist filter_sublist⟩

variable {K V : Type*}

theorem lookup_retainKeys [DecidableEq K] (m : AList fun _ : K => V) (keep : K → Bool)
    (k : K) : (retainKeys m keep).lookup k = if keep k = true then m.lookup k else none := by
  refine Option.ext fun v => ?_
  change v ∈ (retainKeys m keep).lookup k ↔ v ∈ (if keep k = true then m.lookup k else none)
  rw [mem_lookup_iff]
  by_cases hk : keep k = true
  · rw [if_pos hk, mem_lookup_iff]
    simp [retainKeys, hk]
  · rw [if_neg hk]
    simp [retainKeys, hk]

variable {m : AList fun _ : K => V}

theorem retainKeys_eq_self {keep : K → Bool} (h : ∀ k ∈ m, keep k = true) : retainKeys m keep = m :=
  ext (filter_eq_self.2 fun e he => h e.1 (mem_map_of_mem he))

/-- An association list with only the entries that pass a test. -/
def retainEntries {K V : Type*} (m : AList fun _ : K => V) (keep : K → V → Bool) : AList fun _ : K => V :=
  ⟨m.entries.filter fun entry => keep entry.1 entry.2, m.nodupKeys.sublist filter_sublist⟩

theorem lookup_retainEntries [DecidableEq K] (m : AList fun _ : K => V) (keep : K → V → Bool)
    (k : K) : (retainEntries m keep).lookup k = (m.lookup k).filter (keep k) := by
  refine Option.ext fun v => ?_
  change v ∈ (retainEntries m keep).lookup k ↔ v ∈ (m.lookup k).filter (keep k)
  rw [mem_lookup_iff, Option.mem_filter_iff, mem_lookup_iff]
  simp [retainEntries]

theorem mem_of_lookup [DecidableEq K] {k : K} {v : V}
    (h : m.lookup k = some v) : k ∈ m := AList.lookup_isSome.1 (Option.isSome_of_eq_some h)

theorem notMem_of_entries_eq_nil (h : m.entries = []) (k : K) : k ∉ m := by
  intro hk
  have hkeys : k ∈ m.entries.keys := hk
  rw [h] at hkeys
  cases hkeys

/-- An association list with a function applied to its values. -/
def mapValues {K V : Type*} (m : AList fun _ : K => V) (f : V → V) : AList fun _ : K => V :=
  ⟨m.entries.map fun entry => ⟨entry.1, f entry.2⟩, by
    have hkeys : (m.entries.map fun entry => (⟨entry.1, f entry.2⟩ : Sigma fun _ : K => V)).keys = m.entries.keys := by
      unfold List.keys
      rw [map_map]
      rfl
    rw [NodupKeys, hkeys]
    exact m.nodupKeys⟩

theorem lookup_mapValues [DecidableEq K] (m : AList fun _ : K => V) (f : V → V) (k : K) :
    (mapValues m f).lookup k = (m.lookup k).map f := by
  refine Option.ext fun v => ?_
  change v ∈ (mapValues m f).lookup k ↔ v ∈ (m.lookup k).map f
  rw [mem_lookup_iff, Option.mem_map]
  constructor
  · intro h
    obtain ⟨entry, hmem, heq⟩ := mem_map.1 h
    cases heq
    exact ⟨entry.2, (mem_lookup_iff).2 hmem, rfl⟩
  · rintro ⟨u, hu, rfl⟩
    exact mem_map.2 ⟨⟨k, u⟩, (mem_lookup_iff).1 hu, rfl⟩

/-- The keys of an ordered map, in order. -/
def sortedKeys {K V : Type*} [LinearOrder K] (m : AList fun _ : K => V) : List K :=
  m.keys.insertionSort (· ≤ ·)

@[simp] theorem mem_sortedKeys [LinearOrder K] {k : K} :
    k ∈ sortedKeys m ↔ k ∈ m :=
  mem_insertionSort _

/-- The last of the keys is the largest one. -/
theorem getLast?_sortedKeys [LinearOrder K] {k : K} (hmem : k ∈ m)
    (hmax : ∀ j ∈ m, j ≤ k) : (sortedKeys m).getLast? = some k := by
  have hk := mem_sortedKeys.2 hmem
  have hsorted : (sortedKeys m).Pairwise (· ≤ ·) := pairwise_insertionSort _ _
  rcases eq_nil_or_concat' (sortedKeys m) with hnil | ⟨init, last, heq⟩
  · rw [hnil] at hk
    cases hk
  · have hlast : last ≤ k := hmax last (mem_sortedKeys.1 (heq ▸ mem_append_right _ (mem_singleton_self _)))
    rw [heq] at hk hsorted ⊢
    rw [getLast?_concat]
    rcases mem_append.1 hk with hk | hk
    · have hle := (pairwise_append.1 hsorted).2.2 k hk last (mem_singleton_self _)
      rw [le_antisymm hlast hle]
    · rw [mem_singleton.1 hk]

theorem lookup_insert_ite [DecidableEq K] (m : AList fun _ : K => V) (k j : K) (v : V) :
    (m.insert k v).lookup j = if j = k then some v else m.lookup j := by
  split_ifs with h
  · rw [h, lookup_insert]
  · exact lookup_insert_ne h

theorem lookup_erase_ite [DecidableEq K] (m : AList fun _ : K => V) (k j : K) :
    (m.erase k).lookup j = if j = k then none else m.lookup j := by
  split_ifs with h
  · rw [h, lookup_erase]
  · exact lookup_erase_ne h

section Latest

variable {K V : Type*} [DecidableEq K]

/-- The last value that a list of entries has for a key. -/
def latest : List (K × V) → K → Option V
  | [], _ => none
  | u :: us, k => (latest us k).or (if u.1 = k then some u.2 else none)

variable {us : List (K × V)}

theorem mem_of_latest {k : K} {v : V} (h : latest us k = some v) : (k, v) ∈ us := by
  induction us with
  | nil => cases h
  | cons u us ih =>
    rcases Option.or_eq_some_iff.1 h with h | ⟨-, h⟩
    · exact mem_cons_of_mem u (ih h)
    · split_ifs at h with hk
      cases h
      exact hk ▸ mem_cons_self

theorem latest_eq_none_iff {k : K} : latest us k = none ↔ k ∉ us.map Prod.fst := by
  induction us with
  | nil => exact ⟨fun _ => not_mem_nil, fun _ => rfl⟩
  | cons u us ih =>
    rw [latest, Option.or_eq_none_iff, ih, map_cons, mem_cons, not_or, and_comm, eq_comm]
    by_cases h : k = u.1
    · simp [h]
    · simp [h, Ne.symm h]

/-- Where no key stands twice, every entry is the last for its key. -/
theorem latest_of_nodup (h : (us.map Prod.fst).Nodup) {k : K} {v : V} (hmem : (k, v) ∈ us) :
    latest us k = some v := by
  induction us with
  | nil => cases hmem
  | cons u us ih =>
    obtain ⟨hu, hus⟩ := nodup_cons.1 h
    rw [latest]
    rcases mem_cons.1 hmem with rfl | hmem
    · rw [latest_eq_none_iff.2 hu, if_pos rfl]
      rfl
    · rw [ih hus hmem]
      rfl

/-- A table after insertions. -/
theorem Table.get_insertions (us : List (K × V)) (m : Table K V) (k : K) :
    (us.foldl (fun m u => m.insert u.1 u.2) m).get k = (latest us k).or (m.get k) := by
  induction us generalizing m with
  | nil => rfl
  | cons u us ih =>
    rw [foldl_cons, ih, get_insert, latest, Option.or_assoc]
    by_cases h : u.1 = k
    · rw [if_pos h.symm, if_pos h]
      rfl
    · rw [if_neg (Ne.symm h), if_neg h]
      rfl

end Latest

section Assign

variable {K V : Type*} [DecidableEq K]

/-- Set the value of one key, or remove it. -/
def assign (m : AList fun _ : K => V) (k : K) : Option V → AList fun _ : K => V
  | some v => m.insert k v
  | none => m.erase k

/-- Assignments, one after the other. -/
def assignAll (m : AList fun _ : K => V) (us : List (K × Option V)) : AList fun _ : K => V :=
  us.foldl (fun m u => assign m u.1 u.2) m

theorem lookup_assign (m : AList fun _ : K => V) (k j : K) (v : Option V) :
    (assign m k v).lookup j = if j = k then v else m.lookup j := by
  cases v with
  | some v => exact lookup_insert_ite m k j v
  | none => exact lookup_erase_ite m k j

/-- **The last assignment wins.** -/
theorem lookup_assignAll (m : AList fun _ : K => V) (us : List (K × Option V)) (k : K) :
    (assignAll m us).lookup k = (latest us k).getD (m.lookup k) := by
  induction us generalizing m with
  | nil => rfl
  | cons u us ih =>
    change (assignAll (assign m u.1 u.2) us).lookup k = _
    rw [ih, lookup_assign, latest]
    cases latest us k with
    | some v => rfl
    | none =>
      by_cases h : u.1 = k
      · rw [if_pos h.symm, if_pos h]
        rfl
      · rw [if_neg (Ne.symm h), if_neg h]
        rfl

/-- Assignments that all agree with a map give the keys they name its values. -/
theorem lookup_assignAll_of_agree {m m' : AList fun _ : K => V} {us : List (K × Option V)}
    (h : ∀ u ∈ us, m'.lookup u.1 = u.2) (k : K) :
    (assignAll m us).lookup k = if k ∈ us.map Prod.fst then m'.lookup k else m.lookup k := by
  induction us generalizing m with
  | nil => rfl
  | cons u us ih =>
    change (assignAll (assign m u.1 u.2) us).lookup k = _
    rw [ih fun u' hu' => h u' (mem_cons_of_mem u hu'), lookup_assign, ← h u mem_cons_self, map_cons]
    by_cases hk : k ∈ us.map Prod.fst
    · rw [if_pos hk, if_pos (mem_cons_of_mem _ hk)]
    · rw [if_neg hk]
      by_cases hku : k = u.1
      · subst hku
        rw [if_pos rfl, if_pos mem_cons_self]
      · rw [if_neg hku, if_neg (fun hmem => (mem_cons.1 hmem).elim hku hk)]

end Assign

/-- The order in which an unordered map lists its keys: any rearrangement. -/
structure KeyOrder (K : Type*) where
  /-- Rearrange. -/
  order : List K → List K
  /-- Nothing is lost or added. -/
  perm : ∀ l, (order l).Perm l

/-- A finite set of ordered elements, as its strictly increasing listing. -/
structure SortedSet (α : Type*) [LinearOrder α] where
  /-- The members, in order. -/
  toList : List α
  /-- Each member stands once, in its place. -/
  sorted : toList.Pairwise (· < ·)

namespace SortedSet

variable {α : Type*} [LinearOrder α]

/-- Put an element in its place in an increasing list, unless it is there. -/
def insertList (a : α) : List α → List α
  | [] => [a]
  | b :: l => if a < b then a :: b :: l else if a = b then b :: l else b :: insertList a l

theorem mem_insertList {a x : α} {l : List α} : x ∈ insertList a l ↔ x = a ∨ x ∈ l := by
  induction l with
  | nil => simp [insertList]
  | cons b l ih =>
    unfold insertList
    split_ifs with h₁ h₂
    · simp
    · subst h₂
      simp
    · simp only [mem_cons, ih]
      tauto

theorem sorted_insertList (a : α) {l : List α} (h : l.Pairwise (· < ·)) : (insertList a l).Pairwise (· < ·) := by
  induction l with
  | nil => simp [insertList]
  | cons b l ih =>
    obtain ⟨hb, hl⟩ := pairwise_cons.1 h
    unfold insertList
    split_ifs with h₁ h₂
    · exact pairwise_cons.2 ⟨forall_mem_cons.2 ⟨h₁, fun x hx => h₁.trans (hb x hx)⟩, h⟩
    · exact h
    · refine pairwise_cons.2 ⟨?_, ih hl⟩
      intro x hx
      rcases mem_insertList.1 hx with rfl | hx
      · exact lt_of_le_of_ne (not_lt.1 h₁) (Ne.symm h₂)
      · exact hb x hx

/-- The set with no member. -/
def empty : SortedSet α := ⟨[], Pairwise.nil⟩

/-- Add one member. -/
def insert (s : SortedSet α) (a : α) : SortedSet α :=
  ⟨insertList a s.toList, sorted_insertList a s.sorted⟩

instance : Membership α (SortedSet α) := ⟨fun s a => a ∈ s.toList⟩

instance (a : α) (s : SortedSet α) : Decidable (a ∈ s) := inferInstanceAs (Decidable (a ∈ s.toList))

@[simp] theorem not_mem_empty (a : α) : a ∉ (empty : SortedSet α) := not_mem_nil

@[simp] theorem mem_insert {a x : α} {s : SortedSet α} : x ∈ s.insert a ↔ x = a ∨ x ∈ s :=
  mem_insertList

/-- Adding a list of members one after the other adds just those. -/
theorem mem_foldl_insert {x : α} (l : List α) (s : SortedSet α) : x ∈ l.foldl insert s ↔ x ∈ l ∨ x ∈ s := by
  induction l generalizing s with
  | nil => simp
  | cons a l ih =>
    rw [foldl_cons, ih, mem_insert, mem_cons]
    tauto

end SortedSet

section Chunks

variable {A : Type*}

/-- `xs.chunks(n)`: lists of length `n`, the last one of what is left. -/
def chunks (n : ℕ) (xs : List A) : List (List A) :=
  (range ((xs.length + n - 1) / n)).map fun i => (xs.drop (i * n)).take n

theorem le_div_mul {n : ℕ} (hn : 1 ≤ n) (m : ℕ) : m ≤ (m + n - 1) / n * n := by
  have := Nat.lt_div_mul_add hn (a := m + n - 1)
  omega

theorem flatten_chunks {n : ℕ} (hn : 1 ≤ n) (xs : List A) : (chunks n xs).flatten = xs := by
  have htake (k : ℕ) : ((range k).map fun i => (xs.drop (i * n)).take n).flatten = xs.take (k * n) := by
    induction k with
    | zero => simp
    | succ k ih =>
      rw [range_succ, map_append, flatten_append, ih, Nat.succ_mul, take_add]
      simp
  exact (htake _).trans (take_of_length_le (le_div_mul hn _))

end Chunks

end Lib
