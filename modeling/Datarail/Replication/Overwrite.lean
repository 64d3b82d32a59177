/-
# A record that is overwritten

A second `put` of a record overwrites its shards one after the other and its length last.  When it stops
with an error, some shards are new and the others old, and `get` has no means to tell them apart: it takes
the first `k` that are left, whatever `put` they are from, and cuts the result to the length that is stored.

What it returns is the old record when all of these shards are old, and the new one when all are new and
the stored length is right; shards of different sizes are refused (`Unmixed`, `assemble_unmixed`).
-/

import Datarail.Replication.Durability

namespace Datarail.Replication

open Lib Blobstore Erasure List

namespace ErasureStore

variable {σ : Type} [LawfulBlobStore σ] {st : ErasureStore} {old new : Bytes} {n : ℕ} {lost : Finset ℕ}

open LawfulBlobStore (view)

/-- Shard `i` when the first `n` writes of the second `put` have been made. -/
def mixedShard (st : ErasureStore) (old new : Bytes) (n i : ℕ) : Bytes :=
  if i < n then st.shardOf new i else st.shardOf old i

/-- The length that is stored then: it is written after the shards. -/
def mixedLen (st : ErasureStore) (old new : Bytes) (n : ℕ) : ℕ :=
  if st.k + st.m < n then new.length else old.length

/-- **When an interrupted overwrite does no harm.**  The shards that `get` takes are all old; or all new, with
the length written too or equal to that of the old record; or of both kinds and of different sizes. -/
def Unmixed (st : ErasureStore) (old new : Bytes) (n : ℕ) (lost : Finset ℕ) : Prop :=
  (∀ i ∈ st.taken lost, n ≤ i) ∨
    ((∀ i ∈ st.taken lost, i < n) ∧ (st.k + st.m < n ∨ old.length = new.length)) ∨
    (st.shardLen old ≠ st.shardLen new ∧ (∃ i ∈ st.taken lost, i < n) ∧ ∃ i ∈ st.taken lost, n ≤ i)

/-- What is stored when the first `n` writes of the second `put` have been made. -/
theorem Holds.overwrite {v : Table String Bytes} {id : String} (h : Holds st v id old.length (st.shardOf old) ∅)
    (hnew : st.k + st.m < n → new.length < 2 ^ 64) :
    Holds st (written v ((st.writes id new).take n)) id (st.mixedLen old new n) (st.mixedShard old new n) ∅ := by
  refine ⟨?_, ?_, fun i hi => ?_⟩
  · rw [mixedLen]
    split_ifs with hn
    · exact hnew hn
    · exact h.fits
  · rw [get_written_lenKey, mixedLen]
    split_ifs
    · rfl
    · exact h.length
  · rw [get_written_shardKey st v id new n hi, mixedShard, h.shards i hi, if_neg (Finset.notMem_empty i),
      if_neg (Finset.notMem_empty i)]
    split_ifs <;> rfl

/-- Shards of both records are refused where their sizes differ. -/
theorem assemble_sizes (len : ℕ) (hlost : lost ⊆ Finset.range (st.k + st.m)) (hcard : lost.card ≤ st.m)
    (hsizes : st.shardLen old ≠ st.shardLen new) (hnew : ∃ i ∈ st.taken lost, i < n)
    (hold : ∃ i ∈ st.taken lost, n ≤ i) :
    st.assemble len ((st.left lost).map fun i => (i, st.mixedShard old new n i)) =
      .error ⟨.invalidData, ErasureError.raggedShards.text⟩ := by
  obtain ⟨hcount, htaken, hnodup, hrange⟩ := survivors_taken hlost hcard (st.mixedShard old new n)
  obtain ⟨i, hi, hin⟩ := hnew
  obtain ⟨j, hj, hjn⟩ := hold
  have hilen : (st.mixedShard old new n i).length = st.shardLen new := by
    rw [mixedShard, if_pos hin, length_shardOf _ (lt_of_mem_taken hi)]
  have hjlen : (st.mixedShard old new n j).length = st.shardLen old := by
    rw [mixedShard, if_neg (Nat.not_lt.2 hjn), length_shardOf _ (lt_of_mem_taken hj)]
  rw [assemble, if_neg (by rw [← st.k_eq]; omega), Rs.reconstruct_ragged hcount hnodup hrange]
  rw [htaken]
  intro size
  by_cases hsize : st.shardLen new = size
  · exact ⟨_, mem_map_of_mem hj, fun h => hsizes ((hjlen.symm.trans h).trans hsize.symm)⟩
  · exact ⟨_, mem_map_of_mem hi, fun h => hsize (hilen.symm.trans h)⟩

/-- **What `get` makes of the shards of two records**, when they are not mixed. -/
theorem assemble_unmixed (hlost : lost ⊆ Finset.range (st.k + st.m)) (hcard : lost.card ≤ st.m)
    (h : st.Unmixed old new n lost) :
    let r := st.assemble (st.mixedLen old new n) ((st.left lost).map fun i => (i, st.mixedShard old new n i))
    r = .ok (some old) ∨ r = .ok (some new) ∨ ∃ e, r = .error e := by
  rcases h with hall | ⟨hall, hlen⟩ | ⟨hsizes, hnew, hold⟩
  · -- some shard is taken, so the length was not written
    have hle : ¬ st.k + st.m < n := fun hlt => by
      obtain ⟨i, hi⟩ : ∃ i, i ∈ st.taken lost := by
        refine exists_mem_of_length_pos ?_
        have := st.k_pos
        rw [taken, length_take, length_left hlost]
        omega
      have := hall i hi
      have := lt_of_mem_taken hi
      omega
    have hshard : ∀ i ∈ st.taken lost, st.mixedShard old new n i = st.shardOf old i := fun i hi =>
      if_neg (Nat.not_lt.2 (hall i hi))
    refine .inl ?_
    rw [assemble_of_taken _ old hlost hcard hshard, mixedLen, if_neg hle, take_flatten_shards]
  · have hright : st.mixedLen old new n = new.length := by
      rw [mixedLen]
      split_ifs with hlt
      · rfl
      · exact hlen.resolve_left hlt
    have hshard : ∀ i ∈ st.taken lost, st.mixedShard old new n i = st.shardOf new i := fun i hi => if_pos (hall i hi)
    refine .inr (.inl ?_)
    rw [assemble_of_taken _ new hlost hcard hshard, hright, take_flatten_shards]
  · exact .inr (.inr ⟨_, assemble_sizes _ hlost hcard hsizes hnew hold⟩)

/-- Events about other records lose no shard of this one. -/
theorem lostIn_of_ne {id : String} {events : List Event} (h : ∀ e ∈ events, e.record ≠ id) :
    st.lostIn id events = ∅ := by
  induction events with
  | nil => rfl
  | cons e events ih =>
    have hrest := ih fun e he => h e (mem_cons_of_mem _ he)
    cases e with
    | put _ _ => exact hrest
    | lose id' i =>
      rw [lostIn, if_neg fun hc => h (.lose id' i) mem_cons_self hc.1, hrest]

/-- **An interrupted overwrite that leaves no mix is read as the old or the new record.**  The old record was
stored by a `put` that returned `Ok`, and of a second `put` the first `n` writes were made, wherever it stopped.
Whatever happens then, but for another `put` of the record and the loss of more than `m` of its shards, `get`
returns the old bytes, the new bytes or an error, if the shards it takes are not mixed. -/
theorem overwrite_unmixed (st : ErasureStore) (id : String) (old new : Bytes) (s : σ)
    (hold : (st.put s id old).2 = .ok ()) (between : List Event) (hbetween : ∀ e ∈ between, e.record ≠ id) :
    ∃ n ≤ st.k + st.m + 1, view (st.put (st.machine.final (st.put s id old).1 between) id new).1 =
        written (view (st.machine.final (st.put s id old).1 between)) ((st.writes id new).take n) ∧
      ∀ events : List Event, (∀ e ∈ events, ∀ data, e ≠ .put id data) → (st.lostIn id events).card ≤ st.m →
        st.Unmixed old new n (st.lostIn id events) →
        let r := (st.get (st.machine.final
          (st.put (st.machine.final (st.put s id old).1 between) id new).1 events) id).2
        r = .ok (some old) ∨ r = .ok (some new) ∨ ∃ e, r = .error e := by
  have hother : ∀ e ∈ between, ∀ data, e ≠ .put id data := fun e he data hput =>
    hbetween e he (by rw [hput]; rfl)
  have hholds := (holds_of_put hold).final hother
  rw [lostIn_of_ne hbetween, Finset.empty_union] at hholds
  obtain ⟨n, hn, hview, -, hfits⟩ := view_put st (st.machine.final (st.put s id old).1 between) id new
  refine ⟨n, by simpa [writes] using hn, hview, fun events hevents hlost hunmixed => ?_⟩
  have hmixed := hholds.overwrite hfits
  rw [← hview] at hmixed
  have hfinal := hmixed.final hevents
  rw [Finset.empty_union] at hfinal
  rw [get_of_holds hfinal]
  exact assemble_unmixed (st.lostIn_subset id events) hlost hunmixed

/-- A store that takes five writes, refuses the sixth and then takes all: a first `put` of `small` succeeds and
a second one stops after its first shard. -/
def refusesSixth : FlakyBlob := ⟨MemBlob.new, [.none, .none, .none, .none, .none, .refused]⟩

/-- The second `put` stops after its first shard, and that shard is lost: what is left is the old record. -/
theorem overwrite_unmixed_refused : (small.put refusesSixth "a" [1, 2, 3, 4]).2 = .ok () ∧
    let r := (small.get (small.machine.final (small.put (small.put refusesSixth "a" [1, 2, 3, 4]).1 "a"
      [5, 6, 7, 8]).1 [.lose "a" 0]) "a").2
    r = .ok (some [1, 2, 3, 4]) ∧ (r = .ok (some [1, 2, 3, 4]) ∨ r = .ok (some [5, 6, 7, 8]) ∨ ∃ e, r = .error e) := by
  have hold : (small.put refusesSixth "a" [1, 2, 3, 4]).2 = .ok () := by decide +kernel
  obtain ⟨n, -, hview, h⟩ := overwrite_unmixed small "a" [1, 2, 3, 4] [5, 6, 7, 8] refusesSixth hold [] nofun
  -- shard 1 is still the old one, so no more than one write was made
  have hn : n ≤ 1 := by
    by_contra hlt
    have hget := congrArg (fun v => v.get (shardKey "a" 1)) hview
    simp only [get_written_shardKey small _ "a" [5, 6, 7, 8] n (i := 1) (by decide),
      if_pos (Nat.lt_of_not_le hlt)] at hget
    exact absurd hget (by decide +kernel)
  refine ⟨hold, by decide +kernel, h [.lose "a" 0] (by simp) (by decide +kernel) (.inl fun i hi => ?_)⟩
  have hi' : i ∈ [1, 2] := hi
  exact hn.trans (by revert hi'; revert i; decide)

/-- The second `put` stops after its first shard, no shard is lost, and `get` returns two bytes of each record. -/
theorem overwrite_mixes_versions : (small.put refusesSixth "a" [1, 2, 3, 4]).2 = .ok () ∧
      (small.put (small.put refusesSixth "a" [1, 2, 3, 4]).1 "a" [5, 6, 7, 8]).2 = .error FlakyBlob.failure ∧
      (small.get (small.put (small.put refusesSixth "a" [1, 2, 3, 4]).1 "a" [5, 6, 7, 8]).1 "a").2 =
        .ok (some [5, 6, 3, 4]) := by
  decide +kernel

end ErasureStore
end Datarail.Replication
