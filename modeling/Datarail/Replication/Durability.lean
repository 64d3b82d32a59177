/-
# What the erasure-coded store survives

A record is stored when its length and its shards are, those of `lost` apart (`Holds`).  A `put` that
returns `Ok` stores it, a lost shard goes into `lost`, and what happens to other records changes nothing,
since no two records share a key.  `get` returns a stored record while no more than `m` shards are lost, and
`None` from then on (`assemble_left`).

A `put` that fails has made the first few of its writes: `view_put`.
-/

import Datarail.Replication.Store
import Datarail.Lib.Run

namespace Datarail.Replication

open Lib Blobstore Erasure List

namespace ErasureStore

variable {σ : Type} [LawfulBlobStore σ] {st : ErasureStore} {s s' : σ} {id : String} {data : Bytes}

open LawfulBlobStore (view lose get_eq view_put_ok view_put_error view_lose)

/-! ## The shards of a record -/

/-- The codec of a store has its `k`. -/
theorem k_eq (st : ErasureStore) : st.rs.k = st.k := (Rs.new_eq_ok_iff.1 st.built).1

/-- The codec of a store has its `m`. -/
theorem m_eq (st : ErasureStore) : st.rs.m = st.m := (Rs.new_eq_ok_iff.1 st.built).2.1

/-- The codec is one that `Rs::new` has built. -/
theorem rs_built (st : ErasureStore) : st.rs.Built := (Rs.new_eq_ok_iff.1 st.built).2.2

/-- `Rs::new` refuses `k = 0`. -/
theorem k_pos (st : ErasureStore) : 1 ≤ st.k := st.k_eq ▸ st.rs_built.k_pos

/-- `k` shards have room for the record. -/
theorem length_le_padded (st : ErasureStore) (data : Bytes) : data.length ≤ st.shardLen data * st.k :=
  (le_div_mul st.k_pos _).trans (Nat.mul_le_mul_right _ (le_max_left _ _))

/-- The padding fills `k` shards of one length. -/
theorem length_padded (st : ErasureStore) (data : Bytes) : (st.padded data).length = st.shardLen data * st.k := by
  have := st.length_le_padded data
  rw [padded, length_append, length_replicate]
  omega

/-- `shard_len` is at least 1, for an empty record too. -/
theorem shardLen_pos (st : ErasureStore) (data : Bytes) : 1 ≤ st.shardLen data := le_max_right _ _

/-- `chunks(n)` of a multiple of `n` cuts it into whole pieces. -/
theorem chunks_eq {n k : ℕ} (hn : 1 ≤ n) {xs : Bytes} (h : xs.length = n * k) :
    chunks n xs = (List.range k).map fun i => (xs.drop (i * n)).take n := by
  have hcount : (xs.length + n - 1) / n = k := by
    rw [h, Nat.add_sub_assoc hn, Nat.mul_add_div (by omega), Nat.div_eq_of_lt (by omega), Nat.add_zero]
  rw [chunks, hcount]

/-- The data shards are `k` of one length. -/
theorem aligned_shards (st : ErasureStore) (data : Bytes) : Aligned st.rs.k (st.shardLen data) (st.shards data) := by
  rw [shards, chunks_eq (st.shardLen_pos data) (st.length_padded data), st.k_eq]
  refine ⟨by simp, fun shard hshard => ?_⟩
  obtain ⟨i, hi, rfl⟩ := mem_map.1 hshard
  have hlen := st.length_padded data
  have hmul : (i + 1) * st.shardLen data ≤ st.k * st.shardLen data :=
    Nat.mul_le_mul_right _ (mem_range.1 hi)
  rw [Nat.succ_mul, Nat.mul_comm st.k] at hmul
  rw [length_take, length_drop, hlen]
  omega

/-- The data shards, one behind the other, begin with the record. -/
theorem take_flatten_shards (st : ErasureStore) (data : Bytes) : (st.shards data).flatten.take data.length = data := by
  rw [shards, flatten_chunks (st.shardLen_pos data), padded, take_left]

/-- Shard `i` of a record. -/
def shardOf (st : ErasureStore) (data : Bytes) (i : ℕ) : Bytes :=
  st.rs.shard (st.shardLen data) (st.shards data) i

/-- `encode` accepts the data shards of any record. -/
theorem encode_shards (st : ErasureStore) (data : Bytes) :
    st.rs.encode (st.shards data) = .ok (st.rs.parity (st.shardLen data) (st.shards data)) :=
  st.rs_built.encode_aligned (st.aligned_shards data)

/-! ## Writes -/

/-- The writes of a `put`, in their order. -/
def writes (st : ErasureStore) (id : String) (data : Bytes) : List (String × Bytes) :=
  (List.range (st.k + st.m)).map (fun i => (shardKey id i, st.shardOf data i)) ++ [(lenKey id, leBytes 8 data.length)]

/-- The first loop of `put` writes the `k + m` shards in order. -/
theorem shardWrites_eq (st : ErasureStore) (id : String) (data : Bytes) :
    shardWrites id (st.shards data) (st.rs.parity (st.shardLen data) (st.shards data)) st.k =
      (List.range (st.k + st.m)).map fun i => (shardKey id i, st.shardOf data i) := by
  have hlen : (st.shards data).length = st.k := (st.aligned_shards data).1.trans st.k_eq
  have hparity : (st.rs.parity (st.shardLen data) (st.shards data)).length = st.m :=
    (st.rs_built.length_parity _ _).trans st.m_eq
  have hcomm : (fun (j : ℕ) (p : Bytes) => (shardKey id (st.k + j), p)) =
      fun j p => (shardKey id (j + (st.shards data).length), p) := by
    funext j p
    rw [hlen, Nat.add_comm]
  rw [shardWrites, hcomm, ← mapIdx_append]
  refine ext_getElem (by simp [hlen, hparity]) fun i hi _ => ?_
  rw [getElem_mapIdx, getElem_map, getElem_range, shardOf, Rs.shard, getD_eq_getElem]

/-- A `put` writes no key twice. -/
theorem nodup_writes (st : ErasureStore) (id : String) (data : Bytes) : ((st.writes id data).map Prod.fst).Nodup := by
  rw [writes, map_append, map_map]
  refine nodup_append'.2 ⟨?_, by simp, ?_⟩
  · exact List.Nodup.map (fun i j h => (shardKey_inj h).2) nodup_range
  · intro key hkey hlen
    obtain ⟨i, -, rfl⟩ := mem_map.1 hkey
    simp at hlen
    exact shardKey_ne_lenKey id id i hlen

/-- What is stored after some writes. -/
def written (v : Table String Bytes) (ws : List (String × Bytes)) : Table String Bytes :=
  ws.foldl (fun v w => v.insert w.1 w.2) v

/-- **A sequence of writes makes the first few of them**, and all if none fails. -/
theorem view_putAll (s : σ) (ws : List (String × Bytes)) :
    ∃ n ≤ ws.length, view (putAll s ws).1 = written (view s) (ws.take n) ∧
      ((putAll s ws).2 = .ok () → n = ws.length) := by
  induction ws generalizing s with
  | nil => exact ⟨0, le_rfl, rfl, fun _ => rfl⟩
  | cons w ws ih =>
    rw [putAll]
    rcases hput : BlobStore.put s w.1 w.2 with ⟨s', _ | _⟩
    · rcases view_put_error s w.1 w.2 _ (congrArg Prod.snd hput) with hview | hview
      · exact ⟨0, Nat.zero_le _, by simpa [hput, written] using hview, by simp⟩
      · exact ⟨1, by simp, by simpa [hput, written] using hview, by simp⟩
    · have hview := view_put_ok s w.1 w.2 (congrArg Prod.snd hput)
      obtain ⟨n, hn, hrest, hok⟩ := ih s'
      rw [hput] at hview
      refine ⟨n + 1, by simpa using hn, ?_, fun h => by simpa using hok h⟩
      rw [hrest, take_succ_cons, written, written, foldl_cons, hview]

/-- Two runs of writes; an error in the first skips the second. -/
theorem putAll_append (s : σ) (ws ws' : List (String × Bytes)) : putAll s (ws ++ ws') = match putAll s ws with
      | (s, .ok _) => putAll s ws'
      | (s, .error e) => (s, .error e) := by
  induction ws generalizing s with
  | nil => rfl
  | cons w ws ih =>
    rw [cons_append, putAll, putAll]
    rcases BlobStore.put s w.1 w.2 with ⟨s', _ | _⟩
    · rfl
    · exact ih s'

/-- A record that a machine can hold is put by making its writes. -/
theorem put_eq (st : ErasureStore) (s : σ) (id : String) (hlen : data.length < 2 ^ 64) :
    st.put s id data = putAll s (st.writes id data) := by
  rw [put, st.encode_shards, writes, putAll_append]
  simp only [st.shardWrites_eq, if_pos hlen]
  rcases putAll s _ with ⟨s', _ | _⟩
  · rfl
  · simp only [putAll]
    rcases BlobStore.put s' (lenKey id) (leBytes 8 data.length) with ⟨s'', _ | _⟩ <;> rfl

/-- **A `put` makes the first few of its writes**, and all if it returns `Ok`. -/
theorem view_put (st : ErasureStore) (s : σ) (id : String) (data : Bytes) :
    ∃ n ≤ (st.writes id data).length, view (st.put s id data).1 = written (view s) ((st.writes id data).take n) ∧
      ((st.put s id data).2 = .ok () → n = (st.writes id data).length) ∧
      (st.k + st.m < n → data.length < 2 ^ 64) := by
  by_cases hlen : data.length < 2 ^ 64
  · obtain ⟨n, hn, hview, hok⟩ := view_putAll s (st.writes id data)
    rw [put_eq st s id hlen]
    exact ⟨n, hn, hview, hok, fun _ => hlen⟩
  · obtain ⟨n, hn, hview, -⟩ := view_putAll s
      ((List.range (st.k + st.m)).map fun i => (shardKey id i, st.shardOf data i))
    refine ⟨n, by rw [writes, length_append]; omega, ?_, ?_, ?_⟩
    · rw [writes, take_append_of_le_length hn, ← hview, put, st.encode_shards]
      simp only [st.shardWrites_eq, if_neg hlen]
      rcases putAll s _ with ⟨s', _ | _⟩ <;> rfl
    · rw [put, st.encode_shards]
      simp only [st.shardWrites_eq, if_neg hlen]
      rcases putAll s _ with ⟨s', _ | _⟩ <;> simp
    · rw [length_map, length_range] at hn
      omega

variable {v : Table String Bytes} {key : String} {ws : List (String × Bytes)}

/-- A key that is not written keeps what it had. -/
theorem get_written_of_notMem (h : key ∉ ws.map Prod.fst) : (written v ws).get key = v.get key := by
  rw [written, Table.get_insertions, latest_eq_none_iff.2 h, Option.none_or]

/-- A key that is written once holds what was written. -/
theorem get_written_of_mem (hnodup : (ws.map Prod.fst).Nodup)
    {bytes : Bytes} (h : (key, bytes) ∈ ws) : (written v ws).get key = some bytes := by
  rw [written, Table.get_insertions, latest_of_nodup hnodup h, Option.some_or]

/-- A shard after the first `n` writes of a `put`. -/
theorem get_written_shardKey (st : ErasureStore) (v : Table String Bytes) (id : String) (data : Bytes) (n : ℕ)
    {i : ℕ} (hi : i < st.k + st.m) :
    (written v ((st.writes id data).take n)).get (shardKey id i) =
      if i < n then some (st.shardOf data i) else v.get (shardKey id i) := by
  have hget : ∀ j < st.k + st.m, (st.writes id data)[j]? = some (shardKey id j, st.shardOf data j) := by
    intro j hj
    rw [writes, List.getElem?_append_left (by simpa using hj)]
    simp [hj]
  split_ifs with hin
  · refine get_written_of_mem ((st.nodup_writes id data).sublist ((take_sublist _ _).map _)) ?_
    exact mem_iff_getElem?.2 ⟨i, by rw [List.getElem?_take_of_lt hin, hget i hi]⟩
  · refine get_written_of_notMem fun hmem => ?_
    obtain ⟨w, hw, hkey⟩ := mem_map.1 hmem
    obtain ⟨j, hj, hwj⟩ := mem_take_iff_getElem.1 hw
    by_cases hjk : j < st.k + st.m
    · have := hget j hjk
      rw [List.getElem?_eq_getElem (by omega), hwj] at this
      rw [Option.some.inj this] at hkey
      have := (shardKey_inj hkey).2
      omega
    · omega

/-- The length after the first `n` writes of a `put`. -/
theorem get_written_lenKey (st : ErasureStore) (v : Table String Bytes) (id : String) (data : Bytes) (n : ℕ) :
    (written v ((st.writes id data).take n)).get (lenKey id) =
      if st.k + st.m < n then some (leBytes 8 data.length) else v.get (lenKey id) := by
  split_ifs with hn
  · rw [take_of_length_le (by simp [writes]; omega)]
    exact get_written_of_mem (st.nodup_writes id data) (by simp [writes])
  · refine get_written_of_notMem fun hmem => ?_
    rw [writes, take_append_of_le_length (by simp; omega)] at hmem
    obtain ⟨w, hw, hkey⟩ := mem_map.1 hmem
    obtain ⟨i, -, rfl⟩ := mem_map.1 (mem_of_mem_take hw)
    exact shardKey_ne_lenKey id id i hkey

/-- Other records' keys are not written. -/
theorem get_written_of_ne (st : ErasureStore) (v : Table String Bytes) {id id' : String} (hne : id' ≠ id)
    (data : Bytes) (n : ℕ) (hkey : key = lenKey id' ∨ ∃ i, key = shardKey id' i) :
    (written v ((st.writes id data).take n)).get key = v.get key := by
  refine get_written_of_notMem fun hmem => ?_
  obtain ⟨w, hw, rfl⟩ := mem_map.1 hmem
  rcases mem_append.1 (mem_of_mem_take hw) with hw | hw
  · obtain ⟨i, -, rfl⟩ := mem_map.1 hw
    rcases hkey with hkey | ⟨j, hkey⟩
    · exact shardKey_ne_lenKey id id' i hkey
    · exact hne (shardKey_inj hkey).1.symm
  · obtain rfl := mem_singleton.1 hw
    rcases hkey with hkey | ⟨j, hkey⟩
    · exact hne (lenKey_inj hkey).symm
    · exact shardKey_ne_lenKey id' id j hkey.symm

/-! ## Reads -/

/-- The shards that are there, with their numbers. -/
def survivors (v : Table String Bytes) (id : String) (is : List ℕ) : List (ℕ × Bytes) :=
  is.flatMap fun i => (v.get (shardKey id i)).toList.map fun bytes => (i, bytes)

/-- The loop of `get` collects the shards that are there. -/
theorem gather_eq (s : σ) (id : String) (is : List ℕ) : gather id s is = (s, .ok (survivors (view s) id is)) := by
  induction is with
  | nil => rfl
  | cons i is ih =>
    rw [gather, get_eq]
    simp only [ih]
    rfl

/-- `get` depends on what is stored under the keys of the record only. -/
theorem get_eq_of_view (st : ErasureStore) (s : σ) (id : String) (hlen : (view s).get (lenKey id) = v.get (lenKey id))
    (hshard : ∀ i < st.k + st.m, (view s).get (shardKey id i) = v.get (shardKey id i)) :
    (st.get s id).2 = match v.get (lenKey id) with
      | none => .ok none
      | some lenBytes =>
        if lenBytes.length ≠ 8 then .error ⟨.invalidData, "corrupt length header"⟩
        else st.assemble (leNat lenBytes) (survivors v id (List.range (st.k + st.m))) := by
  have hsurvivors : survivors (view s) id (List.range (st.k + st.m)) = survivors v id (List.range (st.k + st.m)) := by
    refine flatMap_congr fun i hi => ?_
    rw [hshard i (mem_range.1 hi)]
  rw [get, get_eq, hlen]
  rcases v.get (lenKey id) with _ | lenBytes
  · rfl
  · dsimp only
    split_ifs
    · rfl
    · rw [gather_eq, hsurvivors]

/-! ## Records with lost shards -/

/-- A length and shards are stored for a record, but for the shards in `lost`. -/
structure Holds (st : ErasureStore) (v : Table String Bytes) (id : String) (len : ℕ) (shard : ℕ → Bytes)
    (lost : Finset ℕ) : Prop where
  fits : len < 2 ^ 64
  length : v.get (lenKey id) = some (leBytes 8 len)
  shards : ∀ i < st.k + st.m, v.get (shardKey id i) = if i ∈ lost then none else some (shard i)

/-- The shards that are left. -/
def left (st : ErasureStore) (lost : Finset ℕ) : List ℕ := (List.range (st.k + st.m)).filter fun i => decide (i ∉ lost)

/-- No shard is left twice. -/
theorem nodup_left (st : ErasureStore) (lost : Finset ℕ) : (st.left lost).Nodup := nodup_range.filter _

variable {lost : Finset ℕ}

/-- What is left has a number below `k + m`. -/
theorem lt_of_mem_left {i : ℕ} (h : i ∈ st.left lost) : i < st.k + st.m :=
  mem_range.1 (mem_of_mem_filter h)

/-- All are left but the lost ones. -/
theorem length_left (h : lost ⊆ Finset.range (st.k + st.m)) :
    (st.left lost).length = st.k + st.m - lost.card := by
  have hset : (st.left lost).toFinset = Finset.range (st.k + st.m) \ lost := by
    ext i
    simp [left]
  rw [← toFinset_card_of_nodup (st.nodup_left lost), hset, Finset.card_sdiff_of_subset h, Finset.card_range]

/-- The numbers of the first `n` survivors. -/
theorem map_fst_take (shard : ℕ → Bytes) (is : List ℕ) (n : ℕ) :
    ((is.map fun i => (i, shard i)).take n).map Prod.fst = is.take n := by
  rw [map_take, map_map, show (Prod.fst ∘ fun i => (i, shard i)) = id from rfl, map_id]

variable {len : ℕ} {shard : ℕ → Bytes} {lost : Finset ℕ}

/-- Of a stored record `get` finds the shards that are left. -/
theorem Holds.survivors_eq (h : Holds st v id len shard lost) :
    survivors v id (List.range (st.k + st.m)) = (st.left lost).map fun i => (i, shard i) := by
  have hrange : ∀ is : List ℕ, (∀ i ∈ is, i < st.k + st.m) → survivors v id is =
      (is.filter fun i => decide (i ∉ lost)).map fun i => (i, shard i) := by
    intro is his
    induction is with
    | nil => rfl
    | cons i is ih =>
      rw [survivors, flatMap_cons, ← survivors, ih fun j hj => his j (mem_cons_of_mem _ hj),
        h.shards i (his i mem_cons_self)]
      by_cases hi : i ∈ lost <;> simp [hi]
  exact hrange _ fun i hi => mem_range.1 hi

/-- What `get` makes of the shards that are left. -/
theorem get_of_holds (h : Holds st (view s) id len shard lost) :
    (st.get s id).2 = st.assemble len ((st.left lost).map fun i => (i, shard i)) := by
  rw [get_eq_of_view st s id rfl fun _ _ => rfl, h.length]
  simp only [length_leBytes, ne_eq, not_true_eq_false, if_false,
    leNat_leBytes_of_lt (show len < 256 ^ 8 by simpa using h.fits), h.survivors_eq]

/-- **A `put` that returns `Ok` stores the record.** -/
theorem holds_of_put (h : (st.put s id data).2 = .ok ()) :
    Holds st (view (st.put s id data).1) id data.length (st.shardOf data) ∅ := by
  obtain ⟨n, -, hview, hok, hfits⟩ := view_put st s id data
  obtain rfl := hok h
  have hlength : (st.writes id data).length = st.k + st.m + 1 := by simp [writes]
  refine ⟨hfits (by omega), ?_, fun i hi => ?_⟩
  · rw [hview, get_written_lenKey, if_pos (by omega)]
  · rw [hview, get_written_shardKey st _ _ _ _ hi, if_pos (by omega), if_neg (Finset.notMem_empty i)]

/-- The shards that `get` takes: the first `k` of those that are left. -/
def taken (st : ErasureStore) (lost : Finset ℕ) : List ℕ := (st.left lost).take st.k

/-- What `get` takes has a number below `k + m`. -/
theorem lt_of_mem_taken {i : ℕ} (h : i ∈ st.taken lost) : i < st.k + st.m := lt_of_mem_left (mem_of_mem_take h)

/-- All shards of a record, parity included, have one length. -/
theorem length_shardOf (data : Bytes) {i : ℕ} (h : i < st.k + st.m) :
    (st.shardOf data i).length = st.shardLen data :=
  st.rs_built.length_shard (st.aligned_shards data) (by rw [st.k_eq, st.m_eq]; exact h)

/-- `get` hands `k` or more shards with different numbers to `reconstruct`, and the first `k` are those it takes. -/
theorem survivors_taken (hlost : lost ⊆ Finset.range (st.k + st.m)) (hcard : lost.card ≤ st.m) (shard : ℕ → Bytes) :
    let survivors := (st.left lost).map fun i => (i, shard i)
    st.rs.k ≤ survivors.length ∧ survivors.take st.rs.k = (st.taken lost).map (fun i => (i, shard i)) ∧
      ((survivors.take st.rs.k).map Prod.fst).Nodup ∧ ∀ p ∈ survivors.take st.rs.k, p.1 < st.rs.k + st.rs.m := by
  have htaken : ((st.left lost).map fun i => (i, shard i)).take st.rs.k = (st.taken lost).map fun i => (i, shard i) := by
    rw [taken, map_take, st.k_eq]
  refine ⟨?_, htaken, ?_, fun p hp => ?_⟩
  · rw [length_map, length_left hlost, st.k_eq]
    omega
  · rw [map_fst_take]
    exact (st.nodup_left lost).sublist (take_sublist _ _)
  · rw [htaken] at hp
    obtain ⟨i, hi, rfl⟩ := mem_map.1 hp
    rw [st.k_eq, st.m_eq]
    exact lt_of_mem_taken hi

/-- What is read when the shards that `get` takes are those of one record. -/
theorem assemble_of_taken (len : ℕ) (data : Bytes) {shard : ℕ → Bytes} (hlost : lost ⊆ Finset.range (st.k + st.m))
    (hcard : lost.card ≤ st.m) (h : ∀ i ∈ st.taken lost, shard i = st.shardOf data i) :
    st.assemble len ((st.left lost).map fun i => (i, shard i)) = .ok (some ((st.shards data).flatten.take len)) := by
  obtain ⟨hcount, htaken, hnodup, hrange⟩ := survivors_taken hlost hcard shard
  have hmem : ∀ p ∈ ((st.left lost).map fun i => (i, shard i)).take st.rs.k, p.2 = st.shardOf data p.1 := by
    rw [htaken]
    intro p hp
    obtain ⟨i, hi, rfl⟩ := mem_map.1 hp
    exact h i hi
  have hsized : ∀ p ∈ ((st.left lost).map fun i => (i, shard i)).take st.rs.k, p.2.length = st.shardLen data := by
    intro p hp
    rw [hmem p hp]
    exact st.rs_built.length_shard (st.aligned_shards data) (hrange p hp)
  rw [assemble, if_neg (by rw [← st.k_eq]; omega), (st.rs_built.reconstruct_eq_ok_iff hcount
    ⟨hnodup, hrange, hsized⟩).2 ⟨st.aligned_shards data, hmem⟩]

/-- **A record is read back while no more than `m` of its shards are lost.** -/
theorem assemble_left (st : ErasureStore) (data : Bytes) (hlost : lost ⊆ Finset.range (st.k + st.m)) :
    st.assemble data.length ((st.left lost).map fun i => (i, st.shardOf data i)) =
      .ok (if lost.card ≤ st.m then some data else none) := by
  split_ifs with hm
  · rw [assemble_of_taken _ data hlost hm fun _ _ => rfl, take_flatten_shards]
  · have hcard := Finset.card_le_card hlost
    rw [Finset.card_range] at hcard
    rw [assemble, length_map, length_left hlost, if_pos (by omega)]

/-! ## Runs -/

/-- What happens to the store: a record is put, or a shard is lost. -/
inductive Event where
  | put (id : String) (data : Bytes)
  | lose (id : String) (i : ℕ)

/-- The record an event is about. -/
def Event.record : Event → String
  | .put id _ => id
  | .lose id _ => id

/-- The store over time. -/
def machine (st : ErasureStore) : Machine σ Event (Except IoError Unit) where
  step s
    | .put id data => st.put s id data
    | .lose id i => (lose s (shardKey id i), .ok ())

/-- The shards of a record that are lost in a run. -/
def lostIn (st : ErasureStore) (id : String) : List Event → Finset ℕ
  | [] => ∅
  | .lose id' i :: events =>
    if id' = id ∧ i < st.k + st.m then insert i (st.lostIn id events) else st.lostIn id events
  | .put _ _ :: events => st.lostIn id events

/-- Only numbers below `k + m` are lost. -/
theorem lostIn_subset (st : ErasureStore) (id : String) (events : List Event) :
    st.lostIn id events ⊆ Finset.range (st.k + st.m) := by
  induction events with
  | nil => exact Finset.empty_subset _
  | cons e events ih =>
    cases e with
    | put _ _ => exact ih
    | lose id' i =>
      rw [lostIn]
      split_ifs with h
      · exact Finset.insert_subset (Finset.mem_range.2 h.2) ih
      · exact ih

/-- An event about one record leaves the keys of the others alone. -/
theorem view_step_of_ne (st : ErasureStore) (s : σ) (e : Event) {id : String} (hne : id ≠ e.record)
    (hkey : key = lenKey id ∨ ∃ i, key = shardKey id i) :
    (view (st.machine.step s e).1).get key = (view s).get key := by
  cases e with
  | put id' data =>
    obtain ⟨n, -, hview, -, -⟩ := view_put st s id' data
    rw [show (st.machine.step s (.put id' data)).1 = (st.put s id' data).1 from rfl, hview]
    exact get_written_of_ne st _ hne data n hkey
  | lose id' i =>
    rw [show (st.machine.step s (.lose id' i)).1 = lose s (shardKey id' i) from rfl, view_lose, Table.get_erase_of_ne]
    rcases hkey with rfl | ⟨j, rfl⟩
    · exact (shardKey_ne_lenKey id' id i).symm
    · exact fun he => hne (shardKey_inj he).1

/-- `get` of a record does not see events about other records. -/
theorem get_step_of_ne (st : ErasureStore) (s : σ) (e : Event) {id : String} (hne : id ≠ e.record) :
    (st.get (st.machine.step s e).1 id).2 = (st.get s id).2 := by
  rw [get_eq_of_view st _ id (view_step_of_ne st s e hne (.inl rfl))
    fun i _ => view_step_of_ne st s e hne (.inr ⟨i, rfl⟩), get_eq_of_view st s id rfl fun _ _ => rfl]

/-- An event that is no `put` of the record at most loses a shard of it. -/
theorem Holds.step (h : Holds st (view s) id len shard lost) (e : Event) (hput : ∀ new, e ≠ .put id new) :
    Holds st (view (st.machine.step s e).1) id len shard (lost ∪ st.lostIn id [e]) := by
  by_cases hid : id = e.record
  · cases e with
    | put id' new => exact absurd (congrArg (Event.put · new) hid.symm) (hput new)
    | lose id' i =>
      obtain rfl : id = id' := hid
      refine ⟨h.fits, ?_, fun j hj => ?_⟩
      · rw [show (st.machine.step s (.lose id i)).1 = lose s (shardKey id i) from rfl, view_lose,
          Table.get_erase_of_ne (shardKey_ne_lenKey id id i).symm]
        exact h.length
      · rw [show (st.machine.step s (.lose id i)).1 = lose s (shardKey id i) from rfl, view_lose, Table.get_erase]
        by_cases hij : j = i
        · subst hij
          simp [lostIn, hj]
        · rw [if_neg fun he => hij (shardKey_inj he).2, h.shards j hj]
          by_cases hi : i < st.k + st.m <;> simp [lostIn, hi, hij]
  · have hnone : st.lostIn id [e] = ∅ := by
      cases e with
      | put _ _ => rfl
      | lose id' i => exact if_neg fun hc => hid hc.1.symm
    rw [hnone, Finset.union_empty]
    refine ⟨h.fits, ?_, fun i hi => ?_⟩
    · rw [view_step_of_ne st s e hid (.inl rfl), h.length]
    · rw [view_step_of_ne st s e hid (.inr ⟨i, rfl⟩), h.shards i hi]

/-- What a run loses, event by event. -/
theorem lostIn_cons (st : ErasureStore) (id : String) (e : Event) (events : List Event) :
    st.lostIn id (e :: events) = st.lostIn id [e] ∪ st.lostIn id events := by
  cases e with
  | put _ _ => simp [lostIn]
  | lose id' i =>
    rw [lostIn, lostIn]
    split_ifs
    · simp [lostIn]
    · simp [lostIn]

/-- A run without a `put` of the record at most loses shards of it. -/
theorem Holds.final (h : Holds st (view s) id len shard lost) {events : List Event}
    (hput : ∀ e ∈ events, ∀ new, e ≠ .put id new) :
    Holds st (view (st.machine.final s events)) id len shard (lost ∪ st.lostIn id events) := by
  induction events generalizing s lost with
  | nil => simpa [lostIn] using h
  | cons e events ih =>
    have hstep := h.step e (hput e mem_cons_self)
    have := ih hstep fun e he => hput e (mem_cons_of_mem _ he)
    rwa [Finset.union_assoc, ← lostIn_cons] at this

/-- **A stored record survives the loss of any `m` of its shards.**  After a `put` that returned `Ok`, and
whatever happens then apart from another `put` of the record, `get` returns its bytes while at most `m` of
its shards are lost and `None` when more are; and no event about one record changes what `get` returns for
another. -/
theorem stored_record_survives (st : ErasureStore) (id : String) (data : Bytes) (s : σ)
    (hput : (st.put s id data).2 = .ok ()) :
    (∀ events : List Event, (∀ e ∈ events, ∀ new, e ≠ .put id new) →
      (st.get (st.machine.final (st.put s id data).1 events) id).2 =
        .ok (if (st.lostIn id events).card ≤ st.m then some data else none)) ∧
      ∀ (s' : σ) (e : Event) (id' : String), id' ≠ e.record →
        (st.get (st.machine.step s' e).1 id').2 = (st.get s' id').2 := by
  refine ⟨fun events hevents => ?_, fun s' e id' hne => get_step_of_ne st s' e hne⟩
  have hholds := (holds_of_put hput).final hevents
  rw [Finset.empty_union] at hholds
  rw [get_of_holds hholds, st.assemble_left data (st.lostIn_subset id events)]

/-- Two data shards and one parity shard. -/
def small : ErasureStore where
  rs := { k := 2, m := 1, cauchy := [[1, 142]] }
  k := 2
  m := 1
  built := by decide +kernel

/-- The first shard of `[1, 2, 3]` is lost. -/
theorem stored_record_survives_loss : (small.put MemBlob.new "a" [1, 2, 3]).2 = .ok () ∧
      (small.get (small.machine.final (small.put MemBlob.new "a" [1, 2, 3]).1 [.lose "a" 0]) "a").2 =
        .ok (some [1, 2, 3]) := by
  have hput : (small.put MemBlob.new "a" [1, 2, 3]).2 = .ok () := by decide +kernel
  exact ⟨hput, (stored_record_survives small "a" [1, 2, 3] MemBlob.new hput).1 [.lose "a" 0] (by simp)⟩

end ErasureStore
end Datarail.Replication
