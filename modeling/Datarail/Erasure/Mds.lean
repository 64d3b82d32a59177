/-
# Any `k` shards determine the data

The code of `Datarail.Erasure.Codec` in the language of the field: a shard is, byte by byte, a row of the
code matrix times the data (`toGf_shard`).  The rows are those of the systematic Cauchy code, so that any
`k` different ones are invertible, and `reconstruct` solves for the data: it returns `data` exactly when
the first `k` survivors are shards of `data` (`reconstruct_eq_ok_iff`).
-/

import Datarail.Erasure.Codec
import Datarail.Lib.Cauchy

namespace Datarail.Erasure

open Lib Finset
open List (getD_eq_getElem mem_cons_self getElem_mem mem_cons_of_mem length_replicate getElem_map)

/-- A byte in the field. -/
def toGf (a : UInt8) : Gf256 := a

theorem toGf_inj {a b : UInt8} : toGf a = toGf b ↔ a = b := Iff.rfl

/-! ## Combinations of shards -/

@[simp] theorem length_mulAdd (c : UInt8) (out bytes : Bytes) : (mulAdd c out bytes).length = out.length := by
  induction out generalizing bytes with
  | nil => cases bytes <;> rfl
  | cons o out ih => cases bytes <;> simp [mulAdd, ih]

theorem toGf_mulAdd (c : UInt8) {out bytes : Bytes} (h : out.length = bytes.length) (p : ℕ) :
    toGf ((mulAdd c out bytes).getD p 0) = toGf (out.getD p 0) + toGf c * toGf (bytes.getD p 0) := by
  induction out generalizing bytes p with
  | nil =>
    cases bytes with
    | nil =>
      have hzero : toGf 0 + toGf c * toGf 0 = toGf 0 := by
        rw [show toGf 0 = (0 : Gf256) from rfl, mul_zero, add_zero]
      simpa [mulAdd] using hzero.symm
    | cons s bytes => simp at h
  | cons o out ih =>
    cases bytes with
    | nil => simp at h
    | cons s bytes =>
      cases p with
      | zero => rfl
      | succ p => simpa [mulAdd] using ih (by simpa using h) p

@[simp] theorem length_combine (out : Bytes) (terms : List (Bytes × UInt8)) :
    (combine out terms).length = out.length := by
  induction terms generalizing out with
  | nil => rfl
  | cons t terms ih =>
    rw [combine, ih]
    split_ifs
    · rfl
    · exact length_mulAdd _ _ _

/-- A byte of a combination. -/
theorem toGf_combine {out : Bytes} {terms : List (Bytes × UInt8)} (h : ∀ t ∈ terms, t.1.length = out.length)
    (p : ℕ) : toGf ((combine out terms).getD p 0) =
      toGf (out.getD p 0) + (terms.map fun t => toGf t.2 * toGf (t.1.getD p 0)).sum := by
  induction terms generalizing out with
  | nil => simp [combine]
  | cons t terms ih =>
    have hlen := h t mem_cons_self
    have hrest : ∀ s ∈ terms, s.1.length = out.length := fun s hs => h s (mem_cons_of_mem _ hs)
    rw [combine, List.map_cons, List.sum_cons]
    by_cases hc : t.2 = 0
    · rw [if_pos hc, ih hrest, hc, show toGf 0 = (0 : Gf256) from rfl, zero_mul, zero_add]
    · rw [if_neg hc, ih (by simpa using hrest), toGf_mulAdd _ hlen.symm, add_assoc]

theorem sum_map_eq_sum_range {α M : Type*} [AddCommMonoid M] (f : α → M) (d : α) (l : List α) :
    (l.map f).sum = ∑ i ∈ range l.length, f (l.getD i d) := by
  induction l with
  | nil => rfl
  | cons a l ih => simp [sum_range_succ', ih, add_comm]

/-! ## The code matrix -/

/-- `k` shards of `len` bytes. -/
def Aligned (k len : ℕ) (data : List Bytes) : Prop := data.length = k ∧ ∀ s ∈ data, s.length = len

theorem Aligned.length_getD {k len : ℕ} {data : List Bytes} (h : Aligned k len data) {i : ℕ} (hi : i < k) :
    (data.getD i []).length = len := by
  rw [getD_eq_getElem _ _ (h.1.symm ▸ hi)]
  exact h.2 _ (getElem_mem _)

theorem aligned_ext {k len : ℕ} {data data' : List Bytes} (h : Aligned k len data) (h' : Aligned k len data')
    (hbytes : ∀ i < k, ∀ p, (data.getD i []).getD p 0 = (data'.getD i []).getD p 0) : data = data' := by
  refine List.ext_getElem (h.1.trans h'.1.symm) fun i hi hi' => ?_
  have hik : i < k := h.1 ▸ hi
  have hl := h.2 _ (getElem_mem hi)
  have hl' := h'.2 _ (getElem_mem hi')
  refine List.ext_getElem (hl.trans hl'.symm) fun p hp hp' => ?_
  have hbyte := hbytes i hik p
  rwa [getD_eq_getElem _ _ hi, getD_eq_getElem _ _ hi', getD_eq_getElem _ _ hp,
    getD_eq_getElem _ _ hp'] at hbyte

namespace Rs

variable {rs : Rs} {k m len i : ℕ}

/-- The points of the matrix. -/
def point (i : ℕ) : Gf256 := toGf (UInt8.ofNat i)

theorem point_inj {i j : ℕ} (hi : i < 256) (hj : j < 256) (h : point i = point j) : i = j := by
  have hnat := congrArg UInt8.toNat (toGf_inj.1 h)
  rwa [UInt8.toNat_ofNat_of_lt' hi, UInt8.toNat_ofNat_of_lt' hj] at hnat

/-- The codecs there are. -/
structure Built (rs : Rs) : Prop where
  k_pos : 1 ≤ rs.k
  m_pos : 1 ≤ rs.m
  bound : rs.k + rs.m ≤ 255
  cauchy_eq : rs.cauchy = (List.range rs.m).map fun i => (List.range rs.k).map fun j =>
    gfInv (UInt8.ofNat i ^^^ UInt8.ofNat (rs.m + j))

theorem mapM_eq_ok {α β ε : Type} {f : α → Except ε β} {g : α → β} {l : List α} (h : ∀ a ∈ l, f a = .ok (g a)) :
    l.mapM f = .ok (l.map g) := by
  induction l with
  | nil => rfl
  | cons a l ih =>
    rw [List.mapM_cons, h a mem_cons_self, ih fun b hb => h b (mem_cons_of_mem _ hb)]
    rfl

theorem new_eq_ok_iff : Rs.new k m = .ok rs ↔ rs.k = k ∧ rs.m = m ∧ rs.Built := by
  rw [new]
  by_cases hbad : k < 1 ∨ m < 1 ∨ k + m > 255
  · rw [if_pos hbad]
    constructor
    · intro h
      cases h
    · rintro ⟨rfl, rfl, hk, hm, hkm, -⟩
      omega
  · rw [if_neg hbad]
    push Not at hbad
    have hrows : ((List.range m).mapM fun i => (List.range k).mapM fun j => do
          let x ← tryU8 i
          let y ← tryU8 (m + j)
          return gfInv (x ^^^ y)) =
        (Except.ok ((List.range m).map fun i => (List.range k).map fun j =>
          gfInv (UInt8.ofNat i ^^^ UInt8.ofNat (m + j))) : Except ErasureError _) := by
      refine mapM_eq_ok fun i hi => mapM_eq_ok fun j hj => ?_
      have hi' := List.mem_range.1 hi
      have hj' := List.mem_range.1 hj
      rw [tryU8, if_pos (by omega), tryU8, if_pos (by omega)]
      rfl
    rw [hrows]
    constructor
    · intro h
      cases h
      exact ⟨rfl, rfl, hbad.1, hbad.2.1, hbad.2.2, rfl⟩
    · rintro ⟨rfl, rfl, -, -, -, hc⟩
      exact congrArg (fun cauchy => Except.ok (Rs.mk rs.k rs.m cauchy)) hc.symm

variable (hrs : rs.Built)
include hrs

theorem Built.length_codeRow (hi : i < rs.k + rs.m) : (rs.codeRow i).length = rs.k := by
  rw [codeRow]
  split_ifs with hik
  · simp
  · rw [hrs.cauchy_eq, getD_eq_getElem _ _ (by simp; omega)]
    simp

/-- The rows are those of the Cauchy code. -/
theorem Built.toGf_codeRow (hi : i < rs.k + rs.m) {c : ℕ} (hc : c < rs.k) :
    toGf ((rs.codeRow i).getD c 0) = Cauchy.codeRow rs.k point (fun j => point (rs.m + j)) i c := by
  have hbound := hrs.bound
  rw [codeRow, Cauchy.codeRow]
  split_ifs with hik hic
  · subst hic
    rw [getD_eq_getElem _ _ (by simpa using hc), List.getElem_set_self]
    rfl
  · rw [getD_eq_getElem _ _ (by simpa using hc), List.getElem_set_ne hic, List.getElem_replicate]
    rfl
  · have hne : point (i - rs.k) - point (rs.m + c) ≠ 0 := sub_ne_zero.2 fun h =>
      absurd (point_inj (by omega) (by omega) h) (by omega)
    have hrow : rs.cauchy.getD (i - rs.k) [] =
        (List.range rs.k).map fun j => gfInv (UInt8.ofNat (i - rs.k) ^^^ UInt8.ofNat (rs.m + j)) := by
      rw [hrs.cauchy_eq, getD_eq_getElem _ _ (by simp; omega)]
      simp
    rw [hrow, getD_eq_getElem _ _ (by simpa using hc), getElem_map, List.getElem_range]
    exact (if_neg hne).symm

omit hrs in
/-- Shard `i` of some data: the data shards, then the parity shards. -/
def shard (rs : Rs) (len : ℕ) (data : List Bytes) (i : ℕ) : Bytes := (data ++ rs.parity len data).getD i []

theorem Built.length_parity (len : ℕ) (data : List Bytes) : (rs.parity len data).length = rs.m := by
  rw [parity, List.length_zipWith, length_replicate, hrs.cauchy_eq]
  simp

theorem Built.shard_parity (data : List Bytes) (hd : data.length = rs.k) (hik : ¬i < rs.k) (hi : i < rs.k + rs.m) :
    rs.shard len data i = combine (List.replicate len 0) (data.zip (rs.codeRow i)) := by
  have hlen := hrs.length_parity len data
  have hcauchy : rs.cauchy.length = rs.m := by rw [hrs.cauchy_eq]; simp
  rw [shard, List.getD_append_right _ _ _ _ (by omega), getD_eq_getElem _ _ (by omega), codeRow, if_neg hik,
    getD_eq_getElem _ _ (by omega)]
  simp [parity, hd]

variable {data : List Bytes}

theorem Built.length_shard (hd : Aligned rs.k len data) (hi : i < rs.k + rs.m) :
    (rs.shard len data i).length = len := by
  by_cases hik : i < rs.k
  · rw [shard, List.getD_append _ _ _ _ (by rw [hd.1]; exact hik)]
    exact hd.length_getD hik
  · rw [hrs.shard_parity data hd.1 hik hi, length_combine, length_replicate]

omit hrs in
theorem getD_replicate_self {α : Type} (a : α) (n p : ℕ) : (List.replicate n a).getD p a = a := by
  by_cases h : p < n
  · rw [getD_eq_getElem _ _ (by simpa using h), List.getElem_replicate]
  · rw [List.getD_eq_default _ _ (by simpa using h)]

/-- **A shard is a row of the code matrix times the data.** -/
theorem Built.toGf_shard (hd : Aligned rs.k len data) (hi : i < rs.k + rs.m) (p : ℕ) :
    toGf ((rs.shard len data i).getD p 0) =
      ∑ c ∈ range rs.k, toGf ((rs.codeRow i).getD c 0) * toGf ((data.getD c []).getD p 0) := by
  by_cases hik : i < rs.k
  · rw [shard, List.getD_append _ _ _ _ (by rw [hd.1]; exact hik)]
    have hrow : ∀ c ∈ range rs.k, toGf ((rs.codeRow i).getD c 0) * toGf ((data.getD c []).getD p 0) =
        if c = i then toGf ((data.getD i []).getD p 0) else 0 := by
      intro c hc
      rw [hrs.toGf_codeRow hi (mem_range.1 hc), Cauchy.codeRow, if_pos hik]
      by_cases hic : i = c
      · subst hic
        rw [if_pos rfl, if_pos rfl, one_mul]
      · rw [if_neg hic, if_neg (Ne.symm hic), zero_mul]
    rw [sum_congr rfl hrow, sum_ite_eq' (range rs.k) i, if_pos (mem_range.2 hik)]
  · have hlenrow := hrs.length_codeRow hi
    have hzip : (data.zip (rs.codeRow i)).length = rs.k := by rw [List.length_zip, hd.1, hlenrow, min_self]
    rw [hrs.shard_parity data hd.1 hik hi, toGf_combine, getD_replicate_self,
      show toGf 0 = (0 : Gf256) from rfl, zero_add, sum_map_eq_sum_range _ ([], 0), hzip]
    · refine sum_congr rfl fun c hc => ?_
      have hc' := mem_range.1 hc
      rw [getD_eq_getElem (data.zip _) _ (by rw [hzip]; exact hc'), List.getElem_zip,
        getD_eq_getElem (rs.codeRow i) _ (hlenrow.symm ▸ hc'), getD_eq_getElem data _ (hd.1.symm ▸ hc')]
    · intro t ht
      rw [length_replicate]
      exact hd.2 _ (List.of_mem_zip (by simpa using ht)).1

/-- Different rows of the code, `k` of them, are regular. -/
theorem Built.regular_codeRow {idx : List ℕ} (hlen : idx.length = rs.k) (hnodup : idx.Nodup)
    (hidx : ∀ i ∈ idx, i < rs.k + rs.m) :
    Elimination.Regular rs.k fun r c => toGf (entry (idx.map rs.codeRow) r c) := by
  have hbound := hrs.bound
  intro v hv
  refine Cauchy.eq_zero_of_codeRow (x := point) (y := fun j => point (rs.m + j)) (m := rs.m) ?_ ?_ ?_
    (fun i (hi : i ∈ idx.toFinset) => hidx i (List.mem_toFinset.1 hi)) ?_ ?_
  · intro i hi j hj h
    exact point_inj (by have := Set.mem_Iio.1 hi; omega) (by have := Set.mem_Iio.1 hj; omega) h
  · intro i hi j hj h
    have := Set.mem_Iio.1 hi
    have := Set.mem_Iio.1 hj
    exact Nat.add_left_cancel (point_inj (by omega) (by omega) h)
  · intro i hi j hj h
    exact absurd (point_inj (by omega) (by omega) h) (by omega)
  · rw [List.toFinset_card_of_nodup hnodup, hlen]
  · intro i hi
    obtain ⟨r, hr, rfl⟩ := List.mem_iff_getElem.1 (List.mem_toFinset.1 hi)
    rw [← hv r (hlen ▸ hr)]
    refine sum_congr rfl fun c hc => ?_
    have hrow : (idx.map rs.codeRow).getD r [] = rs.codeRow idx[r] := by
      rw [getD_eq_getElem _ _ (by simpa using hr), getElem_map]
    rw [← hrs.toGf_codeRow (hidx _ (getElem_mem hr)) (mem_range.1 hc), ← hrow]
    rfl

/-! ## Reconstruction -/

/-- Survivors that are shards of one size: different indices in range, and `len` bytes each. -/
structure Sound (rs : Rs) (len : ℕ) (chosen : List (ℕ × Bytes)) : Prop where
  nodup : (chosen.map Prod.fst).Nodup
  inRange : ∀ s ∈ chosen, s.1 < rs.k + rs.m
  sized : ∀ s ∈ chosen, s.2.length = len

variable {chosen : List (ℕ × Bytes)}

omit hrs in
/-- The check of survivors with different indices in range comes down to their lengths. -/
theorem foldlM_checkShard (len : ℕ) {seen : List Bool} (hnodup : (chosen.map Prod.fst).Nodup)
    (hrange : ∀ s ∈ chosen, s.1 < rs.k + rs.m) (hseen : ∀ s ∈ chosen, seen.getD s.1 false = false) :
    (∃ seen', chosen.foldlM (rs.checkShard len) seen = .ok seen' ∧ ∀ s ∈ chosen, s.2.length = len) ∨
      (chosen.foldlM (rs.checkShard len) seen = .error .raggedShards ∧ ∃ s ∈ chosen, s.2.length ≠ len) := by
  induction chosen generalizing seen with
  | nil => exact .inl ⟨seen, rfl, by simp⟩
  | cons s chosen ih =>
    obtain ⟨hs, hnodup⟩ := List.nodup_cons.1 hnodup
    have hfirst : rs.checkShard len seen s =
        if s.2.length ≠ len then .error .raggedShards else .ok (seen.set s.1 true) := by
      rw [checkShard, if_neg]
      rw [hseen s mem_cons_self]
      have := hrange s mem_cons_self
      simp
      omega
    rw [List.foldlM_cons, hfirst]
    by_cases hlen : s.2.length = len
    · rw [if_neg (by simpa using hlen)]
      have hrest : ∀ t ∈ chosen, (seen.set s.1 true).getD t.1 false = false := by
        intro t ht
        have hne : s.1 ≠ t.1 := fun he => hs (he ▸ List.mem_map_of_mem ht)
        rw [List.getD_eq_getElem?_getD, List.getElem?_set_ne hne, ← List.getD_eq_getElem?_getD]
        exact hseen t (mem_cons_of_mem _ ht)
      rcases ih hnodup (fun t ht => hrange t (mem_cons_of_mem _ ht)) hrest with
        ⟨seen', hok, hall⟩ | ⟨herr, t, ht, hne⟩
      · exact .inl ⟨seen', hok, List.forall_mem_cons.2 ⟨hlen, hall⟩⟩
      · exact .inr ⟨herr, t, mem_cons_of_mem _ ht, hne⟩
    · rw [if_pos hlen]
      exact .inr ⟨rfl, s, mem_cons_self, hlen⟩

variable {survivors : List (ℕ × Bytes)}

omit hrs in
/-- Survivors of different sizes are refused. -/
theorem reconstruct_ragged (hcount : rs.k ≤ survivors.length)
    (hnodup : ((survivors.take rs.k).map Prod.fst).Nodup) (hrange : ∀ s ∈ survivors.take rs.k, s.1 < rs.k + rs.m)
    (hragged : ∀ len, ∃ s ∈ survivors.take rs.k, s.2.length ≠ len) :
    rs.reconstruct survivors = .error .raggedShards := by
  rw [reconstruct, if_neg (Nat.not_lt.2 hcount)]
  rcases foldlM_checkShard (firstLen ((survivors.take rs.k).map Prod.snd)) hnodup hrange (fun s _ => getD_replicate_self false (rs.k + rs.m) s.1) with
    ⟨-, -, hall⟩ | ⟨herr, -⟩
  · obtain ⟨s, hs, hne⟩ := hragged _
    exact absurd (hall s hs) hne
  · simp only [herr]
    rfl

theorem Built.firstLen_chosen (hlen : chosen.length = rs.k)
    (hsound : rs.Sound len chosen) : firstLen (chosen.map Prod.snd) = len := by
  have hk := hrs.k_pos
  cases chosen with
  | nil => simp at hlen; omega
  | cons s chosen => exact hsound.sized s mem_cons_self

/-- What `reconstruct` returns, and the matrix it is computed with. -/
theorem Built.reconstruct_eq (hcount : rs.k ≤ survivors.length) (hsound : rs.Sound len (survivors.take rs.k)) :
    ∃ inv, rs.reconstruct survivors = .ok ((List.range rs.k).map fun j => combine (List.replicate len 0)
        ((survivors.take rs.k).mapIdx fun r (_, bytes) => (bytes, entry inv j r))) ∧
      ∀ r < rs.k, ∀ c < rs.k, ∑ j ∈ range rs.k, toGf (entry inv r j) *
        toGf (entry ((survivors.take rs.k).map fun s => rs.codeRow s.1) j c) = if r = c then 1 else 0 := by
  have hlen : (survivors.take rs.k).length = rs.k := by rw [List.length_take]; omega
  have hsquare : Elimination.Square (K := Gf256) rs.k ((survivors.take rs.k).map fun s => rs.codeRow s.1) := by
    refine ⟨(List.length_map _).trans hlen, fun row hrow => ?_⟩
    obtain ⟨s, hs, rfl⟩ := List.mem_map.1 hrow
    exact hrs.length_codeRow (hsound.inRange s hs)
  have hrange : ∀ i ∈ (survivors.take rs.k).map Prod.fst, i < rs.k + rs.m := by
    intro i hi
    obtain ⟨s, hs, rfl⟩ := List.mem_map.1 hi
    exact hsound.inRange s hs
  have hregular := hrs.regular_codeRow ((List.length_map _).trans hlen) hsound.nodup hrange
  rw [List.map_map] at hregular
  obtain ⟨inv, hinv, -, hleft⟩ := Elimination.invert_eq_some (fun _ hx => gfMul_gfInv hx) hsquare hregular
  refine ⟨inv, ?_, hleft⟩
  rw [reconstruct, if_neg (Nat.not_lt.2 hcount)]
  simp only [hrs.firstLen_chosen hlen hsound]
  rcases foldlM_checkShard len hsound.nodup hsound.inRange
    (fun s _ => getD_replicate_self false (rs.k + rs.m) s.1) with ⟨seen, hok, -⟩ | ⟨-, s, hs, hne⟩
  · have hmatrix : invert ((survivors.take rs.k).map fun s => rs.codeRow s.1) = some inv := hinv
    simp only [hok, hmatrix]
    rfl
  · exact absurd (hsound.sized s hs) hne

/-- **`reconstruct` solves for the data.**  It returns `data` exactly when the first `k` survivors are
shards of `data`. -/
theorem Built.reconstruct_eq_ok_iff (hcount : rs.k ≤ survivors.length) (hsound : rs.Sound len (survivors.take rs.k)) :
    rs.reconstruct survivors = .ok data ↔
      Aligned rs.k len data ∧ ∀ s ∈ survivors.take rs.k, s.2 = rs.shard len data s.1 := by
  obtain ⟨inv, hresult, hleft⟩ := hrs.reconstruct_eq hcount hsound
  set chosen := survivors.take rs.k with hchosen
  set result := (List.range rs.k).map fun j => combine (List.replicate len 0)
    (chosen.mapIdx fun r (_, bytes) => (bytes, entry inv j r)) with hdef
  have hlen : chosen.length = rs.k := by rw [hchosen, List.length_take]; omega
  have haligned : Aligned rs.k len result := by
    refine ⟨by simp [hdef], fun s hs => ?_⟩
    obtain ⟨j, -, rfl⟩ := List.mem_map.1 hs
    rw [length_combine, length_replicate]
  have hbyte : ∀ j < rs.k, ∀ p, toGf ((result.getD j []).getD p 0) =
      ∑ r ∈ range rs.k, toGf (entry inv j r) * toGf ((chosen.getD r (0, [])).2.getD p 0) := by
    intro j hj p
    rw [hdef, getD_eq_getElem ((List.range rs.k).map _) _ (by simpa using hj), getElem_map,
      List.getElem_range, toGf_combine, getD_replicate_self, show toGf 0 = (0 : Gf256) from rfl, zero_add, sum_map_eq_sum_range _ ([], 0),
      List.length_mapIdx, hlen]
    · refine sum_congr rfl fun r hr => ?_
      have hr' : r < chosen.length := hlen.symm ▸ mem_range.1 hr
      rw [getD_eq_getElem (chosen.mapIdx _) _ (by rw [List.length_mapIdx]; exact hr'),
        List.getElem_mapIdx, getD_eq_getElem chosen _ hr']
    · intro t ht
      obtain ⟨r, hr, rfl⟩ := List.mem_mapIdx.1 ht
      rw [length_replicate]
      exact hsound.sized _ (getElem_mem hr)
  have hshard : ∀ data, Aligned rs.k len data → ∀ r < rs.k, ∀ p,
      toGf ((rs.shard len data (chosen.getD r (0, [])).1).getD p 0) = ∑ c ∈ range rs.k,
        toGf (entry (chosen.map fun s => rs.codeRow s.1) r c) * toGf ((data.getD c []).getD p 0) := by
    intro data hd r hr p
    have hr' : r < chosen.length := hlen.symm ▸ hr
    have hrow : (chosen.map fun s => rs.codeRow s.1).getD r [] = rs.codeRow chosen[r].1 := by
      rw [getD_eq_getElem _ _ (by simpa using hr'), getElem_map]
    rw [getD_eq_getElem chosen _ hr', hrs.toGf_shard hd (hsound.inRange _ (getElem_mem hr'))]
    simp only [entry, hrow]
  -- byte by byte, being shards of `data` is a system of equations, and `inv` solves it
  have hsolve : ∀ data, Aligned rs.k len data → ((∀ s ∈ chosen, s.2 = rs.shard len data s.1) ↔ data = result) := by
    intro data hd
    constructor
    · intro hs
      refine aligned_ext hd haligned fun j hj p => toGf_inj.1 ?_
      rw [hbyte j hj p]
      refine (Elimination.solve_iff hleft (d := fun c => toGf ((data.getD c []).getD p 0))
        (s := fun r => toGf ((chosen.getD r (0, [])).2.getD p 0))).1 (fun r hr => ?_) j hj
      have hr' : r < chosen.length := hlen.symm ▸ hr
      have hmem : chosen.getD r (0, []) ∈ chosen := by
        rw [getD_eq_getElem _ _ hr']
        exact getElem_mem hr'
      rw [hs _ hmem, hshard data hd r hr p]
    · intro hdata s hs
      obtain ⟨r, hr', rfl⟩ := List.mem_iff_getElem.1 hs
      have hr : r < rs.k := hlen ▸ hr'
      have hsize := hsound.sized _ hs
      refine List.ext_getElem (hsize.trans (hrs.length_shard hd (hsound.inRange _ hs)).symm) fun p hp hp' => ?_
      have hsol := (Elimination.solve_iff hleft (d := fun c => toGf ((result.getD c []).getD p 0))
        (s := fun r => toGf ((chosen.getD r (0, [])).2.getD p 0))).2 (fun j hj => hbyte j hj p) r hr
      rw [← hdata, ← hshard _ hd r hr p] at hsol
      have heq := toGf_inj.1 hsol
      rwa [getD_eq_getElem chosen _ hr', getD_eq_getElem _ _ hp, getD_eq_getElem _ _ hp'] at heq
  rw [hresult]
  constructor
  · intro h
    rw [← Except.ok.inj h]
    exact ⟨haligned, (hsolve _ haligned).2 rfl⟩
  · rintro ⟨hd, hs⟩
    rw [(hsolve data hd).1 hs]

theorem Built.encode_aligned (hdata : Aligned rs.k len data) :
    rs.encode data = .ok (rs.parity len data) := by
  have hfirst : firstLen data = len := by
    cases data with
    | nil => exact absurd hdata.1.symm (Nat.ne_of_gt hrs.k_pos)
    | cons s data => exact hdata.2 s mem_cons_self
  rw [encode, if_neg (not_not.2 hdata.1), hfirst]
  exact if_neg (by simpa using hdata.2)

omit hrs in
/-- **Any `k` shards suffice.**  For all parameters in range and every `k` data shards of one length, the data is
reconstructed from `k` or more of the `k + m` shards, whichever they are and in any order. -/
theorem reconstruct_encode (hk : 1 ≤ k) (hm : 1 ≤ m) (hkm : k + m ≤ 255) {data : List Bytes}
    (hdata : Aligned k len data) :
    ∃ rs parity, Rs.new k m = .ok rs ∧ rs.encode data = .ok parity ∧ parity.length = m ∧
      ∀ survivors : List (ℕ × Bytes), k ≤ survivors.length → (survivors.map Prod.fst).Nodup →
        (∀ s ∈ survivors, (data ++ parity)[s.1]? = some s.2) → rs.reconstruct survivors = .ok data := by
  obtain ⟨rs, rfl, rfl, hrs⟩ : ∃ rs : Rs, rs.k = k ∧ rs.m = m ∧ rs.Built :=
    ⟨⟨k, m, (List.range m).map fun i => (List.range k).map fun j => gfInv (UInt8.ofNat i ^^^ UInt8.ofNat (m + j))⟩,
      rfl, rfl, hk, hm, hkm, rfl⟩
  refine ⟨rs, _, new_eq_ok_iff.2 ⟨rfl, rfl, hrs⟩, hrs.encode_aligned hdata, hrs.length_parity len data,
    fun survivors hcount hnodup hshard => ?_⟩
  have hget : ∀ s ∈ survivors.take rs.k, s.1 < rs.k + rs.m ∧ s.2 = rs.shard len data s.1 := by
    intro s hs
    have hsome := hshard s (List.mem_of_mem_take hs)
    have hlt := (List.getElem?_eq_some_iff.1 hsome).1
    rw [List.length_append, hdata.1, hrs.length_parity] at hlt
    exact ⟨hlt, by rw [shard, List.getD_eq_getElem?_getD, hsome, Option.getD_some]⟩
  refine (hrs.reconstruct_eq_ok_iff hcount ⟨?_, fun s hs => (hget s hs).1, fun s hs => ?_⟩).2
    ⟨hdata, fun s hs => (hget s hs).2⟩
  · rw [List.map_take]
    exact hnodup.sublist (List.take_sublist _ _)
  · rw [(hget s hs).2, hrs.length_shard hdata (hget s hs).1]

omit hrs in
/-- Two data shards and a parity shard, of which the first data shard is lost. -/
theorem reconstruct_encode_lost : ∃ rs p, Rs.new 2 1 = .ok rs ∧ rs.encode [[7], [9]] = .ok [p] ∧
    rs.reconstruct [(2, p), (1, [9])] = .ok [[7], [9]] := by
  obtain ⟨rs, parity, hnew, hencode, hlen, hall⟩ := reconstruct_encode (k := 2) (m := 1)
    (by decide) (by decide) (by decide) (⟨rfl, by decide⟩ : Aligned 2 1 [[7], [9]])
  obtain ⟨p, rfl⟩ := List.length_eq_one_iff.1 hlen
  exact ⟨rs, p, hnew, hencode, hall [(2, p), (1, [9])] le_rfl (by simp) (by simp)⟩

end Rs
end Datarail.Erasure
