/-
# The field of the erasure code

The arithmetic of `crates/datarail-erasure/src/lib.rs` in GF(2⁸): addition is exclusive or, and a product
is looked up in the tables `EXP` and `LOG` of the powers of the generator 2 modulo `x⁸+x⁴+x³+x²+1`.

`double` is the product with the generator, as the loop that fills the tables computes it.  It is additive
and runs through all nonzero bytes before it returns to 1; a product is therefore `double` so many times
(`gfMul_power`), and everything a field needs follows.
-/

import Mathlib.Algebra.Field.Basic
import Mathlib.Dynamics.PeriodicPts.Defs
import Mathlib.Data.UInt
import Mathlib.NumberTheory.Divisors
import Mathlib.Data.List.GetD

namespace Datarail.Erasure

open List Nat Function Finset

/-! ## The tables -/

/-- The product with the generator: shift, and reduce on carry-out. -/
def double (x : UInt8) : UInt8 :=
  let carry := x &&& 0x80
  let x := x <<< 1
  if carry ≠ 0 then x ^^^ 0x1D else x

/-- One turn of the loop that fills the tables. -/
def fill : List UInt8 × List UInt8 × UInt8 → ℕ → List UInt8 × List UInt8 × UInt8
  | (exp, log, x), i => (exp.set i x, log.set x.toNat (UInt8.ofNat i), double x)

/-- `TABLES`, before the last component is dropped. -/
def tables : List UInt8 × List UInt8 × UInt8 :=
  (List.range 255).foldl fill (replicate 256 0, replicate 256 0, 1)

/-- `EXP[i]`. -/
def exp (i : ℕ) : UInt8 := tables.1.getD i 0

/-- `LOG[a as usize] as usize`. -/
def log (a : UInt8) : ℕ := (tables.2.1.getD a.toNat 0).toNat

/-- `gf_mul`. -/
def gfMul (a b : UInt8) : UInt8 :=
  if a = 0 ∨ b = 0 then 0
  else
    let s := log a + log b
    exp (s % 255)

/-- `gf_inv`, for `a ≠ 0`. -/
def gfInv (a : UInt8) : UInt8 := exp ((255 - log a) % 255)

/-! ## The powers of the generator -/

theorem double_zero : double 0 = 0 := by decide

theorem and_bit (x : UInt8) : x &&& 0x80 = 0 ∨ x &&& 0x80 = 0x80 := by
  have hbits : ∀ x : BitVec 8, x &&& 0x80#8 = 0#8 ∨ x &&& 0x80#8 = 0x80#8 := by decide +kernel
  exact (hbits x.toBitVec).imp UInt8.eq_of_toBitVec_eq UInt8.eq_of_toBitVec_eq

theorem xor_and_bit (a b : UInt8) : (a ^^^ b) &&& 0x80 = (a &&& 0x80) ^^^ (b &&& 0x80) := by
  apply UInt8.eq_of_toBitVec_eq
  ext i
  simp [Bool.and_xor_distrib_right]

theorem double_xor (a b : UInt8) : double (a ^^^ b) = double a ^^^ double b := by
  have hshift : (a ^^^ b) <<< 1 = a <<< 1 ^^^ b <<< 1 := UInt8.shiftLeft_xor
  simp only [double, hshift, xor_and_bit]
  rcases and_bit a with ha | ha <;> rcases and_bit b with hb | hb
  all_goals simp [ha, hb]
  · rw [UInt8.xor_assoc]
  · rw [UInt8.xor_assoc, UInt8.xor_assoc, UInt8.xor_comm 29]
  · rw [UInt8.xor_assoc, ← UInt8.xor_assoc 29, UInt8.xor_comm 29, UInt8.xor_assoc, UInt8.xor_self, UInt8.xor_zero]

/-- The powers of the generator. -/
def power (i : ℕ) : UInt8 := double^[i] 1

theorem iterate_zero (i : ℕ) : double^[i] 0 = 0 := iterate_fixed double_zero i

theorem iterate_xor (i : ℕ) (a b : UInt8) : double^[i] (a ^^^ b) = double^[i] a ^^^ double^[i] b := by
  induction i with
  | zero => rfl
  | succ i ih => rw [iterate_succ_apply', iterate_succ_apply', iterate_succ_apply', ih, double_xor]

theorem power_add (i j : ℕ) : power (i + j) = double^[i] (power j) := iterate_add_apply ..

theorem power_255 : power 255 = 1 := by decide +kernel

/-- The generator has order 255. -/
theorem minimalPeriod_double : minimalPeriod double 1 = 255 := by
  have hper : Function.IsPeriodicPt double 255 1 := power_255
  have hdvd := mem_divisors.2 ⟨hper.minimalPeriod_dvd, by decide⟩
  have hmin : power (minimalPeriod double 1) = 1 := isPeriodicPt_minimalPeriod double 1
  have hdivisors : divisors 255 = {1, 3, 5, 15, 17, 51, 85, 255} := by decide +kernel
  rw [hdivisors] at hdvd
  simp only [Finset.mem_insert, Finset.mem_singleton] at hdvd
  have hsmall : ∀ d ∈ [1, 3, 5, 15, 17, 51, 85], power d ≠ 1 := by decide +kernel
  rcases hdvd with h | h | h | h | h | h | h | h
  on_goal 8 => exact h
  all_goals exact absurd (h ▸ hmin) (hsmall _ (by decide))

theorem power_inj {i j : ℕ} (hi : i < 255) (hj : j < 255) (h : power i = power j) : i = j :=
  iterate_injOn_Iio_minimalPeriod (f := double) (x := 1)
    (Set.mem_Iio.2 (minimalPeriod_double ▸ hi)) (Set.mem_Iio.2 (minimalPeriod_double ▸ hj)) h

theorem power_mod (i : ℕ) : power (i % 255) = power i := by
  have h := iterate_mod_minimalPeriod_eq (f := double) (x := 1) (n := i)
  rwa [minimalPeriod_double] at h

theorem power_ne_zero (i : ℕ) : power i ≠ 0 := by
  intro h
  have hone : power 255 = 0 := by
    rw [← power_mod] at h
    have hlt : i % 255 < 255 := mod_lt _ (by decide)
    rw [← Nat.sub_add_cancel hlt.le, power_add, h, iterate_zero]
  exact absurd (power_255.symm.trans hone) (by decide)

/-- Every nonzero byte is a power of the generator: there are 255 of both. -/
theorem exists_power {a : UInt8} (ha : a ≠ 0) : ∃ i < 255, a = power i := by
  have hsub : (Finset.range 255).image (fun i => (power i).toNat) ⊆ (Finset.range 256).erase 0 := by
    intro n hn
    obtain ⟨i, -, rfl⟩ := mem_image.1 hn
    refine Finset.mem_erase.2 ⟨fun h => power_ne_zero i (UInt8.toNat_inj.1 h), ?_⟩
    exact Finset.mem_range.2 (power i).toNat_lt
  have hcard : ((Finset.range 255).image fun i => (power i).toNat).card = 255 := by
    rw [Finset.card_image_of_injOn, Finset.card_range]
    intro i hi j hj h
    exact power_inj (Finset.mem_range.1 hi) (Finset.mem_range.1 hj) (UInt8.toNat_inj.1 h)
  have heq := Finset.eq_of_subset_of_card_le hsub (by
    rw [hcard, Finset.card_erase_of_mem (Finset.mem_range.2 (by omega)), Finset.card_range])
  have hmem : a.toNat ∈ (Finset.range 256).erase 0 :=
    Finset.mem_erase.2 ⟨fun h => ha (UInt8.toNat_inj.1 h), Finset.mem_range.2 a.toNat_lt⟩
  rw [← heq] at hmem
  obtain ⟨i, hi, h⟩ := Finset.mem_image.1 hmem
  exact ⟨i, Finset.mem_range.1 hi, (UInt8.toNat_inj.1 h).symm⟩

/-! ## What the tables hold -/

/-- The tables after `n` turns. -/
structure Filled (n : ℕ) (t : List UInt8 × List UInt8 × UInt8) : Prop where
  exp_length : t.1.length = 256
  log_length : t.2.1.length = 256
  next : t.2.2 = power n
  exp_eq : ∀ j < n, t.1[j]? = some (power j)
  log_eq : ∀ j < n, t.2.1[(power j).toNat]? = some (UInt8.ofNat j)

theorem Filled.fill {n : ℕ} {t : List UInt8 × List UInt8 × UInt8} (h : Filled n t) (hn : n < 255) :
    Filled (n + 1) (fill t n) := by
  obtain ⟨exp, log, x⟩ := t
  obtain ⟨hexp, hlog, rfl, he, hl⟩ := h
  refine ⟨by simpa [Erasure.fill] using hexp, by simpa [Erasure.fill] using hlog, ?_, ?_, ?_⟩
  · exact (iterate_succ_apply' double n 1).symm
  · intro j hj
    rcases Nat.lt_succ_iff_lt_or_eq.1 hj with hj | rfl
    · simpa [Erasure.fill, getElem?_set_ne (ne_of_gt hj)] using he j hj
    · have hlt : j < exp.length := by rw [hexp]; omega
      simp [Erasure.fill, hlt]
  · intro j hj
    rcases Nat.lt_succ_iff_lt_or_eq.1 hj with hj | rfl
    · have hne : (power n).toNat ≠ (power j).toNat := fun hp =>
        absurd (power_inj hn (by omega) (UInt8.toNat_inj.1 hp)) (by omega)
      simpa [Erasure.fill, getElem?_set_ne hne] using hl j hj
    · have hlt : (power j).toNat < log.length := by rw [hlog]; exact (power j).toNat_lt
      simp [Erasure.fill, hlt]

theorem filled_tables : Filled 255 tables := by
  have hrun : ∀ n ≤ 255, Filled n ((List.range n).foldl fill (replicate 256 0, replicate 256 0, 1)) := by
    intro n
    induction n with
    | zero =>
      intro _
      exact ⟨length_replicate, length_replicate, rfl, fun j hj => absurd hj (not_lt_zero j),
        fun j hj => absurd hj (not_lt_zero j)⟩
    | succ n ih =>
      intro hn
      rw [range_succ, foldl_append]
      exact (ih (by omega)).fill (by omega)
  exact hrun 255 le_rfl

variable {i : ℕ}

theorem exp_eq (hi : i < 255) : exp i = power i := by
  rw [exp, getD_eq_getElem?_getD, filled_tables.exp_eq i hi, Option.getD_some]

theorem log_power (hi : i < 255) : log (power i) = i := by
  rw [log, getD_eq_getElem?_getD, filled_tables.log_eq i hi, Option.getD_some, UInt8.toNat_ofNat']
  exact mod_eq_of_lt (by omega)

-- nothing below computes with the tables
attribute [irreducible] tables

/-- **A product with a power of the generator doubles that many times.** -/
theorem gfMul_power (hi : i < 255) (b : UInt8) : gfMul (power i) b = double^[i] b := by
  rw [gfMul]
  by_cases hb : b = 0
  · rw [if_pos (.inr hb), hb, iterate_zero]
  · obtain ⟨j, hj, rfl⟩ := exists_power hb
    rw [if_neg (by simp [power_ne_zero])]
    simp only [log_power hi, log_power hj]
    rw [exp_eq (mod_lt _ (by decide)), power_mod, power_add]

theorem gfInv_power (hi : i < 255) : gfInv (power i) = power (255 - i) := by
  rw [gfInv, log_power hi, exp_eq (mod_lt _ (by decide)), power_mod]

/-! ## The field -/

/-- A byte as an element of GF(2⁸). -/
def Gf256 : Type := UInt8

instance : DecidableEq Gf256 := inferInstanceAs (DecidableEq UInt8)

theorem gfMul_zero (a : UInt8) : gfMul a 0 = 0 := if_pos (.inr rfl)

theorem gfMul_comm (a b : UInt8) : gfMul a b = gfMul b a := by
  simp only [gfMul, or_comm, add_comm]

theorem gfMul_assoc (a b c : UInt8) : gfMul (gfMul a b) c = gfMul a (gfMul b c) := by
  by_cases ha : a = 0
  · simp [ha, gfMul]
  by_cases hb : b = 0
  · simp [hb, gfMul]
  obtain ⟨i, hi, rfl⟩ := exists_power ha
  obtain ⟨j, hj, rfl⟩ := exists_power hb
  have hmod : (i + j) % 255 < 255 := mod_lt _ (by decide)
  have hab : gfMul (power i) (power j) = power ((i + j) % 255) := by
    rw [gfMul_power hi, ← power_add, power_mod]
  by_cases hc : c = 0
  · rw [hc, gfMul_zero, gfMul_zero, gfMul_zero]
  obtain ⟨l, hl, rfl⟩ := exists_power hc
  calc gfMul (gfMul (power i) (power j)) (power l) = double^[(i + j) % 255] (power l) := by
        rw [hab, gfMul_power hmod]
    _ = power ((l + (i + j) % 255) % 255) := by rw [← power_add, add_comm, power_mod]
    _ = power (i + (j + l)) := by rw [add_mod_mod, power_mod]; congr 1; omega
    _ = gfMul (power i) (gfMul (power j) (power l)) := by
        rw [gfMul_power hj, gfMul_power hi, power_add, power_add]

theorem gfMul_one (a : UInt8) : gfMul 1 a = a := gfMul_power (i := 0) (by decide) a

theorem gfMul_xor (a b c : UInt8) : gfMul a (b ^^^ c) = gfMul a b ^^^ gfMul a c := by
  by_cases ha : a = 0
  · simp [ha, gfMul]
  · obtain ⟨i, hi, rfl⟩ := exists_power ha
    rw [gfMul_power hi, gfMul_power hi, gfMul_power hi, iterate_xor]

theorem gfMul_gfInv {a : UInt8} (ha : a ≠ 0) : gfMul a (gfInv a) = 1 := by
  obtain ⟨i, hi, rfl⟩ := exists_power ha
  rw [gfInv_power hi, gfMul_power hi, ← power_add, Nat.add_sub_cancel' hi.le, power_255]

instance : Zero Gf256 := ⟨(0 : UInt8)⟩

instance : One Gf256 := ⟨(1 : UInt8)⟩

instance : Add Gf256 := ⟨UInt8.xor⟩

instance : Neg Gf256 := ⟨fun a => a⟩

instance : Mul Gf256 := ⟨gfMul⟩

instance : Inv Gf256 := ⟨fun a => if a = 0 then 0 else gfInv a⟩

instance : CommRing Gf256 where
  add_assoc := UInt8.xor_assoc
  zero_add _ := UInt8.zero_xor
  add_zero _ := UInt8.xor_zero
  nsmul := nsmulRec
  add_comm := UInt8.xor_comm
  left_distrib := gfMul_xor
  right_distrib (a b c : UInt8) := by
    change gfMul (a ^^^ b) c = gfMul a c ^^^ gfMul b c
    rw [gfMul_comm, gfMul_xor, gfMul_comm c a, gfMul_comm c b]
  zero_mul a := (gfMul_comm 0 a).trans (gfMul_zero a)
  mul_zero := gfMul_zero
  mul_assoc := gfMul_assoc
  one_mul := gfMul_one
  mul_one a := (gfMul_comm a 1).trans (gfMul_one a)
  zsmul := zsmulRec
  neg_add_cancel _ := UInt8.xor_self
  mul_comm := gfMul_comm

instance : Field Gf256 where
  exists_pair_ne := ⟨0, 1, by decide⟩
  mul_inv_cancel a ha := by
    change gfMul a (if a = 0 then 0 else gfInv a) = 1
    rw [if_neg ha, gfMul_gfInv ha]
  inv_zero := if_pos rfl
  nnqsmul := _
  qsmul := _

end Datarail.Erasure
