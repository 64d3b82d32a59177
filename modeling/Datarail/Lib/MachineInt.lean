/-
# Fixed-width integers

Machine integers are mathematical integers here; an operation that can leave its
range says what it does there.  `wrapI64` is the two's complement wrap of an
atomic `fetch_add`, `checkedSuccI16` the checked increment that fails at the
largest value.  `beNat` and `signed` read the big-endian bytes of an integer, and
`beBytes` and `beInt` write them; `leNat` and `leBytes` go from the other end.
`crc` is a reflected 32-bit checksum, bit by bit.
-/

import Mathlib.Data.List.Induction
import Mathlib.Tactic.NormNum
import Mathlib.Tactic.Ring
import Mathlib.Tactic.Zify

namespace Lib

open List

/-- The largest 16-bit signed integer. -/
def i16Max : ℤ := 32767

/-- The largest 32-bit signed integer. -/
def i32Max : ℤ := 2147483647

/-- The largest 64-bit signed integer. -/
def i64Max : ℤ := 9223372036854775807

/-- The smallest 64-bit signed integer. -/
def i64Min : ℤ := -9223372036854775808

/-- Reduce to the 64-bit two's complement range. -/
def wrapI64 (x : ℤ) : ℤ := (x + 9223372036854775808) % 18446744073709551616 - 9223372036854775808

/-- `checked_add(1)` on a 16-bit signed integer. -/
def checkedSuccI16 (e : ℤ) : Option ℤ := if e + 1 ≤ i16Max then some (e + 1) else none

/-- One of the eight rounds for a byte: a shift, and the polynomial where a bit falls out. -/
def crcRound (poly crc : UInt32) : UInt32 :=
  let mask := 0 - (crc &&& 1)
  (crc >>> 1) ^^^ (poly &&& mask)

/-- The reflected cyclic redundancy check with the polynomial `poly`. -/
def crc (poly : UInt32) (bytes : List UInt8) : UInt32 :=
  ~~~ bytes.foldl (fun crc b => (crcRound poly)^[8] (crc ^^^ b.toUInt32)) 0xFFFFFFFF

/-- The big-endian value of some bytes. -/
def beNat (bytes : List UInt8) : ℕ := bytes.foldl (fun n byte => 256 * n + byte.toNat) 0

/-- Two's complement of `w` bits. -/
def signed (w n : ℕ) : ℤ := if n < 2 ^ (w - 1) then n else (n : ℤ) - 2 ^ w

/-- The last `n` big-endian bytes of a natural. -/
def beBytes : ℕ → ℕ → List UInt8
  | 0, _ => []
  | n + 1, m => beBytes n (m / 256) ++ [UInt8.ofNat m]

/-- The `n` big-endian bytes of an integer, in two's complement. -/
def beInt (n : ℕ) (x : ℤ) : List UInt8 := beBytes n (x % 256 ^ n).toNat

/-- The little-endian value of some bytes. -/
def leNat (bytes : List UInt8) : ℕ := beNat bytes.reverse

/-- The first `n` little-endian bytes of a natural. -/
def leBytes (n m : ℕ) : List UInt8 := (beBytes n m).reverse

@[simp] theorem length_beBytes (n m : ℕ) : (beBytes n m).length = n := by
  induction n generalizing m with
  | zero => rfl
  | succ n ih => rw [beBytes, length_append, ih, length_singleton]

theorem beNat_concat (bytes : List UInt8) (byte : UInt8) :
    beNat (bytes ++ [byte]) = 256 * beNat bytes + byte.toNat := by
  rw [beNat, foldl_append]
  rfl

theorem beNat_beBytes (n m : ℕ) : beNat (beBytes n m) = m % 256 ^ n := by
  induction n generalizing m with
  | zero => rw [pow_zero, Nat.mod_one]; rfl
  | succ n ih =>
    have hsplit : m % 256 ^ (n + 1) = m % 256 + 256 * (m / 256 % 256 ^ n) := by
      rw [pow_succ', Nat.mod_mul]
    have hbyte : (UInt8.ofNat m).toNat = m % 256 := UInt8.toNat_ofNat'
    rw [beBytes, beNat_concat, ih, hbyte, hsplit]
    omega

@[simp] theorem length_leBytes (n m : ℕ) : (leBytes n m).length = n := by
  rw [leBytes, length_reverse, length_beBytes]

theorem leNat_leBytes_of_lt {n m : ℕ} (h : m < 256 ^ n) : leNat (leBytes n m) = m := by
  rw [leNat, leBytes, reverse_reverse, beNat_beBytes, Nat.mod_eq_of_lt h]

theorem beNat_lt (bytes : List UInt8) : beNat bytes < 256 ^ bytes.length := by
  induction bytes using reverseRecOn with
  | nil => decide
  | append_singleton bytes byte ih =>
    have hbyte : byte.toNat < 256 := byte.toNat_lt
    rw [beNat_concat, length_append, length_singleton, pow_succ]
    omega

theorem beBytes_beNat (bytes : List UInt8) : beBytes bytes.length (beNat bytes) = bytes := by
  induction bytes using reverseRecOn with
  | nil => rfl
  | append_singleton bytes byte ih =>
    have hbyte : byte.toNat < 256 := byte.toNat_lt
    have hdiv : (256 * beNat bytes + byte.toNat) / 256 = beNat bytes := by omega
    have hlast : UInt8.ofNat (256 * beNat bytes + byte.toNat) = byte := by
      apply UInt8.toNat_inj.1
      rw [UInt8.toNat_ofNat']
      omega
    rw [beNat_concat, length_append, length_singleton, beBytes, hdiv, ih, hlast]

theorem leNat_lt (bytes : List UInt8) : leNat bytes < 256 ^ bytes.length := by
  have := beNat_lt bytes.reverse
  rwa [length_reverse] at this

theorem leBytes_leNat (bytes : List UInt8) : leBytes bytes.length (leNat bytes) = bytes := by
  have := beBytes_beNat bytes.reverse
  rw [length_reverse] at this
  rw [leBytes, leNat, this, reverse_reverse]

/-- Integers less than `256 ^ n` apart are told apart by their bytes. -/
theorem beInt_inj {n : ℕ} {x y : ℤ} (hlt : |x - y| < 256 ^ n) (h : beInt n x = beInt n y) : x = y := by
  have hpos : (0 : ℤ) < 256 ^ n := by positivity
  have hmod : ∀ z : ℤ, ((z % 256 ^ n).toNat : ℤ) = z % 256 ^ n := fun z =>
    Int.toNat_of_nonneg (Int.emod_nonneg _ hpos.ne')
  have hlt' : ∀ z : ℤ, (z % 256 ^ n).toNat < 256 ^ n := by
    intro z
    have := Int.emod_lt_of_pos z hpos
    zify
    rw [hmod z]
    exact this
  have hnat := congrArg beNat h
  rw [beInt, beInt, beNat_beBytes, beNat_beBytes, Nat.mod_eq_of_lt (hlt' x), Nat.mod_eq_of_lt (hlt' y)] at hnat
  have heq : x % 256 ^ n = y % 256 ^ n := by
    rw [← hmod x, ← hmod y, hnat]
  have hdvd : (256 ^ n : ℤ) ∣ x - y := Int.dvd_of_emod_eq_zero (Int.emod_eq_emod_iff_emod_sub_eq_zero.1 heq)
  have := Int.eq_zero_of_abs_lt_dvd hdvd hlt
  omega

theorem wrapI64_mem (x : ℤ) : i64Min ≤ wrapI64 x ∧ wrapI64 x ≤ i64Max := by
  unfold wrapI64 i64Min i64Max
  omega

theorem wrapI64_of_mem {x : ℤ} (hl : i64Min ≤ x) (hu : x ≤ i64Max) : wrapI64 x = x := by
  unfold wrapI64 i64Min i64Max at *
  omega

theorem checkedSuccI16_eq_some {e n : ℤ} (h : checkedSuccI16 e = some n) : n = e + 1 := by
  unfold checkedSuccI16 at h
  split at h
  · exact (Option.some.inj h).symm
  · cases h

end Lib
