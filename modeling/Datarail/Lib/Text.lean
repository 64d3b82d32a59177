/-
# Text

The UTF-8 bytes of a string, and the string of some bytes if they are one's.
Words with a separator between them, and numbers written in decimal.
-/

import Mathlib.Data.String.Basic

namespace Lib

open List

/-- The UTF-8 bytes of a string. -/
def utf8Bytes (s : String) : List UInt8 := s.toUTF8.data.toList

/-- The string with these UTF-8 bytes, if there is one. -/
def ofUtf8 (bytes : List UInt8) : Option String := String.fromUTF8? ⟨bytes.toArray⟩

theorem ofUtf8_eq_some {bytes : List UInt8} {s : String} : ofUtf8 bytes = some s ↔ bytes = utf8Bytes s := by
  constructor
  · intro h
    unfold ofUtf8 String.fromUTF8? at h
    split_ifs at h with hvalid
    cases h
    rfl
  · rintro rfl
    unfold ofUtf8 String.fromUTF8? utf8Bytes
    have hbytes : (⟨s.toUTF8.data.toList.toArray⟩ : ByteArray) = s.toByteArray := rfl
    rw [hbytes, dif_pos s.isValidUTF8]
    rfl

theorem utf8Bytes_inj {s t : String} (h : utf8Bytes s = utf8Bytes t) : s = t :=
  String.toByteArray_inj.1 (ByteArray.ext (Array.toList_inj.1 h))

/-- Words are cut in one way at the first separator. -/
theorem append_cons_inj {α : Type} {a a' b b' : List α} {x : α} (hb : x ∉ b) (hb' : x ∉ b')
    (h : b ++ x :: a = b' ++ x :: a') : b = b' ∧ a = a' := by
  induction b generalizing b' with
  | nil =>
    cases b' with
    | nil => exact ⟨rfl, (cons.inj h).2⟩
    | cons y b' => exact absurd (cons.inj h).1 fun he => hb' (he ▸ mem_cons_self)
  | cons y b ih =>
    cases b' with
    | nil => exact absurd (cons.inj h).1 fun he => hb (he ▸ mem_cons_self)
    | cons z b' =>
      obtain ⟨rfl, htail⟩ := cons.inj h
      obtain ⟨rfl, rfl⟩ := ih (not_mem_of_not_mem_cons hb) (not_mem_of_not_mem_cons hb') htail
      exact ⟨rfl, rfl⟩

/-- Words are cut in one way at the last separator. -/
theorem append_cons_inj_right {α : Type} {a a' b b' : List α} {x : α} (hb : x ∉ b) (hb' : x ∉ b')
    (h : a ++ x :: b = a' ++ x :: b') : a = a' ∧ b = b' := by
  have hrev := congrArg reverse h
  simp only [reverse_append, reverse_cons, append_assoc, singleton_append] at hrev
  obtain ⟨hb, ha⟩ := append_cons_inj (by simpa using hb) (by simpa using hb') hrev
  exact ⟨reverse_inj.1 ha, reverse_inj.1 hb⟩

/-- A character that is no digit stands in no number. -/
theorem notMem_toDigits {c : Char} (hc : c.isDigit = false) (n : ℕ) : c ∉ Nat.toDigits 10 n := by
  intro h
  have hdigit := Nat.isDigit_of_mem_toDigits (by decide) (by decide) h
  rw [hc] at hdigit
  cases hdigit

theorem toDigits_inj {m n : ℕ} (h : Nat.toDigits 10 m = Nat.toDigits 10 n) : m = n := by
  rw [← Nat.ofDigitChars_ten_toDigits (n := m), h, Nat.ofDigitChars_ten_toDigits]

theorem toList_intRepr (z : ℤ) : (0 ≤ z ∧ z.repr.toList = Nat.toDigits 10 z.natAbs) ∨
    (z < 0 ∧ z.repr.toList = '-' :: Nat.toDigits 10 z.natAbs) := by
  rw [Int.repr_eq_if]
  split_ifs with hz
  · rw [Nat.repr_eq_ofList_toDigits, String.toList_ofList, show z.toNat = z.natAbs by omega]
    exact .inl ⟨hz, rfl⟩
  · rw [String.toList_append, Nat.repr_eq_ofList_toDigits, String.toList_ofList, String.toList_ofList,
      show (-z).toNat = z.natAbs by omega]
    exact .inr ⟨by omega, rfl⟩

theorem intRepr_inj {x y : ℤ} (h : x.repr = y.repr) : x = y := by
  have hnone (n : ℕ) : '-' ∉ Nat.toDigits 10 n := notMem_toDigits rfl n
  -- a sign on one side only would be a digit of the other
  rcases toList_intRepr x with ⟨hx, hx'⟩ | ⟨hx, hx'⟩ <;> rcases toList_intRepr y with ⟨hy, hy'⟩ | ⟨hy, hy'⟩ <;>
    rw [h, hy'] at hx'
  · have := toDigits_inj hx'
    omega
  · exact absurd (hx' ▸ mem_cons_self) (hnone x.natAbs)
  · exact absurd (hx'.symm ▸ mem_cons_self) (hnone y.natAbs)
  · have := toDigits_inj (cons.inj hx').2
    omega

/-- A text with its length before it and a colon on either side is cut off in one way. -/
theorem counted_inj {a a' b b' : String} (h : toString a.utf8ByteSize ++ (":" ++ (a ++ (":" ++ b))) =
    toString a'.utf8ByteSize ++ (":" ++ (a' ++ (":" ++ b')))) : a = a' ∧ b = b' := by
  have hcut := congrArg String.toList h
  simp only [String.toList_append, Nat.toString_eq_ofList_toDigits, String.toList_ofList] at hcut
  obtain ⟨hdigits, hrest⟩ := append_cons_inj (x := ':') (notMem_toDigits rfl _) (notMem_toDigits rfl _) hcut
  have htext : a ++ (":" ++ b) = a' ++ (":" ++ b') := String.toList_inj.1 (by simpa using hrest)
  have hbytes := congrArg utf8Bytes htext
  obtain rfl := utf8Bytes_inj (append_inj_left hbytes (toDigits_inj hdigits))
  exact ⟨rfl, (String.append_right_inj _).1 ((String.append_right_inj _).1 htext)⟩

end Lib
