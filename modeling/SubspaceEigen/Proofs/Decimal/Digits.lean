import Mathlib.Data.List.Basic
import SubspaceEigen.Decimal.Numeral

/-!
# Digits as text

The decimal digits of a natural number as a list of characters: taken off a text whole, read back
with no error, and without leading zeros.
-/

namespace SubspaceEigen.Decimal

/-- No digit stands in front of the text. -/
def NoDigit (s : List Char) : Prop :=
  ∀ c ∈ s.head?, c.isDigit = false

@[simp] theorem noDigit_cons {c : Char} {s : List Char} : NoDigit (c :: s) ↔ c.isDigit = false := by
  simp [NoDigit]

theorem takeDigits_append {digits rest : List Char} (hdigits : ∀ c ∈ digits, c.isDigit = true)
    (hrest : NoDigit rest) : takeDigits (digits ++ rest) = (digits, rest) := by
  have hnone : rest.takeWhile Char.isDigit = [] ∧ rest.dropWhile Char.isDigit = rest := by
    cases rest with
    | nil => exact ⟨rfl, rfl⟩
    | cons c rest => simp [noDigit_cons.mp hrest]
  rw [takeDigits, List.takeWhile_append_of_pos hdigits, List.dropWhile_append_of_pos hdigits,
    hnone.1, hnone.2, List.append_nil]

/-- Digits are a whole number when no zero leads them, except where zero is the only digit. -/
structure IsWhole (digits : List Char) : Prop where
  ne_nil : digits ≠ []
  isDigit : ∀ c ∈ digits, c.isDigit = true
  leading : ∀ rest, digits = '0' :: rest → rest = []

theorem isDigit_of_mem_toDigits {n : ℕ} {c : Char} (hc : c ∈ Nat.toDigits 10 n) :
    c.isDigit = true :=
  Nat.isDigit_of_mem_toDigits (by decide) (by decide) hc

theorem digitsValue_toDigits (n : ℕ) : digitsValue 0 (Nat.toDigits 10 n) = n :=
  Nat.ofDigitChars_ten_toDigits

theorem exists_first_toDigits {n : ℕ} (hn : n ≠ 0) :
    ∃ c rest, Nat.toDigits 10 n = c :: rest ∧ c ≠ '0' := by
  induction n using Nat.strongRecOn with
  | ind n ih =>
    rw [Nat.toDigits_eq_if (by decide)]
    split
    · exact ⟨n.digitChar, [], rfl, by simpa using hn⟩
    · obtain ⟨c, rest, heq, hc⟩ := ih (n / 10) (by omega) (by omega)
      exact ⟨c, rest ++ [(n % 10).digitChar], by rw [heq]; rfl, hc⟩

theorem exists_toDigits_eq_cons {n : ℕ} (hn : n ≠ 0) :
    ∃ c rest, Nat.toDigits 10 n = c :: rest ∧ c ≠ '0' ∧ ∀ x ∈ c :: rest, x.isDigit = true := by
  obtain ⟨c, rest, heq, hc⟩ := exists_first_toDigits hn
  exact ⟨c, rest, heq, hc, fun x hx => isDigit_of_mem_toDigits (heq ▸ hx)⟩

theorem isWhole_cons {c : Char} {digits : List Char} (hc : c ≠ '0')
    (hdigits : ∀ x ∈ c :: digits, x.isDigit = true) : IsWhole (c :: digits) where
  ne_nil := List.cons_ne_nil c digits
  isDigit := hdigits
  leading := fun _ hrest => absurd (List.cons_eq_cons.mp hrest).1 hc

theorem isWhole_zero : IsWhole ['0'] where
  ne_nil := by simp
  isDigit := by simp
  leading := by simp

theorem isWhole_toDigits (n : ℕ) : IsWhole (Nat.toDigits 10 n) := by
  rcases eq_or_ne n 0 with rfl | hn
  · rw [Nat.toDigits_zero]
    exact isWhole_zero
  · obtain ⟨c, rest, heq, hc, hdigits⟩ := exists_toDigits_eq_cons hn
    rw [heq]
    exact isWhole_cons hc hdigits

/-- Digits with at least `places + 1` characters, zeros put in front where there are fewer. -/
def padded (places : ℕ) (digits : List Char) : List Char :=
  List.replicate (places + 1 - digits.length) '0' ++ digits

theorem lt_length_padded (places : ℕ) (digits : List Char) :
    places < (padded places digits).length := by
  simp only [padded, List.length_append, List.length_replicate]
  omega

theorem isDigit_of_mem_padded {places : ℕ} {digits : List Char}
    (hdigits : ∀ c ∈ digits, c.isDigit = true) {c : Char} (hc : c ∈ padded places digits) :
    c.isDigit = true := by
  rcases List.mem_append.mp hc with hc | hc
  · rw [List.eq_of_mem_replicate hc]
    rfl
  · exact hdigits c hc

/-- What stands more than `places` characters from the end is a whole number: one zero where zeros
were put in front, and the leading digits elsewhere. -/
theorem isWhole_take_padded {c : Char} {digits : List Char} (hc : c ≠ '0')
    (hdigits : ∀ x ∈ c :: digits, x.isDigit = true) (places : ℕ) :
    IsWhole ((padded places (c :: digits)).take
      ((padded places (c :: digits)).length - places)) := by
  rcases Nat.lt_or_ge digits.length places with hshort | hlong
  · obtain ⟨zeros, hzeros⟩ : ∃ k, places + 1 - (c :: digits).length = k + 1 :=
      ⟨places - (c :: digits).length, by simp only [List.length_cons]; omega⟩
    have hone : zeros + 1 + (c :: digits).length - places = 1 := by omega
    rw [padded, hzeros, List.length_append, List.length_replicate, hone]
    exact isWhole_zero
  · obtain ⟨more, hmore⟩ : ∃ k, (c :: digits).length - places = k + 1 :=
      ⟨digits.length - places, by simp only [List.length_cons]; omega⟩
    have hnone : places + 1 - (c :: digits).length = 0 := by simp only [List.length_cons]; omega
    rw [padded, hnone, List.replicate_zero, List.nil_append, hmore, List.take_succ_cons]
    exact isWhole_cons hc fun x hx => hdigits x (List.cons_subset_cons c (List.take_subset _ _) hx)

end SubspaceEigen.Decimal
