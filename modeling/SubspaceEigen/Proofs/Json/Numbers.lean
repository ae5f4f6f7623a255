import Mathlib.Data.Int.Notation
import SubspaceEigen.Json.Reader
import SubspaceEigen.Proofs.Decimal.Digits

/-!
# Numbers read as they are written

A number is written as its sign, its digits around a point, and its exponent.  The reader takes
exactly this text off the front of a longer one, whatever follows that cannot continue a number.
-/

namespace SubspaceEigen.Json

open Decimal

variable {rest : List Char}

/-- What stands in front of the text does not continue a number. -/
def EndsNumber (s : List Char) : Prop :=
  ∀ c ∈ s.head?, c.isDigit = false ∧ c ≠ '.' ∧ c ≠ 'e' ∧ c ≠ 'E'

@[simp] theorem endsNumber_nil : EndsNumber [] := by
  simp [EndsNumber]

@[simp] theorem endsNumber_cons {c : Char} :
    EndsNumber (c :: rest) ↔ c.isDigit = false ∧ c ≠ '.' ∧ c ≠ 'e' ∧ c ≠ 'E' := by
  simp [EndsNumber]

theorem EndsNumber.noDigit (h : EndsNumber rest) : NoDigit rest :=
  fun c hc => (h c hc).1

def fractionText (fraction : List Char) : List Char :=
  if fraction = [] then [] else '.' :: fraction

def exponentText : Option ℤ → List Char
  | none => []
  | some e => 'e' :: (if 0 ≤ e then '+' else '-') :: Nat.toDigits 10 e.natAbs

namespace Number

/-- A number as it is written, with a sign on every exponent. -/
def text (n : Number) : List Char :=
  (if n.negative then ['-'] else []) ++ n.whole ++ fractionText n.fraction ++
    exponentText n.exponent

/-- The parts of a number are made of digits, and no zero leads it. -/
structure Proper (n : Number) : Prop where
  whole : IsWhole n.whole
  fraction : ∀ c ∈ n.fraction, c.isDigit = true

def ofNat (n : ℕ) : Number :=
  ⟨false, Nat.toDigits 10 n, [], none⟩

theorem proper_ofNat (n : ℕ) : (ofNat n).Proper :=
  ⟨isWhole_toDigits n, by simp [ofNat]⟩

@[simp] theorem text_ofNat (n : ℕ) : (ofNat n).text = Nat.toDigits 10 n := by
  simp [text, ofNat, fractionText, exponentText]

end Number

theorem readWhole?_append {whole : List Char} (hwhole : IsWhole whole) (hrest : NoDigit rest) :
    readWhole? (whole ++ rest) = some (whole, rest) := by
  rw [readWhole?, takeDigits_append hwhole.isDigit hrest]
  cases whole with
  | nil => exact absurd rfl hwhole.ne_nil
  | cons c others =>
    rcases eq_or_ne c '0' with rfl | hc
    · rw [hwhole.leading others rfl]
      rfl
    · simp [hc]

theorem readFraction?_append {fraction : List Char}
    (hfraction : ∀ c ∈ fraction, c.isDigit = true) (hrest : NoDigit rest)
    (hpoint : ∀ c ∈ rest.head?, c ≠ '.') :
    readFraction? (fractionText fraction ++ rest) = some (fraction, rest) := by
  unfold fractionText
  split
  · next hnil =>
    subst hnil
    cases rest with
    | nil => rfl
    | cons c others => simp_all [readFraction?]
  · next hne =>
    rw [List.cons_append, readFraction?, takeDigits_append hfraction hrest]
    simp

theorem readExponent?_sign (negative : Bool) (size : ℕ) (hrest : NoDigit rest) :
    readExponent? ('e' :: (if negative then '-' else '+') :: (Nat.toDigits 10 size ++ rest)) =
      some (some (if negative then -(size : ℤ) else size), rest) := by
  have hdigits (c) (hc : c ∈ Nat.toDigits 10 size) : c.isDigit = true :=
    isDigit_of_mem_toDigits hc
  have htake := takeDigits_append hdigits hrest
  cases negative <;> simp [readExponent?, takeSign, htake, digitsValue_toDigits]

theorem readExponent?_append (e : Option ℤ) (hrest : EndsNumber rest) :
    readExponent? (exponentText e ++ rest) = some (e, rest) := by
  cases e with
  | none =>
    cases rest with
    | nil => rfl
    | cons c others => simp_all [exponentText, readExponent?]
  | some e =>
    rcases Int.lt_or_le e 0 with he | he
    · have hsize : -(e.natAbs : ℤ) = e := by omega
      have hread := readExponent?_sign true e.natAbs hrest.noDigit
      rw [if_pos rfl, if_pos rfl, hsize] at hread
      rw [exponentText, if_neg (Int.not_le.mpr he)]
      exact hread
    · have hsize : (e.natAbs : ℤ) = e := Int.natAbs_of_nonneg he
      have hread := readExponent?_sign false e.natAbs hrest.noDigit
      rw [if_neg Bool.false_ne_true, if_neg Bool.false_ne_true, hsize] at hread
      rw [exponentText, if_pos he]
      exact hread

theorem stops_exponentText (e : Option ℤ) (hrest : EndsNumber rest) :
    NoDigit (exponentText e ++ rest) ∧ ∀ c ∈ (exponentText e ++ rest).head?, c ≠ '.' := by
  cases e with
  | none => exact ⟨hrest.noDigit, fun c hc => (hrest c hc).2.1⟩
  | some e => simp [exponentText]

theorem noDigit_fractionText (fraction : List Char) (hrest : NoDigit rest) :
    NoDigit (fractionText fraction ++ rest) := by
  unfold fractionText
  split
  · exact hrest
  · simp

/-- A number is taken off the text in front of which it is written. -/
theorem readNumber?_append {n : Number} (hn : n.Proper) (hrest : EndsNumber rest) :
    readNumber? (n.text ++ rest) = some (n, rest) := by
  obtain ⟨negative, whole, fraction, exponent⟩ := n
  obtain ⟨hdigit, hpoint⟩ := stops_exponentText exponent hrest
  have hwhole := readWhole?_append hn.whole (noDigit_fractionText fraction hdigit)
  have hfraction := readFraction?_append hn.fraction hdigit hpoint
  have hexponent := readExponent?_append exponent hrest
  cases negative with
  | true => simp [readNumber?, Number.text, hwhole, hfraction, hexponent]
  | false =>
    obtain ⟨c, others, rfl⟩ := List.exists_cons_of_ne_nil hn.whole.ne_nil
    have hc : c ≠ '-' := by
      rintro rfl
      exact absurd (hn.whole.isDigit '-' (by simp)) (by decide)
    simp only [List.cons_append] at hwhole
    simp [readNumber?, Number.text, hc, hwhole, hfraction, hexponent]

end SubspaceEigen.Json
