import Mathlib.Algebra.Order.Field.Power
import Mathlib.Algebra.Order.Field.Rat
import Mathlib.Tactic.Positivity
import Mathlib.Tactic.Push
import SubspaceEigen.Decimal.Layout

/-!
# Shortest decimals have digits

The decimal written for a number that is not zero is not zero either, on whichever grid it is found,
and it stays so when trailing zeros are taken off.
-/

namespace SubspaceEigen

theorem Tie.div_le_roundDiv (tie : Tie) (num den : ℕ) : num / den ≤ tie.roundDiv num den := by
  unfold Tie.roundDiv
  cases tie <;> grind

namespace Ratio

variable {r : Ratio} {e : ℤ}

def exact (r : Ratio) : ℚ :=
  r.num / r.den

theorem one_le_exact_iff (hden : 0 < r.den) : 1 ≤ r.exact ↔ r.den ≤ r.num := by
  rw [exact, one_le_div (by exact_mod_cast hden), Nat.cast_le]

theorem den_inUnits_pos (hden : 0 < r.den) (e : ℤ) : 0 < (r.inUnits 10 e).den := by
  unfold inUnits
  split
  · exact Nat.mul_pos hden (Nat.pow_pos (by decide))
  · exact hden

theorem num_inUnits_pos (hnum : 0 < r.num) (e : ℤ) : 0 < (r.inUnits 10 e).num := by
  unfold inUnits
  split
  · exact hnum
  · exact Nat.mul_pos hnum (Nat.pow_pos (by decide))

theorem exact_inUnits (r : Ratio) (e : ℤ) : (r.inUnits 10 e).exact = r.exact / 10 ^ e := by
  unfold inUnits exact
  split
  · next he =>
    obtain ⟨k, rfl⟩ := Int.eq_ofNat_of_zero_le he
    simp [div_div]
  · next he =>
    obtain ⟨k, rfl⟩ : ∃ k : ℕ, e = -k := ⟨(-e).toNat, by omega⟩
    simp [mul_div_right_comm]

theorem den_le_num_inUnits_iff (hden : 0 < r.den) :
    (r.inUnits 10 e).den ≤ (r.inUnits 10 e).num ↔ 10 ^ e ≤ r.exact := by
  rw [← one_le_exact_iff (den_inUnits_pos hden e), exact_inUnits, one_le_div (by positivity)]

theorem pow_digitCount_le {n : ℕ} (hn : n ≠ 0) : 10 ^ (digitCount n - 1) ≤ n := by
  rcases Nat.eq_zero_or_pos (digitCount n - 1) with hone | hpos
  · rw [hone]
    exact Nat.one_le_iff_ne_zero.mpr hn
  · have hlt := (Nat.length_toDigits_le_iff (by decide : 1 < 10) hpos (n := n)).not
    have hshort : ¬ (Nat.toDigits 10 n).length ≤ digitCount n - 1 := by
      unfold digitCount at hpos ⊢
      omega
    exact not_lt.mp (hlt.mp hshort)

theorem lt_pow_digitCount (n : ℕ) : n < 10 ^ digitCount n :=
  (Nat.length_toDigits_le_iff (by decide) Nat.length_toDigits_pos).mp le_rfl

theorem pow_magnitude_le (hnum : r.num ≠ 0) (hden : 0 < r.den) :
    (10 : ℚ) ^ r.magnitude ≤ r.exact := by
  unfold magnitude
  dsimp only
  split
  · next hreach => exact (den_le_num_inUnits_iff hden).mp hreach
  · have hlow : (10 : ℚ) ^ (digitCount r.num - 1) ≤ r.num := by
      exact_mod_cast pow_digitCount_le hnum
    have hhigh : (r.den : ℚ) ≤ 10 ^ digitCount r.den := by
      exact_mod_cast (lt_pow_digitCount r.den).le
    have hcount : 1 ≤ digitCount r.num := Nat.length_toDigits_pos
    calc (10 : ℚ) ^ ((digitCount r.num : ℤ) - digitCount r.den - 1)
        = 10 ^ (digitCount r.num - 1) / 10 ^ digitCount r.den := by
          rw [← zpow_natCast, ← zpow_natCast, ← zpow_sub₀ (by norm_num)]
          congr 1
          omega
      _ ≤ r.num / r.den := by
          gcongr

theorem roundTo_ne_zero (hden : 0 < r.den) (hreach : 10 ^ e ≤ r.exact) (tie : Tie) :
    r.roundTo e tie ≠ 0 := by
  have hle := (den_le_num_inUnits_iff hden).mpr hreach
  have hone : 1 ≤ (r.inUnits 10 e).num / (r.inUnits 10 e).den :=
    (Nat.one_le_div_iff (den_inUnits_pos hden e)).mpr hle
  exact Nat.one_le_iff_ne_zero.mp (hone.trans (tie.div_le_roundDiv _ _))

theorem significant_digits_ne_zero (hnum : r.num ≠ 0) (hden : 0 < r.den) {count : ℕ}
    (hcount : 0 < count) (tie : Tie) : (r.significant count tie).digits ≠ 0 := by
  unfold significant
  dsimp only
  split
  · exact (Nat.pow_pos (by decide)).ne'
  · refine roundTo_ne_zero hden (le_trans ?_ (pow_magnitude_le hnum hden)) tie
    exact zpow_le_zpow_right₀ (by norm_num) (by omega)

theorem num_ofPower_pos {count : ℕ} (hcount : 0 < count) (e : ℤ) :
    0 < (ofPower count 2 e).num := by
  unfold ofPower
  split
  · exact Nat.mul_pos hcount (Nat.pow_pos (by decide))
  · exact hcount

theorem den_ofPower_pos (count : ℕ) (e : ℤ) : 0 < (ofPower count 2 e).den := by
  unfold ofPower
  split
  · exact Nat.one_pos
  · exact Nat.pow_pos (by decide)

end Ratio

namespace Decimal

variable {mantissa : ℕ} {d : Decimal}

/-- Zero does not read back as a number other than zero. -/
theorem RoundingInterval.not_holds_zero (hmantissa : 0 < mantissa) (exponent e : ℤ) :
    (RoundingInterval.around mantissa exponent).holds 0 e = false := by
  have hlower : 0 < (RoundingInterval.around mantissa exponent).lower.num := by
    unfold RoundingInterval.around
    dsimp only
    split
    · exact Ratio.num_ofPower_pos (by omega) _
    · exact Ratio.num_ofPower_pos (by omega) _
  have hlow := Ratio.num_inUnits_pos hlower e
  unfold RoundingInterval.holds
  dsimp only
  split
  · simp [hlow.ne']
  · simp

theorem onGrid?_digits_ne_zero {i : RoundingInterval} {value : Ratio} {e : ℤ} {tie : Tie}
    (hzero : i.holds 0 e = false) (h : onGrid? i value e tie = some d) : d.digits ≠ 0 := by
  unfold onGrid? at h
  dsimp only at h
  have hbelow (hholds : i.holds ((value.inUnits 10 e).num / (value.inUnits 10 e).den) e = true) :
      (value.inUnits 10 e).num / (value.inUnits 10 e).den ≠ 0 := by
    intro hdiv
    rw [hdiv, hzero] at hholds
    exact absurd hholds (by decide)
  split at h
  · next hholds _ =>
    cases h
    have hround := tie.div_le_roundDiv (value.inUnits 10 e).num (value.inUnits 10 e).den
    exact (Nat.pos_of_ne_zero (hbelow hholds) |>.trans_le hround).ne'
  · next hholds _ =>
    cases h
    exact hbelow hholds
  · cases h
    exact Nat.succ_ne_zero _
  · cases h

theorem shortest_digits_ne_zero (hmantissa : 0 < mantissa) (exponent : ℤ) (tie : Tie) :
    (shortest mantissa exponent tie).digits ≠ 0 := by
  unfold shortest
  dsimp only
  cases hfound : List.findSome? _ _ with
  | none =>
    exact Ratio.significant_digits_ne_zero (Ratio.num_ofPower_pos hmantissa exponent).ne'
      (Ratio.den_ofPower_pos mantissa exponent) (by decide) tie
  | some d =>
    obtain ⟨more, -, hmore⟩ := List.exists_of_findSome?_eq_some hfound
    exact onGrid?_digits_ne_zero (RoundingInterval.not_holds_zero hmantissa _ _) hmore

theorem stripZeros_digits_ne_zero (fuel : ℕ) (hd : d.digits ≠ 0) :
    (stripZeros fuel d).digits ≠ 0 := by
  induction fuel generalizing d with
  | zero => exact hd
  | succ fuel ih =>
    unfold stripZeros
    split
    · next hzero => exact ih (show d.digits / 10 ≠ 0 by omega)
    · exact hd

theorem normalize_digits_ne_zero (hd : d.digits ≠ 0) : d.normalize.digits ≠ 0 :=
  stripZeros_digits_ne_zero _ hd

end Decimal

end SubspaceEigen
