import SubspaceEigen.Proofs.Euclid

/-!
# Corrections in exact arithmetic

A denominator is kept away from zero, so preconditioning takes nothing away from a residual.  Along
an axis it only scales.
-/

namespace SubspaceEigen.Correction

open scoped RealInnerProductSpace
open Column

theorem cutoff_pos : (0 : ℝ) < cutoff := by
  unfold cutoff
  norm_num

theorem denominator_ne_zero (d : ℝ) : denominator d ≠ 0 := by
  unfold denominator
  split
  · next hle =>
    rintro rfl
    rw [Scalar.abs_real, abs_zero] at hle
    exact absurd cutoff_pos (not_lt.mpr hle)
  · split
    · exact neg_ne_zero.mpr cutoff_pos.ne'
    · exact cutoff_pos.ne'

variable {n : ℕ}

theorem point_precondition {x : Vector ℝ n} {a : ℝ} {k : ℕ} (hk : k < n)
    (hx : point x = a • point (Column.unit n k)) (value : ℝ) (diagonal : Vector ℝ n) :
    point (precondition x value diagonal) =
      (a / denominator (value - diagonal[k])) • point (Column.unit n k) := by
  ext ⟨i, hi⟩
  have hentry : x[i] = a * (Column.unit n k)[i] := congrArg (fun v : Euclid n => v ⟨i, hi⟩) hx
  show (precondition x value diagonal)[i] =
    a / denominator (value - diagonal[k]) * (Column.unit n k)[i]
  rw [precondition, Vector.getElem_zipWith, hentry, getElem_unit hi]
  by_cases hik : i = k
  · subst hik
    rw [if_pos rfl, mul_one, mul_one]
  · rw [if_neg hik, mul_zero, mul_zero, zero_div]

/-- The schemes agree where the preconditioned residual is orthogonal to the Ritz vector already. -/
theorem direction_eq_precondition (scheme : CorrectionScheme) {residual vector : Vector ℝ n}
    {value : ℝ} {diagonal : Vector ℝ n}
    (h : dot vector (precondition residual value diagonal) = 0) :
    direction scheme residual vector value diagonal =
      precondition residual value diagonal := by
  cases scheme with
  | dpr => rfl
  | olsen =>
      rw [direction]
      dsimp only
      split
      · rfl
      · apply point_injective
        ext i
        simp [h]

end SubspaceEigen.Correction
