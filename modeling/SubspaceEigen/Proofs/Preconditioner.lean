import Mathlib.Algebra.Group.Pi.Units
import Mathlib.LinearAlgebra.Matrix.NonsingularInverse
import SubspaceEigen.Proofs.Correction

/-!
# The equations that corrections solve

Preconditioning is division by a diagonal matrix `M`: that of `λ − D` with its small entries moved
away from zero.  No entry is smaller than the cutoff, so `M` is invertible, whatever the diagonal.
The plain correction is the solution of `M t = r`.  Olsen's is the one solution of `M t = r − ε q`
that is orthogonal to `q`: such solutions differ by multiples of `M⁻¹ q`, and `q` is not orthogonal
to `M⁻¹ q` where the weight `qᵀ M⁻¹ q` is large enough to divide by.
-/

namespace SubspaceEigen

open Matrix

def Column.entries {n : ℕ} (x : Vector ℝ n) : Fin n → ℝ :=
  fun i => getElem x i i.isLt

theorem Column.entries_injective {n : ℕ} :
    Function.Injective (Column.entries : Vector ℝ n → Fin n → ℝ) :=
  fun _ _ h => Vector.ext fun i hi => congrFun h ⟨i, hi⟩

theorem Column.entries_pair (a b : ℝ) : entries #v[a, b] = ![a, b] := by
  funext i
  fin_cases i
  · rfl
  · rfl

theorem Column.dot_eq_dotProduct {n : ℕ} (x y : Vector ℝ n) :
    Column.dot x y = entries x ⬝ᵥ entries y := by
  rw [dot, sum_eq_sum]
  rfl

namespace Correction

open Column

/-- A distance from the diagonal as it is divided by: one whose magnitude is below the cutoff becomes
the cutoff, with its sign; zero counts as positive. -/
noncomputable def clamped (d : ℝ) : ℝ :=
  if |d| < cutoff then (if 0 ≤ d then cutoff else -cutoff) else d

theorem cutoff_le_abs_clamped (d : ℝ) : cutoff ≤ |clamped d| := by
  unfold clamped
  split
  · split
    · exact le_abs_self _
    · rw [abs_neg]
      exact le_abs_self _
  · next hlarge => exact not_lt.mp hlarge

theorem clamped_ne_zero (d : ℝ) : clamped d ≠ 0 :=
  abs_pos.mp (cutoff_pos.trans_le (cutoff_le_abs_clamped d))

theorem denominator_eq_clamped (d : ℝ) : denominator d = clamped d := by
  unfold denominator clamped
  rw [Scalar.abs_real]
  by_cases hlarge : cutoff ≤ |d|
  · rw [if_pos hlarge, if_neg (not_lt.mpr hlarge)]
  · rw [if_neg hlarge, if_pos (not_le.mp hlarge)]
    by_cases hneg : d < 0
    · rw [if_pos hneg, if_neg (not_le.mpr hneg)]
    · rw [if_neg hneg, if_pos (not_lt.mp hneg)]

section Preconditioner

variable {n : ℕ} (value : ℝ) (diagonal : Vector ℝ n)

/-- The diagonal matrix of `value − D` with its small entries moved away from zero. -/
noncomputable def preconditioner : Matrix (Fin n) (Fin n) ℝ :=
  Matrix.diagonal fun i => clamped (value - entries diagonal i)

theorem preconditioner_apply (i : Fin n) :
    preconditioner value diagonal i i = clamped (value - entries diagonal i) :=
  diagonal_apply_eq _ _

theorem isUnit_preconditioner : IsUnit (preconditioner value diagonal) := by
  rw [preconditioner, isUnit_diagonal, Pi.isUnit_iff]
  exact fun i => isUnit_iff_ne_zero.mpr (clamped_ne_zero _)

variable (x : Vector ℝ n)

theorem entries_precondition (i : Fin n) :
    entries (precondition x value diagonal) i =
      entries x i / clamped (value - entries diagonal i) := by
  rw [← denominator_eq_clamped]
  simp [entries, precondition]

theorem mulVec_precondition :
    preconditioner value diagonal *ᵥ entries (precondition x value diagonal) = entries x := by
  funext i
  rw [preconditioner, mulVec_diagonal, entries_precondition, mul_div_cancel₀ _ (clamped_ne_zero _)]

theorem mulVec_eq_entries_iff (t : Vector ℝ n) :
    preconditioner value diagonal *ᵥ entries t = entries x ↔ t = precondition x value diagonal := by
  have hinjective := mulVec_injective_iff_isUnit.mpr (isUnit_preconditioner value diagonal)
  rw [← mulVec_precondition value diagonal x, hinjective.eq_iff, entries_injective.eq_iff]

theorem inv_mulVec_entries :
    (preconditioner value diagonal)⁻¹ *ᵥ entries x = entries (precondition x value diagonal) := by
  have hdet := (isUnit_iff_isUnit_det _).mp (isUnit_preconditioner value diagonal)
  rw [← mulVec_precondition value diagonal x, mulVec_mulVec, nonsing_inv_mul _ hdet, one_mulVec]

theorem abs_precondition_le (i : Fin n) :
    |entries (precondition x value diagonal) i| ≤ |entries x i| / cutoff := by
  rw [entries_precondition, abs_div]
  exact div_le_div_of_nonneg_left (abs_nonneg _) cutoff_pos (cutoff_le_abs_clamped _)

end Preconditioner

section Olsen

variable {n : ℕ} {residual vector diagonal : Vector ℝ n} {value : ℝ}

/-- The weight `qᵀ M⁻¹ q` that Olsen's scheme divides by. -/
noncomputable def weight (vector : Vector ℝ n) (value : ℝ) (diagonal : Vector ℝ n) : ℝ :=
  entries vector ⬝ᵥ (preconditioner value diagonal)⁻¹ *ᵥ entries vector

theorem weight_eq_dot :
    weight vector value diagonal = dot vector (precondition vector value diagonal) := by
  rw [weight, inv_mulVec_entries, dot_eq_dotProduct]

theorem isUnusable_weight_iff :
    isUnusable (weight vector value diagonal) = true ↔
      |weight vector value diagonal| < Scalar.epsilon := by
  simp [isUnusable]

/-- With a weight too small to divide by, Olsen's scheme leaves the plain correction as it is. -/
theorem direction_olsen_of_lt (h : |weight vector value diagonal| < Scalar.epsilon) :
    direction .olsen residual vector value diagonal =
      direction .dpr residual vector value diagonal := by
  rw [← isUnusable_weight_iff, weight_eq_dot] at h
  simp only [direction, h, if_true]

/-- Otherwise it takes away the multiple of `M⁻¹ q` that the quotient of the weights gives. -/
theorem entries_direction_olsen (h : Scalar.epsilon ≤ |weight vector value diagonal|) :
    entries (direction .olsen residual vector value diagonal) =
      entries (precondition residual value diagonal) -
        (dot vector (precondition residual value diagonal) / weight vector value diagonal) •
          entries (precondition vector value diagonal) := by
  have husable : isUnusable (dot vector (precondition vector value diagonal)) = false := by
    rw [← weight_eq_dot, Bool.eq_false_iff, ne_eq, isUnusable_weight_iff]
    exact not_lt.mpr h
  funext i
  rw [weight_eq_dot]
  simp [direction, husable, entries, mul_comm]

theorem weight_ne_zero (h : Scalar.epsilon ≤ |weight vector value diagonal|) :
    weight vector value diagonal ≠ 0 := by
  have hpos : (0 : ℝ) < Scalar.epsilon := by
    unfold Scalar.epsilon
    positivity
  exact abs_pos.mp (hpos.trans_le h)

/-- Olsen's correction is the one column orthogonal to `q` whose product with `M` differs from the
residual by a multiple of `q`. -/
theorem orthogonal_and_mulVec_iff (h : Scalar.epsilon ≤ |weight vector value diagonal|)
    (t : Vector ℝ n) :
    (entries vector ⬝ᵥ entries t = 0 ∧ ∃ ε : ℝ,
        preconditioner value diagonal *ᵥ entries t = entries residual - ε • entries vector) ↔
      t = direction .olsen residual vector value diagonal := by
  have hweight := weight_ne_zero h
  have hvector : entries vector ⬝ᵥ entries (precondition vector value diagonal) =
      weight vector value diagonal := by rw [weight_eq_dot, dot_eq_dotProduct]
  rw [← entries_injective.eq_iff, entries_direction_olsen h, dot_eq_dotProduct]
  constructor
  · rintro ⟨horthogonal, ε, hsolves⟩
    have ht : entries t = entries (precondition residual value diagonal) -
        ε • entries (precondition vector value diagonal) := by
      apply mulVec_injective_iff_isUnit.mpr (isUnit_preconditioner value diagonal)
      rw [hsolves, mulVec_sub, mulVec_smul, mulVec_precondition, mulVec_precondition]
    rw [ht, dotProduct_sub, dotProduct_smul, hvector, smul_eq_mul, sub_eq_zero] at horthogonal
    rw [ht, horthogonal, mul_div_cancel_right₀ _ hweight]
  · intro ht
    refine ⟨?_, entries vector ⬝ᵥ entries (precondition residual value diagonal) /
      weight vector value diagonal, ?_⟩
    · rw [ht, dotProduct_sub, dotProduct_smul, hvector, smul_eq_mul, div_mul_cancel₀ _ hweight,
        sub_self]
    · rw [ht, mulVec_sub, mulVec_smul, mulVec_precondition, mulVec_precondition]

end Olsen

/-- What the corrections for a residual `r` and a Ritz vector `q` are, in terms of the preconditioner
`M`.  It is invertible and has no small entry.  The plain correction is the solution of `M t = r`,
and no larger than the cutoff allows.  Olsen's is the solution of `M t = r − ε q` orthogonal to `q`,
unless the weight `qᵀ M⁻¹ q` is too small to divide by; then it is the plain one. -/
structure DirectionsSolve {n : ℕ} (residual vector : Vector ℝ n) (value : ℝ)
    (diagonal : Vector ℝ n) : Prop where
  invertible : IsUnit (preconditioner value diagonal)
  cutoff_le : ∀ i, cutoff ≤ |preconditioner value diagonal i i|
  plain : ∀ t : Vector ℝ n, preconditioner value diagonal *ᵥ entries t = entries residual ↔
    t = direction .dpr residual vector value diagonal
  bounded : ∀ i, |entries (direction .dpr residual vector value diagonal) i| ≤
    |entries residual i| / cutoff
  olsen : Scalar.epsilon ≤ |weight vector value diagonal| → ∀ t : Vector ℝ n,
    (entries vector ⬝ᵥ entries t = 0 ∧ ∃ ε : ℝ,
        preconditioner value diagonal *ᵥ entries t = entries residual - ε • entries vector) ↔
      t = direction .olsen residual vector value diagonal
  fallback : ¬ Scalar.epsilon ≤ |weight vector value diagonal| →
    direction .olsen residual vector value diagonal =
      direction .dpr residual vector value diagonal

theorem directions_solve {n : ℕ} (residual vector : Vector ℝ n) (value : ℝ)
    (diagonal : Vector ℝ n) : DirectionsSolve residual vector value diagonal where
  invertible := isUnit_preconditioner value diagonal
  cutoff_le i := by
    rw [preconditioner_apply]
    exact cutoff_le_abs_clamped _
  plain := mulVec_eq_entries_iff value diagonal residual
  bounded := abs_precondition_le value diagonal residual
  olsen := orthogonal_and_mulVec_iff
  fallback h := direction_olsen_of_lt (not_le.mp h)

/-- At a Ritz value that is an entry of the diagonal, with that entry's axis as the Ritz vector:
Olsen's scheme takes away what the cutoff has blown up. -/
theorem directions_solve_axis :
    let q : Vector ℝ 2 := #v[1, 0]
    let d : Vector ℝ 2 := #v[1, 3]
    Scalar.epsilon ≤ |weight q 1 d| ∧ direction .olsen #v[1, 1] q 1 d = #v[0, -1 / 2] := by
  intro q d
  have hzero : clamped 0 = cutoff := by simp [clamped, cutoff_pos]
  have htwo : clamped (-2) = -2 := by
    have hlarge : ¬ |(-2 : ℝ)| < cutoff := by norm_num [cutoff]
    rw [clamped, if_neg hlarge]
  have hweight : Scalar.epsilon ≤ |weight q 1 d| := by
    have heq : weight q 1 d = 1 / cutoff := by
      rw [weight_eq_dot, dot_eq_dotProduct, dotProduct, Fin.sum_univ_two, entries_precondition,
        entries_precondition, entries_pair, entries_pair]
      simp [hzero]
    rw [heq]
    norm_num [cutoff, Scalar.epsilon]
  refine ⟨hweight, (((directions_solve #v[1, 1] q 1 d).olsen hweight _).mp ⟨?_, 1, ?_⟩).symm⟩
  · simp [q, entries_pair]
  · funext i
    rw [preconditioner, mulVec_diagonal]
    simp only [q, d, entries_pair]
    fin_cases i
    · simp
    · norm_num [htwo]

end Correction

end SubspaceEigen
