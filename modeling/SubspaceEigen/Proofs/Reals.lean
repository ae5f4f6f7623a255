import Mathlib.Algebra.Order.Archimedean.Real.Basic
import Mathlib.Analysis.Real.Sqrt
import SubspaceEigen.Correction
import SubspaceEigen.Orthogonal.GramSchmidt

/-!
# Exact arithmetic

The real numbers as scalars.  Here the ranking is the order, every value is finite, and no
operation rounds, so a statement about this reading is a statement about the method itself.
-/

namespace SubspaceEigen

noncomputable instance : Scalar ℝ where
  zero := 0
  one := 1
  add := (· + ·)
  sub := (· - ·)
  mul := (· * ·)
  div := (· / ·)
  neg := Neg.neg
  natCast := Nat.cast
  ofScientific := OfScientific.ofScientific
  beq x y := decide (x = y)
  lt := (· < ·)
  le := (· ≤ ·)
  decidableLT := inferInstance
  decidableLE := inferInstance
  abs := abs
  sqrt := Real.sqrt
  floor x := ⌊x⌋
  isFinite _ := true
  ranksBefore x y := decide (x ≤ y)
  ranksBefore_trans := by
    intro a b c hab hbc
    simp only [decide_eq_true_eq] at *
    exact le_trans hab hbc
  ranksBefore_total := by
    intro a b
    simpa using le_total a b

namespace Scalar

@[simp] theorem abs_real (x : ℝ) : Scalar.abs x = |x| := rfl

@[simp] theorem sqrt_real (x : ℝ) : Scalar.sqrt x = √x := rfl

@[simp] theorem isFinite_real (x : ℝ) : Scalar.isFinite x = true := rfl

theorem ranksBefore_real (x y : ℝ) : Scalar.ranksBefore x y = true ↔ x ≤ y :=
  decide_eq_true_iff

theorem max_real (x y : ℝ) : Scalar.max x y = Max.max x y := by
  unfold Scalar.max
  rcases lt_or_ge x y with h | h
  · rw [if_pos h, max_eq_right h.le]
  · rw [if_neg (not_lt.mpr h), if_pos le_rfl, max_eq_left h]

end Scalar

theorem dependenceTolerance_pos : (0 : ℝ) < dependenceTolerance := by
  unfold dependenceTolerance
  norm_num

theorem dependenceTolerance_lt_one : (dependenceTolerance : ℝ) < 1 := by
  unfold dependenceTolerance
  norm_num

end SubspaceEigen
