import SubspaceEigen.Proofs.Dense.Systems
import SubspaceEigen.Proofs.Eigen.Phase

/-!
# Inverse iteration

Inverse iteration succeeds at every shift that is not an eigenvalue, and it does not leave an
eigenvector.
-/

namespace SubspaceEigen

open Elimination

namespace InverseIteration

variable {n : ℕ} {a : Square ℝ n} {sigma value : ComplexNumber ℝ}
  {x y : Vector (ComplexNumber ℝ) n} {steps : List (Step (ComplexNumber ℝ))}

/-- The matrix multiplies the vector by the value. -/
def Scales (a : Square ℝ n) (value : ComplexNumber ℝ) (x : Vector (ComplexNumber ℝ) n) : Prop :=
  ∀ i : Fin n, ∑ j : Fin n, ComplexNumber.ofReal (a.entry i j) * x.get j = value * x.get i

/-- The entries of the matrix `a − sigma`. -/
noncomputable def shiftedEntry (a : Square ℝ n) (sigma : ComplexNumber ℝ) (i j : ℕ) :
    ComplexNumber ℝ :=
  if i = j then ComplexNumber.ofReal (a.entry i j) - sigma else ComplexNumber.ofReal (a.entry i j)

theorem shiftedRows_eq (a : Square ℝ n) (sigma : ComplexNumber ℝ) :
    shiftedRows a sigma = rowsOf n (shiftedEntry a sigma) :=
  rfl

theorem sum_shiftedEntry (a : Square ℝ n) (sigma : ComplexNumber ℝ)
    (x : Vector (ComplexNumber ℝ) n) (i : Fin n) :
    ∑ j : Fin n, shiftedEntry a sigma i j * x.get j =
      ∑ j : Fin n, ComplexNumber.ofReal (a.entry i j) * x.get j - sigma * x.get i := by
  have hentry : ∀ j : Fin n, shiftedEntry a sigma i j * x.get j =
      ComplexNumber.ofReal (a.entry i j) * x.get j - if i = j then sigma * x.get j else 0 := by
    intro j
    by_cases hij : i = j
    · rw [shiftedEntry, if_pos (congrArg Fin.val hij), if_pos hij, sub_mul]
    · rw [shiftedEntry, if_neg fun h => hij (Fin.ext h), if_neg hij, sub_zero]
  rw [Finset.sum_congr rfl fun j _ => hentry j, Finset.sum_sub_distrib, Finset.sum_ite_eq,
    if_pos (Finset.mem_univ i)]

/-- A shift is regular exactly when it is not an eigenvalue. -/
theorem isRegular_shiftedEntry_iff :
    IsRegular n (shiftedEntry a sigma) ↔
      ∀ x : Vector (ComplexNumber ℝ) n, Scales a sigma x → ∀ z ∈ x, z = 0 := by
  refine forall_congr' fun x => imp_congr_left (forall_congr' fun i => ?_)
  rw [sum_shiftedEntry, sub_eq_zero]

theorem iterate?_succ (count : ℕ)
    (hsolve : toVector? n (solve steps x.toList) = some y) (hnorm : norm y ≠ 0) :
    iterate? steps (count + 1) x = iterate? steps count (divide y (norm y)) := by
  have hkeep : ¬ ((norm y == 0) = true ∨ Scalar.isFinite (norm y) = false) := by
    rintro (hzero | hinfinite)
    · exact hnorm (of_decide_eq_true hzero)
    · cases hinfinite
  rw [iterate?, hsolve]
  exact if_neg hkeep

/-- At a regular shift no vector but zero is lost. -/
theorem exists_iterate? (hfactor : factor? (shiftedRows a sigma) = some steps) (count : ℕ)
    (hx : ∃ z ∈ x, z ≠ 0) : ∃ y, iterate? steps count x = some y := by
  induction count generalizing x with
  | zero => exact ⟨x, rfl⟩
  | succ count ih =>
      obtain ⟨y, hsolve, hunique⟩ := solve_rowsOf (shiftedRows_eq a sigma ▸ hfactor) x
      have htakes := (hunique y).mpr rfl
      have hnorm : norm y ≠ 0 := by
        intro hzero
        obtain ⟨z, hz, hne⟩ := hx
        obtain ⟨i, hi, rfl⟩ := Vector.getElem_of_mem hz
        refine hne ((htakes ⟨i, hi⟩).symm.trans (Finset.sum_eq_zero fun j _ => ?_))
        have hy : y.get j = 0 := norm_eq_zero_iff.mp hzero _ (Vector.getElem_mem j.isLt)
        rw [hy, mul_zero]
      rw [iterate?_succ count hsolve hnorm]
      exact ih (exists_divide_ne_zero hnorm (norm_ne_zero_iff.mp hnorm))

namespace Scales

theorem map_mul (h : Scales a value x) (c : ComplexNumber ℝ) :
    Scales a value (x.map fun z => z * c) := by
  intro i
  simp only [get_map_mul, ← mul_assoc]
  rw [← Finset.sum_mul]
  exact congrArg (· * c) (h i)

theorem divide (h : Scales a value x) (size : ℝ) : Scales a value (divide x size) := by
  rw [divide_eq]
  exact h.map_mul _

theorem fixPhase (h : Scales a value x) : Scales a value (fixPhase x) := by
  obtain ⟨c, -, hphase⟩ := exists_fixPhase_eq_map_mul x
  rw [hphase]
  exact h.map_mul c

theorem of_solve (h : Scales a value x) {shift : ℝ} (hshift : shift ≠ 0)
    (hfactor : factor? (shiftedRows a (value + ComplexNumber.ofReal shift)) = some steps)
    (hsolve : toVector? n (solve steps x.toList) = some y) : Scales a value y := by
  obtain ⟨z, hz, hunique⟩ := solve_rowsOf (shiftedRows_eq a _ ▸ hfactor) x
  obtain rfl := Option.some.inj (hz.symm.trans hsolve)
  have hne : -ComplexNumber.ofReal shift ≠ 0 :=
    neg_ne_zero.mpr (ComplexNumber.ofReal_ne_zero hshift)
  have hscaled := h.map_mul (-ComplexNumber.ofReal shift)⁻¹
  rw [← (hunique _).mp fun i => ?_]
  · exact hscaled
  · rw [sum_shiftedEntry, hscaled i, get_map_mul]
    linear_combination x.get i * mul_inv_cancel₀ hne

/-- Inverse iteration does not leave an eigenvector. -/
theorem of_iterate? {shift : ℝ} (hshift : shift ≠ 0)
    (hfactor : factor? (shiftedRows a (value + ComplexNumber.ofReal shift)) = some steps)
    {count : ℕ} (h : Scales a value x) (hy : iterate? steps count x = some y) :
    Scales a value y := by
  induction count generalizing x with
  | zero => exact Option.some.inj hy ▸ h
  | succ count ih =>
      simp only [iterate?, Option.bind_eq_bind, Option.bind_eq_some_iff] at hy
      obtain ⟨z, hz, hy⟩ := hy
      split at hy
      · cases hy
      · exact ih ((h.of_solve hshift hfactor hz).divide (norm z)) hy

theorem of_vector? {k count : ℕ} {shift : ℝ} (hshift : 0 < shift) (h : Scales a value (start n k))
    (hx : vector? a value k count shift = some x) : Scales a value x := by
  induction count generalizing shift with
  | zero => cases hx
  | succ count ih =>
      rw [vector?] at hx
      split at hx
      · next y hy =>
        obtain rfl := Option.some.inj hx
        obtain ⟨steps, hsteps, hiterate⟩ := Option.bind_eq_some_iff.mp hy
        exact (of_iterate? hshift.ne' hsteps h hiterate).fixPhase
      · have hgrowth : (0 : ℝ) < growth := by
          unfold growth
          norm_num
        exact ih (mul_pos hshift hgrowth) hx

theorem mulColumn_re (h : Scales a value x) (hreal : value.im = 0) :
    a.mulColumn (x.map ComplexNumber.re) = (x.map ComplexNumber.re).map fun u => value.re * u := by
  refine takes_entry_iff.mp fun i => ?_
  have hre := congrArg ComplexNumber.re (h i)
  rw [ComplexNumber.re_sum] at hre
  simpa [hreal, Vector.get] using hre

end Scales

/-- The component `i` of the starting vector for the eigenvalue `k`, before it is normalized. -/
noncomputable def seed (k i : ℕ) : ℝ :=
  0.5 + Scalar.fract ((((i + 1) * (k + 2) : ℕ) : ℝ) * 0.618033988749895)

theorem seed_pos (k i : ℕ) : 0 < seed k i := by
  have hfract : 0 ≤ Scalar.fract ((((i + 1) * (k + 2) : ℕ) : ℝ) * 0.618033988749895) :=
    sub_nonneg.mpr (Int.floor_le _)
  rw [seed]
  positivity

noncomputable def seeds (n k : ℕ) : Vector (ComplexNumber ℝ) n :=
  Vector.ofFn fun i => ComplexNumber.ofReal (seed k i)

theorem get_seeds (k : ℕ) (i : Fin n) : (seeds n k).get i = ComplexNumber.ofReal (seed k i) :=
  Vector.getElem_ofFn i.isLt

theorem start_eq (n k : ℕ) : start n k = divide (seeds n k) (norm (seeds n k)) :=
  rfl

theorem norm_seeds_ne_zero (hpos : 0 < n) (k : ℕ) : norm (seeds n k) ≠ 0 := by
  refine norm_ne_zero_iff.mpr ⟨(seeds n k)[0], Vector.getElem_mem hpos, fun hzero => ?_⟩
  refine (seed_pos k 0).ne' ?_
  simpa [seeds] using congrArg ComplexNumber.re hzero

theorem exists_start_ne_zero (hpos : 0 < n) (k : ℕ) :
    ∃ z ∈ (start n k : Vector (ComplexNumber ℝ) n), z ≠ 0 := by
  have hnorm := norm_seeds_ne_zero hpos k
  rw [start_eq]
  exact exists_divide_ne_zero hnorm (norm_ne_zero_iff.mp hnorm)

/-- At a regular shift a vector is found. -/
theorem exists_vector? (hpos : 0 < n) {shift : ℝ}
    (hregular : IsRegular n (shiftedEntry a (value + ComplexNumber.ofReal shift))) (k count : ℕ) :
    ∃ x, vector? a value k (count + 1) shift = some x := by
  obtain ⟨steps, hsteps⟩ := exists_factor?_rowsOf_iff.mpr hregular
  rw [← shiftedRows_eq] at hsteps
  obtain ⟨y, hy⟩ := exists_iterate? hsteps solves (exists_start_ne_zero hpos k)
  refine ⟨fixPhase y, ?_⟩
  rw [vector?, hsteps, Option.bind_some, hy]

/-- A vector is found at the first shift or, if that one is singular, at the second. -/
theorem exists_vector?_of_second (hpos : 0 < n) {shift : ℝ}
    (hregular : IsRegular n (shiftedEntry a (value + ComplexNumber.ofReal (shift * growth))))
    (k count : ℕ) : ∃ x, vector? a value k (count + 2) shift = some x := by
  cases hfirst : (factor? (shiftedRows a (value + ComplexNumber.ofReal shift))).bind fun steps =>
      iterate? steps solves (start n k) with
  | some y => exact ⟨fixPhase y, by rw [vector?, hfirst]⟩
  | none =>
      obtain ⟨x, hx⟩ := exists_vector? hpos hregular k count
      refine ⟨x, ?_⟩
      rw [vector?, hfirst]
      exact hx

end InverseIteration

end SubspaceEigen
