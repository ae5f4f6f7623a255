import Mathlib.Analysis.Complex.Basic
import SubspaceEigen.Proofs.Dense.Elimination

/-!
# Complex numbers over exact reals

Over the real numbers, complex numbers in Cartesian form are the complex numbers.  They are a field,
and the weight by which elimination compares them vanishes at zero only.
-/

namespace SubspaceEigen.ComplexNumber

/-- The complex number with the same parts. -/
def equivComplex : ComplexNumber ℝ ≃ ℂ where
  toFun z := ⟨z.re, z.im⟩
  invFun z := ⟨z.re, z.im⟩
  left_inv _ := rfl
  right_inv _ := rfl

instance : Neg (ComplexNumber ℝ) := equivComplex.Neg

noncomputable instance : Inv (ComplexNumber ℝ) := equivComplex.Inv

instance : SMul ℕ (ComplexNumber ℝ) := equivComplex.smul ℕ

instance : SMul ℤ (ComplexNumber ℝ) := equivComplex.smul ℤ

noncomputable instance : SMul ℚ≥0 (ComplexNumber ℝ) := equivComplex.smul ℚ≥0

noncomputable instance : SMul ℚ (ComplexNumber ℝ) := equivComplex.smul ℚ

instance : Pow (ComplexNumber ℝ) ℕ := equivComplex.pow ℕ

noncomputable instance : Pow (ComplexNumber ℝ) ℤ := equivComplex.pow ℤ

instance : NatCast (ComplexNumber ℝ) := ⟨fun n => equivComplex.symm n⟩

instance : IntCast (ComplexNumber ℝ) := ⟨fun n => equivComplex.symm n⟩

noncomputable instance : NNRatCast (ComplexNumber ℝ) := ⟨fun q => equivComplex.symm q⟩

noncomputable instance : RatCast (ComplexNumber ℝ) := ⟨fun q => equivComplex.symm q⟩

theorem equivComplex_div (z w : ComplexNumber ℝ) :
    equivComplex (z / w) = equivComplex z / equivComplex w := by
  apply Complex.ext
  · rw [Complex.div_re, ← add_div]
    rfl
  · rw [Complex.div_im, ← sub_div]
    rfl

noncomputable instance : Field (ComplexNumber ℝ) :=
  equivComplex.injective.field equivComplex rfl rfl (fun _ _ => rfl) (fun _ _ => rfl)
    (fun _ => rfl) (fun _ _ => rfl) (fun _ => rfl) equivComplex_div (fun _ _ => rfl)
    (fun _ _ => rfl) (fun _ _ => rfl) (fun _ _ => rfl) (fun _ _ => rfl) (fun _ _ => rfl)
    (fun _ => rfl) (fun _ => rfl) (fun _ => rfl) (fun _ => rfl)

instance : LawfulBEq (ComplexNumber ℝ) where
  eq_of_beq h := by
    obtain ⟨hre, him⟩ := Bool.and_eq_true_iff.mp h
    exact congrArg₂ ComplexNumber.mk (of_decide_eq_true hre) (of_decide_eq_true him)
  rfl := Bool.and_eq_true_iff.mpr ⟨decide_eq_true rfl, decide_eq_true rfl⟩

variable (z w : ComplexNumber ℝ)

@[simp] theorem zero_re : (0 : ComplexNumber ℝ).re = 0 := rfl

@[simp] theorem zero_im : (0 : ComplexNumber ℝ).im = 0 := rfl

@[simp] theorem one_re : (1 : ComplexNumber ℝ).re = 1 := rfl

@[simp] theorem one_im : (1 : ComplexNumber ℝ).im = 0 := rfl

@[simp] theorem ofReal_re (a : ℝ) : (ofReal a).re = a := rfl

@[simp] theorem ofReal_im (a : ℝ) : (ofReal a).im = 0 := rfl

@[simp] theorem add_re : (z + w).re = z.re + w.re := rfl

@[simp] theorem add_im : (z + w).im = z.im + w.im := rfl

@[simp] theorem sub_re : (z - w).re = z.re - w.re := rfl

@[simp] theorem sub_im : (z - w).im = z.im - w.im := rfl

@[simp] theorem mul_re : (z * w).re = z.re * w.re - z.im * w.im := rfl

@[simp] theorem mul_im : (z * w).im = z.re * w.im + z.im * w.re := rfl

@[simp] theorem divReal_re (a : ℝ) : (z.divReal a).re = z.re / a := rfl

@[simp] theorem divReal_im (a : ℝ) : (z.divReal a).im = z.im / a := rfl

theorem re_sum {ι : Type*} (s : Finset ι) (f : ι → ComplexNumber ℝ) :
    (∑ i ∈ s, f i).re = ∑ i ∈ s, (f i).re :=
  map_sum (⟨⟨ComplexNumber.re, rfl⟩, fun _ _ => rfl⟩ : ComplexNumber ℝ →+ ℝ) f s

variable {z w} in
@[ext] theorem ext_parts (hre : z.re = w.re) (him : z.im = w.im) : z = w :=
  congrArg₂ ComplexNumber.mk hre him

/-- The real numbers among the complex ones. -/
noncomputable def ofRealHom : ℝ →+* ComplexNumber ℝ where
  toFun := ofReal
  map_zero' := rfl
  map_one' := rfl
  map_add' a b := by ext <;> simp
  map_mul' a b := by ext <;> simp

theorem ofRealHom_apply (a : ℝ) : ofRealHom a = ofReal a :=
  rfl

theorem ofReal_ne_zero {a : ℝ} (ha : a ≠ 0) : ofReal a ≠ 0 := fun hzero =>
  ha (congrArg re hzero)

theorem ofReal_mul_inv {a : ℝ} (ha : a ≠ 0) : ofReal a * ofReal a⁻¹ = 1 := by
  rw [← ofRealHom_apply, ← ofRealHom_apply, ← map_mul, mul_inv_cancel₀ ha, map_one]

theorem normSq_nonneg : 0 ≤ z.normSq :=
  add_nonneg (mul_self_nonneg _) (mul_self_nonneg _)

theorem normSq_eq_zero : z.normSq = 0 ↔ z = 0 := by
  constructor
  · intro h
    obtain ⟨hre, him⟩ :=
      (add_eq_zero_iff_of_nonneg (mul_self_nonneg z.re) (mul_self_nonneg z.im)).mp h
    exact ext_parts (mul_self_eq_zero.mp hre) (mul_self_eq_zero.mp him)
  · rintro rfl
    simp [normSq]

theorem normSq_mul : (z * w).normSq = z.normSq * w.normSq := by
  change (z.re * w.re - z.im * w.im) * (z.re * w.re - z.im * w.im) +
    (z.re * w.im + z.im * w.re) * (z.re * w.im + z.im * w.re) = _
  simp only [normSq]
  ring

theorem modulus_mul_self : z.modulus * z.modulus = z.normSq :=
  Real.mul_self_sqrt z.normSq_nonneg

theorem modulus_mul : (z * w).modulus = z.modulus * w.modulus := by
  rw [modulus, normSq_mul]
  exact Real.sqrt_mul z.normSq_nonneg w.normSq

theorem modulus_pos_iff : 0 < z.modulus ↔ z ≠ 0 := by
  rw [modulus, Scalar.sqrt_real, Real.sqrt_pos, z.normSq_nonneg.lt_iff_ne, ne_comm]
  exact not_congr z.normSq_eq_zero

theorem modulus_one : (1 : ComplexNumber ℝ).modulus = 1 := by
  simp [modulus, normSq]

theorem modulus_eq_one_iff : z.modulus = 1 ↔ z.normSq = 1 :=
  Real.sqrt_eq_one

theorem normSq_conj : z.conj.normSq = z.normSq := by
  rw [normSq, normSq, conj, neg_mul_neg]

theorem modulus_conj : z.conj.modulus = z.modulus := by
  rw [modulus, modulus, normSq_conj]

theorem mul_conj : z * z.conj = ofReal z.normSq := by
  refine ext_parts ?_ ?_
  · simp [conj, normSq]
  · simp [conj, mul_comm z.im]

theorem conj_mul : (z * w).conj = z.conj * w.conj := by
  refine ext_parts ?_ ?_
  · simp [conj]
  · simp [conj, add_comm]

variable {z} in
theorem mul_conj_eq_one (h : z.modulus = 1) : z * z.conj = 1 := by
  rw [mul_conj, z.modulus_eq_one_iff.mp h]
  rfl

theorem divReal_eq (a : ℝ) : z.divReal a = z * ofReal a⁻¹ := by
  refine ext_parts ?_ ?_
  · simp [div_eq_mul_inv]
  · simp [div_eq_mul_inv]

theorem normSq_divReal (a : ℝ) : (z.divReal a).normSq = z.normSq / (a * a) := by
  simp only [normSq, divReal]
  rw [div_mul_div_comm, div_mul_div_comm, add_div]

/-- The factor of modulus one that turns a number onto the positive real axis. -/
theorem mul_phase (h : 0 < z.modulus) :
    z * z.conj.divReal z.modulus = ⟨z.modulus, 0⟩ ∧ (z.conj.divReal z.modulus).normSq = 1 := by
  have hsq := z.modulus_mul_self
  constructor
  · rw [divReal_eq, ← mul_assoc, mul_conj, ← hsq, ← ofRealHom_apply, ← ofRealHom_apply, ← map_mul,
      mul_inv_cancel_right₀ h.ne']
    rfl
  · rw [normSq_divReal, normSq_conj, hsq, div_self]
    exact fun hzero => (z.modulus_pos_iff.mp h) (z.normSq_eq_zero.mp hzero)

variable {w} in
/-- The conjugate takes a turn of the number back. -/
theorem mul_conj_mul_divReal (h : w.modulus = 1) (a : ℝ) :
    w * (z * w).conj.divReal a = z.conj.divReal a := by
  rw [conj_mul, divReal_eq, divReal_eq]
  linear_combination z.conj * ofReal a⁻¹ * mul_conj_eq_one h

instance : Elimination.Faithful (ComplexNumber ℝ) where
  eq_zero_of_weight_le z h := by
    have hzero : |z.re| + |z.im| ≤ 0 := by
      simpa [Pivotal.weight, weight] using h
    have hparts := (add_eq_zero_iff_of_nonneg (abs_nonneg z.re) (abs_nonneg z.im)).mp
      (le_antisymm hzero (add_nonneg (abs_nonneg _) (abs_nonneg _)))
    exact ext_parts (abs_eq_zero.mp hparts.1) (abs_eq_zero.mp hparts.2)

end SubspaceEigen.ComplexNumber
