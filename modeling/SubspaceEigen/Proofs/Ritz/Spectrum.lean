import Mathlib.LinearAlgebra.Charpoly.ToMatrix
import Mathlib.LinearAlgebra.Eigenspace.Basic
import Mathlib.LinearAlgebra.FreeModule.PID
import Mathlib.RingTheory.Flat.TorsionFree
import Mathlib.RingTheory.SimpleRing.Principal
import SubspaceEigen.Proofs.Eigen.General

/-!
# Pencils with a real spectrum

The pencil of a map and its square has the inverses of the eigenvalues of the map.  Its eigenpairs
are all known when there are as many as its order, with independent vectors.
-/

namespace SubspaceEigen

open Column InverseIteration Polynomial

section Inverse

variable {E : Type*} [AddCommGroup E] [Module ℝ E] {g : E →ₗ[ℝ] E} {thetas : List ℝ}

theorem det_neg_one : LinearMap.det (-1 : E →ₗ[ℝ] E) = (-1) ^ Module.finrank ℝ E := by
  rw [← neg_one_smul ℝ (1 : E →ₗ[ℝ] E), LinearMap.det_smul, map_one, mul_one]

variable (hg : LinearMap.det g ≠ 0)
  (hcomplete : ∀ x : ℝ, LinearMap.det (x • (g ∘ₗ g) - g) =
    LinearMap.det (g ∘ₗ g) * (thetas.map fun theta => x - theta).prod)

include hg hcomplete

theorem det_smul_sub_one (x : ℝ) :
    LinearMap.det (x • g - 1) = LinearMap.det g * (thetas.map fun theta => x - theta).prod := by
  have hfactor : x • (g ∘ₗ g) - g = g ∘ₗ (x • g - 1) := by
    ext p
    simp
  have hdet := hcomplete x
  rw [hfactor, LinearMap.det_comp, LinearMap.det_comp, mul_assoc] at hdet
  exact mul_left_cancel₀ hg hdet

theorem det_mul_prod (hlength : thetas.length = Module.finrank ℝ E) :
    LinearMap.det g * thetas.prod = 1 := by
  have horigin := det_smul_sub_one hg hcomplete 0
  have hneg : (thetas.map fun theta => 0 - theta) = thetas.map fun theta => -1 * theta :=
    List.map_congr_left fun theta _ => by ring
  rw [zero_smul, zero_sub, det_neg_one, hneg, List.prod_map_mul, List.map_const',
    List.prod_replicate, List.map_id', hlength, mul_left_comm] at horigin
  have hsign : (-1 : ℝ) ^ Module.finrank ℝ E ≠ 0 := pow_ne_zero _ (by norm_num)
  exact mul_left_cancel₀ hsign (horigin.symm.trans (mul_one _).symm)

variable [FiniteDimensional ℝ E]

theorem eval_charpoly (hzero : ∀ theta ∈ thetas, theta ≠ 0)
    (hlength : thetas.length = Module.finrank ℝ E) {y : ℝ} (hy : y ≠ 0) :
    g.charpoly.eval y = (thetas.map fun theta => y - theta⁻¹).prod := by
  have hmap : algebraMap ℝ (E →ₗ[ℝ] E) y - g = (-y) • (y⁻¹ • g - 1) := by
    rw [smul_sub, smul_smul, neg_mul, mul_inv_cancel₀ hy, neg_one_smul, neg_smul,
      Algebra.algebraMap_eq_smul_one]
    abel
  have hfactor : (thetas.map fun theta => y - theta⁻¹) =
      thetas.map fun theta => -y * (y⁻¹ - theta) * theta⁻¹ := by
    refine List.map_congr_left fun theta htheta => ?_
    have hne := hzero theta htheta
    field_simp
    ring
  have hinverse : (thetas.map fun theta => theta⁻¹).prod = LinearMap.det g := by
    rw [← List.prod_inv]
    exact inv_eq_of_mul_eq_one_left (det_mul_prod hg hcomplete hlength)
  rw [LinearMap.eval_charpoly, hmap, LinearMap.det_smul, det_smul_sub_one hg hcomplete, hfactor,
    List.prod_map_mul, List.prod_map_mul, hinverse, List.map_const', List.prod_replicate, hlength]
  ring

theorem charpoly_of_pencil (hzero : ∀ theta ∈ thetas, theta ≠ 0)
    (hlength : thetas.length = Module.finrank ℝ E) :
    g.charpoly = (thetas.map fun theta => X - C theta⁻¹).prod := by
  have heval : ∀ y : ℝ, 0 < y →
      g.charpoly.eval y = (thetas.map fun theta => X - C theta⁻¹).prod.eval y := by
    intro y hy
    rw [eval_charpoly hg hcomplete hzero hlength hy.ne', eval_list_prod, List.map_map]
    simp only [Function.comp_def, eval_sub, eval_X, eval_C]
  exact Polynomial.eq_of_infinite_eval_eq _ _ ((Set.Ioi_infinite (0 : ℝ)).mono heval)

/-- The eigenvalues of a map are the inverses of those of its pencil. -/
theorem roots_charpoly_of_pencil (hzero : ∀ theta ∈ thetas, theta ≠ 0)
    (hlength : thetas.length = Module.finrank ℝ E) :
    g.charpoly.roots = (thetas.map fun theta => theta⁻¹ : List ℝ) := by
  have hlist : (thetas.map fun theta => X - C theta⁻¹).prod =
      (((thetas.map fun theta => theta⁻¹ : List ℝ) : Multiset ℝ).map fun a => X - C a).prod := by
    rw [Multiset.map_coe, Multiset.prod_coe, List.map_map]
    rfl
  rw [charpoly_of_pencil hg hcomplete hzero hlength, hlist,
    Polynomial.roots_multiset_prod_X_sub_C]

end Inverse

/-- The eigenpairs of the pencil `t u = θ b u`, counted with multiplicity, when all of them are
real. -/
structure IsRealSpectrum {m : ℕ} (t b : Square ℝ m) (pairs : List (ComplexEigenpair ℝ m)) :
    Prop where
  length_eq : pairs.length = m
  real : ∀ p ∈ pairs, p.value.im = 0
  eigen : ∀ p ∈ pairs, point (t.mulColumn (p.vector.map ComplexNumber.re)) =
    p.value.re • point (b.mulColumn (p.vector.map ComplexNumber.re))
  complete : ∀ x : ℝ, LinearMap.det (x • b.toLinearMap - t.toLinearMap) =
    LinearMap.det b.toLinearMap * (pairs.map fun p => x - p.value.re).prod

namespace IsRealSpectrum

variable {m : ℕ} {t b q : Square ℝ m} {pairs : List (ComplexEigenpair ℝ m)}

/-- Eigenpairs with independent vectors, as many as the order of the pencil, are all that it has. -/
theorem of_linearIndependent (hlength : pairs.length = m) (hreal : ∀ p ∈ pairs, p.value.im = 0)
    (heigen : ∀ p ∈ pairs, point (t.mulColumn (p.vector.map ComplexNumber.re)) =
      p.value.re • point (b.mulColumn (p.vector.map ComplexNumber.re)))
    (hindependent : LinearIndependent ℝ fun i : Fin pairs.length =>
      point (pairs[i].vector.map ComplexNumber.re)) : IsRealSpectrum t b pairs := by
  refine ⟨hlength, hreal, heigen, fun x => ?_⟩
  have hcard : Fintype.card (Fin pairs.length) = Module.finrank ℝ (Euclid m) := by
    rw [Fintype.card_fin, hlength, finrank_euclideanSpace_fin]
  set e := basisOfLinearIndependentOfCardEqFinrank' _ hindependent hcard with he
  have hdiagonal : x • b.toLinearMap - t.toLinearMap = b.toLinearMap ∘ₗ
      Matrix.toLin e e (Matrix.diagonal fun i : Fin pairs.length => x - pairs[i].value.re) := by
    refine e.ext fun i => ?_
    have hvector : e i = point (pairs[i].vector.map ComplexNumber.re) := by
      rw [he, coe_basisOfLinearIndependentOfCardEqFinrank']
    have hi := heigen pairs[i] (List.getElem_mem i.isLt)
    rw [Square.point_mulColumn, Square.point_mulColumn, ← hvector] at hi
    rw [LinearMap.sub_apply, LinearMap.smul_apply, hi, LinearMap.comp_apply, Matrix.toLin_self]
    simp [Matrix.diagonal, sub_smul]
  rw [hdiagonal, LinearMap.det_comp, LinearMap.det_toLin, Matrix.det_diagonal]
  exact congrArg _ (Fin.prod_univ_fun_getElem pairs fun p => x - p.value.re)

/-- The eigenpairs of one matrix, with values all different, for the pencil that is solved by it. -/
theorem of_scales (hq : b.toLinearMap ∘ₗ q.toLinearMap = t.toLinearMap) (hlength : pairs.length = m)
    (hreal : ∀ p ∈ pairs, p.value.im = 0) (hnodup : (pairs.map fun p => p.value.re).Nodup)
    (hlead : ∀ p ∈ pairs, HasRealLead p.vector) (hscales : ∀ p ∈ pairs, Scales q p.value p.vector) :
    IsRealSpectrum t b pairs := by
  have heigen : ∀ p ∈ pairs, q.toLinearMap (point (p.vector.map ComplexNumber.re)) =
      p.value.re • point (p.vector.map ComplexNumber.re) := by
    intro p hp
    rw [← Square.point_mulColumn, (hscales p hp).mulColumn_re (hreal p hp)]
    ext i
    simp
  refine of_linearIndependent hlength hreal (fun p hp => ?_) ?_
  · rw [Square.point_mulColumn, Square.point_mulColumn, ← hq, LinearMap.comp_apply, heigen p hp,
      map_smul]
  · refine Module.End.eigenvectors_linearIndependent' q.toLinearMap
      (fun i : Fin pairs.length => pairs[i].value.re) ?_ _ fun i => ?_
    · rw [← List.nodup_ofFn]
      rwa [← List.ofFn_getElem_eq_map] at hnodup
    · refine Module.End.hasEigenvector_iff.mpr ⟨Module.End.mem_eigenspace_iff.mpr
        (heigen _ (List.getElem_mem i.isLt)), ?_⟩
      rw [← norm_pos_iff, ← norm_eq]
      exact (hlead _ (List.getElem_mem i.isLt)).norm_re_pos

end IsRealSpectrum

end SubspaceEigen
