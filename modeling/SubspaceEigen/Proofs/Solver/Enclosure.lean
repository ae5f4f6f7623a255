import Mathlib.Analysis.InnerProductSpace.Spectrum
import SubspaceEigen.Proofs.Solver.Certificate

/-!
# Enclosure of eigenvalues

For a symmetric map the norm of a residual bounds the distance to the spectrum: in an eigenbasis each
component of a vector is multiplied by the distance of its eigenvalue, and no distance is below the
least.  A root whose residual norm is below the tolerance is therefore close to an eigenvalue of the
operator, although the solver has looked at norms alone.
-/

namespace SubspaceEigen

open scoped RealInnerProductSpace
open Column

section Spectrum

variable {n : ℕ} {f : Euclid n →ₗ[ℝ] Euclid n}

theorem inner_eigenvectorBasis_residual (hf : f.IsSymmetric) (a : ℝ) (x : Euclid n) (i : Fin n) :
    ⟪hf.eigenvectorBasis finrank_euclideanSpace_fin i, f x - a • x⟫ =
      (hf.eigenvalues finrank_euclideanSpace_fin i - a) *
        ⟪hf.eigenvectorBasis finrank_euclideanSpace_fin i, x⟫ := by
  rw [inner_sub_right, inner_smul_right, ← hf, hf.apply_eigenvectorBasis, inner_smul_left]
  simp only [RCLike.ofReal_real_eq_id, id_eq, conj_trivial]
  ring

/-- Some eigenvalue is as close to `a` as a unit vector is to being an eigenvector for it. -/
theorem exists_eigenvalue_abs_sub_le (hf : f.IsSymmetric) (a : ℝ) {x : Euclid n}
    (hx : ‖x‖ = 1) :
    ∃ mu, Module.End.HasEigenvalue f mu ∧ |a - mu| ≤ ‖f x - a • x‖ := by
  have hdim : Module.finrank ℝ (Euclid n) = n := finrank_euclideanSpace_fin
  set b := hf.eigenvectorBasis hdim with hb
  have : Nonempty (Fin n) := by
    rw [← Fin.pos_iff_nonempty, Nat.pos_iff_ne_zero]
    rintro rfl
    simp [Subsingleton.elim x 0] at hx
  obtain ⟨i, hi⟩ := Finite.exists_min fun i => |a - hf.eigenvalues hdim i|
  refine ⟨hf.eigenvalues hdim i, hf.hasEigenvalue_eigenvalues hdim i, ?_⟩
  have hsq : |a - hf.eigenvalues hdim i| ^ 2 ≤ ‖f x - a • x‖ ^ 2 := by
    calc
      |a - hf.eigenvalues hdim i| ^ 2 = ∑ j, |a - hf.eigenvalues hdim i| ^ 2 * ⟪b j, x⟫ ^ 2 := by
        rw [← Finset.mul_sum, b.sum_sq_inner_right, hx, one_pow, mul_one]
      _ ≤ ∑ j, |a - hf.eigenvalues hdim j| ^ 2 * ⟪b j, x⟫ ^ 2 := by
        refine Finset.sum_le_sum fun j _ => mul_le_mul_of_nonneg_right ?_ (sq_nonneg _)
        exact pow_le_pow_left₀ (abs_nonneg _) (hi j) 2
      _ = ∑ j, ⟪b j, f x - a • x⟫ ^ 2 := by
        refine Finset.sum_congr rfl fun j _ => ?_
        rw [hb, inner_eigenvectorBasis_residual, mul_pow, sq_abs]
        ring
      _ = ‖f x - a • x‖ ^ 2 := b.sum_sq_inner_right _
  exact (sq_le_sq₀ (abs_nonneg _) (norm_nonneg _)).mp hsq

end Spectrum

namespace Solver

variable {solver : Solver ℝ} {op : LinearOperator ℝ} {f : Euclid op.rows →ₗ[ℝ] Euclid op.rows}

/-- Every root of a solution has an eigenvalue within its residual norm, and within the tolerance if
the solve has converged. -/
theorem exists_eigenvalue_of_root (hd : solver.dense.TriangularExact)
    (hs : solver.dense.SymmetricExact) (hop : op.ActsAs f) (hf : f.IsSymmetric) (draws : ℕ → ℝ)
    (requested guess : ℕ) {solution : Solution ℝ op.rows}
    (h : (solver.solveWith draws op requested guess).outcome = .ok solution) :
    ∀ root ∈ solution.roots, ∃ mu, Module.End.HasEigenvalue f mu ∧
      |root.value - mu| ≤ root.residualNorm ∧
        (solution.status = .converged → |root.value - mu| < solver.config.tolerance) := by
  obtain ⟨p, hpose, houtcome⟩ := exists_pose_of_outcome h
  have hp := poses_of_pose hpose
  have haccounts := hp.accounts houtcome
  rw [← hp.dense_eq] at hd hs
  obtain ⟨r, -, s, hlooks, hroots⟩ := p.exists_looks_of_outcome hd (hp.actsAs hop) houtcome
  intro root hroot
  have hmem := hroot
  rw [hroots] at hmem
  obtain ⟨j, hj, -, hvalue, -, hnorm, -⟩ := Solution.exists_pair_of_mem_settle hmem
  have hcertified := hlooks.certified hs _ (List.getElem_mem hj)
  obtain ⟨mu, hmu, hle⟩ := exists_eigenvalue_abs_sub_le hf root.value hcertified.norm_vector
  rw [hvalue, ← hcertified.residual, ← Column.norm_eq, ← hnorm, ← hvalue] at hle
  refine ⟨mu, hmu, hle, fun hstatus => ?_⟩
  have hflag := (haccounts.status_iff.mp hstatus).2 root hroot
  rw [haccounts.flag_iff root hroot, hp.config_eq] at hflag
  exact hle.trans_lt hflag

/-- The matrix with columns `(2, 1)` and `(1, 2)`, and standard settings. -/
theorem exists_eigenvalue_of_root_pair :
    let a : Square ℝ 2 := #v[#v[2, 1], #v[1, 2]]
    let op : LinearOperator ℝ := .ofBlock ⟨2, a.toArray⟩
    Solver.exact.dense.TriangularExact ∧ Solver.exact.dense.SymmetricExact ∧
      op.ActsAs a.toLinearMap ∧ a.toLinearMap.IsSymmetric ∧
        ∃ solution : Solution ℝ 2,
          (Solver.exact.solveWith (fun _ => 0) op 1 0).outcome = .ok solution ∧
            ∀ root ∈ solution.roots, ∃ mu, Module.End.HasEigenvalue a.toLinearMap mu ∧
              |root.value - mu| ≤ root.residualNorm ∧
                (solution.status = .converged →
                  |root.value - mu| < Solver.exact.config.tolerance) := by
  intro a op
  have hd : Solver.exact.dense.TriangularExact := Factorizations.exact_triangularExact
  have hs : Solver.exact.dense.SymmetricExact := Factorizations.exact_symmetricExact
  have hop : op.ActsAs a.toLinearMap := LinearOperator.ofBlock_actsAs a
  have hsymm : a.IsSymmetric := by
    intro i j
    fin_cases i <;> fin_cases j <;> rfl
  have hf : a.toLinearMap.IsSymmetric := Square.toLinearMap_isSymmetric hsymm
  obtain ⟨p, hp⟩ := exists_pose_ofBlock exact_validate (fun _ => 0) a 0 one_pos
    (show 1 ≤ 2 by norm_num)
  obtain ⟨solution, hsolution⟩ := exists_outcome hd hs rfl le_rfl hop hp
  exact ⟨hd, hs, hop, hf, solution, hsolution,
    exists_eigenvalue_of_root hd hs hop hf _ 1 0 hsolution⟩

end Solver

end SubspaceEigen
