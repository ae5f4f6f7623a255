import SubspaceEigen.Proofs.Solver.Outcome
import SubspaceEigen.Proofs.Solver.Restarts

/-!
# Certified solutions

The residuals of a solution were formed from images that were kept over many rounds, and its vectors
were normalized afterwards.  In exact arithmetic both agree with the operator itself: every root is
a unit vector with its own residual and its own Rayleigh quotient.
-/

namespace SubspaceEigen

open scoped RealInnerProductSpace
open Column

/-- A vector of norm one, with its residual under a linear map, the norm of that and its Rayleigh
quotient. -/
structure Root.Certified {n : ℕ} (f : Euclid n →ₗ[ℝ] Euclid n) (root : Root ℝ n) : Prop where
  norm_vector : ‖point root.vector‖ = 1
  residual : point root.residual = f (point root.vector) - root.value • point root.vector
  residualNorm : root.residualNorm = ‖point root.residual‖
  value : root.value = ⟪point root.vector, f (point root.vector)⟫

namespace Problem

variable {n : ℕ} {p : Problem ℝ n} {f : Euclid n →ₗ[ℝ] Euclid n}

/-- A solution is settled from a round of the solve. -/
theorem exists_looks_of_outcome (hd : p.dense.TriangularExact) (hop : p.operator.ActsAs f)
    {solution : Solution ℝ n} (h : p.run.outcome = .ok solution) :
    ∃ r ∈ p.rounds, ∃ s, p.Looks f s r ∧
      solution.roots = Solution.settle r.extraction.pairs r.extraction.residualNorms
        r.space.flags p.requested := by
  obtain ⟨run, hrun, hprun⟩ := p.unfolds_run
  rw [hprun] at h
  obtain ⟨r, status, hlast, hfinish⟩ := hrun.exists_last h
  have hr : r ∈ p.rounds := List.mem_of_getLast? hlast
  obtain ⟨s, hlooks⟩ := exists_looks hd hop r hr
  refine ⟨r, hr, s, hlooks, ?_⟩
  obtain rfl := Except.ok.inj hfinish
  rw [← hlooks.norms_eq]

end Problem

namespace Solver

variable {solver : Solver ℝ} {op : LinearOperator ℝ} {f : Euclid op.rows →ₗ[ℝ] Euclid op.rows}

/-- Every root of a solution is certified, for either kind of operator and whatever the guess noise
is made of. -/
theorem roots_certified (hd : solver.dense.TriangularExact) (hs : solver.dense.SymmetricExact)
    (hop : op.ActsAs f) (draws : ℕ → ℝ) (requested guess : ℕ) {solution : Solution ℝ op.rows}
    (h : (solver.solveWith draws op requested guess).outcome = .ok solution) :
    ∀ root ∈ solution.roots, root.Certified f := by
  obtain ⟨p, hpose, houtcome⟩ := exists_pose_of_outcome h
  have hp := poses_of_pose hpose
  rw [← hp.dense_eq] at hd hs
  have hacts := hp.actsAs hop
  obtain ⟨r, -, s, hlooks, hroots⟩ := p.exists_looks_of_outcome hd hacts houtcome
  intro root hroot
  rw [hroots, Solution.settle_residualNorms, (sortedBy_perm _ _).mem_iff] at hroot
  obtain ⟨⟨pair, j⟩, hpair, rfl⟩ := List.mem_map.mp hroot
  have hcertified := hlooks.certified hs pair
    (List.mem_of_mem_take (List.fst_mem_of_mem_zipIdx hpair))
  have hnormalized := normalize_of_norm_eq_one hcertified.norm_vector
  exact {
    norm_vector := by rw [hnormalized, hcertified.norm_vector]
    residual := by rw [hnormalized, hcertified.residual]
    residualNorm := Column.norm_eq _
    value := by rw [hnormalized]; exact hcertified.value }

/-- The matrix need not be symmetric; here its columns are `(1, 1)` and `(0, 2)`. -/
theorem roots_certified_shear :
    let a : Square ℝ 2 := #v[#v[1, 1], #v[0, 2]]
    let op : LinearOperator ℝ := .ofBlock ⟨2, a.toArray⟩
    Solver.exact.dense.TriangularExact ∧ Solver.exact.dense.SymmetricExact ∧
      op.ActsAs a.toLinearMap ∧
        ∃ solution : Solution ℝ 2,
          (Solver.exact.solveWith (fun _ => 0) op 1 0).outcome = .ok solution ∧
            ∀ root ∈ solution.roots, root.Certified a.toLinearMap := by
  intro a op
  have hd : Solver.exact.dense.TriangularExact := Factorizations.exact_triangularExact
  have hs : Solver.exact.dense.SymmetricExact := Factorizations.exact_symmetricExact
  have hop : op.ActsAs a.toLinearMap := LinearOperator.ofBlock_actsAs a
  obtain ⟨p, hp⟩ := exists_pose_ofBlock exact_validate (fun _ => 0) a 0 one_pos
    (show 1 ≤ 2 by norm_num)
  obtain ⟨solution, hsolution⟩ := exists_outcome hd hs rfl le_rfl hop hp
  exact ⟨hd, hs, hop, solution, hsolution, roots_certified hd hs hop _ 1 0 hsolution⟩

end Solver

end SubspaceEigen
