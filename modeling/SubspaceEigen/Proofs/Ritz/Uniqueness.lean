import SubspaceEigen.Proofs.Ritz.MinMax

/-!
# Ritz systems with one span

The values of a system depend on its span only.  A system that spans everything consists of
eigenvectors, and vectors whose value occurs once are determined but for their sign.
-/

namespace SubspaceEigen

open scoped RealInnerProductSpace

variable {E : Type*} [NormedAddCommGroup E] [InnerProductSpace ℝ E] {f : E →ₗ[ℝ] E} {k m : ℕ}
  {lam : Fin k → ℝ} {p : Fin k → E} {nu : Fin m → ℝ} {q : Fin m → E}

/-- Seen from the span of a system, its vectors are eigenvectors. -/
theorem RitzSystem.inner_of_mem_span (h : RitzSystem f lam p) {x : E}
    (hx : x ∈ Submodule.span ℝ (Set.range p)) (j : Fin k) : ⟪x, f (p j)⟫ = lam j * ⟪x, p j⟫ := by
  induction hx using Submodule.span_induction with
  | mem x hx =>
      obtain ⟨i, rfl⟩ := hx
      rw [h.diagonal, orthonormal_iff_ite.mp h.orthonormal i j]
      split
      · exact (mul_one _).symm
      · exact (mul_zero _).symm
  | zero => rw [inner_zero_left, inner_zero_left, mul_zero]
  | add x y _ _ hx hy => rw [inner_add_left, inner_add_left, hx, hy, mul_add]
  | smul c x _ hx => rw [real_inner_smul_left, real_inner_smul_left, hx, mul_left_comm]

/-- A vector of a system whose image stays in the span is an eigenvector. -/
theorem RitzSystem.eigen (h : RitzSystem f lam p) {j : Fin k}
    (hmaps : f (p j) ∈ Submodule.span ℝ (Set.range p)) : f (p j) = lam j • p j := by
  have hmem : f (p j) - lam j • p j ∈ Submodule.span ℝ (Set.range p) :=
    Submodule.sub_mem _ hmaps
      (Submodule.smul_mem _ _ (Submodule.subset_span (Set.mem_range_self j)))
  have hzero : ⟪f (p j) - lam j • p j, f (p j) - lam j • p j⟫ = 0 := by
    rw [inner_sub_right, h.inner_of_mem_span hmem j, inner_smul_right, sub_self]
  exact sub_eq_zero.mp (inner_self_eq_zero.mp hzero)

/-- Systems with one span have the same values. -/
theorem RitzSystem.value_eq (hp : RitzSystem f lam p) (hq : RitzSystem f nu q)
    (hspan : Submodule.span ℝ (Set.range p) = Submodule.span ℝ (Set.range q)) {j : ℕ}
    (hj : j < k) (hj' : j < m) : lam ⟨j, hj⟩ = nu ⟨j, hj'⟩ := by
  apply le_antisymm
  · obtain ⟨_, hle⟩ := hq.value_le hp hj' fun i _ => by
      rw [hspan]
      exact Submodule.subset_span (Set.mem_range_self i)
    exact hle
  · obtain ⟨_, hle⟩ := hp.value_le hq hj fun i _ => by
      rw [← hspan]
      exact Submodule.subset_span (Set.mem_range_self i)
    exact hle

variable (hf : f.IsSymmetric) (hp : RitzSystem f lam p) (hq : RitzSystem f nu q)
  (hspan : Submodule.span ℝ (Set.range p) = Submodule.span ℝ (Set.range q))

include hf hp hq hspan

/-- Two systems of a symmetric map with one span are orthogonal where their values differ. -/
theorem RitzSystem.inner_eq_zero {i : Fin k} {j : Fin m} (hne : lam i ≠ nu j) :
    ⟪p i, q j⟫ = 0 := by
  have hi : p i ∈ Submodule.span ℝ (Set.range q) :=
    hspan ▸ Submodule.subset_span (Set.mem_range_self i)
  have hj : q j ∈ Submodule.span ℝ (Set.range p) :=
    hspan ▸ Submodule.subset_span (Set.mem_range_self j)
  have heq : nu j * ⟪p i, q j⟫ = lam i * ⟪p i, q j⟫ := by
    calc
      nu j * ⟪p i, q j⟫ = ⟪p i, f (q j)⟫ := (hq.inner_of_mem_span hi j).symm
      _ = ⟪q j, f (p i)⟫ := by rw [← hf, real_inner_comm]
      _ = lam i * ⟪p i, q j⟫ := by rw [hp.inner_of_mem_span hj, real_inner_comm]
  by_contra hinner
  exact hne (mul_right_cancel₀ hinner heq).symm

/-- If the values of a system are all different, its vectors are determined but for their sign. -/
theorem RitzSystem.exists_smul_eq (hlam : StrictMono lam) {j : ℕ} (hj : j < k) (hj' : j < m) :
    ∃ c : ℝ, |c| = 1 ∧ q ⟨j, hj'⟩ = c • p ⟨j, hj⟩ := by
  have hvalue := hp.value_eq hq hspan hj hj'
  have hmem : q ⟨j, hj'⟩ ∈ Submodule.span ℝ (Set.range p) :=
    hspan ▸ Submodule.subset_span (Set.mem_range_self _)
  obtain ⟨d, hd⟩ := (Submodule.mem_span_range_iff_exists_fun ℝ).mp hmem
  have hzero : ∀ i ≠ ⟨j, hj⟩, d i = 0 := by
    intro i hi
    rw [← hp.orthonormal.inner_right_fintype d i, hd]
    exact RitzSystem.inner_eq_zero hf hp hq hspan fun heq =>
      hi (hlam.injective (heq.trans hvalue.symm))
  have hsum : q ⟨j, hj'⟩ = d ⟨j, hj⟩ • p ⟨j, hj⟩ := by
    rw [← hd, Finset.sum_eq_single ⟨j, hj⟩ (fun i _ hi => by rw [hzero i hi, zero_smul])
      (fun hnot => absurd (Finset.mem_univ _) hnot)]
  refine ⟨d ⟨j, hj⟩, ?_, hsum⟩
  have hnorm := hq.orthonormal.1 ⟨j, hj'⟩
  rwa [hsum, norm_smul, hp.orthonormal.1, mul_one, Real.norm_eq_abs] at hnorm

end SubspaceEigen
