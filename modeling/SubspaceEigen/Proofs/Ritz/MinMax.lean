import Mathlib.Analysis.InnerProductSpace.Spectrum
import SubspaceEigen.Proofs.Euclid

/-!
# The min-max bound

Ritz values are values of the quadratic form of an operator at orthonormal vectors that diagonalize
it on a subspace.  Enlarging the subspace does not raise the `j`-th lowest of them, and the whole
space gives the eigenvalues.  For a comparison of the `j`-th values it is enough that the leading
vectors up to the `j`-th lie in the other subspace, which is all that survives a restart.
-/

namespace SubspaceEigen

open scoped RealInnerProductSpace

variable {E : Type*} [NormedAddCommGroup E] [InnerProductSpace ℝ E] {f : E →ₗ[ℝ] E} {k m : ℕ}

/-- Orthonormal vectors that diagonalize the form `⟪p, f q⟫`, with its diagonal ascending. -/
structure RitzSystem (f : E →ₗ[ℝ] E) (values : Fin k → ℝ) (vectors : Fin k → E) : Prop where
  orthonormal : Orthonormal ℝ vectors
  monotone : Monotone values
  diagonal : ∀ i j, ⟪vectors i, f (vectors j)⟫ = if i = j then values j else 0

namespace RitzSystem

variable {lam : Fin k → ℝ} {p : Fin k → E} {nu : Fin m → ℝ} {q : Fin m → E}

theorem castLE (h : RitzSystem f lam p) {j : ℕ} (hj : j ≤ k) :
    RitzSystem f (fun i : Fin j => lam (i.castLE hj)) fun i => p (i.castLE hj) where
  orthonormal := h.orthonormal.comp _ (Fin.castLE_injective hj)
  monotone _ _ hle := h.monotone hle
  diagonal i l := by
    rw [h.diagonal]
    simp [Fin.castLE_inj]

theorem form_sum (h : RitzSystem f lam p) (c : Fin k → ℝ) :
    ⟪∑ i, c i • p i, f (∑ i, c i • p i)⟫ = ∑ i, lam i * c i ^ 2 := by
  simp only [map_sum, map_smul, sum_inner, inner_sum, real_inner_smul_left,
    real_inner_smul_right, h.diagonal]
  refine Finset.sum_congr rfl fun i _ => ?_
  rw [Finset.sum_eq_single i (fun j _ hj => by simp [hj]) (by simp), if_pos rfl]
  ring

theorem norm_sq_sum (h : RitzSystem f lam p) (c : Fin k → ℝ) :
    ‖∑ i, c i • p i‖ ^ 2 = ∑ i, c i ^ 2 := by
  rw [← real_inner_self_eq_norm_sq, h.orthonormal.inner_sum]
  exact Finset.sum_congr rfl fun i _ => by simp [sq]

/-- On the span of a system the form is at most its last value. -/
theorem form_le {lam : Fin (k + 1) → ℝ} {p : Fin (k + 1) → E} (h : RitzSystem f lam p)
    (c : Fin (k + 1) → ℝ) :
    ⟪∑ i, c i • p i, f (∑ i, c i • p i)⟫ ≤ lam (Fin.last k) * ‖∑ i, c i • p i‖ ^ 2 := by
  rw [h.form_sum, h.norm_sq_sum, Finset.mul_sum]
  refine Finset.sum_le_sum fun i _ => ?_
  exact mul_le_mul_of_nonneg_right (h.monotone (Fin.le_last i)) (sq_nonneg _)

/-- Where the components before the `j`-th vanish, the form is at least the `j`-th value. -/
theorem le_form (h : RitzSystem f nu q) {j : Fin m} {c : Fin m → ℝ}
    (hc : ∀ i < j, c i = 0) :
    nu j * ‖∑ i, c i • q i‖ ^ 2 ≤ ⟪∑ i, c i • q i, f (∑ i, c i • q i)⟫ := by
  rw [h.form_sum, h.norm_sq_sum, Finset.mul_sum]
  refine Finset.sum_le_sum fun i _ => ?_
  rcases lt_or_ge i j with hij | hij
  · simp [hc i hij]
  · exact mul_le_mul_of_nonneg_right (h.monotone hij) (sq_nonneg _)

/-- Among `j + 1` vectors there is a nonzero combination orthogonal to the first `j` of others. -/
theorem exists_sum_orthogonal (p : Fin (k + 1) → E) (q : Fin m → E) :
    ∃ c : Fin (k + 1) → ℝ, c ≠ 0 ∧ ∀ i : Fin m, i.val < k → ⟪q i, ∑ l, c l • p l⟫ = 0 := by
  let components : (Fin (k + 1) → ℝ) →ₗ[ℝ] Fin (min k m) → ℝ :=
    LinearMap.pi fun i =>
      innerₛₗ ℝ (q (i.castLE (Nat.min_le_right k m))) ∘ₗ Fintype.linearCombination ℝ p
  have hrank : Module.finrank ℝ (Fin (min k m) → ℝ) < Module.finrank ℝ (Fin (k + 1) → ℝ) := by
    simp only [Module.finrank_fin_fun]
    omega
  obtain ⟨c, hker, hc⟩ := Submodule.exists_mem_ne_zero_of_ne_bot
    (LinearMap.ker_ne_bot_of_finrank_lt (f := components) hrank)
  refine ⟨c, hc, fun i hi => ?_⟩
  have hzero := congrFun (LinearMap.mem_ker.mp hker) ⟨i.val, lt_min hi i.isLt⟩
  simpa [components, Fintype.linearCombination_apply] using hzero

/-- If the first `j + 1` vectors of one system lie in the span of another, the other has a `j`-th
value, and it is not larger. -/
theorem value_le (hp : RitzSystem f lam p) (hq : RitzSystem f nu q) {j : ℕ} (hj : j < k)
    (hspan : ∀ i : Fin k, i.val ≤ j → p i ∈ Submodule.span ℝ (Set.range q)) :
    ∃ hm : j < m, nu ⟨j, hm⟩ ≤ lam ⟨j, hj⟩ := by
  have hlead := hp.castLE (j := j + 1) hj
  obtain ⟨c, hc, horth⟩ := exists_sum_orthogonal (fun i : Fin (j + 1) => p (i.castLE hj)) q
  set x := ∑ l, c l • p (Fin.castLE hj l) with hx
  have hpos : 0 < ‖x‖ ^ 2 := by
    rw [hx, hlead.norm_sq_sum]
    obtain ⟨i, hi⟩ := Function.ne_iff.mp hc
    exact Finset.sum_pos' (fun l _ => sq_nonneg _) ⟨i, Finset.mem_univ i, sq_pos_of_ne_zero hi⟩
  have hmem : x ∈ Submodule.span ℝ (Set.range q) :=
    Submodule.sum_mem _ fun l _ =>
      Submodule.smul_mem _ _ (hspan _ (Nat.lt_succ_iff.mp l.isLt))
  obtain ⟨d, hd⟩ := (Submodule.mem_span_range_iff_exists_fun ℝ).mp hmem
  have hcomponent : ∀ i : Fin m, i.val < j → d i = 0 := by
    intro i hi
    rw [← hq.orthonormal.inner_right_fintype d i, hd]
    exact horth i hi
  have hm : j < m := by
    by_contra hle
    have hzero : ∀ i, d i = 0 := fun i => hcomponent i (by omega)
    simp [← hd, hzero] at hpos
  refine ⟨hm, ?_⟩
  have hlower : nu ⟨j, hm⟩ * ‖x‖ ^ 2 ≤ ⟪x, f x⟫ := by
    rw [← hd]
    exact hq.le_form fun i hi => hcomponent i hi
  have hupper : ⟪x, f x⟫ ≤ lam ⟨j, hj⟩ * ‖x‖ ^ 2 := hlead.form_le c
  exact le_of_mul_le_mul_right (hlower.trans hupper) hpos

end RitzSystem

section Spectrum

variable {n : ℕ} {f : Euclid n →ₗ[ℝ] Euclid n}

/-- The eigenvalues of a symmetric map in ascending order. -/
noncomputable def orderedEigenvalue (h : f.IsSymmetric) (j : Fin n) : ℝ :=
  h.eigenvalues finrank_euclideanSpace_fin j.rev

theorem ritzSystem_eigenvectors (h : f.IsSymmetric) :
    RitzSystem f (orderedEigenvalue h) fun j =>
      h.eigenvectorBasis finrank_euclideanSpace_fin j.rev where
  orthonormal := (h.eigenvectorBasis finrank_euclideanSpace_fin).orthonormal.comp _
    Fin.rev_injective
  monotone i j hij := h.eigenvalues_antitone finrank_euclideanSpace_fin (Fin.rev_le_rev.mpr hij)
  diagonal i j := by
    rw [h.apply_eigenvectorBasis, inner_smul_right,
      orthonormal_iff_ite.mp (h.eigenvectorBasis finrank_euclideanSpace_fin).orthonormal]
    simp [orderedEigenvalue, Fin.rev_inj]

theorem span_eigenvectors (h : f.IsSymmetric) :
    Submodule.span ℝ
      (Set.range fun j : Fin n => h.eigenvectorBasis finrank_euclideanSpace_fin j.rev) = ⊤ := by
  have hrange : (Set.range fun j : Fin n => h.eigenvectorBasis finrank_euclideanSpace_fin j.rev)
      = Set.range (h.eigenvectorBasis finrank_euclideanSpace_fin) :=
    Fin.rev_surjective.range_comp (h.eigenvectorBasis finrank_euclideanSpace_fin)
  rw [hrange, ← OrthonormalBasis.coe_toBasis]
  exact Module.Basis.span_eq _

/-- The `j`-th value of a system is at least the `j`-th eigenvalue. -/
theorem RitzSystem.orderedEigenvalue_le (h : f.IsSymmetric) {lam : Fin k → ℝ}
    {p : Fin k → Euclid n} (hp : RitzSystem f lam p) {j : ℕ} (hj : j < k) :
    ∃ hn : j < n, orderedEigenvalue h ⟨j, hn⟩ ≤ lam ⟨j, hj⟩ := by
  refine hp.value_le (ritzSystem_eigenvectors h) hj fun i _ => ?_
  rw [span_eigenvectors]
  exact Submodule.mem_top

end Spectrum

end SubspaceEigen
