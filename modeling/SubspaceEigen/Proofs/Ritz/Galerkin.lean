import SubspaceEigen.Proofs.Dense.Supply
import SubspaceEigen.Proofs.Ritz.Plain

/-!
# The Galerkin conditions

For a symmetric operator the Ritz pairs of an updated search space are the eigenpairs of its
compression to the space.  They diagonalize the operator on the space, and their residuals stand
orthogonal on all of it: what is missing to an eigenpair lies outside the space that was searched.
-/

namespace SubspaceEigen

open scoped RealInnerProductSpace
open Column

noncomputable def Square.trace {n : ℕ} (a : Square ℝ n) : ℝ :=
  ∑ i : Fin n, a.entry i i

variable {n : ℕ} {f : Euclid n →ₗ[ℝ] Euclid n} {cs : Columns ℝ n}

/-- As many Ritz pairs as there are columns, in ascending order.  Their vectors are orthonormal and
diagonalize the map, and their residuals are orthogonal to the columns. -/
structure Extraction.Galerkin (f : Euclid n →ₗ[ℝ] Euclid n) (cs : Columns ℝ n)
    (e : Extraction ℝ n) : Prop where
  length_eq : e.pairs.length = cs.size
  ascending : e.pairs.Pairwise fun p q => p.value ≤ q.value
  orthonormal : Orthonormal ℝ fun i => point (e.pairs.get i).vector
  diagonal : ∀ i j, ⟪point (e.pairs.get i).vector, f (point (e.pairs.get j).vector)⟫ =
    if i = j then (e.pairs.get j).value else 0
  sum_values : (e.pairs.map RitzPair.value).sum = (cs.compression f).trace
  residual : ∀ pair ∈ e.pairs,
    point pair.residual = f (point pair.vector) - pair.value • point pair.vector
  orthogonal : ∀ pair ∈ e.pairs, ∀ x ∈ cs, ⟪point x, point pair.residual⟫ = 0

section Trace

variable {E : Type*} [NormedAddCommGroup E] [InnerProductSpace ℝ E] {k m : ℕ}

theorem inner_eq_sum_of_mem_span {v : Fin m → E} (hv : Orthonormal ℝ v) {x : E}
    (hx : x ∈ Submodule.span ℝ (Set.range v)) (y : E) :
    ⟪x, y⟫ = ∑ j, ⟪v j, x⟫ * ⟪v j, y⟫ := by
  obtain ⟨c, rfl⟩ := (Submodule.mem_span_range_iff_exists_fun ℝ).mp hx
  rw [sum_inner]
  refine Finset.sum_congr rfl fun j _ => ?_
  rw [real_inner_smul_left, hv.inner_right_fintype]

/-- The sum of the quotients of a symmetric map at orthonormal vectors depends on their span only. -/
theorem sum_inner_eq_of_span_eq {g : E →ₗ[ℝ] E} (hg : g.IsSymmetric) {q : Fin k → E}
    {v : Fin m → E} (hq : Orthonormal ℝ q) (hv : Orthonormal ℝ v)
    (hspan : Submodule.span ℝ (Set.range q) = Submodule.span ℝ (Set.range v)) :
    ∑ i, ⟪q i, g (q i)⟫ = ∑ j, ⟪v j, g (v j)⟫ := by
  have hqmem : ∀ i, q i ∈ Submodule.span ℝ (Set.range v) := fun i =>
    hspan ▸ Submodule.subset_span (Set.mem_range_self i)
  have hvmem : ∀ j, v j ∈ Submodule.span ℝ (Set.range q) := fun j =>
    hspan ▸ Submodule.subset_span (Set.mem_range_self j)
  calc
    ∑ i, ⟪q i, g (q i)⟫ = ∑ i, ∑ j, ⟪v j, q i⟫ * ⟪v j, g (q i)⟫ :=
      Finset.sum_congr rfl fun i _ => inner_eq_sum_of_mem_span hv (hqmem i) _
    _ = ∑ j, ∑ i, ⟪q i, v j⟫ * ⟪q i, g (v j)⟫ := by
      rw [Finset.sum_comm]
      refine Finset.sum_congr rfl fun j _ => Finset.sum_congr rfl fun i _ => ?_
      rw [real_inner_comm (q i) (v j), ← hg (v j) (q i), real_inner_comm (q i) (g (v j))]
    _ = ∑ j, ⟪v j, g (v j)⟫ :=
      Finset.sum_congr rfl fun j _ => (inner_eq_sum_of_mem_span hq (hvmem j) _).symm

end Trace

theorem Columns.trace_compression (cs : Columns ℝ n) (f : Euclid n →ₗ[ℝ] Euclid n) :
    (cs.compression f).trace = ∑ j, ⟪cs.family j, f (cs.family j)⟫ :=
  Finset.sum_congr rfl fun j _ => cs.entry_compression f j j

namespace Extraction.Resolves

variable {e : Extraction ℝ n}

theorem inner_vector (h : e.Resolves f cs) (hf : f.IsSymmetric) (i j : Fin e.pairs.length) :
    ⟪point (e.pairs.get i).vector, f (point (e.pairs.get j).vector)⟫ =
      if i = j then (e.pairs.get j).value else 0 := by
  have hdiagonal := h.system.diagonal i j
  rwa [symmetrized_of_isSymmetric hf] at hdiagonal

theorem sum_values (h : e.Resolves f cs) (hf : f.IsSymmetric) (horth : cs.IsOrthonormal) :
    (e.pairs.map RitzPair.value).sum = (cs.compression f).trace := by
  calc
    (e.pairs.map RitzPair.value).sum = ∑ i, (e.pairs.get i).value :=
      (Fin.sum_univ_fun_getElem e.pairs RitzPair.value).symm
    _ = ∑ i, ⟪point (e.pairs.get i).vector, f (point (e.pairs.get i).vector)⟫ :=
      Finset.sum_congr rfl fun i _ => by rw [h.inner_vector hf, if_pos rfl]
    _ = ∑ j, ⟪cs.family j, f (cs.family j)⟫ :=
      sum_inner_eq_of_span_eq hf h.system.orthonormal horth (h.span_vectors horth)
    _ = (cs.compression f).trace := (cs.trace_compression f).symm

/-- A residual is orthogonal to all Ritz vectors, and with them to the space they span. -/
theorem inner_residual (h : e.Resolves f cs) (hf : f.IsSymmetric) (horth : cs.IsOrthonormal)
    {p : Euclid n} (hp : p ∈ cs.span) (j : Fin e.pairs.length) :
    ⟪p, point (e.pairs.get j).residual⟫ = 0 := by
  have hpair := h.certified (e.pairs.get j) (List.get_mem ..)
  have horthonormal : Orthonormal ℝ fun i => point (e.pairs.get i).vector := h.system.orthonormal
  have hspan : Submodule.span ℝ (Set.range fun i => point (e.pairs.get i).vector) = cs.span :=
    h.span_vectors horth
  have hvector : ∀ i, ⟪point (e.pairs.get i).vector, point (e.pairs.get j).residual⟫ = 0 := by
    intro i
    rw [hpair.residual, inner_sub_right, inner_smul_right, h.inner_vector hf,
      orthonormal_iff_ite.mp horthonormal]
    by_cases hij : i = j
    · rw [if_pos hij, if_pos hij, mul_one, sub_self]
    · rw [if_neg hij, if_neg hij, mul_zero, sub_self]
  rw [← hspan] at hp
  rw [inner_eq_sum_of_mem_span horthonormal hp]
  exact Finset.sum_eq_zero fun i _ => by rw [hvector i, mul_zero]

theorem galerkin (h : e.Resolves f cs) (hf : f.IsSymmetric) (horth : cs.IsOrthonormal) :
    e.Galerkin f cs where
  length_eq := h.length_eq
  ascending := List.pairwise_iff_getElem.mpr fun i j hi hj hij =>
    h.system.monotone (show (⟨i, hi⟩ : Fin e.pairs.length) ≤ ⟨j, hj⟩ from hij.le)
  orthonormal := h.system.orthonormal
  diagonal := h.inner_vector hf
  sum_values := h.sum_values hf horth
  residual pair hpair := (h.certified pair hpair).residual
  orthogonal pair hpair x hx := by
    obtain ⟨j, hj, rfl⟩ := List.getElem_of_mem hpair
    exact h.inner_residual hf horth (Columns.mem_span_of_mem hx) ⟨j, hj⟩

end Extraction.Resolves

/-- After an update the plain extraction meets the Galerkin conditions of a symmetric operator. -/
theorem galerkin_of_update {dense : Factorizations ℝ} {op : LinearOperator ℝ}
    (hs : dense.SymmetricExact) (hop : op.ActsAs f) (hf : f.IsSymmetric) {s : SearchSpace ℝ n}
    (h : s.Tracks f) (hpos : 0 < s.basis.size) :
    ∃ next, (s.update op).outcome = .ok next ∧ next.basis = s.basis ∧
      ∃ e, plainRitz dense next = .ok e ∧ e.Galerkin f s.basis := by
  obtain ⟨e, he, hresolves⟩ := plainRitz_refreshed (f := f) hs h.orthonormal hpos
  exact ⟨s.refreshed f, SearchSpace.update_eq h hop, rfl, e, he,
    hresolves.galerkin hf h.orthonormal⟩

/-- A tridiagonal matrix on the span of the first two axes, where it does not stay. -/
theorem galerkin_of_update_tridiagonal :
    let a : Square ℝ 3 := #v[#v[2, 1, 0], #v[1, 2, 1], #v[0, 1, 2]]
    let op : LinearOperator ℝ := .ofBlock ⟨3, a.toArray⟩
    let s := SearchSpace.start ([0, 1].map (Column.unit 3)).toArray 2 false
    Factorizations.exact.SymmetricExact ∧ op.ActsAs a.toLinearMap ∧ a.toLinearMap.IsSymmetric ∧
      s.Tracks a.toLinearMap ∧ 0 < s.basis.size ∧
        ∃ next, (s.update op).outcome = .ok next ∧ next.basis = s.basis ∧
          ∃ e, plainRitz Factorizations.exact next = .ok e ∧ e.Galerkin a.toLinearMap s.basis := by
  intro a op s
  have hop : op.ActsAs a.toLinearMap := LinearOperator.ofBlock_actsAs a
  have hsymm : a.IsSymmetric := by
    intro i j
    fin_cases i <;> fin_cases j <;> rfl
  have hf : a.toLinearMap.IsSymmetric := Square.toLinearMap_isSymmetric hsymm
  have hbasis : Columns.IsOrthonormal ([0, 1].map (Column.unit 3 : ℕ → Vector ℝ 3)).toArray :=
    Columns.isOrthonormal_units (by decide) (by decide)
  have htracks : s.Tracks a.toLinearMap := SearchSpace.tracks_start hbasis 2 false
  have hpos : 0 < s.basis.size := by simp [s, SearchSpace.start]
  exact ⟨Factorizations.exact_symmetricExact, hop, hf, htracks, hpos,
    galerkin_of_update Factorizations.exact_symmetricExact hop hf htracks hpos⟩

end SubspaceEigen
