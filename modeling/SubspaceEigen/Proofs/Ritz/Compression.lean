import Mathlib.Analysis.InnerProductSpace.Adjoint
import SubspaceEigen.Ritz.Basic
import SubspaceEigen.Proofs.Dense.Exact
import SubspaceEigen.Proofs.SearchSpace.Images

/-!
# Compressions

A reduced eigenproblem is posed for the matrix of an operator against a basis.  Coefficients in the
basis are embedded as points, and what the matrix says about coefficients the operator says about
these points.  The plain extraction diagonalizes the symmetric part of the matrix, which is the
matrix of the symmetric part of the operator.
-/

namespace SubspaceEigen

open scoped RealInnerProductSpace
open Column

variable {n : ℕ}

/-- The half sum of a linear map and its adjoint. -/
noncomputable def symmetrized (f : Euclid n →ₗ[ℝ] Euclid n) : Euclid n →ₗ[ℝ] Euclid n :=
  (0.5 : ℝ) • (f + LinearMap.adjoint f)

theorem inner_symmetrized (f : Euclid n →ₗ[ℝ] Euclid n) (p q : Euclid n) :
    ⟪p, symmetrized f q⟫ = (⟪p, f q⟫ + ⟪q, f p⟫) / 2 := by
  simp only [symmetrized, LinearMap.smul_apply, LinearMap.add_apply, real_inner_smul_right,
    inner_add_right, LinearMap.adjoint_inner_right]
  rw [real_inner_comm q (f p)]
  ring

theorem inner_symmetrized_self (f : Euclid n →ₗ[ℝ] Euclid n) (p : Euclid n) :
    ⟪p, symmetrized f p⟫ = ⟪p, f p⟫ := by
  rw [inner_symmetrized]
  ring

theorem symmetrized_of_isSymmetric {f : Euclid n →ₗ[ℝ] Euclid n} (h : f.IsSymmetric) :
    symmetrized f = f := by
  rw [symmetrized, h.adjoint_eq, ← two_smul ℝ f, smul_smul]
  norm_num

namespace Columns

variable {cs : Columns ℝ n}

/-- The point with given coefficients. -/
noncomputable def embed (cs : Columns ℝ n) : Euclid cs.size →ₗ[ℝ] Euclid n where
  toFun u := ∑ j, u j • cs.family j
  map_add' u v := by
    simp only [PiLp.add_apply, add_smul, Finset.sum_add_distrib]
  map_smul' c u := by
    simp only [PiLp.smul_apply, smul_eq_mul, mul_smul, Finset.smul_sum, RingHom.id_apply]

theorem embed_apply (cs : Columns ℝ n) (u : Euclid cs.size) :
    cs.embed u = ∑ j, u j • cs.family j :=
  rfl

theorem point_combine_eq_embed (cs : Columns ℝ n) (x : Vector ℝ cs.size) :
    point (cs.combine x) = cs.embed (point x) :=
  cs.point_combine x

theorem embed_mem_span (cs : Columns ℝ n) (u : Euclid cs.size) : cs.embed u ∈ cs.span := by
  rw [embed_apply, span]
  exact Submodule.sum_mem _ fun j _ =>
    Submodule.smul_mem _ _ (Submodule.subset_span (Set.mem_range_self j))

theorem IsOrthonormal.inner_embed (h : cs.IsOrthonormal) (u v : Euclid cs.size) :
    ⟪cs.embed u, cs.embed v⟫ = ⟪u, v⟫ := by
  rw [embed_apply, embed_apply, Orthonormal.inner_sum h, PiLp.inner_apply]
  simp [mul_comm]

theorem IsOrthonormal.norm_embed (h : cs.IsOrthonormal) (u : Euclid cs.size) :
    ‖cs.embed u‖ = ‖u‖ := by
  rw [norm_eq_sqrt_real_inner, norm_eq_sqrt_real_inner, h.inner_embed]

/-- The matrix `Vᵀ f(V)`. -/
noncomputable def compression (cs : Columns ℝ n) (f : Euclid n →ₗ[ℝ] Euclid n) :
    Square ℝ cs.size :=
  Vector.ofFn fun j => Vector.ofFn fun i => ⟪cs.family i, f (cs.family j)⟫

theorem entry_compression (cs : Columns ℝ n) (f : Euclid n →ₗ[ℝ] Euclid n)
    (i j : Fin cs.size) : (cs.compression f).entry i j = ⟪cs.family i, f (cs.family j)⟫ := by
  rw [Square.entry_eq _ i.isLt j.isLt]
  simp [compression]

theorem compression_units (a : Square ℝ n) {indices : List ℕ} (hlt : ∀ k ∈ indices, k < n)
    (t : Square ℝ (indices.map (Column.unit n : ℕ → Vector ℝ n)).toArray.size)
    (h : ∀ (i j : ℕ) (hi : i < indices.length) (hj : j < indices.length),
      a.entry indices[i] indices[j] = t.entry i j) :
    compression (indices.map (Column.unit n)).toArray a.toLinearMap = t := by
  ext j hj i hi
  have hi' : i < indices.length := by simpa using hi
  have hj' : j < indices.length := by simpa using hj
  have hrow := hlt indices[i] (List.getElem_mem hi')
  have hcolumn := hlt indices[j] (List.getElem_mem hj')
  rw [← Square.entry_eq _ hi hj, entry_compression _ _ ⟨i, hi⟩ ⟨j, hj⟩, ← Square.entry_eq t hi hj,
    ← h i j hi' hj', a.entry_eq hrow hcolumn, ← inner_unit hrow, ← a.toLinearMap_unit hcolumn]
  simp [family]

theorem toSquare?_compress (cs : Columns ℝ n) (f : Euclid n →ₗ[ℝ] Euclid n) :
    (cs.compress f).toSquare? = some (cs.compression f) := by
  simp [Block.toSquare?, Block.squareOf?, compress, compression, Vector.ofFn, Function.comp_def]

/-- The matrix acts on coefficients as the map acts on the points that they give. -/
theorem inner_compression (cs : Columns ℝ n) (f : Euclid n →ₗ[ℝ] Euclid n)
    (u v : Euclid cs.size) :
    ⟪u, (cs.compression f).toLinearMap v⟫ = ⟪cs.embed u, f (cs.embed v)⟫ := by
  rw [Square.toLinearMap_apply, embed_apply, embed_apply, map_sum, inner_sum, inner_sum]
  refine Finset.sum_congr rfl fun j _ => ?_
  rw [map_smul, real_inner_smul_right, real_inner_smul_right, PiLp.inner_apply, sum_inner]
  congr 1
  refine Finset.sum_congr rfl fun i _ => ?_
  rw [real_inner_smul_left, point_apply, ← entry_compression, Square.entry_eq _ i.isLt j.isLt]
  simp [mul_comm]

theorem compression_isSymmetric (cs : Columns ℝ n) (f : Euclid n →ₗ[ℝ] Euclid n) :
    (cs.compression (symmetrized f)).IsSymmetric := by
  intro i j
  rw [entry_compression, entry_compression, inner_symmetrized, inner_symmetrized]
  ring

theorem symmetricPart_compress (cs : Columns ℝ n) (f : Euclid n →ₗ[ℝ] Euclid n) :
    symmetricPart (cs.compress f) = .ok (cs.compress (symmetrized f)) := by
  have hentry : ∀ i j : Fin cs.size,
      ((cs.compression f).entry i j + (cs.compression f).entry j i) * 0.5 =
        ⟪cs.family i, symmetrized f (cs.family j)⟫ := by
    intro i j
    rw [entry_compression, entry_compression, inner_symmetrized]
    norm_num
    ring
  rw [symmetricPart, toSquare?_compress]
  simp only [compress, hentry]

end Columns

end SubspaceEigen
