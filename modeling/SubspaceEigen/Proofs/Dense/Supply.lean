import Mathlib.Analysis.InnerProductSpace.GramSchmidtOrtho
import Mathlib.Analysis.InnerProductSpace.Spectrum
import SubspaceEigen.Dense.Standard
import SubspaceEigen.Proofs.Dense.Exact
import SubspaceEigen.Proofs.Dense.Shape
import SubspaceEigen.Proofs.Operator.Linear

/-!
# An exact supply of factorizations

The promises of exact factorizations can be kept: the triangular factorization by an orthonormal
basis along the columns, the eigenpairs of a symmetric matrix by the spectral theorem.
-/

namespace SubspaceEigen

open scoped RealInnerProductSpace
open Column

variable {n : ℕ}

/-- An orthonormal basis of the space along given columns. -/
noncomputable def Columns.basisAlong (v : Columns ℝ n) : OrthonormalBasis (Fin n) ℝ (Euclid n) :=
  InnerProductSpace.gramSchmidtOrthonormalBasis (by simp) fun i =>
    if h : i.val < v.size then point v[i.val] else 0

theorem Columns.inner_basisAlong_eq_zero (v : Columns ℝ n) {i : Fin n} {j : ℕ} (hv : j < v.size)
    (hji : j < i.val) : ⟪v.basisAlong i, point v[j]⟫ = 0 := by
  have hzero := InnerProductSpace.gramSchmidtOrthonormalBasis_inv_triangular (𝕜 := ℝ)
    (finrank_euclideanSpace (𝕜 := ℝ) (ι := Fin n))
    (f := fun i : Fin n => if h : i.val < v.size then point v[i.val] else 0)
    (i := ⟨j, hji.trans i.isLt⟩) (j := i) hji
  simpa [basisAlong, hv] using hzero

/-- The triangular factors with respect to the basis along the columns. -/
noncomputable def TriangularFactors.along (v : Columns ℝ n) : TriangularFactors ℝ n where
  order := min n v.size
  q := Vector.ofFn fun i => ofPoint (v.basisAlong (i.castLE (Nat.min_le_left _ _)))
  r := v.map fun x => Vector.ofFn fun i =>
    ⟪v.basisAlong (i.castLE (Nat.min_le_left _ _)), point x⟫

namespace TriangularFactors

theorem point_along_q (v : Columns ℝ n) (i : Fin (along v).order) :
    point (along v).q[i] = v.basisAlong (Fin.castLE (Nat.min_le_left n v.size) i) :=
  (congrArg point (Vector.getElem_ofFn i.isLt)).trans (point_ofPoint _)

theorem along_r (v : Columns ℝ n) (i : Fin (along v).order) (j : ℕ) (hv : j < v.size)
    (hr : j < (along v).r.size) :
    (along v).r[j][i] =
      ⟪v.basisAlong (Fin.castLE (Nat.min_le_left n v.size) i), point v[j]⟫ := by
  have hcolumn : (along v).r[j] = Vector.ofFn fun i : Fin (min n v.size) =>
      ⟪v.basisAlong (Fin.castLE (Nat.min_le_left n v.size) i), point v[j]⟫ :=
    Array.getElem_map ..
  rw [hcolumn]
  exact Vector.getElem_ofFn i.isLt

theorem along_factors (v : Columns ℝ n) : (along v).Factors v where
  order_eq := rfl
  orthonormal := by
    simp only [point_along_q]
    exact v.basisAlong.orthonormal.comp _ (Fin.castLE_injective _)
  width := by simp [along]
  product j hv hr := by
    simp only [along_r v _ j hv hr, point_along_q]
    have hbeyond : ∀ i : Fin n, i ∉ Set.range (Fin.castLE (Nat.min_le_left n v.size)) →
        ⟪v.basisAlong i, point v[j]⟫ • v.basisAlong i = 0 := by
      intro i hi
      have hji : j < i.val := by
        by_contra hle
        exact hi ⟨⟨i.val, by omega⟩, rfl⟩
      rw [v.inner_basisAlong_eq_zero hv hji, zero_smul]
    calc
      point v[j] = ∑ i : Fin n, ⟪v.basisAlong i, point v[j]⟫ • v.basisAlong i :=
        (v.basisAlong.sum_repr' (point v[j])).symm
      _ = _ := (Fintype.sum_of_injective _ (Fin.castLE_injective _) _ _ hbeyond
        fun _ => rfl).symm
  upper j hr i hij := by
    have hv : j < v.size := by simpa [along] using hr
    rw [along_r v i j hv hr]
    exact v.inner_basisAlong_eq_zero hv hij

end TriangularFactors

namespace Square

theorem toLinearMap_isSymmetric {a : Square ℝ n} (h : a.IsSymmetric) :
    a.toLinearMap.IsSymmetric := by
  intro p q
  have hentry : ∀ i j : Fin n, point a[j] i = point a[i] j :=
    fun i j => h.getElem_comm i.isLt j.isLt
  calc
    ⟪a.toLinearMap p, q⟫ = ∑ j, ∑ i, p j * (point a[j] i * q i) := by
      rw [toLinearMap_apply, sum_inner]
      refine Finset.sum_congr rfl fun j _ => ?_
      rw [real_inner_smul_left, PiLp.inner_apply, Finset.mul_sum]
      refine Finset.sum_congr rfl fun i _ => ?_
      rw [RCLike.inner_apply, conj_trivial, mul_comm (q i)]
    _ = ∑ i, ∑ j, p j * (point a[i] j * q i) := by
      rw [Finset.sum_comm]
      refine Finset.sum_congr rfl fun i _ => Finset.sum_congr rfl fun j _ => ?_
      rw [hentry i j]
    _ = ⟪p, a.toLinearMap q⟫ := by
      rw [toLinearMap_apply, inner_sum]
      refine Finset.sum_congr rfl fun i _ => ?_
      rw [real_inner_smul_right, PiLp.inner_apply, Finset.mul_sum]
      refine Finset.sum_congr rfl fun j _ => ?_
      rw [RCLike.inner_apply, conj_trivial]
      ring

theorem isSymmetric_ofLower (a : Square ℝ n) : (Tridiagonal.ofLower a).IsSymmetric := by
  intro i j
  rw [entry_eq _ i.isLt j.isLt, entry_eq _ j.isLt i.isLt]
  simp only [Tridiagonal.ofLower, Vector.getElem_ofFn]
  rcases lt_trichotomy i j with h | rfl | h
  · rw [if_neg (not_le.mpr h), if_pos h.le]
  · rfl
  · rw [if_pos h.le, if_neg (not_le.mpr h)]

theorem ofLower_eq_self {a : Square ℝ n} (h : a.IsSymmetric) : Tridiagonal.ofLower a = a := by
  ext j hj i hi
  have hsymm : a[i][j] = a[j][i] := h.getElem_comm hj hi
  simp only [Tridiagonal.ofLower, Vector.getElem_ofFn, entry]
  split
  · simp [hi, hj]
  · simp [hi, hj, hsymm]

/-- The eigenpairs that the spectral theorem gives for the symmetric matrix on and below the
diagonal of `a`. -/
noncomputable def spectralPairs (a : Square ℝ n) : List (Eigenpair ℝ n) :=
  let h := toLinearMap_isSymmetric (isSymmetric_ofLower a)
  List.ofFn fun i : Fin n =>
    ⟨h.eigenvalues finrank_euclideanSpace_fin i,
      ofPoint (h.eigenvectorBasis finrank_euclideanSpace_fin i)⟩

theorem length_spectralPairs (a : Square ℝ n) : a.spectralPairs.length = n := by
  simp [spectralPairs]

theorem isEigenbasis_spectralPairs {a : Square ℝ n} (h : a.IsSymmetric) :
    IsEigenbasis a a.spectralPairs where
  length_eq := length_spectralPairs a
  orthonormal := by
    have horth := (toLinearMap_isSymmetric (isSymmetric_ofLower a)).eigenvectorBasis
      finrank_euclideanSpace_fin |>.orthonormal
    rw [Columns.isOrthonormal_iff]
    have hpoints : Columns.points (a.spectralPairs.map Eigenpair.vector).toArray =
        List.ofFn fun i => (toLinearMap_isSymmetric (isSymmetric_ofLower a)).eigenvectorBasis
          finrank_euclideanSpace_fin i := by
      simp [Columns.points, spectralPairs, Function.comp_def]
    rw [hpoints, List.pairwise_ofFn]
    refine ⟨?_, fun i j hij => horth.2 hij.ne⟩
    intro p hp
    obtain ⟨i, rfl⟩ := List.mem_ofFn.mp hp
    exact horth.1 i
  eigen p hp := by
    obtain ⟨i, rfl⟩ := List.mem_ofFn.mp hp
    have hlower : a.toLinearMap = (Tridiagonal.ofLower a).toLinearMap := by
      rw [ofLower_eq_self h]
    rw [point_mulColumn, point_ofPoint, hlower]
    exact LinearMap.IsSymmetric.apply_eigenvectorBasis _ _ i

end Square

/-- The exact factorizations; the eigenvalues of a general matrix are those of the standard
supply. -/
noncomputable def Factorizations.exact : Factorizations ℝ :=
  { Factorizations.standard with
    triangular := TriangularFactors.along
    symmetric := Square.spectralPairs }

theorem Factorizations.exact_triangularExact : Factorizations.exact.TriangularExact :=
  TriangularFactors.along_factors

theorem Factorizations.exact_symmetricExact : Factorizations.exact.SymmetricExact :=
  fun _ h => Square.isEigenbasis_spectralPairs h

theorem Factorizations.exact_shaped : Factorizations.exact.Shaped where
  order_le v := (TriangularFactors.along_factors v).order_eq.le
  length_symmetric_le a := (Square.length_spectralPairs a).le
  length_eigenvalues_le := Factorizations.standard_shaped.length_eigenvalues_le

end SubspaceEigen
