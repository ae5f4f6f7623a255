import SubspaceEigen.Dense.Factorizations
import SubspaceEigen.Proofs.Orthonormal

/-!
# What exact factorizations promise

The solvers take the dense factorizations as given.  This module says what an exact one delivers:
the triangular factorization is a product of orthonormal columns and an upper triangular matrix, and
the eigenpairs of a symmetric matrix are complete and orthonormal, in any order and with any signs.
-/

namespace SubspaceEigen

open scoped RealInnerProductSpace
open Column

variable {n : ℕ}

/-- The columns `v` are the orthonormal columns `q` times the upper triangular matrix `r`. -/
structure TriangularFactors.Factors (f : TriangularFactors ℝ n) (v : Columns ℝ n) : Prop where
  order_eq : f.order = min n v.size
  orthonormal : Orthonormal ℝ fun i : Fin f.order => point f.q[i]
  width : f.r.size = v.size
  product : ∀ (j : ℕ) (_ : j < v.size) (_ : j < f.r.size),
    point v[j] = ∑ i : Fin f.order, f.r[j][i] • point f.q[i]
  upper : ∀ (j : ℕ) (_ : j < f.r.size) (i : Fin f.order), j < i → f.r[j][i] = 0

theorem Square.entry_eq (a : Square ℝ n) {i j : ℕ} (hi : i < n) (hj : j < n) :
    a.entry i j = a[j][i] :=
  dif_pos ⟨hi, hj⟩

/-- The matrix equals its transpose. -/
def Square.IsSymmetric (a : Square ℝ n) : Prop :=
  ∀ i j : Fin n, a.entry i j = a.entry j i

theorem Square.IsSymmetric.getElem_comm {a : Square ℝ n} (h : a.IsSymmetric) {i j : ℕ}
    (hi : i < n) (hj : j < n) : a[j][i] = a[i][j] := by
  rw [← a.entry_eq hi hj, ← a.entry_eq hj hi]
  exact h ⟨i, hi⟩ ⟨j, hj⟩

/-- As many orthonormal eigenvectors as the matrix has rows, with their eigenvalues. -/
structure IsEigenbasis (a : Square ℝ n) (pairs : List (Eigenpair ℝ n)) : Prop where
  length_eq : pairs.length = n
  orthonormal : Columns.IsOrthonormal (pairs.map Eigenpair.vector).toArray
  eigen : ∀ p ∈ pairs, point (a.mulColumn p.vector) = p.value • point p.vector

/-- The triangular factorization is exact for every block of columns. -/
def Factorizations.TriangularExact (dense : Factorizations ℝ) : Prop :=
  ∀ {n : ℕ} (v : Columns ℝ n), (dense.triangular v).Factors v

/-- The eigenpairs of every symmetric matrix are exact and complete. -/
def Factorizations.SymmetricExact (dense : Factorizations ℝ) : Prop :=
  ∀ {n : ℕ} (a : Square ℝ n), a.IsSymmetric → IsEigenbasis a (dense.symmetric a)

theorem IsEigenbasis.perm {a : Square ℝ n} {p q : List (Eigenpair ℝ n)} (h : IsEigenbasis a p)
    (hpq : q.Perm p) : IsEigenbasis a q where
  length_eq := hpq.length_eq.trans h.length_eq
  orthonormal := by
    have hvectors := h.orthonormal
    have hperm : (Columns.points (q.map Eigenpair.vector).toArray).Perm
        (Columns.points (p.map Eigenpair.vector).toArray) := (hpq.map _).map _
    rw [Columns.isOrthonormal_iff] at hvectors ⊢
    refine ⟨fun x hx => hvectors.1 x (hperm.mem_iff.mp hx), ?_⟩
    refine (hperm.pairwise_iff ?_).mpr hvectors.2
    intro x y hxy
    rw [real_inner_comm]
    exact hxy
  eigen := fun x hx => h.eigen x (hpq.mem_iff.mp hx)

namespace TriangularFactors.Factors

variable {f : TriangularFactors ℝ n} {v : Columns ℝ n}

theorem order_le (h : f.Factors v) : f.order ≤ v.size :=
  h.order_eq ▸ Nat.min_le_right _ _

theorem entry_eq_inner (h : f.Factors v) (i : Fin f.order) (j : ℕ) (hv : j < v.size)
    (hr : j < f.r.size) : f.r[j][i] = ⟪point f.q[i], point v[j]⟫ := by
  rw [h.product j hv hr, Orthonormal.inner_right_fintype h.orthonormal]

theorem eq_sum_inner (h : f.Factors v) (j : ℕ) (hv : j < v.size) :
    point v[j] = ∑ i : Fin f.order, ⟪point f.q[i], point v[j]⟫ • point f.q[i] := by
  have hr : j < f.r.size := h.width ▸ hv
  calc
    point v[j] = ∑ i : Fin f.order, f.r[j][i] • point f.q[i] := h.product j hv hr
    _ = ∑ i : Fin f.order, ⟪point f.q[i], point v[j]⟫ • point f.q[i] := by
      refine Finset.sum_congr rfl fun i _ => ?_
      rw [h.entry_eq_inner i j hv hr]

theorem inner_eq_zero (h : f.Factors v) {i : Fin f.order} {j : ℕ} (hv : j < v.size)
    (hij : j < i) : ⟪point f.q[i], point v[j]⟫ = 0 := by
  have hr : j < f.r.size := h.width ▸ hv
  rw [← h.entry_eq_inner i j hv hr]
  exact h.upper j hr i hij

theorem diagonal_eq_inner (h : f.Factors v) (j : Fin f.order) (hv : j.val < v.size) :
    f.diagonal[j] = ⟪point f.q[j], point v[j.val]⟫ := by
  have hr : j.val < f.r.size := h.width ▸ hv
  rw [← h.entry_eq_inner j j.val hv hr]
  simp [diagonal, Array.getElem?_eq_getElem hr]

/-- A column without components along the orthonormal columns before its own is a multiple of that
one. -/
theorem eq_diagonal_smul (h : f.Factors v) (j : Fin f.order) (hv : j.val < v.size)
    (hbefore : ∀ i < j, ⟪point f.q[i], point v[j.val]⟫ = 0) :
    point v[j.val] = f.diagonal[j] • point f.q[j] := by
  have hother : ∀ i : Fin f.order, i ≠ j →
      ⟪point f.q[i], point v[j.val]⟫ • point f.q[i] = 0 := by
    intro i hi
    rcases lt_or_gt_of_ne hi with hlt | hgt
    · rw [hbefore i hlt, zero_smul]
    · rw [h.inner_eq_zero hv hgt, zero_smul]
  calc
    point v[j.val] = ∑ i : Fin f.order, ⟪point f.q[i], point v[j.val]⟫ • point f.q[i] :=
      h.eq_sum_inner j.val hv
    _ = ⟪point f.q[j], point v[j.val]⟫ • point f.q[j] :=
      Finset.sum_eq_single j (fun i _ hi => hother i hi) (by simp)
    _ = f.diagonal[j] • point f.q[j] := by rw [h.diagonal_eq_inner j hv]

end TriangularFactors.Factors

end SubspaceEigen
