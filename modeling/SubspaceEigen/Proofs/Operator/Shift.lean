import SubspaceEigen.Proofs.Dense.Exact
import SubspaceEigen.Proofs.Operator.Linear

/-!
# Shifted operators

The operator `A + σ` differs from `A` by a multiple of the identity.  Its products need those of `A`
and the columns themselves, and its diagonal is that of `A` with `σ` added to every entry.
-/

namespace SubspaceEigen

open Column

variable {n : ℕ}

def LinearOperator.shift {α : Type} [Scalar α] (op : LinearOperator α) (σ : α) :
    LinearOperator α :=
  ofAction op.rows op.cols (op.diagonal.map fun d => d.map fun a => a + σ) fun x => do
    let y ← op.apply x
    y.zipWith (fun p q => p + σ * q) x

noncomputable def Square.shift (a : Square ℝ n) (σ : ℝ) : Square ℝ n :=
  Vector.ofFn fun j => Vector.ofFn fun i => a.entry i j + if i = j then σ else 0

noncomputable def shifted (f : Euclid n →ₗ[ℝ] Euclid n) (σ : ℝ) : Euclid n →ₗ[ℝ] Euclid n where
  toFun p := f p + σ • p
  map_add' p q := by
    rw [map_add, smul_add, add_add_add_comm]
  map_smul' c p := by
    rw [map_smul, smul_comm σ c p, RingHom.id_apply, smul_add]

@[simp] theorem shifted_apply (f : Euclid n →ₗ[ℝ] Euclid n) (σ : ℝ) (p : Euclid n) :
    shifted f σ p = f p + σ • p :=
  rfl

theorem Column.through_shifted (f : Euclid n →ₗ[ℝ] Euclid n) (σ : ℝ) (x : Vector ℝ n) :
    through (shifted f σ) x = addScaled (through f x) σ x := by
  apply point_injective
  rw [point_through, point_addScaled, point_through, shifted_apply]

theorem LinearOperator.shift_actsAs {op : LinearOperator ℝ} {f : Euclid n →ₗ[ℝ] Euclid n}
    (h : op.ActsAs f) (σ : ℝ) : (op.shift σ).ActsAs (shifted f σ) := by
  intro x
  have hsizes : n = n ∧ x.size = (x.map (through f)).size := ⟨rfl, by simp⟩
  have hcolumns : Array.zipWith (fun y z => Vector.zipWith (fun p q => p + σ * q) y (z.cast rfl))
      (x.map (through f)) x = x.map (through (shifted f σ)) := by
    apply Array.ext
    · simp
    · intro j hj hj'
      simp [through_shifted, addScaled]
  have hzip : (⟨n, x.map (through f)⟩ : Block ℝ).zipWith (fun p q => p + σ * q) ⟨n, x⟩ =
      .ok ⟨n, x.map (through (shifted f σ))⟩ := by
    rw [Block.zipWith, dif_pos hsizes, hcolumns]
  simp only [shift, ofAction, h x]
  exact hzip

namespace Square

theorem getElem_shift (a : Square ℝ n) (σ : ℝ) {i j : ℕ} (hi : i < n) (hj : j < n) :
    (a.shift σ)[j][i] = a[j][i] + if i = j then σ else 0 := by
  simp [shift, entry, Fin.ext_iff]

theorem shift_shift (a : Square ℝ n) (σ τ : ℝ) : (a.shift σ).shift τ = a.shift (σ + τ) := by
  ext j hj i hi
  simp only [getElem_shift]
  split <;> ring

@[simp] theorem shift_zero (a : Square ℝ n) : a.shift 0 = a := by
  ext j hj i hi
  simp [getElem_shift]

theorem mulColumn_shift (a : Square ℝ n) (σ : ℝ) (x : Vector ℝ n) :
    (a.shift σ).mulColumn x = addScaled (a.mulColumn x) σ x := by
  ext i hi
  have hdiagonal : ∑ j : Fin n, (if i = j.val then σ else 0) * x[j] = σ * x[i] := by
    rw [Finset.sum_eq_single (⟨i, hi⟩ : Fin n)]
    · simp
    · intro j _ hj
      rw [if_neg fun h => hj (Fin.ext h.symm), zero_mul]
    · simp
  have hentry : ∀ j : Fin n, (a.shift σ)[j][i] * x[j] =
      a[j][i] * x[j] + (if i = j.val then σ else 0) * x[j] := by
    intro j
    rw [Fin.getElem_fin, getElem_shift _ _ hi j.isLt, add_mul]
    rfl
  simp only [mulColumn, addScaled, Vector.getElem_ofFn, Vector.getElem_zipWith, sum_eq_sum]
  rw [← hdiagonal, ← Finset.sum_add_distrib]
  exact Finset.sum_congr rfl fun j _ => hentry j

theorem IsSymmetric.shift {a : Square ℝ n} (h : a.IsSymmetric) (σ : ℝ) :
    (a.shift σ).IsSymmetric := by
  intro i j
  rw [entry_eq _ i.isLt j.isLt, entry_eq _ j.isLt i.isLt, getElem_shift, getElem_shift,
    h.getElem_comm j.isLt i.isLt]
  simp only [eq_comm]

end Square

end SubspaceEigen
