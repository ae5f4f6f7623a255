import SubspaceEigen.Operator.Basic
import SubspaceEigen.Proofs.Orthonormal

/-!
# Operators that act as linear maps

An operator is known by its action on blocks.  It acts as a linear map when it applies the map to
every column of a block; its shape and its diagonal are not looked at.
-/

namespace SubspaceEigen

open Column

variable {n : ℕ}

noncomputable def Column.through (f : Euclid n →ₗ[ℝ] Euclid n) (x : Vector ℝ n) : Vector ℝ n :=
  ofPoint (f (point x))

@[simp] theorem Column.point_through (f : Euclid n →ₗ[ℝ] Euclid n) (x : Vector ℝ n) :
    point (through f x) = f (point x) :=
  point_ofPoint _

theorem Column.through_id :
    through (LinearMap.id : Euclid n →ₗ[ℝ] Euclid n) = (id : Vector ℝ n → Vector ℝ n) := by
  funext x
  simp [through]

namespace LinearOperator

/-- The operator applies the linear map `f` column by column. -/
def ActsAs (op : LinearOperator ℝ) (f : Euclid n →ₗ[ℝ] Euclid n) : Prop :=
  ∀ x : Columns ℝ n, op.apply ⟨n, x⟩ = .ok ⟨n, x.map (through f)⟩

def identity (n : ℕ) : LinearOperator ℝ :=
  ofAction n n (.ok (Array.replicate n 1)) .ok

theorem identity_actsAs :
    (identity n).ActsAs (LinearMap.id : Euclid n →ₗ[ℝ] Euclid n) := by
  intro x
  simp [identity, ofAction, through_id]

end LinearOperator

noncomputable def Square.toLinearMap (a : Square ℝ n) : Euclid n →ₗ[ℝ] Euclid n where
  toFun p := ∑ j : Fin n, p j • point (getElem a j j.isLt)
  map_add' p q := by
    simp only [PiLp.add_apply, add_smul, Finset.sum_add_distrib]
  map_smul' c p := by
    simp only [PiLp.smul_apply, smul_eq_mul, mul_smul, Finset.smul_sum, RingHom.id_apply]

theorem Square.toLinearMap_apply (a : Square ℝ n) (p : Euclid n) :
    a.toLinearMap p = ∑ j : Fin n, p j • point (getElem a j j.isLt) :=
  rfl

theorem Square.point_mulColumn (a : Square ℝ n) (x : Vector ℝ n) :
    point (a.mulColumn x) = a.toLinearMap (point x) := by
  ext i
  simp [mulColumn, sum_eq_sum, toLinearMap_apply]
  exact Finset.sum_congr rfl fun j _ => mul_comm _ _

theorem Square.through_toLinearMap (a : Square ℝ n) :
    through a.toLinearMap = (a.mulColumn : Vector ℝ n → Vector ℝ n) := by
  funext x
  apply point_injective
  rw [point_through, point_mulColumn]

theorem Square.mulColumn_unit (a : Square ℝ n) {j : ℕ} (hj : j < n) :
    a.mulColumn (Column.unit n j) = a[j] := by
  ext i hi
  simp only [mulColumn, Column.unit, Vector.getElem_ofFn, sum_eq_sum]
  rw [Finset.sum_eq_single (⟨j, hj⟩ : Fin n)]
  · simp
  · intro k _ hk
    simp [Fin.val_ne_of_ne hk]
  · simp

theorem Square.toLinearMap_unit (a : Square ℝ n) {j : ℕ} (hj : j < n) :
    a.toLinearMap (point (Column.unit n j)) = point a[j] := by
  rw [← point_mulColumn, mulColumn_unit a hj]

theorem Square.toLinearMap_identity :
    (Square.identity n : Square ℝ n).toLinearMap = LinearMap.id := by
  refine LinearMap.ext fun p => ?_
  ext i
  simp [toLinearMap_apply, identity, Pi.single_apply]

theorem Square.toLinearMap_injective :
    Function.Injective (Square.toLinearMap : Square ℝ n → Euclid n →ₗ[ℝ] Euclid n) := by
  intro a b h
  refine Vector.ext fun j hj => point_injective ?_
  rw [← toLinearMap_unit a hj, ← toLinearMap_unit b hj, h]

theorem Square.toLinearMap_comp (a b : Square ℝ n) :
    a.toLinearMap ∘ₗ b.toLinearMap = Square.toLinearMap (b.map a.mulColumn) := by
  refine LinearMap.ext fun p => ?_
  rw [LinearMap.comp_apply, toLinearMap_apply b, toLinearMap_apply (b.map a.mulColumn), map_sum]
  refine Finset.sum_congr rfl fun j _ => ?_
  rw [map_smul, ← point_mulColumn, Fin.getElem_fin, Fin.getElem_fin, Vector.getElem_map]

theorem Square.combine_toArray (a : Square ℝ n) (hsize : n = a.toArray.size) (c : Vector ℝ n) :
    Columns.combine a.toArray (c.cast hsize) = a.mulColumn c := by
  apply point_injective
  rw [point_mulColumn, Columns.point_combine, Square.toLinearMap_apply]
  refine (Fintype.sum_equiv (finCongr hsize) _ _ fun j => ?_).symm
  simp [Columns.family]

theorem LinearOperator.ofBlock_actsAs (a : Square ℝ n) :
    (LinearOperator.ofBlock ⟨n, a.toArray⟩).ActsAs a.toLinearMap := by
  intro x
  have hsize : n = a.toArray.size := a.size_toArray.symm
  simp only [ofBlock, Block.mul, dif_pos hsize, a.combine_toArray, a.through_toLinearMap]

end SubspaceEigen
