import Mathlib.Analysis.InnerProductSpace.PiL2
import SubspaceEigen.Proofs.Reals

/-!
# Columns as points

A column of real numbers is a point of Euclidean space.  The operations on columns are those of the
space, so that what is said about a basis, a residual or a norm can be said in its terms.
-/

namespace SubspaceEigen

open scoped RealInnerProductSpace

abbrev Euclid (n : ℕ) :=
  EuclideanSpace ℝ (Fin n)

noncomputable instance (n : ℕ) : NormedAddCommGroup (Euclid n) :=
  inferInstance

noncomputable instance (n : ℕ) : InnerProductSpace ℝ (Euclid n) :=
  inferInstance

instance (n : ℕ) : FiniteDimensional ℝ (Euclid n) :=
  inferInstance

namespace Column

variable {n : ℕ}

/-- A column as a point. -/
def point (x : Vector ℝ n) : Euclid n :=
  WithLp.toLp 2 fun i => getElem x i i.isLt

def ofPoint (p : Euclid n) : Vector ℝ n :=
  Vector.ofFn fun i => p i

@[simp] theorem point_apply (x : Vector ℝ n) (i : Fin n) : point x i = getElem x i i.isLt :=
  rfl

@[simp] theorem point_ofPoint (p : Euclid n) : point (ofPoint p) = p := by
  ext i
  simp [ofPoint]

@[simp] theorem ofPoint_point (x : Vector ℝ n) : ofPoint (point x) = x := by
  ext i hi
  simp [ofPoint]

theorem point_injective : Function.Injective (point : Vector ℝ n → Euclid n) :=
  Function.LeftInverse.injective ofPoint_point

theorem sum_eq_sum (f : Fin n → ℝ) : Column.sum n f = ∑ i, f i := by
  simp only [Column.sum]
  induction n with
  | zero => simp
  | succ n ih =>
      rw [Fin.foldl_succ_last, Fin.sum_univ_castSucc, ← ih fun i => f i.castSucc]

theorem dot_eq_inner (x y : Vector ℝ n) : dot x y = ⟪point x, point y⟫ := by
  simp [dot, sum_eq_sum, PiLp.inner_apply, mul_comm]

theorem normSq_eq (x : Vector ℝ n) : normSq x = ‖point x‖ ^ 2 := by
  rw [normSq, dot_eq_inner, real_inner_self_eq_norm_sq]

theorem norm_eq (x : Vector ℝ n) : Column.norm x = ‖point x‖ := by
  rw [Column.norm, normSq_eq, Scalar.sqrt_real, Real.sqrt_sq (norm_nonneg _)]

@[simp] theorem point_addScaled (y : Vector ℝ n) (a : ℝ) (x : Vector ℝ n) :
    point (addScaled y a x) = point y + a • point x := by
  ext i
  simp [addScaled]

@[simp] theorem point_divide (x : Vector ℝ n) (a : ℝ) :
    point (divide x a) = a⁻¹ • point x := by
  ext i
  simp [divide, div_eq_inv_mul]

@[simp] theorem point_scale (a : ℝ) (x : Vector ℝ n) : point (scale a x) = a • point x := by
  ext i
  simp [scale, mul_comm]

@[simp] theorem point_negate (x : Vector ℝ n) : point (negate x) = -point x := by
  ext i
  simp [negate]

@[simp] theorem point_unit (k : Fin n) :
    point (Column.unit n k : Vector ℝ n) = EuclideanSpace.single k 1 := by
  ext i
  simp [Column.unit, Fin.ext_iff]

theorem inner_unit {k : ℕ} (hk : k < n) (x : Vector ℝ n) :
    ⟪point (Column.unit n k : Vector ℝ n), point x⟫ = x[k] := by
  have hsingle : point (Column.unit n k : Vector ℝ n) = EuclideanSpace.single ⟨k, hk⟩ 1 :=
    point_unit ⟨k, hk⟩
  rw [hsingle, EuclideanSpace.inner_single_left]
  simp

theorem getElem_unit {i : ℕ} (hi : i < n) (k : ℕ) :
    (Column.unit n k : Vector ℝ n)[i] = if i = k then 1 else 0 := by
  simp [Column.unit]

theorem inner_unit_unit {i : ℕ} (hi : i < n) (j : ℕ) :
    ⟪point (Column.unit n i : Vector ℝ n), point (Column.unit n j : Vector ℝ n)⟫ =
      if i = j then 1 else 0 := by
  rw [inner_unit hi, getElem_unit hi]

theorem norm_unit {k : ℕ} (hk : k < n) : ‖point (Column.unit n k : Vector ℝ n)‖ = 1 := by
  rw [norm_eq_sqrt_real_inner, inner_unit_unit hk, if_pos rfl, Real.sqrt_one]

theorem norm_divide_norm {x : Vector ℝ n} (hx : 0 < Column.norm x) :
    ‖point (divide x (Column.norm x))‖ = 1 := by
  rw [norm_eq] at hx ⊢
  rw [point_divide, norm_smul, norm_inv, norm_norm, inv_mul_cancel₀ hx.ne']

theorem normalize_of_norm_eq_one {x : Vector ℝ n} (hx : ‖point x‖ = 1) :
    normalize x = x := by
  apply point_injective
  simp [normalize, norm_eq, hx]

end Column

namespace Columns

variable {n : ℕ}

open Column

/-- The columns as points, in order. -/
def points (cs : Columns ℝ n) : List (Euclid n) :=
  cs.toList.map point

def family (cs : Columns ℝ n) (j : Fin cs.size) : Euclid n :=
  point cs[j]

@[simp] theorem length_points (cs : Columns ℝ n) : cs.points.length = cs.size := by
  simp [points]

@[simp] theorem points_empty : points (#[] : Columns ℝ n) = [] :=
  rfl

@[simp] theorem points_append (a b : Columns ℝ n) :
    points (a ++ b) = a.points ++ b.points := by
  simp [points]

@[simp] theorem mem_points {cs : Columns ℝ n} {p : Euclid n} :
    p ∈ cs.points ↔ ∃ x ∈ cs, point x = p := by
  simp [points]

theorem points_eq_ofFn (cs : Columns ℝ n) : cs.points = List.ofFn cs.family := by
  apply List.ext_getElem
  · simp
  · intro j hj hj'
    simp [points, family]

theorem range_family (cs : Columns ℝ n) : Set.range cs.family = {p | p ∈ cs.points} := by
  ext p
  rw [points_eq_ofFn]
  simp [List.mem_ofFn]

def span (cs : Columns ℝ n) : Submodule ℝ (Euclid n) :=
  Submodule.span ℝ (Set.range cs.family)

theorem mem_span_of_mem {cs : Columns ℝ n} {x : Vector ℝ n} (hx : x ∈ cs) :
    point x ∈ cs.span := by
  apply Submodule.subset_span
  rw [range_family]
  exact mem_points.mpr ⟨x, hx, rfl⟩

theorem span_mono {a b : Columns ℝ n} (h : ∀ x ∈ a, x ∈ b) : a.span ≤ b.span := by
  apply Submodule.span_mono
  rw [range_family, range_family]
  rintro p hp
  obtain ⟨x, hx, rfl⟩ := mem_points.mp hp
  exact mem_points.mpr ⟨x, h x hx, rfl⟩

theorem point_combine (cs : Columns ℝ n) (x : Vector ℝ cs.size) :
    point (cs.combine x) = ∑ j, x[j] • cs.family j := by
  ext i
  simp [combine, sum_eq_sum, family]
  exact Finset.sum_congr rfl fun j _ => mul_comm _ _

end Columns

end SubspaceEigen
