import SubspaceEigen.Proofs.Orthogonal.Height
import SubspaceEigen.Proofs.Orthogonal.Triangular

/-!
# Pivots and heights

As long as the columns are independent, the orthonormal columns of an exact triangular factorization
span what the columns before them span.  There the diagonal holds the heights of the columns up to
signs, and the signs that are chosen turn an orthonormal column into the unit vector along its rise.
Beyond the first dependent column the factorization is free in its choice, and nothing of this
holds.
-/

namespace SubspaceEigen.TriangularFactors

open scoped RealInnerProductSpace
open Column Columns

variable {n : ℕ} {f : TriangularFactors ℝ n} {v : Columns ℝ n}

theorem mem_leading {m : ℕ} {i : Fin f.order} (him : i.val < m) :
    f.q[i] ∈ f.q.toArray.extract 0 m := by
  rw [Array.mem_extract_iff_getElem]
  exact ⟨i, by simp; omega, by simp⟩

theorem mem_leading_iff {m : ℕ} {x : Vector ℝ n} :
    x ∈ f.q.toArray.extract 0 m ↔ ∃ i : Fin f.order, i.val < m ∧ getElem f.q i i.isLt = x := by
  constructor
  · intro hx
    obtain ⟨i, hi, rfl⟩ := Array.mem_extract_iff_getElem.mp hx
    have hbounds : i < m ∧ i < f.order := by simpa using hi
    exact ⟨⟨i, hbounds.2⟩, hbounds.1, by simp⟩
  · rintro ⟨i, him, rfl⟩
    exact mem_leading him

theorem point_mem_leading {m : ℕ} {i : Fin f.order} (him : i.val < m) :
    point f.q[i] ∈ span (f.q.toArray.extract 0 m) :=
  mem_span_of_mem (mem_leading him)

theorem largestPivot_nonneg : 0 ≤ f.largestPivot :=
  (largestPivot_le_iff.mp le_rfl).1

theorem not_lt_abs_diagonal {j : Fin f.order} (hzero : getElem f.diagonal j j.isLt = 0) :
    ¬ dependenceTolerance * f.largestPivot < |getElem f.diagonal j j.isLt| := by
  rw [hzero, abs_zero, not_lt]
  exact mul_nonneg dependenceTolerance_pos.le largestPivot_nonneg

theorem tolerance_mul_largestPivot_lt {c : ℝ} (j : Fin f.order)
    (h : ∀ k : Fin f.order, dependenceTolerance * |getElem f.diagonal k k.isLt| < c) :
    dependenceTolerance * f.largestPivot < c := by
  have : Nonempty (Fin f.order) := ⟨j⟩
  obtain ⟨k, hk⟩ := Finite.exists_max fun k : Fin f.order => |f.diagonal[k]|
  have htop : f.largestPivot ≤ |f.diagonal[k]| :=
    largestPivot_le_iff.mpr ⟨abs_nonneg _, hk⟩
  exact (mul_le_mul_of_nonneg_left htop dependenceTolerance_pos.le).trans_lt (h k)

namespace Factors

theorem inner_leading (h : f.Factors v) {j : Fin f.order} {p : Euclid n}
    (hp : p ∈ span (f.q.toArray.extract 0 j)) : ⟪p, point (getElem f.q j j.isLt)⟫ = 0 := by
  apply inner_eq_zero_of_mem_span hp
  intro x hx
  obtain ⟨y, hy, rfl⟩ := mem_points.mp hx
  obtain ⟨i, hij, rfl⟩ := mem_leading_iff.mp hy
  exact h.orthonormal.inner_eq_zero (Fin.ne_of_lt hij)

theorem diagonal_eq_zero (h : f.Factors v) (j : Fin f.order) (hv : j.val < v.size)
    (hmem : point v[j.val] ∈ span (f.q.toArray.extract 0 j)) :
    getElem f.diagonal j j.isLt = 0 := by
  rw [h.diagonal_eq_inner j hv, real_inner_comm]
  exact h.inner_leading hmem

/-- Without its share of its own orthonormal column, a column lies in the span of those before. -/
theorem sub_diagonal_smul_mem (h : f.Factors v) (j : Fin f.order) (hv : j.val < v.size) :
    point v[j.val] - getElem f.diagonal j j.isLt • point (getElem f.q j j.isLt) ∈
      span (f.q.toArray.extract 0 j) := by
  have hrest : point v[j.val] - f.diagonal[j] • point f.q[j] =
      ∑ i ∈ Finset.univ.erase j, ⟪point f.q[i], point v[j.val]⟫ • point f.q[i] := by
    rw [Finset.sum_erase_eq_sub (Finset.mem_univ j), ← h.eq_sum_inner j hv,
      h.diagonal_eq_inner j hv]
  rw [hrest]
  refine Submodule.sum_mem _ fun i hi => ?_
  rcases lt_or_gt_of_ne (Finset.ne_of_mem_erase hi) with hlt | hgt
  · exact Submodule.smul_mem _ _ (point_mem_leading hlt)
  · rw [h.inner_eq_zero hv hgt, zero_smul]
    exact Submodule.zero_mem _

/-- Where the spans agree, the rise of a column lies along its orthonormal column. -/
theorem rise_eq (h : f.Factors v) (j : Fin f.order) (hv : j.val < v.size)
    (hspan : span (f.q.toArray.extract 0 j) = span (v.extract 0 j)) :
    rise (v.extract 0 j) (point v[j.val]) =
      getElem f.diagonal j j.isLt • point (getElem f.q j j.isLt) := by
  apply rise_eq_of_mem
  · rw [← hspan]
    exact h.sub_diagonal_smul_mem j hv
  · intro x hx
    obtain ⟨y, hy, rfl⟩ := mem_points.mp hx
    have hmem : point y ∈ span (f.q.toArray.extract 0 j) := hspan ▸ mem_span_of_mem hy
    rw [inner_smul_right, h.inner_leading hmem, mul_zero]

theorem abs_diagonal_of_span (h : f.Factors v) (j : Fin f.order) (hv : j.val < v.size)
    (hspan : span (f.q.toArray.extract 0 j) = span (v.extract 0 j)) :
    |getElem f.diagonal j j.isLt| = v.height ⟨j, hv⟩ := by
  have hq : ‖point f.q[j]‖ = 1 := h.orthonormal.1 j
  calc
    |f.diagonal[j]| = ‖f.diagonal[j] • point f.q[j]‖ := by
      rw [norm_smul, hq, mul_one, Real.norm_eq_abs]
    _ = ‖rise (v.extract 0 j) (point v[j.val])‖ := by rw [h.rise_eq j hv hspan]
    _ = v.height ⟨j, hv⟩ := (distance_eq_norm_rise _ _).symm

/-- Up to the first dependent column the orthonormal columns span what the columns span. -/
theorem span_leading (h : f.Factors v) {m : ℕ} (hm : m ≤ f.order)
    (hrise : ∀ j : Fin v.size, j.val < m → v.height j ≠ 0) :
    span (f.q.toArray.extract 0 m) = span (v.extract 0 m) := by
  induction m with
  | zero => simp
  | succ m ih =>
      have hspan := ih (Nat.le_of_succ_le hm) fun j hj => hrise j (Nat.lt_succ_of_lt hj)
      have hv : m < v.size := lt_of_lt_of_le hm h.order_le
      have hdiagonal : f.diagonal[m] ≠ 0 := by
        have habs := h.abs_diagonal_of_span ⟨m, hm⟩ hv hspan
        exact abs_ne_zero.mp (habs.trans_ne (hrise ⟨m, hv⟩ (Nat.lt_succ_self m)))
      rw [extract_succ v hv, extract_succ f.q.toArray (by simpa using hm)]
      exact (span_push_congr hspan.symm hdiagonal (h.rise_eq ⟨m, hm⟩ hv hspan)).symm

theorem isOrthonormal_toArray (h : f.Factors v) : IsOrthonormal f.q.toArray :=
  Orthonormal.comp h.orthonormal (Fin.cast (by simp)) (Fin.cast_injective _)

theorem le_order (h : f.Factors v) {m : ℕ} (hm : m ≤ v.size)
    (hrise : ∀ j : Fin v.size, j.val < m → v.height j ≠ 0) : m ≤ f.order := by
  by_contra hlt
  have hfull : f.order = n := by
    have horder := h.order_eq
    omega
  have htop : span f.q.toArray = ⊤ := by
    apply Submodule.eq_top_of_finrank_eq
    rw [h.isOrthonormal_toArray.finrank_span, finrank_euclideanSpace_fin]
    simpa using hfull
  have hv : f.order < v.size := by omega
  have hspan := h.span_leading le_rfl fun j hj => hrise j (by omega)
  rw [Array.extract_eq_self_of_le (by simp), htop] at hspan
  refine hrise ⟨f.order, hv⟩ (not_le.mp hlt) (height_eq_zero_iff.mpr ?_)
  exact hspan ▸ Submodule.mem_top

/-- At an independent column, with only such before it, the diagonal has the height. -/
theorem abs_diagonal_eq_height (h : f.Factors v) (j : Fin f.order) (hv : j.val < v.size)
    (hrise : ∀ i : Fin v.size, i.val < j.val → v.height i ≠ 0) :
    |getElem f.diagonal j j.isLt| = v.height ⟨j, hv⟩ :=
  h.abs_diagonal_of_span j hv (h.span_leading j.isLt.le hrise)

/-- The sign of an orthonormal column is chosen so that it points along the rise. -/
theorem oriented_eq_unitRise (h : f.Factors v) (j : Fin f.order) (hv : j.val < v.size)
    (hrise : ∀ i : Fin v.size, i.val ≤ j.val → v.height i ≠ 0) :
    f.oriented j = unitRise (v.extract 0 j) (point v[j.val]) := by
  have hbefore := fun i (hi : i.val < j.val) => hrise i hi.le
  have habs := h.abs_diagonal_eq_height j hv hbefore
  have hne : |f.diagonal[j]| ≠ 0 := habs.trans_ne (hrise ⟨j, hv⟩ le_rfl)
  apply point_injective
  rw [unitRise, point_ofPoint, h.rise_eq j hv (h.span_leading j.isLt.le hbefore)]
  change _ = (v.height ⟨j, hv⟩)⁻¹ • _
  rw [← habs, smul_smul, oriented_eq]
  split
  · next hneg =>
    rw [abs_of_neg hneg, inv_neg, neg_mul, inv_mul_cancel₀ hneg.ne, neg_one_smul, point_negate]
  · next hpos =>
    have hpos : 0 < f.diagonal[j] := (abs_ne_zero.mp hne).lt_of_le' (not_lt.mp hpos)
    rw [abs_of_pos hpos, inv_mul_cancel₀ hpos.ne', one_smul]

end Factors

end SubspaceEigen.TriangularFactors
