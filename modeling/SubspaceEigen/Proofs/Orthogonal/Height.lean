import Mathlib.Analysis.InnerProductSpace.Projection.Basic
import Mathlib.Topology.MetricSpace.HausdorffDistance
import SubspaceEigen.Proofs.Orthonormal

/-!
# Heights above a span

How far a point, or a column among others, rises above the span of given columns.  The part of a
point off the span is what orthonormalization adds to a basis; its length is the distance by which a
column is judged dependent.
-/

namespace SubspaceEigen.Columns

open scoped RealInnerProductSpace
open Column

variable {n : ℕ} {cs : Columns ℝ n} {p q r : Euclid n}

noncomputable def distance (cs : Columns ℝ n) (p : Euclid n) : ℝ :=
  Metric.infDist p cs.span

/-- A point less its projection on the span of columns. -/
noncomputable def rise (cs : Columns ℝ n) (p : Euclid n) : Euclid n :=
  p - cs.span.starProjection p

/-- The unit column along the part of a point off the span. -/
noncomputable def unitRise (cs : Columns ℝ n) (p : Euclid n) : Vector ℝ n :=
  ofPoint ((cs.distance p)⁻¹ • cs.rise p)

/-- The distance of a column from the span of the columns before it. -/
noncomputable def height (v : Columns ℝ n) (j : Fin v.size) : ℝ :=
  distance (v.extract 0 j) (v.family j)

theorem distance_eq_norm_rise (cs : Columns ℝ n) (p : Euclid n) :
    cs.distance p = ‖cs.rise p‖ := by
  rw [rise, Submodule.starProjection_minimal, distance, Metric.infDist_eq_iInf]
  exact iInf_congr fun x => dist_eq_norm p x

theorem distance_nonneg (cs : Columns ℝ n) (p : Euclid n) : 0 ≤ cs.distance p :=
  Metric.infDist_nonneg

theorem inner_rise (hq : q ∈ cs.span) (p : Euclid n) : ⟪q, cs.rise p⟫ = 0 := by
  rw [real_inner_comm]
  exact Submodule.starProjection_inner_eq_zero p q hq

theorem sub_rise_mem (cs : Columns ℝ n) (p : Euclid n) : p - cs.rise p ∈ cs.span := by
  rw [rise, sub_sub_cancel]
  exact Submodule.starProjection_apply_mem _ p

/-- The rise is the one part orthogonal to the columns that leaves a point of their span. -/
theorem rise_eq_of_mem (hspan : p - r ∈ cs.span) (horth : ∀ x ∈ cs.points, ⟪x, r⟫ = 0) :
    cs.rise p = r := by
  have hproj : cs.span.starProjection p = p - r := by
    apply Submodule.eq_starProjection_of_mem_of_inner_eq_zero hspan
    intro w hw
    rw [sub_sub_cancel, real_inner_comm]
    exact inner_eq_zero_of_mem_span hw horth
  rw [rise, hproj, sub_sub_cancel]

theorem rise_smul (cs : Columns ℝ n) (c : ℝ) (p : Euclid n) :
    cs.rise (c • p) = c • cs.rise p := by
  rw [rise, rise, map_smul, smul_sub]

theorem distance_smul (cs : Columns ℝ n) (c : ℝ) (p : Euclid n) :
    cs.distance (c • p) = |c| * cs.distance p := by
  rw [distance_eq_norm_rise, distance_eq_norm_rise, rise_smul, norm_smul, Real.norm_eq_abs]

theorem distance_eq_zero_iff : cs.distance p = 0 ↔ p ∈ cs.span := by
  rw [distance_eq_norm_rise, norm_eq_zero, rise, sub_eq_zero, eq_comm]
  exact Submodule.starProjection_eq_self_iff

/-- Columns with one span make a point rise alike. -/
theorem unitRise_congr {ds : Columns ℝ n} (h : cs.span = ds.span) (p : Euclid n) :
    cs.unitRise p = ds.unitRise p := by
  simp only [unitRise, distance, rise, h]

theorem unitRise_smul (cs : Columns ℝ n) {c : ℝ} (hc : 0 < c) (p : Euclid n) :
    cs.unitRise (c • p) = cs.unitRise p := by
  have hscale : (c * cs.distance p)⁻¹ * c = (cs.distance p)⁻¹ := by
    rw [mul_inv_rev, mul_assoc, inv_mul_cancel₀ hc.ne', mul_one]
  rw [unitRise, unitRise, distance_smul, abs_of_pos hc, rise_smul, smul_smul, hscale]

theorem norm_unitRise (h : cs.distance p ≠ 0) : ‖point (cs.unitRise p)‖ = 1 := by
  rw [unitRise, point_ofPoint, norm_smul, norm_inv, Real.norm_of_nonneg (cs.distance_nonneg p),
    ← distance_eq_norm_rise, inv_mul_cancel₀ h]

theorem inner_unitRise (hq : q ∈ cs.points) (p : Euclid n) :
    ⟪q, point (cs.unitRise p)⟫ = 0 := by
  obtain ⟨x, hx, rfl⟩ := mem_points.mp hq
  rw [unitRise, point_ofPoint, inner_smul_right, inner_rise (mem_span_of_mem hx), mul_zero]

theorem IsOrthonormal.push_unitRise (h : cs.IsOrthonormal) (hp : cs.distance p ≠ 0) :
    IsOrthonormal (cs.push (cs.unitRise p)) :=
  isOrthonormal_push.mpr ⟨h, norm_unitRise hp, fun _ hq => inner_unitRise hq p⟩

theorem unitRise_point {x : Vector ℝ n} (hunit : ‖point x‖ = 1)
    (horth : ∀ q ∈ cs.points, ⟪q, point x⟫ = 0) :
    cs.distance (point x) = 1 ∧ cs.unitRise (point x) = x := by
  have hrise : cs.rise (point x) = point x := by
    apply rise_eq_of_mem _ horth
    rw [sub_self]
    exact cs.span.zero_mem
  have hdistance : cs.distance (point x) = 1 := by
    rw [distance_eq_norm_rise, hrise, hunit]
  refine ⟨hdistance, ?_⟩
  rw [unitRise, hdistance, hrise, inv_one, one_smul, ofPoint_point]

/-- For an orthonormal basis the rise is what is left without the components along it. -/
theorem IsOrthonormal.off_eq_rise (h : cs.IsOrthonormal) (p : Euclid n) :
    cs.off p = cs.rise p := by
  refine (rise_eq_of_mem ?_ fun x hx => inner_off h hx p).symm
  rw [off, sub_sub_cancel]
  exact Submodule.sum_mem _ fun j _ =>
    Submodule.smul_mem _ _ (Submodule.subset_span ⟨j, rfl⟩)

section Span

variable {x y : Vector ℝ n}

theorem span_push (cs : Columns ℝ n) (x : Vector ℝ n) :
    span (cs.push x) = cs.span ⊔ Submodule.span ℝ {point x} := by
  have hpoints : {p | p ∈ points (cs.push x)} = {p | p ∈ cs.points} ∪ {point x} := by
    ext p
    simp [points, or_comm]
  rw [span, span, range_family, range_family, hpoints, Submodule.span_union]

theorem span_push_of_mem (h : point x ∈ cs.span) : span (cs.push x) = cs.span := by
  rw [span_push, sup_eq_left, Submodule.span_singleton_le_iff_mem]
  exact h

/-- Beside columns that span the same, a column may give way to a multiple of its rise. -/
theorem span_push_congr {ds : Columns ℝ n} (h : cs.span = ds.span) {c : ℝ} (hc : c ≠ 0)
    (hy : cs.rise (point x) = c • point y) : span (cs.push x) = span (ds.push y) := by
  have hsplit : point x - c • point y ∈ cs.span := hy ▸ cs.sub_rise_mem (point x)
  rw [span_push, span_push, ← h]
  apply le_antisymm
  · refine sup_le le_sup_left ((Submodule.span_singleton_le_iff_mem _ _).mpr ?_)
    rw [← sub_add_cancel (point x) (c • point y)]
    exact Submodule.add_mem_sup hsplit
      (Submodule.smul_mem _ _ (Submodule.mem_span_singleton_self _))
  · refine sup_le le_sup_left ((Submodule.span_singleton_le_iff_mem _ _).mpr ?_)
    have hback : point y = c⁻¹ • point x - c⁻¹ • (point x - c • point y) := by
      rw [smul_sub, smul_smul, inv_mul_cancel₀ hc, one_smul, sub_sub_cancel]
    rw [hback, sub_eq_add_neg, add_comm]
    exact Submodule.add_mem_sup (Submodule.neg_mem _ (Submodule.smul_mem _ _ hsplit))
      (Submodule.smul_mem _ _ (Submodule.mem_span_singleton_self _))

theorem span_push_unitRise {ds : Columns ℝ n} (h : cs.span = ds.span)
    (hx : cs.distance (point x) ≠ 0) :
    span (cs.push x) = span (ds.push (ds.unitRise (point x))) := by
  refine span_push_congr h hx ?_
  rw [← unitRise_congr h, unitRise, point_ofPoint, smul_smul, mul_inv_cancel₀ hx, one_smul]

end Span

section Height

variable {v : Columns ℝ n}

theorem extract_succ (v : Columns ℝ n) {j : ℕ} (hj : j < v.size) :
    v.extract 0 (j + 1) = (v.extract 0 j).push v[j] := by
  rw [Array.push_extract_getElem hj, Nat.zero_min]

theorem mem_of_mem_extract {x : Vector ℝ n} {i j : ℕ} (h : x ∈ v.extract i j) : x ∈ v := by
  obtain ⟨k, hk, rfl⟩ := Array.mem_extract_iff_getElem.mp h
  exact Array.getElem_mem _

theorem height_nonneg (v : Columns ℝ n) (j : Fin v.size) : 0 ≤ v.height j :=
  distance_nonneg _ _

theorem height_eq_zero_iff {j : Fin v.size} :
    v.height j = 0 ↔ v.family j ∈ span (v.extract 0 j) :=
  distance_eq_zero_iff

/-- Dependent columns at the end add nothing to the span. -/
theorem span_extract_of_height_eq_zero {m : ℕ} (hm : m ≤ v.size)
    (h : ∀ j : Fin v.size, m ≤ j → v.height j = 0) : span (v.extract 0 m) = v.span := by
  have hall : ∀ k, m ≤ k → k ≤ v.size → span (v.extract 0 k) = span (v.extract 0 m) := by
    intro k hmk
    induction k, hmk using Nat.le_induction with
    | base => exact fun _ => rfl
    | succ k hmk ih =>
        intro hk
        have hmem := height_eq_zero_iff.mp (h ⟨k, hk⟩ hmk)
        rw [extract_succ v hk]
        exact (span_push_of_mem hmem).trans (ih (Nat.le_of_succ_le hk))
  rw [← hall v.size hm le_rfl, Array.extract_size]

theorem extract_append (v : Columns ℝ n) {k m : ℕ} (hkm : k ≤ m) :
    v.extract 0 k ++ v.extract k m = v.extract 0 m := by
  rw [Array.extract_append_extract, Nat.zero_min, max_eq_right hkm]

theorem span_extract_mono {k m : ℕ} (hkm : k ≤ m) :
    span (v.extract 0 k) ≤ span (v.extract 0 m) := by
  rw [← extract_append v hkm]
  exact span_mono fun x hx => Array.mem_append_left _ hx

theorem IsOrthonormal.extract_le {k m : ℕ} (h : IsOrthonormal (v.extract 0 m)) (hkm : k ≤ m) :
    IsOrthonormal (v.extract 0 k) := by
  rw [← extract_append v hkm] at h
  exact (isOrthonormal_append.mp h).1

/-- Orthonormal columns at the beginning rise by one, each as it is. -/
theorem IsOrthonormal.unitRise_leading {m j : ℕ} (h : IsOrthonormal (v.extract 0 m)) (hjm : j < m)
    (hj : j < v.size) :
    v.height ⟨j, hj⟩ = 1 ∧ unitRise (v.extract 0 j) (point v[j]) = v[j] := by
  have hnext := h.extract_le (Nat.succ_le_of_lt hjm)
  rw [extract_succ v hj] at hnext
  obtain ⟨-, hunit, horth⟩ := isOrthonormal_push.mp hnext
  exact unitRise_point hunit horth

theorem height_eq_zero_of_mem {j : Fin v.size} (h : getElem v j j.isLt ∈ v.extract 0 j) :
    v.height j = 0 :=
  height_eq_zero_iff.mpr (mem_span_of_mem h)

theorem height_eq_one_of_axis {j : Fin v.size} (k : Fin n)
    (hj : getElem v j j.isLt = Column.unit n k)
    (hbefore : ∀ x ∈ v.extract 0 j, ∃ l : Fin n, l ≠ k ∧ x = Column.unit n l) :
    v.height j = 1 := by
  have hunit : ‖point v[j]‖ = 1 := by
    rw [hj]
    simp
  have horth : ∀ q ∈ points (v.extract 0 j), ⟪q, point v[j]⟫ = 0 := by
    intro q hq
    obtain ⟨x, hx, rfl⟩ := mem_points.mp hq
    obtain ⟨l, hl, rfl⟩ := hbefore x hx
    rw [hj, point_unit, point_unit, EuclideanSpace.inner_single_left]
    simp [hl]
  exact (unitRise_point hunit horth).1

end Height

end SubspaceEigen.Columns
