import SubspaceEigen.Proofs.Dense.Supply
import SubspaceEigen.Proofs.Orthogonal.Pivots
import SubspaceEigen.Proofs.Orthogonal.Sifting

/-!
# Agreement of the two orthogonalizations

On columns that stay far enough apart, Gram–Schmidt and the triangular factorization both give the
unit vectors along the rises of the columns.
-/

namespace SubspaceEigen

open Column

variable {n : ℕ} {dense : Factorizations ℝ} {v : Columns ℝ n} {start : ℕ}

namespace Columns

noncomputable def unitRises (v : Columns ℝ n) : Columns ℝ n :=
  Array.ofFn fun j : Fin v.size => unitRise (v.extract 0 j) (v.family j)

/-- The columns are far apart, measured by their own norms and by the largest height. -/
structure FarApart (v : Columns ℝ n) : Prop where
  own : ∀ j : Fin v.size, dependenceTolerance * ‖v.family j‖ ≤ v.height j
  largest : ∀ j k : Fin v.size, dependenceTolerance * v.height k < v.height j

theorem FarApart.height_ne_zero (h : v.FarApart) (j : Fin v.size) : v.height j ≠ 0 := by
  intro hzero
  have hself := h.largest j j
  rw [hzero, mul_zero] at hself
  exact lt_irrefl 0 hself

@[simp] theorem size_unitRises (v : Columns ℝ n) : v.unitRises.size = v.size := by
  simp [unitRises]

theorem getElem_unitRises {j : ℕ} (hj : j < v.size) (hj' : j < v.unitRises.size) :
    v.unitRises[j] = unitRise (v.extract 0 j) (point v[j]) := by
  simp [unitRises, family]

theorem span_extract_unitRises (hrise : ∀ j, v.height j ≠ 0) {m : ℕ} (hm : m ≤ v.size) :
    span (v.unitRises.extract 0 m) = span (v.extract 0 m) := by
  induction m with
  | zero => simp
  | succ m ih =>
      have hspan := ih (Nat.le_of_succ_le hm)
      have hm' : m < v.unitRises.size := by simpa using hm
      rw [extract_succ v hm, extract_succ v.unitRises hm', getElem_unitRises hm,
        ← unitRise_congr hspan]
      exact (span_push_unitRise hspan.symm (hrise ⟨m, hm⟩)).symm

theorem extract_unitRises (h : IsOrthonormal (v.extract 0 start)) :
    v.unitRises.extract 0 start = v.extract 0 start := by
  apply Array.ext
  · simp
  · intro j hj hj'
    have hbounds : j < start ∧ j < v.size := by simpa using hj'
    rw [Array.getElem_extract, Array.getElem_extract]
    simp only [Nat.zero_add]
    rw [getElem_unitRises hbounds.2]
    exact (h.unitRise_leading hbounds.1 hbounds.2).2

end Columns

open Columns

/-- A column that is far from those before it is not dropped. -/
theorem Columns.FarApart.not_drops (h : v.FarApart) {j : ℕ} (hj : j < v.size) :
    ¬ GramSchmidt.Drops (v.unitRises.extract 0 j) v[j] := by
  have hdistance : distance (v.unitRises.extract 0 j) (point v[j]) = v.height ⟨j, hj⟩ := by
    rw [distance, span_extract_unitRises h.height_ne_zero hj.le]
    rfl
  rw [GramSchmidt.Drops, hdistance]
  refine not_or.mpr ⟨?_, not_lt.mpr (h.own ⟨j, hj⟩)⟩
  intro hzero
  apply h.height_ne_zero ⟨j, hj⟩
  refine height_eq_zero_iff.mpr ?_
  rw [family, Fin.getElem_fin, hzero]
  exact Submodule.zero_mem _

theorem Columns.toList_extract_size (v : Columns ℝ n) (m : ℕ) :
    (v.extract m v.size).toList = v.toList.drop m := by
  rw [Array.toList_extract, List.extract_eq_take_drop]
  exact List.take_of_length_le (by simp)

/-- From the rises of the first columns the others lead to all of them. -/
theorem Columns.FarApart.sifts (h : v.FarApart) (m : ℕ) :
    GramSchmidt.Sifts (v.unitRises.extract 0 m) (v.extract m v.size).toList v.unitRises := by
  have hend : ∀ k, v.size ≤ k →
      GramSchmidt.Sifts (v.unitRises.extract 0 k) (v.extract k v.size).toList v.unitRises := by
    intro k hk
    rw [Array.extract_eq_self_of_le (by simpa using hk), Array.extract_eq_empty_of_le (by simpa)]
    exact .done _
  rcases le_total v.size m with hge | hle
  · exact hend m hge
  induction hle using Nat.decreasingInduction with
  | self => exact hend _ le_rfl
  | of_succ m hm ih =>
      have hcons : (v.extract m v.size).toList = v[m] :: (v.extract (m + 1) v.size).toList := by
        rw [toList_extract_size, toList_extract_size, List.drop_eq_getElem_cons (by simpa using hm),
          Array.getElem_toList]
      have hm' : m < v.unitRises.size := by simpa using hm
      rw [hcons]
      refine .keep (h.not_drops hm) ?_
      rw [unitRise_congr (span_extract_unitRises h.height_ne_zero (Nat.le_of_lt hm)),
        ← getElem_unitRises hm hm', ← extract_succ]
      exact ih

theorem gramSchmidt_eq_unitRises (hfrozen : IsOrthonormal (v.extract 0 start)) (h : v.FarApart) :
    gramSchmidt v start = v.unitRises := by
  have hrises := h.sifts start
  rw [extract_unitRises hfrozen] at hrises
  exact (GramSchmidt.sifts_gramSchmidt hfrozen).unique hrises

theorem qrOrthonormalize_eq_unitRises (hd : dense.TriangularExact) (h : v.FarApart) :
    qrOrthonormalize dense v = v.unitRises := by
  have hf := hd v
  set f := dense.triangular v with hfdef
  have horder : f.order = v.size :=
    le_antisymm hf.order_le (hf.le_order le_rfl fun j _ => h.height_ne_zero j)
  have hdiagonal : ∀ j : Fin f.order, |f.diagonal[j]| = v.height (j.cast horder) :=
    fun j => hf.abs_diagonal_eq_height j (horder ▸ j.isLt) fun i _ => h.height_ne_zero i
  have hkept : ∀ j ∈ List.finRange f.order, f.kept? j = some (f.oriented j) := by
    intro j _
    refine TriangularFactors.kept?_eq_some_iff.mpr ⟨?_, rfl⟩
    apply TriangularFactors.tolerance_mul_largestPivot_lt j
    intro k
    rw [hdiagonal, hdiagonal]
    exact h.largest _ _
  have hlist : (qrOrthonormalize dense v).toList = (List.finRange f.order).map f.oriented := by
    rw [toList_qrOrthonormalize, ← hfdef, List.filterMap_congr hkept, ← Function.comp_def,
      List.filterMap_eq_map]
  apply Array.toList_inj.mp
  rw [hlist]
  apply List.ext_getElem
  · simp [horder]
  · intro j hj hj'
    have hjf : j < f.order := by simpa using hj
    have hjv : j < v.size := horder ▸ hjf
    rw [List.getElem_map, List.getElem_finRange, Array.getElem_toList, getElem_unitRises hjv]
    exact hf.oriented_eq_unitRise ⟨j, hjf⟩ hjv fun i _ => h.height_ne_zero i

/-- On columns that are far apart the two orthogonalizations give the same columns. -/
theorem qrOrthonormalize_eq_gramSchmidt (hd : dense.TriangularExact)
    (hfrozen : IsOrthonormal (v.extract 0 start)) (h : v.FarApart) :
    qrOrthonormalize dense v = gramSchmidt v start := by
  rw [qrOrthonormalize_eq_unitRises hd h, gramSchmidt_eq_unitRises hfrozen h]

/-- In the plane, after one frozen axis: the second column rises by four. -/
theorem qrOrthonormalize_eq_gramSchmidt_plane :
    let v : Columns ℝ 2 := #[Column.unit 2 0, #v[3, 4]]
    Factorizations.exact.TriangularExact ∧ IsOrthonormal (v.extract 0 1) ∧ v.FarApart ∧
      qrOrthonormalize Factorizations.exact v = gramSchmidt v 1 := by
  intro v
  have hfrozen : IsOrthonormal (v.extract 0 1) := isOrthonormal_unit (0 : Fin 2)
  have hfirst : v.height ⟨0, by simp [v]⟩ = 1 := (hfrozen.unitRise_leading one_pos _).1
  have hrise : rise (v.extract 0 1) (point (#v[3, 4] : Vector ℝ 2)) = point #v[0, 4] := by
    apply rise_eq_of_mem
    · have haxis : point (#v[3, 4] : Vector ℝ 2) - point #v[0, 4] =
          (3 : ℝ) • point (Column.unit 2 0) := by
        ext i
        fin_cases i <;> simp [Column.unit]
      rw [haxis]
      exact Submodule.smul_mem _ _ (mem_span_of_mem (by simp [v]))
    · intro x hx
      obtain rfl : x = point (Column.unit 2 0) := by simpa [v, points] using hx
      rw [← dot_eq_inner]
      simp [dot, sum_eq_sum, Column.unit]
  have hsecond : v.height ⟨1, by simp [v]⟩ = 4 := by
    calc
      v.height ⟨1, by simp [v]⟩ = ‖rise (v.extract 0 1) (point (#v[3, 4] : Vector ℝ 2))‖ :=
        distance_eq_norm_rise _ _
      _ = 4 := by
        rw [hrise, EuclideanSpace.norm_eq, Fin.sum_univ_two,
          Real.sqrt_eq_iff_mul_self_eq_of_pos (by norm_num)]
        norm_num
  have hnorm : ‖point (#v[3, 4] : Vector ℝ 2)‖ = 5 := by
    rw [EuclideanSpace.norm_eq, Fin.sum_univ_two, Real.sqrt_eq_iff_mul_self_eq_of_pos (by norm_num)]
    norm_num
  have hheights : ∀ j : Fin v.size, 1 ≤ v.height j ∧ v.height j ≤ 4 := by
    rintro ⟨_ | _ | j, hj⟩
    · rw [hfirst]
      norm_num
    · rw [hsecond]
      norm_num
    · simp [v] at hj
  have hnorms : ∀ j : Fin v.size, ‖v.family j‖ ≤ 5 := by
    rintro ⟨_ | _ | j, hj⟩
    · exact (hfrozen.norm_eq_one (by simp [v])).le.trans (by norm_num)
    · exact hnorm.le
    · simp [v] at hj
  have htolerance : (dependenceTolerance : ℝ) * 5 < 1 := by
    rw [dependenceTolerance]
    norm_num
  have hfar : v.FarApart := by
    constructor
    · intro j
      nlinarith [hheights j, hnorms j, dependenceTolerance_pos]
    · intro j k
      nlinarith [hheights j, hheights k, dependenceTolerance_pos]
  have hd : Factorizations.exact.TriangularExact := Factorizations.exact_triangularExact
  exact ⟨hd, hfrozen, hfar, qrOrthonormalize_eq_gramSchmidt hd hfrozen hfar⟩

end SubspaceEigen
