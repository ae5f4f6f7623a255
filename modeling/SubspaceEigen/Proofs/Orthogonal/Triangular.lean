import SubspaceEigen.Orthogonal.Triangular
import SubspaceEigen.Proofs.Dense.Exact

/-!
# Orthonormal columns from an exact triangular factorization

A factorization reproduces an orthonormal beginning of its columns up to signs, and the signs are
fixed by the diagonal.  Whether that beginning survives depends on the largest diagonal entry alone:
its own entries are one, so either all of it is kept or all of it counts as negligible.
-/

namespace SubspaceEigen

open scoped RealInnerProductSpace
open Column

variable {n : ℕ}

namespace TriangularFactors

variable {f : TriangularFactors ℝ n}

theorem oriented_eq (j : Fin f.order) :
    f.oriented j = if f.diagonal[j] < 0 then negate f.q[j] else f.q[j] :=
  rfl

theorem point_oriented (j : Fin f.order) :
    point (f.oriented j) = point f.q[j] ∨ point (f.oriented j) = -point f.q[j] := by
  rw [oriented_eq]
  split
  · exact .inr (point_negate _)
  · exact .inl rfl

theorem largestPivot_le_iff {c : ℝ} :
    f.largestPivot ≤ c ↔ 0 ≤ c ∧ ∀ j : Fin f.order, |f.diagonal[j]| ≤ c := by
  have hfold : ∀ (l : List ℝ) (top : ℝ),
      l.foldl (fun top d => Scalar.max top (Scalar.abs d)) top ≤ c ↔
        top ≤ c ∧ ∀ d ∈ l, |d| ≤ c := by
    intro l
    induction l with
    | nil => simp
    | cons d l ih =>
        intro top
        rw [List.foldl_cons, ih, Scalar.max_real, max_le_iff, List.forall_mem_cons, and_assoc]
        rfl
  rw [largestPivot, ← Array.foldl_toList, hfold]
  apply and_congr_right
  intro _
  constructor
  · intro h j
    exact h _ (by simp)
  · intro h d hd
    obtain ⟨j, hj, rfl⟩ := List.getElem_of_mem hd
    exact h ⟨j, by simpa using hj⟩

theorem abs_diagonal_le (j : Fin f.order) : |f.diagonal[j]| ≤ f.largestPivot :=
  (largestPivot_le_iff.mp le_rfl).2 j

theorem kept?_eq_some_iff {j : Fin f.order} {x : Vector ℝ n} :
    f.kept? j = some x ↔
      dependenceTolerance * f.largestPivot < |f.diagonal[j]| ∧ f.oriented j = x := by
  unfold kept?
  rw [Scalar.abs_real]
  split
  · next hsmall =>
    constructor
    · intro h
      cases h
    · rintro ⟨hlarge, -⟩
      exact absurd hsmall (not_le.mpr hlarge)
  · next hlarge =>
    rw [Option.some_inj]
    exact (and_iff_right (not_le.mp hlarge)).symm

namespace Factors

variable {v a b : Columns ℝ n}

theorem largestPivot_le_one (h : f.Factors v) (hunit : ∀ x ∈ v, ‖point x‖ ≤ 1) :
    f.largestPivot ≤ 1 := by
  refine largestPivot_le_iff.mpr ⟨zero_le_one, fun j => ?_⟩
  have hj : j.val < v.size := lt_of_lt_of_le j.isLt h.order_le
  calc
    |f.diagonal[j]| = |⟪point f.q[j], point v[j.val]⟫| := by rw [h.diagonal_eq_inner j hj]
    _ ≤ ‖point f.q[j]‖ * ‖point v[j.val]‖ := abs_real_inner_le_norm _ _
    _ ≤ 1 := by
      have hq : ‖point f.q[j]‖ = 1 := h.orthonormal.1 j
      rw [hq, one_mul]
      exact hunit _ (Array.getElem_mem hj)

/-- An orthonormal beginning of the columns is reproduced up to signs, and the diagonal has these
signs. -/
theorem leading_eq_or_neg (h : f.Factors (a ++ b)) (ha : a.IsOrthonormal) (j : Fin f.order)
    (hja : j.val < a.size) :
    getElem f.diagonal j j.isLt = 1 ∧ point (getElem f.q j j.isLt) = point a[j.val] ∨
      getElem f.diagonal j j.isLt = -1 ∧ point (getElem f.q j j.isLt) = -point a[j.val] := by
  induction j using WellFoundedLT.induction with
  | ind j ih =>
    have hv : j.val < (a ++ b).size := by
      rw [Array.size_append]
      omega
    have hcolumn : (a ++ b)[j.val] = a[j.val] := Array.getElem_append_left hja
    have hbefore : ∀ i < j, ⟪point f.q[i], point (a ++ b)[j.val]⟫ = 0 := by
      intro i hij
      have hia : i.val < a.size := lt_trans hij hja
      have horth := ha.inner_eq_zero hia hja (Fin.val_ne_of_ne hij.ne)
      rcases ih i hij hia with ⟨-, hq⟩ | ⟨-, hq⟩
      · rw [hcolumn, hq, horth]
      · rw [hcolumn, hq, inner_neg_left, horth, neg_zero]
    have hsum : point a[j.val] = f.diagonal[j] • point f.q[j] := by
      rw [← hcolumn]
      exact h.eq_diagonal_smul j hv hbefore
    have habs : |f.diagonal[j]| = 1 := by
      have hq : ‖point f.q[j]‖ = 1 := h.orthonormal.1 j
      have hnorm := ha.norm_eq_one (Array.getElem_mem hja)
      rwa [hsum, norm_smul, hq, mul_one, Real.norm_eq_abs] at hnorm
    rcases eq_or_eq_neg_of_abs_eq habs with hone | hone
    · refine .inl ⟨hone, ?_⟩
      rw [hsum, hone, one_smul]
    · refine .inr ⟨hone, ?_⟩
      rw [hsum, hone, neg_one_smul, neg_neg]

theorem abs_diagonal_leading (h : f.Factors (a ++ b)) (ha : a.IsOrthonormal) (j : Fin f.order)
    (hja : j.val < a.size) : |getElem f.diagonal j j.isLt| = 1 := by
  rcases h.leading_eq_or_neg ha j hja with ⟨hd, -⟩ | ⟨hd, -⟩
  · rw [hd, abs_one]
  · rw [hd, abs_neg, abs_one]

theorem oriented_leading (h : f.Factors (a ++ b)) (ha : a.IsOrthonormal) (j : Fin f.order)
    (hja : j.val < a.size) : f.oriented j = a[j.val] := by
  apply point_injective
  rw [oriented_eq]
  rcases h.leading_eq_or_neg ha j hja with ⟨hd, hq⟩ | ⟨hd, hq⟩
  · rw [hd, if_neg (by norm_num), hq]
  · rw [hd, if_pos (by norm_num), point_negate, hq, neg_neg]

theorem size_leading_le (h : f.Factors (a ++ b)) (ha : a.IsOrthonormal) : a.size ≤ f.order := by
  have hn := ha.size_le
  rw [h.order_eq, Array.size_append]
  omega

/-- The first column after the beginning, when it is orthogonal to all of that, has its norm on the
diagonal. -/
theorem abs_diagonal_of_orthogonal (h : f.Factors (a ++ b)) (ha : a.IsOrthonormal)
    (hb : 0 < b.size) (horth : ∀ p ∈ a.points, ⟪p, point b[0]⟫ = 0) (j : Fin f.order)
    (hj : j.val = a.size) : |f.diagonal[j]| = ‖point b[0]‖ := by
  have hv : j.val < (a ++ b).size := by
    rw [Array.size_append]
    omega
  have hcolumn : (a ++ b)[j.val] = b[0] := by
    rw [Array.getElem_append_right hj.ge]
    simp [hj]
  have hbefore : ∀ i < j, ⟪point f.q[i], point (a ++ b)[j.val]⟫ = 0 := by
    intro i hij
    have hia : i.val < a.size := hj ▸ hij
    have hzero := horth _ (Columns.mem_points.mpr ⟨_, Array.getElem_mem hia, rfl⟩)
    rcases h.leading_eq_or_neg ha i hia with ⟨-, hq⟩ | ⟨-, hq⟩
    · rw [hcolumn, hq, hzero]
    · rw [hcolumn, hq, inner_neg_left, hzero, neg_zero]
  have hsum : point b[0] = f.diagonal[j] • point f.q[j] := by
    rw [← hcolumn]
    exact h.eq_diagonal_smul j hv hbefore
  have hq : ‖point f.q[j]‖ = 1 := h.orthonormal.1 j
  rw [hsum, norm_smul, hq, mul_one, Real.norm_eq_abs]

end Factors

end TriangularFactors

section Order

variable {α : Type} [Scalar α] (dense : Factorizations α) (v : Columns α n)

theorem toList_qrOrthonormalize :
    (qrOrthonormalize dense v).toList =
      (List.finRange (dense.triangular v).order).filterMap (dense.triangular v).kept? := by
  simp [qrOrthonormalize]

/-- In any arithmetic no column is made up. -/
theorem size_qrOrthonormalize_le_order :
    (qrOrthonormalize dense v).size ≤ (dense.triangular v).order := by
  have hlength := List.length_filterMap_le (dense.triangular v).kept?
    (List.finRange (dense.triangular v).order)
  rwa [← toList_qrOrthonormalize, Array.length_toList, List.length_finRange] at hlength

end Order

section Qr

variable {dense : Factorizations ℝ} {v a b : Columns ℝ n}

theorem qrOrthonormalize_isOrthonormal (hd : dense.TriangularExact) (v : Columns ℝ n) :
    (qrOrthonormalize dense v).IsOrthonormal := by
  have hq := (hd v).orthonormal
  have hinner : ∀ {i j : Fin (dense.triangular v).order}, i ≠ j →
      ⟪point ((dense.triangular v).oriented i), point ((dense.triangular v).oriented j)⟫ = 0 := by
    intro i j hij
    have hzero : ⟪point (dense.triangular v).q[i], point (dense.triangular v).q[j]⟫ = 0 :=
      hq.inner_eq_zero hij
    rcases (dense.triangular v).point_oriented i with hi | hi <;>
      rcases (dense.triangular v).point_oriented j with hj | hj <;>
        simp only [hi, hj, inner_neg_left, inner_neg_right, hzero, neg_zero]
  rw [Columns.isOrthonormal_iff, Columns.points, toList_qrOrthonormalize]
  constructor
  · intro p hp
    obtain ⟨x, hx, rfl⟩ := List.mem_map.mp hp
    obtain ⟨j, -, hj⟩ := List.mem_filterMap.mp hx
    obtain ⟨-, rfl⟩ := TriangularFactors.kept?_eq_some_iff.mp hj
    have hunit : ‖point (dense.triangular v).q[j]‖ = 1 := hq.1 j
    rcases (dense.triangular v).point_oriented j with h | h
    · rw [h, hunit]
    · rw [h, norm_neg, hunit]
  · rw [List.pairwise_map, List.pairwise_filterMap]
    refine (List.nodup_finRange _).imp ?_
    intro i j hij x hx y hy
    obtain ⟨-, rfl⟩ := TriangularFactors.kept?_eq_some_iff.mp hx
    obtain ⟨-, rfl⟩ := TriangularFactors.kept?_eq_some_iff.mp hy
    exact hinner hij

/-- Where unit columns count, the orthonormal beginning stays in place. -/
theorem qrOrthonormalize_append (hd : dense.TriangularExact) (ha : a.IsOrthonormal)
    (hpivot : dependenceTolerance * (dense.triangular (a ++ b)).largestPivot < 1) :
    ∃ added, qrOrthonormalize dense (a ++ b) = a ++ added := by
  have hf := hd (a ++ b)
  set f := dense.triangular (a ++ b) with hfdef
  have hle := hf.size_leading_le ha
  have hleading : ((List.finRange f.order).take a.size).filterMap f.kept? = a.toList := by
    have hkept : ∀ j ∈ (List.finRange f.order).take a.size,
        f.kept? j = some (f.oriented j) := by
      intro j hj
      obtain ⟨i, hi, rfl⟩ := List.getElem_of_mem hj
      refine TriangularFactors.kept?_eq_some_iff.mpr ⟨?_, rfl⟩
      rw [hf.abs_diagonal_leading ha]
      · exact hpivot
      · simp at hi ⊢
        omega
    rw [List.filterMap_congr hkept, ← Function.comp_def, List.filterMap_eq_map]
    apply List.ext_getElem
    · simpa using hle
    · intro i hi hi'
      have hia : i < a.size := by simpa using hi'
      rw [List.getElem_map, hf.oriented_leading ha _ (by simpa using hia)]
      simp
  refine ⟨(((List.finRange f.order).drop a.size).filterMap f.kept?).toArray, ?_⟩
  apply Array.toList_inj.mp
  rw [toList_qrOrthonormalize, ← hfdef, Array.toList_append, ← hleading, ← List.filterMap_append,
    List.take_append_drop]

/-- Where unit columns are negligible, no column along the orthonormal beginning is left. -/
theorem inner_qrOrthonormalize_eq_zero (hd : dense.TriangularExact) (ha : a.IsOrthonormal)
    (hpivot : 1 ≤ dependenceTolerance * (dense.triangular (a ++ b)).largestPivot)
    {x y : Vector ℝ n} (hx : x ∈ qrOrthonormalize dense (a ++ b)) (hy : y ∈ a) :
    ⟪point x, point y⟫ = 0 := by
  have hf := hd (a ++ b)
  rw [← Array.mem_toList_iff, toList_qrOrthonormalize] at hx
  obtain ⟨j, -, hj⟩ := List.mem_filterMap.mp hx
  obtain ⟨hlarge, rfl⟩ := TriangularFactors.kept?_eq_some_iff.mp hj
  obtain ⟨i, hi, rfl⟩ := Array.getElem_of_mem hy
  have hij : i < j.val := by
    by_contra hji
    rw [hf.abs_diagonal_leading ha j (by omega)] at hlarge
    exact absurd hpivot (not_le.mpr hlarge)
  have hzero : ⟪point (dense.triangular (a ++ b)).q[j], point a[i]⟫ = 0 := by
    have hv : i < (a ++ b).size := by
      rw [Array.size_append]
      omega
    have hcolumn : (a ++ b)[i] = a[i] := Array.getElem_append_left hi
    rw [← hcolumn]
    exact hf.inner_eq_zero hv hij
  rcases (dense.triangular (a ++ b)).point_oriented j with h | h
  · rw [h, hzero]
  · rw [h, inner_neg_left, hzero, neg_zero]

theorem size_qrOrthonormalize_le (hd : dense.TriangularExact) (v : Columns ℝ n) :
    (qrOrthonormalize dense v).size ≤ v.size :=
  (size_qrOrthonormalize_le_order dense v).trans (hd v).order_le

theorem qrOrthonormalize_eq_self (hd : dense.TriangularExact) (hv : v.IsOrthonormal) :
    qrOrthonormalize dense v = v := by
  have hpivot : dependenceTolerance * (dense.triangular (v ++ #[])).largestPivot < 1 := by
    have hone := (hd (v ++ #[])).largestPivot_le_one (by
      intro x hx
      rw [hv.norm_eq_one (by simpa using hx)])
    nlinarith [dependenceTolerance_pos, dependenceTolerance_lt_one]
  obtain ⟨added, hadded⟩ := qrOrthonormalize_append hd hv hpivot
  rw [Array.append_empty] at hadded
  have hsize := size_qrOrthonormalize_le hd v
  rw [hadded, Array.size_append] at hsize
  have hnone : added = #[] := Array.eq_empty_of_size_eq_zero (by omega)
  rw [hadded, hnone, Array.append_empty]

/-- Where the diagonal does not vanish, some column is left: one with the largest entry. -/
theorem size_qrOrthonormalize_pos_of_largestPivot
    (htop : 0 < (dense.triangular v).largestPivot) : 0 < (qrOrthonormalize dense v).size := by
  set f := dense.triangular v with hfdef
  obtain ⟨j, hj⟩ : ∃ j : Fin f.order, dependenceTolerance * f.largestPivot < |f.diagonal[j]| := by
    by_contra hnone
    push Not at hnone
    have hsmall : f.largestPivot ≤ dependenceTolerance * f.largestPivot :=
      TriangularFactors.largestPivot_le_iff.mpr
        ⟨(mul_pos dependenceTolerance_pos htop).le, hnone⟩
    nlinarith [dependenceTolerance_lt_one]
  have hmem : f.oriented j ∈ qrOrthonormalize dense v := by
    rw [← Array.mem_toList_iff, toList_qrOrthonormalize]
    exact List.mem_filterMap.mpr
      ⟨j, List.mem_finRange j, TriangularFactors.kept?_eq_some_iff.mpr ⟨hj, rfl⟩⟩
  exact Array.size_pos_of_mem hmem

/-- Some column is left of an orthonormal beginning and whatever follows it. -/
theorem size_qrOrthonormalize_pos (hd : dense.TriangularExact) (ha : a.IsOrthonormal)
    (hpos : 0 < a.size) : 0 < (qrOrthonormalize dense (a ++ b)).size := by
  have hf := hd (a ++ b)
  have hle := hf.size_leading_le ha
  have hfirst := hf.abs_diagonal_leading ha ⟨0, by omega⟩ hpos
  have hpivot := (dense.triangular (a ++ b)).abs_diagonal_le ⟨0, by omega⟩
  exact size_qrOrthonormalize_pos_of_largestPivot (by linarith)

end Qr

end SubspaceEigen
