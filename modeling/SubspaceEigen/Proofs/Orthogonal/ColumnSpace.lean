import SubspaceEigen.Proofs.Dense.Supply
import SubspaceEigen.Proofs.Orthogonal.Pivots

/-!
# Column spaces under the triangular factorization

The triangular factorization does not move columns.  At a dependent column the orthonormal column is
arbitrary and is dropped for its zero on the diagonal; a later column may have its only new
component along just that one, and then this component is lost.  So the columns kept span the same
space, whatever the factorization chooses, exactly when no independent column follows a dependent
one.
-/

namespace SubspaceEigen

open scoped RealInnerProductSpace
open Column Columns

variable {n : ℕ} {dense : Factorizations ℝ} {v : Columns ℝ n}

namespace Columns

/-- Every column lies in the span of those before it, or its height is not negligible beside the
largest height. -/
def Separated (v : Columns ℝ n) : Prop :=
  ∀ j : Fin v.size, v.height j = 0 ∨ ∀ k, dependenceTolerance * v.height k < v.height j

/-- No independent column follows a dependent one. -/
def DependentLast (v : Columns ℝ n) : Prop :=
  ∀ i j : Fin v.size, i < j → v.height i = 0 → v.height j = 0

/-- The columns up to the first dependent one are independent. -/
theorem exists_first_dependent {i : Fin v.size} (hi : v.height i = 0) :
    ∃ p ≤ i, v.height p = 0 ∧ ∀ k < p, v.height k ≠ 0 := by
  obtain ⟨p, hp, hmin⟩ := WellFounded.has_min wellFounded_lt {k | v.height k = 0} ⟨i, hi⟩
  exact ⟨p, not_lt.mp (hmin i hi), hp, fun k hk hzero => hmin k hzero hk⟩

theorem DependentLast.exists_split (h : v.DependentLast) :
    ∃ m ≤ v.size, (∀ j : Fin v.size, j.val < m → v.height j ≠ 0) ∧
      ∀ j : Fin v.size, m ≤ j.val → v.height j = 0 := by
  by_cases hdep : ∃ i, v.height i = 0
  · obtain ⟨i, hi⟩ := hdep
    obtain ⟨p, -, hp, hbefore⟩ := exists_first_dependent hi
    refine ⟨p, p.isLt.le, fun j hj => hbefore j hj, fun j hj => ?_⟩
    rcases eq_or_lt_of_le (show p ≤ j from hj) with rfl | hlt
    · exact hp
    · exact h p j hlt hp
  · exact ⟨v.size, le_rfl, fun j _ hj => hdep ⟨j, hj⟩, fun j hj => absurd j.isLt (not_lt.mpr hj)⟩

theorem separated_of_height (h : ∀ j, v.height j = 0 ∨ v.height j = 1) : v.Separated := by
  intro j
  refine (h j).imp_right fun hj k => ?_
  rw [hj]
  rcases h k with hk | hk
  · rw [hk, mul_zero]
    exact one_pos
  · rw [hk, mul_one]
    exact dependenceTolerance_lt_one

section Set

variable {p : ℕ} {x : Vector ℝ n}

theorem extract_set_le (hp : p < v.size) {m : ℕ} (hm : m ≤ p) :
    (v.set p x).extract 0 m = v.extract 0 m := by
  rw [Array.extract_set, dif_neg (Nat.not_lt_zero p), dif_neg (by omega)]

/-- A column in place of the first dependent one is independent if it was not in the span there. -/
theorem height_set_ne_zero (hp : p < v.size)
    (hbefore : ∀ k : Fin v.size, k.val < p → v.height k ≠ 0)
    (hx : point x ∉ span (v.extract 0 p)) (k : Fin (v.set p x).size) (hk : k.val ≤ p) :
    height (v.set p x) k ≠ 0 := by
  rw [ne_eq, height_eq_zero_iff, extract_set_le hp hk]
  rcases eq_or_lt_of_le hk with heq | hlt
  · simpa [family, heq] using hx
  · have hv : k.val < v.size := hlt.trans hp
    have hother := mt height_eq_zero_iff.mpr (hbefore ⟨k, hv⟩ hlt)
    simpa [family, Array.getElem_set_ne hp hv hlt.ne'] using hother

end Set

end Columns

theorem mem_qrOrthonormalize_iff {x : Vector ℝ n} :
    x ∈ qrOrthonormalize dense v ↔ ∃ j : Fin (dense.triangular v).order,
      dependenceTolerance * (dense.triangular v).largestPivot < |(dense.triangular v).diagonal[j]| ∧
        (dense.triangular v).oriented j = x := by
  rw [← Array.mem_toList_iff, toList_qrOrthonormalize, List.mem_filterMap]
  simp only [List.mem_finRange, true_and, TriangularFactors.kept?_eq_some_iff]

namespace TriangularFactors

variable {f : TriangularFactors ℝ n}

theorem span_leading_le {m : ℕ} : span (f.q.toArray.extract 0 m) ≤
    Submodule.span ℝ (Set.range fun i : Fin f.order => point (getElem f.q i i.isLt)) := by
  rw [span, Submodule.span_le, range_family]
  intro p hp
  obtain ⟨x, hx, rfl⟩ := mem_points.mp hp
  obtain ⟨i, -, rfl⟩ := mem_leading_iff.mp hx
  exact Submodule.subset_span ⟨i, rfl⟩

theorem oriented_mem_iff {W : Submodule ℝ (Euclid n)} (j : Fin f.order) :
    point (f.oriented j) ∈ W ↔ point (getElem f.q j j.isLt) ∈ W := by
  rcases f.point_oriented j with h | h
  · rw [h]
  · rw [h, neg_mem_iff]

/-- Where exactly the first columns of the factorization are kept, they span the result. -/
theorem span_qrOrthonormalize {m : ℕ}
    (hkept : ∀ j : Fin (dense.triangular v).order,
      dependenceTolerance * (dense.triangular v).largestPivot <
        |(dense.triangular v).diagonal[j]| ↔ j.val < m) :
    (qrOrthonormalize dense v).span = span ((dense.triangular v).q.toArray.extract 0 m) := by
  apply le_antisymm
  · rw [span, Submodule.span_le, range_family]
    intro p hp
    obtain ⟨x, hx, rfl⟩ := mem_points.mp hp
    obtain ⟨j, hj, rfl⟩ := mem_qrOrthonormalize_iff.mp hx
    exact (oriented_mem_iff j).mpr (point_mem_leading ((hkept j).mp hj))
  · rw [span, Submodule.span_le, range_family]
    intro p hp
    obtain ⟨x, hx, rfl⟩ := mem_points.mp hp
    obtain ⟨j, hj, rfl⟩ := mem_leading_iff.mp hx
    exact (oriented_mem_iff j).mp
      (mem_span_of_mem (mem_qrOrthonormalize_iff.mpr ⟨j, (hkept j).mpr hj, rfl⟩))

/-- With the dependent columns last, the diagonal is zero from the first of them on. -/
theorem Factors.diagonal_eq_zero_of_le (h : f.Factors v) {m : ℕ} (hm : m ≤ v.size)
    (hrise : ∀ j : Fin v.size, j.val < m → v.height j ≠ 0)
    (hdep : ∀ j : Fin v.size, m ≤ j.val → v.height j = 0) (j : Fin f.order) (hj : m ≤ j.val) :
    f.diagonal[j] = 0 := by
  have hv : j.val < v.size := lt_of_lt_of_le j.isLt h.order_le
  apply h.diagonal_eq_zero j hv
  apply span_extract_mono hj
  rw [h.span_leading (h.le_order hm hrise) hrise, span_extract_of_height_eq_zero hm hdep]
  exact mem_span_of_mem (Array.getElem_mem hv)

end TriangularFactors

/-- With the dependent columns last, the column space is kept. -/
theorem span_qrOrthonormalize_of_dependentLast (hd : dense.TriangularExact) (hv : v.Separated)
    (hlast : v.DependentLast) : (qrOrthonormalize dense v).span = v.span := by
  have hf := hd v
  set f := dense.triangular v with hfdef
  obtain ⟨m, hm, hrise, hdep⟩ := hlast.exists_split
  have horder := hf.le_order hm hrise
  have hzero := hf.diagonal_eq_zero_of_le hm hrise hdep
  have hheight : ∀ j : Fin f.order, (hjm : j.val < m) →
      |f.diagonal[j]| = v.height ⟨j, hjm.trans_le hm⟩ := fun j hjm =>
    hf.abs_diagonal_eq_height j (hjm.trans_le hm) fun i hi => hrise i (hi.trans hjm)
  have hkept : ∀ j : Fin f.order,
      dependenceTolerance * f.largestPivot < |f.diagonal[j]| ↔ j.val < m := by
    intro j
    constructor
    · intro hlarge
      by_contra hj
      exact TriangularFactors.not_lt_abs_diagonal (hzero j (not_lt.mp hj)) hlarge
    · intro hjm
      have hpos := hrise ⟨j, hjm.trans_le hm⟩ hjm
      apply TriangularFactors.tolerance_mul_largestPivot_lt j
      intro k
      rw [hheight j hjm]
      by_cases hkm : k.val < m
      · rw [hheight k hkm]
        exact (hv ⟨j, hjm.trans_le hm⟩).resolve_left hpos _
      · rw [hzero k (not_lt.mp hkm), abs_zero, mul_zero]
        exact lt_of_le_of_ne (height_nonneg _ _) hpos.symm
  rw [TriangularFactors.span_qrOrthonormalize hkept, ← hfdef, hf.span_leading horder hrise,
    span_extract_of_height_eq_zero hm hdep]

namespace TriangularFactors

/-- Some column has a component along an orthonormal column whose diagonal entry is zero. -/
def Loses (f : TriangularFactors ℝ n) (v : Columns ℝ n) : Prop :=
  ∃ i : Fin f.order, getElem f.diagonal i i.isLt = 0 ∧
    ∃ x ∈ v, ⟪point (getElem f.q i i.isLt), point x⟫ ≠ 0

theorem span_qrOrthonormalize_ne (hd : dense.TriangularExact)
    (hloses : (dense.triangular v).Loses v) : (qrOrthonormalize dense v).span ≠ v.span := by
  obtain ⟨i, hzero, x, hx, hcomponent⟩ := hloses
  intro heq
  have hmem : point x ∈ (qrOrthonormalize dense v).span := heq ▸ mem_span_of_mem hx
  apply hcomponent
  rw [real_inner_comm]
  apply inner_eq_zero_of_mem_span hmem
  intro p hp
  obtain ⟨y, hy, rfl⟩ := mem_points.mp hp
  obtain ⟨j, hlarge, rfl⟩ := mem_qrOrthonormalize_iff.mp hy
  have hij : j ≠ i := by
    rintro rfl
    exact not_lt_abs_diagonal hzero hlarge
  have horth := (hd v).orthonormal.inner_eq_zero hij
  rcases (dense.triangular v).point_oriented j with h | h
  · rw [h, horth]
  · rw [h, inner_neg_left, horth, neg_zero]

/-- The orthonormal columns of one factorization with the components of other columns. -/
noncomputable def reused (f : TriangularFactors ℝ n) (v : Columns ℝ n) : TriangularFactors ℝ n where
  order := f.order
  q := f.q
  r := v.map fun x => Vector.ofFn fun i => ⟪point (getElem f.q i i.isLt), point x⟫

theorem reused_r (f : TriangularFactors ℝ n) (i : Fin (f.reused v).order) (j : ℕ) (hv : j < v.size)
    (hr : j < (f.reused v).r.size) :
    (f.reused v).r[j][i] = ⟪point (f.reused v).q[i], point v[j]⟫ := by
  have hcolumn : (f.reused v).r[j] = Vector.ofFn fun i : Fin f.order =>
      ⟪point f.q[i], point v[j]⟫ := Array.getElem_map ..
  rw [hcolumn]
  exact Vector.getElem_ofFn i.isLt

variable {f : TriangularFactors ℝ n} {w : Columns ℝ n}

theorem Factors.reused (h : f.Factors w) (hsize : w.size = v.size)
    (hspan : ∀ x ∈ v, point x ∈ Submodule.span ℝ (Set.range fun i : Fin f.order => point f.q[i]))
    (hupper : ∀ (j : ℕ) (_ : j < v.size) (i : Fin f.order), j < i →
      ⟪point f.q[i], point v[j]⟫ = 0) : (f.reused v).Factors v where
  order_eq := hsize ▸ h.order_eq
  orthonormal := h.orthonormal
  width := by simp [TriangularFactors.reused]
  product j hv hr := by
    obtain ⟨c, hc⟩ := (Submodule.mem_span_range_iff_exists_fun ℝ).mp
      (hspan v[j] (Array.getElem_mem hv))
    simp only [reused_r f _ j hv hr]
    calc
      point v[j] = ∑ i, c i • point f.q[i] := hc.symm
      _ = ∑ i : Fin f.order, ⟪point f.q[i], point v[j]⟫ • point f.q[i] := by
        refine Finset.sum_congr rfl fun i _ => ?_
        rw [← hc, Orthonormal.inner_right_fintype h.orthonormal]
  upper j hr i hij := by
    have hv : j < v.size := by simpa [TriangularFactors.reused] using hr
    rw [reused_r f i j hv hr]
    exact hupper j hv i hij

/-- The orthonormal columns found with another column in one place serve the columns themselves, if
the one in that place depends on the orthonormal columns before it. -/
theorem Factors.reused_of_set {p : ℕ} {x : Vector ℝ n} (hp : p < v.size)
    (h : f.Factors (v.set p x)) (hdependent : point v[p] ∈ span (f.q.toArray.extract 0 p)) :
    (f.reused v).Factors v := by
  have hsize : (v.set p x).size = v.size := Array.size_set hp
  apply h.reused hsize
  · intro y hy
    obtain ⟨k, hk, rfl⟩ := Array.getElem_of_mem hy
    by_cases hkp : k = p
    · subst hkp
      exact span_leading_le hdependent
    · rw [← Array.getElem_set_ne hp hk (Ne.symm hkp), h.eq_sum_inner k (hsize ▸ hk)]
      exact Submodule.sum_mem _ fun i _ =>
        Submodule.smul_mem _ _ (Submodule.subset_span ⟨i, rfl⟩)
  · intro k hk i hki
    by_cases hkp : k = p
    · subst hkp
      rw [real_inner_comm]
      exact h.inner_leading (span_extract_mono hki.le hdependent)
    · rw [← Array.getElem_set_ne hp hk (Ne.symm hkp)]
      exact h.inner_eq_zero (hsize ▸ hk) hki

/-- An independent column after a dependent one can be lost: the factorization may put the
orthonormal column of the dependent one along it. -/
theorem exists_loses {i j : Fin v.size} (hij : i < j) (hi : v.height i = 0) (hj : v.height j ≠ 0) :
    ∃ f : TriangularFactors ℝ n, f.Factors v ∧ f.Loses v := by
  obtain ⟨p, hpi, hp, hbefore⟩ := exists_first_dependent hi
  have hpj : p.val < j := lt_of_le_of_lt (show p.val ≤ i from hpi) hij
  have hfar : point v[j] ∉ span (v.extract 0 p) := by
    intro hmem
    exact hj (height_eq_zero_iff.mpr (span_extract_mono hpj.le hmem))
  set w : Columns ℝ n := v.set p v[j] with hw
  have hpw : p.val < w.size := by simp [hw]
  have hrise : ∀ k : Fin w.size, k.val ≤ p → w.height k ≠ 0 :=
    fun k hk => height_set_ne_zero p.isLt (fun k hk => hbefore k hk) hfar k hk
  have hf := along_factors w
  set f := along w with hfdef
  have horder : p.val + 1 ≤ f.order := hf.le_order hpw fun k hk => hrise k (Nat.le_of_lt_succ hk)
  have hdependent : point v[p] ∈ span (f.q.toArray.extract 0 p) := by
    rw [hf.span_leading (Nat.le_of_succ_le horder) fun k hk => hrise k hk.le, hw,
      extract_set_le p.isLt le_rfl]
    exact height_eq_zero_iff.mp hp
  have hreused : (f.reused v).Factors v := hf.reused_of_set p.isLt hdependent
  refine ⟨f.reused v, hreused, ⟨p, horder⟩, ?_, v[j], Array.getElem_mem j.isLt, ?_⟩
  · exact hreused.diagonal_eq_zero ⟨p, horder⟩ p.isLt hdependent
  · have hdiagonal := hf.diagonal_eq_inner ⟨p, horder⟩ hpw
    have habs := hf.abs_diagonal_eq_height ⟨p, horder⟩ hpw fun k hk => hrise k (le_of_lt hk)
    have hplaced : w[p.val] = v[j] := Array.getElem_set_self p.isLt
    have hcomponent : ⟪point f.q[p], point v[j]⟫ = f.diagonal[p] := by
      rw [hplaced] at hdiagonal
      exact hdiagonal.symm
    exact hcomponent.trans_ne (abs_ne_zero.mp (habs.trans_ne (hrise ⟨p, hpw⟩ le_rfl)))

end TriangularFactors

open Classical in
/-- An exact supply that loses what it can. -/
noncomputable def Factorizations.adverse : Factorizations ℝ :=
  { Factorizations.exact with
    triangular := fun v =>
      if h : ∃ f : TriangularFactors ℝ _, f.Factors v ∧ f.Loses v then h.choose else .along v }

theorem Factorizations.adverse_triangularExact : Factorizations.adverse.TriangularExact := by
  intro n v
  by_cases h : ∃ f : TriangularFactors ℝ n, f.Factors v ∧ f.Loses v
  · have hchoose : Factorizations.adverse.triangular v = h.choose := dif_pos h
    rw [hchoose]
    exact h.choose_spec.1
  · have halong : Factorizations.adverse.triangular v = .along v := dif_neg h
    rw [halong]
    exact TriangularFactors.along_factors v

theorem Factorizations.adverse_loses (h : ∃ f : TriangularFactors ℝ n, f.Factors v ∧ f.Loses v) :
    (Factorizations.adverse.triangular v).Loses v := by
  have hchoose : Factorizations.adverse.triangular v = h.choose := dif_pos h
  rw [hchoose]
  exact h.choose_spec.2

/-- Among columns that depend on those before them or rise well above their span, the columns kept
are orthonormal and span the same for every exact factorization if and only if no independent column
follows a dependent one. -/
theorem spans_iff_dependentLast (hv : v.Separated) :
    (∀ dense : Factorizations ℝ, dense.TriangularExact →
        (qrOrthonormalize dense v).IsOrthonormal ∧ (qrOrthonormalize dense v).span = v.span) ↔
      v.DependentLast := by
  constructor
  · intro hspans i j hij hi
    by_contra hj
    have hloses := Factorizations.adverse_loses (TriangularFactors.exists_loses hij hi hj)
    have hd : Factorizations.adverse.TriangularExact := Factorizations.adverse_triangularExact
    exact TriangularFactors.span_qrOrthonormalize_ne hd hloses (hspans _ hd).2
  · intro hlast dense hd
    exact ⟨qrOrthonormalize_isOrthonormal hd v, span_qrOrthonormalize_of_dependentLast hd hv hlast⟩

/-- In the plane nothing is lost with a third column when the first two are the axes. -/
theorem spans_of_axes_first :
    let v : Columns ℝ 2 := #[Column.unit 2 0, Column.unit 2 1, Column.unit 2 0]
    v.Separated ∧ ∀ dense : Factorizations ℝ, dense.TriangularExact →
      (qrOrthonormalize dense v).IsOrthonormal ∧ (qrOrthonormalize dense v).span = v.span := by
  intro v
  have hfirst : v.height ⟨0, by simp [v]⟩ = 1 :=
    height_eq_one_of_axis (0 : Fin 2) rfl (by simp)
  have hsecond : v.height ⟨1, by simp [v]⟩ = 1 :=
    height_eq_one_of_axis (1 : Fin 2) rfl (by simp [v])
  have hthird : v.height ⟨2, by simp [v]⟩ = 0 := height_eq_zero_of_mem (by simp [v])
  have hsep : v.Separated := by
    apply separated_of_height
    rintro ⟨_ | _ | _ | j, hj⟩
    · exact .inr hfirst
    · exact .inr hsecond
    · exact .inl hthird
    · exact absurd hj (Nat.not_lt.mpr (Nat.le_add_left 3 j))
  have hlast : v.DependentLast := by
    rintro ⟨_ | _ | i, hi⟩ j hij hzero
    · exact absurd (hfirst.symm.trans hzero) one_ne_zero
    · exact absurd (hsecond.symm.trans hzero) one_ne_zero
    · have hj : j.val < 3 := j.isLt
      have hlt : i + 2 < j.val := hij
      omega
  exact ⟨hsep, (spans_iff_dependentLast hsep).mpr hlast⟩

/-- When the first axis comes twice before the second one, the second axis is lost. -/
theorem span_ne_of_axis_twice :
    let v : Columns ℝ 2 := #[Column.unit 2 0, Column.unit 2 0, Column.unit 2 1]
    v.Separated ∧ ∀ dense : Factorizations ℝ, dense.TriangularExact →
      (qrOrthonormalize dense v).span ≠ v.span := by
  intro v
  have hfirst : v.height ⟨0, by simp [v]⟩ = 1 :=
    height_eq_one_of_axis (0 : Fin 2) rfl (by simp)
  have hsecond : v.height ⟨1, by simp [v]⟩ = 0 := height_eq_zero_of_mem (by simp [v])
  have hthird : v.height ⟨2, by simp [v]⟩ = 1 :=
    height_eq_one_of_axis (1 : Fin 2) rfl (by simp [v])
  constructor
  · apply separated_of_height
    rintro ⟨_ | _ | _ | j, hj⟩
    · exact .inr hfirst
    · exact .inl hsecond
    · exact .inr hthird
    · exact absurd hj (Nat.not_lt.mpr (Nat.le_add_left 3 j))
  intro dense hd
  have hf := hd v
  set f := dense.triangular v with hfdef
  have horder : f.order = 2 := by simpa [v] using hf.order_eq
  refine TriangularFactors.span_qrOrthonormalize_ne hd (?_ : f.Loses v)
  have hmeets : ⟪point f.q[1], point (Column.unit 2 0 : Vector ℝ 2)⟫ = 0 :=
    hf.inner_eq_zero (i := ⟨1, by omega⟩) (j := 0) (by simp [v]) one_pos
  have hdiagonal : f.diagonal[1] = 0 :=
    (hf.diagonal_eq_inner ⟨1, by omega⟩ (by simp [v])).trans hmeets
  refine ⟨⟨1, by omega⟩, hdiagonal, Column.unit 2 1, by simp [v], ?_⟩
  intro hlost
  have hunit : ∀ k : Fin 2, ‖point (Column.unit 2 k : Vector ℝ 2)‖ = 1 :=
    fun k => (isOrthonormal_unit k).norm_eq_one (by simp)
  have haxis : point (Column.unit 2 0 : Vector ℝ 2) = f.diagonal[0] • point f.q[0] :=
    hf.eq_diagonal_smul ⟨0, by omega⟩ (by simp [v]) fun i hi => absurd hi (Nat.not_lt_zero _)
  have hcross : ⟪point f.q[0], point (Column.unit 2 1 : Vector ℝ 2)⟫ = 0 := by
    have horth : ⟪point (Column.unit 2 0 : Vector ℝ 2), point (Column.unit 2 1)⟫ = 0 := by
      rw [← dot_eq_inner]
      simp [dot, sum_eq_sum, Column.unit]
    rw [haxis, real_inner_smul_left, mul_eq_zero] at horth
    refine horth.resolve_left fun hzero => ?_
    rw [hzero, zero_smul] at haxis
    exact zero_ne_one (norm_zero.symm.trans (haxis ▸ hunit 0))
  have hnothing : point (Column.unit 2 1 : Vector ℝ 2) = 0 := by
    refine (hf.eq_sum_inner 2 (by simp [v])).trans (Finset.sum_eq_zero fun i _ => ?_)
    obtain ⟨i, hi⟩ := i
    obtain rfl | rfl : i = 0 ∨ i = 1 := by omega
    · exact smul_eq_zero_of_left hcross _
    · exact smul_eq_zero_of_left hlost _
  exact zero_ne_one (norm_zero.symm.trans (hnothing ▸ hunit 1))

end SubspaceEigen
