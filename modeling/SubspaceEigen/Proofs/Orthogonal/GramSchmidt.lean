import SubspaceEigen.Proofs.Orthonormal

/-!
# Gram–Schmidt in exact arithmetic

One pass takes a column off the span of an orthonormal basis, and a second pass finds nothing left
to take away.  So a column adds the unit vector along its part off the span, or nothing when that
part is too small; the basis stays orthonormal, and what it held before stays in place.
-/

namespace SubspaceEigen

open scoped RealInnerProductSpace
open Column

variable {n : ℕ}

namespace GramSchmidt

variable {basis : Columns ℝ n}

theorem point_project (h : basis.IsOrthonormal) (w : Vector ℝ n) :
    point (project basis w) = basis.off (point w) := by
  have hpair := (Columns.isOrthonormal_iff.mp h).2
  have hfold : ∀ (l : List (Vector ℝ n)) (w : Vector ℝ n),
      point (l.foldl (fun w b => addScaled w (-dot b w) b) w) =
        (l.map point).foldl (fun w b => w - ⟪b, w⟫ • b) (point w) := by
    intro l
    induction l with
    | nil => intro w; rfl
    | cons b l ih =>
        intro w
        rw [List.foldl_cons, ih, List.map_cons, List.foldl_cons]
        simp [dot_eq_inner, sub_eq_add_neg]
  rw [project, ← Array.foldl_toList, hfold, Columns.off]
  change List.foldl _ _ basis.points = _
  rw [Columns.foldl_sub_inner _ hpair, Columns.points_eq_ofFn, List.map_ofFn, List.sum_ofFn]
  rfl

/-- One pass in closed form. -/
theorem pass?_eq (h : basis.IsOrthonormal) (w : Vector ℝ n) :
    pass? basis w =
      if ‖basis.off (point w)‖ < dependenceTolerance then none
      else some (ofPoint (‖basis.off (point w)‖⁻¹ • basis.off (point w))) := by
  unfold pass?
  simp only [norm_eq, point_project h]
  split
  · rfl
  · rw [Option.some_inj]
    apply point_injective
    simp [point_project h]

/-- What a column adds in closed form: the unit vector along its part off the span, unless the
column is zero or that part is too small beside it. -/
theorem direction?_eq (h : basis.IsOrthonormal) (v : Vector ℝ n) :
    direction? basis v =
      if point v = 0 ∨ ‖basis.off (point v)‖ < dependenceTolerance * ‖point v‖ then none
      else some (ofPoint (‖basis.off (point v)‖⁻¹ • basis.off (point v))) := by
  unfold direction?
  by_cases hv : point v = 0
  · simp [norm_eq, hv]
  have hpos : 0 < ‖point v‖ := norm_pos_iff.mpr hv
  simp only [norm_eq, Scalar.isFinite_real, hv, not_le.mpr hpos, false_or, if_false,
    reduceCtorEq, or_self]
  have hoff : basis.off (point (divide v ‖point v‖)) = ‖point v‖⁻¹ • basis.off (point v) := by
    rw [point_divide, Columns.off_smul]
  have hsize : ‖basis.off (point (divide v ‖point v‖))‖ =
      ‖point v‖⁻¹ * ‖basis.off (point v)‖ := by
    rw [hoff, norm_smul, norm_inv, norm_norm]
  have hiff : ‖basis.off (point (divide v ‖point v‖))‖ < dependenceTolerance ↔
      ‖basis.off (point v)‖ < dependenceTolerance * ‖point v‖ := by
    rw [hsize, inv_mul_lt_iff₀ hpos, mul_comm]
  rw [pass?_eq h]
  by_cases hsmall : ‖basis.off (point v)‖ < dependenceTolerance * ‖point v‖
  · rw [if_pos (hiff.mpr hsmall), if_pos hsmall]
    rfl
  rw [if_neg (mt hiff.mp hsmall), if_neg hsmall, Option.bind_some]
  set r := basis.off (point v) with hr
  have hrpos : 0 < ‖r‖ := by
    have htol := mul_pos dependenceTolerance_pos hpos
    linarith [not_lt.mp hsmall]
  have hfirst : ‖basis.off (point (divide v ‖point v‖))‖⁻¹ •
      basis.off (point (divide v ‖point v‖)) = ‖r‖⁻¹ • r := by
    rw [hsize, hoff, smul_smul, mul_inv, inv_inv]
    congr 1
    field_simp
  have hunit : ‖‖r‖⁻¹ • r‖ = 1 := by
    rw [norm_smul, norm_inv, norm_norm, inv_mul_cancel₀ hrpos.ne']
  have hagain : basis.off (‖r‖⁻¹ • r) = ‖r‖⁻¹ • r := by
    apply Columns.off_eq_self
    intro q hq
    rw [inner_smul_right, hr, Columns.inner_off h hq, mul_zero]
  rw [hfirst, pass?_eq h, point_ofPoint, hagain, hunit,
    if_neg (not_lt.mpr dependenceTolerance_lt_one.le), inv_one, one_smul]

/-- A column is dropped, or it adds a unit vector orthogonal to the basis. -/
theorem insert_cases (h : basis.IsOrthonormal) (v : Vector ℝ n) :
    insert basis v = basis ∨
      ∃ w, insert basis v = basis.push w ∧ Columns.IsOrthonormal (basis.push w) := by
  unfold insert
  rw [direction?_eq h]
  split
  · next w hw =>
    right
    refine ⟨w, rfl, ?_⟩
    split at hw
    · cases hw
    next hkeep =>
    obtain ⟨hv, hsmall⟩ := not_or.mp hkeep
    set r := basis.off (point v) with hr
    have hrpos : 0 < ‖r‖ := by
      have htol := mul_pos dependenceTolerance_pos (norm_pos_iff.mpr hv)
      linarith [not_lt.mp hsmall]
    obtain rfl := Option.some_inj.mp hw
    rw [Columns.isOrthonormal_push, point_ofPoint]
    refine ⟨h, ?_, ?_⟩
    · rw [norm_smul, norm_inv, norm_norm, inv_mul_cancel₀ hrpos.ne']
    · intro p hp
      rw [inner_smul_right, hr, Columns.inner_off h hp, mul_zero]
  · exact .inl rfl

theorem insert_of_isOrthonormal_push {v : Vector ℝ n}
    (h : Columns.IsOrthonormal (basis.push v)) : insert basis v = basis.push v := by
  obtain ⟨hbasis, hunit, horth⟩ := Columns.isOrthonormal_push.mp h
  have hv : point v ≠ 0 := by
    rw [← norm_ne_zero_iff, hunit]
    exact one_ne_zero
  have hdirection : direction? basis v = some v := by
    rw [direction?_eq hbasis, Columns.off_eq_self horth, hunit, mul_one,
      if_neg (not_or.mpr ⟨hv, not_lt.mpr dependenceTolerance_lt_one.le⟩), inv_one, one_smul,
      ofPoint_point]
  rw [insert, hdirection]

theorem foldl_insert (h : basis.IsOrthonormal) (vs : List (Vector ℝ n)) :
    Columns.IsOrthonormal (vs.foldl insert basis) ∧
      ∃ added, vs.foldl insert basis = basis ++ added := by
  induction vs generalizing basis with
  | nil => exact ⟨h, #[], by simp⟩
  | cons v vs ih =>
      rw [List.foldl_cons]
      obtain heq | ⟨w, heq, hpush⟩ := insert_cases h v
      · rw [heq]
        exact ih h
      · rw [heq]
        obtain ⟨horth, added, hadded⟩ := ih hpush
        refine ⟨horth, #[w] ++ added, ?_⟩
        rw [hadded, Array.push_eq_append, Array.append_assoc]

theorem foldl_insert_of_isOrthonormal_append (vs : List (Vector ℝ n))
    (h : Columns.IsOrthonormal (basis ++ vs.toArray)) :
    vs.foldl insert basis = basis ++ vs.toArray := by
  induction vs generalizing basis with
  | nil => simp
  | cons v vs ih =>
      have hsplit : basis ++ (v :: vs).toArray = basis.push v ++ vs.toArray := by
        simp
      rw [hsplit] at h ⊢
      rw [List.foldl_cons,
        insert_of_isOrthonormal_push (Columns.isOrthonormal_append.mp h).1, ih h]

end GramSchmidt

theorem gramSchmidt_isOrthonormal {v : Columns ℝ n} {start : ℕ}
    (h : Columns.IsOrthonormal (v.extract 0 start)) :
    (gramSchmidt v start).IsOrthonormal := by
  rw [gramSchmidt, ← Array.foldl_toList]
  exact (GramSchmidt.foldl_insert h _).1

/-- The frozen columns stay at the front. -/
theorem gramSchmidt_append {basis block : Columns ℝ n} (h : basis.IsOrthonormal) :
    ∃ added, gramSchmidt (basis ++ block) basis.size = basis ++ added := by
  have hfrozen : (basis ++ block).extract 0 basis.size = basis := by
    simp
  rw [gramSchmidt, hfrozen, ← Array.foldl_toList]
  exact (GramSchmidt.foldl_insert h _).2

theorem gramSchmidt_eq_self {v : Columns ℝ n} (h : v.IsOrthonormal) (start : ℕ) :
    gramSchmidt v start = v := by
  have hsplit : v.extract 0 start ++ (v.extract start v.size).toList.toArray = v := by
    rw [Array.toArray_toList]
    simp
  rw [gramSchmidt, ← Array.foldl_toList, GramSchmidt.foldl_insert_of_isOrthonormal_append]
  · exact hsplit
  · rw [hsplit]
    exact h

end SubspaceEigen
