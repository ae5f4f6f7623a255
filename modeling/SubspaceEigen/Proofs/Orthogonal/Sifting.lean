import SubspaceEigen.Proofs.Orthogonal.GramSchmidt
import SubspaceEigen.Proofs.Orthogonal.Height

/-!
# Gram–Schmidt as a sifting of columns

Gram–Schmidt looks at one column after another.  A column that is zero, or too near the span of the
columns kept so far, is dropped; any other adds the unit vector along its rise.  The relation
`Sifts` says this of a whole run without the passes that compute it.  It determines the columns
kept, and it does not see the lengths of the columns.
-/

namespace SubspaceEigen

open scoped RealInnerProductSpace
open Column

variable {n : ℕ}

namespace GramSchmidt

/-- Whether a column is dropped: it is zero, or too near the span of the columns kept, measured by
its own norm. -/
def Drops (kept : Columns ℝ n) (x : Vector ℝ n) : Prop :=
  point x = 0 ∨ kept.distance (point x) < dependenceTolerance * ‖point x‖

/-- From the columns `kept`, the given columns lead to the columns of the last argument. -/
inductive Sifts : Columns ℝ n → List (Vector ℝ n) → Columns ℝ n → Prop
  | done (kept : Columns ℝ n) : Sifts kept [] kept
  | drop {kept result : Columns ℝ n} {x : Vector ℝ n} {rest : List (Vector ℝ n)}
      (hdrop : Drops kept x) (hrest : Sifts kept rest result) : Sifts kept (x :: rest) result
  | keep {kept result : Columns ℝ n} {x : Vector ℝ n} {rest : List (Vector ℝ n)}
      (hkeep : ¬ Drops kept x) (hrest : Sifts (kept.push (kept.unitRise (point x))) rest result) :
      Sifts kept (x :: rest) result

variable {kept result : Columns ℝ n} {x : Vector ℝ n} {vs : List (Vector ℝ n)}

theorem distance_ne_zero (h : ¬ Drops kept x) : kept.distance (point x) ≠ 0 := by
  obtain ⟨hx, hfar⟩ := not_or.mp h
  have hpos := mul_pos dependenceTolerance_pos (norm_pos_iff.mpr hx)
  exact (hpos.trans_le (not_lt.mp hfar)).ne'

theorem insert_of_drops (h : kept.IsOrthonormal) (hdrop : Drops kept x) : insert kept x = kept := by
  rw [Drops, Columns.distance_eq_norm_rise, ← h.off_eq_rise] at hdrop
  rw [insert, direction?_eq h, if_pos hdrop]

/-- The two passes compute the unit vector along the rise. -/
theorem insert_of_not_drops (h : kept.IsOrthonormal) (hkeep : ¬ Drops kept x) :
    insert kept x = kept.push (kept.unitRise (point x)) := by
  rw [Drops, Columns.distance_eq_norm_rise, ← h.off_eq_rise] at hkeep
  rw [insert, direction?_eq h, if_neg hkeep, Columns.unitRise, Columns.distance_eq_norm_rise,
    ← h.off_eq_rise]

theorem sifts_foldl (h : kept.IsOrthonormal) (vs : List (Vector ℝ n)) :
    Sifts kept vs (vs.foldl insert kept) := by
  induction vs generalizing kept with
  | nil => exact .done kept
  | cons x vs ih =>
      rw [List.foldl_cons]
      by_cases hdrop : Drops kept x
      · rw [insert_of_drops h hdrop]
        exact .drop hdrop (ih h)
      · rw [insert_of_not_drops h hdrop]
        exact .keep hdrop (ih (h.push_unitRise (distance_ne_zero hdrop)))

namespace Sifts

theorem exists_append (h : Sifts kept vs result) : ∃ added, result = kept ++ added := by
  induction h with
  | done kept => exact ⟨#[], by simp⟩
  | drop _ _ ih => exact ih
  | @keep kept result x rest _ _ ih =>
      obtain ⟨added, hadded⟩ := ih
      refine ⟨#[kept.unitRise (point x)] ++ added, ?_⟩
      rw [hadded, Array.push_eq_append, Array.append_assoc]

theorem isOrthonormal (h : Sifts kept vs result) (hkept : kept.IsOrthonormal) :
    result.IsOrthonormal := by
  induction h with
  | done kept => exact hkept
  | drop _ _ ih => exact ih hkept
  | keep hkeep _ ih => exact ih (hkept.push_unitRise (distance_ne_zero hkeep))

/-- No column leaves a subspace that holds what was kept and what is still to come. -/
theorem span_le (h : Sifts kept vs result) {W : Submodule ℝ (Euclid n)} (hkept : kept.span ≤ W)
    (hvs : ∀ x ∈ vs, point x ∈ W) : result.span ≤ W := by
  induction h with
  | done kept => exact hkept
  | drop _ _ ih => exact ih hkept fun y hy => hvs y (List.mem_cons_of_mem _ hy)
  | @keep kept result x rest hkeep _ ih =>
      refine ih ?_ fun y hy => hvs y (List.mem_cons_of_mem _ hy)
      rw [← Columns.span_push_unitRise rfl (distance_ne_zero hkeep), Columns.span_push]
      exact sup_le hkept
        ((Submodule.span_singleton_le_iff_mem _ _).mpr (hvs x (List.mem_cons_self ..)))

/-- The columns kept are determined. -/
theorem unique {other : Columns ℝ n} (h : Sifts kept vs result) (hother : Sifts kept vs other) :
    result = other := by
  induction h with
  | done kept =>
      cases hother
      rfl
  | drop hdrop _ ih =>
      cases hother with
      | drop _ hrest => exact ih hrest
      | keep hkeep _ => exact absurd hdrop hkeep
  | keep hkeep _ ih =>
      cases hother with
      | drop hdrop _ => exact absurd hdrop hkeep
      | keep _ hrest => exact ih hrest

end Sifts

/-- The second column is a positive multiple of the first. -/
def Stretched (x y : Vector ℝ n) : Prop :=
  ∃ c : ℝ, 0 < c ∧ y = scale c x

theorem drops_scale {c : ℝ} (hc : 0 < c) : Drops kept (scale c x) ↔ Drops kept x := by
  rw [Drops, Drops, point_scale, smul_eq_zero_iff_right hc.ne', Columns.distance_smul,
    abs_of_pos hc, norm_smul, Real.norm_of_nonneg hc.le, mul_left_comm, mul_lt_mul_iff_right₀ hc]

/-- A run does not see the lengths of the columns. -/
theorem Sifts.stretch {ws : List (Vector ℝ n)} (h : Sifts kept vs result)
    (hstretch : List.Forall₂ Stretched vs ws) : Sifts kept ws result := by
  induction h generalizing ws with
  | done kept =>
      cases hstretch
      exact .done kept
  | drop hdrop _ ih =>
      obtain _ | ⟨⟨c, hc, rfl⟩, hrest⟩ := hstretch
      exact .drop ((drops_scale hc).mpr hdrop) (ih hrest)
  | keep hkeep _ ih =>
      obtain _ | ⟨⟨c, hc, rfl⟩, hrest⟩ := hstretch
      refine .keep (mt (drops_scale hc).mp hkeep) ?_
      rw [point_scale, Columns.unitRise_smul _ hc]
      exact ih hrest

end GramSchmidt

/-- What Gram–Schmidt makes of the columns `v`, those before `start` being frozen. -/
structure GramSchmidt.Sifted (v : Columns ℝ n) (start : ℕ) : Prop where
  frozen : ∃ added, gramSchmidt v start = v.extract 0 start ++ added
  orthonormal : (gramSchmidt v start).IsOrthonormal
  span_le : (gramSchmidt v start).span ≤ v.span
  sifts : GramSchmidt.Sifts (v.extract 0 start) (v.extract start v.size).toList
    (gramSchmidt v start)
  stretched : ∀ w : Columns ℝ n, w.extract 0 start = v.extract 0 start →
    List.Forall₂ GramSchmidt.Stretched (v.extract start v.size).toList
      (w.extract start w.size).toList →
    gramSchmidt w start = gramSchmidt v start
  again : ∀ s, gramSchmidt (gramSchmidt v start) s = gramSchmidt v start

theorem GramSchmidt.sifts_gramSchmidt {v : Columns ℝ n} {start : ℕ}
    (h : Columns.IsOrthonormal (v.extract 0 start)) :
    Sifts (v.extract 0 start) (v.extract start v.size).toList (gramSchmidt v start) := by
  rw [gramSchmidt, ← Array.foldl_toList]
  exact sifts_foldl h _

/-- Gram–Schmidt keeps its frozen columns and sifts the others, whatever their lengths. -/
theorem gramSchmidt_sifted {v : Columns ℝ n} {start : ℕ}
    (h : Columns.IsOrthonormal (v.extract 0 start)) : GramSchmidt.Sifted v start := by
  have hsifts := GramSchmidt.sifts_gramSchmidt h
  have horth := hsifts.isOrthonormal h
  refine {
    frozen := hsifts.exists_append
    orthonormal := horth
    span_le := ?_
    sifts := hsifts
    stretched := ?_
    again := fun s => gramSchmidt_eq_self horth s }
  · apply hsifts.span_le
    · exact Columns.span_mono fun x hx => Columns.mem_of_mem_extract hx
    · intro x hx
      exact Columns.mem_span_of_mem (Columns.mem_of_mem_extract (Array.mem_toList_iff.mp hx))
  · intro w hfrozen hstretch
    have hw := GramSchmidt.sifts_gramSchmidt (v := w) (hfrozen ▸ h)
    rw [hfrozen] at hw
    exact hw.unique (hsifts.stretch hstretch)

/-- In the plane, after one frozen axis: the second column is kept, the third lies on the axis. -/
theorem gramSchmidt_sifted_plane :
    let v : Columns ℝ 2 := #[Column.unit 2 0, #v[3, 4], #v[5, 0]]
    Columns.IsOrthonormal (v.extract 0 1) ∧ GramSchmidt.Sifted v 1 := by
  intro v
  have hfrozen : Columns.IsOrthonormal (v.extract 0 1) := Columns.isOrthonormal_unit (0 : Fin 2)
  exact ⟨hfrozen, gramSchmidt_sifted hfrozen⟩

end SubspaceEigen
