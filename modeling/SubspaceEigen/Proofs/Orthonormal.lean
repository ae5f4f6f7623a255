import SubspaceEigen.Proofs.Euclid

/-!
# Orthonormal columns

Columns of norm one that are orthogonal to one another, and the part of a point that lies off the
subspace they span.  A basis grows at its end, so the predicate is also given for columns that are
put together from two parts.
-/

namespace SubspaceEigen.Columns

open scoped RealInnerProductSpace
open Column

variable {n : ℕ}

/-- The columns have norm one and are orthogonal to one another. -/
def IsOrthonormal (cs : Columns ℝ n) : Prop :=
  Orthonormal ℝ cs.family

theorem isOrthonormal_iff {cs : Columns ℝ n} :
    cs.IsOrthonormal ↔
      (∀ p ∈ cs.points, ‖p‖ = 1) ∧ cs.points.Pairwise fun p q => ⟪p, q⟫ = 0 := by
  rw [points_eq_ofFn, List.pairwise_ofFn]
  constructor
  · intro h
    refine ⟨?_, fun i j hij => h.2 hij.ne⟩
    intro p hp
    obtain ⟨i, rfl⟩ := List.mem_ofFn.mp hp
    exact h.1 i
  · rintro ⟨hunit, hpair⟩
    refine ⟨fun i => hunit _ (List.mem_ofFn.mpr ⟨i, rfl⟩), ?_⟩
    intro i j hij
    rcases lt_or_gt_of_ne hij with h | h
    · exact hpair h
    · rw [real_inner_comm]
      exact hpair h

theorem isOrthonormal_empty : IsOrthonormal (#[] : Columns ℝ n) := by
  simp [isOrthonormal_iff]

theorem isOrthonormal_append {a b : Columns ℝ n} :
    IsOrthonormal (a ++ b) ↔
      a.IsOrthonormal ∧ b.IsOrthonormal ∧
        ∀ p ∈ a.points, ∀ q ∈ b.points, ⟪p, q⟫ = 0 := by
  simp only [isOrthonormal_iff, points_append, List.mem_append, List.pairwise_append]
  constructor
  · rintro ⟨hunit, ha, hb, hab⟩
    exact ⟨⟨fun p hp => hunit p (.inl hp), ha⟩, ⟨fun p hp => hunit p (.inr hp), hb⟩, hab⟩
  · rintro ⟨⟨hunita, ha⟩, ⟨hunitb, hb⟩, hab⟩
    exact ⟨fun p hp => hp.elim (hunita p) (hunitb p), ha, hb, hab⟩

theorem isOrthonormal_push {a : Columns ℝ n} {x : Vector ℝ n} :
    IsOrthonormal (a.push x) ↔
      a.IsOrthonormal ∧ ‖point x‖ = 1 ∧ ∀ p ∈ a.points, ⟪p, point x⟫ = 0 := by
  rw [Array.push_eq_append, isOrthonormal_append]
  simp [isOrthonormal_iff, points]

theorem isOrthonormal_singleton {x : Vector ℝ n} :
    IsOrthonormal (#[x] : Columns ℝ n) ↔ ‖point x‖ = 1 := by
  simp [isOrthonormal_iff, points]

theorem isOrthonormal_unit (k : Fin n) : IsOrthonormal (#[Column.unit n k] : Columns ℝ n) := by
  simp [isOrthonormal_singleton]

theorem isOrthonormal_units {indices : List ℕ} (hnodup : indices.Nodup)
    (hlt : ∀ k ∈ indices, k < n) :
    IsOrthonormal (indices.map fun k => (Column.unit n k : Vector ℝ n)).toArray := by
  have hpoint : ∀ k (hk : k < n), point (Column.unit n k : Vector ℝ n) =
      EuclideanSpace.single ⟨k, hk⟩ 1 := fun k hk => point_unit ⟨k, hk⟩
  rw [isOrthonormal_iff]
  simp only [points, List.map_map, List.mem_map, Function.comp_apply, List.pairwise_map]
  constructor
  · rintro p ⟨k, hk, rfl⟩
    rw [hpoint k (hlt k hk), PiLp.norm_single, norm_one]
  · refine hnodup.imp_of_mem fun {k l} hk hl hkl => ?_
    rw [hpoint k (hlt k hk), hpoint l (hlt l hl), EuclideanSpace.inner_single_left]
    simp [hkl]

theorem isOrthonormal_of_axes {cs : Columns ℝ n} (h : ∀ (k : ℕ) (hk : k < cs.size), k < n ∧
    ∃ c : ℝ, |c| = 1 ∧ point cs[k] = c • point (Column.unit n k)) : cs.IsOrthonormal := by
  constructor
  · intro i
    obtain ⟨hi, c, hc, hpoint⟩ := h i i.isLt
    simp only [family, Fin.getElem_fin]
    rw [hpoint, norm_smul, norm_unit hi, mul_one, Real.norm_eq_abs, hc]
  · intro i j hij
    obtain ⟨hi, c, -, hpoint⟩ := h i i.isLt
    obtain ⟨-, d, -, hpoint'⟩ := h j j.isLt
    simp only [family, Fin.getElem_fin]
    rw [hpoint, hpoint', inner_smul_left, inner_smul_right, inner_unit_unit hi,
      if_neg (Fin.val_ne_of_ne hij), mul_zero, mul_zero]

namespace IsOrthonormal

variable {cs : Columns ℝ n}

theorem norm_eq_one (h : cs.IsOrthonormal) {x : Vector ℝ n} (hx : x ∈ cs) :
    ‖point x‖ = 1 :=
  (isOrthonormal_iff.mp h).1 _ (mem_points.mpr ⟨x, hx, rfl⟩)

theorem inner_eq_zero (h : cs.IsOrthonormal) {i j : ℕ} (hi : i < cs.size) (hj : j < cs.size)
    (hij : i ≠ j) : ⟪point cs[i], point cs[j]⟫ = 0 := by
  have hfamily : Orthonormal ℝ cs.family := h
  have hne : (⟨i, hi⟩ : Fin cs.size) ≠ ⟨j, hj⟩ := fun heq => hij (Fin.mk.inj heq)
  simpa only [family, Fin.getElem_fin] using hfamily.inner_eq_zero hne

/-- There is no room for more than `n` orthonormal columns. -/
theorem size_le (h : cs.IsOrthonormal) : cs.size ≤ n := by
  have hcard := LinearIndependent.fintype_card_le_finrank (Orthonormal.linearIndependent h)
  simpa using hcard

theorem finrank_span (h : cs.IsOrthonormal) : Module.finrank ℝ cs.span = cs.size := by
  rw [span, finrank_span_eq_card (Orthonormal.linearIndependent h), Fintype.card_fin]

end IsOrthonormal

theorem inner_eq_zero_of_mem_span {cs : Columns ℝ n} {p q : Euclid n} (hp : p ∈ cs.span)
    (hq : ∀ x ∈ cs.points, ⟪x, q⟫ = 0) : ⟪p, q⟫ = 0 := by
  rw [span, range_family] at hp
  induction hp using Submodule.span_induction with
  | mem x hx => exact hq x hx
  | zero => exact inner_zero_left q
  | add x y _ _ hx hy => rw [inner_add_left, hx, hy, add_zero]
  | smul a x _ hx => rw [real_inner_smul_left, hx, mul_zero]

/-- A point less its components along the columns. -/
noncomputable def off (cs : Columns ℝ n) (p : Euclid n) : Euclid n :=
  p - ∑ j, ⟪cs.family j, p⟫ • cs.family j

theorem off_smul (cs : Columns ℝ n) (a : ℝ) (p : Euclid n) :
    cs.off (a • p) = a • cs.off p := by
  simp only [off, inner_smul_right, smul_sub, Finset.smul_sum, smul_smul]

theorem off_eq_self {cs : Columns ℝ n} {p : Euclid n} (h : ∀ q ∈ cs.points, ⟪q, p⟫ = 0) :
    cs.off p = p := by
  have hzero : ∀ j, ⟪cs.family j, p⟫ = 0 := by
    intro j
    apply h
    rw [points_eq_ofFn]
    exact List.mem_ofFn.mpr ⟨j, rfl⟩
  simp [off, hzero]

theorem inner_off {cs : Columns ℝ n} (h : cs.IsOrthonormal) {q : Euclid n}
    (hq : q ∈ cs.points) (p : Euclid n) : ⟪q, cs.off p⟫ = 0 := by
  rw [points_eq_ofFn] at hq
  obtain ⟨j, rfl⟩ := List.mem_ofFn.mp hq
  rw [off, inner_sub_right, Orthonormal.inner_right_fintype h, sub_self]

/-- Taking out the components along orthonormal columns one after another takes out all of them. -/
theorem foldl_sub_inner (l : List (Euclid n)) (h : l.Pairwise fun p q => ⟪p, q⟫ = 0)
    (p : Euclid n) :
    l.foldl (fun w b => w - ⟪b, w⟫ • b) p = p - (l.map fun b => ⟪b, p⟫ • b).sum := by
  induction l generalizing p with
  | nil => simp
  | cons b l ih =>
      obtain ⟨hb, hl⟩ := List.pairwise_cons.mp h
      have hsame : l.map (fun c => ⟪c, p - ⟪b, p⟫ • b⟫ • c) = l.map fun c => ⟪c, p⟫ • c := by
        apply List.map_congr_left
        intro c hc
        rw [inner_sub_right, inner_smul_right, real_inner_comm b c, hb c hc, mul_zero, sub_zero]
      rw [List.foldl_cons, ih hl, hsame, List.map_cons, List.sum_cons, sub_sub]

end SubspaceEigen.Columns
