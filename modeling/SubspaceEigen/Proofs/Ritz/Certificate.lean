import SubspaceEigen.Ritz.Harmonic
import SubspaceEigen.Proofs.Ritz.Compression

/-!
# Certified Ritz pairs

The residual of a Ritz pair is put together from the images of the basis, and its value comes from
the reduced problem.  For a basis with the images of all its columns both are what they would be if
the operator were applied to the Ritz vector itself.
-/

namespace SubspaceEigen

open scoped RealInnerProductSpace
open Column

variable {n : ℕ} {f : Euclid n →ₗ[ℝ] Euclid n} {cs : Columns ℝ n}

/-- A vector of norm one, with its residual and its Rayleigh quotient under a linear map. -/
structure RitzPair.Certified {order : ℕ} (f : Euclid n →ₗ[ℝ] Euclid n)
    (pair : RitzPair ℝ n order) : Prop where
  norm_vector : ‖point pair.vector‖ = 1
  residual : point pair.residual = f (point pair.vector) - pair.value • point pair.vector
  value : pair.value = ⟪point pair.vector, f (point pair.vector)⟫

namespace RitzPair.Certified

variable {order : ℕ} {pair : RitzPair ℝ n order}

theorem inner_residual (h : pair.Certified f) : ⟪point pair.vector, point pair.residual⟫ = 0 := by
  rw [h.residual, inner_sub_right, inner_smul_right, real_inner_self_eq_norm_sq, h.norm_vector,
    ← h.value]
  ring

/-- No other value fits the vector better. -/
theorem norm_residual_le (h : pair.Certified f) (mu : ℝ) :
    ‖point pair.residual‖ ≤ ‖f (point pair.vector) - mu • point pair.vector‖ := by
  have hsplit : f (point pair.vector) - mu • point pair.vector =
      point pair.residual + (pair.value - mu) • point pair.vector := by
    rw [h.residual, sub_smul]
    abel
  have horthogonal : ⟪point pair.residual, (pair.value - mu) • point pair.vector⟫ = 0 := by
    rw [inner_smul_right, real_inner_comm, h.inner_residual, mul_zero]
  have hpythagoras := norm_add_sq_eq_norm_sq_add_norm_sq_real horthogonal
  rw [hsplit, mul_self_le_mul_self_iff (norm_nonneg _) (norm_nonneg _), hpythagoras]
  exact le_add_of_nonneg_right (mul_self_nonneg _)

end RitzPair.Certified

/-- The pair that a value and coefficients give, with the residual that the map has there. -/
noncomputable def RitzPair.lift (f : Euclid n →ₗ[ℝ] Euclid n) (cs : Columns ℝ n) (value : ℝ)
    (u : Vector ℝ cs.size) : RitzPair ℝ n cs.size where
  value := value
  coefficients := u
  vector := cs.combine u
  residual := ofPoint (f (cs.embed (point u)) - value • cs.embed (point u))

theorem RitzPair.lift_certified (h : cs.IsOrthonormal) {value : ℝ} {u : Vector ℝ cs.size}
    (hu : ‖point u‖ = 1)
    (hvalue : value = ⟪point u, (cs.compression f).toLinearMap (point u)⟫) :
    (RitzPair.lift f cs value u).Certified f where
  norm_vector := by
    rw [lift, Columns.point_combine_eq_embed, h.norm_embed, hu]
  residual := by
    simp only [lift, point_ofPoint, Columns.point_combine_eq_embed]
  value := by
    rw [lift, Columns.point_combine_eq_embed, ← Columns.inner_compression]
    exact hvalue

theorem Columns.point_combine_map_through (cs : Columns ℝ n) (f : Euclid n →ₗ[ℝ] Euclid n)
    {u : Vector ℝ cs.size} (hsize : cs.size = (cs.map (through f)).size) :
    point (Columns.combine (cs.map (through f)) (u.cast hsize)) = f (cs.embed (point u)) := by
  rw [point_combine, embed_apply, map_sum]
  refine (Fintype.sum_equiv (finCongr hsize) _ _ fun j => ?_).symm
  simp [family]

/-- With the images of the whole basis at hand, residuals need no further application of the
operator. -/
theorem Extraction.ofReduced_refreshed (s : SearchSpace ℝ n) (f : Euclid n →ₗ[ℝ] Euclid n)
    (reduced : List (ℝ × Vector ℝ s.basis.size)) :
    ofReduced (s.refreshed f) reduced =
      .ok ⟨s.basis.size, reduced.map fun vu => RitzPair.lift f s.basis vu.1 vu.2⟩ := by
  have hsize : s.basis.size = (s.basis.map (through f)).size := by simp
  have hboth : s.basis.size = (s.refreshed f).basis.size ∧
      s.basis.size = (s.refreshed f).image.size := ⟨rfl, hsize⟩
  have hresidual : ∀ (value : ℝ) (u : Vector ℝ s.basis.size),
      addScaled (Columns.combine (s.basis.map (through f)) (u.cast hsize)) (-value)
          (s.basis.combine u) = (RitzPair.lift f s.basis value u).residual := by
    intro value u
    apply point_injective
    rw [point_addScaled, Columns.point_combine_map_through, s.basis.point_combine_eq_embed,
      neg_smul, ← sub_eq_add_neg, RitzPair.lift, point_ofPoint]
  rw [ofReduced, dif_pos hboth]
  congr 2
  apply List.map_congr_left
  rintro ⟨value, u⟩ -
  exact congrArg (RitzPair.mk value u (s.basis.combine u)) (hresidual value u)

/-- What the pencil gives is used as directions only: their vectors have norm one. -/
theorem norm_of_mem_selectReal {order : ℕ} {pairs : List (ComplexEigenpair ℝ order)}
    {dropped : List ℕ} {u : Vector ℝ order} (hu : u ∈ selectReal pairs dropped) :
    ‖point u‖ = 1 := by
  unfold selectReal at hu
  obtain ⟨⟨x, v⟩, hv, rfl⟩ := List.mem_map.mp hu
  rw [List.mem_reverse, (sortedBy_perm _ _).mem_iff, List.mem_filterMap] at hv
  obtain ⟨⟨p, k⟩, -, hpair⟩ := hv
  simp only [Option.ite_none_left_eq_some, Option.some_inj, Prod.mk.injEq] at hpair
  obtain ⟨-, hsize, -, rfl⟩ := hpair
  exact norm_divide_norm (not_le.mp (not_or.mp hsize).1)

/-- The quotients of a matrix at the directions that are selected from the eigenpairs of a pencil. -/
def quotients {α : Type} [Scalar α] {order : ℕ} (t : Square α order)
    (pairs : List (ComplexEigenpair α order)) (conjugates : List (ℕ × ℕ)) :
    List (α × Vector α order) :=
  (selectReal pairs (conjugates.map Prod.snd)).map fun u => (dot u (t.mulColumn u), u)

/-- The pencil of a space, taken apart: its metric, the projected matrix and its eigenpairs. -/
structure Pencil {α : Type} [Scalar α] (dense : Factorizations α) (s : SearchSpace α n)
    (t : Square α s.projected.rows) (pairs : List (ComplexEigenpair α s.projected.rows)) : Prop where
  square_eq : s.projected.toSquare? = some t
  pairs_eq : ∃ metric, s.metric? = some metric ∧
    generalizedEigen dense s.projected metric = some pairs

/-- The ways in which a harmonic extraction ends.  There is no metric, or the pencil has no
eigenpairs, or its values are not closed under conjugation, or the images do not fit the basis. -/
inductive HarmonicEnds {α : Type} [Scalar α] (dense : Factorizations α) (s : SearchSpace α n) :
    Except (Failure α) (Extraction α n × ℕ) → Prop where
  | noMetric (hmetric : s.metric? = none) :
      HarmonicEnds dense s (.error (.error (.reduced .noMetric)))
  | noPencil (hnone : ∀ t pairs, ¬ Pencil dense s t pairs) :
      HarmonicEnds dense s (.error (.error (.reduced (.pencil s.projected.rows))))
  | unpaired {t pairs e} (hpencil : Pencil dense s t pairs)
      (hconjugates : pairConjugates (pairs.map ComplexEigenpair.value) = .error e) :
      HarmonicEnds dense s (.error (.error e))
  | misfit {t pairs conjugates f} (hpencil : Pencil dense s t pairs)
      (hconjugates : pairConjugates (pairs.map ComplexEigenpair.value) = .ok conjugates)
      (hreduced : Extraction.ofReduced s (quotients t pairs conjugates) = .error f) :
      HarmonicEnds dense s (.error (.fault f))
  | extracted {t pairs conjugates extraction} (hpencil : Pencil dense s t pairs)
      (hconjugates : pairConjugates (pairs.map ComplexEigenpair.value) = .ok conjugates)
      (hreduced : Extraction.ofReduced s (quotients t pairs conjugates) = .ok extraction) :
      HarmonicEnds dense s (.ok (extraction, conjugates.length))

theorem harmonicRitz_ends {α : Type} [Scalar α] (dense : Factorizations α) (s : SearchSpace α n) :
    HarmonicEnds dense s (harmonicRitz dense s) := by
  unfold harmonicRitz
  split
  · next hmetric => exact .noMetric hmetric
  next metric hmetric =>
  split
  · next t pairs hsquare hpairs =>
    have hpencil : Pencil dense s t pairs := ⟨hsquare, metric, hmetric, hpairs⟩
    split
    · next e hconjugates => exact .unpaired hpencil hconjugates
    next conjugates hconjugates =>
    simp only
    split
    · next f hreduced => exact .misfit hpencil hconjugates hreduced
    · next extraction hreduced => exact .extracted hpencil hconjugates hreduced
  · next hnone =>
    refine .noPencil fun t pairs hpencil => ?_
    obtain ⟨metric', hmetric', hpairs⟩ := hpencil.pairs_eq
    obtain rfl := Option.some.inj (hmetric.symm.trans hmetric')
    exact hnone t pairs hpencil.square_eq hpairs

/-- The extraction from given eigenpairs of a pencil, however they were found. -/
def Extraction.ofPencil {α : Type} [Scalar α] (s : SearchSpace α n) (t : Square α s.projected.rows)
    (pairs : List (ComplexEigenpair α s.projected.rows)) :
    Except (Failure α) (Extraction α n × ℕ) :=
  match pairConjugates (pairs.map ComplexEigenpair.value) with
  | .error e => .error (.error e)
  | .ok conjugates =>
    match ofReduced s (quotients t pairs conjugates) with
    | .error f => .error (.fault f)
    | .ok extraction => .ok (extraction, conjugates.length)

theorem Extraction.ofPencil_eq_ok {α : Type} [Scalar α] {s : SearchSpace α n}
    {t : Square α s.projected.rows} {pairs : List (ComplexEigenpair α s.projected.rows)}
    {conjugates : List (ℕ × ℕ)} {e : Extraction α n}
    (hconjugates : pairConjugates (pairs.map ComplexEigenpair.value) = .ok conjugates)
    (hreduced : ofReduced s (quotients t pairs conjugates) = .ok e) :
    ofPencil s t pairs = .ok (e, conjugates.length) := by
  simp only [ofPencil, hconjugates, hreduced]

theorem Pencil.harmonicRitz_eq {α : Type} [Scalar α] {dense : Factorizations α}
    {s : SearchSpace α n} {t : Square α s.projected.rows}
    {pairs : List (ComplexEigenpair α s.projected.rows)} (h : Pencil dense s t pairs) :
    harmonicRitz dense s = Extraction.ofPencil s t pairs := by
  obtain ⟨metric, hmetric, hpairs⟩ := h.pairs_eq
  simp only [harmonicRitz, hmetric, h.square_eq, hpairs, Extraction.ofPencil, quotients]
  cases pairConjugates (pairs.map ComplexEigenpair.value) with
  | error e => rfl
  | ok conjugates =>
      simp only
      split
      · next f hreduced => simp only [hreduced]
      · next e hreduced => simp only [hreduced]

/-- The harmonic extraction evaluates quotients of the projected matrix at vectors selected from the
eigenpairs of the pencil. -/
theorem ofReduced_of_harmonicRitz {α : Type} [Scalar α] {dense : Factorizations α}
    {s : SearchSpace α n} {e : Extraction α n} {conjugates : ℕ}
    (he : harmonicRitz dense s = .ok (e, conjugates)) :
    ∃ (metric : Block α) (t : Square α s.projected.rows)
        (pairs : List (ComplexEigenpair α s.projected.rows)) (dropped : List ℕ),
      s.projected.toSquare? = some t ∧ generalizedEigen dense s.projected metric = some pairs ∧
        Extraction.ofReduced s
          ((selectReal pairs dropped).map fun u => (dot u (t.mulColumn u), u)) = .ok e := by
  cases he ▸ harmonicRitz_ends dense s with
  | extracted hpencil hconjugates hreduced =>
      obtain ⟨metric, -, hpairs⟩ := hpencil.pairs_eq
      exact ⟨metric, _, _, _, hpencil.square_eq, hpairs, hreduced⟩

theorem harmonicRitz_certified {dense : Factorizations ℝ} {s : SearchSpace ℝ n}
    (h : s.basis.IsOrthonormal) {e : Extraction ℝ n} {conjugates : ℕ}
    (he : harmonicRitz dense (s.refreshed f) = .ok (e, conjugates)) :
    ∀ pair ∈ e.pairs, pair.Certified f := by
  obtain ⟨-, t, pairs, dropped, hsquare, -, hreduced⟩ := ofReduced_of_harmonicRitz he
  obtain rfl : s.basis.compression f = t :=
    Option.some.inj ((s.basis.toSquare?_compress f).symm.trans hsquare)
  obtain rfl := Except.ok.inj ((Extraction.ofReduced_refreshed s f _).symm.trans hreduced)
  have hquotient : ∀ v : Vector ℝ s.basis.size, dot v ((s.basis.compression f).mulColumn v) =
      ⟪point v, (s.basis.compression f).toLinearMap (point v)⟫ := by
    intro v
    rw [dot_eq_inner, Square.point_mulColumn]
  intro pair hpair
  obtain ⟨⟨value, u⟩, hvu, rfl⟩ := List.mem_map.mp hpair
  obtain ⟨v, hv, hvu⟩ := List.mem_map.mp hvu
  obtain ⟨rfl, rfl⟩ := Prod.mk.inj hvu
  exact RitzPair.lift_certified h (norm_of_mem_selectReal hv) (hquotient v)

end SubspaceEigen
