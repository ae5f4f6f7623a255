import SubspaceEigen.Proofs.Ritz.Restriction
import SubspaceEigen.Proofs.Ritz.Selection
import SubspaceEigen.Proofs.Ritz.Spectrum

/-!
# Harmonic extraction from an invariant space

On a space that the operator keeps, an eigenvector of the pencil of its matrix and the square of it
is an eigenvector of the operator, for the inverse value.  So the descending order of the values of
the pencil puts the positive eigenvalues first, the lowest of them at the beginning.
-/

namespace SubspaceEigen

open scoped RealInnerProductSpace
open Column InverseIteration

/-- Nonzero numbers in descending order of their inverses: the positive ones come first, and those
of one sign ascend. -/
theorem eq_sort_append {values : List ℝ} (hzero : ∀ a ∈ values, a ≠ 0)
    (hdescending : values.Pairwise fun a b => b⁻¹ ≤ a⁻¹) :
    values = ((values : Multiset ℝ).filter (0 < ·)).sort ++
      ((values : Multiset ℝ).filter (· < 0)).sort := by
  set positive := (values : Multiset ℝ).filter (0 < ·) with hpositive
  set negative := (values : Multiset ℝ).filter (· < 0) with hnegative
  have hpos : ∀ a ∈ positive.sort, 0 < a := fun a ha =>
    (Multiset.mem_filter.mp ((Multiset.mem_sort _).mp ha)).2
  have hneg : ∀ a ∈ negative.sort, a < 0 := fun a ha =>
    (Multiset.mem_filter.mp ((Multiset.mem_sort _).mp ha)).2
  have hperm : values.Perm (positive.sort ++ negative.sort) := by
    have hrest : negative = (values : Multiset ℝ).filter fun a => ¬ 0 < a :=
      Multiset.filter_congr fun a ha => (hzero a ha).le_iff_lt.symm.trans not_lt.symm
    rw [← Multiset.coe_eq_coe, ← Multiset.coe_add, Multiset.sort_eq, Multiset.sort_eq, hrest,
      Multiset.filter_add_not]
  refine hperm.eq_of_pairwise (fun a b _ _ hab hba => inv_injective (le_antisymm hba hab))
    hdescending (List.pairwise_append.mpr ⟨?_, ?_, ?_⟩)
  · refine (Multiset.pairwise_sort positive _).imp_of_mem fun {a b} ha hb hab => ?_
    exact inv_anti₀ (hpos a ha) hab
  · refine (Multiset.pairwise_sort negative _).imp_of_mem fun {a b} ha hb hab => ?_
    exact (inv_le_inv_of_neg (hneg b hb) (hneg a ha)).mpr hab
  · intro a ha b hb
    exact (inv_lt_zero.mpr (hneg b hb)).le.trans (inv_pos.mpr (hpos a ha)).le

variable {n : ℕ} {f : Euclid n →ₗ[ℝ] Euclid n} {cs : Columns ℝ n}

/-- An exact eigenpair in the space, for the inverse of a value of the pencil. -/
structure RitzPair.Exact {order : ℕ} (f : Euclid n →ₗ[ℝ] Euclid n) (cs : Columns ℝ n) (theta : ℝ)
    (pair : RitzPair ℝ n order) : Prop where
  norm_vector : ‖point pair.vector‖ = 1
  mem_span : point pair.vector ∈ cs.span
  eigen : f (point pair.vector) = pair.value • point pair.vector
  value : pair.value = theta⁻¹
  residual : point pair.residual = 0

section Pencil

variable {p : ComplexEigenpair ℝ cs.size} {pairs : List (ComplexEigenpair ℝ cs.size)}

/-- A vector of the pencil is an eigenvector of the matrix, for the inverse value. -/
theorem Columns.IsOrthonormal.eigen_of_pencil (h : cs.IsOrthonormal)
    (hmaps : ∀ p ∈ cs.span, f p ∈ cs.span) (hinjective : ∀ p ∈ cs.span, f p = 0 → p = 0)
    {u : Euclid cs.size} (hu : u ≠ 0) {theta : ℝ}
    (heigen : (cs.compression f).toLinearMap u =
      theta • (cs.compression (f ∘ₗ f)).toLinearMap u) :
    theta ≠ 0 ∧ (cs.compression f).toLinearMap u = theta⁻¹ • u := by
  have hker := LinearMap.ker_eq_bot'.mp (h.ker_compression hmaps hinjective)
  rw [h.compression_comp hmaps, LinearMap.comp_apply, ← map_smul, ← sub_eq_zero,
    ← map_sub] at heigen
  have hscaled : u = theta • (cs.compression f).toLinearMap u := sub_eq_zero.mp (hker _ heigen)
  have htheta : theta ≠ 0 := by
    rintro rfl
    exact hu (hscaled.trans (zero_smul ℝ _))
  refine ⟨htheta, ?_⟩
  rw [eq_inv_smul_iff₀ htheta]
  exact hscaled.symm

theorem ComplexEigenpair.lift_exact (h : cs.IsOrthonormal)
    (hmaps : ∀ p ∈ cs.span, f p ∈ cs.span) (hinjective : ∀ p ∈ cs.span, f p = 0 → p = 0)
    (hlead : HasRealLead p.vector)
    (heigen : point ((cs.compression f).mulColumn (p.vector.map ComplexNumber.re)) =
      p.value.re • point ((cs.compression (f ∘ₗ f)).mulColumn (p.vector.map ComplexNumber.re))) :
    p.value.re ≠ 0 ∧ (p.lift f cs).Exact f cs p.value.re := by
  have hu : point (p.vector.map ComplexNumber.re) ≠ 0 := by
    rw [← norm_pos_iff, ← norm_eq]
    exact hlead.norm_re_pos
  rw [Square.point_mulColumn, Square.point_mulColumn] at heigen
  obtain ⟨htheta, hmatrix⟩ := h.eigen_of_pencil hmaps hinjective hu heigen
  have hunit := norm_direction hlead
  have hcertified := (lift_drawnFrom (f := f) h hlead).toCertified
  have hdirection : (cs.compression f).toLinearMap (point p.direction) =
      p.value.re⁻¹ • point p.direction := by
    rw [direction, point_divide, map_smul, hmatrix, smul_comm]
  have hvector : point (p.lift f cs).vector = cs.embed (point p.direction) :=
    cs.point_combine_eq_embed p.direction
  have hvalue : (p.lift f cs).value = p.value.re⁻¹ := by
    change dot p.direction ((cs.compression f).mulColumn p.direction) = _
    rw [dot_eq_inner, Square.point_mulColumn, hdirection, inner_smul_right,
      real_inner_self_eq_norm_sq, hunit, one_pow, mul_one]
  have heigenvector : f (point (p.lift f cs).vector) =
      (p.lift f cs).value • point (p.lift f cs).vector := by
    rw [hvector, hvalue, ← h.embed_compression hmaps, hdirection, map_smul]
  refine ⟨htheta, hcertified.norm_vector, ?_, heigenvector, hvalue, ?_⟩
  · rw [hvector]
    exact cs.embed_mem_span _
  · rw [hcertified.residual, heigenvector, sub_self]

end Pencil

theorem Conjugates.adjacent_of_real {m : ℕ} {pairs : List (ComplexEigenpair ℝ m)}
    (h : ∀ p ∈ pairs, p.value.im = 0) (start : ℕ) : Adjacent start pairs pairs [] := by
  induction pairs generalizing start with
  | nil => exact .nil start
  | cons p pairs ih =>
      obtain ⟨hp, hrest⟩ := List.forall_mem_cons.mp h
      exact .real hp (ih hrest (start + 1))

/-- The eigenvalues of a map on a space that it keeps are the inverses of those of the pencil. -/
theorem IsRealSpectrum.eigenvaluesOn_span {pairs : List (ComplexEigenpair ℝ cs.size)}
    (hspectrum : IsRealSpectrum (cs.compression f) (cs.compression (f ∘ₗ f)) pairs)
    (h : cs.IsOrthonormal) (hmaps : ∀ p ∈ cs.span, f p ∈ cs.span)
    (hinjective : ∀ p ∈ cs.span, f p = 0 → p = 0) (hzero : ∀ p ∈ pairs, p.value.re ≠ 0) :
    eigenvaluesOn f cs.span hmaps = (pairs.map fun p => p.value.re⁻¹ : List ℝ) := by
  have hdet : LinearMap.det (cs.compression f).toLinearMap ≠ 0 := by
    intro hdet
    exact (LinearMap.bot_lt_ker_of_det_eq_zero hdet).ne' (h.ker_compression hmaps hinjective)
  have hthetas : ∀ theta ∈ pairs.map fun p => p.value.re, theta ≠ 0 := List.forall_mem_map.mpr hzero
  have hlength : (pairs.map fun p => p.value.re).length = Module.finrank ℝ (Euclid cs.size) := by
    rw [List.length_map, hspectrum.length_eq, finrank_euclideanSpace_fin]
  have hcomplete : ∀ x : ℝ, LinearMap.det (x • ((cs.compression f).toLinearMap ∘ₗ
      (cs.compression f).toLinearMap) - (cs.compression f).toLinearMap) =
        LinearMap.det ((cs.compression f).toLinearMap ∘ₗ (cs.compression f).toLinearMap) *
          ((pairs.map fun p => p.value.re).map fun theta => x - theta).prod := by
    intro x
    rw [← h.compression_comp hmaps, hspectrum.complete, List.map_map]
    rfl
  rw [h.eigenvaluesOn_span hmaps, roots_charpoly_of_pencil hdet hcomplete hthetas hlength,
    List.map_map]
  rfl

/-- Exact real eigenpairs of the pencil, in whatever way they were found, lead to exact eigenpairs of
the operator: the positive eigenvalues first, and those of one sign ascending. -/
theorem Extraction.ofPencil_exact {s : SearchSpace ℝ n} (h : s.basis.IsOrthonormal)
    (hmaps : ∀ p ∈ s.basis.span, f p ∈ s.basis.span)
    (hinjective : ∀ p ∈ s.basis.span, f p = 0 → p = 0)
    {pairs : List (ComplexEigenpair ℝ s.basis.size)} (hlead : ∀ p ∈ pairs, HasRealLead p.vector)
    (hspectrum : IsRealSpectrum (s.basis.compression f) (s.basis.compression (f ∘ₗ f)) pairs) :
    (∀ p ∈ pairs, p.value.re ≠ 0) ∧
      ∃ order ritz, ofPencil (s.refreshed f) (s.basis.compression f) pairs =
          .ok (⟨s.basis.size, ritz⟩, 0) ∧ order.Perm pairs ∧
        List.Forall₂ (fun p pair => RitzPair.Exact f s.basis p.value.re pair) order ritz ∧
          ritz.map RitzPair.value =
            ((eigenvaluesOn f s.basis.span hmaps).filter (0 < ·)).sort ++
              ((eigenvaluesOn f s.basis.span hmaps).filter (· < 0)).sort := by
  have hlift : ∀ p ∈ pairs, p.value.re ≠ 0 ∧
      (p.lift f s.basis).Exact f s.basis p.value.re := fun p hp =>
    p.lift_exact h hmaps hinjective (hlead p hp) (hspectrum.eigen p hp)
  have hzero : ∀ p ∈ pairs, p.value.re ≠ 0 := fun p hp => (hlift p hp).1
  have hmem : ∀ p ∈ descending pairs, p ∈ pairs := fun p hp => (descending_perm pairs).mem_iff.mp hp
  refine ⟨hzero, descending pairs, (descending pairs).map (·.lift f s.basis),
    ofPencil_refreshed s f hlead (Conjugates.adjacent_of_real hspectrum.real 0),
    descending_perm pairs, ?_, ?_⟩
  · rw [List.forall₂_map_right_iff, List.forall₂_same]
    exact fun p hp => (hlift p (hmem p hp)).2
  · have hvalues : ((descending pairs).map (·.lift f s.basis)).map RitzPair.value =
        (descending pairs).map fun p => p.value.re⁻¹ := by
      rw [List.map_map]
      exact List.map_congr_left fun p hp => (hlift p (hmem p hp)).2.value
    have hroots : eigenvaluesOn f s.basis.span hmaps =
        ((descending pairs).map fun p => p.value.re⁻¹ : List ℝ) := by
      rw [hspectrum.eigenvaluesOn_span h hmaps hinjective hzero, Multiset.coe_eq_coe]
      exact ((descending_perm pairs).map _).symm
    rw [hvalues, hroots]
    refine eq_sort_append ?_ ?_
    · exact List.forall_mem_map.mpr fun p hp => inv_ne_zero (hzero p (hmem p hp))
    · refine List.pairwise_map.mpr ((descending_pairwise pairs).imp fun hle => ?_)
      rwa [inv_inv, inv_inv]

/-- On a space that the operator keeps and takes nothing of to zero, the harmonic extraction is
exact: the eigenvalues come as they are, the positive ones first and ascending. -/
theorem exact_of_update {dense : Factorizations ℝ} {op : LinearOperator ℝ} {s : SearchSpace ℝ n}
    (hop : op.ActsAs f) (h : s.Tracks f) (hsecond : s.second.isSome)
    (hmaps : ∀ p ∈ s.basis.span, f p ∈ s.basis.span)
    (hinjective : ∀ p ∈ s.basis.span, f p = 0 → p = 0)
    {pairs : List (ComplexEigenpair ℝ s.basis.size)}
    (hpairs : generalizedEigen dense (s.basis.compress f) (s.basis.compress (f ∘ₗ f)) = some pairs)
    (hspectrum : IsRealSpectrum (s.basis.compression f) (s.basis.compression (f ∘ₗ f)) pairs) :
    (∀ p ∈ pairs, p.value.re ≠ 0) ∧
      ∃ next order ritz, (s.update op).outcome = .ok next ∧ next.basis = s.basis ∧
        harmonicRitz dense next = .ok (⟨s.basis.size, ritz⟩, 0) ∧ order.Perm pairs ∧
          List.Forall₂ (fun p pair => RitzPair.Exact f s.basis p.value.re pair) order ritz ∧
            ritz.map RitzPair.value =
              ((eigenvaluesOn f s.basis.span hmaps).filter (0 < ·)).sort ++
                ((eigenvaluesOn f s.basis.span hmaps).filter (· < 0)).sort := by
  obtain ⟨hzero, order, ritz, hextracted, hexact⟩ := Extraction.ofPencil_exact h.orthonormal hmaps
    hinjective (hasRealLead_of_generalizedEigen hpairs) hspectrum
  exact ⟨hzero, s.refreshed f, order, ritz, SearchSpace.update_eq h hop, rfl,
    (pencil_refreshed hsecond hpairs).harmonicRitz_eq.trans hextracted, hexact⟩

def traceless (a b c : ℝ) : Square ℝ 2 :=
  #v[#v[a, c], #v[b, -a]]

section Traceless

variable {a b c : ℝ}

theorem mulColumn_traceless (h : a * a + b * c = 1) {j : ℕ} (hj : j < 2) :
    (traceless a b c).mulColumn (traceless a b c)[j] = Column.unit 2 j := by
  ext i hi
  interval_cases j <;> interval_cases i <;>
    simp [traceless, Square.mulColumn, sum_eq_sum, Fin.sum_univ_two, Column.unit] <;> linarith

theorem isRegular_traceless (h : a * a + b * c = 1) {sigma : ComplexNumber ℝ}
    (hsigma : sigma * sigma ≠ 1) : IsRegular 2 (shiftedEntry (traceless a b c) sigma) := by
  have hone : ComplexNumber.ofReal a * ComplexNumber.ofReal a +
      ComplexNumber.ofReal b * ComplexNumber.ofReal c = 1 := by
    refine ComplexNumber.ext_parts ?_ ?_ <;> simp [h]
  have hneg : ComplexNumber.ofReal (-a) = -ComplexNumber.ofReal a :=
    ComplexNumber.ext_parts rfl neg_zero.symm
  have hfactor : 1 - sigma * sigma ≠ 0 := fun hzero => hsigma (sub_eq_zero.mp hzero).symm
  rw [isRegular_shiftedEntry_iff]
  intro x hx
  have hfirst : ComplexNumber.ofReal a * x.get 0 + ComplexNumber.ofReal b * x.get 1 =
      sigma * x.get 0 := by
    simpa [Fin.sum_univ_two, traceless, Square.entry] using hx 0
  have hsecond : ComplexNumber.ofReal c * x.get 0 - ComplexNumber.ofReal a * x.get 1 =
      sigma * x.get 1 := by
    simpa [Fin.sum_univ_two, traceless, Square.entry, hneg, sub_eq_add_neg] using hx 1
  have hx0 : x.get 0 = 0 := by
    refine (mul_eq_zero.mp ?_).resolve_left hfactor
    linear_combination (ComplexNumber.ofReal a + sigma) * hfirst +
      ComplexNumber.ofReal b * hsecond - x.get 0 * hone
  have hx1 : x.get 1 = 0 := by
    refine (mul_eq_zero.mp ?_).resolve_left hfactor
    linear_combination ComplexNumber.ofReal c * hfirst +
      (sigma - ComplexNumber.ofReal a) * hsecond - x.get 1 * hone
  intro z hz
  obtain ⟨i, hi, rfl⟩ := Vector.getElem_of_mem hz
  interval_cases i
  · exact hx0
  · exact hx1

theorem scales_traceless {theta : ℝ} {k : ℕ}
    (hfirst : a * seed k 0 + b * seed k 1 = theta * seed k 0)
    (hsecond : c * seed k 0 - a * seed k 1 = theta * seed k 1) :
    Scales (traceless a b c) (ComplexNumber.ofReal theta) (start 2 k) := by
  rw [start_eq]
  refine Scales.divide (fun i => ComplexNumber.ext_parts ?_ ?_) _
  · fin_cases i
    · simpa [Fin.sum_univ_two, traceless, get_seeds, Square.entry] using hfirst
    · simpa [Fin.sum_univ_two, traceless, get_seeds, Square.entry, sub_eq_add_neg] using hsecond
  · simp [Fin.sum_univ_two, get_seeds]

theorem firstShift_traceless_lt (ha : |a| ≤ 10) (hb : |b| ≤ 10) (hc : |c| ≤ 10) :
    firstShift (traceless a b c) < 2 := by
  have hle : firstShift (traceless a b c) ≤ relativeShift * 10 := by
    refine firstShift_le (by norm_num) fun x hx y hy => ?_
    obtain ⟨j, hj, rfl⟩ := Vector.getElem_of_mem hx
    obtain ⟨i, hi, rfl⟩ := Vector.getElem_of_mem hy
    interval_cases j <;> interval_cases i
    · exact ha
    · exact hc
    · exact hb
    · exact (abs_neg a).trans_le ha
  refine hle.trans_lt ?_
  unfold relativeShift
  norm_num

end Traceless

theorem seed_eq {k i : ℕ} (whole : ℤ)
    (hle : (whole : ℝ) ≤ (((i + 1) * (k + 2) : ℕ) : ℝ) * 0.618033988749895)
    (hlt : (((i + 1) * (k + 2) : ℕ) : ℝ) * 0.618033988749895 < whole + 1) :
    seed k i = 0.5 + ((((i + 1) * (k + 2) : ℕ) : ℝ) * 0.618033988749895 - whole) := by
  have hfloor := Int.floor_eq_iff.mpr ⟨hle, hlt⟩
  rw [seed, ← hfloor]
  rfl

theorem seeds_two : seed 0 0 = 0.73606797749979 ∧ seed 0 1 = 0.97213595499958 ∧
    seed 1 0 = 1.354101966249685 ∧ seed 1 1 = 1.20820393249937 := by
  refine ⟨(seed_eq 1 ?_ ?_).trans ?_, (seed_eq 2 ?_ ?_).trans ?_, (seed_eq 1 ?_ ?_).trans ?_,
    (seed_eq 3 ?_ ?_).trans ?_⟩ <;> norm_num

/-- The matrix of order two that keeps the first starting vector and reverses the second. -/
noncomputable def mirror : Square ℝ 2 :=
  let d := seed 0 0 * seed 1 1 - seed 0 1 * seed 1 0
  traceless ((seed 0 0 * seed 1 1 + seed 0 1 * seed 1 0) / d)
    (-(seed 0 0 * seed 1 0 + seed 0 0 * seed 1 0) / d)
    ((seed 0 1 * seed 1 1 + seed 0 1 * seed 1 1) / d)

theorem firstShift_mirror_lt : firstShift mirror < 2 := by
  obtain ⟨h00, h01, h10, h11⟩ := seeds_two
  apply firstShift_traceless_lt <;> rw [h00, h01, h10, h11, abs_div, div_le_iff₀] <;> norm_num

theorem seeds_independent : seed 0 0 * seed 1 1 - seed 0 1 * seed 1 0 ≠ 0 := by
  obtain ⟨h00, h01, h10, h11⟩ := seeds_two
  rw [h00, h01, h10, h11]
  norm_num

/-- The starting vectors are eigenvectors, for values of both signs. -/
theorem scales_mirror : Scales mirror (ComplexNumber.ofReal 1) (start 2 0) ∧
    Scales mirror (ComplexNumber.ofReal (-1)) (start 2 1) := by
  have hd := mul_inv_cancel₀ seeds_independent
  constructor
  · refine scales_traceless ?_ ?_
    · linear_combination seed 0 0 * hd
    · linear_combination seed 0 1 * hd
  · refine scales_traceless ?_ ?_
    · linear_combination -seed 1 0 * hd
    · linear_combination -seed 1 1 * hd

theorem mirror_entries :
    let d := seed 0 0 * seed 1 1 - seed 0 1 * seed 1 0
    let stretch := (seed 0 0 * seed 1 1 + seed 0 1 * seed 1 0) / d
    stretch * stretch + -(seed 0 0 * seed 1 0 + seed 0 0 * seed 1 0) / d *
      ((seed 0 1 * seed 1 1 + seed 0 1 * seed 1 1) / d) = 1 := by
  intro d stretch
  have hd : d * d⁻¹ = 1 := mul_inv_cancel₀ seeds_independent
  linear_combination (d * d⁻¹ + 1) * hd

theorem mirror_involutive : mirror.toLinearMap ∘ₗ mirror.toLinearMap = LinearMap.id := by
  rw [Square.toLinearMap_comp, ← Square.toLinearMap_identity]
  refine congrArg Square.toLinearMap (Vector.ext fun j hj => ?_)
  rw [Vector.getElem_map, Square.identity, Vector.getElem_ofFn]
  exact mulColumn_traceless mirror_entries hj

theorem isRegular_mirror {sigma : ComplexNumber ℝ} (hsigma : sigma * sigma ≠ 1) :
    IsRegular 2 (shiftedEntry mirror sigma) :=
  isRegular_traceless mirror_entries hsigma

/-- Eigenpairs of the mirror are found, and they are exact. -/
theorem exists_squareEigen_mirror {dense : Factorizations ℝ}
    (hvalues : dense.eigenvalues mirror = some [⟨1, 0⟩, ⟨-1, 0⟩]) :
    ∃ p q, squareEigen dense mirror = some [p, q] ∧
      IsRealSpectrum mirror (Square.identity 2) [p, q] := by
  have hpos := firstShift_pos mirror
  have hlt := firstShift_mirror_lt
  have hregular : ∀ value ∈ ([⟨1, 0⟩, ⟨-1, 0⟩] : List (ComplexNumber ℝ)),
      IsRegular 2 (shiftedEntry mirror (value + ComplexNumber.ofReal (firstShift mirror))) := by
    intro value hvalue
    fin_cases hvalue
    · refine isRegular_mirror fun h => ?_
      have hre : (1 + firstShift mirror) * (1 + firstShift mirror) = 1 := by
        simpa using congrArg ComplexNumber.re h
      nlinarith
    · refine isRegular_mirror fun h => ?_
      have hre : (-1 + firstShift mirror) * (-1 + firstShift mirror) = 1 := by
        simpa using congrArg ComplexNumber.re h
      nlinarith
  obtain ⟨pairs, hpairs⟩ := exists_squareEigen (by decide) hvalues hregular
  have hmap := map_value_of_squareEigen hvalues hpairs
  obtain ⟨p, q, rfl⟩ := List.length_eq_two.mp
    ((List.length_map ComplexEigenpair.value).symm.trans (congrArg List.length hmap))
  simp only [List.map_cons, List.map_nil, List.cons.injEq, and_true] at hmap
  obtain ⟨hp, hq⟩ := hmap
  refine ⟨p, q, hpairs, .of_scales (q := mirror) ?_ rfl ?_ ?_ (hasRealLead_of_squareEigen hpairs)
    (scales_of_squareEigen hvalues ?_ hpairs)⟩
  · rw [Square.toLinearMap_identity, LinearMap.id_comp]
  · simp [hp, hq]
  · have hne : (1 : ℝ) ≠ -1 := by norm_num
    simpa [hp, hq] using hne
  · intro v hv
    fin_cases hv
    · exact scales_mirror.1
    · exact scales_mirror.2

/-- The mirror in a plane of the space, which has values of both signs there and loses what is off
the plane. -/
theorem exact_of_update_mirror :
    let a : Square ℝ 3 := #v[#v[mirror.entry 0 0, mirror.entry 1 0, 0],
      #v[mirror.entry 0 1, mirror.entry 1 1, 0], #v[0, 0, 0]]
    let f : Euclid 3 →ₗ[ℝ] Euclid 3 := a.toLinearMap
    let op : LinearOperator ℝ := .ofBlock ⟨3, a.toArray⟩
    let s := SearchSpace.start ([0, 1].map (Column.unit 3)).toArray 2 true
    let dense : Factorizations ℝ :=
      { Factorizations.exact with eigenvalues := fun _ => some [⟨1, 0⟩, ⟨-1, 0⟩] }
    ∃ (hmaps : ∀ p ∈ s.basis.span, f p ∈ s.basis.span)
      (pairs : List (ComplexEigenpair ℝ s.basis.size)),
      op.ActsAs f ∧ s.Tracks f ∧ s.second.isSome ∧
        (∀ p ∈ s.basis.span, f p = 0 → p = 0) ∧
        generalizedEigen dense (s.basis.compress f) (s.basis.compress (f ∘ₗ f)) = some pairs ∧
        IsRealSpectrum (s.basis.compression f) (s.basis.compression (f ∘ₗ f)) pairs ∧
        (∀ p ∈ pairs, p.value.re ≠ 0) ∧
        ∃ next order ritz, (s.update op).outcome = .ok next ∧ next.basis = s.basis ∧
          harmonicRitz dense next = .ok (⟨s.basis.size, ritz⟩, 0) ∧ order.Perm pairs ∧
            List.Forall₂ (fun p pair => RitzPair.Exact f s.basis p.value.re pair) order ritz ∧
              ritz.map RitzPair.value =
                ((eigenvaluesOn f s.basis.span hmaps).filter (0 < ·)).sort ++
                  ((eigenvaluesOn f s.basis.span hmaps).filter (· < 0)).sort := by
  intro a f op s dense
  have hop : op.ActsAs f := LinearOperator.ofBlock_actsAs a
  have hlt : ∀ k ∈ [0, 1], k < 3 := by decide
  have htracks : s.Tracks f :=
    SearchSpace.tracks_start (Columns.isOrthonormal_units (by decide) hlt) 2 true
  have hmatrix : s.basis.compression f = mirror := by
    refine Columns.compression_units a hlt _ fun i j hi hj => ?_
    change i < 2 at hi
    change j < 2 at hj
    interval_cases j <;> interval_cases i <;> rfl
  have hmaps : ∀ p ∈ s.basis.span, f p ∈ s.basis.span := by
    have hunit : ∀ k ∈ [0, 1], point (Column.unit 3 k) ∈ s.basis.span := fun k hk =>
      Columns.mem_span_of_mem (List.mem_toArray.mpr (List.mem_map_of_mem hk))
    refine Columns.map_mem_span fun x hx => ?_
    obtain ⟨k, hk, rfl⟩ := List.mem_map.mp (List.mem_toArray.mp hx)
    have himage : f (point (Column.unit 3 k)) = mirror.entry 0 k • point (Column.unit 3 0) +
        mirror.entry 1 k • point (Column.unit 3 1) := by
      rw [Square.toLinearMap_unit a (hlt k hk)]
      ext i
      fin_cases hk <;> fin_cases i <;> simp [a, Column.unit]
    rw [himage]
    exact Submodule.add_mem _ (Submodule.smul_mem _ _ (hunit 0 (by simp)))
      (Submodule.smul_mem _ _ (hunit 1 (by simp)))
  have hmetric : s.basis.compression (f ∘ₗ f) = Square.identity 2 := by
    apply Square.toLinearMap_injective
    rw [htracks.orthonormal.compression_comp hmaps, hmatrix]
    exact mirror_involutive.trans Square.toLinearMap_identity.symm
  have hinjective : ∀ p ∈ s.basis.span, f p = 0 → p = 0 := by
    intro p hp hzero
    obtain ⟨u, rfl⟩ := Columns.exists_embed_eq hp
    have htwice : f (f (s.basis.embed u)) = s.basis.embed u := by
      rw [← htracks.orthonormal.embed_compression hmaps,
        ← htracks.orthonormal.embed_compression hmaps, hmatrix]
      exact congrArg s.basis.embed (LinearMap.congr_fun mirror_involutive u)
    rw [← htwice, hzero, map_zero]
  have hsolve : solveLinear? (s.basis.compression (f ∘ₗ f)) (s.basis.compression f) =
      some mirror := by
    rw [hmatrix, hmetric]
    refine solveLinear?_eq_some (n := 2) (fun x hx z hz => ?_) ?_
    · obtain ⟨i, hi, rfl⟩ := Vector.getElem_of_mem hz
      have hrow := hx ⟨i, hi⟩
      interval_cases i <;> simpa [Fin.sum_univ_two, Square.entry, Square.identity, Column.unit,
        Vector.get] using hrow
    · refine (Vector.map_congr_left fun x _ => point_injective ?_).trans (Vector.map_id mirror)
      rw [Square.point_mulColumn, Square.toLinearMap_identity, LinearMap.id_apply, id]
  obtain ⟨p, q, hpairs, hspectrum⟩ :=
    exists_squareEigen_mirror (rfl : dense.eigenvalues mirror = _)
  have hpencil : generalizedEigen dense (s.basis.compress f) (s.basis.compress (f ∘ₗ f)) =
      some [p, q] := by
    rw [generalizedEigen_compress, hsolve]
    exact hpairs
  rw [← hmetric, ← hmatrix] at hspectrum
  exact ⟨hmaps, [p, q], hop, htracks, rfl, hinjective, hpencil, hspectrum,
    exact_of_update hop htracks rfl hmaps hinjective hpencil hspectrum⟩

end SubspaceEigen
