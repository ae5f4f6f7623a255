import SubspaceEigen.Proofs.Correction
import SubspaceEigen.Proofs.Operator.Coupled
import SubspaceEigen.Proofs.Solver.FullSpace

/-!
# Solves of coupled matrices

The leading block of the matrix is diagonal, and each position of the block is coupled to a position
outside it.  So the first round finds the guess vectors again, and each tracked root adds the
direction of its partner.  If the space outgrows its limit by that, the restart keeps all of it.  Once
all partners are in the space, the matrix keeps it, and the second round converges.
-/

namespace SubspaceEigen

open scoped RealInnerProductSpace
open Column

variable {n : ℕ} {weight : ℝ}

/-- The first round does not converge, and the second one does. -/
structure Problem.TakesTwoRounds {α : Type} [Scalar α] (p : Problem α n) (r r' : Round α n) :
    Prop where
  begins : p.roundAt 0 p.firstSpace = .ok r
  goesOn : ¬ r.converged p.requested = true
  next : p.roundAt 1 (p.advance r).1 = .ok r'
  converged : r'.converged p.requested = true

namespace Problem.TakesTwoRounds

variable {α : Type} [Scalar α] {p : Problem α n} {r r' : Round α n}

theorem rounds_eq (h : p.TakesTwoRounds r r') (hmax : 1 < p.config.maxIterations.toNat) :
    p.rounds = [r, r'] := by
  obtain ⟨remaining, hremaining⟩ := Nat.exists_eq_add_of_lt hmax
  have hrest : p.config.maxIterations.toNat - 1 = remaining + 1 := by omega
  have hlater : p.roundsFrom remaining 1 (p.advance r).1 = [r'] := by
    rw [roundsFrom]
    simp only [h.next, if_pos h.converged]
  rw [rounds, hrest, roundsFrom]
  simp only [h.begins, if_neg h.goesOn, hlater]

theorem run_eq (h : p.TakesTwoRounds r r') (hmax : 1 < p.config.maxIterations.toNat) :
    ∃ applied applied', p.run =
      (((p.finish r' .converged).after [] applied').after
        (r.events p.measuresBasis ++ (p.advance r).2) applied).after [.started p.opening] 0 := by
  obtain ⟨remaining, hremaining⟩ := Nat.exists_eq_add_of_lt hmax
  have hrest : p.config.maxIterations.toNat - 1 = remaining + 1 := by omega
  have hlater := iterate_of_ok h.next remaining
  rw [if_pos h.converged] at hlater
  refine ⟨(p.firstSpace.update p.operator).passed, ((p.advance r).1.update p.operator).passed, ?_⟩
  rw [run, hrest, iterate_of_ok h.begins, if_neg h.goesOn, ← hlater]

end Problem.TakesTwoRounds

/-- A residual along another axis than the vector leads to a direction along that axis. -/
theorem Problem.exists_direction?_of_axes {p : Problem ℝ n} {order : ℕ}
    {pair : RitzPair ℝ n order} {j k : ℕ} (hj : j < n) (hk : k < n) (hne : j ≠ k) {a c : ℝ}
    (ha : a ≠ 0) (hvector : point pair.vector = c • point (Column.unit n j))
    (hresidual : point pair.residual = a • point (Column.unit n k)) :
    ∃ d, p.direction? pair = some d ∧
      ∃ e : ℝ, |e| = 1 ∧ point d = e • point (Column.unit n k) := by
  obtain ⟨b, hb, hstep⟩ : ∃ b : ℝ, b ≠ 0 ∧
      point (Correction.precondition pair.residual pair.value p.diagonal) =
        b • point (Column.unit n k) :=
    ⟨_, div_ne_zero ha (Correction.denominator_ne_zero _),
      Correction.point_precondition hk hresidual _ p.diagonal⟩
  have horthogonal : dot pair.vector
      (Correction.precondition pair.residual pair.value p.diagonal) = 0 := by
    rw [dot_eq_inner, hvector, hstep, inner_smul_left, inner_smul_right, inner_unit_unit hj,
      if_neg hne, mul_zero, mul_zero]
  have hnorm :
      Column.norm (Correction.precondition pair.residual pair.value p.diagonal) = |b| := by
    rw [norm_eq, hstep, norm_smul, norm_unit hk, mul_one, Real.norm_eq_abs]
  refine ⟨divide (Correction.precondition pair.residual pair.value p.diagonal) |b|, ?_,
    |b|⁻¹ * b, ?_, ?_⟩
  · rw [direction?, Correction.direction_eq_precondition _ horthogonal, hnorm,
      if_neg (not_or.mpr ⟨not_le.mpr (abs_pos.mpr hb), by simp⟩)]
  · rw [abs_mul, abs_inv, abs_abs, inv_mul_cancel₀ (abs_pos.mpr hb).ne']
  · rw [point_divide, hstep, smul_smul]

/-- A solve of a coupled matrix in symmetric mode, without noise on a guess that is not full.  No
residual of the weight's size is below the tolerance. -/
structure Problem.IsCoupled (p : Problem ℝ n) (weight : ℝ) : Prop where
  kind : p.config.kind = .symmetric
  noise : p.config.guessNoise ≤ 0
  acts : p.operator.ActsAs (Square.coupled n p.settings.initialGuess weight).toLinearMap
  diagonal : p.diagonal = (Square.coupled n p.settings.initialGuess weight).diagonal
  guess_lt : p.settings.initialGuess < n
  tracked_le : p.settings.trackedRoots ≤ p.settings.initialGuess
  requested_le : p.requested ≤ p.settings.trackedRoots
  requested_pos : 0 < p.requested
  tolerance_pos : 0 < p.config.tolerance
  tolerance_le : p.config.tolerance ≤ weight

namespace Problem.IsCoupled

variable {p : Problem ℝ n} {r : Round ℝ n}

theorem firstSpace_basis (h : p.IsCoupled weight) :
    p.firstSpace.basis = ((List.range p.settings.initialGuess).map (Column.unit n)).toArray := by
  have hascending : p.diagonal.toList.Pairwise (· ≤ ·) :=
    h.diagonal ▸ Square.coupled_diagonal_pairwise n p.settings.initialGuess weight
  have hguess : p.firstSpace.basis =
      unitGuess p.config.kind p.diagonal p.settings.initialGuess :=
    p.config.guess_of_noise_le h.noise p.dense p.draws p.diagonal p.settings.initialGuess
  rw [hguess, h.kind, unitGuess_of_pairwise hascending h.guess_lt.le]

/-- On the guess vectors the matrix is diagonal. -/
theorem ritzSystem_units (h : p.IsCoupled weight) :
    RitzSystem (Square.coupled n p.settings.initialGuess weight).toLinearMap
      (fun i : Fin p.settings.initialGuess => (i.val : ℝ))
        fun i => point (Column.unit n i.val : Vector ℝ n) where
  orthonormal := by
    rw [orthonormal_iff_ite]
    intro i j
    rw [inner_unit_unit (i.isLt.trans h.guess_lt)]
    simp only [Fin.ext_iff]
  monotone i j hij := Nat.cast_le.mpr hij
  diagonal i j := by
    have hi : i.val < n := i.isLt.trans h.guess_lt
    have hpartner : ¬ i.val = partner n p.settings.initialGuess j := by
      have hle := guess_le_partner n p.settings.initialGuess j
      omega
    rw [Square.coupled_unit h.guess_lt j.isLt, inner_add_right, inner_smul_right, inner_smul_right,
      inner_unit_unit hi, inner_unit_unit hi, if_neg hpartner, mul_zero, add_zero, mul_ite, mul_one,
      mul_zero]
    simp only [Fin.ext_iff]

theorem span_units (size : ℕ) :
    Columns.span ((List.range size).map (Column.unit n)).toArray = Submodule.span ℝ
      (Set.range fun i : Fin size => point (Column.unit n i.val : Vector ℝ n)) := by
  rw [Columns.span, Columns.range_family]
  congr 1
  ext x
  simp [Fin.exists_iff, List.mem_map, eq_comm]

variable (h : p.IsCoupled weight) (hd : p.dense.TriangularExact) (hs : p.dense.SymmetricExact)
  (hround : p.roundAt 0 p.firstSpace = .ok r)

include h hround in
theorem space_basis :
    r.space.basis = ((List.range p.settings.initialGuess).map (Column.unit n)).toArray := by
  rw [(observes_of_roundAt hround).basis_eq, h.firstSpace_basis]

include h hround in
theorem space_size : r.space.size = p.settings.initialGuess := by
  rw [SearchSpace.size, h.space_basis hround, List.size_toArray, List.length_map,
    List.length_range]

include h hd hround in
theorem looks : p.Looks (Square.coupled n p.settings.initialGuess weight).toLinearMap
    p.firstSpace r :=
  looks_of_roundAt h.acts (firstSpace_tracks hd) hround

include h hd hs hround

theorem length_pairs : r.extraction.pairs.length = p.settings.initialGuess :=
  ((h.looks hd hround).resolves hs h.kind).length_eq.trans (h.space_size hround)

/-- The first round finds the guess vectors, each with a residual along its partner. -/
theorem pair_eq {j : ℕ} (hj : j < r.extraction.pairs.length) :
    r.extraction.pairs[j].value = j ∧ ∃ c : ℝ, |c| = 1 ∧
      point r.extraction.pairs[j].vector = c • point (Column.unit n j) ∧
        point r.extraction.pairs[j].residual =
          (c * weight) • point (Column.unit n (partner n p.settings.initialGuess j)) := by
  have hlooks := h.looks hd hround
  have hresolves := hlooks.resolves hs h.kind
  have hf := Square.toLinearMap_isSymmetric
    (Square.coupled_isSymmetric n p.settings.initialGuess weight)
  have hsystem := hresolves.system_of_isSymmetric hf
  have hguess : j < p.settings.initialGuess := hj.trans_eq (h.length_pairs hd hs hround)
  have hspan : Submodule.span ℝ (Set.range fun i : Fin p.settings.initialGuess =>
      point (Column.unit n i.val : Vector ℝ n)) = Submodule.span ℝ
        (Set.range fun i : Fin r.extraction.pairs.length =>
          point r.extraction.pairs[i].vector) := by
    rw [hresolves.span_vectors hlooks.tracks_space.orthonormal, h.space_basis hround, span_units]
  have hvalue : r.extraction.pairs[j].value = j :=
    (h.ritzSystem_units.value_eq hsystem hspan hguess hj).symm
  obtain ⟨c, hc, hvector⟩ := RitzSystem.exists_smul_eq hf h.ritzSystem_units hsystem hspan
    (fun a b hab => Nat.cast_lt.mpr hab) hguess hj
  refine ⟨hvalue, c, hc, hvector, ?_⟩
  rw [(hresolves.certified _ (List.getElem_mem hj)).residual, hvalue]
  rw [show point r.extraction.pairs[j].vector = c • point (Column.unit n j) from hvector, map_smul,
    Square.coupled_unit h.guess_lt hguess, smul_add, smul_smul, smul_smul, smul_smul, mul_comm c j,
    add_sub_cancel_left]

theorem norm_eq_weight : ∀ norm ∈ r.norms, norm = weight := by
  intro norm hnorm
  rw [(observes_of_roundAt hround).norms_eq] at hnorm
  obtain ⟨pair, hpair, rfl⟩ := List.mem_map.mp hnorm
  obtain ⟨j, hj, rfl⟩ := List.mem_iff_getElem.mp hpair
  obtain ⟨-, c, hc, -, hresidual⟩ := h.pair_eq hd hs hround hj
  have hweight : 0 < weight := h.tolerance_pos.trans_le h.tolerance_le
  rw [norm_eq, hresidual, norm_smul, norm_unit (partner_lt h.guess_lt j), mul_one,
    Real.norm_eq_abs, abs_mul, hc, one_mul, abs_of_pos hweight]

theorem flags_eq : r.space.flags = List.replicate p.settings.trackedRoots false := by
  have hobserves := observes_of_roundAt hround
  rw [hobserves.flags_eq, p.firstSpace_tracked, flagged, List.eq_replicate_iff]
  refine ⟨by simp, fun flag hflag => ?_⟩
  obtain ⟨j, -, rfl⟩ := List.mem_map.mp hflag
  cases hnorm : r.norms[j]? with
  | none => rfl
  | some norm =>
      rw [h.norm_eq_weight hd hs hround norm (List.mem_of_getElem? hnorm)]
      exact decide_eq_false (not_lt.mpr h.tolerance_le)

theorem not_converged : ¬ r.converged p.requested = true := by
  rw [(observes_of_roundAt hround).converged_iff_flags (h.requested_le.trans_eq
    p.firstSpace_tracked.symm), h.flags_eq hd hs hround]
  rintro ⟨-, hflags⟩
  have hfirst := hflags 0 h.requested_pos
  rw [List.getD_eq_getElem?_getD, List.getElem?_replicate] at hfirst
  split at hfirst <;> cases hfirst

theorem exists_direction? {j : ℕ} (hj : j < r.extraction.pairs.length) :
    ∃ d, p.direction? r.extraction.pairs[j] = some d ∧ ∃ c : ℝ, |c| = 1 ∧
      point d = c • point (Column.unit n (partner n p.settings.initialGuess j)) := by
  obtain ⟨-, c, hc, hvector, hresidual⟩ := h.pair_eq hd hs hround hj
  have hguess : j < p.settings.initialGuess := hj.trans_eq (h.length_pairs hd hs hround)
  have hweight : 0 < weight := h.tolerance_pos.trans_le h.tolerance_le
  refine exists_direction?_of_axes (hguess.trans h.guess_lt) (partner_lt h.guess_lt j)
    (hguess.trans_le (guess_le_partner _ _ _)).ne (mul_ne_zero ?_ hweight.ne') hvector hresidual
  rintro rfl
  norm_num at hc

/-- The new directions are those of the tracked roots, as far as there is room for them. -/
theorem exists_corrections : ∃ direction : RitzPair ℝ n r.extraction.order → Vector ℝ n,
    (∀ pair ∈ r.extraction.pairs, p.direction? pair = some (direction pair)) ∧
      p.corrections r = (((r.extraction.pairs.take p.settings.trackedRoots).map direction).take
        (n - p.settings.initialGuess)).toArray := by
  have hsome : ∀ pair ∈ r.extraction.pairs, ∃ d, p.direction? pair = some d := by
    intro pair hpair
    obtain ⟨j, hj, rfl⟩ := List.mem_iff_getElem.mp hpair
    obtain ⟨d, hd, -⟩ := h.exists_direction? hd hs hround hj
    exact ⟨d, hd⟩
  choose! direction hdirection using hsome
  refine ⟨direction, hdirection, ?_⟩
  have hlength := h.length_pairs hd hs hround
  have htracked : r.tracked = p.settings.trackedRoots := by
    rw [Round.tracked, (observes_of_roundAt hround).tracked_eq, p.firstSpace_tracked, hlength,
      min_eq_left h.tracked_le]
  have hitems : (r.extraction.pairs.zip r.space.flags).take r.tracked =
      (r.extraction.pairs.take p.settings.trackedRoots).map fun pair => (pair, false) := by
    have htracked_le := h.tracked_le
    rw [htracked, h.flags_eq hd hs hround]
    apply List.ext_getElem
    · simp only [List.length_take, List.length_zip, List.length_replicate, List.length_map]
      omega
    · intro k hk hk'
      simp
  have hdirections : ((r.extraction.pairs.take p.settings.trackedRoots).map
      fun pair => (pair, false)).filterMap (fun item =>
        if item.2 then none else p.direction? item.1) =
          (r.extraction.pairs.take p.settings.trackedRoots).map direction := by
    rw [List.filterMap_map]
    exact List.filterMap_eq_map_iff_forall_eq_some.mpr fun pair hpair =>
      hdirection pair (List.mem_of_mem_take hpair)
  rw [corrections, hitems, h.space_size hround]
  exact congrArg (fun directions =>
    (directions.take (n - p.settings.initialGuess)).toArray) hdirections

theorem size_corrections : (p.corrections r).size =
    min (n - p.settings.initialGuess) p.settings.trackedRoots := by
  obtain ⟨direction, -, hcorrections⟩ := h.exists_corrections hd hs hround
  rw [hcorrections, List.size_toArray, List.length_take, List.length_map, List.length_take,
    h.length_pairs hd hs hround, min_eq_left h.tracked_le]

/-- The new directions follow on the guess, axis by axis. -/
theorem point_corrections {k : ℕ} (hk : k < (p.corrections r).size) :
    p.settings.initialGuess + k < n ∧ ∃ c : ℝ, |c| = 1 ∧ point (p.corrections r)[k] =
      c • point (Column.unit n (p.settings.initialGuess + k)) := by
  have hroom : k < n - p.settings.initialGuess ∧ k < p.settings.trackedRoots :=
    lt_min_iff.mp (hk.trans_eq (h.size_corrections hd hs hround))
  have hpair : k < r.extraction.pairs.length :=
    (hroom.2.trans_le h.tracked_le).trans_eq (h.length_pairs hd hs hround).symm
  obtain ⟨direction, hdirection, hcorrections⟩ := h.exists_corrections hd hs hround
  obtain ⟨d, hd, c, hc, hpoint⟩ := h.exists_direction? hd hs hround hpair
  obtain rfl := Option.some.inj ((hdirection _ (List.getElem_mem hpair)).symm.trans hd)
  have hcolumn : (p.corrections r)[k] = direction r.extraction.pairs[k] := by
    simp [hcorrections]
  rw [partner, Nat.mod_eq_of_lt hroom.1] at hpoint
  exact ⟨by omega, c, hc, hcolumn ▸ hpoint⟩

theorem isOrthonormal_append_corrections :
    Columns.IsOrthonormal (r.space.basis ++ p.corrections r) := by
  have hbasis := h.space_basis hround
  have hsize : r.space.basis.size = p.settings.initialGuess := h.space_size hround
  refine Columns.isOrthonormal_of_axes fun k hk => ?_
  by_cases hfirst : k < p.settings.initialGuess
  · refine ⟨hfirst.trans h.guess_lt, 1, abs_one, ?_⟩
    rw [Array.getElem_append_left (hfirst.trans_eq hsize.symm), one_smul]
    simp [hbasis]
  · have hrest : k - p.settings.initialGuess < (p.corrections r).size := by
      rw [Array.size_append, hsize] at hk
      omega
    have hpoint := h.point_corrections hd hs hround hrest
    rw [Nat.add_sub_cancel' (not_lt.mp hfirst)] at hpoint
    rw [Array.getElem_append_right (hsize.le.trans (not_lt.mp hfirst))]
    simpa only [hsize] using hpoint

theorem enlarge_basis : (p.enlarge r).1.basis = r.space.basis ++ p.corrections r := by
  have hguess_lt := h.guess_lt
  have hsize := h.size_corrections hd hs hround
  have htracked : 0 < p.settings.trackedRoots := h.requested_pos.trans_le h.requested_le
  have hnonempty : ¬ (p.corrections r).isEmpty = true := by
    rw [Array.isEmpty_iff_size_eq_zero]
    omega
  rw [enlarge, if_neg hnonempty]
  exact SearchSpace.orthonormalize_eq_self hd _
    (h.isOrthonormal_append_corrections hd hs hround) _

theorem size_enlarge : (p.enlarge r).1.size =
    min n (p.settings.initialGuess + p.settings.trackedRoots) := by
  have hguess_lt := h.guess_lt
  have hfirst : r.space.basis.size = p.settings.initialGuess := h.space_size hround
  rw [SearchSpace.size, h.enlarge_basis hd hs hround, Array.size_append, hfirst,
    h.size_corrections hd hs hround]
  omega

theorem added_eq : p.added r = p.corrections r := by
  have happend := (enlarge_append hd (h.looks hd hround).tracks_space.orthonormal).1
  exact (Array.append_right_inj _).mp (happend.symm.trans (h.enlarge_basis hd hs hround))

theorem size_advance : (p.advance r).1.size =
    min n (p.settings.initialGuess + p.settings.trackedRoots) := by
  have henlarged := h.size_enlarge hd hs hround
  by_cases hout : p.Outgrows r
  · have hlooks := h.looks hd hround
    rw [← henlarged, hlooks.size_advance hd hs h.kind hout, hlooks.size_enlarge hd,
      h.space_size hround, min_self]
  · rw [advance_of_not_outgrows hout]
    exact henlarged

/-- The next space consists of the leading axes, up to their order and signs. -/
theorem axis_of_mem_advance {x : Vector ℝ n} (hx : x ∈ (p.advance r).1.basis) :
    ∃ k < min n (p.settings.initialGuess + p.settings.trackedRoots), ∃ c : ℝ,
      point x = c • point (Column.unit n k) := by
  have hlt := h.guess_lt
  have htracked : 0 < p.settings.trackedRoots := h.requested_pos.trans_le h.requested_le
  have hadded : x ∈ p.added r → ∃ k < min n (p.settings.initialGuess + p.settings.trackedRoots),
      ∃ c : ℝ, point x = c • point (Column.unit n k) := by
    intro hmem
    rw [h.added_eq hd hs hround] at hmem
    obtain ⟨k, hk, rfl⟩ := Array.mem_iff_getElem.mp hmem
    obtain ⟨hrow, c, -, hpoint⟩ := h.point_corrections hd hs hround hk
    have hroom := hk.trans_eq (h.size_corrections hd hs hround)
    exact ⟨p.settings.initialGuess + k, by omega, c, hpoint⟩
  rcases advance_basis hd hs h.kind (h.looks hd hround) with ⟨hbasis, -⟩ | ⟨hbasis, -⟩
  · rw [hbasis] at hx
    refine (Array.mem_append.mp hx).elim (fun hkept => ?_) hadded
    obtain ⟨pair, hpair, rfl⟩ := mem_leading.mp hkept
    obtain ⟨j, hj, rfl⟩ := List.mem_iff_getElem.mp (List.mem_of_mem_take hpair)
    obtain ⟨-, c, -, hpoint, -⟩ := h.pair_eq hd hs hround hj
    have hguess := hj.trans_eq (h.length_pairs hd hs hround)
    exact ⟨j, by omega, c, hpoint⟩
  · rw [hbasis] at hx
    refine (Array.mem_append.mp hx).elim (fun hkept => ?_) hadded
    rw [h.space_basis hround, List.mem_toArray] at hkept
    obtain ⟨k, hk, rfl⟩ := List.mem_map.mp hkept
    have hguess := List.mem_range.mp hk
    exact ⟨k, by omega, 1, (one_smul ℝ _).symm⟩

theorem span_advance : (p.advance r).1.basis.span = Columns.span
    ((List.range (min n (p.settings.initialGuess + p.settings.trackedRoots))).map
      (Column.unit n)).toArray := by
  have hnext := advance_tracks hd (h.looks hd hround).tracks_space
  have hunits : Columns.IsOrthonormal
      ((List.range (min n (p.settings.initialGuess + p.settings.trackedRoots))).map
        (Column.unit n)).toArray :=
    Columns.isOrthonormal_units List.nodup_range fun k hk =>
      (List.mem_range.mp hk).trans_le (min_le_left _ _)
  refine Submodule.eq_of_le_of_finrank_eq (Submodule.span_le.mpr ?_) ?_
  · rintro _ ⟨j, rfl⟩
    obtain ⟨k, hk, c, hpoint⟩ := h.axis_of_mem_advance hd hs hround (Array.getElem_mem j.isLt)
    rw [Columns.family, SetLike.mem_coe, Fin.getElem_fin, hpoint]
    exact Submodule.smul_mem _ _ (Columns.mem_span_of_mem
      (List.mem_toArray.mpr (List.mem_map_of_mem (List.mem_range.mpr hk))))
  · rw [hnext.orthonormal.finrank_span, hunits.finrank_span]
    exact (h.size_advance hd hs hround).trans (by simp)

/-- With all partners in the space the second round converges. -/
theorem exists_second_round (hreach : ∀ j < p.settings.initialGuess,
    partner n p.settings.initialGuess j < p.settings.initialGuess + p.settings.trackedRoots) :
    ∃ r', p.roundAt 1 (p.advance r).1 = .ok r' ∧ r'.converged p.requested = true := by
  have hguess_lt := h.guess_lt
  have htracked_le := h.tracked_le
  have hrequested_le := h.requested_le
  have hrequested_pos := h.requested_pos
  have hsize := h.size_advance hd hs hround
  have hpos : 0 < (p.advance r).1.size := by omega
  have hnext := advance_tracks hd (h.looks hd hround).tracks_space
  obtain ⟨r', hround'⟩ := exists_roundAt hs h.kind h.acts 1 hnext hpos
  refine ⟨r', hround', ?_⟩
  have hobserves := observes_of_roundAt hround'
  have hlooks := looks_of_roundAt h.acts hnext hround'
  have hresolves := hlooks.resolves hs h.kind
  have hlength : r'.extraction.pairs.length = (p.advance r).1.size := by
    rw [hresolves.length_eq, hlooks.basis_eq]
    rfl
  have hmaps : ∀ x ∈ r'.space.basis.span,
      (Square.coupled n p.settings.initialGuess weight).toLinearMap x ∈ r'.space.basis.span := by
    rw [hlooks.basis_eq, h.span_advance hd hs hround]
    exact Square.coupled_maps_units (by omega) (min_le_left _ _) fun j hj =>
      lt_min (partner_lt hguess_lt j) (hreach j hj)
  refine hobserves.converged_of_norm_eq_zero h.tolerance_pos ?_ ?_ ?_
  · rw [advance_tracked, (observes_of_roundAt hround).tracked_eq, p.firstSpace_tracked]
    exact h.requested_le
  · rw [hlength, hsize]
    omega
  · rw [hobserves.norms_eq]
    exact hresolves.residualNorm_eq_zero
      (Square.toLinearMap_isSymmetric (Square.coupled_isSymmetric _ _ _))
      hlooks.tracks_space.orthonormal hmaps

omit hround

/-- There is a first round. -/
theorem exists_first_round : ∃ r, p.roundAt 0 p.firstSpace = .ok r := by
  refine exists_roundAt hs h.kind h.acts 0 (firstSpace_tracks hd) ?_
  rw [h.firstSpace_basis, List.size_toArray, List.length_map, List.length_range]
  exact (h.requested_pos.trans_le h.requested_le).trans_le h.tracked_le

theorem exists_takesTwoRounds (hreach : ∀ j < p.settings.initialGuess,
    partner n p.settings.initialGuess j < p.settings.initialGuess + p.settings.trackedRoots) :
    ∃ r r', p.TakesTwoRounds r r' := by
  obtain ⟨r, hround⟩ := h.exists_first_round hd hs
  obtain ⟨r', hround', hconverged⟩ := h.exists_second_round hd hs hround hreach
  exact ⟨r, r', hround, h.not_converged hd hs hround, hround', hconverged⟩

/-- Where the limit is smaller than the guess and the tracked roots together, the first restart keeps
all columns. -/
theorem restart_mem
    (hlimit : p.settings.searchLimit <
      min n (p.settings.initialGuess + p.settings.trackedRoots))
    (hmax : 1 < p.config.maxIterations.toNat) :
    .restart 0 (min n (p.settings.initialGuess + p.settings.trackedRoots))
      (min n (p.settings.initialGuess + p.settings.trackedRoots)) ∈ p.run.events := by
  obtain ⟨r, hround⟩ := h.exists_first_round hd hs
  have hsize := h.size_enlarge hd hs hround
  have hkept := h.size_advance hd hs hround
  have hout : p.Outgrows r := hlimit.trans_eq hsize.symm
  have hrestart : .restart 0 (min n (p.settings.initialGuess + p.settings.trackedRoots))
      (min n (p.settings.initialGuess + p.settings.trackedRoots)) ∈ (p.advance r).2 := by
    have hindex : r.index = 0 := roundAt_index hround
    rw [advance_of_outgrows hout] at hkept ⊢
    exact List.mem_singleton.mpr (by rw [hkept, hsize, hindex])
  obtain ⟨remaining, hremaining⟩ := Nat.exists_eq_add_of_lt hmax
  have hnext : p.config.maxIterations.toNat - 1 = remaining + 1 := by omega
  rw [run, hnext, iterate_of_ok hround, if_neg (h.not_converged hd hs hround)]
  exact List.mem_append_right _ (restart_mem_after.mpr (.inl hrestart))

end Problem.IsCoupled

namespace Solver

variable {solver : Solver ℝ} {requested guess : ℕ} {settings : EffectiveSettings}

theorem isCoupled_of_pose (hkind : solver.config.kind = .symmetric)
    (hnoise : solver.config.guessNoise ≤ 0) (hweight : solver.config.tolerance ≤ weight)
    (hsettings : solver.config.effectiveSettings n requested guess = .ok settings)
    (hlt : settings.initialGuess < n) {draws : ℕ → ℝ} {p : Problem ℝ n}
    (h : solver.pose draws
      (.ofBlock ⟨n, (Square.coupled n settings.initialGuess weight).toArray⟩) requested guess =
        .ok p) : p.IsCoupled weight := by
  obtain ⟨hp, hdiagonal⟩ := poses_and_diagonal_of_pose h
  have hsame : p.settings = settings := Except.ok.inj (hp.settings.symm.trans hsettings)
  obtain ⟨hpos, hrequested, htracked, -⟩ := solver.config.settings_bounds hp.settings
  rw [← hp.requested_eq] at hpos hrequested
  rw [← hp.config_eq] at hkind hnoise hweight
  rw [← hsame] at hlt
  have hrepresents := LinearOperator.ofBlock_represents
    (Square.coupled n settings.initialGuess weight)
  exact {
    kind := hkind
    noise := hnoise
    acts := by
      rw [hsame]
      exact hp.actsAs (LinearOperator.ofBlock_actsAs _)
    diagonal := by
      rw [hsame]
      exact Vector.toArray_inj.mp
        (Except.ok.inj (hdiagonal.symm.trans hrepresents.diagonal_eq))
    guess_lt := hlt
    tracked_le := htracked
    requested_le := hrequested
    requested_pos := hpos
    tolerance_pos := by
      rw [hp.config_eq]
      exact (Config.validate_eq_ok_iff.mp hp.valid).2.1.2
    tolerance_le := hweight }

theorem exists_isCoupled (hvalid : solver.config.validate = .ok ())
    (hkind : solver.config.kind = .symmetric) (hnoise : solver.config.guessNoise ≤ 0)
    (hweight : solver.config.tolerance ≤ weight)
    (hsettings : solver.config.effectiveSettings n requested guess = .ok settings)
    (hlt : settings.initialGuess < n) (draws : ℕ → ℝ) :
    ∃ p : Problem ℝ n, solver.pose draws
        (.ofBlock ⟨n, (Square.coupled n settings.initialGuess weight).toArray⟩) requested guess =
          .ok p ∧ p.settings = settings ∧ p.IsCoupled weight := by
  obtain ⟨hpos, hrequested, htracked, havailable⟩ := solver.config.settings_bounds hsettings
  obtain ⟨p, hp⟩ := exists_pose_ofBlock hvalid draws
    (Square.coupled n settings.initialGuess weight) guess hpos
    (hrequested.trans (htracked.trans havailable))
  exact ⟨p, hp, Except.ok.inj ((poses_of_pose hp).settings.symm.trans hsettings),
    isCoupled_of_pose hkind hnoise hweight hsettings hlt hp⟩

/-- The matrix with the diagonal `0, …, 5` and ones in the rest of its last row and column, and five
guess vectors under the standard settings: the first of two rounds ends with a restart that keeps all
six columns. -/
theorem exists_restart_six_rows : ∃ p : Problem ℝ 6,
    exact.pose (fun _ => 0) (.ofBlock ⟨6, (Square.coupled 6 5 1).toArray⟩) 1 5 = .ok p ∧
      p.rounds.length = 2 ∧ .restart 0 6 6 ∈ p.run.events := by
  have hsettings : exact.config.effectiveSettings 6 1 5 = .ok ⟨5, 1, 5⟩ := rfl
  obtain ⟨p, hp, hsame, hcoupled⟩ := exists_isCoupled exact_validate rfl le_rfl
    exact_tolerance_le hsettings (by norm_num) fun _ => 0
  have hposes := poses_of_pose hp
  have hd : p.dense.TriangularExact := hposes.dense_eq ▸ Factorizations.exact_triangularExact
  have hs : p.dense.SymmetricExact := hposes.dense_eq ▸ Factorizations.exact_symmetricExact
  have hmax : 1 < p.config.maxIterations.toNat := by
    rw [hposes.config_eq]
    decide
  have hrestart := hcoupled.restart_mem hd hs (by rw [hsame]; decide) hmax
  obtain ⟨r, r', hrounds⟩ := hcoupled.exists_takesTwoRounds hd hs (by rw [hsame]; decide)
  rw [hsame] at hrestart
  exact ⟨p, hp, congrArg List.length (hrounds.rounds_eq hmax), hrestart⟩

end Solver

end SubspaceEigen
