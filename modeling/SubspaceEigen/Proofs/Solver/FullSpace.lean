import SubspaceEigen.Proofs.Ritz.Uniqueness
import SubspaceEigen.Proofs.Solver.Monotone

/-!
# Search spaces of full dimension

Once the basis has as many columns as the operator has rows, the Ritz pairs of a symmetric operator
are its eigenpairs.  Their residuals vanish, so such a round converges and is the last one, and the
roots are the lowest part of the spectrum.  A round that goes on has room for another column.
-/

namespace SubspaceEigen

open scoped RealInnerProductSpace
open Column

variable {n : ℕ} {f : Euclid n →ₗ[ℝ] Euclid n}

namespace Columns.IsOrthonormal

variable {cs : Columns ℝ n}

/-- As many orthonormal columns as there are dimensions span everything. -/
theorem span_eq_top (h : cs.IsOrthonormal) (hsize : cs.size = n) : cs.span = ⊤ := by
  apply Submodule.eq_top_of_finrank_eq
  rw [h.finrank_span, hsize, finrank_euclideanSpace_fin]

theorem maps_of_size_eq (h : cs.IsOrthonormal) (hsize : cs.size = n) (f : Euclid n →ₗ[ℝ] Euclid n) :
    ∀ x ∈ cs.span, f x ∈ cs.span := by
  rw [h.span_eq_top hsize]
  exact fun _ _ => Submodule.mem_top

end Columns.IsOrthonormal

namespace Extraction.Resolves

variable {e : Extraction ℝ n} {cs : Columns ℝ n}

/-- Over a basis whose span the map keeps, no residual is left. -/
theorem residual_eq_zero (h : e.Resolves f cs) (hf : f.IsSymmetric) (horth : cs.IsOrthonormal)
    (hmaps : ∀ x ∈ cs.span, f x ∈ cs.span) : ∀ pair ∈ e.pairs, point pair.residual = 0 := by
  intro pair hpair
  have himage := hmaps _ (h.mem_span pair hpair)
  obtain ⟨i, hi, rfl⟩ := List.mem_iff_getElem.mp hpair
  rw [← h.span_vectors horth] at himage
  have heigen : f (point e.pairs[i].vector) = e.pairs[i].value • point e.pairs[i].vector :=
    (h.system_of_isSymmetric hf).eigen (j := ⟨i, hi⟩) himage
  rw [(h.certified _ hpair).residual, heigen, sub_self]

theorem residualNorm_eq_zero (h : e.Resolves f cs) (hf : f.IsSymmetric)
    (horth : cs.IsOrthonormal) (hmaps : ∀ x ∈ cs.span, f x ∈ cs.span) :
    ∀ norm ∈ e.residualNorms, norm = 0 := by
  intro norm hnorm
  obtain ⟨pair, hpair, rfl⟩ := List.mem_map.mp hnorm
  rw [norm_eq, h.residual_eq_zero hf horth hmaps pair hpair, norm_zero]

/-- Over a full basis the roots are the lowest eigenvalues. -/
theorem map_value_settle (h : e.Resolves f cs) (hf : f.IsSymmetric) (horth : cs.IsOrthonormal)
    (hsize : cs.size = n) (flags : List Bool) (requested : ℕ) :
    (Solution.settle e.pairs e.residualNorms flags requested).map Root.value =
      (List.ofFn (orderedEigenvalue hf)).take requested := by
  have hpairs : e.pairs.length = n := h.length_eq.trans hsize
  apply List.ext_getElem
  · rw [List.length_map, Solution.length_settle, List.length_take, List.length_ofFn, hpairs]
  · intro j hj hj'
    rw [List.length_map] at hj
    obtain ⟨hpair, hvalue⟩ := h.value_settle flags requested hj
    rw [List.getElem_map, hvalue, List.getElem_take, List.getElem_ofFn]
    refine (h.system_of_isSymmetric hf).value_eq (ritzSystem_eigenvectors hf) ?_ hpair
      (hpair.trans_eq hpairs)
    rw [h.span_vectors horth, horth.span_eq_top hsize, span_eigenvectors]

end Extraction.Resolves

namespace Problem

theorem Observes.converged_of_norm_eq_zero {p : Problem ℝ n} {s : SearchSpace ℝ n} {r : Round ℝ n}
    (h : p.Observes s r) (htolerance : 0 < p.config.tolerance) (hle : p.requested ≤ s.tracked)
    (hpairs : p.requested ≤ r.extraction.pairs.length) (hnorms : ∀ norm ∈ r.norms, norm = 0) :
    r.converged p.requested = true := by
  rw [h.converged_iff hle, h.length_norms]
  refine ⟨hpairs, fun norm hnorm => ?_⟩
  rw [hnorms norm (List.mem_of_mem_take hnorm)]
  exact htolerance

/-- A round with as many columns as the operator has rows leaves no residuals, and it ends the run
with the lowest eigenvalues.  A round that does not end the run has room for another column. -/
structure EndsFull (p : Problem ℝ n) (hf : f.IsSymmetric) : Prop where
  reported : Journal.measurements p.run.events = p.rounds.map (·.measurement p.measuresBasis)
  residuals : ∀ r ∈ p.rounds, r.space.size = n →
    (∀ pair ∈ r.extraction.pairs, point pair.residual = 0) ∧ ∀ norm ∈ r.norms, norm = 0
  ends : ∀ r ∈ p.rounds, r.space.size = n → p.rounds.getLast? = some r ∧
    ∃ solution, p.run.outcome = .ok solution ∧ solution.status = .converged ∧
      solution.iterations = r.index + 1 ∧ solution.roots.length = p.requested ∧
        solution.roots.map Root.value = (List.ofFn (orderedEigenvalue hf)).take p.requested
  room : ∀ r ∈ p.rounds, ¬ r.converged p.requested = true → r.space.size + 1 ≤ n

end Problem

namespace Solver

variable {solver : Solver ℝ} {op : LinearOperator ℝ} {f : Euclid op.rows →ₗ[ℝ] Euclid op.rows}

section Exact

variable (hd : solver.dense.TriangularExact) (hs : solver.dense.SymmetricExact)
  (hkind : solver.config.kind = .symmetric) (hop : op.ActsAs f) {draws : ℕ → ℝ}
  {requested guess : ℕ} {p : Problem ℝ op.rows}
  (h : solver.pose draws op requested guess = .ok p)

include hd hs hkind hop h

theorem resolves_of_pose {r : Round ℝ op.rows} (hr : r ∈ p.rounds) :
    r.extraction.Resolves f r.space.basis ∧ r.space.basis.IsOrthonormal := by
  have hp := poses_of_pose h
  rw [← hp.dense_eq] at hd hs
  rw [← hp.config_eq] at hkind
  obtain ⟨s, hlooks⟩ := p.exists_looks hd (hp.actsAs hop) r hr
  exact ⟨hlooks.resolves hs hkind, hlooks.tracks_space.orthonormal⟩

theorem norm_eq_zero_of_size_eq (hf : f.IsSymmetric) {r : Round ℝ op.rows} (hr : r ∈ p.rounds)
    (hsize : r.space.size = op.rows) : ∀ norm ∈ r.norms, norm = 0 := by
  obtain ⟨hresolves, horth⟩ := resolves_of_pose hd hs hkind hop h hr
  obtain ⟨s, -, hobserves⟩ := p.exists_observes r hr
  rw [hobserves.norms_eq]
  exact hresolves.residualNorm_eq_zero hf horth (horth.maps_of_size_eq hsize f)

theorem converged_of_size_eq (hf : f.IsSymmetric) {r : Round ℝ op.rows} (hr : r ∈ p.rounds)
    (hsize : r.space.size = op.rows) : r.converged p.requested = true := by
  have hp := poses_of_pose h
  obtain ⟨-, htracked, -, -⟩ := solver.config.settings_bounds hp.settings
  rw [← hp.requested_eq] at htracked
  have htolerance : 0 < p.config.tolerance := by
    rw [hp.config_eq]
    exact (Config.validate_eq_ok_iff.mp hp.valid).2.1.2
  obtain ⟨s, htracks, hobserves⟩ := p.exists_observes r hr
  refine hobserves.converged_of_norm_eq_zero htolerance (htracks ▸ htracked) ?_
    (norm_eq_zero_of_size_eq hd hs hkind hop h hf hr hsize)
  rw [(resolves_of_pose hd hs hkind hop h hr).1.length_eq]
  exact hp.requested_le.trans_eq hsize.symm

end Exact

/-- With exact factorizations an admitted request for a symmetric operator ends with the lowest
eigenvalues as soon as its search space is full. -/
theorem endsFull_of_pose (hd : solver.dense.TriangularExact) (hs : solver.dense.SymmetricExact)
    (hkind : solver.config.kind = .symmetric) (hop : op.ActsAs f) (hf : f.IsSymmetric)
    {draws : ℕ → ℝ} {requested guess : ℕ} {p : Problem ℝ op.rows}
    (h : solver.pose draws op requested guess = .ok p) :
    solver.solveWith draws op requested guess = p.run ∧ p.EndsFull hf := by
  refine ⟨solveWith_of_pose h, {
    reported := p.measurements_run
    residuals := ?_
    ends := ?_
    room := ?_ }⟩
  · intro r hr hsize
    obtain ⟨hresolves, horth⟩ := resolves_of_pose hd hs hkind hop h hr
    exact ⟨hresolves.residual_eq_zero hf horth (horth.maps_of_size_eq hsize f),
      norm_eq_zero_of_size_eq hd hs hkind hop h hf hr hsize⟩
  · intro r hr hsize
    obtain ⟨hresolves, horth⟩ := resolves_of_pose hd hs hkind hop h hr
    obtain ⟨hlast, houtcome⟩ := Problem.outcome_of_converged hr
      (converged_of_size_eq hd hs hkind hop h hf hr hsize)
    refine ⟨hlast, _, houtcome, rfl, rfl, ?_⟩
    have hrequested := (poses_of_pose h).requested_le
    obtain ⟨s, -, hobserves⟩ := p.exists_observes r hr
    have hvalues := hresolves.map_value_settle hf horth hsize r.space.flags p.requested
    rw [← hobserves.norms_eq] at hvalues
    have hlength := congrArg List.length hvalues
    rw [List.length_map, List.length_take_of_le (by rwa [List.length_ofFn])] at hlength
    exact ⟨hlength, hvalues⟩
  · intro r hr hnot
    have horth := (resolves_of_pose hd hs hkind hop h hr).2
    refine lt_of_le_of_ne horth.size_le fun hsize => hnot ?_
    exact converged_of_size_eq hd hs hkind hop h hf hr hsize

/-- A guess without noise that is as large as the operator fills the space in the first round. -/
theorem exists_full_round (hd : solver.dense.TriangularExact) (hs : solver.dense.SymmetricExact)
    (hkind : solver.config.kind = .symmetric) (hnoise : solver.config.guessNoise ≤ 0)
    (hop : op.ActsAs f) {draws : ℕ → ℝ} {requested guess : ℕ} {p : Problem ℝ op.rows}
    (h : solver.pose draws op requested guess = .ok p)
    (hguess : p.settings.initialGuess = op.rows) :
    ∃ r, p.roundAt 0 p.firstSpace = .ok r ∧ r.space.size = op.rows := by
  have hp := poses_of_pose h
  obtain ⟨hpos, havailable⟩ := solver.config.initialGuess_bounds hp.settings
  rw [← hp.dense_eq] at hd hs
  rw [← hp.config_eq] at hkind hnoise havailable
  have hsize : p.firstSpace.basis.size = p.settings.initialGuess :=
    Config.size_guess_of_noise_le hnoise p.dense p.draws p.diagonal havailable
  obtain ⟨r, hround⟩ := Problem.exists_roundAt hs hkind (hp.actsAs hop) 0
    (Problem.firstSpace_tracks hd) (hsize ▸ hpos)
  have hobserves := Problem.observes_of_roundAt hround
  exact ⟨r, hround, hobserves.size_eq.trans (hsize.trans hguess)⟩

/-- The matrix with columns `(2, 1)` and `(1, 2)`, and standard settings, whose guess has two
columns. -/
theorem endsFull_pair :
    let a : Square ℝ 2 := #v[#v[2, 1], #v[1, 2]]
    let op : LinearOperator ℝ := .ofBlock ⟨2, a.toArray⟩
    Solver.exact.dense.TriangularExact ∧ Solver.exact.dense.SymmetricExact ∧
      Solver.exact.config.kind = .symmetric ∧ op.ActsAs a.toLinearMap ∧
        ∃ (hf : a.toLinearMap.IsSymmetric) (p : Problem ℝ 2),
          Solver.exact.pose (fun _ => 0) op 1 0 = .ok p ∧
            (∃ r ∈ p.rounds, r.space.size = 2) ∧
              Solver.exact.solveWith (fun _ => 0) op 1 0 = p.run ∧ p.EndsFull hf := by
  intro a op
  have hd : Solver.exact.dense.TriangularExact := Factorizations.exact_triangularExact
  have hs : Solver.exact.dense.SymmetricExact := Factorizations.exact_symmetricExact
  have hop : op.ActsAs a.toLinearMap := LinearOperator.ofBlock_actsAs a
  have hsymm : a.IsSymmetric := by
    intro i j
    fin_cases i <;> fin_cases j <;> rfl
  have hf : a.toLinearMap.IsSymmetric := Square.toLinearMap_isSymmetric hsymm
  obtain ⟨p, hp⟩ := exists_pose_ofBlock exact_validate (fun _ => 0) a 0 one_pos
    (show 1 ≤ 2 by norm_num)
  have hsettings : Solver.exact.config.effectiveSettings 2 1 0 = .ok ⟨2, 1, 2⟩ := rfl
  have hguess : p.settings.initialGuess = 2 := by
    have hsame := hsettings.symm.trans (poses_of_pose hp).settings
    rw [← Except.ok.inj hsame]
  obtain ⟨r, hround, hsize⟩ := exists_full_round hd hs rfl le_rfl hop hp hguess
  exact ⟨hd, hs, rfl, hop, hf, p, hp, ⟨r, Problem.mem_rounds_of_roundAt hround, hsize⟩,
    endsFull_of_pose hd hs rfl hop hf hp⟩

end Solver

end SubspaceEigen
