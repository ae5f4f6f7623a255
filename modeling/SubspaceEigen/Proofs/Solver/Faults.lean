import SubspaceEigen.Proofs.Ritz.Conjugates
import SubspaceEigen.Proofs.Solver.Noise
import SubspaceEigen.Proofs.Solver.Products
import SubspaceEigen.Proofs.Solver.Refusals
import SubspaceEigen.Proofs.Solver.Restarts

/-!
# Where a solve leaves its domain

In exact arithmetic every space of a solve keeps images that fit its basis, so that all that is read
of columns, norms and flags is there.  The one operation outside its domain is the symmetric
extraction from a space without columns.  No round comes to such a space from one that has columns,
but the noise of the guess may leave none to begin with.
-/

namespace SubspaceEigen

open Column SearchSpace

theorem Extraction.order_of_ofReduced {α : Type} [Scalar α] {n : ℕ} {s : SearchSpace α n}
    {order : ℕ} {reduced : List (α × Vector α order)} {e : Extraction α n}
    (h : ofReduced s reduced = .ok e) : e.order = s.basis.size := by
  unfold ofReduced at h
  split at h
  · next hsizes =>
    obtain rfl := Except.ok.inj h
    exact hsizes.1
  · cases h

namespace Problem

section Rounds

variable {n : ℕ} {p : Problem ℝ n} {f : Euclid n →ₗ[ℝ] Euclid n} {s : SearchSpace ℝ n}

/-- The only fault of a round on a tracked space is a symmetric eigenproblem without rows. -/
theorem roundAt_eq_fault_iff (hs : p.dense.SymmetricExact) (hop : p.operator.ActsAs f)
    (h : Tracks f s) (index : ℕ) (fault : Fault) :
    p.roundAt index s = .error (.fault fault) ↔
      fault = .noEigenproblem ∧ p.config.kind = .symmetric ∧ s.basis.size = 0 := by
  have hround : p.roundAt index s = .error (.fault fault) ↔
      p.extract (s.refreshed f) = .error (.fault fault) := by
    simp only [roundAt, update_eq h hop, examine]
    cases p.extract (s.refreshed f) with
    | error e => simp
    | ok extracted => simp
  rw [hround, extract]
  cases p.config.kind with
  | hamiltonian =>
      simpa using harmonicRitz_refreshed_ne_fault s f fault
  | symmetric =>
      rcases Nat.eq_zero_or_pos s.basis.size with hzero | hpos
      · simp only [plainRitz_refreshed_of_empty hzero]
        simp [hzero, eq_comm]
      · obtain ⟨e, he, -⟩ := plainRitz_refreshed (f := f) hs h.orthonormal hpos
        simp [he, hpos.ne']

/-- Every space with which a round begins is tracked, also that of a round that fails. -/
theorem tracks_spaceAt (hd : p.dense.TriangularExact) (hop : p.operator.ActsAs f) {i : ℕ}
    (hi : i ≤ p.rounds.length) : Tracks f (p.spaceAt i) := by
  induction i with
  | zero => exact firstSpace_tracks hd
  | succ i ih =>
      have hr : p.rounds[i]? = some p.rounds[i] := List.getElem?_eq_getElem hi
      rw [spaceAt_succ hr]
      exact advance_tracks hd
        (looks_of_roundAt hop (ih (by omega)) (roundAt_spaceAt hr)).tracks_space

/-- A solve of an admitted request faults exactly if it is symmetric and begins with nothing. -/
theorem outcome_eq_fault_iff (hd : p.dense.TriangularExact) (hs : p.dense.SymmetricExact)
    (hop : p.operator.ActsAs f) (hguess : 0 < p.settings.initialGuess) (fault : Fault) :
    p.run.outcome = .error (.fault fault) ↔
      fault = .noEigenproblem ∧ p.config.kind = .symmetric ∧ p.firstSpace.basis.size = 0 := by
  constructor
  · intro h
    obtain ⟨run, hrun, hprun⟩ := p.unfolds_run
    have hlast : p.spaceAfter p.firstSpace p.rounds = p.spaceAt p.rounds.length := by
      rw [spaceAt, List.take_length]
    rw [hprun] at h
    have hfailed := hrun.roundAt_of_error h
    rw [hlast, roundAt_eq_fault_iff hs hop (tracks_spaceAt hd hop le_rfl)] at hfailed
    refine ⟨hfailed.1, hfailed.2.1, ?_⟩
    by_contra hpos
    obtain ⟨solution, hsolution⟩ :=
      exists_outcome hd hs hfailed.2.1 hop hguess (Nat.pos_of_ne_zero hpos)
    rw [hprun] at hsolution
    cases hsolution.symm.trans h
  · intro hempty
    have hround := (roundAt_eq_fault_iff hs hop (firstSpace_tracks hd) 0 fault).mpr hempty
    rw [run, iterate_of_error hround]
    rfl

end Rounds

section Ranges

variable {n : ℕ} {p : Problem ℝ n} {f : Euclid n →ₗ[ℝ] Euclid n} {s : SearchSpace ℝ n}
  {r : Round ℝ n}

/-- What is read before the first round is there: the number of tracked roots is kept between two
bounds in their order, and the guess takes existing positions of a ranking of existing entries. -/
structure BeginsInRange (p : Problem ℝ n) : Prop where
  requested_le : p.requested ≤ p.settings.initialGuess
  guess_le : p.config.kind.guessOffset n + p.settings.initialGuess ≤
    (ranking p.diagonal.toList).length
  ranked_lt : ∀ k ∈ ranking p.diagonal.toList, k < n

/-- The images that count as formed are there, and the pending columns are columns of the basis. -/
structure ImagesInRange (s : SearchSpace ℝ n) : Prop where
  computed_le : s.computed ≤ s.basis.size
  image_le : s.computed ≤ s.image.size
  second_le : ∀ kept ∈ s.second, s.computed ≤ kept.size

/-- What a round reads and puts together fits: products of the basis with its images and with the
reduced vectors, norms and flags up to the tracked roots, flags up to the requested ones, the columns
that an extension adds and the ones that a restart takes over. -/
structure RoundInRange (p : Problem ℝ n) (r : Round ℝ n) : Prop where
  image_eq : r.space.image.size = r.space.basis.size
  second_eq : ∀ kept ∈ r.space.second, kept.size = r.space.basis.size
  projected_eq : r.space.projected.rows = r.space.basis.size ∧
    r.space.projected.cols = r.space.basis.size
  order_eq : r.extraction.order = r.space.basis.size
  norms_eq : r.norms.length = r.extraction.pairs.length
  tracked_le : r.tracked ≤ r.norms.length ∧ r.tracked ≤ r.space.flags.length
  requested_le : p.requested ≤ r.space.flags.length
  corrections_le : (p.corrections r).size ≤ n - r.space.basis.size
  grows : r.space.basis.size ≤ (p.enlarge r).1.basis.size
  fresh_le : (p.enlarge r).2 ≤ (p.enlarge r).1.basis.size
  size_le : (p.enlarge r).1.basis.size ≤ n ∧ (p.advance r).1.basis.size ≤ n

/-- The indices of conjugate pairs of a pencil of the space are those of its eigenpairs. -/
def ConjugatesInRange (p : Problem ℝ n) (s : SearchSpace ℝ n) : Prop :=
  ∀ metric pairs conjugates, generalizedEigen p.dense s.projected metric = some pairs →
    pairConjugates (pairs.map ComplexEigenpair.value) = .ok conjugates →
      ∀ pair ∈ conjugates, pair.1 < pairs.length ∧ pair.2 < pairs.length

/-- Nothing that is not there is read before the first round, at the beginning of any round, also of
one that fails, and in any round that succeeds. -/
structure StaysInRange (p : Problem ℝ n) : Prop where
  begins : p.BeginsInRange
  images : ∀ i ≤ p.rounds.length, ImagesInRange (p.spaceAt i)
  rounds : ∀ r ∈ p.rounds, p.RoundInRange r
  conjugates : ∀ i ≤ p.rounds.length, ∀ updated,
    ((p.spaceAt i).update p.operator).outcome = .ok updated → p.ConjugatesInRange updated

theorem imagesInRange_of_tracks (h : Tracks f s) : ImagesInRange s where
  computed_le := h.computed_le
  image_le := h.image.computed_le
  second_le kept hkept := (h.second kept hkept).computed_le

theorem conjugatesInRange (p : Problem ℝ n) (s : SearchSpace ℝ n) : p.ConjugatesInRange s := by
  intro metric pairs conjugates _ hconjugates pair hpair
  simpa using pairConjugates_lt hconjugates pair hpair

theorem Looks.roundInRange (hd : p.dense.TriangularExact) (h : p.Looks f s r)
    (hrequested : p.requested ≤ r.space.tracked) : p.RoundInRange r := by
  have htracks := h.tracks_space
  obtain ⟨happend, hcount⟩ := enlarge_append hd htracks.orthonormal
  have hsize : (p.enlarge r).1.basis.size = r.space.basis.size + (p.added r).size := by
    rw [happend, Array.size_append]
  have hnorms : r.norms.length = r.extraction.pairs.length := by
    rw [h.norms_eq, Extraction.residualNorms, List.length_map]
  have hbasis : r.space.basis = s.basis := h.basis_eq
  exact {
    image_eq := by
      rw [h.space_eq]
      exact Array.size_map
    second_eq := by
      intro kept hkept
      rw [h.space_eq] at hkept
      obtain ⟨_, -, rfl⟩ := Option.mem_map.mp hkept
      rw [hbasis, Array.size_map]
    projected_eq := by
      rw [h.space_eq]
      exact ⟨rfl, Array.size_ofFn⟩
    order_eq := by
      obtain ⟨order, reduced, hreduced⟩ := exists_reduced_of_extract h.extract_eq
      have horder : r.extraction.order = (s.refreshed f).basis.size :=
        Extraction.order_of_ofReduced hreduced
      rwa [hbasis]
    norms_eq := hnorms
    tracked_le := ⟨(min_le_right _ _).trans hnorms.ge, min_le_left _ _⟩
    requested_le := hrequested
    corrections_le := (p.size_corrections_le r).trans (min_le_left _ _)
    grows := by omega
    fresh_le := by omega
    size_le := ⟨(enlarge_tracks hd htracks).orthonormal.size_le,
      (advance_tracks hd htracks).orthonormal.size_le⟩ }

end Ranges

end Problem

namespace Solver

variable {solver : Solver ℝ} {op : LinearOperator ℝ} {f : Euclid op.rows →ₗ[ℝ] Euclid op.rows}
  {draws : ℕ → ℝ} {requested guess : ℕ} {p : Problem ℝ op.rows}

/-- An admitted request reads nothing that is not there. -/
theorem Poses.staysInRange (hp : solver.Poses draws op requested guess p)
    (hd : solver.dense.TriangularExact) (hop : op.ActsAs f) : p.StaysInRange := by
  obtain ⟨-, htracked, hguess, havailable⟩ := solver.config.settings_bounds hp.settings
  have hacts := hp.actsAs hop
  rw [← hp.dense_eq] at hd
  rw [← hp.config_eq] at havailable
  rw [← hp.requested_eq] at htracked
  have hranking := ranking_perm p.diagonal.toList
  rw [Vector.length_toList] at hranking
  exact {
    begins := {
      requested_le := htracked.trans hguess
      guess_le := by
        rw [hranking.length_eq, List.length_range]
        cases hkind : p.config.kind with
        | symmetric =>
            rw [hkind] at havailable
            simpa [OperatorKind.guessOffset, OperatorKind.available] using havailable
        | hamiltonian =>
            rw [hkind] at havailable
            simp only [OperatorKind.guessOffset, OperatorKind.available] at havailable ⊢
            omega
      ranked_lt := fun k hk => List.mem_range.mp (hranking.mem_iff.mp hk) }
    images := fun i hi => Problem.imagesInRange_of_tracks (Problem.tracks_spaceAt hd hacts hi)
    rounds := by
      intro r hr
      obtain ⟨s, hlooks⟩ := Problem.exists_looks hd hacts r hr
      obtain ⟨s', hs', hobserves⟩ := p.exists_observes r hr
      refine hlooks.roundInRange hd ?_
      rw [hobserves.tracked_eq, hs']
      exact htracked
    conjugates := fun i hi updated hupdated => p.conjugatesInRange updated }

/-- The request is admitted for a symmetric operator, and no column is left of its guess. -/
def BeginsEmpty (solver : Solver ℝ) (draws : ℕ → ℝ) (op : LinearOperator ℝ)
    (requested guess : ℕ) : Prop :=
  ∃ p, solver.pose draws op requested guess = .ok p ∧ p.config.kind = .symmetric ∧
    p.firstSpace.basis.size = 0

theorem pose_ne_fault {d : Array ℝ} (hdiagonal : op.diagonal = .ok d) (fault : Fault) :
    solver.pose draws op requested guess ≠ .error (.fault fault) := by
  intro h
  have hfirst := (solver.settles_pose draws op requested guess _).mp h
  simp [objections, Config.objections, shapeObjections, OperatorKind.objections, hdiagonal] at hfirst

theorem outcome_eq_fault_iff (hd : solver.dense.TriangularExact)
    (hs : solver.dense.SymmetricExact) (hop : op.ActsAs f) {d : Array ℝ}
    (hdiagonal : op.diagonal = .ok d) (draws : ℕ → ℝ) (requested guess : ℕ) (fault : Fault) :
    (solver.solveWith draws op requested guess).outcome = .error (.fault fault) ↔
      fault = .noEigenproblem ∧ solver.BeginsEmpty draws op requested guess := by
  cases hpose : solver.pose draws op requested guess with
  | error e =>
      have hne : e ≠ .fault fault := fun he => pose_ne_fault hdiagonal fault (he ▸ hpose)
      simp [solveWith, BeginsEmpty, hpose, hne]
  | ok p =>
      have hp := poses_of_pose hpose
      have hguess := (solver.config.initialGuess_bounds hp.settings).1
      rw [← hp.dense_eq] at hd hs
      rw [solveWith_of_pose hpose, Problem.outcome_eq_fault_iff hd hs (hp.actsAs hop) hguess]
      simp [BeginsEmpty, hpose]

/-- With an amplitude below one no request begins with nothing. -/
theorem not_beginsEmpty (hd : solver.dense.TriangularExact) (hdraws : ∀ k, 0 ≤ draws k)
    (hnoise : solver.config.guessNoise < 1) : ¬ solver.BeginsEmpty draws op requested guess := by
  rintro ⟨p, hpose, -, hzero⟩
  have hp := poses_of_pose hpose
  obtain ⟨hguess, havailable⟩ := solver.config.initialGuess_bounds hp.settings
  rw [← hp.dense_eq] at hd
  rw [← hp.config_eq] at hnoise havailable
  rw [← hp.draws_eq] at hdraws
  have hpos : 0 < p.firstSpace.basis.size :=
    p.config.size_guess_pos hd hnoise hdraws p.diagonal hguess havailable
  omega

/-- With an amplitude below one the draws of no seed lead out of the domain. -/
theorem solve_ne_fault (hd : solver.dense.TriangularExact) (hs : solver.dense.SymmetricExact)
    (hop : op.ActsAs f) {d : Array ℝ} (hdiagonal : op.diagonal = .ok d)
    (hnoise : solver.config.guessNoise < 1) (requested guess : ℕ) (fault : Fault) :
    (solver.solve op requested guess).outcome ≠ .error (.fault fault) := by
  intro h
  obtain ⟨-, hempty⟩ := (outcome_eq_fault_iff hd hs hop hdiagonal _ requested guess fault).mp h
  exact not_beginsEmpty hd (fun k => (Noise.draw_mem solver.config.seed k).1) hnoise hempty

/-- With any other amplitude some draws leave nothing of the guess of an admitted request. -/
theorem exists_beginsEmpty (hd : solver.dense.TriangularExact)
    (hkind : solver.config.kind = .symmetric) (hnoise : 1 ≤ solver.config.guessNoise)
    (hnone : Objection.None (solver.objections op.rows op.cols op.diagonal requested))
    (guess : ℕ) :
    ∃ draws : ℕ → ℝ, (∀ k, 0 ≤ draws k ∧ draws k < 1) ∧
      solver.BeginsEmpty draws op requested guess := by
  obtain ⟨checked, hchecked⟩ :=
    (solver.settles_check op.rows op.cols op.diagonal requested guess).exists_ok_iff.mpr hnone
  obtain ⟨draws, hdraws, hempty⟩ := solver.config.exists_draws_guess_eq_empty hd hnoise checked.1
    checked.2.initialGuess
  refine ⟨draws, hdraws, solver.problemOf draws op requested checked, ?_, hkind, ?_⟩
  · rw [pose_eq_check, hchecked]
    rfl
  · have hbasis : (solver.problemOf draws op requested checked).firstSpace.basis = #[] := hempty
    rw [hbasis]
    rfl

/-- Where a solve in exact arithmetic leaves the domain of its operations.  It does so only in the
symmetric eigenproblem without rows, when no column is left of its guess, and reads nothing else that
is not there.  Some draws of the unit interval bring that about exactly if the operator is symmetric,
the request admitted, and the amplitude of the noise not below one. -/
theorem faults_only_without_guess (hd : solver.dense.TriangularExact)
    (hs : solver.dense.SymmetricExact) (hop : op.ActsAs f) {d : Array ℝ}
    (hdiagonal : op.diagonal = .ok d) (requested guess : ℕ) :
    (∀ draws : ℕ → ℝ,
      (∀ fault, (solver.solveWith draws op requested guess).outcome = .error (.fault fault) ↔
        fault = .noEigenproblem ∧ solver.BeginsEmpty draws op requested guess) ∧
      ∀ p, solver.pose draws op requested guess = .ok p → p.StaysInRange) ∧
    ((∀ draws : ℕ → ℝ, (∀ k, 0 ≤ draws k ∧ draws k < 1) →
        ∀ fault, (solver.solveWith draws op requested guess).outcome ≠ .error (.fault fault)) ↔
      (solver.config.kind = .symmetric →
        Objection.None (solver.objections op.rows op.cols op.diagonal requested) →
          solver.config.guessNoise < 1)) := by
  refine ⟨fun draws => ⟨fun fault => outcome_eq_fault_iff hd hs hop hdiagonal draws requested guess
    fault, fun p hp => (poses_of_pose hp).staysInRange hd hop⟩, ?_⟩
  constructor
  · intro hsafe hkind hnone
    by_contra hnoise
    obtain ⟨draws, hdraws, hempty⟩ :=
      exists_beginsEmpty hd hkind (not_lt.mp hnoise) hnone guess
    exact hsafe draws hdraws .noEigenproblem
      ((outcome_eq_fault_iff hd hs hop hdiagonal draws requested guess _).mpr ⟨rfl, hempty⟩)
  · intro hnoise draws hdraws fault hfault
    obtain ⟨-, p, hpose, hkind, hzero⟩ :=
      (outcome_eq_fault_iff hd hs hop hdiagonal draws requested guess fault).mp hfault
    have hsymmetric : solver.config.kind = .symmetric := by
      rwa [← (poses_of_pose hpose).config_eq]
    have hnone := (solver.settles_pose draws op requested guess).exists_ok_iff.mp ⟨p, hpose⟩
    exact not_beginsEmpty hd (fun k => (hdraws k).1) (hnoise hsymmetric hnone)
      ⟨p, hpose, hkind, hzero⟩

/-- In exact arithmetic without noise, for the matrix with columns `(1, 1)` and `(0, 2)`: whatever the
draws, the solve stays within the domain of its operations. -/
theorem faults_only_without_guess_shear :
    let a : Square ℝ 2 := #v[#v[1, 1], #v[0, 2]]
    let op : LinearOperator ℝ := .ofBlock ⟨2, a.toArray⟩
    Solver.exact.dense.TriangularExact ∧ Solver.exact.dense.SymmetricExact ∧
      op.ActsAs a.toLinearMap ∧ (∃ d, op.diagonal = .ok d) ∧
        ∀ draws : ℕ → ℝ, (∀ k, 0 ≤ draws k ∧ draws k < 1) →
          ∀ fault, (Solver.exact.solveWith draws op 1 0).outcome ≠ .error (.fault fault) := by
  intro a op
  have hop : op.ActsAs a.toLinearMap := LinearOperator.ofBlock_actsAs a
  have hd : Solver.exact.dense.TriangularExact := Factorizations.exact_triangularExact
  have hs : Solver.exact.dense.SymmetricExact := Factorizations.exact_symmetricExact
  obtain ⟨d, hdiagonal, -⟩ := LinearOperator.exists_diagonal_ofBlock a
  have hnoise : Solver.exact.config.guessNoise < 1 := zero_lt_one
  exact ⟨hd, hs, hop, ⟨d, hdiagonal⟩,
    (faults_only_without_guess hd hs hop hdiagonal 1 0).2.mpr fun _ _ => hnoise⟩

/-- The exact solver with noise of amplitude one. -/
noncomputable def exactNoisy : Solver ℝ :=
  { Solver.exact with config := { Solver.exact.config with guessNoise := 1 } }

/-- Standard settings on floating-point numbers, with a seed whose first draw cancels an entry one
exactly under the amplitude `5.39990065562709`. -/
def noisy : Solver Binary64 :=
  ⟨{ (.standard : Config Binary64) with guessNoise := ⟨0x4015997f8eb644ed⟩, seed := 24 },
    .standard, true, fun _ => 0⟩

theorem exactNoisy_validate : exactNoisy.config.validate = .ok () := by
  obtain ⟨hrounds, htolerance, hlimit, -, -⟩ := Config.validate_eq_ok_iff.mp exact_validate
  exact Config.validate_eq_ok_iff.mpr ⟨hrounds, htolerance, hlimit, rfl, zero_le_one⟩

/-- In one dimension draws of zero cancel the entry of every coordinate vector. -/
theorem point_perturb_one_row (kind : OperatorKind) (diagonal : Vector ℝ 1) (size : ℕ)
    {x : Vector ℝ 1} (hx : x ∈ Noise.perturb 1 (fun _ => 0) (unitGuess kind diagonal size)) :
    point x = 0 := by
  obtain ⟨j, hj, rfl⟩ := Array.getElem_of_mem hx
  have hunits : j < (unitGuess kind diagonal size).size := by rwa [Noise.size_perturb] at hj
  obtain ⟨k, hk, hunit⟩ :=
    exists_unit_of_mem_unitGuess kind diagonal size (Array.getElem_mem hunits)
  obtain rfl : k = 0 := Nat.lt_one_iff.mp hk
  ext i
  obtain rfl : i = 0 := Subsingleton.elim i 0
  change (Noise.perturb 1 (fun _ => 0) (unitGuess kind diagonal size))[j][0] = 0
  rw [Noise.getElem_perturb _ _ hunits one_pos, hunit, Column.unit, Vector.getElem_ofFn,
    if_pos rfl]
  norm_num

set_option maxRecDepth 100000 in
/-- A configuration that is accepted, and a matrix of one row: in exact arithmetic with draws of zero,
and on floating-point numbers with the draws of a seed, the solve ends in an eigenproblem without
rows. -/
theorem fault_of_cancelled_guess :
    (exactNoisy.config.validate = .ok () ∧
      (exactNoisy.solveWith (fun _ => 0) (.ofBlock ⟨1, #[#v[5]]⟩) 1 0).outcome =
        .error (.fault .noEigenproblem)) ∧
    noisy.config.defect?.isNone = true ∧
      (noisy.solve (.ofBlock ⟨1, #[#v[5]]⟩) 1 0).outcome = .error (.fault .noEigenproblem) := by
  refine ⟨⟨exactNoisy_validate, ?_⟩, by decide +kernel, ?_⟩
  · have hd : exactNoisy.dense.TriangularExact := Factorizations.exact_triangularExact
    have hs : exactNoisy.dense.SymmetricExact := Factorizations.exact_symmetricExact
    let a : Square ℝ 1 := #v[#v[5]]
    obtain ⟨p, hpose⟩ :=
      exists_pose_ofBlock exactNoisy_validate (fun _ => 0) a 0 one_pos (le_refl 1)
    have hp := poses_of_pose hpose
    refine (outcome_eq_fault_iff hd hs (LinearOperator.ofBlock_actsAs a) rfl _ 1 0 _).mpr
      ⟨rfl, p, hpose, by rw [hp.config_eq]; rfl, ?_⟩
    have hempty : p.config.guess p.dense p.draws p.diagonal p.settings.initialGuess = #[] := by
      rw [hp.config_eq, hp.dense_eq, hp.draws_eq]
      refine Config.guess_eq_empty hd one_pos fun x hx => ?_
      exact point_perturb_one_row _ _ _ hx
    exact congrArg Array.size hempty
  · have hfault : (match (noisy.solve (.ofBlock ⟨1, #[#v[5]]⟩) 1 0).outcome with
        | .error (.fault fault) => decide (fault = .noEigenproblem)
        | _ => false) = true := by
      decide +kernel
    split at hfault
    · next fault houtcome => rw [houtcome, of_decide_eq_true hfault]
    · cases hfault

end Solver

end SubspaceEigen
