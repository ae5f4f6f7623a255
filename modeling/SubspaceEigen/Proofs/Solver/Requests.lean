import SubspaceEigen.Proofs.Config.Validation
import SubspaceEigen.Proofs.Operator.Linear
import SubspaceEigen.Proofs.Solver.Rounds

/-!
# Admitted requests

What an admitted request has to do with the problem it poses, and the problem's run with the solve.
-/

namespace SubspaceEigen

/-- The sizes of a solve: as many roots are tracked as were requested, there is a guess vector for
each of them, and no more guess vectors than the operator can serve. -/
theorem Config.settings_bounds {α : Type} {c : Config α} {n requested guess : ℕ}
    {settings : EffectiveSettings} (h : c.effectiveSettings n requested guess = .ok settings) :
    0 < requested ∧ requested ≤ settings.trackedRoots ∧
      settings.trackedRoots ≤ settings.initialGuess ∧
        settings.initialGuess ≤ c.kind.available n := by
  unfold effectiveSettings at h
  simp only at h
  split at h
  · cases h
  split at h
  · cases h
  obtain rfl := Except.ok.inj h
  simp only
  omega

theorem Config.searchLimit_of_settings {α : Type} {c : Config α} {n requested guess : ℕ}
    {settings : EffectiveSettings} (h : c.effectiveSettings n requested guess = .ok settings) :
    settings.searchLimit = c.searchLimitFor n requested := by
  unfold effectiveSettings at h
  simp only at h
  split at h
  · cases h
  split at h
  · cases h
  obtain rfl := Except.ok.inj h
  rfl

theorem Config.initialGuess_bounds {α : Type} {c : Config α} {n requested guess : ℕ}
    {settings : EffectiveSettings} (h : c.effectiveSettings n requested guess = .ok settings) :
    0 < settings.initialGuess ∧ settings.initialGuess ≤ c.kind.available n := by
  obtain ⟨hpos, hrequested, htracked, havailable⟩ := c.settings_bounds h
  exact ⟨by omega, havailable⟩

theorem OperatorKind.available_le (kind : OperatorKind) (n : ℕ) : kind.available n ≤ n := by
  cases kind with
  | symmetric => exact le_rfl
  | hamiltonian => exact Nat.sub_le _ _

theorem Config.exists_settings {α : Type} (c : Config α) {n requested : ℕ} (guess : ℕ)
    (hpos : 0 < requested) (hle : requested ≤ c.kind.available n) :
    ∃ settings, c.effectiveSettings n requested guess = .ok settings := by
  unfold effectiveSettings
  rw [if_neg (Nat.ne_of_gt hpos), if_neg (Nat.not_lt.mpr hle)]
  exact ⟨_, rfl⟩

theorem LinearOperator.exists_diagonal_ofBlock {α : Type} [Scalar α] {n : ℕ} (a : Square α n) :
    ∃ d, (ofBlock ⟨n, a.toArray⟩).diagonal = .ok d ∧ d.size = n := by
  simp [ofBlock, Block.diagonal, Block.toSquare?, Block.squareOf?]

namespace Solver

variable {α : Type} [Scalar α] {solver : Solver α} {draws : ℕ → α} {op : LinearOperator α}
  {requested guess : ℕ}

/-- The problem has the solver's settings and the request's operator and sizes, all of them checked.
-/
structure Poses (solver : Solver α) (draws : ℕ → α) (op : LinearOperator α) (requested guess : ℕ)
    (p : Problem α op.rows) : Prop where
  valid : solver.config.validate = .ok ()
  square : op.cols = op.rows
  settings : solver.config.effectiveSettings op.rows requested guess = .ok p.settings
  config_eq : p.config = solver.config
  dense_eq : p.dense = solver.dense
  operator_eq : p.operator = op
  draws_eq : p.draws = draws
  requested_eq : p.requested = requested

theorem poses_and_diagonal_of_pose {p : Problem α op.rows}
    (h : solver.pose draws op requested guess = .ok p) :
    solver.Poses draws op requested guess p ∧ op.diagonal = .ok p.diagonal.toArray := by
  unfold pose at h
  simp only [bind, Except.bind, pure, Except.pure, throw, throwThe, MonadExceptOf.throw] at h
  split at h
  · cases h
  next hvalid =>
  split at h
  · cases h
  next hsquare =>
  split at h
  · cases h
  next d hdiagonal =>
  split at h
  swap
  · cases h
  next hsize =>
  split at h
  · cases h
  next settings hsettings =>
  obtain rfl := Except.ok.inj h
  refine ⟨{
    valid := hvalid
    square := not_not.mp hsquare
    settings := hsettings
    config_eq := rfl
    dense_eq := rfl
    operator_eq := rfl
    draws_eq := rfl
    requested_eq := rfl }, hdiagonal⟩

theorem poses_of_pose {p : Problem α op.rows}
    (h : solver.pose draws op requested guess = .ok p) :
    solver.Poses draws op requested guess p :=
  (poses_and_diagonal_of_pose h).1

theorem Poses.requested_le {p : Problem α op.rows} (h : solver.Poses draws op requested guess p) :
    p.requested ≤ op.rows := by
  obtain ⟨-, htracked, hguess, havailable⟩ := solver.config.settings_bounds h.settings
  rw [h.requested_eq]
  exact htracked.trans (hguess.trans (havailable.trans (OperatorKind.available_le _ _)))

theorem Poses.actsAs {solver : Solver ℝ} {draws : ℕ → ℝ} {op : LinearOperator ℝ}
    {p : Problem ℝ op.rows} (h : solver.Poses draws op requested guess p)
    {f : Euclid op.rows →ₗ[ℝ] Euclid op.rows} (hop : op.ActsAs f) : p.operator.ActsAs f := by
  rw [h.operator_eq]
  exact hop

/-- What the checks of a request yield, the diagonal and the sizes of a solve.  They look at the
shape of an operator and at its diagonal, and not at its action. -/
def check (solver : Solver α) (rows cols : ℕ) (diagonal : Except Fault (Array α))
    (requested guess : ℕ) : Except (Failure α) (Vector α rows × EffectiveSettings) :=
  match solver.config.validate with
  | .error e => .error (.error e)
  | .ok () =>
    if cols ≠ rows then .error (.error (.operator (.notSquare .operator rows cols)))
    else
      match diagonal with
      | .error f => .error (.fault f)
      | .ok d =>
        if h : d.size = rows then
          match solver.config.effectiveSettings rows requested guess with
          | .error e => .error (.error e)
          | .ok settings => .ok (⟨d, h⟩, settings)
        else .error (.error (.operator (.dimensionMismatch .diagonal rows d.size)))

/-- The problem of a request in dimension `n`, from what the checks have yielded. -/
def problemOf {n : ℕ} (solver : Solver α) (draws : ℕ → α) (op : LinearOperator α) (requested : ℕ)
    (checked : Vector α n × EffectiveSettings) : Problem α n where
  config := solver.config
  dense := solver.dense
  operator := op
  diagonal := checked.1
  draws := draws
  requested := requested
  settings := checked.2
  measuresBasis := solver.measuresBasis
  clock := solver.clock

theorem pose_eq_check (solver : Solver α) (draws : ℕ → α) (op : LinearOperator α)
    (requested guess : ℕ) :
    solver.pose draws op requested guess =
      (solver.check op.rows op.cols op.diagonal requested guess).map
        (solver.problemOf draws op requested) := by
  simp only [pose, check, bind, Except.bind, pure, Except.pure, throw, throwThe,
    MonadExceptOf.throw]
  cases solver.config.validate with
  | error e => rfl
  | ok _ =>
      by_cases hsquare : op.cols ≠ op.rows
      · simp only [if_pos hsquare]
        rfl
      simp only [if_neg hsquare]
      cases op.diagonal with
      | error f => rfl
      | ok d =>
          by_cases hsize : d.size = op.rows
          · simp only [dif_pos hsize]
            cases solver.config.effectiveSettings op.rows requested guess <;> rfl
          · simp only [dif_neg hsize]
            rfl

theorem solveWith_of_pose {p : Problem α op.rows}
    (h : solver.pose draws op requested guess = .ok p) :
    solver.solveWith draws op requested guess = p.run := by
  rw [solveWith, h]

/-- Only an admitted request has a solution. -/
theorem exists_pose_of_outcome {solution : Solution α op.rows}
    (h : (solver.solveWith draws op requested guess).outcome = .ok solution) :
    ∃ p, solver.pose draws op requested guess = .ok p ∧ p.run.outcome = .ok solution := by
  unfold solveWith at h
  split at h
  · cases h
  · next p hp => exact ⟨p, hp, h⟩

/-- Every request within bounds is admitted for a dense square matrix. -/
theorem exists_pose_ofBlock (hvalid : solver.config.validate = .ok ()) (draws : ℕ → α) {n : ℕ}
    (a : Square α n) (guess : ℕ) (hpos : 0 < requested)
    (hle : requested ≤ solver.config.kind.available n) :
    ∃ p, solver.pose draws (.ofBlock ⟨n, a.toArray⟩) requested guess = .ok p := by
  obtain ⟨settings, hsettings⟩ := solver.config.exists_settings guess hpos hle
  obtain ⟨d, hdiagonal, hsize⟩ := LinearOperator.exists_diagonal_ofBlock a
  have hcheck : solver.check n a.toArray.size (.ok d) requested guess =
      .ok (⟨d, hsize⟩, settings) := by
    simp [check, hvalid, hsize, hsettings]
  rw [pose_eq_check, hdiagonal]
  exact ⟨_, congrArg _ hcheck⟩

end Solver

end SubspaceEigen
