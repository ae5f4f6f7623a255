import SubspaceEigen.Proofs.Comparison
import SubspaceEigen.Proofs.Solver.Outcome

/-!
# Reported maxima

A round and a solution report the largest of their residual norms.  The running maximum passes over
a norm that is undefined, whereas the flag of such a root is not set.  So a maximum below the
tolerance bounds the defined norms and says nothing about the others: it stands for convergence
exactly where no norm is undefined.
-/

namespace SubspaceEigen

variable {α : Type} [Scalar α]

namespace Problem

variable {n : ℕ} {p : Problem α n} {s : SearchSpace α n} {r : Round α n}

theorem Observes.convergedRoots_eq_iff (h : p.Observes s r) (measures : Bool) :
    (r.measurement measures).convergedRoots = (r.measurement measures).trackedRoots ↔
      ∀ norm ∈ r.norms.take r.tracked, norm < p.config.tolerance := by
  have htracked : r.tracked ≤ s.tracked := (min_le_left _ _).trans h.tracked_eq.le
  have hnorms : r.tracked ≤ r.norms.length := (min_le_right _ _).trans h.length_norms.ge
  have hlength : (r.space.flags.take r.tracked).length = r.tracked :=
    List.length_take_of_le (min_le_left _ _)
  calc
    (r.space.flags.take r.tracked).countP id = r.tracked ↔
        (r.space.flags.take r.tracked).countP id = (r.space.flags.take r.tracked).length := by
      rw [hlength]
    _ ↔ (r.space.flags.take r.tracked).all id = true := by
      rw [List.countP_eq_length, List.all_eq_true]
    _ ↔ ∀ norm ∈ r.norms.take r.tracked, norm < p.config.tolerance :=
      h.all_take_flags_iff htracked hnorms

/-- What the maxima of a run say.  A maximum is below the tolerance exactly if the defined norms
are; then the tracked roots of a round, or the requested roots of a solution, have converged exactly
if no norm among theirs is undefined. -/
structure Maxima (p : Problem α n) : Prop where
  reported : Journal.measurements p.run.events = p.rounds.map (·.measurement p.measuresBasis)
  round_lt_iff : ∀ r ∈ p.rounds,
    (r.measurement p.measuresBasis).maxResidual < p.config.tolerance ↔
      ∀ norm ∈ r.norms.take r.tracked, norm ≤ norm → norm < p.config.tolerance
  round_converged_iff : ∀ r ∈ p.rounds,
    (r.measurement p.measuresBasis).maxResidual < p.config.tolerance →
      ((r.measurement p.measuresBasis).convergedRoots =
          (r.measurement p.measuresBasis).trackedRoots ↔
        ∀ norm ∈ r.norms.take r.tracked, norm ≤ norm)
  solution_lt_iff : ∀ solution, p.run.outcome = .ok solution →
    (solution.maxResidual < p.config.tolerance ↔
      ∀ root ∈ solution.roots, root.residualNorm ≤ root.residualNorm →
        root.residualNorm < p.config.tolerance)
  solution_converged_iff : ∀ solution, p.run.outcome = .ok solution →
    solution.roots.length = p.requested → solution.maxResidual < p.config.tolerance →
      (solution.status = .converged ↔
        ∀ root ∈ solution.roots, root.residualNorm ≤ root.residualNorm)

end Problem

namespace Solver

variable [Scalar.Compares α] {solver : Solver α} {draws : ℕ → α} {op : LinearOperator α}
  {requested guess : ℕ} {p : Problem α op.rows}

/-- In an arithmetic whose comparisons keep to the laws of floating-point numbers, the maxima of an
admitted request say this much and no more. -/
theorem maxima_of_pose (h : solver.pose draws op requested guess = .ok p) :
    solver.solveWith draws op requested guess = p.run ∧ p.Maxima := by
  have hp := poses_of_pose h
  have hzero : (0 : α) ≤ 0 := Scalar.Compares.zero_le_zero
  have htolerance : 0 < p.config.tolerance := by
    rw [hp.config_eq]
    exact (Config.validate_eq_ok_iff.mp hp.valid).2.1.2
  refine ⟨solveWith_of_pose h, {
    reported := p.measurements_run
    round_lt_iff := ?_
    round_converged_iff := ?_
    solution_lt_iff := ?_
    solution_converged_iff := ?_ }⟩
  · intro r hr
    rw [Round.measurement, Scalar.foldl_max_lt_iff hzero, and_iff_right htolerance]
  · intro r hr hlt
    obtain ⟨s, -, hobserves⟩ := p.exists_observes r hr
    rw [hobserves.convergedRoots_eq_iff]
    exact Scalar.forall_lt_iff_of_foldl_max_lt hzero hlt
  · intro solution houtcome
    rw [Solution.maxResidual, Scalar.foldl_max_lt_iff hzero, and_iff_right htolerance,
      List.forall_mem_map]
  · intro solution houtcome hlength hlt
    have haccounts := hp.accounts houtcome
    have hflags : (∀ root ∈ solution.roots, root.converged = true) ↔
        ∀ root ∈ solution.roots, root.residualNorm < p.config.tolerance :=
      forall₂_congr haccounts.flag_iff
    have hdefined := Scalar.forall_lt_iff_of_foldl_max_lt hzero hlt
    rw [List.forall_mem_map, List.forall_mem_map] at hdefined
    rw [haccounts.status_iff, and_iff_right hlength, hflags, hdefined]

/-- On floating-point numbers, with the standard settings and factorizations. -/
theorem maxima_identity :
    let solver : Solver Binary64 := ⟨.standard, .standard, true, fun _ => 0⟩
    let a : Square Binary64 2 := Square.identity 2
    let op : LinearOperator Binary64 := .ofBlock ⟨2, a.toArray⟩
    Scalar.Compares Binary64 ∧ ∃ p : Problem Binary64 2,
      solver.pose (Noise.draw 0) op 1 0 = .ok p ∧
        solver.solveWith (Noise.draw 0) op 1 0 = p.run ∧ p.Maxima := by
  intro solver a op
  have hvalid : solver.config.validate = .ok () := Config.standard_validate
  obtain ⟨p, hp⟩ := exists_pose_ofBlock hvalid (Noise.draw 0) a 0 one_pos (show 1 ≤ 2 by norm_num)
  exact ⟨inferInstance, p, hp, maxima_of_pose hp⟩

def cutShort : Solver Binary64 :=
  ⟨{ (.standard : Config Binary64) with maxIterations := 1 }, .standard, true, fun _ => 0⟩

/-- The operator with the one entry `10³⁰⁸`, whose double is infinite. -/
def hugeOperator : LinearOperator Binary64 :=
  .ofBlock ⟨1, #[#v[1e308]]⟩

set_option maxRecDepth 100000 in
/-- The residual of the huge operator is undefined.  Its solution has the root that was requested and
a maximum below the tolerance, and so has its only round; neither has converged. -/
theorem maximum_hides_undefined_norm :
    (∃ solution, (cutShort.solve hugeOperator 1 0).outcome = .ok solution ∧
      solution.roots.length = 1 ∧ solution.maxResidual < cutShort.config.tolerance ∧
        solution.status ≠ .converged) ∧
    ∃ m ∈ Journal.measurements (cutShort.solve hugeOperator 1 0).events,
      m.maxResidual < cutShort.config.tolerance ∧ m.convergedRoots ≠ m.trackedRoots := by
  have houtcome : ((cutShort.solve hugeOperator 1 0).outcome.toOption.any fun solution =>
      solution.roots.length = 1 ∧ solution.maxResidual < cutShort.config.tolerance ∧
        solution.status ≠ .converged) = true := by
    decide +kernel
  have hmeasured : ((Journal.measurements (cutShort.solve hugeOperator 1 0).events).any fun m =>
      m.maxResidual < cutShort.config.tolerance ∧ m.convergedRoots ≠ m.trackedRoots) = true := by
    decide +kernel
  constructor
  · cases hsolve : (cutShort.solve hugeOperator 1 0).outcome with
    | error e =>
        rw [hsolve] at houtcome
        cases houtcome
    | ok solution =>
        rw [hsolve] at houtcome
        exact ⟨solution, rfl, of_decide_eq_true houtcome⟩
  · obtain ⟨m, hm, hhides⟩ := List.any_eq_true.mp hmeasured
    exact ⟨m, hm, of_decide_eq_true hhides⟩

end Solver

end SubspaceEigen
