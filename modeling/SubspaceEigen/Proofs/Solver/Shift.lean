import SubspaceEigen.Proofs.Ritz.Shift
import SubspaceEigen.Proofs.SearchSpace.Update
import SubspaceEigen.Proofs.Solver.Restarts

/-!
# Solving a shifted operator

In symmetric mode a solve of `A + σ` goes through the same rounds as one of `A`.  The two keep
different images and find values that differ by `σ`; in everything else that a round computes, the
shift cancels.  The guess only ranks the diagonal, residuals contain value and operator alike, and
corrections depend on the differences of values and diagonal entries.
-/

namespace SubspaceEigen

open Column SearchSpace

variable {n : ℕ} {f : Euclid n →ₗ[ℝ] Euclid n} {σ : ℝ}

theorem ranking_shift (values : List ℝ) (σ : ℝ) :
    ranking (values.map (· + σ)) = ranking values := by
  rw [ranking, List.zipIdx_map,
    sortedBy_map Prod.fst Prod.fst fun a b => ranksBefore_add a.1 b.1 σ, List.map_map]
  rfl

theorem unitGuess_shift (kind : OperatorKind) (diagonal : Vector ℝ n) (σ : ℝ) (size : ℕ) :
    unitGuess kind (diagonal.map (· + σ)) size = unitGuess kind diagonal size := by
  rw [unitGuess, Vector.toList_map, ranking_shift, unitGuess]

namespace Correction

theorem precondition_shift (x : Vector ℝ n) (value σ : ℝ) (diagonal : Vector ℝ n) :
    precondition x (value + σ) (diagonal.map (· + σ)) = precondition x value diagonal := by
  ext i hi
  simp [precondition]

theorem direction_shift (scheme : CorrectionScheme) (residual vector : Vector ℝ n) (value σ : ℝ)
    (diagonal : Vector ℝ n) :
    direction scheme residual vector (value + σ) (diagonal.map (· + σ)) =
      direction scheme residual vector value diagonal := by
  unfold direction
  rw [precondition_shift, precondition_shift]

end Correction

noncomputable def Root.shift (σ : ℝ) (root : Root ℝ n) : Root ℝ n :=
  { root with value := root.value + σ }

noncomputable def Solution.shift (σ : ℝ) (s : Solution ℝ n) : Solution ℝ n :=
  { s with roots := s.roots.map (Root.shift σ) }

noncomputable def Run.shift (σ : ℝ) (run : Run ℝ n) : Run ℝ n :=
  { run with outcome := run.outcome.map (Solution.shift σ) }

theorem Solution.settle_shift {order : ℕ} (pairs : List (RitzPair ℝ n order)) (norms : List ℝ)
    (flags : List Bool) (requested : ℕ) (σ : ℝ) :
    settle (pairs.map (RitzPair.shift σ)) norms flags requested =
      (settle pairs norms flags requested).map (Root.shift σ) := by
  rw [settle, settle,
    ← sortedBy_map Root.value Root.value fun a b => ranksBefore_add a.value b.value σ]
  congr 1
  rw [← List.map_take, List.zip_map_left, List.zipIdx_map, List.map_map, List.map_map]
  rfl

theorem Extraction.residualNorms_shift (e : Extraction ℝ n) (σ : ℝ) :
    (e.shift σ).residualNorms = e.residualNorms := by
  rw [residualNorms, shift, List.map_map]
  rfl

def SearchSpace.reimage (s : SearchSpace ℝ n) (image : Columns ℝ n) (projected : Block ℝ) :
    SearchSpace ℝ n :=
  { s with image := image, projected := projected }

noncomputable def Round.shift (r : Round ℝ n) (σ : ℝ) (image : Columns ℝ n)
    (projected : Block ℝ) : Round ℝ n :=
  { r with space := r.space.reimage image projected, extraction := r.extraction.shift σ }

namespace Round

variable (r : Round ℝ n) (σ : ℝ) (image : Columns ℝ n) (projected : Block ℝ)

theorem tracked_shift : (r.shift σ image projected).tracked = r.tracked := by
  simp only [tracked, shift, Extraction.shift, List.length_map]
  rfl

theorem events_shift (measures : Bool) :
    (r.shift σ image projected).events measures = r.events measures := by
  simp only [events, measurement, tracked_shift]
  rfl

end Round

namespace Problem

noncomputable def shift (p : Problem ℝ n) (σ : ℝ) : Problem ℝ n :=
  { p with operator := p.operator.shift σ, diagonal := p.diagonal.map (· + σ) }

theorem firstSpace_shift (p : Problem ℝ n) (σ : ℝ) : (p.shift σ).firstSpace = p.firstSpace := by
  simp only [firstSpace, shift, Config.guess, unitGuess_shift]
  rfl

theorem finish_shift (p : Problem ℝ n) (r : Round ℝ n) (σ : ℝ) (image : Columns ℝ n)
    (projected : Block ℝ) (status : SolveStatus) :
    (p.shift σ).finish (r.shift σ image projected) status = (p.finish r status).shift σ := by
  have hevents : (r.shift σ image projected).events (p.shift σ).measuresBasis =
      r.events p.measuresBasis := r.events_shift σ image projected p.measuresBasis
  have hroots : Solution.settle (r.shift σ image projected).extraction.pairs r.norms
      r.space.flags p.requested = (Solution.settle r.extraction.pairs r.norms r.space.flags
        p.requested).map (Root.shift σ) := Solution.settle_shift ..
  unfold finish
  rw [hevents]
  exact congrArg (fun roots => (⟨.ok ⟨roots, _, _⟩, _, _⟩ : Run ℝ n)) hroots

theorem direction?_shift (p : Problem ℝ n) {order : ℕ} (pair : RitzPair ℝ n order) (σ : ℝ) :
    (p.shift σ).direction? (pair.shift σ) = p.direction? pair := by
  simp only [direction?, shift, RitzPair.shift, Correction.direction_shift]

theorem corrections_shift (p : Problem ℝ n) (r : Round ℝ n) (σ : ℝ) (image : Columns ℝ n)
    (projected : Block ℝ) :
    (p.shift σ).corrections (r.shift σ image projected) = p.corrections r := by
  have hdirections : (((r.extraction.pairs.map (RitzPair.shift σ)).zip r.space.flags).take
      r.tracked).filterMap (fun pc => if pc.2 then none else (p.shift σ).direction? pc.1) =
        ((r.extraction.pairs.zip r.space.flags).take r.tracked).filterMap
          fun pc => if pc.2 then none else p.direction? pc.1 := by
    rw [List.zip_map_left, ← List.map_take, List.filterMap_map]
    congr 1
    funext ⟨pair, converged⟩
    cases converged with
    | true => rfl
    | false => exact p.direction?_shift pair σ
  rw [corrections, Round.tracked_shift]
  exact congrArg (fun directions => (directions.take (n - r.space.size)).toArray) hdirections

theorem enlarge_shift (p : Problem ℝ n) (r : Round ℝ n) (σ : ℝ) (image : Columns ℝ n)
    (projected : Block ℝ) :
    (p.shift σ).enlarge (r.shift σ image projected) =
      ((p.enlarge r).1.reimage image projected, (p.enlarge r).2) := by
  rw [enlarge, corrections_shift, enlarge]
  split
  · rfl
  · rfl

theorem restartBasis_shift (p : Problem ℝ n) (r : Round ℝ n) (σ : ℝ) (image : Columns ℝ n)
    (projected : Block ℝ) (s : SearchSpace ℝ n) (fresh : ℕ) :
    (p.shift σ).restartBasis (r.shift σ image projected) (s.reimage image projected) fresh =
      p.restartBasis r s fresh := by
  have hleading : ((r.shift σ image projected).extraction.pairs.take
      p.settings.initialGuess).map RitzPair.vector =
        (r.extraction.pairs.take p.settings.initialGuess).map RitzPair.vector := by
    simp only [Round.shift, Extraction.shift, ← List.map_take, List.map_map]
    rfl
  have hsettings : (p.shift σ).settings = p.settings := rfl
  rw [restartBasis, hsettings, hleading]
  rfl

/-- The next space differs in its images at most, and a restart is reported alike. -/
theorem advance_shift (p : Problem ℝ n) (r : Round ℝ n) (σ : ℝ) (image : Columns ℝ n)
    (projected : Block ℝ) :
    ∃ image' projected', (p.shift σ).advance (r.shift σ image projected) =
      ((p.advance r).1.reimage image' projected', (p.advance r).2) := by
  have henlarge := p.enlarge_shift r σ image projected
  by_cases hout : p.Outgrows r
  · have hout' : (p.shift σ).Outgrows (r.shift σ image projected) := by
      rw [Outgrows, henlarge]
      exact hout
    refine ⟨#[], nothingProjected, ?_⟩
    rw [advance_of_outgrows hout, advance_of_outgrows hout', henlarge, restartBasis_shift]
    rfl
  · have hout' : ¬ (p.shift σ).Outgrows (r.shift σ image projected) := by
      rw [Outgrows, henlarge]
      exact hout
    refine ⟨image, projected, ?_⟩
    rw [advance_of_not_outgrows hout, advance_of_not_outgrows hout', henlarge]

end Problem

/-- Two spaces that differ in their images at most, each with images under its own map; second
images are not wanted. -/
structure SearchSpace.Parallel (f : Euclid n →ₗ[ℝ] Euclid n) (σ : ℝ) (s t : SearchSpace ℝ n) :
    Prop where
  exists_reimage : ∃ image projected, t = s.reimage image projected
  second_eq : s.second = none
  left : Tracks f s
  right : Tracks (shifted f σ) t

namespace Problem

variable {p : Problem ℝ n} {r : Round ℝ n} {s t : SearchSpace ℝ n}

theorem passed_shift (p : Problem ℝ n) (h : s.Parallel f σ t) :
    (t.update (p.shift σ).operator).passed = (s.update p.operator).passed := by
  obtain ⟨⟨image, projected, rfl⟩, hsecond, -, -⟩ := h
  have hrequests : ∀ (u : SearchSpace ℝ n) (op : LinearOperator ℝ), u.second = none →
      u.requests op = if u.basis.size ≤ u.computed then [] else [u.fresh] := by
    intro u op hu
    rw [requests, hu]
  rw [passed_update, passed_update, hrequests s _ hsecond,
    hrequests (s.reimage image projected) _ hsecond]
  rfl

/-- A round on the parallel space finds the shifted values. -/
theorem roundAt_shift (hs : p.dense.ShiftEquivariant) (hkind : p.config.kind = .symmetric)
    (hop : p.operator.ActsAs f) (h : s.Parallel f σ t) (index : ℕ) :
    (p.shift σ).roundAt index t = (p.roundAt index s).map fun r =>
      r.shift σ (s.basis.map (through (shifted f σ))) (s.basis.compress (shifted f σ)) := by
  obtain ⟨⟨image, projected, rfl⟩, hsecond, hleft, hright⟩ := h
  have hop' : (p.shift σ).operator.ActsAs (shifted f σ) := p.operator.shift_actsAs hop σ
  have hplain : plainRitz p.dense ((s.reimage image projected).refreshed (shifted f σ)) =
      (plainRitz p.dense (s.refreshed f)).map (Extraction.shift σ) :=
    plainRitz_shifted hs hleft.orthonormal
  have hkind' : (p.shift σ).config.kind = .symmetric := hkind
  simp only [roundAt, update_eq hleft hop, update_eq hright hop', examine, extract, hkind, hkind']
  rw [show (p.shift σ).dense = p.dense from rfl, hplain]
  cases plainRitz p.dense (s.refreshed f) with
  | error e => rfl
  | ok e =>
      simp only [Except.map, Extraction.residualNorms_shift, Round.shift, reimage, refreshed,
        hsecond, Option.map_none]
      rfl

theorem advance_second (h : r.space.second = none) : (p.advance r).1.second = none := by
  have henlarge : (p.enlarge r).1.second = none := by
    simp only [enlarge]
    split
    · exact h
    · exact h
  by_cases hout : p.Outgrows r
  · rw [advance_of_outgrows hout]
    exact congrArg (Option.map _) henlarge
  · rw [advance_of_not_outgrows hout]
    exact henlarge

/-- The step: a round on parallel spaces leads to parallel spaces again. -/
theorem advance_parallel (hd : p.dense.TriangularExact) (hop : p.operator.ActsAs f)
    (h : s.Parallel f σ t) {image : Columns ℝ n} {projected : Block ℝ} {index : ℕ}
    (hround : p.roundAt index s = .ok r)
    (hround' : (p.shift σ).roundAt index t = .ok (r.shift σ image projected)) :
    (p.advance r).1.Parallel f σ ((p.shift σ).advance (r.shift σ image projected)).1 := by
  have hlooks := looks_of_roundAt hop h.left hround
  have hlooks' := looks_of_roundAt (p.operator.shift_actsAs hop σ) h.right hround'
  obtain ⟨image', projected', hadvance⟩ := p.advance_shift r σ image projected
  have hsecond : r.space.second = none := by
    rw [hlooks.space_eq]
    exact congrArg (Option.map _) h.second_eq
  exact {
    exists_reimage := ⟨image', projected', by rw [hadvance]⟩
    second_eq := advance_second hsecond
    left := advance_tracks hd hlooks.tracks_space
    right := advance_tracks (p := p.shift σ) hd hlooks'.tracks_space }

theorem advance_events_shift (p : Problem ℝ n) (r : Round ℝ n) (σ : ℝ) (image : Columns ℝ n)
    (projected : Block ℝ) :
    ((p.shift σ).advance (r.shift σ image projected)).2 = (p.advance r).2 := by
  obtain ⟨image', projected', hadvance⟩ := p.advance_shift r σ image projected
  rw [hadvance]

/-- From parallel spaces on, the runs differ in the values of a solution alone. -/
theorem iterate_shift (hd : p.dense.TriangularExact) (hs : p.dense.ShiftEquivariant)
    (hkind : p.config.kind = .symmetric) (hop : p.operator.ActsAs f) (remaining index : ℕ)
    (h : s.Parallel f σ t) :
    (p.shift σ).iterate remaining index t = (p.iterate remaining index s).shift σ := by
  have hrequested : (p.shift σ).requested = p.requested := rfl
  have hconverged : ∀ (r : Round ℝ n) image projected,
      (r.shift σ image projected).converged p.requested = r.converged p.requested :=
    fun _ _ _ => rfl
  induction remaining generalizing index s t with
  | zero =>
      have hround := p.roundAt_shift hs hkind hop h index
      cases hleft : p.roundAt index s with
      | error e =>
          rw [hleft] at hround
          rw [iterate_of_error hleft, iterate_of_error hround, p.passed_shift h]
          rfl
      | ok r =>
          rw [hleft] at hround
          rw [iterate_of_ok hleft, iterate_of_ok hround, p.passed_shift h, hrequested, hconverged]
          simp only [finish_shift]
          split
          · rfl
          · rfl
  | succ remaining ih =>
      have hround := p.roundAt_shift hs hkind hop h index
      cases hleft : p.roundAt index s with
      | error e =>
          rw [hleft] at hround
          rw [iterate_of_error hleft, iterate_of_error hround, p.passed_shift h]
          rfl
      | ok r =>
          rw [hleft] at hround
          have hnext := ih (index + 1) (advance_parallel hd hop h hleft hround)
          rw [iterate_of_ok hleft, iterate_of_ok hround, p.passed_shift h, hrequested, hconverged]
          simp only [finish_shift, hnext, advance_events_shift]
          split
          · rfl
          · rw [r.events_shift]
            rfl

theorem run_shift (hd : p.dense.TriangularExact) (hs : p.dense.ShiftEquivariant)
    (hkind : p.config.kind = .symmetric) (hop : p.operator.ActsAs f) (σ : ℝ) :
    (p.shift σ).run = p.run.shift σ := by
  have hsecond : p.firstSpace.second = none := by
    simp only [firstSpace, start, hkind]
    rfl
  have hparallel : p.firstSpace.Parallel f σ (p.shift σ).firstSpace := by
    rw [firstSpace_shift]
    exact ⟨⟨_, _, rfl⟩, hsecond, firstSpace_tracks hd, firstSpace_tracks hd⟩
  rw [run, run]
  exact congrArg (Run.after _ 0) (iterate_shift hd hs hkind hop _ 0 hparallel)

end Problem

namespace Solver

variable {solver : Solver ℝ} {op : LinearOperator ℝ} {f : Euclid op.rows →ₗ[ℝ] Euclid op.rows}

theorem check_map (solver : Solver ℝ) (rows cols : ℕ) (diagonal : Except Fault (Array ℝ))
    (requested guess : ℕ) (σ : ℝ) :
    solver.check rows cols (diagonal.map fun d => d.map (· + σ)) requested guess =
      (solver.check rows cols diagonal requested guess).map fun checked =>
        (checked.1.map (· + σ), checked.2) := by
  unfold check
  cases solver.config.validate with
  | error e => rfl
  | ok _ =>
      by_cases hsquare : cols ≠ rows
      · simp only [if_pos hsquare]
        rfl
      simp only [if_neg hsquare]
      cases diagonal with
      | error f => rfl
      | ok d =>
          simp only [Except.map, Array.size_map]
          by_cases hsize : d.size = rows
          · simp only [dif_pos hsize]
            cases solver.config.effectiveSettings rows requested guess <;> rfl
          · simp only [dif_neg hsize]

theorem pose_shift (solver : Solver ℝ) (draws : ℕ → ℝ) (op : LinearOperator ℝ) (σ : ℝ)
    (requested guess : ℕ) :
    solver.pose draws (op.shift σ) requested guess =
      (solver.pose draws op requested guess).map (Problem.shift · σ) := by
  have hcheck := solver.check_map op.rows op.cols op.diagonal requested guess σ
  rw [pose_eq_check, pose_eq_check]
  change Except.map _ (solver.check op.rows op.cols _ requested guess) = _
  rw [show (op.shift σ).diagonal = op.diagonal.map fun d => d.map (· + σ) from rfl, hcheck]
  cases solver.check op.rows op.cols op.diagonal requested guess <;> rfl

/-- Solving a shifted operator shifts the eigenvalues and nothing else. -/
theorem solveWith_shift (hd : solver.dense.TriangularExact) (hs : solver.dense.ShiftEquivariant)
    (hkind : solver.config.kind = .symmetric) (hop : op.ActsAs f) (σ : ℝ) (draws : ℕ → ℝ)
    (requested guess : ℕ) :
    solver.solveWith draws (op.shift σ) requested guess =
      (solver.solveWith draws op requested guess).shift σ := by
  have hpose := solver.pose_shift draws op σ requested guess
  cases hp : solver.pose draws op requested guess with
  | error e =>
      rw [hp] at hpose
      rw [solveWith, solveWith, hp, hpose]
      rfl
  | ok p =>
      rw [hp] at hpose
      have hposes := poses_of_pose hp
      rw [← hposes.dense_eq] at hd hs
      rw [← hposes.config_eq] at hkind
      rw [solveWith_of_pose hp, solveWith_of_pose hpose]
      exact p.run_shift hd hs hkind (hposes.actsAs hop) σ

/-- The matrix with columns `(2, 1)` and `(1, 2)`, shifted by three. -/
theorem solveWith_shift_pair :
    let a : Square ℝ 2 := #v[#v[2, 1], #v[1, 2]]
    let op : LinearOperator ℝ := .ofBlock ⟨2, a.toArray⟩
    let solver : Solver ℝ := { exact with dense := .centred }
    solver.dense.TriangularExact ∧ solver.dense.ShiftEquivariant ∧
      solver.config.kind = .symmetric ∧ op.ActsAs a.toLinearMap ∧
        ∃ solution : Solution ℝ 2,
          (solver.solveWith (fun _ => 0) op 1 0).outcome = .ok solution ∧
            solver.solveWith (fun _ => 0) (op.shift 3) 1 0 =
              (solver.solveWith (fun _ => 0) op 1 0).shift 3 := by
  intro a op solver
  have hd : solver.dense.TriangularExact := Factorizations.centred_triangularExact
  have hs : solver.dense.ShiftEquivariant := Factorizations.centred_shiftEquivariant
  have hop : op.ActsAs a.toLinearMap := LinearOperator.ofBlock_actsAs a
  have hvalid : solver.config.validate = .ok () := exact_validate
  obtain ⟨p, hp⟩ := exists_pose_ofBlock hvalid (fun _ => 0) a 0 one_pos (show 1 ≤ 2 by norm_num)
  obtain ⟨solution, hsolution⟩ := exists_outcome hd Factorizations.centred_symmetricExact rfl
    le_rfl hop hp
  exact ⟨hd, hs, rfl, hop, solution, hsolution,
    solveWith_shift hd hs rfl hop 3 (fun _ => 0) 1 0⟩

end Solver

end SubspaceEigen
