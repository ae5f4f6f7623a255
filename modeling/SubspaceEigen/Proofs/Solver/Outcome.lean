import SubspaceEigen.Proofs.Solver.Observation
import SubspaceEigen.Proofs.Solver.Restarts

/-!
# How a solve ends

A solution is settled from the last round: the first Ritz pairs with their norms and flags, in the
order of their values.  Its status says whether that round had converged, which no round before it
had, and its flags say the same of each root.  All of this holds in any arithmetic, with values that
compare with nothing among the norms, and with fewer pairs than were requested.
-/

namespace SubspaceEigen

variable {α : Type} [Scalar α] {n : ℕ}

namespace Solution

/-- With the norms of their own residuals, the roots are the leading pairs one by one. -/
theorem settle_residualNorms (e : Extraction α n) (flags : List Bool) (requested : ℕ) :
    settle e.pairs e.residualNorms flags requested =
      sortedBy Root.value ((e.pairs.take requested).zipIdx.map fun pj =>
        { value := pj.1.value
          vector := Column.normalize pj.1.vector
          residual := pj.1.residual
          residualNorm := Column.norm pj.1.residual
          converged := flags.getD pj.2 false }) := by
  have hzip : (e.pairs.take requested).zip e.residualNorms =
      (e.pairs.take requested).map fun pair => (pair, Column.norm pair.residual) := by
    apply List.ext_getElem
    · simp [Extraction.residualNorms]
    · intro j hj hj'
      simp [Extraction.residualNorms]
  rw [settle, hzip, List.zipIdx_map, List.map_map]
  rfl

theorem length_settle (e : Extraction α n) (flags : List Bool) (requested : ℕ) :
    (settle e.pairs e.residualNorms flags requested).length = min requested e.pairs.length := by
  rw [settle_residualNorms, (sortedBy_perm _ _).length_eq, List.length_map, List.length_zipIdx,
    List.length_take]

theorem exists_pair_of_mem_settle {e : Extraction α n} {flags : List Bool} {requested : ℕ}
    {root : Root α n} (h : root ∈ settle e.pairs e.residualNorms flags requested) :
    ∃ (j : ℕ) (hj : j < e.pairs.length), j < requested ∧ root.value = e.pairs[j].value ∧
      root.residual = e.pairs[j].residual ∧ root.residualNorm = Column.norm e.pairs[j].residual ∧
        root.converged = flags.getD j false := by
  rw [settle_residualNorms, (sortedBy_perm _ _).mem_iff, List.mem_map] at h
  obtain ⟨⟨pair, j⟩, hpair, rfl⟩ := h
  have hleading : (e.pairs.take requested)[j]? = some pair :=
    List.mem_zipIdx_iff_getElem?.mp hpair
  obtain ⟨hj, rfl⟩ := List.getElem?_eq_some_iff.mp hleading
  rw [List.length_take] at hj
  simp only [List.getElem_take]
  exact ⟨j, by omega, by omega, rfl, rfl, rfl, rfl⟩

theorem exists_root_of_lt (e : Extraction α n) (flags : List Bool) {requested j : ℕ}
    (hj : j < requested) (hpairs : j < e.pairs.length) :
    ∃ root ∈ settle e.pairs e.residualNorms flags requested,
      root.converged = flags.getD j false := by
  rw [settle_residualNorms]
  simp only [(sortedBy_perm _ _).mem_iff, List.mem_map]
  refine ⟨_, ⟨(e.pairs[j], j), ?_, rfl⟩, rfl⟩
  rw [List.mem_zipIdx_iff_getElem?, List.getElem?_take_of_lt hj]
  exact List.getElem?_eq_getElem hpairs

end Solution

namespace Problem

variable {p : Problem α n} {s : SearchSpace α n} {r : Round α n}

def settled (p : Problem α n) (r : Round α n) : List (Root α n) :=
  Solution.settle r.extraction.pairs r.norms r.space.flags p.requested

namespace Observes

theorem length_settled (h : p.Observes s r) :
    (p.settled r).length = min p.requested r.extraction.pairs.length := by
  rw [settled, h.norms_eq, Solution.length_settle]

/-- Where every requested root is tracked, a root is flagged exactly if its own norm is below the
tolerance. -/
theorem settled_flag (h : p.Observes s r) (hle : p.requested ≤ s.tracked) :
    ∀ root ∈ p.settled r, root.converged = true ↔ root.residualNorm < p.config.tolerance := by
  intro root hroot
  rw [settled, h.norms_eq] at hroot
  obtain ⟨j, hj, hrequested, -, -, hnorm, hflag⟩ := Solution.exists_pair_of_mem_settle hroot
  have hget : r.norms[j]? = some root.residualNorm := by
    rw [h.norms_eq, hnorm, Extraction.residualNorms, List.getElem?_map,
      List.getElem?_eq_getElem hj, Option.map_some]
  rw [hflag, h.flags_eq, getD_flagged p _ (by omega), hget]
  simp

/-- A round has converged exactly if there are as many roots as were requested, all of them flagged.
-/
theorem converged_iff_settled (h : p.Observes s r) (hle : p.requested ≤ s.tracked) :
    r.converged p.requested = true ↔
      (p.settled r).length = p.requested ∧ ∀ root ∈ p.settled r, root.converged = true := by
  have hlength : (p.settled r).length = p.requested ↔ p.requested ≤ r.norms.length := by
    rw [h.length_settled, h.length_norms]
    omega
  rw [h.converged_iff_flags hle, hlength]
  refine and_congr_right fun hnorms => ?_
  rw [h.length_norms] at hnorms
  simp only [settled, h.norms_eq]
  constructor
  · intro hall root hroot
    obtain ⟨j, -, hj, -, -, -, hflag⟩ := Solution.exists_pair_of_mem_settle hroot
    rw [hflag, hall j hj]
  · intro hall j hj
    obtain ⟨root, hroot, hflag⟩ :=
      Solution.exists_root_of_lt r.extraction r.space.flags hj (hj.trans_le hnorms)
    rw [← hflag, hall root hroot]

end Observes

/-- The rounds `earlier` and then `last`, at most `remaining + 1` in all, end with a solution: only
the last one may have converged, and it is one of fewer only if it has. -/
structure Concludes (p : Problem α n) (remaining : ℕ) (earlier : List (Round α n))
    (last : Round α n) (solution : Solution α n) : Prop where
  earlier_not : ∀ r ∈ earlier, ¬ r.converged p.requested = true
  length_le : earlier.length ≤ remaining
  status_iff : solution.status = .converged ↔ last.converged p.requested = true
  exhausted : solution.status = .maxIterationsReached → earlier.length = remaining
  roots_eq : solution.roots = p.settled last
  iterations_eq : solution.iterations = last.index + 1

theorem exists_concludes {remaining index : ℕ} {solution : Solution α n}
    (h : (p.iterate remaining index s).outcome = .ok solution) :
    ∃ earlier last, p.roundsFrom remaining index s = earlier ++ [last] ∧
      p.Concludes remaining earlier last solution := by
  induction remaining generalizing index s with
  | zero =>
      rw [roundsFrom]
      cases hround : p.roundAt index s with
      | error e =>
          rw [iterate_of_error hround] at h
          cases h
      | ok r =>
          rw [iterate_of_ok hround] at h
          refine ⟨[], r, by simp, ?_⟩
          split at h
          · next hconverged =>
            obtain rfl := Except.ok.inj h
            exact ⟨by simp, le_rfl, iff_of_true rfl hconverged, by simp, rfl, rfl⟩
          · next hconverged =>
            obtain rfl := Except.ok.inj h
            exact ⟨by simp, le_rfl, iff_of_false (by simp) hconverged, fun _ => rfl, rfl, rfl⟩
  | succ remaining ih =>
      rw [roundsFrom]
      cases hround : p.roundAt index s with
      | error e =>
          rw [iterate_of_error hround] at h
          cases h
      | ok r =>
          rw [iterate_of_ok hround] at h
          simp only
          split at h
          · next hconverged =>
            obtain rfl := Except.ok.inj h
            rw [if_pos hconverged]
            exact ⟨[], r, rfl, by simp, Nat.zero_le _, iff_of_true rfl hconverged, by simp, rfl,
              rfl⟩
          · next hconverged =>
            obtain ⟨earlier, last, hrounds, hlast⟩ := ih h
            rw [if_neg hconverged, hrounds]
            refine ⟨r :: earlier, last, rfl, ?_, ?_, hlast.status_iff, ?_, hlast.roots_eq,
              hlast.iterations_eq⟩
            · intro r' hr'
              rcases List.mem_cons.mp hr' with rfl | hr'
              · exact hconverged
              · exact hlast.earlier_not r' hr'
            · exact Nat.succ_le_succ hlast.length_le
            · intro hstatus
              rw [List.length_cons, hlast.exhausted hstatus]

/-- A round that has converged is the last one, and the solution is settled from it. -/
theorem outcome_of_converged {remaining index : ℕ} (hr : r ∈ p.roundsFrom remaining index s)
    (h : r.converged p.requested = true) :
    (p.roundsFrom remaining index s).getLast? = some r ∧
      (p.iterate remaining index s).outcome = (p.finish r .converged).outcome := by
  induction remaining generalizing index s with
  | zero =>
      rw [roundsFrom] at hr ⊢
      cases hround : p.roundAt index s with
      | error e =>
          rw [hround] at hr
          cases hr
      | ok head =>
          simp only [hround, ite_self, List.mem_singleton] at hr
          subst hr
          simp only [iterate_of_ok hround, if_pos h]
          exact ⟨rfl, rfl⟩
  | succ remaining ih =>
      rw [roundsFrom] at hr ⊢
      cases hround : p.roundAt index s with
      | error e =>
          rw [hround] at hr
          cases hr
      | ok head =>
          simp only [hround] at hr
          simp only [iterate_of_ok hround]
          by_cases hconverged : head.converged p.requested
          · rw [if_pos hconverged, List.mem_singleton] at hr
            subst hr
            rw [if_pos h, if_pos h]
            exact ⟨rfl, rfl⟩
          · rw [if_neg hconverged] at hr
            rw [if_neg hconverged, if_neg hconverged]
            rcases List.mem_cons.mp hr with rfl | hr
            · exact absurd h hconverged
            · obtain ⟨hlast, houtcome⟩ := ih hr
              refine ⟨?_, houtcome⟩
              rw [List.getLast?_cons, hlast]
              rfl

/-- A solution tells one story with the rounds of its run.  There is a vector and a residual for
every root; the roots ascend, and each is flagged exactly if its own residual norm is below the
tolerance.  The status says whether all requested roots were found and flagged, which was so in no
round before the last, and without it the solve has made as many rounds as it may. -/
structure Accounts (p : Problem α n) (solution : Solution α n) : Prop where
  reported : Journal.measurements p.run.events = p.rounds.map (·.measurement p.measuresBasis)
  length_rounds : p.rounds.length = solution.iterations
  vectors : solution.vectors.cols = solution.roots.length
  residuals : solution.residuals.cols = solution.roots.length
  length_le : solution.roots.length ≤ p.requested
  ascending : solution.roots.Pairwise fun a b => Scalar.ranksBefore a.value b.value = true
  flag_iff : ∀ root ∈ solution.roots,
    root.converged = true ↔ root.residualNorm < p.config.tolerance
  status_iff : solution.status = .converged ↔
    solution.roots.length = p.requested ∧ ∀ root ∈ solution.roots, root.converged = true
  iterations_pos : 1 ≤ solution.iterations
  iterations_le : solution.iterations ≤ p.config.maxIterations.toNat
  exhausted : solution.status = .maxIterationsReached →
    solution.iterations = p.config.maxIterations.toNat
  earlier : ∀ {i r}, p.rounds[i]? = some r → i + 1 < solution.iterations →
    ¬ (p.requested ≤ r.extraction.residualNorms.length ∧
      ∀ norm ∈ r.extraction.residualNorms.take p.requested, norm < p.config.tolerance)

end Problem

namespace Solver

variable {solver : Solver α} {op : LinearOperator α}

theorem Poses.accounts {draws : ℕ → α} {requested guess : ℕ} {p : Problem α op.rows}
    (hp : solver.Poses draws op requested guess p) {solution : Solution α op.rows}
    (houtcome : p.run.outcome = .ok solution) : p.Accounts solution := by
  have htracked : p.requested ≤ p.settings.trackedRoots := by
    rw [hp.requested_eq]
    exact (solver.config.settings_bounds hp.settings).2.1
  have hmax : 0 < p.config.maxIterations.toNat := by
    rw [hp.config_eq]
    exact Config.maxIterations_pos hp.valid
  obtain ⟨earlier, last, hrounds, hlast⟩ := p.exists_concludes houtcome
  have hobserves : ∀ r ∈ p.rounds, ∃ s, p.requested ≤ s.tracked ∧ p.Observes s r := by
    intro r hr
    obtain ⟨s, hs, hobserves⟩ := p.exists_observes r hr
    exact ⟨s, hs ▸ htracked, hobserves⟩
  have hrounds : p.rounds = earlier ++ [last] := hrounds
  have hiterations : solution.iterations = earlier.length + 1 := by
    rw [hlast.iterations_eq, p.index_of_getElem? (i := earlier.length) (by simp [hrounds])]
  obtain ⟨s, hle, hlooks⟩ := hobserves last (by simp [hrounds])
  exact {
    reported := p.measurements_run
    length_rounds := by rw [hrounds, hiterations, List.length_append, List.length_singleton]
    vectors := by simp [Solution.vectors, Block.cols]
    residuals := by simp [Solution.residuals, Block.cols]
    length_le := by
      rw [hlast.roots_eq, hlooks.length_settled]
      exact min_le_left _ _
    ascending := by
      rw [hlast.roots_eq]
      exact sortedBy_pairwise _ _
    flag_iff := by
      rw [hlast.roots_eq]
      exact hlooks.settled_flag hle
    status_iff := by rw [hlast.status_iff, hlooks.converged_iff_settled hle, hlast.roots_eq]
    iterations_pos := by omega
    iterations_le := by
      have hlength := hlast.length_le
      omega
    exhausted := by
      intro hstatus
      have hlength := hlast.exhausted hstatus
      omega
    earlier := by
      intro i r hr hi
      obtain ⟨s, hle, hround⟩ := hobserves r (List.mem_of_getElem? hr)
      have hmem : r ∈ earlier := by
        rw [hrounds, List.getElem?_append_left (by omega)] at hr
        exact List.mem_of_getElem? hr
      rw [← hround.norms_eq, ← hround.converged_iff hle]
      exact hlast.earlier_not r hmem }

/-- A request with a solution is admitted, and the solution accounts for the run. -/
theorem accounts_of_outcome (draws : ℕ → α) (requested guess : ℕ) {solution : Solution α op.rows}
    (h : (solver.solveWith draws op requested guess).outcome = .ok solution) :
    ∃ p, solver.pose draws op requested guess = .ok p ∧
      solver.solveWith draws op requested guess = p.run ∧ p.Accounts solution := by
  obtain ⟨p, hpose, houtcome⟩ := exists_pose_of_outcome h
  exact ⟨p, hpose, solveWith_of_pose hpose, (poses_of_pose hpose).accounts houtcome⟩

/-- In exact arithmetic, for the matrix with columns `(1, 1)` and `(0, 2)`. -/
theorem accounts_shear :
    let a : Square ℝ 2 := #v[#v[1, 1], #v[0, 2]]
    let op : LinearOperator ℝ := .ofBlock ⟨2, a.toArray⟩
    ∃ solution : Solution ℝ 2,
      (Solver.exact.solveWith (fun _ => 0) op 1 0).outcome = .ok solution ∧
        ∃ p : Problem ℝ 2, Solver.exact.pose (fun _ => 0) op 1 0 = .ok p ∧
          Solver.exact.solveWith (fun _ => 0) op 1 0 = p.run ∧ p.Accounts solution := by
  intro a op
  have hop : op.ActsAs a.toLinearMap := LinearOperator.ofBlock_actsAs a
  obtain ⟨p, hp⟩ := exists_pose_ofBlock exact_validate (fun _ => 0) a 0 one_pos
    (show 1 ≤ 2 by norm_num)
  obtain ⟨solution, hsolution⟩ := exists_outcome Factorizations.exact_triangularExact
    Factorizations.exact_symmetricExact rfl le_rfl hop hp
  exact ⟨solution, hsolution, accounts_of_outcome (fun _ => 0) 1 0 hsolution⟩

end Solver

end SubspaceEigen
