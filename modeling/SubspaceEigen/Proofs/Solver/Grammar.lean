import SubspaceEigen.Proofs.Solver.Outcome
import SubspaceEigen.Proofs.Solver.Sizes

/-!
# The grammar of a journal

The journal of a solve begins with its opening and goes on round by round.  A round is reported by
one iteration, after the conjugate pairs it met; then the solve is finished, or the next round
follows, with a restart in between if the space has outgrown its limit.  A round that fails reports
nothing.  The numbers of neighbouring events fit together: the size of a space is that of the next
iteration, and a space grows by no more than the roots that have not converged.
-/

namespace SubspaceEigen

variable {α : Type} {n : ℕ}

namespace Journal

/-- The report of the round `index` on a search space of `size` columns. -/
structure Reports (o : Opening α) (index size : ℕ) (m : Measurement α) (report : Journal α) :
    Prop where
  iteration_eq : m.iteration = index
  space_eq : m.searchSpace = size
  converged_le : m.convergedRoots ≤ m.trackedRoots
  tracked_le : m.trackedRoots ≤ o.trackedRoots
  tracked_le_space : m.trackedRoots ≤ m.searchSpace
  events : report = [.iteration m] ∨ o.kind = .hamiltonian ∧
    ∃ count, 1 ≤ count ∧ report = [.complexPairs index count, .iteration m]

/-- A journal and an outcome from the round `index` on, which begins with a search space of `size`
columns. -/
inductive Continues (o : Opening α) :
    ℕ → ℕ → Journal α → Except (Failure α) (Solution α n) → Prop where
  | failed {index size} (e : Failure α) : Continues o index size [] (.error e)
  | finished {index size m report solution} (elapsed : ℕ) (hreport : Reports o index size m report)
      (hiterations : solution.iterations = index + 1) :
      Continues o index size
        (report ++ [.finished solution.isConverged solution.iterations elapsed]) (.ok solution)
  | extended {index size next m report rest outcome} (hreport : Reports o index size m report)
      (hnext : next ≤ o.searchLimit) (hrest : Continues o (index + 1) next rest outcome) :
      Continues o index size (report ++ rest) outcome
  | restarted {index size before after m report rest outcome}
      (hreport : Reports o index size m report) (hlimit : o.searchLimit < before)
      (hbefore : before ≤ m.searchSpace + m.trackedRoots - m.convergedRoots)
      (hrest : Continues o (index + 1) after rest outcome) :
      Continues o index size (report ++ .restart index before after :: rest) outcome

end Journal

variable [Scalar α]

namespace Problem

variable {p : Problem α n} {index : ℕ} {s : SearchSpace α n} {r : Round α n}

/-- Only the values of a pencil come in conjugate pairs. -/
theorem Observes.kind_eq (h : p.Observes s r) (hconjugates : 0 < r.conjugates) :
    p.config.kind = .hamiltonian := by
  obtain ⟨updated, -, hextract⟩ := h.extract_eq
  unfold extract at hextract
  split at hextract
  · assumption
  · split at hextract
    · obtain ⟨-, hnone⟩ := Prod.mk.inj (Except.ok.inj hextract)
      omega
    · cases hextract

/-- The report of one round, whatever it leads to. -/
theorem reports_of_roundAt (hd : p.dense.Shaped) (hs : s.tracked = p.settings.trackedRoots)
    (h : p.roundAt index s = .ok r) :
    Journal.Reports p.opening index s.size (r.measurement p.measuresBasis)
      (r.events p.measuresBasis) := by
  have hobserves := observes_of_roundAt h
  have hindex := roundAt_index h
  obtain ⟨htracked, hsize⟩ := hobserves.tracked_le hd
  exact {
    iteration_eq := hindex
    space_eq := hobserves.size_eq
    converged_le := Nat.le.intro (r.convergedRoots_add_unconverged _)
    tracked_le := htracked.trans hs.le
    tracked_le_space := hsize.trans hobserves.size_eq.ge
    events := by
      unfold Round.events
      by_cases hconjugates : 0 < r.conjugates
      · rw [if_pos hconjugates, hindex]
        exact .inr ⟨hobserves.kind_eq hconjugates, r.conjugates, hconjugates, rfl⟩
      · rw [if_neg hconjugates]
        exact .inl rfl }

/-- What is reported from one round on keeps to the grammar. -/
theorem Unfolds.continues {run : Run α n} {rounds : List (Round α n)}
    (h : p.Unfolds index s run rounds) (hd : p.dense.Shaped)
    (hs : s.tracked = p.settings.trackedRoots) :
    Journal.Continues p.opening index s.size run.events run.outcome := by
  induction h with
  | failed applied hround => exact .failed _
  | @ended index _ r status applied hround =>
      have hreport := reports_of_roundAt hd hs hround
      let solution : Solution α n := ⟨p.settled r, r.index + 1, status⟩
      have hiterations : solution.iterations = index + 1 := congrArg (· + 1) (roundAt_index hround)
      have hfinished := Journal.Continues.finished (p.clock r.index) hreport hiterations
      exact hfinished
  | @advanced index s r run rest applied hround hrest ih =>
      have hreport := reports_of_roundAt hd hs hround
      have hindex := roundAt_index hround
      have hcount := r.convergedRoots_add_unconverged p.measuresBasis
      have hsteps := steps hd r
      have hnext := ih (by rw [advance_tracked, (observes_of_roundAt hround).tracked_eq, hs])
      rw [Run.after, List.append_assoc]
      by_cases hout : p.Outgrows r
      · have hbefore : (p.enlarge r).1.size ≤ r.space.size + r.tracked -
            (r.measurement p.measuresBasis).convergedRoots := by
          have henlarged := hsteps.enlarged
          omega
        rw [advance_of_outgrows hout] at hnext ⊢
        rw [← hindex] at hreport hnext ⊢
        exact .restarted hreport hout hbefore hnext
      · rw [advance_of_not_outgrows hout] at hnext ⊢
        exact .extended hreport (not_lt.mp hout) hnext

def spaceAfter (p : Problem α n) (s : SearchSpace α n) (rounds : List (Round α n)) :
    SearchSpace α n :=
  rounds.foldl (fun _ r => (p.advance r).1) s

/-- A run without a solution fails in the round after those it has reported. -/
theorem Unfolds.roundAt_of_error {run : Run α n} {rounds : List (Round α n)}
    (h : p.Unfolds index s run rounds) {e : Failure α} (he : run.outcome = .error e) :
    p.roundAt (index + rounds.length) (p.spaceAfter s rounds) = .error e := by
  induction h with
  | failed applied hround =>
      obtain rfl := Except.error.inj he
      exact hround
  | ended status applied hround => cases he
  | @advanced index s r run rest applied hround hrest ih =>
      rw [List.length_cons, Nat.add_comm rest.length, ← Nat.add_assoc]
      exact ih he

/-- The journal keeps to the grammar.  It has an iteration for every round of the solve, and where
there is no solution, it is the round after these that has failed. -/
structure Recounts (p : Problem α n) : Prop where
  grammar : ∃ journal, p.run.events = .started p.opening :: journal ∧
    Journal.Continues p.opening 0 p.firstSpace.size journal p.run.outcome
  reported : Journal.measurements p.run.events = p.rounds.map (·.measurement p.measuresBasis)
  failed : ∀ {e}, p.run.outcome = .error e →
    p.roundAt p.rounds.length (p.spaceAfter p.firstSpace p.rounds) = .error e

end Problem

namespace Solver

variable {solver : Solver α}

/-- A request that is turned down leaves no events, and any other one a journal that recounts the
solve. -/
theorem recounts_of_pose (hd : solver.dense.Shaped) (draws : ℕ → α) (op : LinearOperator α)
    (requested guess : ℕ) :
    (∀ {e}, solver.pose draws op requested guess = .error e →
      solver.solveWith draws op requested guess = ⟨.error e, [], 0⟩) ∧
    ∀ {p}, solver.pose draws op requested guess = .ok p →
      solver.solveWith draws op requested guess = p.run ∧ p.Recounts := by
  constructor
  · intro e he
    rw [solveWith, he]
  · intro p hp
    rw [← (poses_of_pose hp).dense_eq] at hd
    obtain ⟨run, hrun, hprun⟩ := p.unfolds_run
    refine ⟨solveWith_of_pose hp, ⟨run.events, by rw [hprun]; rfl, ?_⟩, p.measurements_run, ?_⟩
    · rw [hprun]
      exact hrun.continues hd p.firstSpace_tracked
    · intro e he
      rw [hprun] at he
      simpa using hrun.roundAt_of_error he

/-- A request for nothing, and one with a run of two rounds and a restart between them. -/
theorem recounts_six_rows :
    let op : LinearOperator ℝ := .ofBlock ⟨6, (Square.coupled 6 5 1).toArray⟩
    exact.dense.Shaped ∧
      (∃ e, exact.pose (fun _ => 0) op 0 5 = .error e ∧
        exact.solveWith (fun _ => 0) op 0 5 = ⟨.error e, [], 0⟩) ∧
      ∃ p : Problem ℝ 6, exact.pose (fun _ => 0) op 1 5 = .ok p ∧
        (p.rounds.length = 2 ∧ .restart 0 6 6 ∈ p.run.events) ∧
          exact.solveWith (fun _ => 0) op 1 5 = p.run ∧ p.Recounts := by
  intro op
  have hd : exact.dense.Shaped := Factorizations.exact_shaped
  refine ⟨hd, ?_, ?_⟩
  · have hnone : ∃ e, exact.pose (fun _ => 0) op 0 5 = .error e := by
      cases hpose : exact.pose (fun _ => 0) op 0 5 with
      | error e => exact ⟨e, rfl⟩
      | ok p =>
          have hpos := (exact.config.settings_bounds (poses_of_pose hpose).settings).1
          exact absurd hpos (lt_irrefl 0)
    obtain ⟨e, he⟩ := hnone
    exact ⟨e, he, (recounts_of_pose hd (fun _ => 0) op 0 5).1 he⟩
  · obtain ⟨p, hp, hrestart⟩ := exists_restart_six_rows
    exact ⟨p, hp, hrestart, (recounts_of_pose hd (fun _ => 0) op 1 5).2 hp⟩

end Solver

end SubspaceEigen
