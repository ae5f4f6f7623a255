import SubspaceEigen.Proofs.Solver.Coupled
import SubspaceEigen.Proofs.Solver.Shrinking

/-!
# Restarts that leave the space as large as it was

Where the limit has no room for the guess and the tracked roots together, a coupled matrix is
restarted in vain: its space outgrows the limit at once, and the restart keeps all of it.  So the
room that restarts need to shrink the space of every symmetric operator is known exactly.
-/

namespace SubspaceEigen

namespace Solver

variable {n : ℕ} {solver : Solver ℝ} {requested guess : ℕ} {settings : EffectiveSettings}

/-- Every restart shrinks the space, whatever the symmetric operator of dimension `n`. -/
def AlwaysShrinks (solver : Solver ℝ) (n requested guess : ℕ) : Prop :=
  ∀ (op : LinearOperator ℝ) (f : Euclid op.rows →ₗ[ℝ] Euclid op.rows), op.rows = n →
    op.ActsAs f → f.IsSymmetric → ∀ draws, (solver.solveWith draws op requested guess).Shrinks

/-- Without noise, an exact symmetric solver can be sure that its restarts shrink only if it makes
none or has room for the guess and the tracked roots together. -/
theorem alwaysShrinks_iff (hshaped : solver.dense.Shaped) (hd : solver.dense.TriangularExact)
    (hs : solver.dense.SymmetricExact) (hvalid : solver.config.validate = .ok ())
    (hkind : solver.config.kind = .symmetric) (hnoise : solver.config.guessNoise ≤ 0)
    (hsettings : solver.config.effectiveSettings n requested guess = .ok settings) :
    solver.AlwaysShrinks n requested guess ↔
      solver.config.maxIterations.toNat ≤ 1 ∨ settings.initialGuess = n ∨ settings.HasRoom n := by
  obtain ⟨-, -, -, havailable⟩ := solver.config.settings_bounds hsettings
  constructor
  · intro hshrinks
    by_contra hnot
    obtain ⟨hmax, hguess, hroom⟩ : 1 < solver.config.maxIterations.toNat ∧
        settings.initialGuess ≠ n ∧ ¬ settings.HasRoom n := by
      simpa only [not_or, not_le] using hnot
    have hlt : settings.initialGuess < n :=
      lt_of_le_of_ne (havailable.trans (OperatorKind.available_le _ _)) hguess
    let a := Square.coupled n settings.initialGuess solver.config.tolerance
    obtain ⟨p, hp, hsame, hcoupled⟩ :=
      exists_isCoupled hvalid hkind hnoise le_rfl hsettings hlt fun _ => 0
    have hposes := poses_of_pose hp
    rw [← hposes.dense_eq] at hd hs
    rw [← hposes.config_eq] at hmax
    rw [← hsame] at hroom
    have hrun := hshrinks (.ofBlock ⟨n, a.toArray⟩) a.toLinearMap rfl
      (LinearOperator.ofBlock_actsAs a)
      (Square.toLinearMap_isSymmetric (Square.coupled_isSymmetric _ _ _)) fun _ => 0
    rw [solveWith_of_pose hp] at hrun
    exact lt_irrefl _ (hrun 0 _ _ (hcoupled.restart_mem hd hs (not_le.mp hroom) hmax))
  · rintro hcases op f rfl hop hf draws
    rcases hcases with hmax | hguess | hroom
    · refine shrinks_of_forall_pose fun p hp => p.shrinks_of_maxIterations_le ?_
      rw [(poses_of_pose hp).config_eq]
      exact hmax
    · refine shrinks_of_forall_pose fun p hp => ?_
      obtain rfl := Except.ok.inj (hsettings.symm.trans (poses_of_pose hp).settings)
      obtain ⟨r, hround, hsize⟩ := exists_full_round hd hs hkind hnoise hop hp hguess
      exact p.shrinks_of_converged hround
        (converged_of_size_eq hd hs hkind hop hp hf (p.mem_rounds_of_roundAt hround) hsize)
    · exact shrinks_of_hasRoom hshaped hsettings hroom

/-- With room for the guess and the tracked roots together every restart shrinks the space, in any
arithmetic.  Without it the restarts of a symmetric solver without noise shrink the space of every
symmetric operator only if the guess fills the space at once or there is but one round. -/
theorem restarts_shrink {α : Type} [Scalar α] {solver : Solver α} (hshaped : solver.dense.Shaped)
    {n requested guess : ℕ} {settings : EffectiveSettings}
    (hsettings : solver.config.effectiveSettings n requested guess = .ok settings) :
    (settings.HasRoom n → ∀ (op : LinearOperator α) (draws : ℕ → α), op.rows = n →
      (solver.solveWith draws op requested guess).Shrinks) ∧
    ∀ exact : Solver ℝ, exact.dense.Shaped → exact.dense.TriangularExact →
      exact.dense.SymmetricExact → exact.config.validate = .ok () →
        exact.config.kind = .symmetric → exact.config.guessNoise ≤ 0 →
          exact.config.effectiveSettings n requested guess = .ok settings →
            (exact.AlwaysShrinks n requested guess ↔
              exact.config.maxIterations.toNat ≤ 1 ∨ settings.initialGuess = n ∨
                settings.HasRoom n) := by
  refine ⟨?_, fun exact hshaped hd hs hvalid hkind hnoise hsettings =>
    alwaysShrinks_iff hshaped hd hs hvalid hkind hnoise hsettings⟩
  rintro hroom op draws rfl
  exact shrinks_of_hasRoom hshaped hsettings hroom

/-- One root of an operator with six rows, under the standard settings: there is room for two guess
vectors, but not for five. -/
theorem restarts_shrink_six_rows :
    let solver : Solver Binary64 := ⟨.standard, .standard, true, fun _ => 0⟩
    (solver.dense.Shaped ∧ solver.config.effectiveSettings 6 1 2 = .ok ⟨2, 1, 5⟩ ∧
      ∀ (op : LinearOperator Binary64) (draws : ℕ → Binary64), op.rows = 6 →
        (solver.solveWith draws op 1 2).Shrinks) ∧
    exact.dense.Shaped ∧ exact.config.effectiveSettings 6 1 5 = .ok ⟨5, 1, 5⟩ ∧
      ¬ exact.AlwaysShrinks 6 1 5 := by
  intro solver
  have hstandard : solver.dense.Shaped := Factorizations.standard_shaped
  have hshaped : exact.dense.Shaped := Factorizations.exact_shaped
  have hwide : solver.config.effectiveSettings 6 1 2 = .ok ⟨2, 1, 5⟩ := rfl
  have hnarrow : exact.config.effectiveSettings 6 1 5 = .ok ⟨5, 1, 5⟩ := rfl
  refine ⟨⟨hstandard, hwide, (restarts_shrink hstandard hwide).1 (by decide)⟩, hshaped, hnarrow,
    fun hshrinks => ?_⟩
  have hiff := (restarts_shrink hshaped hnarrow).2 exact hshaped
    Factorizations.exact_triangularExact Factorizations.exact_symmetricExact exact_validate
    rfl le_rfl hnarrow
  rcases hiff.mp hshrinks with hmax | hguess | hroom
  · exact absurd hmax (by decide)
  · exact absurd hguess (by decide)
  · exact absurd hroom (by decide)

/-- The matrix with the diagonal `0, …, 5` and ones in the rest of its last row and column, and five
guess vectors under the standard settings: the first restart goes from six columns to six. -/
theorem restart_keeps_all :
    let a : Square ℝ 6 := Square.coupled 6 5 1
    let run := exact.solveWith (fun _ => 0) (.ofBlock ⟨6, a.toArray⟩) 1 5
    exact.config.validate = .ok () ∧ .restart 0 6 6 ∈ run.events ∧ ¬ run.Shrinks := by
  intro a run
  obtain ⟨p, hp, -, hrestart⟩ := exists_restart_six_rows
  have hrun : run = p.run := solveWith_of_pose hp
  rw [hrun]
  exact ⟨exact_validate, hrestart, fun hshrinks => lt_irrefl 6 (hshrinks 0 6 6 hrestart)⟩

end Solver

end SubspaceEigen
