import SubspaceEigen.Proofs.Solver.Sizes

/-!
# Restarts that shrink the search space

A restart puts leading Ritz vectors in the place of the old basis, one for each guess vector, and
keeps the columns just added.  It is smaller than what it replaces if the old basis was larger than
the guess.  Where the limit leaves room for the guess and all tracked roots, a space that has
outgrown it began its round with more columns than the guess has; this holds in any arithmetic.
-/

namespace SubspaceEigen

variable {α : Type} {n : ℕ}

/-- Every restart of the run leaves fewer columns than there were. -/
def Run.Shrinks (run : Run α n) : Prop :=
  ∀ i before after, .restart i before after ∈ run.events → after < before

/-- The limit has room for the guess and the tracked roots together, or for the whole dimension. -/
def EffectiveSettings.HasRoom (settings : EffectiveSettings) (n : ℕ) : Prop :=
  min n (settings.initialGuess + settings.trackedRoots) ≤ settings.searchLimit

instance (settings : EffectiveSettings) (n : ℕ) : Decidable (settings.HasRoom n) :=
  inferInstanceAs (Decidable (_ ≤ _))

variable [Scalar α]

namespace Problem

variable {p : Problem α n} {s : SearchSpace α n} {r : Round α n}

/-- The step: with room for guess and tracked roots, a restart shrinks the enlarged space. -/
theorem Observes.size_advance_lt (h : p.Observes s r) (hd : p.dense.Shaped) (hs : p.Fits s)
    (hroom : p.settings.HasRoom n) (hout : p.Outgrows r) :
    (p.advance r).1.size < (p.enlarge r).1.size := by
  have hlimit : p.settings.searchLimit < (p.enlarge r).1.size := hout
  have henlarged := (steps hd r).enlarged
  have hrebuilt := (steps hd r).rebuilt hout
  have hbefore : r.space.size ≤ n := by
    rw [h.size_eq]
    exact hs.size_le.trans (min_le_left _ _)
  have hpairs : r.extraction.pairs.length ≤ r.space.size := by
    rw [h.size_eq]
    exact h.length_pairs_le hd
  have hunconverged := h.unconverged_le hd hs
  unfold EffectiveSettings.HasRoom at hroom
  omega

/-- The run: every restart of a solve with room shrinks its space. -/
theorem shrinks_of_hasRoom (hd : p.dense.Shaped) (hguess : p.settings.initialGuess ≤ n)
    (hroom : p.settings.HasRoom n) : p.run.Shrinks := by
  intro i before after hrestart
  obtain ⟨r, hr, hout, rfl, rfl⟩ := p.exists_outgrown hrestart
  obtain ⟨s, hs, hobserves⟩ := p.exists_fits hd hguess r hr
  exact hobserves.size_advance_lt hd hs hroom hout

/-- A solve that may make one round only does not restart. -/
theorem shrinks_of_maxIterations_le (h : p.config.maxIterations.toNat ≤ 1) : p.run.Shrinks := by
  intro i before after hrestart
  rw [run, Nat.sub_eq_zero_of_le h] at hrestart
  cases hround : p.roundAt 0 p.firstSpace with
  | error e => simp [iterate_of_error hround, Run.after] at hrestart
  | ok r =>
      rw [iterate_of_ok hround] at hrestart
      split at hrestart
      · simp [Run.after, finish, restart_notMem_events] at hrestart
      · simp [Run.after, finish, restart_notMem_events] at hrestart

theorem shrinks_of_converged (hround : p.roundAt 0 p.firstSpace = .ok r)
    (h : r.converged p.requested = true) : p.run.Shrinks := by
  intro i before after hrestart
  simp [run, iterate_of_ok hround, h, Run.after, finish, restart_notMem_events] at hrestart

end Problem

namespace Solver

variable {solver : Solver α} {op : LinearOperator α} {draws : ℕ → α} {requested guess : ℕ}

theorem shrinks_of_forall_pose
    (h : ∀ p, solver.pose draws op requested guess = .ok p → p.run.Shrinks) :
    (solver.solveWith draws op requested guess).Shrinks := by
  unfold solveWith
  split
  · nofun
  · next p hp => exact h p hp

/-- In any arithmetic, for either kind of operator and any guess. -/
theorem shrinks_of_hasRoom (hd : solver.dense.Shaped) {settings : EffectiveSettings}
    (hsettings : solver.config.effectiveSettings op.rows requested guess = .ok settings)
    (hroom : settings.HasRoom op.rows) : (solver.solveWith draws op requested guess).Shrinks := by
  refine shrinks_of_forall_pose fun p h => ?_
  have hp := poses_of_pose h
  obtain rfl := Except.ok.inj (hsettings.symm.trans hp.settings)
  refine Problem.shrinks_of_hasRoom (hp.dense_eq ▸ hd) ?_ hroom
  exact (solver.config.initialGuess_bounds hsettings).2.trans (OperatorKind.available_le _ _)

end Solver

end SubspaceEigen
