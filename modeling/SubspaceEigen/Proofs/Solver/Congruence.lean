import SubspaceEigen.Proofs.Solver.Rounds

/-!
# Problems with the same rounds

A run depends on its problem by way of a few functions only: how a round looks at a space, how the
space goes on, and what a round settles.  Problems on which these agree have the same run.  The
limit of the search space is kept apart, since it says nothing until a space outgrows it.
-/

namespace SubspaceEigen

variable {α : Type} [Scalar α] {n : ℕ}

omit [Scalar α] in
theorem Journal.restarts_append (a b : Journal α) :
    restarts (a ++ b) = restarts a + restarts b :=
  List.countP_append

namespace Problem

variable {p q : Problem α n}

/-- The problems agree on all that a round does, except when it restarts. -/
structure Alike (p q : Problem α n) : Prop where
  firstSpace : q.firstSpace = p.firstSpace
  roundAt : ∀ index s, q.roundAt index s = p.roundAt index s
  passed : ∀ s : SearchSpace α n, (s.update q.operator).passed = (s.update p.operator).passed
  requested : q.requested = p.requested
  measuresBasis : q.measuresBasis = p.measuresBasis
  enlarge : ∀ r, q.enlarge r = p.enlarge r
  restartBasis : ∀ r s fresh, q.restartBasis r s fresh = p.restartBasis r s fresh
  finish : ∀ r status, q.finish r status = p.finish r status

/-- A round that brings about no restart leads to the same space under a larger limit. -/
theorem Alike.advance (h : p.Alike q) {r : Round α n}
    (hlimit : p.settings.searchLimit ≤ q.settings.searchLimit)
    (hstays : q.settings.searchLimit = p.settings.searchLimit ∨
      Journal.restarts (p.advance r).2 = 0) :
    q.advance r = p.advance r := by
  have hbelow : ¬ p.Outgrows r → ¬ q.Outgrows r := by
    intro hnot hout
    exact hnot (Nat.lt_of_le_of_lt hlimit (h.enlarge r ▸ hout))
  by_cases hout : p.Outgrows r
  · rcases hstays with hsame | hnone
    · have hout' : q.Outgrows r := by
        rw [Outgrows, hsame, h.enlarge]
        exact hout
      rw [advance_of_outgrows hout, advance_of_outgrows hout', h.enlarge, h.restartBasis]
    · rw [advance_of_outgrows hout] at hnone
      cases hnone
  · rw [advance_of_not_outgrows hout, advance_of_not_outgrows (hbelow hout), h.enlarge]

theorem restarts_events (r : Round α n) (measures : Bool) :
    Journal.restarts (r.events measures) = 0 := by
  unfold Round.events
  split <;> rfl

theorem restarts_after (r : Round α n) (run : Run α n) (applied : ℕ) :
    Journal.restarts (run.after (r.events p.measuresBasis ++ (p.advance r).2) applied).events =
      Journal.restarts (p.advance r).2 + Journal.restarts run.events := by
  simp only [Run.after, Journal.restarts_append, restarts_events, Nat.zero_add]

/-- Under a larger limit, a run without restarts is the same. -/
theorem Alike.iterate (h : p.Alike q) (hlimit : p.settings.searchLimit ≤ q.settings.searchLimit)
    {remaining index : ℕ} {s : SearchSpace α n}
    (hstays : q.settings.searchLimit = p.settings.searchLimit ∨
      Journal.restarts (p.iterate remaining index s).events = 0) :
    q.iterate remaining index s = p.iterate remaining index s := by
  induction remaining generalizing index s with
  | zero =>
      cases hround : p.roundAt index s with
      | error e =>
          have hround' := (h.roundAt index s).trans hround
          rw [iterate_of_error hround, iterate_of_error hround', h.passed]
      | ok r =>
          have hround' := (h.roundAt index s).trans hround
          rw [iterate_of_ok hround, iterate_of_ok hround', h.requested, h.passed]
          simp only [h.finish]
  | succ remaining ih =>
      cases hround : p.roundAt index s with
      | error e =>
          have hround' := (h.roundAt index s).trans hround
          rw [iterate_of_error hround, iterate_of_error hround', h.passed]
      | ok r =>
          have hround' := (h.roundAt index s).trans hround
          rw [iterate_of_ok hround] at hstays ⊢
          rw [iterate_of_ok hround', h.requested, h.passed]
          by_cases hconverged : r.converged p.requested
          · simp only [if_pos hconverged, h.finish]
          · simp only [if_neg hconverged, restarts_after, Nat.add_eq_zero_iff] at hstays ⊢
            rw [h.advance hlimit (hstays.imp_right And.left), h.measuresBasis,
              ih (hstays.imp_right And.right)]

end Problem

end SubspaceEigen
