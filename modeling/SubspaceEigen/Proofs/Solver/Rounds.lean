import Mathlib.Data.List.Basic
import SubspaceEigen.Progress.Journal
import SubspaceEigen.Solver.Basic

/-!
# The rounds of a run

A run reports events and an outcome, but not the search spaces and Ritz pairs on the way.  This
module lists the rounds of a run and ties them to what it reports: the events of every round are
events of the run, and a solution is settled from the last round.
-/

namespace SubspaceEigen

def Journal.measurements {α : Type} (journal : Journal α) : List (Measurement α) :=
  journal.filterMap fun
    | .iteration m => some m
    | _ => none

@[simp] theorem Journal.measurements_append {α : Type} (a b : Journal α) :
    measurements (a ++ b) = measurements a ++ measurements b :=
  List.filterMap_append

/-- The number of rounds that a run has begun: those it reports, and one more if that has failed. -/
def Run.roundsBegun {α : Type} {n : ℕ} (run : Run α n) : ℕ :=
  match run.outcome with
  | .ok _ => (Journal.measurements run.events).length
  | .error _ => (Journal.measurements run.events).length + 1

namespace Problem

variable {α : Type} [Scalar α] {n : ℕ} {p : Problem α n}

def roundAt (p : Problem α n) (index : ℕ) (s : SearchSpace α n) :
    Except (Failure α) (Round α n) :=
  match (s.update p.operator).outcome with
  | .error f => .error (.fault f)
  | .ok updated => p.examine index updated

/-- The rounds from the round `index` on, as `iterate` makes them. -/
def roundsFrom (p : Problem α n) : ℕ → ℕ → SearchSpace α n → List (Round α n)
  | remaining, index, s =>
    match p.roundAt index s with
    | .error _ => []
    | .ok r =>
      if r.converged p.requested then [r]
      else
        match remaining with
        | 0 => [r]
        | remaining + 1 => r :: roundsFrom p remaining (index + 1) (p.advance r).1

def rounds (p : Problem α n) : List (Round α n) :=
  p.roundsFrom (p.config.maxIterations.toNat - 1) 0 p.firstSpace

theorem mem_rounds_of_roundAt {r : Round α n} (h : p.roundAt 0 p.firstSpace = .ok r) :
    r ∈ p.rounds := by
  unfold rounds roundsFrom
  simp only [h]
  split
  · exact List.mem_singleton_self r
  · split
    · exact List.mem_singleton_self r
    · exact List.mem_cons_self

/-- A run from the round `index` on has the rounds listed: it fails at once, or it ends after one
round, or it goes on to the next. -/
inductive Unfolds (p : Problem α n) : ℕ → SearchSpace α n → Run α n → List (Round α n) → Prop where
  | failed {index s e} (applied : ℕ) (h : p.roundAt index s = .error e) :
      Unfolds p index s ⟨.error e, [], applied⟩ []
  | ended {index s r} (status : SolveStatus) (applied : ℕ) (h : p.roundAt index s = .ok r) :
      Unfolds p index s ((p.finish r status).after [] applied) [r]
  | advanced {index s r run rest} (applied : ℕ) (h : p.roundAt index s = .ok r)
      (hrest : Unfolds p (index + 1) (p.advance r).1 run rest) :
      Unfolds p index s (run.after (r.events p.measuresBasis ++ (p.advance r).2) applied)
        (r :: rest)

theorem iterate_of_error {index : ℕ} {s : SearchSpace α n} {e : Failure α}
    (h : p.roundAt index s = .error e) (remaining : ℕ) :
    p.iterate remaining index s = ⟨.error e, [], (s.update p.operator).passed⟩ := by
  rw [iterate]
  cases hupdate : (s.update p.operator).outcome with
  | error f =>
      rw [roundAt, hupdate] at h
      obtain rfl := Except.error.inj h
      rfl
  | ok updated =>
      rw [roundAt, hupdate] at h
      have hexamine : p.examine index updated = .error e := h
      simp only [hexamine]

theorem iterate_of_ok {index : ℕ} {s : SearchSpace α n} {r : Round α n}
    (h : p.roundAt index s = .ok r) (remaining : ℕ) :
    p.iterate remaining index s =
      if r.converged p.requested then
        (p.finish r .converged).after [] (s.update p.operator).passed
      else
        match remaining with
        | 0 => (p.finish r .maxIterationsReached).after [] (s.update p.operator).passed
        | remaining + 1 =>
          (p.iterate remaining (index + 1) (p.advance r).1).after
            (r.events p.measuresBasis ++ (p.advance r).2) (s.update p.operator).passed := by
  rw [iterate]
  cases hupdate : (s.update p.operator).outcome with
  | error f =>
      rw [roundAt, hupdate] at h
      cases h
  | ok updated =>
      rw [roundAt, hupdate] at h
      have hexamine : p.examine index updated = .ok r := h
      cases remaining with
      | zero => simp only [hexamine]
      | succ remaining => simp only [hexamine]

theorem unfolds_iterate (p : Problem α n) (remaining index : ℕ) (s : SearchSpace α n) :
    p.Unfolds index s (p.iterate remaining index s) (p.roundsFrom remaining index s) := by
  induction remaining generalizing index s with
  | zero =>
      rw [roundsFrom]
      cases h : p.roundAt index s with
      | error e =>
          rw [iterate_of_error h]
          exact .failed _ h
      | ok r =>
          rw [iterate_of_ok h]
          simp only [ite_self]
          split
          · exact .ended _ _ h
          · exact .ended _ _ h
  | succ remaining ih =>
      rw [roundsFrom]
      cases h : p.roundAt index s with
      | error e =>
          rw [iterate_of_error h]
          exact .failed _ h
      | ok r =>
          rw [iterate_of_ok h]
          simp only
          split
          · exact .ended _ _ h
          · exact .advanced _ h (ih _ _)

/-- The ways in which a round ends: the operator does not fit the basis, nothing is extracted from
the updated space, or the round holds what is. -/
inductive RoundEnds (p : Problem α n) (index : ℕ) (s : SearchSpace α n) :
    Except (Failure α) (Round α n) → Prop where
  | notUpdated {f} (hupdate : (s.update p.operator).outcome = .error f) :
      RoundEnds p index s (.error (.fault f))
  | notExtracted {updated e} (hupdate : (s.update p.operator).outcome = .ok updated)
      (hextract : p.extract updated = .error e) : RoundEnds p index s (.error e)
  | examined {updated extraction conjugates}
      (hupdate : (s.update p.operator).outcome = .ok updated)
      (hextract : p.extract updated = .ok (extraction, conjugates)) :
      RoundEnds p index s (.ok {
        index := index
        space := { updated with flags := p.flagged extraction.residualNorms updated.tracked }
        extraction := extraction
        norms := extraction.residualNorms
        conjugates := conjugates })

theorem roundAt_ends (p : Problem α n) (index : ℕ) (s : SearchSpace α n) :
    p.RoundEnds index s (p.roundAt index s) := by
  unfold roundAt examine
  split
  · next hupdate => exact .notUpdated hupdate
  next updated hupdate =>
  split
  · next hextract => exact .notExtracted hupdate hextract
  · next hextract => exact .examined hupdate hextract

theorem roundAt_index {index : ℕ} {s : SearchSpace α n} {r : Round α n}
    (h : p.roundAt index s = .ok r) : r.index = index := by
  cases h ▸ p.roundAt_ends index s with
  | examined hupdate hextract => rfl

def Outgrows (p : Problem α n) (r : Round α n) : Prop :=
  p.settings.searchLimit < (p.enlarge r).1.size

theorem advance_of_outgrows {r : Round α n} (h : p.Outgrows r) :
    p.advance r =
      let rebuilt := (p.enlarge r).1.restart (p.restartBasis r (p.enlarge r).1 (p.enlarge r).2)
      (rebuilt, [.restart r.index (p.enlarge r).1.size rebuilt.size]) :=
  if_pos h

theorem advance_of_not_outgrows {r : Round α n} (h : ¬ p.Outgrows r) :
    p.advance r = ((p.enlarge r).1, []) :=
  if_neg h

theorem restart_mem_advance {r : Round α n} {i before after : ℕ}
    (h : .restart i before after ∈ (p.advance r).2) : i = r.index ∧ p.Outgrows r := by
  by_cases hout : p.Outgrows r
  · rw [advance_of_outgrows hout] at h
    obtain ⟨rfl, -, -⟩ := Event.restart.inj (List.mem_singleton.mp h)
    exact ⟨rfl, hout⟩
  · rw [advance_of_not_outgrows hout] at h
    cases h

theorem restart_notMem_events (r : Round α n) (measures : Bool) (i before after : ℕ) :
    .restart i before after ∉ r.events measures := by
  unfold Round.events
  split <;> simp

theorem measurements_events (r : Round α n) (measures : Bool) :
    Journal.measurements (r.events measures) = [r.measurement measures] := by
  unfold Round.events
  split <;> rfl

theorem measurements_advance (r : Round α n) : Journal.measurements (p.advance r).2 = [] := by
  by_cases hout : p.Outgrows r
  · rw [advance_of_outgrows hout]
    rfl
  · rw [advance_of_not_outgrows hout]
    rfl

theorem roundsBegun_finish (r : Round α n) (status : SolveStatus) (applied : ℕ) :
    ((p.finish r status).after [] applied).roundsBegun = 1 := by
  simp only [Run.roundsBegun, Run.after, finish, List.nil_append, Journal.measurements_append,
    measurements_events]
  rfl

theorem roundsBegun_after (r : Round α n) (run : Run α n) (applied : ℕ) :
    (run.after (r.events p.measuresBasis ++ (p.advance r).2) applied).roundsBegun =
      run.roundsBegun + 1 := by
  simp only [Run.roundsBegun, Run.after, Journal.measurements_append, measurements_events,
    measurements_advance, List.append_nil, List.length_append, List.length_singleton]
  cases run.outcome with
  | ok solution => exact Nat.add_comm _ _
  | error e => exact congrArg (· + 1) (Nat.add_comm _ _)

theorem restart_mem_after {r : Round α n} {run : Run α n} {applied i before after : ℕ} :
    .restart i before after ∈
        (run.after (r.events p.measuresBasis ++ (p.advance r).2) applied).events ↔
      .restart i before after ∈ (p.advance r).2 ∨ .restart i before after ∈ run.events := by
  simp [Run.after, restart_notMem_events]

namespace Unfolds

variable {index : ℕ} {s : SearchSpace α n} {run : Run α n} {rounds : List (Round α n)}

theorem index_eq (h : p.Unfolds index s run rounds) {i : ℕ} {r : Round α n}
    (hr : rounds[i]? = some r) : r.index = index + i := by
  induction h generalizing i with
  | failed => cases hr
  | ended status applied hround =>
      cases i with
      | zero =>
          obtain rfl := Option.some.inj hr
          exact roundAt_index hround
      | succ i => cases hr
  | advanced applied hround hrest ih =>
      cases i with
      | zero =>
          obtain rfl := Option.some.inj hr
          exact roundAt_index hround
      | succ i =>
          have hlater := ih hr
          omega

/-- A property of spaces that holds before a run and goes from one round to the next holds of the
space of every round. -/
theorem exists_space (h : p.Unfolds index s run rounds) {Inv : SearchSpace α n → Prop}
    (hs : Inv s)
    (hstep : ∀ {i s r}, Inv s → p.roundAt i s = .ok r → Inv (p.advance r).1) :
    ∀ r ∈ rounds, ∃ i s, Inv s ∧ p.roundAt i s = .ok r := by
  induction h with
  | failed => nofun
  | ended status applied hround =>
      intro r hr
      obtain rfl := List.mem_singleton.mp hr
      exact ⟨_, _, hs, hround⟩
  | advanced applied hround hrest ih =>
      intro r hr
      rcases List.mem_cons.mp hr with rfl | hr
      · exact ⟨_, _, hs, hround⟩
      · exact ih (hstep hs hround) r hr

/-- The next round looks at the space to which the last one advanced. -/
theorem roundAt_next (h : p.Unfolds index s run rounds) {i : ℕ} {r next : Round α n}
    (hr : rounds[i]? = some r) (hnext : rounds[i + 1]? = some next) :
    p.roundAt (r.index + 1) (p.advance r).1 = .ok next := by
  induction h generalizing i with
  | failed => cases hr
  | ended status applied hround => cases hnext
  | advanced applied hround hrest ih =>
      cases i with
      | succ i => exact ih hr hnext
      | zero =>
          obtain rfl := Option.some.inj hr
          rw [roundAt_index hround]
          cases hrest with
          | failed => cases hnext
          | ended status applied hround =>
              obtain rfl := Option.some.inj hnext
              exact hround
          | advanced applied hround hrest =>
              obtain rfl := Option.some.inj hnext
              exact hround

/-- A solution is settled from the last round. -/
theorem exists_last (h : p.Unfolds index s run rounds) {solution : Solution α n}
    (hsolution : run.outcome = .ok solution) :
    ∃ r status, rounds.getLast? = some r ∧ (p.finish r status).outcome = .ok solution := by
  induction h with
  | failed => cases hsolution
  | ended status applied hround => exact ⟨_, status, rfl, hsolution⟩
  | advanced applied hround hrest ih =>
      obtain ⟨last, status, hlast, hfinish⟩ := ih hsolution
      refine ⟨last, status, ?_, hfinish⟩
      rw [List.getLast?_cons, hlast]
      rfl

theorem index_le_of_restart (h : p.Unfolds index s run rounds) {i before after : ℕ}
    (hmem : .restart i before after ∈ run.events) : index ≤ i := by
  induction h with
  | failed => cases hmem
  | ended status applied hround =>
      simp [Run.after, finish, restart_notMem_events] at hmem
  | advanced applied hround hrest ih =>
      rcases restart_mem_after.mp hmem with hmem | hmem
      · have hsame := (restart_mem_advance hmem).1.trans (roundAt_index hround)
        omega
      · exact Nat.le_of_succ_le (ih hmem)

/-- A run reports a restart between two rounds exactly when the space has outgrown its limit. -/
theorem restart_mem_iff (h : p.Unfolds index s run rounds) {i : ℕ} {r next : Round α n}
    (hr : rounds[i]? = some r) (hnext : rounds[i + 1]? = some next) :
    (∃ before after, .restart r.index before after ∈ run.events) ↔ p.Outgrows r := by
  induction h generalizing i with
  | failed => cases hr
  | ended status applied hround => cases hnext
  | @advanced _ _ head _ _ applied hround hrest ih =>
      have hhead := roundAt_index hround
      cases i with
      | zero =>
          obtain rfl := Option.some.inj hr
          constructor
          · rintro ⟨before, after, hmem⟩
            rcases restart_mem_after.mp hmem with hmem | hmem
            · exact (restart_mem_advance hmem).2
            · have hlater := hrest.index_le_of_restart hmem
              omega
          · intro hout
            have hmem : .restart head.index (p.enlarge head).1.size (p.advance head).1.size ∈
                (p.advance head).2 := by
              rw [advance_of_outgrows hout]
              exact List.mem_singleton_self _
            exact ⟨_, _, restart_mem_after.mpr (.inl hmem)⟩
      | succ i =>
          have hindex := hrest.index_eq hr
          rw [← ih hr hnext]
          refine exists_congr fun before => exists_congr fun after => ?_
          rw [restart_mem_after, or_iff_right]
          intro hmem
          have hsame := (restart_mem_advance hmem).1
          omega

/-- Every round is reported once, in order. -/
theorem measurements_eq (h : p.Unfolds index s run rounds) :
    Journal.measurements run.events = rounds.map (·.measurement p.measuresBasis) := by
  induction h with
  | failed => rfl
  | ended status applied hround =>
      simp only [Run.after, finish, List.nil_append, Journal.measurements_append,
        measurements_events]
      rfl
  | advanced applied hround hrest ih =>
      simp only [Run.after, Journal.measurements_append, measurements_events,
        measurements_advance, ih]
      rfl

end Unfolds

theorem unfolds_run (p : Problem α n) :
    ∃ run, p.Unfolds 0 p.firstSpace run p.rounds ∧ p.run = run.after [.started p.opening] 0 :=
  ⟨_, p.unfolds_iterate _ _ _, rfl⟩

theorem index_of_getElem? {i : ℕ} {r : Round α n} (hr : p.rounds[i]? = some r) : r.index = i := by
  obtain ⟨run, hrun, -⟩ := p.unfolds_run
  rw [hrun.index_eq hr, Nat.zero_add]

theorem measurements_run (p : Problem α n) :
    Journal.measurements p.run.events = p.rounds.map (·.measurement p.measuresBasis) := by
  obtain ⟨run, hrun, hprun⟩ := p.unfolds_run
  rw [hprun, ← hrun.measurements_eq]
  rfl

theorem restart_mem_run_iff {i : ℕ} {r next : Round α n} (hr : p.rounds[i]? = some r)
    (hnext : p.rounds[i + 1]? = some next) :
    (∃ before after, .restart i before after ∈ p.run.events) ↔ p.Outgrows r := by
  obtain ⟨run, hrun, hprun⟩ := p.unfolds_run
  rw [hprun, ← hrun.restart_mem_iff hr hnext, index_of_getElem? hr]
  refine exists_congr fun before => exists_congr fun after => ?_
  simp [Run.after]

end Problem

end SubspaceEigen
