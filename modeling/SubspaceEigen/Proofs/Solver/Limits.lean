import SubspaceEigen.Proofs.Solver.Congruence
import SubspaceEigen.Proofs.Solver.Coupled

/-!
# The limits of a solve

The number of rounds and the size of the search space are limited.  The first limit cuts a run off
where it stands: up to its last round it has done what a longer run does.  The second limit is not
noticed before it is exceeded.  The opening of a journal names both, so runs that differ in a limit
can be the same in all but their openings.

All of this holds in any arithmetic and for any operator, also for requests that are turned down and
for solves that fail.
-/

namespace SubspaceEigen

open Column

variable {α : Type} {n : ℕ}

def Journal.reopen (change : Opening α → Opening α) : Journal α → Journal α
  | .started o :: rest => .started (change o) :: rest
  | journal => journal

namespace Run

def reopen (change : Opening α → Opening α) (run : Run α n) : Run α n :=
  { run with events := Journal.reopen change run.events }

/-- The run has failed or converged, and that within its first `m` rounds. -/
structure EndsWithin (run : Run α n) (m : ℕ) : Prop where
  roundsBegun_le : run.roundsBegun ≤ m
  converged : ∀ {solution}, run.outcome = .ok solution → solution.status = .converged

/-- The run stops without success after the iteration `m - 1`, and up to that its events are those
of the longer run. -/
structure CutsOff (run longer : Run α n) (m : ℕ) : Prop where
  outcome : ∃ solution, run.outcome = .ok solution ∧
    solution.status = .maxIterationsReached ∧ solution.iterations = m
  events : ∃ before last elapsed later, last.iteration + 1 = m ∧
    run.events = before ++ [.iteration last, .finished false m elapsed] ∧
      longer.events = before ++ .iteration last :: later

theorem endsWithin_failed (e : Failure α) (applied m : ℕ) :
    EndsWithin (⟨.error e, [], applied⟩ : Run α n) (m + 1) :=
  ⟨Nat.succ_le_succ (Nat.zero_le m), nofun⟩

theorem endsWithin_after_started_iff {run : Run α n} {o : Opening α} {applied m : ℕ} :
    (run.after [.started o] applied).EndsWithin m ↔ run.EndsWithin m :=
  ⟨fun h => ⟨h.roundsBegun_le, h.converged⟩, fun h => ⟨h.roundsBegun_le, h.converged⟩⟩

theorem CutsOff.after {run longer : Run α n} {m : ℕ} (h : run.CutsOff longer m)
    (events : List (Event α)) (applied applied' : ℕ) :
    (run.after events applied).CutsOff (longer.after events applied') m := by
  obtain ⟨before, last, elapsed, later, hlast, hrun, hlonger⟩ := h.events
  refine ⟨h.outcome, events ++ before, last, elapsed, later, hlast, ?_, ?_⟩
  · rw [Run.after, hrun, List.append_assoc]
  · rw [Run.after, hlonger, List.append_assoc]

end Run

theorem Config.effectiveSettings_searchLimit (c : Config α) (limit : Option UInt64)
    (n requested guess : ℕ) :
    ({ c with searchLimit := limit }).effectiveSettings n requested guess =
      (c.effectiveSettings n requested guess).map fun settings => { settings with
        searchLimit := ({ c with searchLimit := limit }).searchLimitFor n requested } := by
  by_cases hnothing : requested = 0
  · simp only [effectiveSettings, if_pos hnothing]
    rfl
  by_cases hmany : c.kind.available n < requested
  · simp only [effectiveSettings, if_neg hnothing, if_pos hmany]
    rfl
  · simp only [effectiveSettings, if_neg hnothing, if_neg hmany]
    rfl

variable [Scalar α]

namespace Problem

variable {p : Problem α n} {r : Round α n} {run : Run α n} {applied : ℕ}

theorem roundsBegun_iterate_pos (p : Problem α n) (remaining index : ℕ) (s : SearchSpace α n) :
    0 < (p.iterate remaining index s).roundsBegun := by
  cases hround : p.roundAt index s with
  | error e =>
      rw [iterate_of_error hround]
      exact Nat.succ_pos _
  | ok r =>
      rw [iterate_of_ok hround]
      split
      · rw [roundsBegun_finish]
        exact one_pos
      · cases remaining with
        | zero =>
            rw [roundsBegun_finish]
            exact one_pos
        | succ remaining =>
            rw [roundsBegun_after]
            exact Nat.succ_pos _

theorem endsWithin_after_iff {m : ℕ} :
    (run.after (r.events p.measuresBasis ++ (p.advance r).2) applied).EndsWithin (m + 1) ↔
      run.EndsWithin m := by
  constructor
  · rintro ⟨hrounds, hconverged⟩
    rw [roundsBegun_after] at hrounds
    exact ⟨Nat.le_of_succ_le_succ hrounds, hconverged⟩
  · rintro ⟨hrounds, hconverged⟩
    refine ⟨?_, hconverged⟩
    rw [roundsBegun_after]
    exact Nat.succ_le_succ hrounds

theorem endsWithin_finish (p : Problem α n) (r : Round α n) (applied m : ℕ) :
    ((p.finish r .converged).after [] applied).EndsWithin (m + 1) where
  roundsBegun_le := by
    rw [roundsBegun_finish]
    exact Nat.succ_le_succ (Nat.zero_le m)
  converged := by
    intro solution hsolution
    obtain rfl := Except.ok.inj hsolution
    rfl

/-- A run that is stopped after one round begins like any run with that round. -/
theorem cutsOff_finish {longer : Run α n} {later : List (Event α)}
    (hlonger : longer.events = r.events p.measuresBasis ++ later) :
    ((p.finish r .maxIterationsReached).after [] applied).CutsOff longer (r.index + 1) where
  outcome := ⟨_, rfl, rfl, rfl⟩
  events := by
    refine ⟨if 0 < r.conjugates then [.complexPairs r.index r.conjugates] else [],
      r.measurement p.measuresBasis, p.clock r.index, later, rfl, ?_, ?_⟩
    · simp [Run.after, finish, Round.events]
    · rw [hlonger, Round.events, List.append_assoc]
      rfl

/-- With fewer rounds left, a run is the same if it ends in time, and it is cut off otherwise. -/
theorem iterate_cutsOff {remaining longer : ℕ} (hle : remaining ≤ longer) (index : ℕ)
    (s : SearchSpace α n) :
    ((p.iterate longer index s).EndsWithin (remaining + 1) →
      p.iterate remaining index s = p.iterate longer index s) ∧
    (¬ (p.iterate longer index s).EndsWithin (remaining + 1) →
      (p.iterate remaining index s).CutsOff (p.iterate longer index s)
        (index + remaining + 1)) := by
  induction remaining generalizing longer index s with
  | zero =>
      cases hround : p.roundAt index s with
      | error e =>
          rw [iterate_of_error hround, iterate_of_error hround]
          exact ⟨fun _ => rfl, fun hnot => absurd (Run.endsWithin_failed ..) hnot⟩
      | ok r =>
          rw [iterate_of_ok hround, iterate_of_ok hround]
          by_cases hconverged : r.converged p.requested
          · rw [if_pos hconverged, if_pos hconverged]
            exact ⟨fun _ => rfl, fun hnot => absurd (p.endsWithin_finish r _ 0) hnot⟩
          · rw [if_neg hconverged, if_neg hconverged, ← roundAt_index hround]
            cases longer with
            | zero => exact ⟨fun _ => rfl, fun _ => cutsOff_finish rfl⟩
            | succ longer =>
                refine ⟨fun hends => ?_, fun _ => cutsOff_finish (List.append_assoc ..)⟩
                have hpos := p.roundsBegun_iterate_pos longer (r.index + 1) (p.advance r).1
                have hnone := (endsWithin_after_iff.mp hends).roundsBegun_le
                omega
  | succ remaining ih =>
      obtain ⟨longer, rfl⟩ : ∃ k, longer = k + 1 := ⟨longer - 1, by omega⟩
      cases hround : p.roundAt index s with
      | error e =>
          rw [iterate_of_error hround, iterate_of_error hround]
          exact ⟨fun _ => rfl, fun hnot => absurd (Run.endsWithin_failed ..) hnot⟩
      | ok r =>
          rw [iterate_of_ok hround, iterate_of_ok hround]
          by_cases hconverged : r.converged p.requested
          · rw [if_pos hconverged, if_pos hconverged]
            exact ⟨fun _ => rfl, fun hnot => absurd (p.endsWithin_finish r _ _) hnot⟩
          · simp only [if_neg hconverged, endsWithin_after_iff]
            obtain ⟨hsame, hcuts⟩ := ih (Nat.le_of_succ_le_succ hle) (index + 1) (p.advance r).1
            refine ⟨fun hends => by rw [hsame hends], fun hnot => ?_⟩
            have hrounds : index + (remaining + 1) + 1 = index + 1 + remaining + 1 := by omega
            rw [hrounds]
            exact (hcuts hnot).after _ _ _

def reconfigure (p : Problem α n) (c : Config α)
    (change : EffectiveSettings → EffectiveSettings) : Problem α n :=
  { p with config := c, settings := change p.settings }

theorem alike_maxIterations (p : Problem α n) (m : UInt64) :
    p.Alike (p.reconfigure { p.config with maxIterations := m } id) where
  firstSpace := rfl
  roundAt _ _ := rfl
  passed _ := rfl
  requested := rfl
  measuresBasis := rfl
  enlarge _ := rfl
  restartBasis _ _ _ := rfl
  finish _ _ := rfl

theorem alike_searchLimit (p : Problem α n) (setting : Option UInt64) (limit : ℕ) :
    p.Alike (p.reconfigure { p.config with searchLimit := setting }
      fun settings => { settings with searchLimit := limit }) where
  firstSpace := rfl
  roundAt _ _ := rfl
  passed _ := rfl
  requested := rfl
  measuresBasis := rfl
  enlarge _ := rfl
  restartBasis _ _ _ := rfl
  finish _ _ := rfl

/-- A run ends in time or it is cut off, beside one with more rounds. -/
theorem run_cutsOff {m : UInt64} (hpos : 0 < p.config.maxIterations.toNat)
    (hle : p.config.maxIterations.toNat ≤ m.toNat) :
    let longer := (p.reconfigure { p.config with maxIterations := m } id).run
    let reopened := longer.reopen fun o =>
      { o with maxIterations := p.config.maxIterations.toNat }
    (longer.EndsWithin p.config.maxIterations.toNat → p.run = reopened) ∧
      (¬ longer.EndsWithin p.config.maxIterations.toNat →
        p.run.CutsOff reopened p.config.maxIterations.toNat) := by
  intro longer reopened
  have hlonger : longer = ((p.iterate (m.toNat - 1) 0 p.firstSpace).after
      [.started { p.opening with maxIterations := m.toNat }] 0) :=
    congrArg (Run.after _ 0) ((p.alike_maxIterations m).iterate le_rfl (.inl rfl))
  have hreopened : reopened =
      (p.iterate (m.toNat - 1) 0 p.firstSpace).after [.started p.opening] 0 := by
    rw [show reopened = longer.reopen _ from rfl, hlonger]
    rfl
  have hends : longer.EndsWithin p.config.maxIterations.toNat ↔
      (p.iterate (m.toNat - 1) 0 p.firstSpace).EndsWithin
        (p.config.maxIterations.toNat - 1 + 1) := by
    rw [hlonger, Nat.sub_add_cancel hpos, Run.endsWithin_after_started_iff]
  obtain ⟨hsame, hcuts⟩ :=
    p.iterate_cutsOff (Nat.sub_le_sub_right hle 1) 0 p.firstSpace
  rw [Nat.zero_add, Nat.sub_add_cancel hpos] at hcuts
  rw [hends, hreopened]
  rw [Nat.sub_add_cancel hpos] at hsame ⊢
  refine ⟨fun h => ?_, fun h => (hcuts h).after _ _ _⟩
  rw [run, hsame h]

/-- A run without restarts does not change with a larger limit. -/
theorem run_of_restarts_eq_zero {limit : ℕ} (setting : Option UInt64)
    (hlimit : p.settings.searchLimit ≤ limit) (hnone : Journal.restarts p.run.events = 0) :
    (p.reconfigure { p.config with searchLimit := setting }
      fun settings => { settings with searchLimit := limit }).run =
        p.run.reopen fun o => { o with searchLimit := limit } := by
  have hiterate : Journal.restarts
      (p.iterate (p.config.maxIterations.toNat - 1) 0 p.firstSpace).events = 0 := hnone
  exact congrArg (Run.after _ 0)
    ((p.alike_searchLimit setting limit).iterate hlimit (.inr hiterate))

namespace TakesTwoRounds

variable {r' : Round α n}

theorem endsWithin (h : p.TakesTwoRounds r r') (hmax : 1 < p.config.maxIterations.toNat) :
    p.run.EndsWithin 2 ∧ ¬ p.run.EndsWithin 1 := by
  obtain ⟨applied, applied', hrun⟩ := h.run_eq hmax
  rw [hrun, Run.endsWithin_after_started_iff, Run.endsWithin_after_started_iff,
    endsWithin_after_iff, endsWithin_after_iff]
  refine ⟨p.endsWithin_finish .., fun hends => ?_⟩
  have hrounds := hends.roundsBegun_le
  rw [roundsBegun_finish] at hrounds
  exact absurd hrounds (by decide)

theorem restarts_eq_zero (h : p.TakesTwoRounds r r') (hmax : 1 < p.config.maxIterations.toNat)
    (hstays : ¬ p.Outgrows r) : Journal.restarts p.run.events = 0 := by
  obtain ⟨applied, applied', hrun⟩ := h.run_eq hmax
  rw [hrun, advance_of_not_outgrows hstays]
  simp only [Run.after, finish, Journal.restarts_append, restarts_events]
  rfl

end TakesTwoRounds

end Problem

namespace Solver

variable {solver : Solver α} {op : LinearOperator α} {requested guess : ℕ}

def withMaxIterations (solver : Solver α) (m : UInt64) : Solver α :=
  { solver with config := { solver.config with maxIterations := m } }

def withSearchLimit (solver : Solver α) (limit : Option UInt64) : Solver α :=
  { solver with config := { solver.config with searchLimit := limit } }

section Reconfigured

variable {other : Solver α} {change : EffectiveSettings → EffectiveSettings}
  (hother : other = { solver with config := other.config })
  (hvalid : solver.config.validate = .ok ()) (hvalid' : other.config.validate = .ok ())
  (hsettings : other.config.effectiveSettings op.rows requested guess =
    (solver.config.effectiveSettings op.rows requested guess).map change)

include hother hvalid hvalid' hsettings

theorem pose_reconfigure (draws : ℕ → α) :
    other.pose draws op requested guess =
      (solver.pose draws op requested guess).map (·.reconfigure other.config change) := by
  rw [hother] at *
  simp only [pose, hvalid, hvalid', hsettings, bind, Except.bind, pure, Except.pure]
  split
  · rfl
  split
  · rfl
  split
  · cases solver.config.effectiveSettings op.rows requested guess <;> rfl
  · rfl

/-- A request is turned down under both configurations, or it has a run under both. -/
theorem solveWith_reconfigure (draws : ℕ → α) :
    (∃ e, solver.solveWith draws op requested guess = ⟨.error e, [], 0⟩ ∧
      other.solveWith draws op requested guess = ⟨.error e, [], 0⟩) ∨
    ∃ p : Problem α op.rows, solver.Poses draws op requested guess p ∧
      solver.solveWith draws op requested guess = p.run ∧
        other.solveWith draws op requested guess = (p.reconfigure other.config change).run := by
  have hpose := pose_reconfigure hother hvalid hvalid' hsettings draws
  cases hp : solver.pose draws op requested guess with
  | error e =>
      rw [hp] at hpose
      exact .inl ⟨e, by rw [solveWith, hp], by rw [solveWith, hpose]; rfl⟩
  | ok p =>
      rw [hp] at hpose
      exact .inr ⟨p, poses_of_pose hp, solveWith_of_pose hp, solveWith_of_pose hpose⟩

end Reconfigured

/-- The limits of a solve go unnoticed until they are reached.

Of two runs that differ in the number of rounds they may make, the shorter one is the longer one
where that ends in time, and otherwise is cut off.  And a run without restarts is the same under any
larger limit of the search space. -/
theorem solveWith_eq_or_cutsOff_of_limit_le (solver : Solver α) (draws : ℕ → α)
    (op : LinearOperator α) (requested guess : ℕ) :
    (∀ {m m' : UInt64}, (solver.withMaxIterations m).config.validate = .ok () →
      (solver.withMaxIterations m').config.validate = .ok () → m ≤ m' →
        let run := (solver.withMaxIterations m).solveWith draws op requested guess
        let longer := (solver.withMaxIterations m').solveWith draws op requested guess
        let reopened := longer.reopen fun o => { o with maxIterations := m.toNat }
        (longer.EndsWithin m.toNat → run = reopened) ∧
          (¬ longer.EndsWithin m.toNat → run.CutsOff reopened m.toNat)) ∧
    ∀ {limit limit' : Option UInt64}, (solver.withSearchLimit limit).config.validate = .ok () →
      (solver.withSearchLimit limit').config.validate = .ok () →
        let columns := (solver.withSearchLimit limit).config.searchLimitFor op.rows requested
        let columns' := (solver.withSearchLimit limit').config.searchLimitFor op.rows requested
        let run := (solver.withSearchLimit limit).solveWith draws op requested guess
        columns ≤ columns' → Journal.restarts run.events = 0 →
          (solver.withSearchLimit limit').solveWith draws op requested guess =
            run.reopen fun o => { o with searchLimit := columns' } := by
  constructor
  · intro m m' hm hm' hle
    have hsettings : (solver.withMaxIterations m').config.effectiveSettings op.rows requested
        guess = ((solver.withMaxIterations m).config.effectiveSettings op.rows requested guess).map
          id := (id_map _).symm
    rcases solveWith_reconfigure rfl hm hm' hsettings draws with
      ⟨e, hrun, hlonger⟩ | ⟨p, hp, hrun, hlonger⟩
    · rw [hrun, hlonger]
      refine ⟨fun _ => rfl, fun hnot => absurd ?_ hnot⟩
      rw [← Nat.sub_add_cancel (show 1 ≤ m.toNat from Config.maxIterations_pos hm)]
      exact Run.endsWithin_failed ..
    · have hrounds : p.config.maxIterations = m := congrArg Config.maxIterations hp.config_eq
      have hcuts := p.run_cutsOff (m := m')
        (by rw [hrounds]; exact Config.maxIterations_pos hm)
        (by rw [hrounds]; exact UInt64.le_iff_toNat_le.mp hle)
      rw [hrounds, hp.config_eq] at hcuts
      rw [hrun, hlonger]
      exact hcuts
  · intro limit limit' hl hl' columns columns'
    have hsettings := (solver.withSearchLimit limit).config.effectiveSettings_searchLimit limit'
      op.rows requested guess
    rcases solveWith_reconfigure rfl hl hl' hsettings draws with
      ⟨e, hrun, hwide⟩ | ⟨p, hp, hrun, hwide⟩
    · rw [hrun, hwide]
      exact fun _ _ => rfl
    · rw [hrun, hwide]
      intro run hle hnone
      have hlimit : p.settings.searchLimit ≤ columns' :=
        (Config.searchLimit_of_settings hp.settings).trans_le hle
      have hsame := p.run_of_restarts_eq_zero limit' hlimit hnone
      rw [hp.config_eq] at hsame
      exact hsame

/-- A coupled matrix is solved in two rounds, without a restart if the limit is not in the way. -/
theorem endsWithin_coupled {solver : Solver ℝ} {n requested guess : ℕ}
    {settings : EffectiveSettings} {weight : ℝ} (hd : solver.dense.TriangularExact)
    (hs : solver.dense.SymmetricExact) (hvalid : solver.config.validate = .ok ())
    (hkind : solver.config.kind = .symmetric) (hnoise : solver.config.guessNoise ≤ 0)
    (hweight : solver.config.tolerance ≤ weight) (hmax : 1 < solver.config.maxIterations.toNat)
    (hsettings : solver.config.effectiveSettings n requested guess = .ok settings)
    (hlt : settings.initialGuess < n)
    (hreach : ∀ j < settings.initialGuess,
      partner n settings.initialGuess j < settings.initialGuess + settings.trackedRoots)
    (hlimit : min n (settings.initialGuess + settings.trackedRoots) ≤ settings.searchLimit)
    (draws : ℕ → ℝ) :
    let run := solver.solveWith draws
      (.ofBlock ⟨n, (Square.coupled n settings.initialGuess weight).toArray⟩) requested guess
    run.EndsWithin 2 ∧ ¬ run.EndsWithin 1 ∧ Journal.restarts run.events = 0 := by
  obtain ⟨p, hp, rfl, hcoupled⟩ :=
    exists_isCoupled hvalid hkind hnoise hweight hsettings hlt draws
  have hposes := poses_of_pose hp
  rw [← hposes.dense_eq] at hd hs
  rw [← hposes.config_eq] at hmax
  obtain ⟨r, r', hrounds⟩ := hcoupled.exists_takesTwoRounds hd hs hreach
  have hstays : ¬ p.Outgrows r :=
    not_lt.mpr ((hcoupled.size_enlarge hd hs hrounds.begins).trans_le hlimit)
  rw [solveWith_of_pose hp]
  obtain ⟨hends, hgoes⟩ := hrounds.endsWithin hmax
  exact ⟨hends, hgoes, hrounds.restarts_eq_zero hmax hstays⟩

/-- Three rows of which two are coupled, and a guess with one column.  The run makes two rounds, with
two columns at the end.  It is cut off after one round, and a limit of two columns goes unnoticed. -/
theorem solveWith_eq_or_cutsOff_three_rows :
    let op : LinearOperator ℝ := .ofBlock ⟨3, (Square.coupled 3 1 1).toArray⟩
    let draws : ℕ → ℝ := fun _ => 0
    let longer := (exact.withMaxIterations 50).solveWith draws op 1 1
    let narrow := (exact.withSearchLimit (some 2)).solveWith draws op 1 1
    ((exact.withMaxIterations 1).config.validate = .ok () ∧
      (exact.withMaxIterations 2).config.validate = .ok () ∧
      (exact.withMaxIterations 50).config.validate = .ok () ∧
      (1 : UInt64) ≤ 50 ∧ (2 : UInt64) ≤ 50) ∧
    (longer.EndsWithin 2 ∧ (exact.withMaxIterations 2).solveWith draws op 1 1 =
      longer.reopen fun o => { o with maxIterations := 2 }) ∧
    (¬ longer.EndsWithin 1 ∧ ((exact.withMaxIterations 1).solveWith draws op 1 1).CutsOff
      (longer.reopen fun o => { o with maxIterations := 1 }) 1) ∧
    ((exact.withSearchLimit (some 2)).config.validate = .ok () ∧
      (exact.withSearchLimit none).config.validate = .ok () ∧
      (exact.withSearchLimit (some 2)).config.searchLimitFor 3 1 = 2 ∧
      (exact.withSearchLimit none).config.searchLimitFor 3 1 = 3) ∧
    Journal.restarts narrow.events = 0 ∧
      (exact.withSearchLimit none).solveWith draws op 1 1 =
        narrow.reopen fun o => { o with searchLimit := 3 } := by
  intro op draws longer narrow
  have hvalid := Config.validate_eq_ok_iff.mp exact_validate
  have hrounds : ∀ m : UInt64, m ≠ 0 → (exact.withMaxIterations m).config.validate = .ok () :=
    fun m hm => Config.validate_eq_ok_iff.mpr ⟨hm, hvalid.2⟩
  have hlimits : ∀ l : Option UInt64, l ≠ some 0 →
      (exact.withSearchLimit l).config.validate = .ok () :=
    fun l hl => Config.validate_eq_ok_iff.mpr ⟨hvalid.1, hvalid.2.1, hl, hvalid.2.2.2⟩
  have h1 := hrounds 1 (by decide)
  have h2 := hrounds 2 (by decide)
  have h50 := hrounds 50 (by decide)
  have htwo := hlimits (some 2) (by decide)
  have hdefault := hlimits none (by decide)
  have hlonger : (exact.withMaxIterations 50).config.effectiveSettings 3 1 1 = .ok ⟨1, 1, 3⟩ := rfl
  have hnarrow : (exact.withSearchLimit (some 2)).config.effectiveSettings 3 1 1 =
      .ok ⟨1, 1, 2⟩ := rfl
  obtain ⟨hends, hgoes, -⟩ := endsWithin_coupled Factorizations.exact_triangularExact
    Factorizations.exact_symmetricExact h50 rfl le_rfl exact_tolerance_le (by decide) hlonger
    (by decide) (by decide) (by decide) draws
  obtain ⟨-, -, hnone⟩ := endsWithin_coupled Factorizations.exact_triangularExact
    Factorizations.exact_symmetricExact htwo rfl le_rfl exact_tolerance_le (by decide) hnarrow
    (by decide) (by decide) (by decide) draws
  obtain ⟨hfewer, hnarrower⟩ := solveWith_eq_or_cutsOff_of_limit_le exact draws op 1 1
  exact ⟨⟨h1, h2, h50, by decide, by decide⟩,
    ⟨hends, (hfewer h2 h50 (by decide)).1 hends⟩, ⟨hgoes, (hfewer h1 h50 (by decide)).2 hgoes⟩,
    ⟨htwo, hdefault, by decide, by decide⟩, hnone, hnarrower htwo hdefault (by decide) hnone⟩

end Solver

end SubspaceEigen
