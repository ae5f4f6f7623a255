import SubspaceEigen.Proofs.Ritz.Conjugates
import SubspaceEigen.Proofs.Solver.Grammar

/-!
# Refusals and late failures

A request is turned down for the first of a list of objections: to the settings, to the shape of the
operator, to the length of its diagonal, to the number of eigenpairs.  None of them looks at the
action of the operator, and nothing is reported.  A solve that has begun fails with an error only
where a reduced problem has no Ritz pairs, and only a pencil can be such a problem.
-/

namespace SubspaceEigen

/-- Something that may be held against a request, and the failure that says so. -/
structure Objection (α : Type) where
  holds : Prop
  failure : Failure α

namespace Objection

variable {α : Type}

/-- The failure of the first objection that holds. -/
inductive First : List (Objection α) → Failure α → Prop where
  | here {o rest} (h : o.holds) : First (o :: rest) o.failure
  | later {o rest e} (h : ¬ o.holds) (hrest : First rest e) : First (o :: rest) e

def None (objections : List (Objection α)) : Prop :=
  ∀ o ∈ objections, ¬ o.holds

variable {o : Objection α} {a b : List (Objection α)} {e : Failure α}

@[simp] theorem not_first_nil : ¬ First [] e :=
  nofun

@[simp] theorem none_nil : None ([] : List (Objection α)) :=
  nofun

@[simp] theorem first_cons_iff :
    First (o :: b) e ↔ o.holds ∧ o.failure = e ∨ ¬ o.holds ∧ First b e := by
  constructor
  · rintro (h | ⟨h, hrest⟩)
    · exact .inl ⟨h, rfl⟩
    · exact .inr ⟨h, hrest⟩
  · rintro (⟨h, rfl⟩ | ⟨h, hrest⟩)
    · exact .here h
    · exact .later h hrest

@[simp] theorem none_cons_iff : None (o :: b) ↔ ¬ o.holds ∧ None b :=
  List.forall_mem_cons

theorem First.not_none (h : First a e) : ¬ None a := by
  induction h with
  | here h => exact fun hnone => (none_cons_iff.mp hnone).1 h
  | later h hrest ih => exact fun hnone => ih (none_cons_iff.mp hnone).2

theorem exists_first_of_not_none (h : ¬ None a) : ∃ e, First a e := by
  induction a with
  | nil => exact absurd none_nil h
  | cons o a ih =>
      by_cases ho : o.holds
      · exact ⟨_, .here ho⟩
      · obtain ⟨e, he⟩ := ih fun hnone => h (none_cons_iff.mpr ⟨ho, hnone⟩)
        exact ⟨e, .later ho he⟩

/-- A computation that fails for the first objection that holds, and only then. -/
def Settles {β : Type} (a : List (Objection α)) (x : Except (Failure α) β) : Prop :=
  ∀ e, x = .error e ↔ First a e

/-- A check in front of a computation is an objection in front of the others. -/
theorem Settles.ite {β : Type} {c : Prop} [Decidable c] {f : Failure α}
    {x : Except (Failure α) β} (h : Settles a x) :
    Settles (⟨c, f⟩ :: a) (if c then .error f else x) := by
  intro e
  by_cases hc : c
  · simp [hc]
  · simp [hc, h e]

/-- The same for a computation that makes use of the check. -/
theorem Settles.dite {β : Type} {c : Prop} [Decidable c] {f : Failure α}
    {x : c → Except (Failure α) β} (h : ∀ hc, Settles a (x hc)) :
    Settles (⟨¬ c, f⟩ :: a) (if hc : c then x hc else .error f) := by
  intro e
  by_cases hc : c
  · simp [hc, h hc e]
  · simp [hc]

theorem Settles.exists_ok_iff {β : Type} {x : Except (Failure α) β} (h : Settles a x) :
    (∃ v, x = .ok v) ↔ None a := by
  constructor
  · rintro ⟨v, rfl⟩
    by_contra hnone
    obtain ⟨e, he⟩ := exists_first_of_not_none hnone
    cases (h e).mpr he
  · intro hnone
    cases hx : x with
    | error e => exact absurd hnone ((h e).mp hx).not_none
    | ok v => exact ⟨v, rfl⟩

end Objection

open Objection

variable {α : Type}

/-- What may be held against the shape of an operator and its diagonal.  A diagonal that is not there
ends the solve with the operator's own fault. -/
def shapeObjections (rows cols : ℕ) (diagonal : Except Fault (Array α)) : List (Objection α) :=
  [⟨cols ≠ rows, .error (.operator (.notSquare .operator rows cols))⟩,
    match diagonal with
    | .error f => ⟨True, .fault f⟩
    | .ok d => ⟨d.size ≠ rows, .error (.operator (.dimensionMismatch .diagonal rows d.size))⟩]

def OperatorKind.objections (kind : OperatorKind) (n requested : ℕ) : List (Objection α) :=
  [⟨requested = 0, .error (.request .nothingRequested)⟩,
    ⟨kind.available n < requested,
      .error (.request (.tooMany requested (kind.available n) n (vocabulary.label kind)))⟩]

theorem Config.settles_effectiveSettings {β : Type} (c : Config α) (n requested guess : ℕ)
    (v : EffectiveSettings → β) :
    Settles (c.kind.objections n requested)
      (match c.effectiveSettings n requested guess with
        | .error e => .error (.error e)
        | .ok settings => .ok (v settings)) := by
  unfold effectiveSettings OperatorKind.objections
  simp only
  intro e
  by_cases hnone : requested = 0
  · simp [hnone]
  · by_cases hmany : c.kind.available n < requested
    · simp [hnone, hmany]
    · simp [hnone, hmany]

variable [Scalar α]

def Config.objections (c : Config α) : List (Objection α) :=
  [⟨c.maxIterations = 0, .error (.setting .noIterations)⟩,
    ⟨¬ (Scalar.isFinite c.tolerance = true ∧ 0 < c.tolerance),
      .error (.setting (.tolerance c.tolerance))⟩,
    ⟨c.searchLimit = some 0, .error (.setting .noSearchSpace)⟩,
    ⟨¬ (Scalar.isFinite c.guessNoise = true ∧ 0 ≤ c.guessNoise),
      .error (.setting (.guessNoise c.guessNoise))⟩]

theorem Config.settles_validate {β : Type} (c : Config α) {a : List (Objection α)}
    {x : Except (Failure α) β} (h : Settles a x) :
    Settles (c.objections ++ a)
      (match c.validate with
        | .error e => .error (.error e)
        | .ok () => x) := by
  have hchain : (match c.validate with
      | .error e => .error (.error e)
      | .ok () => x) =
      if c.maxIterations = 0 then .error (.error (.setting .noIterations))
      else if ¬ (Scalar.isFinite c.tolerance = true ∧ 0 < c.tolerance) then
        .error (.error (.setting (.tolerance c.tolerance)))
      else if c.searchLimit = some 0 then .error (.error (.setting .noSearchSpace))
      else if ¬ (Scalar.isFinite c.guessNoise = true ∧ 0 ≤ c.guessNoise) then
        .error (.error (.setting (.guessNoise c.guessNoise)))
      else x := by
    unfold validate defect?
    split_ifs <;> rfl
  rw [hchain]
  exact .ite (.ite (.ite (.ite h)))

namespace Problem

variable {n : ℕ} {p : Problem α n}

/-- A reduced problem of symmetric mode has Ritz pairs, unless it is outside the domain of the
factorization. -/
theorem extract_ne_error (hkind : p.config.kind = .symmetric) (s : SearchSpace α n)
    (e : Error α) : p.extract s ≠ .error (.error e) := by
  intro h
  simp only [extract, hkind] at h
  cases hplain : plainRitz p.dense s with
  | error f =>
      rw [hplain] at h
      cases h
  | ok extraction =>
      rw [hplain] at h
      cases h

/-- An error of a round is one of the extraction from its updated space. -/
theorem exists_extract_of_roundAt {index : ℕ} {s : SearchSpace α n} {e : Error α}
    (h : p.roundAt index s = .error (.error e)) :
    ∃ updated, (s.update p.operator).outcome = .ok updated ∧
      p.extract updated = .error (.error e) := by
  cases h ▸ p.roundAt_ends index s with
  | notExtracted hupdate hextract => exact ⟨_, hupdate, hextract⟩

/-- What a solve that has begun can fail with.  In symmetric mode there is no error.  In Hamiltonian
mode it is the error of the harmonic extraction from the space of the round after those reported: a
pencil that is singular, or a complex value without its conjugate. -/
structure FailsLate (p : Problem α n) : Prop where
  started : ∃ journal, p.run.events = .started p.opening :: journal
  symmetric : p.config.kind = .symmetric → ∀ e, p.run.outcome ≠ .error (.error e)
  hamiltonian : p.config.kind = .hamiltonian → ∀ {e}, p.run.outcome = .error (.error e) →
    e.IsHarmonic ∧ ∃ updated,
      ((p.spaceAfter p.firstSpace p.rounds).update p.operator).outcome = .ok updated ∧
        harmonicRitz p.dense updated = .error (.error e)

theorem failsLate (p : Problem α n) : p.FailsLate := by
  obtain ⟨run, hrun, hprun⟩ := p.unfolds_run
  have hround : ∀ {e}, p.run.outcome = .error (.error e) → ∃ updated,
      ((p.spaceAfter p.firstSpace p.rounds).update p.operator).outcome = .ok updated ∧
        p.extract updated = .error (.error e) := by
    intro e he
    rw [hprun] at he
    exact exists_extract_of_roundAt (hrun.roundAt_of_error he)
  exact {
    started := ⟨run.events, by rw [hprun]; rfl⟩
    symmetric := by
      intro hkind e he
      obtain ⟨updated, -, hextract⟩ := hround he
      exact extract_ne_error hkind updated e hextract
    hamiltonian := by
      intro hkind e he
      obtain ⟨updated, hupdated, hextract⟩ := hround he
      simp only [extract, hkind] at hextract
      exact ⟨isHarmonic_of_harmonicRitz hextract, updated, hupdated, hextract⟩ }

/-- The errors of a solve that has begun are those of the harmonic extraction. -/
theorem isHarmonic_of_outcome (p : Problem α n) {e : Error α}
    (h : p.run.outcome = .error (.error e)) : e.IsHarmonic := by
  cases hkind : p.config.kind with
  | symmetric => exact absurd h (p.failsLate.symmetric hkind e)
  | hamiltonian => exact (p.failsLate.hamiltonian hkind h).1

end Problem

namespace Solver

/-- All that may be held against a request, in the order in which it is looked for. -/
def objections (solver : Solver α) (rows cols : ℕ) (diagonal : Except Fault (Array α))
    (requested : ℕ) : List (Objection α) :=
  solver.config.objections ++ (shapeObjections rows cols diagonal ++
    solver.config.kind.objections rows requested)

theorem settles_check (solver : Solver α) (rows cols : ℕ) (diagonal : Except Fault (Array α))
    (requested guess : ℕ) :
    Settles (solver.objections rows cols diagonal requested)
      (solver.check rows cols diagonal requested guess) := by
  refine solver.config.settles_validate (Settles.ite ?_)
  cases diagonal with
  | error f =>
      intro e
      simp
  | ok d => exact .dite fun hsize => solver.config.settles_effectiveSettings _ _ _ _

/-- A request is admitted exactly if nothing is held against it, and otherwise turned down for the
first objection. -/
theorem settles_pose (solver : Solver α) (draws : ℕ → α) (op : LinearOperator α)
    (requested guess : ℕ) :
    Settles (solver.objections op.rows op.cols op.diagonal requested)
      (solver.pose draws op requested guess) := by
  intro e
  rw [← solver.settles_check op.rows op.cols op.diagonal requested guess e, pose_eq_check]
  cases solver.check op.rows op.cols op.diagonal requested guess <;> simp [Except.map]

/-- When a solve fails, and what it leaves behind.  A request to which there is an objection fails
for the first one; no event is recorded, and the operator's action is not asked for, so that any
other action would give the same.  Any other request is admitted, and its solve begins; it has no
error in symmetric mode, and in Hamiltonian mode only those of the harmonic extraction. -/
theorem fails_first_or_late (solver : Solver α) (draws : ℕ → α) (op : LinearOperator α)
    (requested guess : ℕ) :
    (∀ e, First (solver.objections op.rows op.cols op.diagonal requested) e →
      ∀ apply, solver.solveWith draws { op with apply := apply } requested guess =
        ⟨.error e, [], 0⟩) ∧
    (None (solver.objections op.rows op.cols op.diagonal requested) →
      ∃ p, solver.pose draws op requested guess = .ok p ∧
        solver.solveWith draws op requested guess = p.run ∧ p.config.kind = solver.config.kind ∧
          p.FailsLate) := by
  constructor
  · intro e he apply
    have hpose := (solver.settles_pose draws { op with apply := apply } requested guess e).mpr he
    rw [solveWith, hpose]
  · intro hnone
    obtain ⟨p, hp⟩ := (solver.settles_pose draws op requested guess).exists_ok_iff.mpr hnone
    exact ⟨p, hp, solveWith_of_pose hp, by rw [(poses_of_pose hp).config_eq], p.failsLate⟩

/-- On floating-point numbers: a request with nothing right about it is turned down for the settings,
and one for an eigenpair of the identity is begun. -/
theorem fails_first_or_late_identity :
    let standard : Solver Binary64 := ⟨.standard, .standard, true, fun _ => 0⟩
    let idle : Solver Binary64 := ⟨{ (.standard : Config Binary64) with maxIterations := 0 },
      .standard, true, fun _ => 0⟩
    let wide : LinearOperator Binary64 := .ofBlock ⟨1, #[#v[1], #v[1]]⟩
    let a : Square Binary64 2 := Square.identity 2
    let op : LinearOperator Binary64 := .ofBlock ⟨2, a.toArray⟩
    (First (idle.objections wide.rows wide.cols wide.diagonal 0) (.error (.setting .noIterations)) ∧
      idle.solveWith (Noise.draw 0) wide 0 0 = ⟨.error (.error (.setting .noIterations)), [], 0⟩) ∧
    None (standard.objections op.rows op.cols op.diagonal 1) ∧
      ∃ p, standard.pose (Noise.draw 0) op 1 0 = .ok p ∧
        standard.solveWith (Noise.draw 0) op 1 0 = p.run ∧
          p.config.kind = standard.config.kind ∧ p.FailsLate := by
  intro standard idle wide a op
  have hfirst : First (idle.objections wide.rows wide.cols wide.diagonal 0)
      (.error (.setting .noIterations)) := .here rfl
  have hvalid : standard.config.validate = .ok () := Config.standard_validate
  have hnone : None (standard.objections op.rows op.cols op.diagonal 1) :=
    (standard.settles_pose (Noise.draw 0) op 1 0).exists_ok_iff.mp
      (exists_pose_ofBlock hvalid (Noise.draw 0) a 0 one_pos (show 1 ≤ 2 by norm_num))
  exact ⟨⟨hfirst, (fails_first_or_late idle (Noise.draw 0) wide 0 0).1 _ hfirst wide.apply⟩, hnone,
    (fails_first_or_late standard (Noise.draw 0) op 1 0).2 hnone⟩

end Solver

end SubspaceEigen
