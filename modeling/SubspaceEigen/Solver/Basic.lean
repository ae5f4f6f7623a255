import SubspaceEigen.Correction
import SubspaceEigen.Progress.Event
import SubspaceEigen.Ritz.Harmonic
import SubspaceEigen.Solver.Guess
import SubspaceEigen.Solver.Settings

/-!
# The iteration

A solve goes in rounds.  Each round applies the operator to the new search directions, draws Ritz
pairs from the search space and flags those whose residuals are small; unless that ends the solve,
one correction for every other tracked root is added to the space.  A space that has outgrown its
limit is rebuilt from the leading Ritz vectors and the latest corrections.

The step functions `examine` and `advance` are pure; `iterate` strings them together and collects
the events and the number of columns that were passed to the operator.
-/

namespace SubspaceEigen

structure Problem (α : Type) (n : Nat) where
  config : Config α
  dense : Factorizations α
  operator : LinearOperator α
  diagonal : Vector α n
  /-- The draws that the noise of the guess is made of. -/
  draws : Nat → α
  requested : Nat
  settings : EffectiveSettings
  /-- Whether the orthonormality error of the basis is reported. -/
  measuresBasis : Bool
  /-- The time in nanoseconds from the start of the solve to the end of a round. -/
  clock : Nat → Nat

inductive SolveStatus where
  | converged
  | maxIterationsReached
deriving DecidableEq

/-- An eigenpair as found: a vector of norm one, its residual, and whether the residual was below
the tolerance. -/
structure Root (α : Type) (n : Nat) where
  value : α
  vector : Vector α n
  residual : Vector α n
  residualNorm : α
  converged : Bool

/-- The roots found by a solve, in ascending order. -/
structure Solution (α : Type) (n : Nat) where
  roots : List (Root α n)
  iterations : Nat
  status : SolveStatus

namespace Solution

variable {α : Type} {n : Nat}

def isConverged (s : Solution α n) : Bool :=
  s.status = .converged

def vectors (s : Solution α n) : Block α :=
  ⟨n, (s.roots.map Root.vector).toArray⟩

def residuals (s : Solution α n) : Block α :=
  ⟨n, (s.roots.map Root.residual).toArray⟩

def maxResidual [Scalar α] (s : Solution α n) : α :=
  (s.roots.map Root.residualNorm).foldl Scalar.max 0

/-- The first `requested` Ritz pairs with their norms and flags, in ascending order of the values; a
pair without a flag has not converged. -/
def settle [Scalar α] {order : Nat} (pairs : List (RitzPair α n order)) (norms : List α)
    (flags : List Bool) (requested : Nat) : List (Root α n) :=
  let roots := ((pairs.take requested).zip norms).zipIdx.map fun ((p, norm), j) =>
    { value := p.value
      vector := Column.normalize p.vector
      residual := p.residual
      residualNorm := norm
      converged := flags.getD j false : Root α n }
  sortedBy Root.value roots

end Solution

/-- What a round has found, with the search space flagged. -/
structure Round (α : Type) (n : Nat) where
  index : Nat
  space : SearchSpace α n
  extraction : Extraction α n
  norms : List α
  /-- The number of conjugate pairs among the values of the pencil. -/
  conjugates : Nat

/-- Everything that a solve leaves behind, however it ended. -/
structure Run (α : Type) (n : Nat) where
  outcome : Except (Failure α) (Solution α n)
  events : List (Event α)
  applied : Nat

/-- A run that comes after some events and applications. -/
def Run.after {α : Type} {n : Nat} (events : List (Event α)) (applied : Nat) (rest : Run α n) :
    Run α n :=
  { rest with events := events ++ rest.events, applied := applied + rest.applied }

namespace Round

variable {α : Type} [Scalar α] {n : Nat}

/-- The number of tracked roots for which there is a Ritz pair. -/
def tracked (r : Round α n) : Nat :=
  min r.space.tracked r.extraction.pairs.length

def converged (r : Round α n) (requested : Nat) : Bool :=
  requested ≤ r.norms.length && (r.space.flags.take requested).all id

def measurement (r : Round α n) (measuresBasis : Bool) : Measurement α where
  iteration := r.index
  searchSpace := r.space.size
  maxResidual := (r.norms.take r.tracked).foldl Scalar.max 0
  convergedRoots := (r.space.flags.take r.tracked).countP id
  trackedRoots := r.tracked
  orthonormality := if measuresBasis then some (orthonormalityError r.space.basis) else none

def events (r : Round α n) (measuresBasis : Bool) : List (Event α) :=
  (if 0 < r.conjugates then [.complexPairs r.index r.conjugates] else []) ++
    [.iteration (r.measurement measuresBasis)]

end Round

namespace Problem

variable {α : Type} [Scalar α] {n : Nat}

def firstSpace (p : Problem α n) : SearchSpace α n :=
  SearchSpace.start (p.config.guess p.dense p.draws p.diagonal p.settings.initialGuess)
    p.settings.trackedRoots (p.config.kind = .hamiltonian)

/-- The Ritz pairs of a space, and the number of conjugate pairs met. -/
def extract (p : Problem α n) (s : SearchSpace α n) :
    Except (Failure α) (Extraction α n × Nat) :=
  match p.config.kind with
  | .hamiltonian => harmonicRitz p.dense s
  | .symmetric =>
    match plainRitz p.dense s with
    | .ok extraction => .ok (extraction, 0)
    | .error f => .error (.fault f)

/-- The flags of tracked roots for given residual norms. -/
def flagged (p : Problem α n) (norms : List α) (tracked : Nat) : List Bool :=
  (List.range tracked).map fun j =>
    match norms[j]? with
    | some norm => norm < p.config.tolerance
    | none => false

/-- Look at an updated space: its Ritz pairs, and which tracked roots have converged. -/
def examine (p : Problem α n) (index : Nat) (s : SearchSpace α n) :
    Except (Failure α) (Round α n) :=
  match p.extract s with
  | .error e => .error e
  | .ok (extraction, conjugates) =>
    let norms := extraction.residualNorms
    .ok {
      index := index
      space := { s with flags := p.flagged norms s.tracked }
      extraction := extraction
      norms := norms
      conjugates := conjugates }

/-- The unit search direction for one Ritz pair, if it has a direction. -/
def direction? (p : Problem α n) {order : Nat} (pair : RitzPair α n order) :
    Option (Vector α n) :=
  let w := Correction.direction p.config.correction pair.residual pair.vector pair.value p.diagonal
  let size := Column.norm w
  if size ≤ 0 ∨ Scalar.isFinite size = false then none else some (Column.divide w size)

/-- The new search directions: one for every tracked root that has not converged, as long as there
is room for them. -/
def corrections (p : Problem α n) (r : Round α n) : Columns α n :=
  let directions := ((r.extraction.pairs.zip r.space.flags).take r.tracked).filterMap
    fun (pair, converged) => if converged then none else p.direction? pair
  (directions.take (n - r.space.size)).toArray

/-- The space with the new search directions, and the number of them that it took in. -/
def enlarge (p : Problem α n) (r : Round α n) : SearchSpace α n × Nat :=
  let block := p.corrections r
  if block.isEmpty then (r.space, 0)
  else r.space.extend p.dense p.config.orthogonalization block

/-- The basis after a restart: the leading Ritz vectors, and the latest `fresh` basis columns. -/
def restartBasis (p : Problem α n) (r : Round α n) (s : SearchSpace α n) (fresh : Nat) :
    Columns α n :=
  let leading := (r.extraction.pairs.take p.settings.initialGuess).map RitzPair.vector
  let latest := s.basis.extract (s.basis.size - min fresh s.basis.size) s.basis.size
  SearchSpace.orthonormalize p.dense p.config.orthogonalization (leading.toArray ++ latest) 0

/-- The space of the next round, and the event of a restart. -/
def advance (p : Problem α n) (r : Round α n) : SearchSpace α n × List (Event α) :=
  let (space, added) := p.enlarge r
  if p.settings.searchLimit < space.size then
    let rebuilt := space.restart (p.restartBasis r space added)
    (rebuilt, [.restart r.index space.size rebuilt.size])
  else (space, [])

def finish (p : Problem α n) (r : Round α n) (status : SolveStatus) : Run α n where
  outcome := .ok {
    roots := Solution.settle r.extraction.pairs r.norms r.space.flags p.requested
    iterations := r.index + 1
    status := status }
  events := r.events p.measuresBasis ++
    [.finished (status = .converged) (r.index + 1) (p.clock r.index)]
  applied := 0

/-- The rounds of a solve from the round `index` on, of which at most `remaining + 1` are made. -/
def iterate (p : Problem α n) : Nat → Nat → SearchSpace α n → Run α n
  | remaining, index, s =>
    let updated := s.update p.operator
    match updated.outcome with
    | .error f => ⟨.error (.fault f), [], updated.passed⟩
    | .ok s =>
      match p.examine index s with
      | .error e => ⟨.error e, [], updated.passed⟩
      | .ok r =>
        if r.converged p.requested then (p.finish r .converged).after [] updated.passed
        else
          match remaining with
          | 0 => (p.finish r .maxIterationsReached).after [] updated.passed
          | remaining + 1 =>
            let (next, restart) := p.advance r
            (iterate p remaining (index + 1) next).after (r.events p.measuresBasis ++ restart)
              updated.passed

def opening (p : Problem α n) : Opening α where
  operatorSize := n
  requested := p.requested
  initialGuess := p.settings.initialGuess
  trackedRoots := p.settings.trackedRoots
  searchLimit := p.settings.searchLimit
  maxIterations := p.config.maxIterations.toNat
  tolerance := p.config.tolerance
  correction := p.config.correction
  sizePolicy := p.config.sizePolicy
  orthogonalization := p.config.orthogonalization
  kind := p.config.kind

def run (p : Problem α n) : Run α n :=
  (p.iterate (p.config.maxIterations.toNat - 1) 0 p.firstSpace).after [.started p.opening] 0

end Problem

/-- A solver: a configuration, the dense factorizations it rests on, and what it reports. -/
structure Solver (α : Type) where
  config : Config α
  dense : Factorizations α
  measuresBasis : Bool
  clock : Nat → Nat

namespace Solver

variable {α : Type} [Scalar α]

/-- The problem that a request poses, if it is admitted, with given draws for the noise of its guess.
A guess size of zero stands for the default. -/
def pose (solver : Solver α) (draws : Nat → α) (op : LinearOperator α) (requested guess : Nat) :
    Except (Failure α) (Problem α op.rows) := do
  match solver.config.validate with
  | .error e => throw (.error e)
  | .ok () => pure ()
  if op.cols ≠ op.rows then
    throw (.error (.operator (.notSquare .operator op.rows op.cols)))
  match op.diagonal with
  | .error f => throw (.fault f)
  | .ok d =>
    if h : d.size = op.rows then
      match solver.config.effectiveSettings op.rows requested guess with
      | .error e => throw (.error e)
      | .ok settings =>
        return {
          config := solver.config
          dense := solver.dense
          operator := op
          diagonal := ⟨d, h⟩
          draws := draws
          requested := requested
          settings := settings
          measuresBasis := solver.measuresBasis
          clock := solver.clock }
    else throw (.error (.operator (.dimensionMismatch .diagonal op.rows d.size)))

/-- The run of a request, with given draws for the noise of its guess. -/
def solveWith (solver : Solver α) (draws : Nat → α) (op : LinearOperator α)
    (requested guess : Nat) : Run α op.rows :=
  match solver.pose draws op requested guess with
  | .error e => ⟨.error e, [], 0⟩
  | .ok problem => problem.run

/-- The lowest eigenpairs of an operator, or the lowest positive ones of a paired operator. -/
def solve (solver : Solver α) (op : LinearOperator α) (requested guess : Nat) : Run α op.rows :=
  solver.solveWith (Noise.draw solver.config.seed) op requested guess

end Solver

end SubspaceEigen
