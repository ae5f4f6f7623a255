import SubspaceEigen.Operator.Paired
import SubspaceEigen.Solver.Basic

/-!
# Solving symmetric and paired problems

The two common requests: the lowest eigenpairs of a symmetric operator, and the lowest excitations
of a paired one.  Both fix the kind of the operator and limit the search space to ten columns for
each requested eigenpair.
-/

namespace SubspaceEigen

variable {α : Type}

/-- A configuration for a given kind of operator, with the limit of ten columns a root. -/
def Config.forRequest (c : Config α) (kind : OperatorKind) (requested : Nat) : Config α :=
  { c with kind := kind, searchLimit := some (UInt64.ofNat (10 * requested)) }

variable [Scalar α]

def solveSymmetric (solver : Solver α) (op : LinearOperator α) (requested : Nat) : Run α op.rows :=
  { solver with config := solver.config.forRequest .symmetric requested }.solve op requested 0

/-- Excitation energies and amplitudes of a paired problem in dimension `n`. -/
structure PairedSolution (α : Type) (n : Nat) where
  solution : Solution α n
  /-- The amplitudes of the first block, one column for each root. -/
  x : Block α
  /-- The amplitudes of the second block, scaled with `x` so that `|X|² − |Y|² = 1`. -/
  y : Block α

namespace PairedSolution

variable {n : Nat}

/-- The lowest positive eigenvalues, ascending. -/
def eigenvalues (s : PairedSolution α n) : List α :=
  s.solution.roots.map Root.value

def isConverged (s : PairedSolution α n) : Bool :=
  s.solution.isConverged

end PairedSolution

/-- The lowest excitations of two blocks that are composed already. -/
def solveComposed (solver : Solver α) (h : PairedOperator α) (requested : Nat) :
    Except (Failure α) (PairedSolution α h.toOperator.rows) :=
  let solver := { solver with config := solver.config.forRequest .hamiltonian requested }
  match (solver.solve h.toOperator requested 0).outcome with
  | .error e => .error e
  | .ok solution =>
    match h.normalizeExcitations solution.vectors with
    | .error f => .error (.fault f)
    | .ok (x, y) => .ok ⟨solution, x, y⟩

/-- The lowest positive eigenvalues of `[[A, B], [-B, -A]]`, with the dimension of that operator.
The blocks must be square and of one size. -/
def solvePaired (solver : Solver α) (a b : LinearOperator α) (requested : Nat) :
    Except (Failure α) ((n : Nat) × PairedSolution α n) :=
  match PairedOperator.compose a b with
  | .error e => .error (.error (.operator e))
  | .ok h => (solveComposed solver h requested).map fun s => ⟨_, s⟩

end SubspaceEigen
