import SubspaceEigen.Config.Tolerance
import SubspaceEigen.Config.Vocabulary

/-!
# Configurations

The settings of a solve, their defaults, the ways to change them, and the conditions under which
they can drive a solve.
-/

namespace SubspaceEigen

structure Config (α : Type) where
  maxIterations : UInt64
  /-- The size of the search space that brings about a restart; absent, it follows from the number
  of requested eigenpairs. -/
  searchLimit : Option UInt64
  /-- A root has converged when the norm of its residual is below this. -/
  tolerance : α
  correction : CorrectionScheme
  sizePolicy : SizePolicy
  orthogonalization : Orthogonalization
  kind : OperatorKind
  /-- The amplitude of the noise added to the initial guess. -/
  guessNoise : α
  seed : UInt64

namespace Config

variable {α : Type} [Scalar α]

/-- The settings used where nothing else is said. -/
def standard : Config α where
  maxIterations := 50
  searchLimit := none
  tolerance := 1e-4
  correction := .dpr
  sizePolicy := .safe
  orthogonalization := .gramSchmidt
  kind := .symmetric
  guessNoise := 0
  seed := 0

/-- The first setting that cannot drive a solve. -/
def defect? (c : Config α) : Option (SettingError α) :=
  if c.maxIterations = 0 then some .noIterations
  else if ¬ (Scalar.isFinite c.tolerance = true ∧ 0 < c.tolerance) then
    some (.tolerance c.tolerance)
  else if c.searchLimit = some 0 then some .noSearchSpace
  else if ¬ (Scalar.isFinite c.guessNoise = true ∧ 0 ≤ c.guessNoise) then
    some (.guessNoise c.guessNoise)
  else none

def validate (c : Config α) : Except (Error α) Unit :=
  match c.defect? with
  | some cause => .error (.setting cause)
  | none => .ok ()

/-- Whether two configurations have the same settings; numbers are compared as numbers. -/
def agrees (c d : Config α) : Bool :=
  c.maxIterations == d.maxIterations && c.searchLimit == d.searchLimit &&
    c.tolerance == d.tolerance && c.correction == d.correction &&
    c.sizePolicy == d.sizePolicy && c.orthogonalization == d.orthogonalization &&
    c.kind == d.kind && c.guessNoise == d.guessNoise && c.seed == d.seed

def setTolerance (c : Config Binary64) (s : String) : Except (Error Binary64) (Config Binary64) := do
  return { c with tolerance := ← Tolerance.parse s }

def setCorrection (c : Config α) (s : String) : Except (Error α) (Config α) := do
  return { c with correction := ← CorrectionScheme.vocabulary.parse s }

def setSizePolicy (c : Config α) (s : String) : Except (Error α) (Config α) := do
  return { c with sizePolicy := ← SizePolicy.vocabulary.parse s }

def setOrthogonalization (c : Config α) (s : String) : Except (Error α) (Config α) := do
  return { c with orthogonalization := ← Orthogonalization.vocabulary.parse s }

def setKind (c : Config α) (s : String) : Except (Error α) (Config α) := do
  return { c with kind := ← OperatorKind.vocabulary.parse s }

end Config

end SubspaceEigen
