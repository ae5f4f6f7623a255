import SubspaceEigen.Config.Vocabulary

/-!
# Events

What a solve reports while it runs.
-/

namespace SubspaceEigen

/-- The settings with which a solve starts. -/
structure Opening (α : Type) where
  operatorSize : Nat
  requested : Nat
  initialGuess : Nat
  trackedRoots : Nat
  searchLimit : Nat
  maxIterations : Nat
  tolerance : α
  correction : CorrectionScheme
  sizePolicy : SizePolicy
  orthogonalization : Orthogonalization
  kind : OperatorKind

structure Measurement (α : Type) where
  iteration : Nat
  searchSpace : Nat
  /-- The largest residual norm among the tracked roots. -/
  maxResidual : α
  convergedRoots : Nat
  trackedRoots : Nat
  /-- The orthonormality error of the basis, where it was asked for. -/
  orthonormality : Option α

inductive Event (α : Type) where
  | started (opening : Opening α)
  | iteration (measurement : Measurement α)
  /-- Conjugate pairs were found among the values of the pencil. -/
  | complexPairs (iteration count : Nat)
  | restart (iteration before after : Nat)
  /-- The end of a solve, with the time it took in nanoseconds. -/
  | finished (converged : Bool) (iterations elapsed : Nat)

end SubspaceEigen
