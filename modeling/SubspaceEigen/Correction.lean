import SubspaceEigen.Column
import SubspaceEigen.Config.Vocabulary

/-!
# Correction vectors

Every root that has not converged adds one search direction, built from its residual
`r = A q − λ q` with the diagonal `D` of the operator as a cheap stand-in for the operator itself.
-/

namespace SubspaceEigen

namespace Correction

variable {α : Type} [Scalar α] {n : Nat}

/-- The smallest magnitude of a denominator `λ − D`. -/
def cutoff : α :=
  1e-8

/-- A denominator, moved away from zero to the cutoff with its sign kept; zero counts as positive. -/
def denominator (d : α) : α :=
  if cutoff ≤ Scalar.abs d then d else if d < 0 then -cutoff else cutoff

/-- A column divided by `value − D`, entry by entry. -/
def precondition (x : Vector α n) (value : α) (diagonal : Vector α n) : Vector α n :=
  Vector.zipWith (fun p d => p / denominator (value - d)) x diagonal

/-- Whether `qᵀ M⁻¹ q` is too small, or not finite, to divide by. -/
def isUnusable (weight : α) : Bool :=
  Scalar.abs weight < Scalar.epsilon || !Scalar.isFinite weight

/-- The search direction for one Ritz pair.  With `M` the preconditioner, it is `M⁻¹ r`, less the
multiple of `M⁻¹ q` that makes it orthogonal to `q` when the scheme is Olsen's. -/
def direction (scheme : CorrectionScheme) (residual vector : Vector α n) (value : α)
    (diagonal : Vector α n) : Vector α n :=
  let fromResidual := precondition residual value diagonal
  match scheme with
  | .dpr => fromResidual
  | .olsen =>
    let fromVector := precondition vector value diagonal
    let weight := Column.dot vector fromVector
    if isUnusable weight then fromResidual
    else
      let part := Column.dot vector fromResidual / weight
      Vector.zipWith (fun r q => r - q * part) fromResidual fromVector

def leading (n : Nat) (items : Array α) : Except Fault (Vector α n) :=
  if h : n ≤ items.size then .ok (Vector.ofFn fun i => items[i.val]) else .error .shapeMismatch

/-- A vector divided by `value − D`; the diagonal may be longer than the vector. -/
def preconditionArray (x : Array α) (value : α) (diagonal : Array α) :
    Except Fault (Array α) := do
  let d ← leading x.size diagonal
  return (precondition x.toVector value d).toArray

/-- The search direction for a residual and a Ritz vector of any lengths.  Where the lengths differ,
only the part that reads one of them alone is defined. -/
def directionArray (scheme : CorrectionScheme) (residual vector : Array α) (value : α)
    (diagonal : Array α) : Except Fault (Array α) := do
  let d ← leading residual.size diagonal
  match scheme with
  | .dpr => return (precondition residual.toVector value d).toArray
  | .olsen =>
    let e ← leading vector.size diagonal
    if h : vector.size = residual.size then
      return (direction .olsen residual.toVector ⟨vector, h⟩ value d).toArray
    else
      let q := vector.toVector
      if isUnusable (Column.dot q (precondition q value e)) then
        return (precondition residual.toVector value d).toArray
      else throw .shapeMismatch

end Correction

end SubspaceEigen
