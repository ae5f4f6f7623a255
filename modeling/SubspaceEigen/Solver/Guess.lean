import SubspaceEigen.Config.Basic
import SubspaceEigen.Noise
import SubspaceEigen.Ranking
import SubspaceEigen.SearchSpace

/-!
# Initial guesses

Coordinate vectors at the smallest entries of the diagonal, or for a paired operator at the entries
just above its middle, with seeded noise if the configuration asks for it.
-/

namespace SubspaceEigen

variable {α : Type} [Scalar α] {n : Nat}

/-- The number of diagonal entries passed over in ascending order. -/
def OperatorKind.guessOffset (kind : OperatorKind) (n : Nat) : Nat :=
  match kind with
  | .symmetric => 0
  | .hamiltonian => n / 2

/-- The coordinate vectors at which a solve starts. -/
def unitGuess (kind : OperatorKind) (diagonal : Vector α n) (size : Nat) : Columns α n :=
  let indices := ((ranking diagonal.toList).drop (kind.guessOffset n)).take size
  (indices.map fun k => Column.unit n k).toArray

/-- The guess of a solve, with the draws that its noise is made of. -/
def Config.guess (c : Config α) (dense : Factorizations α) (draws : Nat → α)
    (diagonal : Vector α n) (size : Nat) : Columns α n :=
  let guess := unitGuess c.kind diagonal size
  if 0 < c.guessNoise then
    SearchSpace.orthonormalize dense c.orthogonalization
      (Noise.perturb c.guessNoise draws guess) 0
  else guess

end SubspaceEigen
