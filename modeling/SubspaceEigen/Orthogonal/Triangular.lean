import SubspaceEigen.Dense.Factorizations
import SubspaceEigen.Orthogonal.GramSchmidt

/-!
# Orthonormal columns from a triangular factorization

The orthonormal factor with the signs for which the triangular factor has no negative diagonal
entry, without the columns whose diagonal entry is negligible beside the largest one.
-/

namespace SubspaceEigen

variable {α : Type} [Scalar α] {n : Nat}

namespace TriangularFactors

/-- The largest absolute diagonal entry of the triangular factor. -/
def largestPivot (f : TriangularFactors α n) : α :=
  f.diagonal.toArray.foldl (fun top d => Scalar.max top (Scalar.abs d)) 0

/-- An orthonormal column with the sign for which its diagonal entry is not negative. -/
def oriented (f : TriangularFactors α n) (j : Fin f.order) : Vector α n :=
  if f.diagonal.get j < 0 then Column.negate (f.q.get j) else f.q.get j

/-- An orthonormal column, unless its diagonal entry is negligible beside the largest one. -/
def kept? (f : TriangularFactors α n) (j : Fin f.order) : Option (Vector α n) :=
  if Scalar.abs (f.diagonal.get j) ≤ dependenceTolerance * f.largestPivot then none
  else some (f.oriented j)

end TriangularFactors

/-- Make columns orthonormal by a triangular factorization. -/
def qrOrthonormalize (dense : Factorizations α) (v : Columns α n) : Columns α n :=
  let f := dense.triangular v
  (List.finRange f.order).toArray.filterMap f.kept?

/-- The largest absolute entry of `vᵀ v − 1`; zero without columns. -/
def orthonormalityError (v : Columns α n) : α :=
  let gram := v.gram v
  Columns.largestEntry (gram.mapIdx fun j x =>
    x.mapIdx fun i p => p - (if i = j then 1 else 0))

end SubspaceEigen
