import SubspaceEigen.Complex
import SubspaceEigen.Column

/-!
# Dense factorizations

The three factorizations of small dense matrices on which the eigensolvers rest.  The solvers take
them as a parameter, so that what is said about a solve depends only on what a factorization
promises, and not on how it is computed.
-/

namespace SubspaceEigen

structure Eigenpair (α : Type) (n : Nat) where
  value : α
  vector : Vector α n

/-- Columns written as the product of orthonormal columns `q` and an upper triangular matrix with
the columns `r`. -/
structure TriangularFactors (α : Type) (n : Nat) where
  order : Nat
  q : Vector (Vector α n) order
  r : Columns α order

namespace TriangularFactors

variable {α : Type} [Scalar α] {n : Nat}

def diagonal (f : TriangularFactors α n) : Vector α f.order :=
  Vector.ofFn fun j => match f.r[j.val]? with
    | some column => column[j]
    | none => 0

end TriangularFactors

/-- A supply of dense factorizations. -/
structure Factorizations (α : Type) where
  triangular : {n : Nat} → Columns α n → TriangularFactors α n
  /-- The eigenpairs of a symmetric matrix, in any order; only the part on and below the diagonal
  is read. -/
  symmetric : {n : Nat} → Square α n → List (Eigenpair α n)
  /-- The eigenvalues of any square matrix, if the iteration finds them. -/
  eigenvalues : {n : Nat} → Square α n → Option (List (ComplexNumber α))

end SubspaceEigen
