import SubspaceEigen.Dense.Hessenberg
import SubspaceEigen.Dense.Tridiagonal

/-!
# The standard factorizations

The supply of dense factorizations that the library brings along, all of them by reflections.
-/

namespace SubspaceEigen

def Factorizations.standard {α : Type} [Scalar α] : Factorizations α where
  triangular := Reflection.triangular
  symmetric := Tridiagonal.eigenpairs
  eigenvalues := Hessenberg.eigenvalues

end SubspaceEigen
