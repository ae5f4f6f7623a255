import SubspaceEigen.Block
import SubspaceEigen.Dense.Factorizations
import SubspaceEigen.Ranking

/-!
# Spectra of symmetric matrices

The eigenpairs of a symmetric matrix in ascending order.
-/

namespace SubspaceEigen

/-- Eigenvalues in ascending order with orthonormal eigenvectors. -/
structure Spectrum (α : Type) (n : Nat) where
  pairs : List (Eigenpair α n)

namespace Spectrum

variable {α : Type} [Scalar α] {n : Nat}

def lowest (s : Spectrum α n) : Except Fault α :=
  match s.pairs with
  | [] => .error .outOfRange
  | p :: _ => .ok p.value

/-- The distance between the two smallest eigenvalues; zero if there are fewer than two. -/
def gap (s : Spectrum α n) : α :=
  match s.pairs with
  | first :: second :: _ => second.value - first.value
  | _ => 0

end Spectrum

variable {α : Type} [Scalar α]

/-- The eigenpairs of a symmetric matrix, all of them or only the lowest ones.  There is no
eigenproblem without rows. -/
def diagonalize (dense : Factorizations α) (m : Block α) (lowest : Option Nat) :
    Except Fault (Spectrum α m.rows) :=
  match m.toSquare? with
  | none => .error .noEigenproblem
  | some a =>
    if m.rows = 0 then .error .noEigenproblem
    else
      let sorted := sortedBy Eigenpair.value (dense.symmetric a)
      .ok ⟨match lowest with
        | some count => sorted.take count
        | none => sorted⟩

end SubspaceEigen
