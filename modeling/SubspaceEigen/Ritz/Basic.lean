import SubspaceEigen.Eigen.Symmetric
import SubspaceEigen.SearchSpace

/-!
# Ritz pairs

Approximate eigenpairs drawn from a search space.  A reduced eigenproblem gives coefficients; the
basis turns them into a Ritz vector, and the images of the basis give its residual without another
application of the operator.
-/

namespace SubspaceEigen

/-- An approximate eigenpair with its residual `A q − λ q`, and its coefficients in a basis of
`order` columns. -/
structure RitzPair (α : Type) (n order : Nat) where
  value : α
  coefficients : Vector α order
  vector : Vector α n
  residual : Vector α n

/-- The Ritz pairs of a search space whose reduced problem has the given order. -/
structure Extraction (α : Type) (n : Nat) where
  order : Nat
  pairs : List (RitzPair α n order)

namespace Extraction

variable {α : Type} [Scalar α] {n : Nat}

def residualNorms (e : Extraction α n) : List α :=
  e.pairs.map fun p => Column.norm p.residual

/-- The Ritz pairs for values and coefficients of the reduced problem. -/
def ofReduced (s : SearchSpace α n) {order : Nat} (reduced : List (α × Vector α order)) :
    Except Fault (Extraction α n) :=
  if h : order = s.basis.size ∧ order = s.image.size then
    .ok ⟨order, reduced.map fun (value, u) =>
      let q := s.basis.combine (u.cast h.1)
      ⟨value, u, q, Column.addScaled (s.image.combine (u.cast h.2)) (-value) q⟩⟩
  else .error .shapeMismatch

end Extraction

variable {α : Type} [Scalar α] {n : Nat}

def symmetricPart (m : Block α) : Except Fault (Block α) :=
  match m.toSquare? with
  | none => .error .shapeMismatch
  | some a =>
    .ok ⟨m.rows, Array.ofFn fun (j : Fin m.rows) => Vector.ofFn fun i =>
      (a.entry i j + a.entry j i) * 0.5⟩

/-- The Ritz pairs of a symmetric operator, with ascending values. -/
def plainRitz (dense : Factorizations α) (s : SearchSpace α n) :
    Except Fault (Extraction α n) := do
  let m ← symmetricPart s.projected
  let spectrum ← diagonalize dense m none
  Extraction.ofReduced s (spectrum.pairs.map fun p => (p.value, p.vector))

end SubspaceEigen
