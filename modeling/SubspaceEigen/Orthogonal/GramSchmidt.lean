import SubspaceEigen.Column

/-!
# Gram–Schmidt

Modified Gram–Schmidt with two passes a column.  Columns before a starting position are frozen; each
later column is made orthogonal to all that were kept before it, or dropped when too little of it
is left.
-/

namespace SubspaceEigen

variable {α : Type} [Scalar α] {n : Nat}

/-- The part of a unit column, or of a triangular diagonal, below which a column counts as dependent
on those before it. -/
def dependenceTolerance : α :=
  1e-10

namespace GramSchmidt

/-- A column less its components along the columns of a basis, taken out one after another. -/
def project (basis : Columns α n) (w : Vector α n) : Vector α n :=
  basis.foldl (fun w b => Column.addScaled w (-Column.dot b w) b) w

/-- One pass: project, and bring back to norm one; nothing if the column is dependent. -/
def pass? (basis : Columns α n) (w : Vector α n) : Option (Vector α n) :=
  let projected := project basis w
  let size := Column.norm projected
  if size < dependenceTolerance then none else some (Column.divide projected size)

/-- The unit column that a column adds to a basis, if it adds one. -/
def direction? (basis : Columns α n) (v : Vector α n) : Option (Vector α n) :=
  let size := Column.norm v
  if size ≤ 0 ∨ Scalar.isFinite size = false then none
  else (pass? basis (Column.divide v size)).bind (pass? basis)

/-- The basis with a column added, unless the column is dependent. -/
def insert (basis : Columns α n) (v : Vector α n) : Columns α n :=
  match direction? basis v with
  | some w => basis.push w
  | none => basis

end GramSchmidt

/-- Make columns orthonormal; those before `start` are taken as they are. -/
def gramSchmidt (v : Columns α n) (start : Nat) : Columns α n :=
  (v.extract start v.size).foldl GramSchmidt.insert (v.extract 0 start)

end SubspaceEigen
