import SubspaceEigen.Operator.Basic

/-!
# Operators by rows

Operators that can produce any of their rows on demand.  A product is put together row by row, and
the matrix is never held.
-/

namespace SubspaceEigen

/-- A source of the rows of an operator. -/
structure RowSource (α : Type) where
  size : Nat
  row : Nat → Except Fault (Array α)
  diagonalElement : Nat → Except Fault α

namespace RowSource

variable {α : Type}

/-- A source whose diagonal entries are read off its rows. -/
def ofRows (size : Nat) (row : Nat → Except Fault (Array α)) : RowSource α where
  size := size
  row := row
  diagonalElement i := do
    match (← row i)[i]? with
    | some d => .ok d
    | none => .error .outOfRange

def diagonal (source : RowSource α) : Except Fault (Array α) := do
  return (← (List.range source.size).mapM source.diagonalElement).toArray

/-- A row that has a given length. -/
def rowOfLength (source : RowSource α) (n i : Nat) : Except Fault (Vector α n) := do
  let r ← source.row i
  if h : r.size = n then .ok ⟨r, h⟩ else .error .shapeMismatch

variable [Scalar α]

def apply (source : RowSource α) (x : Block α) : Except Fault (Block α) :=
  if x.rows ≠ source.size then .error .rowwiseHeight
  else if source.size = 0 ∨ x.cols = 0 then .ok (Block.zero source.size x.cols)
  else do
    let rows ← (Vector.range source.size).mapM fun i => source.rowOfLength x.rows i
    .ok ⟨source.size, x.columns.map fun c => rows.map fun r => Column.dot r c⟩

def toOperator (source : RowSource α) : LinearOperator α :=
  LinearOperator.ofAction source.size source.size source.diagonal source.apply

end RowSource

end SubspaceEigen
