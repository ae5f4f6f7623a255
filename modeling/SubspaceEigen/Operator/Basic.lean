import SubspaceEigen.Block

/-!
# Linear operators

An operator is known by its shape, its diagonal, and its action on a block of columns.  Nothing
else of it is seen by the eigensolvers, so it need not be stored anywhere.
-/

namespace SubspaceEigen

/-- A linear operator by its action.  Each part may fault, when the operator is asked for something
outside its domain. -/
structure LinearOperator (α : Type) where
  rows : Nat
  cols : Nat
  diagonal : Except Fault (Array α)
  apply : Block α → Except Fault (Block α)
  applyVector : Array α → Except Fault (Array α)
  /-- The matrix, where the operator stores it as a whole. -/
  stored? : Option (Block α)

namespace LinearOperator

variable {α : Type}

/-- The product with a vector, as the product with a block of one column. -/
def vectorThrough (apply : Block α → Except Fault (Block α)) (x : Array α) :
    Except Fault (Array α) := do
  let y ← apply (Block.ofColumn x.toVector)
  match y.columns[0]? with
  | some c => .ok c.toArray
  | none => .error .outOfRange

/-- An operator that is given by its shape, its diagonal and its action alone. -/
def ofAction (rows cols : Nat) (diagonal : Except Fault (Array α))
    (apply : Block α → Except Fault (Block α)) : LinearOperator α where
  rows := rows
  cols := cols
  diagonal := diagonal
  apply := apply
  applyVector := vectorThrough apply
  stored? := none

variable [Scalar α]

def ofBlock (m : Block α) : LinearOperator α where
  rows := m.rows
  cols := m.cols
  diagonal := m.diagonal
  apply := m.mul
  applyVector := m.mulVector
  stored? := some m

/-- The matrix of an operator: the stored one, or the image of the identity. -/
def toDense (op : LinearOperator α) : Except Fault (Block α) :=
  match op.stored? with
  | some m => .ok m
  | none => op.apply (Block.identity op.rows op.cols)

end LinearOperator

end SubspaceEigen
