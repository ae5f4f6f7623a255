import SubspaceEigen.Operator.Basic

/-!
# Paired operators

The operator `[[A, B], [-B, -A]]` of two square blocks of one size.  When `A + B` and `A − B` are
symmetric and positive definite its eigenvalues come in real pairs `±ω`, and an eigenvector splits
into a half `X` for the block `A` and a half `Y` for the block `B`.
-/

namespace SubspaceEigen

structure PairedOperator (α : Type) where
  first : LinearOperator α
  second : LinearOperator α
  first_square : first.cols = first.rows
  second_square : second.cols = second.rows
  same_size : second.rows = first.rows

namespace PairedOperator

variable {α : Type}

/-- Compose two blocks, which must be square and of the same size. -/
def compose (a b : LinearOperator α) : Except OperatorError (PairedOperator α) :=
  if ha : a.cols = a.rows then
    if hb : b.cols = b.rows then
      if hab : b.rows = a.rows then .ok ⟨a, b, ha, hb, hab⟩
      else .error (.dimensionMismatch .secondBlock a.rows b.rows)
    else .error (.notSquare .secondBlock b.rows b.cols)
  else .error (.notSquare .firstBlock a.rows a.cols)

def blockSize (h : PairedOperator α) : Nat :=
  h.first.rows

def split (h : PairedOperator α) (v : Array α) : Except Fault (Array α × Array α) :=
  if v.size = 2 * h.blockSize then
    .ok (v.extract 0 h.blockSize, v.extract h.blockSize (2 * h.blockSize))
  else .error .pairedVector

/-- The two halves of every column of a block. -/
def splitColumns (h : PairedOperator α) (m : Block α) : Except Fault (Block α × Block α) :=
  if m.rows = 2 * h.blockSize then do
    return (← m.takeRows 0 h.blockSize, ← m.takeRows h.blockSize h.blockSize)
  else .error .pairedColumns

/-- Put two blocks with the same columns on top of each other. -/
def stack (upper lower : Block α) : Block α :=
  ⟨upper.rows + lower.rows, Array.zipWith (fun x y => x ++ y) upper.columns lower.columns⟩

variable [Scalar α]

/-- The two halves of one excitation, scaled so that the squared norms of the halves differ by one;
halves whose difference is not positive stay as they are. -/
def normalizePair {n m : Nat} (x : Vector α n) (y : Vector α m) : Vector α n × Vector α m :=
  let difference := Column.normSq x - Column.normSq y
  if 0 < difference then
    let factor := 1 / Scalar.sqrt difference
    (Column.scale factor x, Column.scale factor y)
  else (x, y)

/-- The halves `X` and `Y` of excitation vectors, scaled so that `|X|² − |Y|² = 1`. -/
def normalizeExcitations (h : PairedOperator α) (vectors : Block α) :
    Except Fault (Block α × Block α) := do
  let (x, y) ← h.splitColumns vectors
  let pairs := Array.zipWith normalizePair x.columns y.columns
  return (⟨x.rows, pairs.map Prod.fst⟩, ⟨y.rows, pairs.map Prod.snd⟩)

/-- The diagonal: that of the first block, and the same with other signs. -/
def diagonal (h : PairedOperator α) : Except Fault (Array α) := do
  let d ← h.first.diagonal
  return d ++ d.map fun x => -x

def apply (h : PairedOperator α) (x : Block α) : Except Fault (Block α) := do
  let n := h.blockSize
  if x.rows ≠ 2 * n then throw .pairedHeight
  let top ← x.takeRows 0 n
  let bottom ← x.takeRows n n
  let firstTop ← h.first.apply top
  let firstBottom ← h.first.apply bottom
  let secondTop ← h.second.apply top
  let secondBottom ← h.second.apply bottom
  let upper ← firstTop.zipWith (· + ·) secondBottom
  let lower ← secondTop.zipWith (fun a b => -(a + b)) firstBottom
  if upper.rows = n ∧ upper.cols = x.cols ∧ lower.rows = n ∧ lower.cols = x.cols then
    return stack upper lower
  else throw .shapeMismatch

/-- Two blocks as one operator of twice their size. -/
def toOperator (h : PairedOperator α) : LinearOperator α :=
  let size := h.first.rows + h.second.rows
  LinearOperator.ofAction size size h.diagonal h.apply

end PairedOperator

end SubspaceEigen
