import SubspaceEigen.Column
import SubspaceEigen.Error

/-!
# Blocks

Matrices whose shape is known only when the program runs: a height, and columns of that height.
An operation on two blocks says by a fault that their shapes do not fit.
-/

namespace SubspaceEigen

structure Block (α : Type) where
  rows : Nat
  columns : Columns α rows

namespace Block

variable {α : Type}

def cols (m : Block α) : Nat :=
  m.columns.size

/-- The block whose entries are given by row and column. -/
def ofFn (rows cols : Nat) (f : Nat → Nat → α) : Block α :=
  ⟨rows, Array.ofFn fun (j : Fin cols) => Vector.ofFn fun (i : Fin rows) => f i j⟩

def ofColumn {n : Nat} (x : Vector α n) : Block α :=
  ⟨n, #[x]⟩

/-- The columns of a block that has the height `n`. -/
def columnsOf (m : Block α) (n : Nat) : Except Fault (Columns α n) :=
  if h : m.rows = n then .ok (m.columns.map fun c => c.cast h) else .error .shapeMismatch

/-- The block as a square matrix with `n` rows, if it is one. -/
def squareOf? (m : Block α) (n : Nat) : Option (Square α n) :=
  if h : m.rows = n ∧ m.columns.size = n then
    some ⟨m.columns.map fun c => c.cast h.1, by simpa using h.2⟩
  else none

def toSquare? (m : Block α) : Option (Square α m.rows) :=
  m.squareOf? m.rows

/-- Gather columns by index, in the order of the indices. -/
def select (m : Block α) (indices : List Nat) : Except Fault (Block α) :=
  match indices.mapM fun i => m.columns[i]? with
  | some cs => .ok ⟨m.rows, cs.toArray⟩
  | none => .error .outOfRange

/-- The rows from `start` on, `count` of them. -/
def takeRows (m : Block α) (start count : Nat) : Except Fault (Block α) :=
  if h : start + count ≤ m.rows then
    .ok ⟨count, m.columns.map fun x => Vector.ofFn fun i => x[start + i.val]⟩
  else .error .shapeMismatch

variable [Scalar α]

def zero (rows cols : Nat) : Block α :=
  ofFn rows cols fun _ _ => 0

def identity (rows cols : Nat) : Block α :=
  ofFn rows cols fun i j => if i = j then 1 else 0

def mul (a b : Block α) : Except Fault (Block α) :=
  if h : b.rows = a.columns.size then
    .ok ⟨a.rows, b.columns.map fun x => a.columns.combine (x.cast h)⟩
  else .error .shapeMismatch

def mulVector (a : Block α) (x : Array α) : Except Fault (Array α) :=
  if h : x.size = a.columns.size then .ok (a.columns.combine ⟨x, h⟩).toArray
  else .error .shapeMismatch

def zipWith (f : α → α → α) (a b : Block α) : Except Fault (Block α) :=
  if h : b.rows = a.rows ∧ b.columns.size = a.columns.size then
    .ok ⟨a.rows, Array.zipWith (fun x y => Vector.zipWith f x (y.cast h.1)) a.columns b.columns⟩
  else .error .shapeMismatch

def diagonal (m : Block α) : Except Fault (Array α) :=
  match m.toSquare? with
  | some a => .ok (Array.ofFn fun (i : Fin m.rows) => a.entry i i)
  | none => .error .shapeMismatch

/-- Every column divided by its norm; columns of norm zero stay as they are. -/
def normalizeColumns (m : Block α) : Block α :=
  ⟨m.rows, m.columns.map Column.normalize⟩

end Block

end SubspaceEigen
