import SubspaceEigen.Operator.Basic

/-!
# Sparse matrices

Square matrices by rows, where a row holds only some of its entries, each with its column, in
ascending order of the columns.  Entries given several times for one position are added up in the
order in which they were given.
-/

namespace SubspaceEigen

/-- An entry of a matrix with its position. -/
structure Triplet (α : Type) where
  row : Nat
  col : Nat
  value : α

/-- A square matrix by rows of entries, each entry with its column. -/
structure SparseMatrix (α : Type) where
  size : Nat
  entries : Vector (List (Nat × α)) size

namespace SparseMatrix

variable {α : Type}

def storedCount (m : SparseMatrix α) : Nat :=
  m.entries.toList.flatten.length

/-- Where each row starts in the list of all entries, and where the last one ends. -/
def rowStarts (m : SparseMatrix α) : List Nat :=
  (List.range (m.size + 1)).map fun i => (m.entries.toList.take i).flatten.length

def columnIndices (m : SparseMatrix α) : List Nat :=
  m.entries.toList.flatMap fun row => row.map Prod.fst

def values (m : SparseMatrix α) : List α :=
  m.entries.toList.flatMap fun row => row.map Prod.snd

variable [Scalar α]

/-- The entries of a dense square matrix whose magnitude exceeds a limit, and its diagonal. -/
def ofBlock (m : Block α) (limit : α) : Except OperatorError (SparseMatrix α) :=
  match m.toSquare? with
  | none => .error (.notSquare .sparseMatrix m.rows m.cols)
  | some a =>
    .ok ⟨m.rows, Vector.ofFn fun i => (List.finRange m.rows).filterMap fun j =>
      if i = j ∨ limit < Scalar.abs (a.entry i j) then some (j.val, a.entry i j) else none⟩

/-- Add up the values of neighbours with the same column, from the entry `(col, acc)` on. -/
def gather (col : Nat) (acc : α) : List (Nat × α) → List (Nat × α)
  | [] => [(col, acc)]
  | (j, v) :: rest => if j = col then gather col (acc + v) rest else (col, acc) :: gather j v rest

/-- A row from entries in any order. -/
def gatherRow (entries : List (Nat × α)) : List (Nat × α) :=
  match entries.mergeSort fun a b => a.1 ≤ b.1 with
  | [] => []
  | (j, v) :: rest => gather j v rest

/-- The matrix with the given entries; the first entry outside of it is refused. -/
def ofTriplets (size : Nat) (triplets : List (Triplet α)) :
    Except OperatorError (SparseMatrix α) :=
  match triplets.find? fun t => size ≤ t.row || size ≤ t.col with
  | some t => .error (.entryOutOfBounds t.row t.col size)
  | none =>
    .ok ⟨size, Vector.ofFn fun i => gatherRow (triplets.filterMap fun t =>
      if t.row = i.val then some (t.col, t.value) else none)⟩

/-- The product of one row with a vector, added up from left to right. -/
def rowProduct (row : List (Nat × α)) (x : Array α) : Except Fault α :=
  row.foldlM (fun sum (j, v) =>
    match x[j]? with
    | some xj => .ok (sum + v * xj)
    | none => .error .outOfRange) 0

/-- The product with a vector, which may be longer than needed. -/
def product (m : SparseMatrix α) (x : Array α) : Except Fault (Vector α m.size) :=
  m.entries.mapM fun row => rowProduct row x

def diagonal (m : SparseMatrix α) : Vector α m.size :=
  m.entries.mapIdx fun i row => row.foldl (fun sum (j, v) => if j = i then sum + v else sum) 0

def apply (m : SparseMatrix α) (x : Block α) : Except Fault (Block α) :=
  if x.rows = m.size then do
    let columns ← x.columns.mapM fun c => m.product c.toArray
    .ok ⟨m.size, columns⟩
  else .error .sparseHeight

def toOperator (m : SparseMatrix α) : LinearOperator α where
  rows := m.size
  cols := m.size
  diagonal := .ok m.diagonal.toArray
  apply := m.apply
  applyVector x := (m.product x).map Vector.toArray
  stored? := none

end SparseMatrix

end SubspaceEigen
