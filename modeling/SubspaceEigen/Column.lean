import SubspaceEigen.Scalar

/-!
# Columns

Vectors of a fixed length as columns of numbers, and lists of columns of one length.  Everything
that adds up goes through one sum over positions, taken from the first to the last.
-/

namespace SubspaceEigen

/-- Columns of one length, in order. -/
abbrev Columns (α : Type) (n : Nat) :=
  Array (Vector α n)

/-- A square matrix by columns. -/
abbrev Square (α : Type) (n : Nat) :=
  Vector (Vector α n) n

namespace Column

variable {α : Type} [Scalar α] {n : Nat}

/-- The sum of a value for every position, from the first to the last. -/
@[inline] def sum (n : Nat) (f : Fin n → α) : α :=
  Fin.foldl n (fun acc i => acc + f i) 0

def total (x : Vector α n) : α :=
  sum n fun i => x[i]

def dot (x y : Vector α n) : α :=
  sum n fun i => x[i] * y[i]

def normSq (x : Vector α n) : α :=
  dot x x

def norm (x : Vector α n) : α :=
  Scalar.sqrt (normSq x)

/-- The column `y + a · x`. -/
def addScaled (y : Vector α n) (a : α) (x : Vector α n) : Vector α n :=
  Vector.zipWith (fun p q => p + a * q) y x

def scale (a : α) (x : Vector α n) : Vector α n :=
  x.map fun p => p * a

def divide (x : Vector α n) (a : α) : Vector α n :=
  x.map fun p => p / a

def negate (x : Vector α n) : Vector α n :=
  x.map fun p => -p

/-- The coordinate vector of a position. -/
def unit (n k : Nat) : Vector α n :=
  Vector.ofFn fun i => if i.val = k then 1 else 0

/-- The column with norm one; a column of norm zero stays as it is. -/
def normalize (x : Vector α n) : Vector α n :=
  let size := norm x
  if 0 < size then divide x size else x

end Column

namespace Columns

variable {α : Type} [Scalar α] {n : Nat}

def combine (cs : Columns α n) (x : Vector α cs.size) : Vector α n :=
  Vector.ofFn fun i => Column.sum cs.size fun j => cs[j][i] * x[j]

/-- The inner products of every column of `a` with every column of `b`; one column for each column
of `b`. -/
def gram (a b : Columns α n) : Columns α a.size :=
  b.map fun y => Vector.ofFn fun i => Column.dot a[i] y

def norms (cs : Columns α n) : Array α :=
  cs.map Column.norm

/-- The largest absolute entry, column by column; an undefined entry stands until a later entry
replaces it. -/
def largestEntry (cs : Columns α n) : α :=
  cs.foldl (fun top c => c.toArray.foldl (fun top x =>
    if Scalar.abs x ≤ top then top else Scalar.abs x) top) 0

end Columns

namespace Square

variable {α : Type} [Scalar α] {n : Nat}

/-- The entry in row `i` and column `j`; zero outside the matrix. -/
def entry (a : Square α n) (i j : Nat) : α :=
  if h : i < n ∧ j < n then a[j][i] else 0

def identity (n : Nat) : Square α n :=
  Vector.ofFn fun j => Column.unit n j

def mulColumn (a : Square α n) (x : Vector α n) : Vector α n :=
  Vector.ofFn fun i => Column.sum n fun j => a[j][i] * x[j]

/-- The square block of a given size whose first row and column is `start`. -/
def block (a : Square α n) (start size : Nat) : Square α size :=
  Vector.ofFn fun j => Vector.ofFn fun i => a.entry (start + i) (start + j)

def largestEntry (a : Square α n) : α :=
  Columns.largestEntry a.toArray

end Square

end SubspaceEigen
