import SubspaceEigen.Block
import SubspaceEigen.Dense.Elimination
import SubspaceEigen.Dense.Factorizations

/-!
# Eigenpairs of general matrices and pencils

The eigenvalues of a square matrix come from a dense factorization; each eigenvector is found by
inverse iteration with a slightly shifted eigenvalue, in complex arithmetic.  The vectors have norm
one, and their largest component is turned onto the positive real axis.
-/

namespace SubspaceEigen

structure ComplexEigenpair (α : Type) (n : Nat) where
  value : ComplexNumber α
  vector : Vector (ComplexNumber α) n

namespace InverseIteration

variable {α : Type} [Scalar α] {n : Nat}

/-- The shift applied to an eigenvalue, relative to the scale of the matrix. -/
def relativeShift : α :=
  1e-10

/-- How often the shift is tried, and the factor by which it grows. -/
def attempts : Nat :=
  4

def growth : α :=
  1e3

/-- The number of linear systems solved for one vector. -/
def solves : Nat :=
  3

def norm (x : Vector (ComplexNumber α) n) : α :=
  Scalar.sqrt (Column.total (x.map ComplexNumber.normSq))

def divide (x : Vector (ComplexNumber α) n) (a : α) : Vector (ComplexNumber α) n :=
  x.map fun z => z.divReal a

/-- Turn the vector so that its largest component, the last one of several, is real and positive. -/
def fixPhase (x : Vector (ComplexNumber α) n) : Vector (ComplexNumber α) n :=
  match x.toList with
  | [] => x
  | first :: rest =>
    let pivot := rest.foldl (fun (best z : ComplexNumber α) =>
      if Scalar.ranksBefore best.normSq z.normSq then z else best) first
    let size := pivot.modulus
    if 0 < size then
      let phase := pivot.conj.divReal size
      x.map fun z => z * phase
    else x

/-- The starting vector for the eigenvalue with index `k`: no component is zero, and different
eigenvalues start from different vectors. -/
def start (n k : Nat) : Vector (ComplexNumber α) n :=
  let x := Vector.ofFn fun (i : Fin n) =>
    let t : α := (((i.val + 1) * (k + 2) : Nat) : α) * 0.618033988749895
    ComplexNumber.ofReal (0.5 + Scalar.fract t)
  divide x (norm x)

/-- The rows of the matrix `a − sigma`. -/
def shiftedRows (a : Square α n) (sigma : ComplexNumber α) : List (List (ComplexNumber α)) :=
  (List.range n).map fun i => (List.range n).map fun j =>
    let z := ComplexNumber.ofReal (a.entry i j)
    if i = j then z - sigma else z

/-- The items of a list as a vector, if there are as many as that. -/
def toVector? {γ : Type} (n : Nat) (items : List γ) : Option (Vector γ n) :=
  if h : items.length = n then some ⟨items.toArray, by simpa using h⟩ else none

/-- Solve and bring back to norm one, `count` times. -/
def iterate? (steps : List (Elimination.Step (ComplexNumber α))) :
    Nat → Vector (ComplexNumber α) n → Option (Vector (ComplexNumber α) n)
  | 0, x => some x
  | count + 1, x => do
    let y ← toVector? n (Elimination.solve steps x.toList)
    let size := norm y
    if size == 0 ∨ Scalar.isFinite size = false then none
    else iterate? steps count (divide y size)

/-- The eigenvector for an eigenvalue, trying a shift and at most `count − 1` larger ones. -/
def vector? (a : Square α n) (value : ComplexNumber α) (k : Nat) :
    Nat → α → Option (Vector (ComplexNumber α) n)
  | 0, _ => none
  | count + 1, shift =>
    let sigma := value + ComplexNumber.ofReal shift
    match (Elimination.factor? (shiftedRows a sigma)).bind fun steps =>
        iterate? steps solves (start n k) with
    | some x => some (fixPhase x)
    | none => vector? a value k count (shift * growth)

end InverseIteration

variable {α : Type} [Scalar α]

def squareEigen (dense : Factorizations α) {n : Nat} (a : Square α n) :
    Option (List (ComplexEigenpair α n)) :=
  if a.toArray.any fun c => c.toArray.any fun x => !Scalar.isFinite x then none
  else do
    let values ← dense.eigenvalues a
    let scale := Scalar.max a.largestEntry 1
    values.zipIdx.mapM fun (value, k) =>
      (InverseIteration.vector? a value k InverseIteration.attempts
        (InverseIteration.relativeShift * scale)).map fun x => ⟨value, x⟩

/-- The eigenpairs of a block; nothing if it is not square. -/
def generalEigen (dense : Factorizations α) (m : Block α) :
    Option (List (ComplexEigenpair α m.rows)) :=
  m.toSquare?.bind (squareEigen dense)

/-- The solution `x` of `b · x = a`, column by column; nothing if `b` is singular. -/
def solveLinear? {n : Nat} (b a : Square α n) : Option (Square α n) := do
  let rows := (List.range n).map fun i => (List.range n).map fun j => b.entry i j
  let steps ← Elimination.factor? rows
  a.mapM fun c => InverseIteration.toVector? n (Elimination.solve steps c.toList)

/-- The eigenpairs of the pencil `a u = θ b u`, from those of `b⁻¹ a`; nothing if `b` is singular or
the two are not square matrices of one size. -/
def generalizedEigen (dense : Factorizations α) (a b : Block α) :
    Option (List (ComplexEigenpair α a.rows)) := do
  let numerator ← a.toSquare?
  let metric ← b.squareOf? a.rows
  let m ← solveLinear? metric numerator
  squareEigen dense m

end SubspaceEigen
