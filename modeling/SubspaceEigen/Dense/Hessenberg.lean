import SubspaceEigen.Dense.Reflection
import SubspaceEigen.Dense.Rotation

/-!
# Eigenvalues of square matrices

Reflections bring a matrix into Hessenberg form, where only one diagonal below the main one is not
zero.  A double-shift step pulls the eigenvalues of the last two rows out; the matrix falls apart
into diagonal blocks where an entry below the diagonal has become negligible.  A block of two rows
with real eigenvalues is made triangular by a rotation, so that the imaginary part of a real
eigenvalue is zero exactly.
-/

namespace SubspaceEigen.Hessenberg

variable {α : Type} [Scalar α] {n : Nat}

def reduce (a : Square α n) : Square α n :=
  (List.finRange n).foldl (fun (a : Square α n) (k : Fin n) =>
    let h := Reflection.clearing (a.get k) (k.val + 1)
    let cleared := (a.get k).mapIdx fun i p =>
      if i ≤ k.val then p else if i = k.val + 1 then h.image else 0
    (Reflection.conjugate h.axis a).mapIdx fun j column =>
      if j = k.val then cleared else column) a

/-- The first row whose entry below the diagonal is negligible. -/
def cut? (a : Square α n) : Option Nat :=
  (List.range n).find? fun i =>
    0 < i && Scalar.abs (a.entry i (i - 1)) ≤
      Scalar.epsilon * (Scalar.abs (a.entry (i - 1) (i - 1)) + Scalar.abs (a.entry i i))

/-- The eigenvalues of a matrix with two rows that is `unit` times the given one. -/
def pair (unit : α) (a : Square α 2) : List (ComplexNumber α) :=
  let lower := a.entry 1 0
  let gap := (a.entry 0 0 - a.entry 1 1) / (1 + 1)
  let discriminant := lower * a.entry 0 1 + gap * gap
  if lower == 0 then triangular (a.entry 0 0) (a.entry 1 1)
  else if 0 ≤ discriminant then
    let half := (a.entry 0 0 + a.entry 1 1) / (1 + 1)
    let root := Scalar.sqrt discriminant
    let above := half + root - a.entry 1 1
    let below := half - root - a.entry 1 1
    let x := if Scalar.abs below < Scalar.abs above then above else below
    if Scalar.abs (Rotation.signedLength x lower) ≤ 0 then triangular (a.entry 0 0) (a.entry 1 1)
    else
      let r := Rotation.onto x lower
      let left := r.turn (a.entry 0 0) lower
      let right := r.turn (a.entry 0 1) (a.entry 1 1)
      triangular (r.turn left.1 right.1).1 (r.turn left.2 right.2).2
  else
    let half := (a.entry 1 1 * unit + a.entry 0 0 * unit) / (1 + 1)
    let gap := (a.entry 0 0 * unit - a.entry 1 1 * unit) / (1 + 1)
    let root := Scalar.sqrt (-(lower * unit * (a.entry 0 1 * unit) + gap * gap))
    [⟨half, root⟩, ⟨half, -root⟩]
where
  /-- The eigenvalues on the diagonal of a triangular matrix. -/
  triangular (x y : α) : List (ComplexNumber α) :=
    [⟨x * unit, 0⟩, ⟨y * unit, 0⟩]

/-- One double-shift step; the shifts are the eigenvalues of the last two rows. -/
def step (a : Square α n) : Square α n :=
  let last := n - 1
  let before := n - 2
  let sum := a.entry last last + a.entry before before
  let product :=
    a.entry last last * a.entry before before - a.entry last before * a.entry before last
  let x := a.entry 0 0 * a.entry 0 0 + a.entry 0 1 * a.entry 1 0 - sum * a.entry 0 0 + product
  let y := a.entry 1 0 * (a.entry 0 0 + a.entry 1 1 - sum)
  let z := a.entry 1 0 * a.entry 2 1
  let lead := Vector.ofFn fun (i : Fin n) =>
    if i.val = 0 then x else if i.val = 1 then y else if i.val = 2 then z else 0
  reduce (Reflection.conjugate (Reflection.clearing lead 0).axis a)

/-- The eigenvalues of `unit` times a matrix in Hessenberg form, found by at most `fuel` steps and
cuts one inside the other. -/
def solve (unit : α) : Nat → {n : Nat} → Square α n → Option (List (ComplexNumber α))
  | 0, _, _ => none
  | fuel + 1, n, a =>
    match cut? a with
    | some i => do
      let left ← solve unit fuel (a.block 0 i)
      let right ← solve unit fuel (a.block i (n - i))
      some (left ++ right)
    | none =>
      match n, a with
      | 0, _ => some []
      | 1, a => some [⟨a.entry 0 0 * unit, 0⟩]
      | 2, a => some (pair unit a)
      | _ + 3, a => solve unit fuel (step a)

/-- The eigenvalues of a square matrix, if they are found.  A matrix with more than two rows is
scaled by its largest entry first; there is no such scale for the zero matrix. -/
def eigenvalues : {n : Nat} → Square α n → Option (List (ComplexNumber α))
  | 0, _ => some []
  | 1, a => some [⟨a.entry 0 0, 0⟩]
  | 2, a => some (pair 1 a)
  | n + 3, a =>
    let top := a.largestEntry
    if top == 0 then none
    else solve top (100 * (n + 13)) (reduce (a.map fun c => Column.divide c top))

end SubspaceEigen.Hessenberg
