import SubspaceEigen.Dense.Factorizations

/-!
# Reflections

Reflections at hyperplanes, and the triangular factorization by one reflection a column.  A
reflection is given by its unit axis; the axis zero stands for the identity.
-/

namespace SubspaceEigen

variable {α : Type} [Scalar α] {n : Nat}

/-- A reflection that maps a column to a multiple of a coordinate vector below a given position. -/
structure Reflection (α : Type) (n : Nat) where
  axis : Vector α n
  /-- The entry at that position after the reflection. -/
  image : α

namespace Reflection

def apply (axis x : Vector α n) : Vector α n :=
  Column.addScaled x (-((1 + 1) * Column.dot axis x)) axis

/-- The reflection that clears a column below the entry `start` and leaves what is above it.  The
axis leans to the side of that entry, so that nothing cancels; a column that is zero from `start`
on is not reflected. -/
def clearing (x : Vector α n) (start : Nat) : Reflection α n :=
  let below := x.mapIdx fun i p => if start ≤ i then p else 0
  let lead := if h : start < n then x[start] else 0
  let size := Column.normSq below
  let length := Scalar.sqrt size
  let sign : α := if 0 ≤ lead then 1 else -1
  let signed := sign * length
  let weight := (1 + 1) * (size + Scalar.abs lead * length)
  if weight == 0 then ⟨Vector.replicate n 0, signed⟩
  else
    let root := Scalar.sqrt weight
    let leaning := below.mapIdx fun i p => (if i = start then p + signed else p) / root
    ⟨Column.divide leaning (Column.norm leaning), -signed⟩

/-- The product `a · h` with the reflection `h`. -/
def applyRight (axis : Vector α n) (a : Square α n) : Square α n :=
  let w := a.mulColumn axis
  Vector.zipWith (fun column p => Column.addScaled column (-((1 + 1) * p)) w) a axis

/-- The similar matrix `h · a · h` with the reflection `h`. -/
def conjugate (axis : Vector α n) (a : Square α n) : Square α n :=
  applyRight axis (a.map (apply axis))

/-- Clear the columns one after another, the first below the entry `start`, the next one below the
entry after it, and so on; give the axes and the cleared columns. -/
def clearAll (start : Nat) : List (Vector α n) → List (Vector α n) × List (Vector α n)
  | [] => ([], [])
  | x :: rest =>
    if start < n then
      let h := clearing x start
      let cleared := x.mapIdx fun i p =>
        if i < start then p else if i = start then h.image else 0
      let (axes, columns) := clearAll (start + 1) (rest.map (apply h.axis))
      (h.axis :: axes, cleared :: columns)
    else
      let (axes, columns) := clearAll start rest
      (axes, x :: columns)
termination_by columns => columns.length
decreasing_by all_goals simp_wf

def triangular (cs : Columns α n) : TriangularFactors α n :=
  let (axes, cleared) := clearAll 0 cs.toList
  { order := min n cs.size
    q := Vector.ofFn fun k => axes.foldr apply (Column.unit n k)
    r := (cleared.map fun x => Vector.ofFn fun (i : Fin (min n cs.size)) =>
      have inside : i.val < n := Nat.lt_of_lt_of_le i.isLt (Nat.min_le_left _ _)
      x[i.val]).toArray }

end Reflection

end SubspaceEigen
