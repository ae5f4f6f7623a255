import SubspaceEigen.Dense.Reflection
import SubspaceEigen.Dense.Rotation

/-!
# Symmetric matrices

The eigenpairs of a symmetric matrix.  Reflections make the matrix tridiagonal; the tridiagonal
matrix is then a chain of diagonal entries, each with its column of the accumulated transformation,
and with links between neighbours.  A sweep of plane rotations along the chain shrinks its last
link; a chain falls apart at links that have become negligible, and a chain of two entries is
solved in closed form.
-/

namespace SubspaceEigen.Tridiagonal

variable {α : Type} [Scalar α] {n : Nat}

/-- A diagonal entry with its column, and the link to the entry before it. -/
structure Node (α : Type) (n : Nat) where
  link : α
  value : α
  column : Vector α n

/-- The symmetric matrix whose part on and below the diagonal is that of `a`. -/
def ofLower (a : Square α n) : Square α n :=
  Vector.ofFn fun j => Vector.ofFn fun i => if j ≤ i then a.entry i j else a.entry j i

/-- Make a symmetric matrix tridiagonal.  The second matrix has the transformation as its columns;
the list has the entries beside the diagonal. -/
def reduce (a : Square α n) : Square α n × Square α n × List α :=
  let (t, q, links) := (List.finRange n).foldl
    (fun ((t, q, links) : Square α n × Square α n × List α) (k : Fin n) =>
      let h := Reflection.clearing (t.get k) (k.val + 1)
      (Reflection.conjugate h.axis t, Reflection.applyRight h.axis q, h.image :: links))
    (a, Square.identity n, [])
  (t, q, links.reverse)

/-- The chain of a symmetric matrix, from the last entry to the first. -/
def chain (a : Square α n) : List (Node α n) :=
  let (t, q, links) := reduce a
  (List.zipWith (fun link (k : Fin n) => Node.mk link (t.entry k k) (q.get k)) (0 :: links)
    (List.finRange n)).reverse

/-- The size below which a link between two values is negligible. -/
def cutoff (before after : α) : α :=
  Scalar.epsilon * (Scalar.abs after + Scalar.abs before)

/-- Split off the entries at the end of a chain, given from the last entry to the first, that are
not linked to an entry before them; the rest is empty or ends in a link that counts. -/
def settle : List (Node α n) → List (Node α n) × List (Node α n)
  | last :: before :: rest =>
    if cutoff before.value last.value < Scalar.abs last.link then ([], last :: before :: rest)
    else
      let (settled, linked) := settle (before :: rest)
      (last :: settled, linked)
  | nodes => (nodes, [])

/-- Split off the part of a chain, given from the last entry to the first, after its last negligible
link. -/
def segment : List (Node α n) → List (Node α n) × List (Node α n)
  | last :: before :: rest =>
    if last.link == 0 ∨ Scalar.abs last.link ≤ cutoff before.value last.value then
      ([last], before :: rest)
    else
      let (part, others) := segment (before :: rest)
      (last :: part, others)
  | nodes => (nodes, [])

/-- The eigenvalue of the last two entries of a chain that is nearer to the last one. -/
def shift (before last : Node α n) : α :=
  let half := (before.value - last.value) / (1 + 1)
  let square := last.link * last.link
  if square == 0 then last.value
  else
    let root := Scalar.sqrt (half * half + square)
    last.value - square / (if 0 ≤ half then half + root else half - root)

/-- Rotate `node` with its neighbour so that `(x, z)` turns onto the first axis, and go on along the
chain with the entry that this pushes out of the tridiagonal form.  Without such an entry the rest
of the chain stays as it is. -/
def chase (node : Node α n) (x z : α) : List (Node α n) → List (Node α n)
  | [] => [{ node with link := x }]
  | next :: rest =>
    if z == 0 then { node with link := x } :: next :: rest
    else
      let r := Rotation.onto x z
      let c := r.cosine
      let s := r.sine
      let cross := c * s * (1 + 1) * next.link
      let (left, right) := r.turnColumns node.column next.column
      let done : Node α n :=
        ⟨Rotation.signedLength x z, c * c * node.value + s * s * next.value + cross, left⟩
      let moved : Node α n :=
        ⟨0, s * s * node.value + c * c * next.value - cross, right⟩
      let joined := c * s * (next.value - node.value) + next.link * (c * c - s * s)
      match rest with
      | [] => done :: chase moved joined 0 []
      | third :: others =>
        done :: chase moved joined (s * third.link) ({ third with link := c * third.link } :: others)
termination_by rest => rest.length
decreasing_by all_goals simp_wf

/-- One sweep of rotations along a chain, started by a shift. -/
def sweep (shift : α) : List (Node α n) → List (Node α n)
  | first :: second :: rest => chase first (first.value - shift) second.link (second :: rest)
  | nodes => nodes

/-- The eigenpairs of a chain of two entries, the larger value first.  Where both the link and the
distance from the larger value to the second entry are within rounding, the columns stay. -/
def solvePair (first second : Node α n) : Node α n × Node α n :=
  let half := (first.value - second.value) / (1 + 1)
  let middle := (first.value + second.value) / (1 + 1)
  let root := Scalar.sqrt (second.link * second.link + half * half)
  let x := middle + root - second.value
  let (left, right) :=
    if Scalar.epsilon < Scalar.abs (Rotation.signedLength x second.link) then
      (Rotation.onto x second.link).turnColumns first.column second.column
    else (first.column, second.column)
  (⟨0, middle + root, left⟩, ⟨0, middle - root, right⟩)

/-- The eigenpairs of a chain, given and found from the last entry to the first, by at most `fuel`
sweeps one inside the other. -/
def solve : Nat → List (Node α n) → List (Node α n)
  | 0, nodes => nodes
  | fuel + 1, nodes =>
    let (settled, rest) := settle nodes
    settled ++ match segment rest with
      | ([second, first], others) =>
        let (first, second) := solvePair first second
        second :: first :: solve fuel others
      | (last :: before :: part, others) =>
        let swept := sweep (shift before last) (last :: before :: part).reverse
        solve fuel swept.reverse ++ solve fuel others
      | (part, others) => part ++ others

/-- The eigenpairs of a symmetric matrix.  The matrix is scaled by its largest entry first. -/
def eigenpairs (a : Square α n) : List (Eigenpair α n) :=
  let symmetric := ofLower a
  let top := symmetric.largestEntry
  let unit := if top == 0 then 1 else top
  let scaled := symmetric.map fun c => Column.divide c unit
  (solve (40 * (n + 1)) (chain scaled)).reverse.map fun node => ⟨node.value * top, node.column⟩

end SubspaceEigen.Tridiagonal
