import SubspaceEigen.Complex

/-!
# Elimination

Linear systems by elimination with row exchanges, over real and complex numbers alike.  A matrix is
factored once into a list of steps, one a column; every right-hand side is then solved by running
through the steps.
-/

namespace SubspaceEigen

/-- The weight by which elimination compares its pivots. -/
class Pivotal (β : Type) (α : outParam Type) where
  weight : β → α

instance {α : Type} [Scalar α] : Pivotal α α where
  weight := Scalar.abs

instance {α : Type} [Scalar α] : Pivotal (ComplexNumber α) α where
  weight := ComplexNumber.weight

namespace Elimination

variable {α β : Type} [Scalar α] [Pivotal β α] [Zero β] [One β] [Sub β] [Mul β] [Div β] [BEq β]

/-- The elimination of one column: which of the remaining rows came first, the pivot, the rest of
the pivot row, and the multiple of the pivot row taken from every row after it. -/
structure Step (β : Type) where
  index : Nat
  pivot : β
  rest : List β
  factors : List β

/-- Exchange the first item of a list with the item at `index`. -/
def exchange {γ : Type} (index : Nat) (items : List γ) : List γ :=
  match index, items with
  | index + 1, first :: rest =>
    match rest[index]? with
    | some item => item :: rest.set index first
    | none => items
  | _, _ => items

/-- The index of the first row whose leading entry has the greatest weight. -/
def pivotIndex (leads : List β) : Nat :=
  match leads with
  | [] => 0
  | first :: rest =>
    (rest.zipIdx.foldl (fun (best : Nat × α) (lead, i) =>
      if best.2 < Pivotal.weight lead then (i + 1, Pivotal.weight lead) else best)
      (0, Pivotal.weight first)).1

/-- Factor the remaining rows, over `count` columns; nothing if a pivot is zero. -/
def factorRows? : Nat → List (List β) → Option (List (Step β))
  | 0, _ => some []
  | count + 1, rows =>
    let index := pivotIndex (rows.filterMap List.head?)
    match exchange index rows with
    | (pivot :: rest) :: others =>
      if pivot == 0 then none
      else
        let inverse := 1 / pivot
        let factors := others.map fun row => match row with
          | lead :: _ => lead * inverse
          | [] => 0
        let reduced := List.zipWith (fun factor row =>
          List.zipWith (fun x p => x - factor * p) row.tail rest) factors others
        (factorRows? count reduced).map (⟨index, pivot, rest, factors⟩ :: ·)
    | _ => none

/-- Factor a square matrix, given by rows; nothing if it is singular. -/
def factor? (rows : List (List β)) : Option (List (Step β)) :=
  factorRows? rows.length rows

/-- Solve a factored system for one right-hand side. -/
def solve : List (Step β) → List β → List β
  | [], _ => []
  | step :: steps, rhs =>
    match exchange step.index rhs with
    | [] => []
    | first :: others =>
      let tail := solve steps (List.zipWith (fun y factor => y - factor * first) others step.factors)
      let known := (List.zipWith (· * ·) step.rest tail).foldl (· - ·) first
      known / step.pivot :: tail

end Elimination

end SubspaceEigen
