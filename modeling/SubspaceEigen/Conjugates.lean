import SubspaceEigen.Error

/-!
# Conjugate pairs

Matching the complex values of a spectrum with their conjugates.  Values are taken in order; each one
closes the first open value that it matches, and stays open itself if there is none.
-/

namespace SubspaceEigen

namespace Conjugates

variable {α : Type} [Scalar α]

/-- The tolerance within which a value matches the conjugate of another. -/
def tolerance : α :=
  1e-9

/-- A value that opened a pair, and the index of the value that closed it. -/
structure Entry (α : Type) where
  index : Nat
  value : ComplexNumber α
  partner : Option Nat

/-- Whether two values are conjugate up to the tolerance. -/
def matching (z w : ComplexNumber α) : Bool :=
  Scalar.abs (z.re - w.re) < tolerance && Scalar.abs (z.im + w.im) < tolerance

/-- Take in one value that is not real. -/
def place (index : Nat) (value : ComplexNumber α) : List (Entry α) → List (Entry α)
  | [] => [⟨index, value, none⟩]
  | entry :: rest =>
    if entry.partner.isNone && matching entry.value value then
      { entry with partner := some index } :: rest
    else entry :: place index value rest

/-- The entries after all values are taken in; real values are passed over. -/
def entries (values : List (ComplexNumber α)) : List (Entry α) :=
  values.zipIdx.foldl (fun entries (value, index) =>
    if value.im == 0 then entries else place index value entries) []

end Conjugates

/-- The pairs of conjugate values by index, in the order of their first members.  A complex value
without a partner is an error. -/
def pairConjugates {α : Type} [Scalar α] (values : List (ComplexNumber α)) :
    Except (Error α) (List (Nat × Nat)) :=
  (Conjugates.entries values).mapM fun entry =>
    match entry.partner with
    | some partner => .ok (entry.index, partner)
    | none => .error (.unpaired entry.index entry.value)

end SubspaceEigen
