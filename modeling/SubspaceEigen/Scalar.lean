/-!
# Scalars

The arithmetic that the eigensolvers are written over.  Every definition of the library that
computes is generic in `Scalar`, so that one text serves two readings: it runs on floating-point
numbers, and it is reasoned about over exact ones.

The class has no law of arithmetic, because floating-point numbers obey few of them.  The only laws
are those of the ranking used for sorting, which holds in every reading.
-/

namespace SubspaceEigen

class Scalar (α : Type) extends Zero α, One α, Add α, Sub α, Mul α, Div α, Neg α, NatCast α,
    OfScientific α, BEq α, LT α, LE α where
  decidableLT : DecidableLT α
  decidableLE : DecidableLE α
  abs : α → α
  sqrt : α → α
  /-- The largest whole number that is not above the argument. -/
  floor : α → α
  /-- Neither infinite nor undefined. -/
  isFinite : α → Bool
  /-- The ranking that sorting uses: a total preorder, also where `≤` compares nothing. -/
  ranksBefore : α → α → Bool
  ranksBefore_trans : ∀ a b c, ranksBefore a b = true → ranksBefore b c = true →
    ranksBefore a c = true
  ranksBefore_total : ∀ a b, (ranksBefore a b || ranksBefore b a) = true

namespace Scalar

variable {α : Type} [Scalar α]

instance (a b : α) : Decidable (a < b) := Scalar.decidableLT a b

instance (a b : α) : Decidable (a ≤ b) := Scalar.decidableLE a b

/-- The larger of two values; a value that compares with nothing, itself included, gives way to
the other one. -/
def max (a b : α) : α :=
  if a < b then b else if a ≤ a then a else b

/-- The distance from one to the next larger binary64 number, `2⁻⁵²`. -/
def epsilon : α :=
  1 / ((4503599627370496 : Nat) : α)

/-- The part of a value after the point, for values that are not negative. -/
def fract (a : α) : α :=
  a - floor a

end Scalar

end SubspaceEigen
