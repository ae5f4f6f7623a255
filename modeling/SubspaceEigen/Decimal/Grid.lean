/-!
# Decimal grids

Exact positive ratios, and their rounding to the multiples of a power of ten.  All arithmetic is on
natural numbers, so a rounding is decided exactly and never by a rounded intermediate.
-/

namespace SubspaceEigen

/-- The decimal number `digits · 10 ^ exponent`. -/
structure Decimal where
  digits : Nat
  exponent : Int

/-- What becomes of a value that lies halfway between two multiples. -/
inductive Tie where
  | toEven
  | away

/-- The quotient of two natural numbers, rounded to the nearest whole number. -/
def Tie.roundDiv (tie : Tie) (num den : Nat) : Nat :=
  let quotient := num / den
  let twice := 2 * (num % den)
  if twice < den then quotient
  else if den < twice then quotient + 1
  else match tie with
    | .away => quotient + 1
    | .toEven => if quotient % 2 = 0 then quotient else quotient + 1

/-- The positive number `num / den`. -/
structure Ratio where
  num : Nat
  den : Nat

namespace Ratio

/-- The ratio `count · base ^ exponent`. -/
def ofPower (count base : Nat) (exponent : Int) : Ratio :=
  if 0 ≤ exponent then ⟨count * Nat.pow base exponent.toNat, 1⟩
  else ⟨count, Nat.pow base (-exponent).toNat⟩

/-- The ratio in units of `base ^ exponent`. -/
def inUnits (r : Ratio) (base : Nat) (exponent : Int) : Ratio :=
  if 0 ≤ exponent then ⟨r.num, r.den * Nat.pow base exponent.toNat⟩
  else ⟨r.num * Nat.pow base (-exponent).toNat, r.den⟩

def digitCount (n : Nat) : Nat :=
  (Nat.toDigits 10 n).length

/-- The exponent of the leading digit: `10 ^ e ≤ r < 10 ^ (e + 1)`. -/
def magnitude (r : Ratio) : Int :=
  let guess := (digitCount r.num : Int) - digitCount r.den
  let scaled := r.inUnits 10 guess
  if scaled.den ≤ scaled.num then guess else guess - 1

/-- The nearest multiple of `10 ^ exponent`, counted in those units. -/
def roundTo (r : Ratio) (exponent : Int) (tie : Tie) : Nat :=
  let scaled := r.inUnits 10 exponent
  tie.roundDiv scaled.num scaled.den

/-- The nearest decimal with `count` significant digits. -/
def significant (r : Ratio) (count : Nat) (tie : Tie) : Decimal :=
  let exponent := r.magnitude + 1 - count
  let digits := r.roundTo exponent tie
  if digits = Nat.pow 10 count then ⟨Nat.pow 10 (count - 1), exponent + 1⟩ else ⟨digits, exponent⟩

end Ratio

end SubspaceEigen
