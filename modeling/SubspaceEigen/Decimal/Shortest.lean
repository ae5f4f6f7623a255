import SubspaceEigen.Binary64
import SubspaceEigen.Decimal.Grid

/-!
# Shortest decimals

The decimal with the fewest digits that reads back as a given binary64 number, and among those the
one nearest to it.

A number reads back as `mantissa · 2 ^ exponent` when it lies between the midpoints to the two
neighbouring binary64 numbers; the midpoints themselves count when the mantissa is even.
-/

namespace SubspaceEigen.Decimal

/-- The numbers that round to one binary64 number. -/
structure RoundingInterval where
  lower : Ratio
  upper : Ratio
  closed : Bool

/-- The interval around `mantissa · 2 ^ exponent`.  The gap below is half as wide when the mantissa
is the least of its binade. -/
def RoundingInterval.around (mantissa : Nat) (exponent : Int) : RoundingInterval where
  lower :=
    if mantissa = Binary64.hiddenBit ∧ -1074 < exponent then
      Ratio.ofPower (4 * mantissa - 1) 2 (exponent - 2)
    else Ratio.ofPower (4 * mantissa - 2) 2 (exponent - 2)
  upper := Ratio.ofPower (4 * mantissa + 2) 2 (exponent - 2)
  closed := mantissa % 2 = 0

/-- Whether `count · 10 ^ exponent` lies in the interval. -/
def RoundingInterval.holds (i : RoundingInterval) (count : Nat) (exponent : Int) : Bool :=
  let low := i.lower.inUnits 10 exponent
  let high := i.upper.inUnits 10 exponent
  if i.closed then low.num ≤ count * low.den && count * high.den ≤ high.num
  else low.num < count * low.den && count * high.den < high.num

/-- The nearer of the two multiples of `10 ^ exponent` around a value that lie in the interval. -/
def onGrid? (i : RoundingInterval) (value : Ratio) (exponent : Int) (tie : Tie) : Option Decimal :=
  let scaled := value.inUnits 10 exponent
  let below := scaled.num / scaled.den
  match i.holds below exponent, i.holds (below + 1) exponent with
  | true, true => some ⟨tie.roundDiv scaled.num scaled.den, exponent⟩
  | true, false => some ⟨below, exponent⟩
  | false, true => some ⟨below + 1, exponent⟩
  | false, false => none

/-- The shortest decimal of `mantissa · 2 ^ exponent`, for a mantissa that is not zero.  Seventeen
digits always suffice. -/
def shortest (mantissa : Nat) (exponent : Int) (tie : Tie) : Decimal :=
  let value := Ratio.ofPower mantissa 2 exponent
  let interval := RoundingInterval.around mantissa exponent
  let leading := value.magnitude
  let found := (List.range 17).findSome? fun (more : Nat) =>
    onGrid? interval value (leading - more) tie
  found.getD (value.significant 17 tie)

end SubspaceEigen.Decimal
