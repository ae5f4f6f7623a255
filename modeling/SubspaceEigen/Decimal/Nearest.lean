import SubspaceEigen.Binary64
import SubspaceEigen.Decimal.Grid

/-!
# Nearest binary64 numbers

The binary64 number nearest to an exact ratio, halves to the even mantissa.  The rounding happens
once, on the grid of the numbers of that size, so a numeral of any length is read without error.
-/

namespace SubspaceEigen

namespace Ratio

/-- The exponent of the leading bit: `2 ^ e ≤ r < 2 ^ (e + 1)`. -/
def binade (r : Ratio) : Int :=
  let guess := (Nat.log2 r.num : Int) - Nat.log2 r.den
  let scaled := r.inUnits 2 guess
  if scaled.den ≤ scaled.num then guess else guess - 1

/-- The binary64 number nearest to a ratio; infinity if it is too large.  The patterns of positive
numbers are in their order, so a mantissa that rounds up to the next binade carries over. -/
def toBinary64 (r : Ratio) : Binary64 :=
  if r.num = 0 then 0
  else
    let unit := max (-1074) (r.binade - 52)
    let scaled := r.inUnits 2 unit
    let bits := (unit + 1074).toNat * Binary64.hiddenBit + Tie.toEven.roundDiv scaled.num scaled.den
    ⟨UInt64.ofNat (min bits (2047 * Binary64.hiddenBit))⟩

end Ratio

namespace Decimal

/-- The binary64 number nearest to a decimal.  Decimals that lie far outside the range of binary64
are not formed as ratios. -/
def toBinary64 (d : Decimal) : Binary64 :=
  let leading := d.exponent + Ratio.digitCount d.digits
  if d.digits = 0 ∨ leading < -330 then 0
  else if 310 < leading then 1 / 0
  else (Ratio.ofPower d.digits 10 d.exponent).toBinary64

end Decimal

end SubspaceEigen
