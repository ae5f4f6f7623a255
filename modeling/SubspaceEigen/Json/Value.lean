import SubspaceEigen.Decimal.Numeral

/-!
# JSON values

The values of a JSON text.  A number keeps its digits, because what a number stands for depends on
the field that reads it: a count takes only whole numbers, a measure takes any.
-/

namespace SubspaceEigen.Json

/-- A number as written: sign, digits before and after the point, and exponent. -/
structure Number where
  negative : Bool
  whole : List Char
  fraction : List Char
  exponent : Option Int

/-- A JSON value; the fields of an object keep their order and may repeat a name. -/
inductive Value where
  | null
  | bool (b : Bool)
  | number (n : Number)
  | text (s : String)
  | array (items : List Value)
  | object (fields : List (String × Value))

namespace Number

/-- Whether the number is written without point and exponent. -/
def isWhole (n : Number) : Bool :=
  n.fraction.isEmpty && n.exponent.isNone

/-- The number as an unsigned 64-bit word, if it is written as one. -/
def toWord? (n : Number) : Option UInt64 :=
  let size := Decimal.digitsValue 0 n.whole
  if n.isWhole && !n.negative && size < UInt64.size then some (UInt64.ofNat size) else none

/-- A significand of at most 64 bits, the power of ten that scales it, and whether the next digit
still has to be taken in. -/
structure Accumulator where
  significand : Nat
  exponent : Int
  full : Bool

/-- Take in one digit before the point.  Once the significand is full, a digit only counts as a
power of ten. -/
def Accumulator.takeWhole (a : Accumulator) (c : Char) : Accumulator :=
  let next := Decimal.digitsValue a.significand [c]
  if a.full ∨ UInt64.size ≤ next then { a with exponent := a.exponent + 1, full := true }
  else { a with significand := next }

/-- Take in one digit after the point.  Once the significand is full, digits are dropped. -/
def Accumulator.takeFraction (a : Accumulator) (c : Char) : Accumulator :=
  let next := Decimal.digitsValue a.significand [c]
  if a.full ∨ UInt64.size ≤ next then { a with full := true }
  else { a with significand := next, exponent := a.exponent - 1 }

def accumulate (n : Number) : Accumulator :=
  let whole := n.whole.foldl Accumulator.takeWhole ⟨0, 0, false⟩
  let all := n.fraction.foldl Accumulator.takeFraction { whole with full := false }
  { all with exponent := all.exponent + n.exponent.getD 0 }

/-- A power of ten, for exponents up to 308. -/
def powerOfTen (exponent : Nat) : Binary64 :=
  Decimal.toBinary64 ⟨1, exponent⟩

/-- A number times a power of ten, by one multiplication or division if that power is a binary64
number, and otherwise in steps of 308 down to zero.  Nothing if the result is too large. -/
def scale? (f : Binary64) (exponent : Int) : Option Binary64 :=
  if 308 < exponent then (if f == 0 then some f else none)
  else if 0 ≤ exponent then
    let scaled := f * powerOfTen exponent.toNat
    if scaled.isFinite then some scaled else none
  else if -308 ≤ exponent then some (f / powerOfTen (-exponent).toNat)
  else if f == 0 then some f
  else scale? (f / powerOfTen 308) (exponent + 308)
termination_by (-exponent).toNat

/-- The number in binary64; nothing if it is too large for that. -/
def toBinary64? (n : Number) : Option Binary64 :=
  let a := n.accumulate
  (scale? (a.significand : Binary64) a.exponent).map fun f => if n.negative then -f else f

end Number

end SubspaceEigen.Json
