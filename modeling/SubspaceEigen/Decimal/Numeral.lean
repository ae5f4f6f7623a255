import SubspaceEigen.Decimal.Nearest

/-!
# Numerals

Decimal numerals as people write them: an optional sign, digits with an optional point among or
around them, and an optional exponent.  A numeral stands for the binary64 number nearest to it.
-/

namespace SubspaceEigen.Decimal

/-- The value of a list of digits, after those that led to `acc`. -/
def digitsValue (acc : Nat) (digits : List Char) : Nat :=
  digits.foldl (fun n c => 10 * n + (c.toNat - '0'.toNat)) acc

/-- A sign in front of a text, if there is one. -/
def takeSign : List Char → Bool × List Char
  | '-' :: rest => (true, rest)
  | '+' :: rest => (false, rest)
  | rest => (false, rest)

/-- The digits in front of a text, and what follows them. -/
def takeDigits (s : List Char) : List Char × List Char :=
  (s.takeWhile Char.isDigit, s.dropWhile Char.isDigit)

/-- The exponent that makes up the whole of a text; the empty text stands for zero. -/
def readExponent? : List Char → Option Int
  | [] => some 0
  | mark :: rest =>
    if mark = 'e' ∨ mark = 'E' then
      let (negative, unsigned) := takeSign rest
      match takeDigits unsigned with
      | ([], _) => none
      | (digits, []) =>
        let size : Int := digitsValue 0 digits
        some (if negative then -size else size)
      | (_, _ :: _) => none
    else none

/-- The fraction digits after a point, if there is one. -/
def takeFraction : List Char → List Char × List Char
  | '.' :: rest => takeDigits rest
  | rest => ([], rest)

def readNumeral? (s : List Char) : Option Binary64 :=
  let (negative, unsigned) := takeSign s
  let (whole, afterWhole) := takeDigits unsigned
  let (fraction, afterFraction) := takeFraction afterWhole
  if whole.isEmpty && fraction.isEmpty then none
  else
    (readExponent? afterFraction).map fun exponent =>
      let size := toBinary64 ⟨digitsValue 0 (whole ++ fraction), exponent - fraction.length⟩
      if negative then -size else size

end SubspaceEigen.Decimal
