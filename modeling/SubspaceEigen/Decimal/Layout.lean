import SubspaceEigen.Binary64
import SubspaceEigen.Decimal.Shortest

/-!
# Layouts of numbers

How a number is written: positionally or with an exponent, with how many digits, and with which
words for the values that have no digits.
-/

namespace SubspaceEigen

namespace Decimal

/-- Remove up to `fuel` trailing zeros. -/
def stripZeros : Nat → Decimal → Decimal
  | 0, d => d
  | fuel + 1, d =>
    if d.digits ≠ 0 ∧ d.digits % 10 = 0 then stripZeros fuel ⟨d.digits / 10, d.exponent + 1⟩ else d

/-- The same number without trailing zeros in its digits. -/
def normalize (d : Decimal) : Decimal :=
  stripZeros (Ratio.digitCount d.digits) d

def digitText (d : Decimal) : String :=
  String.ofList (Nat.toDigits 10 d.digits)

def zeros (count : Nat) : String :=
  String.ofList (List.replicate count '0')

/-- Digits in positional notation; a whole number ends in `wholeSuffix`. -/
def positional (d : Decimal) (wholeSuffix : String) : String :=
  if 0 ≤ d.exponent then d.digitText ++ zeros d.exponent.toNat ++ wholeSuffix
  else
    let places := (-d.exponent).toNat
    let text := Nat.toDigits 10 d.digits
    let padded := List.replicate (places + 1 - text.length) '0' ++ text
    let whole := padded.take (padded.length - places)
    let fraction := padded.drop (padded.length - places)
    String.ofList whole ++ "." ++ String.ofList fraction

def leadingExponent (d : Decimal) : Int :=
  d.exponent + (Ratio.digitCount d.digits : Int) - 1

/-- Digits with a point after the first one, and an exponent; `plus` marks an exponent that is not
negative. -/
def scientific (d : Decimal) (plus : String) : String :=
  let exponent := d.leadingExponent
  let mark := if 0 ≤ exponent then plus ++ toString exponent.toNat
    else "-" ++ toString (-exponent).toNat
  match Nat.toDigits 10 d.digits with
  | [] => "e" ++ mark
  | [first] => String.ofList [first] ++ "e" ++ mark
  | first :: rest => String.ofList [first] ++ "." ++ String.ofList rest ++ "e" ++ mark

end Decimal

/-- A way to write every number with as few digits as possible. -/
structure NumberLayout where
  /-- Which of two equally near shortest decimals is written. -/
  tie : Tie
  /-- Whether a number with this leading exponent is written positionally. -/
  isPositional : Int → Bool
  /-- What follows the digits of a whole number. -/
  wholeSuffix : String
  /-- The sign of an exponent that is not negative. -/
  plus : String
  undefinedText : String
  infiniteText : Bool → String

namespace NumberLayout

/-- The text of a number in a layout. -/
def render (layout : NumberLayout) (x : Binary64) : String :=
  match x.value with
  | .undefined => layout.undefinedText
  | .infinite negative => layout.infiniteText negative
  | .finite negative 0 _ => (if negative then "-0" else "0") ++ layout.wholeSuffix
  | .finite negative mantissa exponent =>
    let d := (Decimal.shortest mantissa exponent layout.tie).normalize
    let text := if layout.isPositional d.leadingExponent then d.positional layout.wholeSuffix
      else d.scientific layout.plus
    (if negative then "-" else "") ++ text

/-- Numbers inside messages: never an exponent, and no point on a whole number. -/
def message : NumberLayout where
  tie := .away
  isPositional := fun _ => true
  wholeSuffix := ""
  plus := ""
  undefinedText := "NaN"
  infiniteText := fun negative => if negative then "-inf" else "inf"

/-- Numbers inside documents: positional from `10 ^ -5` to below `10 ^ 16` with at least one digit
after the point, and `null` for what is not a number of the document format. -/
def document : NumberLayout where
  tie := .toEven
  isPositional := fun exponent => decide (-5 ≤ exponent ∧ exponent < 16)
  wholeSuffix := ".0"
  plus := "+"
  undefinedText := "null"
  infiniteText := fun _ => "null"

end NumberLayout

/-- A number rounded to given digits; values without digits are written as words. -/
def renderRounded (x : Binary64) (zero : String) (finite : Ratio → String) : String :=
  match x.value with
  | .undefined => "NaN"
  | .infinite negative => if negative then "-inf" else "inf"
  | .finite negative mantissa exponent =>
    let text := if mantissa = 0 then zero else finite (Ratio.ofPower mantissa 2 exponent)
    (if negative then "-" else "") ++ text

/-- Scientific notation with a fixed number of digits after the point, halves to even. -/
def renderScientific (places : Nat) (x : Binary64) : String :=
  let zero := if places = 0 then "0e0" else "0." ++ Decimal.zeros places ++ "e0"
  renderRounded x zero fun r => (r.significant (places + 1) .toEven).scientific ""

/-- Positional notation with a fixed number of digits after the point, halves to even. -/
def renderFixed (places : Nat) (x : Binary64) : String :=
  let text := fun (count : Nat) => Decimal.positional ⟨count, -(places : Int)⟩ ""
  renderRounded x (text 0) fun r => text (r.roundTo (-(places : Int)) .toEven)

def padLeft (width : Nat) (s : String) : String :=
  String.ofList (List.replicate (width - s.length) ' ') ++ s

end SubspaceEigen
