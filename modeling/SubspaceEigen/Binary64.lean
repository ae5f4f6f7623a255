import SubspaceEigen.Scalar

/-!
# Binary64 numbers

Floating-point numbers of 64 bits as bit patterns.  Arithmetic is that of `Float`; what `Float`
leaves open is the sign and payload of an undefined result, which the total order can see.  Here an
undefined operand passes its own pattern on, made quiet, and an operation that is undefined on
defined operands gives the pattern with the sign bit set and no payload.
-/

namespace SubspaceEigen

structure Binary64 where
  bits : UInt64
deriving DecidableEq

namespace Binary64

/-- The number for arithmetic, where all undefined patterns are alike. -/
@[inline] def toFloat (x : Binary64) : Float :=
  Float.ofBits x.bits

/-- The pattern of an operation that is undefined on defined operands. -/
def undefined : Binary64 :=
  ⟨0xfff8000000000000⟩

/-- The bits without the sign. -/
def magnitude (x : Binary64) : UInt64 :=
  x.bits &&& 0x7fffffffffffffff

def isUndefined (x : Binary64) : Bool :=
  0x7ff0000000000000 < x.magnitude

def isNegative (x : Binary64) : Bool :=
  x.bits &&& 0x8000000000000000 != 0

def isFinite (x : Binary64) : Bool :=
  x.magnitude < 0x7ff0000000000000

/-- An undefined pattern in the form in which operations pass it on. -/
def quiet (x : Binary64) : Binary64 :=
  ⟨x.bits ||| 0x0008000000000000⟩

/-- A float as a pattern; all undefined floats have one. -/
@[inline] def ofFloat (f : Float) : Binary64 :=
  if f == f then ⟨f.toBits⟩ else undefined

@[inline] def lift (f : Float → Float) (x : Binary64) : Binary64 :=
  let r := f x.toFloat
  if r == r then ⟨r.toBits⟩ else if x.isUndefined then x.quiet else undefined

@[inline] def lift₂ (f : Float → Float → Float) (x y : Binary64) : Binary64 :=
  let r := f x.toFloat y.toFloat
  if r == r then ⟨r.toBits⟩
  else if x.isUndefined then x.quiet else if y.isUndefined then y.quiet else undefined

def negate (x : Binary64) : Binary64 :=
  ⟨x.bits ^^^ 0x8000000000000000⟩

/-- The place of a number in the total order: negative patterns run downward from `-1`, the others
upward from `0`, so that `-NaN < -∞ < … < -0 < +0 < … < +∞ < NaN` and payloads are ordered. -/
def orderKey (x : Binary64) : Int :=
  let size : Int := x.magnitude.toNat
  if x.isNegative then -1 - size else size

def totalOrder (x y : Binary64) : Bool :=
  decide (orderKey x ≤ orderKey y)

theorem totalOrder_trans (x y z : Binary64) (hxy : totalOrder x y = true)
    (hyz : totalOrder y z = true) : totalOrder x z = true := by
  simp only [totalOrder, decide_eq_true_eq] at *
  omega

theorem totalOrder_total (x y : Binary64) : (totalOrder x y || totalOrder y x) = true := by
  simp only [totalOrder, Bool.or_eq_true, decide_eq_true_eq]
  omega

/-- The bit that the mantissa of a number has in front of its stored bits, unless the number lies
below the least binade. -/
def hiddenBit : Nat :=
  0x10000000000000

/-- What a pattern stands for: nothing, an infinity, or `± mantissa · 2 ^ exponent`. -/
inductive Value where
  | undefined
  | infinite (negative : Bool)
  | finite (negative : Bool) (mantissa : Nat) (exponent : Int)

def value (x : Binary64) : Value :=
  let biased := x.magnitude.toNat / hiddenBit
  let field := x.magnitude.toNat % hiddenBit
  if biased = 2047 then
    if field = 0 then .infinite x.isNegative else .undefined
  else if biased = 0 then .finite x.isNegative field (-1074)
  else .finite x.isNegative (hiddenBit + field) ((biased : Int) - 1075)

instance : LT Binary64 := ⟨fun x y => x.toFloat < y.toFloat⟩

instance : LE Binary64 := ⟨fun x y => x.toFloat ≤ y.toFloat⟩

instance : Scalar Binary64 where
  zero := ⟨0⟩
  one := ⟨0x3ff0000000000000⟩
  add := lift₂ (· + ·)
  sub := lift₂ (· - ·)
  mul := lift₂ (· * ·)
  div := lift₂ (· / ·)
  neg := negate
  natCast n := ofFloat (Float.ofNat n)
  ofScientific m s e := ofFloat (Float.ofScientific m s e)
  beq x y := x.toFloat == y.toFloat
  decidableLT x y := inferInstanceAs (Decidable (x.toFloat < y.toFloat))
  decidableLE x y := inferInstanceAs (Decidable (x.toFloat ≤ y.toFloat))
  abs x := ⟨x.magnitude⟩
  sqrt := lift Float.sqrt
  floor := lift Float.floor
  isFinite := isFinite
  ranksBefore := totalOrder
  ranksBefore_trans := totalOrder_trans
  ranksBefore_total := totalOrder_total

end Binary64

end SubspaceEigen
