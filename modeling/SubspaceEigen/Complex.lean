import SubspaceEigen.Scalar

/-!
# Complex numbers

Complex numbers in Cartesian form over any scalar.  A quotient is formed with the squared modulus of
the divisor.
-/

namespace SubspaceEigen

structure ComplexNumber (α : Type) where
  re : α
  im : α

namespace ComplexNumber

variable {α : Type} [Scalar α]

def ofReal (a : α) : ComplexNumber α :=
  ⟨a, 0⟩

instance : Zero (ComplexNumber α) := ⟨⟨0, 0⟩⟩

instance : One (ComplexNumber α) := ⟨⟨1, 0⟩⟩

instance : Add (ComplexNumber α) := ⟨fun z w => ⟨z.re + w.re, z.im + w.im⟩⟩

instance : Sub (ComplexNumber α) := ⟨fun z w => ⟨z.re - w.re, z.im - w.im⟩⟩

instance : Mul (ComplexNumber α) :=
  ⟨fun z w => ⟨z.re * w.re - z.im * w.im, z.re * w.im + z.im * w.re⟩⟩

def normSq (z : ComplexNumber α) : α :=
  z.re * z.re + z.im * z.im

instance : Div (ComplexNumber α) :=
  ⟨fun z w => ⟨(z.re * w.re + z.im * w.im) / w.normSq, (z.im * w.re - z.re * w.im) / w.normSq⟩⟩

instance : BEq (ComplexNumber α) := ⟨fun z w => z.re == w.re && z.im == w.im⟩

def modulus (z : ComplexNumber α) : α :=
  Scalar.sqrt z.normSq

def conj (z : ComplexNumber α) : ComplexNumber α :=
  ⟨z.re, -z.im⟩

/-- A complex number divided by a real one, part by part. -/
def divReal (z : ComplexNumber α) (a : α) : ComplexNumber α :=
  ⟨z.re / a, z.im / a⟩

/-- The sum of the absolute values of the two parts. -/
def weight (z : ComplexNumber α) : α :=
  Scalar.abs z.re + Scalar.abs z.im

end ComplexNumber

end SubspaceEigen
