import SubspaceEigen.Column

/-!
# Plane rotations

A plane rotation is given by its cosine and its sine.  It turns `(x, y)` into
`(c x + s y, c y − s x)`, for numbers and for columns alike.
-/

namespace SubspaceEigen

structure Rotation (α : Type) where
  cosine : α
  sine : α

namespace Rotation

variable {α : Type} [Scalar α] {n : Nat}

/-- The length of `(x, z)`, with the sign of `x`. -/
def signedLength (x z : α) : α :=
  let length := Scalar.sqrt (x * x + z * z)
  if 0 ≤ x then length else -length

/-- The rotation that turns `(x, z)` onto the first axis; its cosine is not negative. -/
def onto (x z : α) : Rotation α :=
  ⟨Scalar.abs x / Scalar.sqrt (x * x + z * z), z / signedLength x z⟩

def turn (r : Rotation α) (x y : α) : α × α :=
  (x * r.cosine + r.sine * y, y * r.cosine - r.sine * x)

def turnColumns (r : Rotation α) (x y : Vector α n) : Vector α n × Vector α n :=
  (Vector.zipWith (fun p q => (r.turn p q).1) x y, Vector.zipWith (fun p q => (r.turn p q).2) x y)

end Rotation

end SubspaceEigen
