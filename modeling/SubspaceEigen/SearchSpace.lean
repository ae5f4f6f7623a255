import SubspaceEigen.Config.Vocabulary
import SubspaceEigen.Operator.Basic
import SubspaceEigen.Orthogonal.Triangular

/-!
# Search spaces

An orthonormal basis together with the images of its columns under the operator.  Images are kept
from round to round, and the operator is applied only to columns that were added since; after a
restart all images are formed anew.  For the harmonic extraction the images of the images are kept
too.
-/

namespace SubspaceEigen

structure SearchSpace (α : Type) (n : Nat) where
  basis : Columns α n
  /-- Images of leading basis columns. -/
  image : Columns α n
  /-- Images of the images, where they are wanted. -/
  second : Option (Columns α n)
  /-- The basis against the images, as of the last update. -/
  projected : Block α
  /-- How many leading columns have images. -/
  computed : Nat
  /-- One flag for every tracked root: whether it has converged. -/
  flags : List Bool

/-- The outcome of a computation, and the number of columns that it passed to the operator. -/
structure Metered (α : Type) where
  passed : Nat
  outcome : Except Fault α

namespace SearchSpace

variable {α : Type} {n : Nat}

/-- The empty projected matrix, which stands until the first update. -/
def nothingProjected : Block α :=
  ⟨0, #[]⟩

/-- A space with a given orthonormal basis and no images yet. -/
def start (basis : Columns α n) (tracked : Nat) (harmonic : Bool) : SearchSpace α n where
  basis := basis
  image := #[]
  second := if harmonic then some #[] else none
  projected := nothingProjected
  computed := 0
  flags := List.replicate tracked false

def size (s : SearchSpace α n) : Nat :=
  s.basis.size

def tracked (s : SearchSpace α n) : Nat :=
  s.flags.length

def pending (s : SearchSpace α n) : Nat :=
  s.basis.size - s.computed

/-- Replace the basis; nothing that was formed from the old one is kept. -/
def restart {m : Nat} (s : SearchSpace α n) (basis : Columns α m) : SearchSpace α m where
  basis := basis
  image := #[]
  second := s.second.map fun _ => #[]
  projected := nothingProjected
  computed := 0
  flags := s.flags

variable [Scalar α]

/-- The basis against given columns. -/
def against (s : SearchSpace α n) (cs : Columns α n) : Block α :=
  ⟨s.basis.size, s.basis.gram cs⟩

/-- The metric of the harmonic extraction: the basis against the images of the images. -/
def metric? (s : SearchSpace α n) : Option (Block α) :=
  s.second.map s.against

def project (s : SearchSpace α n) : SearchSpace α n :=
  { s with projected := s.against s.image }

/-- The space with images of its pending columns added. -/
def store (s : SearchSpace α n) (image : Block α) (second : Option (Block α)) :
    Except Fault (SearchSpace α n) := do
  let fresh ← image.columnsOf n
  let second ← match s.second, second with
    | some kept, some new => do
      let fresh ← new.columnsOf n
      pure (some (kept.extract 0 s.computed ++ fresh))
    | kept, _ => pure kept
  return project { s with
    image := s.image.extract 0 s.computed ++ fresh
    second := second
    computed := s.basis.size }

/-- Apply the operator to the pending columns, and form the projected matrix. -/
def update (s : SearchSpace α n) (op : LinearOperator α) : Metered (SearchSpace α n) :=
  if s.basis.size ≤ s.computed then ⟨0, .ok s.project⟩
  else
    let fresh : Block α := ⟨n, s.basis.extract s.computed s.basis.size⟩
    match op.apply fresh with
    | .error f => ⟨fresh.cols, .error f⟩
    | .ok image =>
      match s.second with
      | none => ⟨fresh.cols, s.store image none⟩
      | some _ =>
        match op.apply image with
        | .error f => ⟨fresh.cols + image.cols, .error f⟩
        | .ok second => ⟨fresh.cols + image.cols, s.store image (some second)⟩

/-- Make columns orthonormal by the chosen method; Gram–Schmidt takes those before `start` as they
are. -/
def orthonormalize (dense : Factorizations α) (method : Orthogonalization) (v : Columns α n)
    (start : Nat) : Columns α n :=
  match method with
  | .gramSchmidt => gramSchmidt v start
  | .qr => qrOrthonormalize dense v

/-- Append columns to the basis and make it orthonormal; also the number of columns that survived.
If the frozen part of the basis lost a column, no image is valid any more. -/
def extend (dense : Factorizations α) (method : Orthogonalization) (s : SearchSpace α n)
    (block : Columns α n) : SearchSpace α n × Nat :=
  let basis := orthonormalize dense method (s.basis ++ block) s.basis.size
  ({ s with
      basis := basis
      computed := if basis.size < s.basis.size then 0 else s.computed },
    basis.size - s.basis.size)

end SearchSpace

end SubspaceEigen
