import SubspaceEigen.Error
import SubspaceEigen.Text.Blank

/-!
# Options and their words

The four options of a solve, each with three sets of words: those accepted from a user, where case
and surrounding blanks do not matter; those of a document, which are exact; and the label used in
reports.
-/

namespace SubspaceEigen

/-- The words of an option with values in `β`. -/
structure Vocabulary (β : Type) where
  option : String
  /-- Words accepted from a user, in small letters. -/
  spoken : List (String × β)
  /-- Names in documents; the first name of a value is the one written. -/
  written : List (String × β)
  /-- The word used in reports. -/
  label : β → String

namespace Vocabulary

variable {α β : Type}

/-- The value that a user names. -/
def parse (v : Vocabulary β) (s : String) : Except (Error α) β :=
  match v.spoken.lookup (String.ofList (Text.folded s)) with
  | some value => .ok value
  | none => .error (.option v.option s)

/-- The value with this exact name in a document. -/
def decode? (v : Vocabulary β) (name : String) : Option β :=
  v.written.lookup name

def encode [BEq β] (v : Vocabulary β) (value : β) : String :=
  match v.written.find? fun entry => entry.2 == value with
  | some (name, _) => name
  | none => ""

end Vocabulary

/-- How correction vectors are built from residuals. -/
inductive CorrectionScheme where
  /-- The residual, divided by the shifted diagonal. -/
  | dpr
  /-- The same, made orthogonal to the current Ritz vector. -/
  | olsen
deriving DecidableEq

def CorrectionScheme.vocabulary : Vocabulary CorrectionScheme where
  option := "correction"
  spoken := [("dpr", .dpr), ("olsen", .olsen)]
  written := [("dpr", .dpr), ("olsen", .olsen)]
  label
    | .dpr => "DPR"
    | .olsen => "Olsen"

inductive SizePolicy where
  | min
  | safe
  | max
deriving DecidableEq

def SizePolicy.vocabulary : Vocabulary SizePolicy where
  option := "size_update"
  spoken := [("min", .min), ("safe", .safe), ("max", .max)]
  written := [("min", .min), ("safe", .safe), ("max", .max)]
  label
    | .min => "min"
    | .safe => "safe"
    | .max => "max"

/-- A count as a machine word holds it: its low 64 bits. -/
def wordCount (n : Nat) : Nat :=
  (UInt64.ofNat n).toNat

/-- The number of roots that a policy tracks when `requested` eigenpairs are asked for. -/
def SizePolicy.trackedRoots (policy : SizePolicy) (requested : Nat) : Nat :=
  match policy with
  | .min => requested
  | .safe => if requested < 20 then requested * 3 / 2 else wordCount (requested + 10)
  | .max => wordCount (2 * requested)

/-- How new search directions are made orthonormal. -/
inductive Orthogonalization where
  /-- Two passes of Gram–Schmidt against the frozen part of the basis. -/
  | gramSchmidt
  /-- A triangular factorization of the whole basis. -/
  | qr
deriving DecidableEq

def Orthogonalization.vocabulary : Vocabulary Orthogonalization where
  option := "orthogonalization"
  spoken := [("gs", .gramSchmidt), ("mgs", .gramSchmidt), ("gram-schmidt", .gramSchmidt),
    ("qr", .qr)]
  written := [("gs", .gramSchmidt), ("qr", .qr)]
  label
    | .gramSchmidt => "Gram-Schmidt"
    | .qr => "QR"

/-- The kind of an operator, which decides the extraction and the wanted end of the spectrum. -/
inductive OperatorKind where
  /-- Symmetric: plain Ritz pairs, lowest eigenvalues. -/
  | symmetric
  /-- Of the form `[[A, B], [-B, -A]]`: harmonic Ritz pairs, lowest positive eigenvalues. -/
  | hamiltonian
deriving DecidableEq

def OperatorKind.vocabulary : Vocabulary OperatorKind where
  option := "matrix_type"
  spoken := [("symm", .symmetric), ("symmetric", .symmetric), ("ham", .hamiltonian),
    ("hamiltonian", .hamiltonian)]
  written := [("symm", .symmetric), ("symmetric", .symmetric), ("ham", .hamiltonian),
    ("hamiltonian", .hamiltonian)]
  label
    | .symmetric => "symmetric"
    | .hamiltonian => "hamiltonian"

end SubspaceEigen
