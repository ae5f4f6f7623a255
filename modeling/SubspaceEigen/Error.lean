import SubspaceEigen.Complex
import SubspaceEigen.Decimal.Layout

/-!
# Errors

What can go wrong with a request, by cause, and the one place where causes are put into words.

A *fault* is different from an error: it says that an operation was used outside its domain, such
as a product of blocks whose shapes do not fit.
-/

namespace SubspaceEigen

/-- An operation used outside its domain. -/
inductive Fault where
  /-- Operands whose shapes do not fit together. -/
  | shapeMismatch
  /-- A row, column or entry that does not exist. -/
  | outOfRange
  /-- A symmetric eigenproblem without rows, or one that is not square. -/
  | noEigenproblem
  /-- A sparse operator applied to a block of another height. -/
  | sparseHeight
  /-- A row-wise operator applied to a block of another height. -/
  | rowwiseHeight
  /-- A paired operator applied to a block of another height. -/
  | pairedHeight
  /-- A vector of another length than a paired operator splits. -/
  | pairedVector
  /-- A block of another height than a paired operator splits. -/
  | pairedColumns
deriving DecidableEq

/-- The words of a fault, where it has any. -/
def Fault.message? : Fault → Option String
  | .shapeMismatch | .outOfRange | .noEigenproblem => none
  | .sparseHeight => some "CsrMatrix::apply: block has wrong row count"
  | .rowwiseHeight => some "MatrixFree::apply: block has wrong row count"
  | .pairedHeight => some "HamiltonianOperator::apply: block has wrong row count"
  | .pairedVector => some "HamiltonianOperator::split: wrong vector length"
  | .pairedColumns => some "HamiltonianOperator::split_columns: wrong row count"

inductive OperatorPart where
  | sparseMatrix
  | firstBlock
  | secondBlock
  | operator
  | diagonal
deriving DecidableEq

def OperatorPart.label : OperatorPart → String
  | .sparseMatrix => "CSR matrix"
  | .firstBlock => "A block"
  | .secondBlock => "B block"
  | .operator => "operator"
  | .diagonal => "operator diagonal"

inductive OperatorError where
  | dimensionMismatch (part : OperatorPart) (expected found : Nat)
  | notSquare (part : OperatorPart) (rows cols : Nat)
  | entryOutOfBounds (row col size : Nat)
deriving DecidableEq

def OperatorError.message : OperatorError → String
  | .dimensionMismatch part expected found =>
    part.label ++ ": expected dimension " ++ toString expected ++ ", found " ++ toString found
  | .notSquare part rows cols =>
    part.label ++ " must be square, got " ++ toString rows ++ "x" ++ toString cols
  | .entryOutOfBounds row col size =>
    "Invalid sparse entry (" ++ toString row ++ ", " ++ toString col ++ ") for a " ++
      toString size ++ "x" ++ toString size ++ " matrix"

inductive SettingError (α : Type) where
  | noIterations
  | tolerance (value : α)
  | noSearchSpace
  | guessNoise (value : α)

def SettingError.message : SettingError Binary64 → String
  | .noIterations => "max_iter must be at least 1"
  | .tolerance value =>
    "tolerance must be positive and finite, got " ++ NumberLayout.message.render value
  | .noSearchSpace => "max_search_space must be positive"
  | .guessNoise value =>
    "guess_noise must be non-negative and finite, got " ++ NumberLayout.message.render value

/-- A number of eigenpairs that an operator cannot serve; `kind` is the label of its kind. -/
inductive RequestError where
  | nothingRequested
  | tooMany (requested available dimension : Nat) (kind : String)

def RequestError.message : RequestError → String
  | .nothingRequested => "at least one eigenpair must be requested"
  | .tooMany requested available dimension kind =>
    toString requested ++ " eigenpairs requested but only " ++ toString available ++
      " are available for a " ++ toString dimension ++ "-dim " ++ kind ++ " operator"

/-- A reduced eigenproblem that gives no Ritz pairs. -/
inductive ReducedError where
  /-- The second images, from which the metric is formed, are not kept. -/
  | noMetric
  /-- The pencil of this order is singular or its eigenvalues were not found. -/
  | pencil (order : Nat)

def ReducedError.message : ReducedError → String
  | .noMetric => "harmonic extraction without cached A·AV"
  | .pencil order =>
    "generalized eigenproblem of dimension " ++ toString order ++
      " has a singular metric or did not converge"

/-- Why a request to the library was turned down. -/
inductive Error (α : Type) where
  /-- A text that is no value of the named option. -/
  | option (name value : String)
  | setting (cause : SettingError α)
  | request (cause : RequestError)
  | operator (cause : OperatorError)
  /-- A document that does not decode. -/
  | document
  /-- A file that cannot be read as text. -/
  | file
  | reduced (cause : ReducedError)
  | unpaired (index : Nat) (value : ComplexNumber α)

/-- A complex number in messages: its two parts, the second with its sign in front. -/
def ComplexNumber.message (z : ComplexNumber Binary64) : String :=
  let negative := z.im.isNegative && !z.im.isUndefined
  NumberLayout.message.render z.re ++ (if negative then "-" else "+") ++
    NumberLayout.message.render (Scalar.abs z.im) ++ "i"

/-- The words of an error; what a document or a file has wrong is not put into words. -/
def Error.message? : Error Binary64 → Option String
  | .option name value => some ("Invalid value '" ++ value ++ "' for option '" ++ name ++ "'")
  | .setting cause => some ("Invalid configuration: " ++ cause.message)
  | .request cause => some ("Invalid request: " ++ cause.message)
  | .operator cause => some ("Operator error: " ++ cause.message)
  | .document | .file => none
  | .reduced cause => some ("Small eigenvalue problem is ill-conditioned: " ++ cause.message)
  | .unpaired index value =>
    some ("Eigenvalue " ++ toString index ++ " (" ++ value.message ++
      ") is complex but has no conjugate partner")

/-- How an operation ends without a result. -/
inductive Failure (α : Type) where
  | error (cause : Error α)
  | fault (cause : Fault)

end SubspaceEigen
