import SubspaceEigen.Config.Basic
import SubspaceEigen.Json.Reader

/-!
# Configurations as documents

A configuration is written as a JSON object with one field a line, and read back from an object with
any of those fields in any order, or from an array that gives the leading fields in order.  Fields
that are left out keep their defaults; unknown and repeated fields are refused.  A document that
does not decode is refused as a document, whatever its settings would have been.
-/

namespace SubspaceEigen.Config

/-- The fields of a configuration document. -/
inductive Field where
  | maxIterations
  | searchLimit
  | tolerance
  | correction
  | sizePolicy
  | orthogonalization
  | kind
  | guessNoise
  | seed
deriving DecidableEq

namespace Field

def all : List Field :=
  [.maxIterations, .searchLimit, .tolerance, .correction, .sizePolicy, .orthogonalization, .kind,
    .guessNoise, .seed]

def name : Field → String
  | .maxIterations => "max_iter"
  | .searchLimit => "max_search_space"
  | .tolerance => "tolerance"
  | .correction => "correction"
  | .sizePolicy => "size_update"
  | .orthogonalization => "orthogonalization"
  | .kind => "matrix_type"
  | .guessNoise => "guess_noise"
  | .seed => "seed"

/-- The field with a given name. -/
def ofName? (s : String) : Option Field :=
  all.find? fun f => f.name == s

/-- The written form of a field's value. -/
def render (c : Config Binary64) : Field → String
  | .maxIterations => toString c.maxIterations.toNat
  | .searchLimit =>
    match c.searchLimit with
    | some limit => toString limit.toNat
    | none => "null"
  | .tolerance => NumberLayout.document.render c.tolerance
  | .correction => "\"" ++ CorrectionScheme.vocabulary.encode c.correction ++ "\""
  | .sizePolicy => "\"" ++ SizePolicy.vocabulary.encode c.sizePolicy ++ "\""
  | .orthogonalization =>
    "\"" ++ Orthogonalization.vocabulary.encode c.orthogonalization ++ "\""
  | .kind => "\"" ++ OperatorKind.vocabulary.encode c.kind ++ "\""
  | .guessNoise => NumberLayout.document.render c.guessNoise
  | .seed => toString c.seed.toNat

/-- A word of 64 bits in a document. -/
def word? : Json.Value → Option UInt64
  | .number n => n.toWord?
  | _ => none

def measure? : Json.Value → Option Binary64
  | .number n => n.toBinary64?
  | _ => none

/-- A choice in a document: its name, or an object whose only field is that name with `null`. -/
def choice? {β : Type} (v : Vocabulary β) : Json.Value → Option β
  | .text name => v.decode? name
  | .object [(name, .null)] => v.decode? name
  | _ => none

/-- Give one field of a configuration the value that a document has for it. -/
def assign? (c : Config Binary64) (f : Field) (value : Json.Value) : Option (Config Binary64) :=
  match f, value with
  | .maxIterations, value => (word? value).map fun n => { c with maxIterations := n }
  | .searchLimit, .null => some { c with searchLimit := none }
  | .searchLimit, value => (word? value).map fun n => { c with searchLimit := some n }
  | .tolerance, .text s => (Tolerance.parse? s).map fun x => { c with tolerance := x }
  | .tolerance, value => (measure? value).map fun x => { c with tolerance := x }
  | .correction, value =>
    (choice? CorrectionScheme.vocabulary value).map fun x => { c with correction := x }
  | .sizePolicy, value =>
    (choice? SizePolicy.vocabulary value).map fun x => { c with sizePolicy := x }
  | .orthogonalization, value =>
    (choice? Orthogonalization.vocabulary value).map fun x => { c with orthogonalization := x }
  | .kind, value => (choice? OperatorKind.vocabulary value).map fun x => { c with kind := x }
  | .guessNoise, value => (measure? value).map fun x => { c with guessNoise := x }
  | .seed, value => (word? value).map fun n => { c with seed := n }

/-- Assign the named fields one after another; `seen` are the fields assigned before. -/
def assignAll? (c : Config Binary64) (seen : List Field) :
    List (String × Json.Value) → Option (Config Binary64)
  | [] => some c
  | (name, value) :: rest => do
    let f ← ofName? name
    if seen.contains f then none
    else assignAll? (← assign? c f value) (f :: seen) rest

/-- Assign values to fields in order; there must be a field for every value. -/
def assignInOrder? (c : Config Binary64) : List Field → List Json.Value → Option (Config Binary64)
  | _, [] => some c
  | [], _ :: _ => none
  | f :: fields, value :: rest => do
    assignInOrder? (← assign? c f value) fields rest

end Field

def ofValue? : Json.Value → Option (Config Binary64)
  | .object fields => Field.assignAll? standard [] fields
  | .array items => Field.assignInOrder? standard Field.all items
  | _ => none

/-- Read and validate a configuration document. -/
def ofDocument (s : String) : Except (Error Binary64) (Config Binary64) :=
  match (Json.parse? s).bind ofValue? with
  | none => .error .document
  | some c => do
    c.validate
    return c

/-- Read and validate the content of a configuration file; `none` stands for a file that is not
there. -/
def ofFile (content : Option ByteArray) : Except (Error Binary64) (Config Binary64) :=
  match content.bind String.fromUTF8? with
  | none => .error .file
  | some s => ofDocument s

def toDocument (c : Config Binary64) : String :=
  let line := fun (f : Field) => "  \"" ++ f.name ++ "\": " ++ f.render c
  "\x7b\n" ++ String.intercalate ",\n" (Field.all.map line) ++ "\n\x7d"

end SubspaceEigen.Config
