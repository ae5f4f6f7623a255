import SubspaceEigen.Decimal.Numeral
import SubspaceEigen.Error
import SubspaceEigen.Text.Blank

/-!
# Tolerances

A tolerance on the norm of a residual, given by a preset name or as a positive number.
-/

namespace SubspaceEigen.Tolerance

def presets : List (String × Binary64) :=
  [("loose", 1e-3), ("normal", 1e-4), ("strict", 1e-5), ("tight", 1e-6), ("lapack", 1e-9)]

/-- The tolerance that a text gives, if it gives one. -/
def parse? (s : String) : Option Binary64 :=
  let key := Text.folded s
  match presets.lookup (String.ofList key) with
  | some value => some value
  | none => (Decimal.readNumeral? key).filter fun value => value.isFinite && decide (0 < value)

def parse (s : String) : Except (Error Binary64) Binary64 :=
  match parse? s with
  | some value => .ok value
  | none => .error (.option "tolerance" s)

end SubspaceEigen.Tolerance
