import SubspaceEigen.Progress.Event
import SubspaceEigen.Scalar

/-!
# Journals

A record of events, and what can be asked of it afterwards.
-/

namespace SubspaceEigen

/-- Events in the order in which they were recorded. -/
abbrev Journal (α : Type) :=
  List (Event α)

namespace Journal

variable {α : Type}

def restarts (journal : Journal α) : Nat :=
  journal.countP fun
    | .restart .. => true
    | _ => false

/-- The largest residual norm of every iteration, in order. -/
def residualHistory (journal : Journal α) : List α :=
  journal.filterMap fun
    | .iteration m => some m.maxResidual
    | _ => none

def orthonormalityErrors (journal : Journal α) : List α :=
  journal.filterMap fun
    | .iteration m => m.orthonormality
    | _ => none

/-- The worst of the measured orthonormality errors, if any was measured. -/
def maxOrthonormalityError [Scalar α] (journal : Journal α) : Option α :=
  match journal.orthonormalityErrors with
  | [] => none
  | first :: rest => some (rest.foldl Scalar.max first)

end Journal

end SubspaceEigen
