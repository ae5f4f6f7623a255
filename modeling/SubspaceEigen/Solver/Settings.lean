import SubspaceEigen.Config.Basic

/-!
# Settings of one solve

The sizes that follow from a configuration, the dimension of the operator and the request: how many
guess vectors there are, how many roots are tracked, and when the search space is rebuilt.
-/

namespace SubspaceEigen

/-- The sizes that one solve works with. -/
structure EffectiveSettings where
  initialGuess : Nat
  trackedRoots : Nat
  searchLimit : Nat

/-- How many eigenpairs an operator of dimension `n` can serve.  For a paired operator they come from
the upper half of the diagonal. -/
def OperatorKind.available (kind : OperatorKind) (n : Nat) : Nat :=
  match kind with
  | .symmetric => n
  | .hamiltonian => n - n / 2

variable {α : Type}

/-- The size of the search space that brings about a restart, for `requested` eigenpairs. -/
def Config.searchLimitFor (c : Config α) (n requested : Nat) : Nat :=
  let wanted := match c.searchLimit with
    | some limit => if requested ≤ limit.toNat then limit.toNat else wordCount (5 * requested)
    | none => wordCount (5 * requested)
  min wanted n

/-- The settings of a solve in dimension `n`; a guess size of zero stands for the default. -/
def Config.effectiveSettings (c : Config α) (n requested guess : Nat) :
    Except (Error α) EffectiveSettings :=
  let available := c.kind.available n
  if requested = 0 then .error (.request .nothingRequested)
  else if available < requested then
    .error (.request (.tooMany requested available n (OperatorKind.vocabulary.label c.kind)))
  else
    let wanted := if guess = 0 then wordCount (2 * requested) else guess
    let initialGuess := min (max wanted requested) available
    .ok {
      initialGuess := initialGuess
      trackedRoots := min (max (c.sizePolicy.trackedRoots requested) requested) initialGuess
      searchLimit := c.searchLimitFor n requested }

end SubspaceEigen
