import SubspaceEigen.Decimal.Layout
import SubspaceEigen.Progress.Event

/-!
# Log lines

The lines that events write to a log, each with its level.  A log shows the lines up to the greatest
level that it admits, and it asks for orthonormality errors only when it shows them.
-/

namespace SubspaceEigen.Log

/-- The levels of log lines, from the gravest on. -/
inductive Level where
  | error
  | warn
  | info
  | debug
  | trace
deriving DecidableEq

def Level.rank : Level → Nat
  | .error => 0
  | .warn => 1
  | .info => 2
  | .debug => 3
  | .trace => 4

def Level.label : Level → String
  | .error => "ERROR"
  | .warn => "WARN"
  | .info => "INFO"
  | .debug => "DEBUG"
  | .trace => "TRACE"

/-- Whether a log that shows lines up to a level shows a line; a log may also show none. -/
def admits (limit : Option Level) (level : Level) : Bool :=
  match limit with
  | some top => level.rank ≤ top.rank
  | none => false

/-- Whether a log asks for orthonormality errors. -/
def wantsOrthonormality (limit : Option Level) : Bool :=
  admits limit .trace

/-- A number of small units, of which `unit` make one large one, as a decimal number of large
ones. -/
def inUnits (count unit places : Nat) : String :=
  let fraction := Nat.toDigits 10 (count % unit)
  let padded := List.replicate (places - fraction.length) '0' ++ fraction
  let shown := (padded.reverse.dropWhile (· == '0')).reverse
  toString (count / unit) ++ (if shown.isEmpty then "" else "." ++ String.ofList shown)

/-- A time in the largest unit of which there is at least one. -/
def renderDuration (nanoseconds : Nat) : String :=
  if 1000000000 ≤ nanoseconds then inUnits nanoseconds 1000000000 9 ++ "s"
  else if 1000000 ≤ nanoseconds then inUnits nanoseconds 1000000 6 ++ "ms"
  else if 1000 ≤ nanoseconds then inUnits nanoseconds 1000 3 ++ "µs"
  else toString nanoseconds ++ "ns"

/-- The share of converged roots in percent. -/
def percentage (m : Measurement Binary64) : Binary64 :=
  100.0 * (m.convergedRoots : Binary64) / ((max m.trackedRoots 1 : Nat) : Binary64)

/-- The lines of a measurement. -/
def measurementLines (m : Measurement Binary64) : List (Level × String) :=
  let line := padLeft 4 (toString m.iteration) ++ " " ++ padLeft 8 (toString m.searchSpace) ++
    "   " ++ padLeft 9 (renderScientific 2 m.maxResidual) ++ "   " ++
    padLeft 6 (renderFixed 2 (percentage m)) ++ "% converged"
  (.info, line) :: match m.orthonormality with
    | some error => [(.trace, "basis orthonormality error " ++ renderScientific 2 error)]
    | none => []

/-- The lines of the settings with which a solve starts. -/
def openingLines (o : Opening Binary64) : List (Level × String) :=
  [(.info, "Davidson: " ++ toString o.requested ++ " roots of a " ++ toString o.operatorSize ++
      "-dim " ++ OperatorKind.vocabulary.label o.kind ++ " operator"),
    (.info, "  tolerance " ++ renderScientific 1 o.tolerance ++ ", max iterations " ++
      toString o.maxIterations ++ ", max search space " ++ toString o.searchLimit),
    (.info, "  correction " ++ CorrectionScheme.vocabulary.label o.correction ++
      ", size update " ++ SizePolicy.vocabulary.label o.sizePolicy ++ " (" ++
      toString o.trackedRoots ++ " tracked, " ++ toString o.initialGuess ++
      " initial), orthogonalization " ++ Orthogonalization.vocabulary.label o.orthogonalization)]

def lines : Event Binary64 → List (Level × String)
  | .started opening => openingLines opening
  | .iteration measurement => measurementLines measurement
  | .complexPairs iteration count =>
    [(.debug, "iteration " ++ toString iteration ++ ": dropped " ++ toString count ++
      " complex conjugate pair(s)")]
  | .restart iteration before after =>
    [(.debug, "iteration " ++ toString iteration ++ ": restart " ++ toString before ++ " -> " ++
      toString after ++ " vectors")]
  | .finished true iterations elapsed =>
    [(.info, "Davidson converged in " ++ toString iterations ++ " iterations (" ++
      renderDuration elapsed ++ ")")]
  | .finished false iterations elapsed =>
    [(.warn, "Davidson did not converge in " ++ toString iterations ++ " iterations (" ++
      renderDuration elapsed ++ ")")]

/-- The lines of an event that a log shows. -/
def shown (limit : Option Level) (event : Event Binary64) : List (Level × String) :=
  (lines event).filter fun line => admits limit line.1

end SubspaceEigen.Log
