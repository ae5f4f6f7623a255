import SubspaceEigen.Conjugates
import SubspaceEigen.Eigen.General
import SubspaceEigen.Ritz.Basic

/-!
# Harmonic Ritz pairs

The extraction for paired operators, whose wanted eigenvalues lie inside the spectrum.  The pencil
of the projected matrix `T` and the metric has the inverses of the eigenvalues, so the lowest
positive eigenvalues come first when its values are taken in descending order.  Each eigenvalue is
then read off as the quotient `uᵀ T u`.
-/

namespace SubspaceEigen

variable {α : Type} [Scalar α] {n : Nat}

/-- The real parts of the pencil's vectors with norm one, in descending order of the real parts of
the values.  Of every conjugate pair the second member is left out, and so is a vector whose real
part has no direction. -/
def selectReal {order : Nat} (pairs : List (ComplexEigenpair α order)) (dropped : List Nat) :
    List (Vector α order) :=
  let kept := pairs.zipIdx.filterMap fun (p, k) =>
    if dropped.contains k then none
    else
      let u := p.vector.map ComplexNumber.re
      let size := Column.norm u
      if size ≤ 0 ∨ Scalar.isFinite size = false then none
      else some (p.value.re, Column.divide u size)
  (sortedBy Prod.fst kept).reverse.map Prod.snd

/-- The Ritz pairs of a paired operator, and the number of conjugate pairs among the values of the
pencil. -/
def harmonicRitz (dense : Factorizations α) (s : SearchSpace α n) :
    Except (Failure α) (Extraction α n × Nat) :=
  match s.metric? with
  | none => .error (.error (.reduced .noMetric))
  | some metric =>
    match s.projected.toSquare?, generalizedEigen dense s.projected metric with
    | some t, some pairs =>
      match pairConjugates (pairs.map ComplexEigenpair.value) with
      | .error e => .error (.error e)
      | .ok conjugates =>
        let vectors := selectReal pairs (conjugates.map Prod.snd)
        match Extraction.ofReduced s (vectors.map fun u => (Column.dot u (t.mulColumn u), u)) with
        | .error f => .error (.fault f)
        | .ok extraction => .ok (extraction, conjugates.length)
    | _, _ => .error (.error (.reduced (.pencil s.projected.rows)))

end SubspaceEigen
