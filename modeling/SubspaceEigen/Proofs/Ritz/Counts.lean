import SubspaceEigen.Proofs.Dense.Shape
import SubspaceEigen.Proofs.Eigen.General
import SubspaceEigen.Proofs.Ritz.Certificate

/-!
# How many Ritz pairs there are

A reduced problem has the order of the basis, so with factorizations of the right shapes no
extraction gives more pairs than the basis has columns.  The harmonic one may give fewer, since it
leaves out the second members of conjugate pairs.
-/

namespace SubspaceEigen

variable {α : Type} [Scalar α] {n : ℕ} {dense : Factorizations α} {s : SearchSpace α n}

/-- Every reduced pair gives one Ritz pair, and the order is the number of basis columns. -/
theorem Extraction.ofReduced_counts {order : ℕ} {reduced : List (α × Vector α order)}
    {e : Extraction α n} (h : ofReduced s reduced = .ok e) :
    order = s.basis.size ∧ e.pairs.length = reduced.length := by
  unfold ofReduced at h
  split at h
  · next hsizes =>
    obtain rfl := Except.ok.inj h
    exact ⟨hsizes.1, List.length_map _⟩
  · cases h

theorem length_diagonalize_le (hd : dense.Shaped) {m : Block α} {spectrum : Spectrum α m.rows}
    (h : diagonalize dense m none = .ok spectrum) : spectrum.pairs.length ≤ m.rows := by
  unfold diagonalize at h
  split at h
  · cases h
  split at h
  · cases h
  obtain rfl := Except.ok.inj h
  rw [(sortedBy_perm _ _).length_eq]
  exact hd.length_symmetric_le _

theorem length_plainRitz_le (hd : dense.Shaped) {e : Extraction α n}
    (h : plainRitz dense s = .ok e) : e.pairs.length ≤ s.basis.size := by
  simp only [plainRitz, bind, Except.bind] at h
  split at h
  · cases h
  split at h
  · cases h
  next spectrum hspectrum =>
  obtain ⟨horder, hlength⟩ := Extraction.ofReduced_counts h
  rw [hlength, List.length_map, ← horder]
  exact length_diagonalize_le hd hspectrum

theorem length_squareEigen_le (hd : dense.Shaped) {m : ℕ} {a : Square α m}
    {pairs : List (ComplexEigenpair α m)} (h : squareEigen dense a = some pairs) :
    pairs.length ≤ m := by
  unfold squareEigen at h
  split at h
  · cases h
  simp only [Option.bind_eq_bind, Option.bind_eq_some_iff] at h
  obtain ⟨values, hvalues, hpairs⟩ := h
  rw [← (mapM_eq_some_iff.mp hpairs).length_eq, List.length_zipIdx]
  exact hd.length_eigenvalues_le a hvalues

theorem length_generalizedEigen_le (hd : dense.Shaped) {a b : Block α}
    {pairs : List (ComplexEigenpair α a.rows)} (h : generalizedEigen dense a b = some pairs) :
    pairs.length ≤ a.rows := by
  simp only [generalizedEigen, Option.bind_eq_bind, Option.bind_eq_some_iff] at h
  obtain ⟨numerator, -, metric, -, m, -, hpairs⟩ := h
  exact length_squareEigen_le hd hpairs

theorem length_selectReal_le {order : ℕ} (pairs : List (ComplexEigenpair α order))
    (dropped : List ℕ) : (selectReal pairs dropped).length ≤ pairs.length := by
  simp only [selectReal, List.length_map, List.length_reverse, (sortedBy_perm _ _).length_eq]
  refine (List.length_filterMap_le _ _).trans ?_
  rw [List.length_zipIdx]

theorem length_harmonicRitz_le (hd : dense.Shaped) {e : Extraction α n} {conjugates : ℕ}
    (h : harmonicRitz dense s = .ok (e, conjugates)) : e.pairs.length ≤ s.basis.size := by
  obtain ⟨metric, t, pairs, dropped, -, hpencil, hreduced⟩ := ofReduced_of_harmonicRitz h
  obtain ⟨horder, hlength⟩ := Extraction.ofReduced_counts hreduced
  calc
    e.pairs.length = (selectReal pairs dropped).length := by rw [hlength, List.length_map]
    _ ≤ pairs.length := length_selectReal_le pairs dropped
    _ ≤ s.projected.rows := length_generalizedEigen_le hd hpencil
    _ = s.basis.size := horder

end SubspaceEigen
