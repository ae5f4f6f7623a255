import SubspaceEigen.Proofs.Ritz.Conjugates
import SubspaceEigen.Proofs.Ritz.Counts
import SubspaceEigen.Proofs.Ritz.Selection

/-!
# Real parts of complex vectors

The harmonic extraction takes the real part of every eigenvector that it keeps and would pass over
one whose real part is zero.  Since the phase of an eigenvector is fixed, there is none of that kind:
the extraction gives a Ritz pair for each value of the pencil but the second member of each
conjugate pair.
-/

namespace SubspaceEigen

open InverseIteration

variable {n : ℕ} {dense : Factorizations ℝ} {s : SearchSpace ℝ n}
  {t : Square ℝ s.projected.rows} {pairs : List (ComplexEigenpair ℝ s.projected.rows)}

namespace Pencil

theorem hasRealLead (h : Pencil dense s t pairs) : ∀ p ∈ pairs, HasRealLead p.vector := by
  obtain ⟨metric, -, hpairs⟩ := h.pairs_eq
  exact hasRealLead_of_generalizedEigen hpairs

theorem pairs_unique (h : Pencil dense s t pairs) {t' : Square ℝ s.projected.rows}
    {pairs' : List (ComplexEigenpair ℝ s.projected.rows)} (h' : Pencil dense s t' pairs') :
    pairs = pairs' := by
  obtain ⟨metric, hmetric, hpairs⟩ := h.pairs_eq
  obtain ⟨metric', hmetric', hpairs'⟩ := h'.pairs_eq
  obtain rfl := Option.some.inj (hmetric.symm.trans hmetric')
  exact Option.some.inj (hpairs.symm.trans hpairs')

/-- Only the second members of conjugate pairs are left out. -/
theorem length_harmonicRitz (h : Pencil dense s t pairs) {e : Extraction ℝ n} {count : ℕ}
    (he : harmonicRitz dense s = .ok (e, count)) : e.pairs.length + count = pairs.length := by
  cases he ▸ harmonicRitz_ends dense s with
  | @extracted _ _ conjugates _ hpencil hconjugates hreduced =>
      obtain rfl := h.pairs_unique hpencil
      obtain ⟨-, hlength⟩ := Extraction.ofReduced_counts hreduced
      have hlt : ∀ k ∈ conjugates.map Prod.snd, k < pairs.length := by
        intro k hk
        obtain ⟨pair, hpair, rfl⟩ := List.mem_map.mp hk
        simpa using (pairConjugates_lt hconjugates pair hpair).2
      calc
        e.pairs.length + conjugates.length =
            (remaining pairs (conjugates.map Prod.snd)).length +
              (conjugates.map Prod.snd).length := by
          rw [hlength, quotients, List.length_map, selectReal_eq _ h.hasRealLead, List.length_map,
            (descending_perm _).length_eq, List.length_map]
        _ = pairs.length := length_remaining_add (nodup_of_pairConjugates hconjugates) hlt

end Pencil

/-- Fixing the phase brings all turns of a vector that is not zero, and no other vectors, to one
form.  The moduli stay, and a component with the largest one becomes real and positive.  So no
vector of a pencil has the real part zero, and no Ritz pair is lost for that. -/
theorem phase_canonical {m : ℕ} {x : Vector (ComplexNumber ℝ) m} (hx : ∃ z ∈ x, z ≠ 0) :
    HasCanonicalPhase x ∧
      ∀ (dense : Factorizations ℝ) {n : ℕ} (s : SearchSpace ℝ n) (t : Square ℝ s.projected.rows)
        (pairs : List (ComplexEigenpair ℝ s.projected.rows)), Pencil dense s t pairs →
          (∀ p ∈ pairs, 0 < Column.norm (p.vector.map ComplexNumber.re)) ∧
            ∀ (e : Extraction ℝ n) (count : ℕ), harmonicRitz dense s = .ok (e, count) →
              e.pairs.length + count = pairs.length := by
  refine ⟨hasCanonicalPhase_of_ne_zero hx, fun dense n s t pairs hpencil => ⟨fun p hp => ?_,
    fun e count he => ?_⟩⟩
  · exact (hpencil.hasRealLead p hp).norm_re_pos
  · exact hpencil.length_harmonicRitz he

/-- Two components of the vector have the largest modulus, and two values of the pencil are
conjugate. -/
theorem phase_canonical_turned :
    let x : Vector (ComplexNumber ℝ) 3 := #v[⟨1, 0⟩, ⟨0, 1⟩, ⟨0, 0⟩]
    let a : Square ℝ 4 := #v[#v[0, 1, 0, 0], #v[-1, 0, 0, 1], #v[0, 0, 1, 0], #v[0, 0, 0, 0]]
    let op : LinearOperator ℝ := .ofBlock ⟨4, a.toArray⟩
    let s := SearchSpace.start ([0, 1, 2].map (Column.unit 4)).toArray 2 true
    let dense : Factorizations ℝ :=
      { Factorizations.exact with eigenvalues := fun _ => some [⟨0, 1⟩, ⟨0, -1⟩, ⟨1, 0⟩] }
    (∃ z ∈ x, z ≠ 0) ∧ HasCanonicalPhase x ∧ fixPhase #v[⟨0, 1⟩, ⟨-1, 0⟩, ⟨0, 0⟩] = fixPhase x ∧
      ∃ next t pairs e, (s.update op).outcome = .ok next ∧ Pencil dense next t pairs ∧
        (∀ p ∈ pairs, 0 < Column.norm (p.vector.map ComplexNumber.re)) ∧
          harmonicRitz dense next = .ok (e, 1) ∧ e.pairs.length + 1 = pairs.length := by
  intro x a op s dense
  have hx : ∃ z ∈ x, z ≠ 0 :=
    ⟨⟨1, 0⟩, by simp [x], fun hzero => one_ne_zero (congrArg ComplexNumber.re hzero)⟩
  obtain ⟨hcanonical, hpencils⟩ := phase_canonical hx
  have hturn : (#v[⟨0, 1⟩, ⟨-1, 0⟩, ⟨0, 0⟩] : Vector (ComplexNumber ℝ) 3) =
      x.map fun z => z * ⟨0, 1⟩ := by
    refine Vector.ext fun i hi => ?_
    interval_cases i <;> refine ComplexNumber.ext_parts ?_ ?_ <;> simp [x]
  obtain ⟨htracks, p, q, r, hpairs, hadjacent⟩ :=
    exists_generalizedEigen_turned (rfl : dense.eigenvalues turned = _)
  have hpencil : Pencil dense (s.refreshed a.toLinearMap) (s.basis.compression a.toLinearMap)
      [p, q, r] := pencil_refreshed rfl hpairs
  have hextracted := harmonicRitz_refreshed (s := s) rfl hpairs hadjacent
  obtain ⟨hpos, hlength⟩ := hpencils dense _ _ _ hpencil
  refine ⟨hx, hcanonical, (hcanonical.turns _).mpr ⟨⟨0, 1⟩, ?_, hturn⟩, s.refreshed a.toLinearMap,
    _, [p, q, r], _, ?_, hpencil, hpos, hextracted, hlength _ _ hextracted⟩
  · simp [ComplexNumber.modulus, ComplexNumber.normSq]
  · exact SearchSpace.update_eq htracks (LinearOperator.ofBlock_actsAs a)

end SubspaceEigen
