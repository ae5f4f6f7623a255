import SubspaceEigen.Proofs.Ritz.Certificate
import SubspaceEigen.Proofs.Ritz.Pairing

/-!
# How a harmonic extraction fails

The harmonic extraction has two errors: a reduced problem without Ritz pairs, and a complex value
without its conjugate.  On the updated space of a solve it never leaves its domain, and the indices
with which it marks conjugates are those of values.
-/

namespace SubspaceEigen

variable {α : Type} [Scalar α]

section Indices

open Conjugates

variable {values : List (ComplexNumber α)} {conjugates : List (ℕ × ℕ)}

theorem eq_pairs_of_pairConjugates (h : pairConjugates values = .ok conjugates) :
    conjugates = pairs values := by
  rw [pairConjugates_eq] at h
  split at h
  · exact (Except.ok.inj h).symm
  · cases h

theorem pairConjugates_lt (h : pairConjugates values = .ok conjugates) :
    ∀ pair ∈ conjugates, pair.1 < values.length ∧ pair.2 < values.length := by
  obtain rfl := eq_pairs_of_pairConjugates h
  intro pair hpair
  obtain ⟨entry, hentry, hindex, hpartner⟩ := mem_closed.mp hpair
  have haccounts := accounts_entries values
  obtain ⟨-, w, hw, -⟩ := haccounts.partner entry hentry pair.2 hpartner
  exact ⟨hindex ▸ haccounts.index_lt hentry, (List.getElem?_eq_some_iff.mp hw).1⟩

theorem nodup_nonReal (values : List (ComplexNumber α)) : (nonReal values).Nodup := by
  refine (List.filter_sublist.map Prod.snd).nodup ?_
  rw [List.zipIdx_map_snd]
  exact List.nodup_range'

theorem nodup_of_pairConjugates (h : pairConjugates values = .ok conjugates) :
    (conjugates.map Prod.snd).Nodup := by
  obtain rfl := eq_pairs_of_pairConjugates h
  have hmembers := (accounts_entries values).partitions.members.nodup_iff.mpr (nodup_nonReal values)
  refine List.Sublist.nodup ?_ (List.Nodup.of_append_left hmembers)
  rw [List.map_eq_flatMap]
  exact List.Sublist.flatMap_right _ fun pair _ => List.sublist_cons_self _ _

end Indices

/-- The errors of a harmonic extraction. -/
inductive Error.IsHarmonic : Error α → Prop where
  | reduced (cause : ReducedError) : IsHarmonic (.reduced cause)
  | unpaired (index : ℕ) (value : ComplexNumber α) : IsHarmonic (.unpaired index value)

/-- Values that are not closed under conjugation are reported by one without its conjugate. -/
theorem isHarmonic_of_pairConjugates {values : List (ComplexNumber α)} {e : Error α}
    (h : pairConjugates values = .error e) : e.IsHarmonic := by
  rw [pairConjugates_eq] at h
  split at h
  · cases h
  · obtain rfl := Except.error.inj h
    exact .unpaired _ _

theorem isHarmonic_of_harmonicRitz {dense : Factorizations α} {n : ℕ} {s : SearchSpace α n}
    {e : Error α} (h : harmonicRitz dense s = .error (.error e)) : e.IsHarmonic := by
  cases h ▸ harmonicRitz_ends dense s with
  | noMetric hmetric => exact .reduced _
  | noPencil hnone => exact .reduced _
  | unpaired hpencil hconjugates => exact isHarmonic_of_pairConjugates hconjugates

/-- With the images of the whole basis at hand, a harmonic extraction does not leave its domain. -/
theorem harmonicRitz_refreshed_ne_fault {dense : Factorizations ℝ} {n : ℕ}
    (s : SearchSpace ℝ n) (f : Euclid n →ₗ[ℝ] Euclid n) (fault : Fault) :
    harmonicRitz dense (s.refreshed f) ≠ .error (.fault fault) := by
  intro h
  cases h ▸ harmonicRitz_ends dense (s.refreshed f) with
  | misfit hpencil hconjugates hreduced =>
      cases (Extraction.ofReduced_refreshed s f _).symm.trans hreduced

end SubspaceEigen
