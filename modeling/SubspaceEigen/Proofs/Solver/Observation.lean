import SubspaceEigen.Proofs.SearchSpace.Update
import SubspaceEigen.Proofs.Solver.Rounds

/-!
# What a round observes

Facts about a round that hold in any arithmetic and for any operator.  A round looks at the basis it
was given, it forms one norm for each Ritz pair, and it has one flag for each tracked root: whether
the norm with the same index is below the tolerance.  The number of flags never changes, so it is
that of the settings in every round of a solve.
-/

namespace SubspaceEigen

variable {α : Type} [Scalar α] {n : ℕ}

theorem all_take_iff_getD {flags : List Bool} {k : ℕ} (hk : k ≤ flags.length) :
    (flags.take k).all id = true ↔ ∀ j < k, flags.getD j false = true := by
  simp only [List.all_eq_true, id_eq, List.getD_eq_getElem?_getD]
  constructor
  · intro hall j hj
    rw [List.getElem?_eq_getElem (by omega)]
    exact hall _ (List.mem_take_iff_getElem.mpr ⟨j, by omega, rfl⟩)
  · intro hall flag hflag
    obtain ⟨j, hj, rfl⟩ := List.mem_take_iff_getElem.mp hflag
    have hvalue := hall j (by omega)
    rwa [List.getElem?_eq_getElem (by omega)] at hvalue

namespace Problem

variable {p : Problem α n} {s : SearchSpace α n} {r : Round α n}

theorem length_flagged (p : Problem α n) (norms : List α) (tracked : ℕ) :
    (p.flagged norms tracked).length = tracked := by
  simp [flagged]

theorem getD_flagged (p : Problem α n) (norms : List α) {j tracked : ℕ} (hj : j < tracked) :
    (p.flagged norms tracked).getD j false = true ↔
      ∃ norm, norms[j]? = some norm ∧ norm < p.config.tolerance := by
  rw [List.getD_eq_getElem?_getD, flagged, List.getElem?_map, List.getElem?_range hj,
    Option.map_some, Option.getD_some]
  cases norms[j]? with
  | none => simp
  | some norm => simp

/-- The round looked at the basis of the space `s` and flagged as many roots as `s` tracks. -/
structure Observes (p : Problem α n) (s : SearchSpace α n) (r : Round α n) : Prop where
  basis_eq : r.space.basis = s.basis
  flags_eq : r.space.flags = p.flagged r.norms s.tracked
  norms_eq : r.norms = r.extraction.residualNorms
  extract_eq : ∃ updated : SearchSpace α n, updated.basis = s.basis ∧
    p.extract updated = .ok (r.extraction, r.conjugates)

theorem observes_of_roundAt {index : ℕ} (h : p.roundAt index s = .ok r) : p.Observes s r := by
  cases h ▸ p.roundAt_ends index s with
  | examined hupdate hextract =>
      obtain ⟨hbasis, hflags⟩ := SearchSpace.update_preserves hupdate
      exact {
        basis_eq := hbasis
        flags_eq := by simp only [SearchSpace.tracked, hflags]
        norms_eq := rfl
        extract_eq := ⟨_, hbasis, hextract⟩ }

namespace Observes

theorem tracked_eq (h : p.Observes s r) : r.space.tracked = s.tracked := by
  rw [SearchSpace.tracked, h.flags_eq, length_flagged]

theorem size_eq (h : p.Observes s r) : r.space.size = s.size := by
  rw [SearchSpace.size, h.basis_eq, SearchSpace.size]

theorem length_norms (h : p.Observes s r) : r.norms.length = r.extraction.pairs.length := by
  rw [h.norms_eq, Extraction.residualNorms, List.length_map]

theorem converged_iff_flags (h : p.Observes s r) (hle : p.requested ≤ s.tracked) :
    r.converged p.requested = true ↔
      p.requested ≤ r.norms.length ∧ ∀ j < p.requested, r.space.flags.getD j false = true := by
  have hlength : r.space.flags.length = s.tracked := h.tracked_eq
  rw [Round.converged, Bool.and_eq_true, decide_eq_true_iff, all_take_iff_getD (by omega)]

theorem all_take_flags_iff (h : p.Observes s r) {k : ℕ} (htracked : k ≤ s.tracked)
    (hnorms : k ≤ r.norms.length) :
    (r.space.flags.take k).all id = true ↔
      ∀ norm ∈ r.norms.take k, norm < p.config.tolerance := by
  have hlength : r.space.flags.length = s.tracked := h.tracked_eq
  rw [all_take_iff_getD (by omega)]
  constructor
  · intro hall norm hnorm
    obtain ⟨j, hj, rfl⟩ := List.mem_take_iff_getElem.mp hnorm
    have hvalue := hall j (by omega)
    rw [h.flags_eq, getD_flagged p _ (by omega)] at hvalue
    obtain ⟨norm, hget, hlt⟩ := hvalue
    obtain ⟨_, rfl⟩ := List.getElem?_eq_some_iff.mp hget
    exact hlt
  · intro hall j hj
    rw [h.flags_eq, getD_flagged p _ (by omega)]
    refine ⟨r.norms[j], List.getElem?_eq_getElem (by omega), hall _ ?_⟩
    exact List.mem_take_iff_getElem.mpr ⟨j, by omega, rfl⟩

/-- A round has converged exactly if there are as many norms as requested roots, all of them below
the tolerance. -/
theorem converged_iff (h : p.Observes s r) (hle : p.requested ≤ s.tracked) :
    r.converged p.requested = true ↔
      p.requested ≤ r.norms.length ∧
        ∀ norm ∈ r.norms.take p.requested, norm < p.config.tolerance := by
  rw [Round.converged, Bool.and_eq_true, decide_eq_true_iff]
  exact and_congr_right fun hnorms => h.all_take_flags_iff hle hnorms

end Observes

theorem enlarge_flags (p : Problem α n) (r : Round α n) :
    (p.enlarge r).1.flags = r.space.flags := by
  simp only [enlarge]
  split
  · rfl
  · rfl

theorem advance_tracked (p : Problem α n) (r : Round α n) :
    (p.advance r).1.tracked = r.space.tracked := by
  by_cases hout : p.Outgrows r
  · rw [advance_of_outgrows hout]
    exact congrArg List.length (p.enlarge_flags r)
  · rw [advance_of_not_outgrows hout]
    exact congrArg List.length (p.enlarge_flags r)

theorem firstSpace_tracked (p : Problem α n) :
    p.firstSpace.tracked = p.settings.trackedRoots :=
  List.length_replicate

/-- Every round of a solve observes a space with the number of tracked roots that was set. -/
theorem exists_observes (p : Problem α n) :
    ∀ r ∈ p.rounds, ∃ s, s.tracked = p.settings.trackedRoots ∧ p.Observes s r := by
  intro r hr
  obtain ⟨run, hrun, -⟩ := p.unfolds_run
  have hstep : ∀ {i s r}, s.tracked = p.settings.trackedRoots → p.roundAt i s = .ok r →
      (p.advance r).1.tracked = p.settings.trackedRoots := by
    intro i s r hs hround
    rw [advance_tracked, (observes_of_roundAt hround).tracked_eq, hs]
  obtain ⟨i, s, hs, hround⟩ := hrun.exists_space p.firstSpace_tracked hstep r hr
  exact ⟨s, hs, observes_of_roundAt hround⟩

end Problem

end SubspaceEigen
