import SubspaceEigen.Proofs.Ritz.Plain
import SubspaceEigen.Proofs.Solver.Guess
import SubspaceEigen.Proofs.Solver.Rounds

/-!
# The search spaces of a run

In exact arithmetic the space of every round of a solve tracks its images: the guess is orthonormal,
an extension by unit corrections leaves the basis in place, and a restart begins with an orthonormal
basis again.  Every round therefore sees the images of its whole basis.
-/

namespace SubspaceEigen.Problem

open Column SearchSpace

variable {n : ℕ} {p : Problem ℝ n} {f : Euclid n →ₗ[ℝ] Euclid n} {r : Round ℝ n}

theorem firstSpace_tracks (hd : p.dense.TriangularExact) : Tracks f p.firstSpace :=
  tracks_start (p.config.guess_isOrthonormal hd _ _ _) _ _

/-- Corrections have norm one, and a pair without a direction adds none. -/
theorem norm_of_mem_corrections {x : Vector ℝ n} (hx : x ∈ p.corrections r) : ‖point x‖ = 1 := by
  unfold corrections at hx
  have hmem := List.mem_of_mem_take (List.mem_toArray.mp hx)
  obtain ⟨⟨pair, converged⟩, -, hdirection⟩ := List.mem_filterMap.mp hmem
  cases converged with
  | true => cases hdirection
  | false =>
      simp only [Bool.false_eq_true, if_false, direction?, Option.ite_none_left_eq_some,
        Option.some_inj] at hdirection
      obtain ⟨hsize, rfl⟩ := hdirection
      exact norm_divide_norm (not_le.mp (not_or.mp hsize).1)

/-- The columns that an extension after the round adds to its basis. -/
noncomputable def added (p : Problem ℝ n) (r : Round ℝ n) : Columns ℝ n :=
  (p.enlarge r).1.basis.extract r.space.basis.size (p.enlarge r).1.basis.size

/-- The basis stays in place, and the count is that of the columns added. -/
theorem enlarge_append (hd : p.dense.TriangularExact) (h : r.space.basis.IsOrthonormal) :
    (p.enlarge r).1.basis = r.space.basis ++ p.added r ∧ (p.enlarge r).2 = (p.added r).size := by
  have hblock : ∀ x ∈ p.corrections r, ‖point x‖ ≤ 1 :=
    fun x hx => (norm_of_mem_corrections hx).le
  have hexists : ∃ new, (p.enlarge r).1.basis = r.space.basis ++ new ∧
      (p.enlarge r).2 = new.size := by
    simp only [enlarge]
    split
    · exact ⟨#[], by simp, rfl⟩
    · obtain ⟨new, hnew⟩ :=
        orthonormalize_append_of_norm_le_one hd p.config.orthogonalization h hblock
      refine ⟨new, hnew, ?_⟩
      simp only [extend, hnew, Array.size_append]
      omega
  obtain ⟨new, hnew, hcount⟩ := hexists
  have hadded : p.added r = new := by
    simp [added, hnew, Array.extract_append]
  rw [hadded]
  exact ⟨hnew, hcount⟩

theorem enlarge_tracks (hd : p.dense.TriangularExact) (h : Tracks f r.space) :
    Tracks f (p.enlarge r).1 := by
  simp only [enlarge]
  split
  · exact h
  · exact tracks_extend hd _ h _ fun _ =>
      not_displaces_of_norm_le_one hd _ h.orthonormal fun x hx => (norm_of_mem_corrections hx).le

theorem restartBasis_isOrthonormal (hd : p.dense.TriangularExact) (r : Round ℝ n)
    (s : SearchSpace ℝ n) (fresh : ℕ) : (p.restartBasis r s fresh).IsOrthonormal := by
  have horth := orthonormalize_isOrthonormal hd p.config.orthogonalization
    Columns.isOrthonormal_empty (((r.extraction.pairs.take p.settings.initialGuess).map
      RitzPair.vector).toArray ++ s.basis.extract (s.basis.size - min fresh s.basis.size)
        s.basis.size)
  simpa [restartBasis] using horth

theorem advance_tracks (hd : p.dense.TriangularExact) (h : Tracks f r.space) :
    Tracks f (p.advance r).1 := by
  by_cases hout : p.Outgrows r
  · rw [advance_of_outgrows hout]
    exact tracks_restart _ (restartBasis_isOrthonormal hd _ _ _)
  · rw [advance_of_not_outgrows hout]
    exact enlarge_tracks hd h

/-- The round looked at the space `s` with the images of its whole basis. -/
structure Looks (p : Problem ℝ n) (f : Euclid n →ₗ[ℝ] Euclid n) (s : SearchSpace ℝ n)
    (r : Round ℝ n) : Prop where
  tracks : Tracks f s
  space_eq : r.space = { s.refreshed f with flags := r.space.flags }
  extract_eq : p.extract (s.refreshed f) = .ok (r.extraction, r.conjugates)
  norms_eq : r.norms = r.extraction.residualNorms

theorem looks_of_roundAt (hop : p.operator.ActsAs f) {s : SearchSpace ℝ n} (h : Tracks f s)
    {index : ℕ} (hround : p.roundAt index s = .ok r) : p.Looks f s r := by
  cases hround ▸ p.roundAt_ends index s with
  | examined hupdate hextract =>
      rw [update_eq h hop] at hupdate
      obtain rfl := Except.ok.inj hupdate
      exact ⟨h, rfl, hextract, rfl⟩

namespace Looks

variable {s : SearchSpace ℝ n}

theorem basis_eq (h : p.Looks f s r) : r.space.basis = s.basis := by
  rw [h.space_eq]
  rfl

theorem tracks_space (h : p.Looks f s r) : Tracks f r.space := by
  rw [h.space_eq]
  have href := tracks_refreshed h.tracks
  exact ⟨href.orthonormal, href.computed_le, href.image, href.second⟩

/-- In symmetric mode the pairs resolve the operator on the basis of the round. -/
theorem resolves (h : p.Looks f s r) (hs : p.dense.SymmetricExact)
    (hkind : p.config.kind = .symmetric) : r.extraction.Resolves f r.space.basis := by
  have hextract := h.extract_eq
  unfold extract at hextract
  simp only [hkind] at hextract
  split at hextract
  · next extraction hplain =>
    obtain ⟨e, he, hresolves⟩ :=
      plainRitz_refreshed hs h.tracks.orthonormal (size_pos_of_plainRitz hplain)
    obtain rfl := Except.ok.inj (hplain.symm.trans he)
    obtain rfl := (Prod.mk.inj (Except.ok.inj hextract)).1
    rw [h.basis_eq]
    exact hresolves
  · cases hextract

theorem certified (h : p.Looks f s r) (hs : p.dense.SymmetricExact) :
    ∀ pair ∈ r.extraction.pairs, pair.Certified f := by
  have hextract := h.extract_eq
  cases hkind : p.config.kind with
  | symmetric => exact (h.resolves hs hkind).certified
  | hamiltonian =>
      unfold extract at hextract
      simp only [hkind] at hextract
      exact harmonicRitz_certified h.tracks.orthonormal hextract

end Looks

/-- Every round of a solve looked at a tracked space. -/
theorem exists_looks (hd : p.dense.TriangularExact) (hop : p.operator.ActsAs f) :
    ∀ r ∈ p.rounds, ∃ s, p.Looks f s r := by
  intro r hr
  obtain ⟨run, hrun, -⟩ := p.unfolds_run
  have hstep : ∀ {i s r}, Tracks f s → p.roundAt i s = .ok r → Tracks f (p.advance r).1 :=
    fun hs hround => advance_tracks hd (looks_of_roundAt hop hs hround).tracks_space
  obtain ⟨i, s, hs, hround⟩ := hrun.exists_space (firstSpace_tracks hd) hstep r hr
  exact ⟨s, looks_of_roundAt hop hs hround⟩

/-- The next round looked at the space to which the last one advanced. -/
theorem looks_next (hd : p.dense.TriangularExact) (hop : p.operator.ActsAs f) {i : ℕ}
    {next : Round ℝ n} (hr : p.rounds[i]? = some r) (hnext : p.rounds[i + 1]? = some next) :
    p.Looks f (p.advance r).1 next := by
  obtain ⟨run, hrun, -⟩ := p.unfolds_run
  obtain ⟨s, hlooks⟩ := exists_looks hd hop r (List.mem_of_getElem? hr)
  exact looks_of_roundAt hop (advance_tracks hd hlooks.tracks_space) (hrun.roundAt_next hr hnext)

end SubspaceEigen.Problem
