import SubspaceEigen.Proofs.Solver.Restarts

/-!
# The basis over a whole run

Four places build a basis: the guess, the noise on it, an extension and a restart.  In exact
arithmetic each of them gives orthonormal columns.  Between rounds the basis only grows at its end,
except for a restart, and in symmetric mode a restart loses neither the leading Ritz vectors nor the
latest columns.
-/

namespace SubspaceEigen

open Column

/-- The rounds of a run have orthonormal bases, and from one to the next these grow at the end or are
restarted without losing what counts. -/
structure Problem.KeepsBasis {n : ℕ} (p : Problem ℝ n) : Prop where
  reported : Journal.measurements p.run.events = p.rounds.map (·.measurement p.measuresBasis)
  begins : p.firstSpace.basis.IsOrthonormal
  /-- The basis of a round, the extended one and that of the next space. -/
  orthonormal : ∀ r ∈ p.rounds, r.space.basis.IsOrthonormal ∧
    (p.enlarge r).1.basis.IsOrthonormal ∧ (p.advance r).1.basis.IsOrthonormal
  grows : ∀ {i r next}, p.rounds[i]? = some r → p.rounds[i + 1]? = some next →
    (∀ before after, .restart i before after ∉ p.run.events) →
      ∃ new, next.space.basis = r.space.basis ++ new
  restarts : p.config.kind = .symmetric →
    ∀ {i r next}, p.rounds[i]? = some r → p.rounds[i + 1]? = some next →
      (∃ before after, .restart i before after ∈ p.run.events) →
        ∀ x ∈ p.leading r ++ p.added r, point x ∈ next.space.basis.span

namespace Solver

variable {solver : Solver ℝ} {op : LinearOperator ℝ} {f : Euclid op.rows →ₗ[ℝ] Euclid op.rows}

/-- The run of an admitted request is that of the problem it poses, which keeps its basis. -/
theorem keepsBasis_of_pose (hd : solver.dense.TriangularExact)
    (hs : solver.dense.SymmetricExact) (hop : op.ActsAs f) {draws : ℕ → ℝ}
    {requested guess : ℕ} {p : Problem ℝ op.rows}
    (h : solver.pose draws op requested guess = .ok p) :
    solver.solveWith draws op requested guess = p.run ∧ p.KeepsBasis := by
  have hp := poses_of_pose h
  rw [← hp.dense_eq] at hd hs
  have hacts := hp.actsAs hop
  refine ⟨solveWith_of_pose h, p.measurements_run,
    (Problem.firstSpace_tracks (f := f) hd).orthonormal, ?_, ?_, ?_⟩
  · intro r hr
    obtain ⟨s, hlooks⟩ := p.exists_looks hd hacts r hr
    have htracks := hlooks.tracks_space
    exact ⟨htracks.orthonormal, (Problem.enlarge_tracks hd htracks).orthonormal,
      (Problem.advance_tracks hd htracks).orthonormal⟩
  · intro i r next hr hnext hnone
    obtain ⟨s, hlooks⟩ := p.exists_looks hd hacts r (List.mem_of_getElem? hr)
    have hstays : ¬ p.Outgrows r := by
      rw [← Problem.restart_mem_run_iff hr hnext]
      rintro ⟨before, after, hmem⟩
      exact hnone before after hmem
    rw [(Problem.looks_next hd hacts hr hnext).basis_eq, Problem.advance_of_not_outgrows hstays]
    exact ⟨_, (Problem.enlarge_append hd hlooks.tracks_space.orthonormal).1⟩
  · intro hkind i r next hr hnext hrestart x hx
    obtain ⟨s, hlooks⟩ := p.exists_looks hd hacts r (List.mem_of_getElem? hr)
    have hout := (Problem.restart_mem_run_iff hr hnext).mp hrestart
    rw [(Problem.looks_next hd hacts hr hnext).basis_eq]
    rcases Problem.advance_basis hd hs hkind hlooks with ⟨hbasis, -⟩ | ⟨-, hstays⟩
    · rw [hbasis]
      exact Columns.mem_span_of_mem hx
    · exact absurd hout hstays

/-- A matrix that is not symmetric, with columns `(1, 1)` and `(0, 2)`, and standard settings. -/
theorem keepsBasis_shear :
    let a : Square ℝ 2 := #v[#v[1, 1], #v[0, 2]]
    let op : LinearOperator ℝ := .ofBlock ⟨2, a.toArray⟩
    Solver.exact.dense.TriangularExact ∧ Solver.exact.dense.SymmetricExact ∧
      op.ActsAs a.toLinearMap ∧
        ∃ p : Problem ℝ 2, Solver.exact.pose (fun _ => 0) op 1 0 = .ok p ∧
          Solver.exact.solveWith (fun _ => 0) op 1 0 = p.run ∧ p.KeepsBasis := by
  intro a op
  have hd : Solver.exact.dense.TriangularExact := Factorizations.exact_triangularExact
  have hs : Solver.exact.dense.SymmetricExact := Factorizations.exact_symmetricExact
  have hop : op.ActsAs a.toLinearMap := LinearOperator.ofBlock_actsAs a
  obtain ⟨p, hp⟩ := exists_pose_ofBlock exact_validate (fun _ => 0) a 0 one_pos
    (show 1 ≤ 2 by norm_num)
  exact ⟨hd, hs, hop, p, hp, keepsBasis_of_pose hd hs hop hp⟩

end Solver

end SubspaceEigen
