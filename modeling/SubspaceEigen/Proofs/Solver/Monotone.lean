import SubspaceEigen.Proofs.Solver.Certificate

/-!
# Ritz values over a whole run

For a symmetric operator the `j`-th Ritz value is never below the `j`-th eigenvalue.  The leading
Ritz vectors of a round lie in the span of the next basis, with or without a restart, so the
min-max bound also says that their values do not rise from round to round.
-/

namespace SubspaceEigen

open Column

variable {n : ℕ} {f : Euclid n →ₗ[ℝ] Euclid n}

theorem Extraction.Resolves.value_settle {e : Extraction ℝ n} {cs : Columns ℝ n}
    (h : e.Resolves f cs) (flags : List Bool) (requested : ℕ) :
    ∀ {j} (hj : j < (Solution.settle e.pairs e.residualNorms flags requested).length),
      ∃ hj' : j < e.pairs.length,
        (Solution.settle e.pairs e.residualNorms flags requested)[j].value =
          e.pairs[j].value := by
  have hascending : e.pairs.Pairwise fun p q => p.value ≤ q.value := by
    rw [List.pairwise_iff_getElem]
    intro i j hi hj hij
    exact h.system.monotone (show (⟨i, hi⟩ : Fin e.pairs.length) ≤ ⟨j, hj⟩ from hij.le)
  rw [Solution.settle_residualNorms, sortedBy, List.mergeSort_of_pairwise]
  · intro j hj
    simp only [List.length_map, List.length_zipIdx, List.length_take] at hj
    refine ⟨by omega, ?_⟩
    simp
  · have hleading : ((e.pairs.take requested).zipIdx.map Prod.fst).Pairwise
        fun p q => p.value ≤ q.value := by
      rw [List.zipIdx_map_fst]
      exact hascending.sublist (List.take_sublist _ _)
    rw [List.pairwise_map] at hleading ⊢
    exact hleading.imp fun hle => (Scalar.ranksBefore_real _ _).mpr hle

/-- The Ritz values of the rounds of a run are bounded by the eigenvalues of a symmetric map from
below, the leading ones do not rise, and the values of a solution have the same bounds. -/
structure Problem.BoundsSpectrum (p : Problem ℝ n) (hf : f.IsSymmetric) : Prop where
  reported : Journal.measurements p.run.events = p.rounds.map (·.measurement p.measuresBasis)
  bounded : ∀ r ∈ p.rounds, ∀ {j} (hj : j < r.extraction.pairs.length),
    ∃ hn : j < n, orderedEigenvalue hf ⟨j, hn⟩ ≤ r.extraction.pairs[j].value
  descends : ∀ {i r next}, p.rounds[i]? = some r → p.rounds[i + 1]? = some next →
    ∀ {j} (hj : j < r.extraction.pairs.length), j < p.settings.initialGuess →
      ∃ hj' : j < next.extraction.pairs.length,
        next.extraction.pairs[j].value ≤ r.extraction.pairs[j].value
  roots : ∀ {solution}, p.run.outcome = .ok solution → ∀ {j} (hj : j < solution.roots.length),
    ∃ hn : j < n, orderedEigenvalue hf ⟨j, hn⟩ ≤ solution.roots[j].value

namespace Solver

variable {solver : Solver ℝ} {op : LinearOperator ℝ} {f : Euclid op.rows →ₗ[ℝ] Euclid op.rows}

theorem boundsSpectrum_of_pose (hd : solver.dense.TriangularExact)
    (hs : solver.dense.SymmetricExact) (hkind : solver.config.kind = .symmetric)
    (hop : op.ActsAs f) (hf : f.IsSymmetric) {draws : ℕ → ℝ} {requested guess : ℕ}
    {p : Problem ℝ op.rows} (h : solver.pose draws op requested guess = .ok p) :
    solver.solveWith draws op requested guess = p.run ∧ p.BoundsSpectrum hf := by
  have hp := poses_of_pose h
  rw [← hp.dense_eq] at hd hs
  rw [← hp.config_eq] at hkind
  have hacts := hp.actsAs hop
  have hresolves : ∀ r ∈ p.rounds, r.extraction.Resolves f r.space.basis := by
    intro r hr
    obtain ⟨s, hlooks⟩ := p.exists_looks hd hacts r hr
    exact hlooks.resolves hs hkind
  refine ⟨solveWith_of_pose h, p.measurements_run, ?_, ?_, ?_⟩
  · intro r hr j hj
    exact (hresolves r hr).orderedEigenvalue_le hf hj
  · intro i r next hr hnext j hj hguess
    obtain ⟨s, hlooks⟩ := p.exists_looks hd hacts r (List.mem_of_getElem? hr)
    have hlater := Problem.looks_next hd hacts hr hnext
    refine (hresolves r (List.mem_of_getElem? hr)).value_le
      (hresolves next (List.mem_of_getElem? hnext)) hlater.tracks_space.orthonormal hj ?_
    intro l hl hlj
    rw [hlater.basis_eq]
    apply Problem.leading_mem_span hd hs hkind hlooks
    refine Problem.mem_leading.mpr ⟨r.extraction.pairs[l], ?_, rfl⟩
    rw [List.mem_take_iff_getElem]
    exact ⟨l, by omega, rfl⟩
  · intro solution hsolution j hj
    obtain ⟨r, hr, s, hlooks, hroots⟩ := p.exists_looks_of_outcome hd hacts hsolution
    have hsettled := fun {j} => (hresolves r hr).value_settle r.space.flags p.requested (j := j)
    rw [← hroots] at hsettled
    obtain ⟨hpair, hvalue⟩ := hsettled hj
    rw [hvalue]
    exact (hresolves r hr).orderedEigenvalue_le hf hpair

/-- The matrix with columns `(2, 1)` and `(1, 2)`, and standard settings. -/
theorem boundsSpectrum_pair :
    let a : Square ℝ 2 := #v[#v[2, 1], #v[1, 2]]
    let op : LinearOperator ℝ := .ofBlock ⟨2, a.toArray⟩
    Solver.exact.dense.TriangularExact ∧ Solver.exact.dense.SymmetricExact ∧
      Solver.exact.config.kind = .symmetric ∧ op.ActsAs a.toLinearMap ∧
        ∃ (hf : a.toLinearMap.IsSymmetric) (p : Problem ℝ 2),
          Solver.exact.pose (fun _ => 0) op 1 0 = .ok p ∧
            Solver.exact.solveWith (fun _ => 0) op 1 0 = p.run ∧ p.BoundsSpectrum hf := by
  intro a op
  have hd : Solver.exact.dense.TriangularExact := Factorizations.exact_triangularExact
  have hs : Solver.exact.dense.SymmetricExact := Factorizations.exact_symmetricExact
  have hop : op.ActsAs a.toLinearMap := LinearOperator.ofBlock_actsAs a
  have hsymm : a.IsSymmetric := by
    intro i j
    fin_cases i <;> fin_cases j <;> rfl
  have hf : a.toLinearMap.IsSymmetric := Square.toLinearMap_isSymmetric hsymm
  obtain ⟨p, hp⟩ := exists_pose_ofBlock exact_validate (fun _ => 0) a 0 one_pos
    (show 1 ≤ 2 by norm_num)
  exact ⟨hd, hs, rfl, hop, hf, p, hp, boundsSpectrum_of_pose hd hs rfl hop hf hp⟩

end Solver

end SubspaceEigen
