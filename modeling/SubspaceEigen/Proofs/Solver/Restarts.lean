import SubspaceEigen.Proofs.Dense.Supply
import SubspaceEigen.Proofs.Solver.Requests
import SubspaceEigen.Proofs.Solver.Spaces

/-!
# Restarts in symmetric mode

Ritz vectors of a symmetric extraction are orthonormal, and they lie in the span of the old basis,
to which the columns added by an extension are orthogonal.  A restart therefore has nothing to make
orthonormal: the new basis consists of the leading Ritz vectors and the columns just added.  It is
never empty, so a solve that starts with a guess does not fail.
-/

namespace SubspaceEigen

open scoped RealInnerProductSpace
open Column SearchSpace

variable {n : ℕ} {f : Euclid n →ₗ[ℝ] Euclid n}

theorem Extraction.Resolves.isOrthonormal_take {e : Extraction ℝ n} {cs : Columns ℝ n}
    (h : e.Resolves f cs) (k : ℕ) :
    Columns.IsOrthonormal ((e.pairs.take k).map RitzPair.vector).toArray := by
  have hsize : ((e.pairs.take k).map RitzPair.vector).toArray.size ≤ e.pairs.length := by simp
  have hfamily : Columns.family ((e.pairs.take k).map RitzPair.vector).toArray =
      (fun i : Fin e.pairs.length => point e.pairs[i].vector) ∘ Fin.castLE hsize := by
    funext j
    simp [Columns.family]
  rw [Columns.IsOrthonormal, hfamily]
  exact h.system.orthonormal.comp _ (Fin.castLE_injective hsize)

namespace Problem

variable {p : Problem ℝ n} {r : Round ℝ n}

def leading (p : Problem ℝ n) (r : Round ℝ n) : Columns ℝ n :=
  ((r.extraction.pairs.take p.settings.initialGuess).map RitzPair.vector).toArray

theorem mem_leading {x : Vector ℝ n} :
    x ∈ p.leading r ↔
      ∃ pair ∈ r.extraction.pairs.take p.settings.initialGuess, pair.vector = x := by
  rw [leading, List.mem_toArray, List.mem_map]

/-- In symmetric mode a restart changes none of the columns that it gathers. -/
theorem restartBasis_eq (hd : p.dense.TriangularExact) (h : r.space.basis.IsOrthonormal)
    (horth : (p.enlarge r).1.basis.IsOrthonormal)
    (hresolves : r.extraction.Resolves f r.space.basis) :
    p.restartBasis r (p.enlarge r).1 (p.enlarge r).2 = p.leading r ++ p.added r := by
  obtain ⟨hbasis, hcount⟩ := enlarge_append hd h
  have hlatest : (p.enlarge r).1.basis.extract
      ((p.enlarge r).1.basis.size - min (p.enlarge r).2 (p.enlarge r).1.basis.size)
        (p.enlarge r).1.basis.size = p.added r := by
    have hstart : (p.enlarge r).1.basis.size - min (p.enlarge r).2 (p.enlarge r).1.basis.size =
        r.space.basis.size := by
      rw [hcount, hbasis, Array.size_append]
      omega
    rw [hstart]
    rfl
  rw [hbasis, Columns.isOrthonormal_append] at horth
  have hkept : Columns.IsOrthonormal (p.leading r ++ p.added r) := by
    refine Columns.isOrthonormal_append.mpr
      ⟨hresolves.isOrthonormal_take _, horth.2.1, fun x hx y hy => ?_⟩
    obtain ⟨v, hv, rfl⟩ := Columns.mem_points.mp hx
    obtain ⟨pair, hpair, rfl⟩ := mem_leading.mp hv
    exact Columns.inner_eq_zero_of_mem_span
      (hresolves.mem_span pair (List.mem_of_mem_take hpair)) fun z hz => horth.2.2 z hz y hy
  unfold restartBasis
  rw [hlatest]
  exact orthonormalize_eq_self hd _ hkept 0

section Symmetric

variable (hd : p.dense.TriangularExact) (hs : p.dense.SymmetricExact)
  (hkind : p.config.kind = .symmetric) {s : SearchSpace ℝ n} (hlooks : p.Looks f s r)

include hd hs hkind hlooks

/-- In symmetric mode the next space begins with the leading Ritz vectors or with the old basis, and
goes on with the columns added. -/
theorem advance_basis :
    (p.advance r).1.basis = p.leading r ++ p.added r ∧ p.Outgrows r ∨
      (p.advance r).1.basis = r.space.basis ++ p.added r ∧ ¬ p.Outgrows r := by
  have h := hlooks.tracks_space
  by_cases hout : p.Outgrows r
  · refine .inl ⟨?_, hout⟩
    rw [advance_of_outgrows hout]
    exact restartBasis_eq hd h.orthonormal (enlarge_tracks hd h).orthonormal
      (hlooks.resolves hs hkind)
  · refine .inr ⟨?_, hout⟩
    rw [advance_of_not_outgrows hout]
    exact (enlarge_append hd h.orthonormal).1

/-- No leading Ritz vector is lost. -/
theorem leading_mem_span {x : Vector ℝ n} (hx : x ∈ p.leading r) :
    point x ∈ (p.advance r).1.basis.span := by
  rcases advance_basis hd hs hkind hlooks with ⟨hbasis, -⟩ | ⟨hbasis, -⟩
  · rw [hbasis]
    exact Columns.mem_span_of_mem (Array.mem_append_left _ hx)
  · obtain ⟨pair, hpair, rfl⟩ := mem_leading.mp hx
    have hmem := (hlooks.resolves hs hkind).mem_span pair (List.mem_of_mem_take hpair)
    rw [hbasis]
    exact Columns.span_mono (fun v hv => Array.mem_append_left _ hv) hmem

theorem advance_size_pos (hguess : 0 < p.settings.initialGuess) (hpos : 0 < s.basis.size) :
    0 < (p.advance r).1.basis.size := by
  have hlength := (hlooks.resolves hs hkind).length_eq
  rw [hlooks.basis_eq] at hlength
  rcases advance_basis hd hs hkind hlooks with ⟨hbasis, -⟩ | ⟨hbasis, -⟩
  · simp only [hbasis, leading, Array.size_append, List.size_toArray, List.length_map,
      List.length_take, hlength]
    omega
  · rw [hbasis, hlooks.basis_eq, Array.size_append]
    omega

end Symmetric

theorem Looks.size_enlarge {s : SearchSpace ℝ n} (h : p.Looks f s r) (hd : p.dense.TriangularExact) :
    (p.enlarge r).1.size = r.space.size + (p.added r).size := by
  rw [SearchSpace.size, (enlarge_append hd h.tracks_space.orthonormal).1, Array.size_append,
    SearchSpace.size]

/-- In symmetric mode a restart keeps as many columns as the guess has, or all if there are no more,
and those just added. -/
theorem Looks.size_advance {s : SearchSpace ℝ n} (h : p.Looks f s r)
    (hd : p.dense.TriangularExact) (hs : p.dense.SymmetricExact)
    (hkind : p.config.kind = .symmetric) (hout : p.Outgrows r) :
    (p.advance r).1.size = min p.settings.initialGuess r.space.size + (p.added r).size := by
  have hlength : r.extraction.pairs.length = r.space.size := (h.resolves hs hkind).length_eq
  rcases advance_basis hd hs hkind h with ⟨hbasis, -⟩ | ⟨-, hstays⟩
  · rw [SearchSpace.size, hbasis, Array.size_append, leading, List.size_toArray, List.length_map,
      List.length_take, hlength]
  · exact absurd hout hstays

section Outcome

variable (hd : p.dense.TriangularExact) (hs : p.dense.SymmetricExact)
  (hkind : p.config.kind = .symmetric) (hop : p.operator.ActsAs f)

include hs hkind hop in
theorem exists_roundAt (index : ℕ) {s : SearchSpace ℝ n} (h : Tracks f s)
    (hpos : 0 < s.basis.size) : ∃ r, p.roundAt index s = .ok r := by
  obtain ⟨e, he, -⟩ := plainRitz_refreshed (f := f) hs h.orthonormal hpos
  simp only [roundAt, update_eq h hop, examine, extract, hkind, he]
  exact ⟨_, rfl⟩

include hd hs hkind hop in
/-- In symmetric mode a solve does not fail once its guess has a column. -/
theorem exists_outcome (hguess : 0 < p.settings.initialGuess)
    (hfirst : 0 < p.firstSpace.basis.size) : ∃ solution, p.run.outcome = .ok solution := by
  have hiterate : ∀ (remaining index : ℕ) (s : SearchSpace ℝ n), Tracks f s →
      0 < s.basis.size → ∃ solution, (p.iterate remaining index s).outcome = .ok solution := by
    intro remaining
    induction remaining with
    | zero =>
        intro index s h hpos
        obtain ⟨r, hround⟩ := exists_roundAt hs hkind hop index h hpos
        rw [iterate_of_ok hround]
        split
        · exact ⟨_, rfl⟩
        · exact ⟨_, rfl⟩
    | succ remaining ih =>
        intro index s h hpos
        obtain ⟨r, hround⟩ := exists_roundAt hs hkind hop index h hpos
        have hlooks := looks_of_roundAt hop h hround
        rw [iterate_of_ok hround]
        split
        · exact ⟨_, rfl⟩
        · exact ih _ _ (advance_tracks hd hlooks.tracks_space)
            (advance_size_pos hd hs hkind hlooks hguess hpos)
  exact hiterate _ _ _ (firstSpace_tracks hd) hfirst

end Outcome

end Problem

namespace Solver

variable {solver : Solver ℝ} {op : LinearOperator ℝ} {f : Euclid op.rows →ₗ[ℝ] Euclid op.rows}
  {draws : ℕ → ℝ} {requested guess : ℕ} {p : Problem ℝ op.rows}

/-- In symmetric mode and without noise every admitted request has a solution. -/
theorem exists_outcome (hd : solver.dense.TriangularExact) (hs : solver.dense.SymmetricExact)
    (hkind : solver.config.kind = .symmetric) (hnoise : solver.config.guessNoise ≤ 0)
    (hop : op.ActsAs f) (h : solver.pose draws op requested guess = .ok p) :
    ∃ solution, (solver.solveWith draws op requested guess).outcome = .ok solution := by
  have hp := poses_of_pose h
  obtain ⟨hguess, havailable⟩ := solver.config.initialGuess_bounds hp.settings
  rw [← hp.dense_eq] at hd hs
  rw [← hp.config_eq] at hkind hnoise havailable
  have hacts := hp.actsAs hop
  have hsize : p.firstSpace.basis.size = p.settings.initialGuess :=
    Config.size_guess_of_noise_le hnoise p.dense p.draws p.diagonal havailable
  have hfirst : 0 < p.firstSpace.basis.size := hsize ▸ hguess
  rw [solveWith_of_pose h]
  exact Problem.exists_outcome hd hs hkind hacts hguess hfirst

/-- A solver with the standard settings and exact factorizations. -/
noncomputable def exact : Solver ℝ where
  config := .standard
  dense := .exact
  measuresBasis := true
  clock := fun _ => 0

theorem exact_validate : exact.config.validate = .ok () := by
  have htolerance : (0 : ℝ) < (Config.standard : Config ℝ).tolerance := by
    simp only [Config.standard]
    norm_num
  exact Config.validate_eq_ok_iff.mpr ⟨by decide, ⟨rfl, htolerance⟩, nofun, rfl, le_rfl⟩

theorem exact_tolerance_le : exact.config.tolerance ≤ 1 := by
  simp only [exact, Config.standard]
  norm_num

end Solver

end SubspaceEigen
