import SubspaceEigen.Proofs.Orthogonal.GramSchmidt
import SubspaceEigen.Proofs.SearchSpace.Images
import SubspaceEigen.Solver.Guess
import SubspaceEigen.Solver.Settings

/-!
# Orthonormal guesses

A ranking of the diagonal names every position once, so the coordinate vectors of a guess are
different ones.  With noise they are made orthonormal again, whatever the noise has done to them.
-/

namespace SubspaceEigen

open scoped RealInnerProductSpace
open Column

variable {n : ℕ}

theorem ranking_perm {α : Type} [Scalar α] (values : List α) :
    (ranking values).Perm (List.range values.length) := by
  have hindices : values.zipIdx.map Prod.snd = List.range values.length := by
    rw [List.zipIdx_map_snd, List.range_eq_range']
  rw [ranking, ← hindices]
  exact (sortedBy_perm Prod.fst values.zipIdx).map Prod.snd

theorem ranking_of_sorted {α : Type} [Scalar α] {values : List α}
    (h : values.Pairwise fun x y => Scalar.ranksBefore x y = true) :
    ranking values = List.range values.length := by
  have hsorted : values.zipIdx.Pairwise fun a b => Scalar.ranksBefore a.1 b.1 = true := by
    rwa [← List.zipIdx_map_fst 0 values, List.pairwise_map] at h
  rw [ranking, sortedBy, List.mergeSort_of_pairwise hsorted, List.zipIdx_map_snd,
    List.range_eq_range']

theorem ranking_of_pairwise {values : List ℝ} (h : values.Pairwise (· ≤ ·)) :
    ranking values = List.range values.length :=
  ranking_of_sorted (h.imp fun hle => (Scalar.ranksBefore_real _ _).mpr hle)

/-- With an ascending diagonal the guess consists of the first coordinate vectors. -/
theorem unitGuess_of_pairwise {diagonal : Vector ℝ n} (h : diagonal.toList.Pairwise (· ≤ ·))
    {size : ℕ} (hsize : size ≤ n) :
    unitGuess .symmetric diagonal size = ((List.range size).map (Column.unit n)).toArray := by
  rw [unitGuess, ranking_of_pairwise h, Vector.length_toList, OperatorKind.guessOffset,
    List.drop_zero, List.take_range, min_eq_left hsize]

section Unit

variable (kind : OperatorKind) (diagonal : Vector ℝ n) (size : ℕ)

theorem unitGuess_isOrthonormal : (unitGuess kind diagonal size).IsOrthonormal := by
  have hsub : (((ranking diagonal.toList).drop (kind.guessOffset n)).take size).Sublist
      (ranking diagonal.toList) :=
    (List.take_sublist _ _).trans (List.drop_sublist _ _)
  have hperm := ranking_perm diagonal.toList
  rw [Vector.length_toList] at hperm
  apply Columns.isOrthonormal_units
  · exact (hperm.nodup_iff.mpr List.nodup_range).sublist hsub
  · intro k hk
    exact List.mem_range.mp (hperm.mem_iff.mp (hsub.mem hk))

theorem size_unitGuess : (unitGuess kind diagonal size).size = min size (kind.available n) := by
  have hlength : (ranking diagonal.toList).length = n := by
    rw [(ranking_perm diagonal.toList).length_eq, List.length_range, Vector.length_toList]
  simp only [unitGuess, List.size_toArray, List.length_map, List.length_take, List.length_drop,
    hlength]
  cases kind <;> rfl

end Unit

theorem Config.guess_of_noise_le {c : Config ℝ} (hnoise : c.guessNoise ≤ 0)
    (dense : Factorizations ℝ) (draws : ℕ → ℝ) (diagonal : Vector ℝ n) (size : ℕ) :
    c.guess dense draws diagonal size = unitGuess c.kind diagonal size :=
  if_neg (not_lt.mpr hnoise)

theorem Config.size_guess_of_noise_le {c : Config ℝ} (hnoise : c.guessNoise ≤ 0)
    (dense : Factorizations ℝ) (draws : ℕ → ℝ) (diagonal : Vector ℝ n) {size : ℕ}
    (hsize : size ≤ c.kind.available n) : (c.guess dense draws diagonal size).size = size := by
  rw [guess_of_noise_le hnoise, size_unitGuess, min_eq_left hsize]

theorem Config.guess_isOrthonormal {dense : Factorizations ℝ} (hd : dense.TriangularExact)
    (c : Config ℝ) (draws : ℕ → ℝ) (diagonal : Vector ℝ n) (size : ℕ) :
    (c.guess dense draws diagonal size).IsOrthonormal := by
  unfold guess
  split
  · have horth := SearchSpace.orthonormalize_isOrthonormal hd c.orthogonalization
      Columns.isOrthonormal_empty (Noise.perturb c.guessNoise draws (unitGuess c.kind diagonal size))
    simpa using horth
  · exact unitGuess_isOrthonormal _ _ _

end SubspaceEigen
