import SubspaceEigen.Proofs.Dense.Supply
import SubspaceEigen.Proofs.Operator.Shift
import SubspaceEigen.Proofs.Ritz.Plain

/-!
# Ritz pairs of a shifted operator

On an orthonormal basis the compression of `A + σ` is that of `A` with `σ` added to its diagonal.  A
solver for symmetric matrices that does the same with both, up to the shift of the values, leads to
the same Ritz vectors, and the shift cancels in their residuals.
-/

namespace SubspaceEigen

open scoped RealInnerProductSpace
open Column

variable {n : ℕ} {f : Euclid n →ₗ[ℝ] Euclid n} {σ : ℝ}

theorem symmetrized_shifted (f : Euclid n →ₗ[ℝ] Euclid n) (σ : ℝ) :
    symmetrized (shifted f σ) = shifted (symmetrized f) σ := by
  refine LinearMap.ext fun q => ext_inner_left ℝ fun p => ?_
  rw [inner_symmetrized, shifted_apply, shifted_apply, shifted_apply, inner_add_right,
    inner_add_right, inner_add_right, inner_symmetrized, inner_smul_right, inner_smul_right,
    real_inner_comm p q]
  ring

theorem Columns.IsOrthonormal.compression_shifted {cs : Columns ℝ n} (h : cs.IsOrthonormal)
    (f : Euclid n →ₗ[ℝ] Euclid n) (σ : ℝ) :
    cs.compression (shifted f σ) = (cs.compression f).shift σ := by
  ext j hj i hi
  rw [Square.getElem_shift]
  have hentry := fun g => cs.entry_compression g ⟨i, hi⟩ ⟨j, hj⟩
  simp only [Square.entry_eq _ hi hj] at hentry
  rw [hentry, hentry, shifted_apply, inner_add_right, inner_smul_right,
    orthonormal_iff_ite.mp h]
  simp

noncomputable def Eigenpair.shift {k : ℕ} (σ : ℝ) (p : Eigenpair ℝ k) : Eigenpair ℝ k :=
  { p with value := p.value + σ }

noncomputable def RitzPair.shift {order : ℕ} (σ : ℝ) (p : RitzPair ℝ n order) :
    RitzPair ℝ n order :=
  { p with value := p.value + σ }

noncomputable def Extraction.shift (σ : ℝ) (e : Extraction ℝ n) : Extraction ℝ n :=
  { e with pairs := e.pairs.map (RitzPair.shift σ) }

theorem ranksBefore_add (x y σ : ℝ) :
    Scalar.ranksBefore (x + σ) (y + σ) = Scalar.ranksBefore x y := by
  rw [Bool.eq_iff_iff, Scalar.ranksBefore_real, Scalar.ranksBefore_real]
  exact add_le_add_iff_right σ

/-- In ascending order, the eigenpairs of a symmetric matrix with a shifted diagonal are those of
the matrix with shifted values. -/
def Factorizations.ShiftEquivariant (dense : Factorizations ℝ) : Prop :=
  ∀ {k : ℕ} (a : Square ℝ k) (σ : ℝ), a.IsSymmetric →
    sortedBy Eigenpair.value (dense.symmetric (a.shift σ)) =
      (sortedBy Eigenpair.value (dense.symmetric a)).map (Eigenpair.shift σ)

theorem RitzPair.lift_shifted (f : Euclid n →ₗ[ℝ] Euclid n) (cs : Columns ℝ n) (value σ : ℝ)
    (u : Vector ℝ cs.size) :
    lift (shifted f σ) cs (value + σ) u = (lift f cs value u).shift σ := by
  have hresidual : shifted f σ (cs.embed (point u)) - (value + σ) • cs.embed (point u) =
      f (cs.embed (point u)) - value • cs.embed (point u) := by
    rw [shifted_apply, add_smul, add_sub_add_right_eq_sub]
  rw [lift, hresidual]
  rfl

/-- The plain extraction for a shifted operator finds the same pairs with shifted values. -/
theorem plainRitz_shifted {dense : Factorizations ℝ} (hd : dense.ShiftEquivariant)
    {s : SearchSpace ℝ n} (h : s.basis.IsOrthonormal) :
    plainRitz dense (s.refreshed (shifted f σ)) =
      (plainRitz dense (s.refreshed f)).map (Extraction.shift σ) := by
  rcases Nat.eq_zero_or_pos s.basis.size with hzero | hpos
  · rw [plainRitz_refreshed_of_empty hzero, plainRitz_refreshed_of_empty hzero]
    rfl
  · rw [plainRitz_refreshed_of_pos hpos, plainRitz_refreshed_of_pos hpos, symmetrized_shifted,
      h.compression_shifted, hd _ σ (s.basis.compression_isSymmetric f), List.map_map]
    simp only [Except.map, Extraction.shift, List.map_map]
    congr 2
    apply List.map_congr_left
    intro p _
    exact RitzPair.lift_shifted f s.basis p.value σ p.vector

/-!
### An equivariant supply

Exact eigenpairs need not be equivariant, since a repeated eigenvalue leaves a choice of vectors.
They are if that choice is made for the matrix with its first diagonal entry shifted to zero.
-/

theorem IsEigenbasis.shift {a : Square ℝ n} {pairs : List (Eigenpair ℝ n)}
    (h : IsEigenbasis a pairs) (σ : ℝ) :
    IsEigenbasis (a.shift σ) (pairs.map (Eigenpair.shift σ)) where
  length_eq := by rw [List.length_map, h.length_eq]
  orthonormal := by
    rw [List.map_map]
    exact h.orthonormal
  eigen p hp := by
    obtain ⟨q, hq, rfl⟩ := List.mem_map.mp hp
    rw [Square.mulColumn_shift, point_addScaled]
    simp only [Eigenpair.shift, add_smul, h.eigen q hq]

/-- The eigenpairs of a symmetric matrix, by way of the one with the first diagonal entry zero. -/
noncomputable def Square.centredPairs (a : Square ℝ n) : List (Eigenpair ℝ n) :=
  (spectralPairs (a.shift (-a.entry 0 0))).map (Eigenpair.shift (a.entry 0 0))

theorem Square.centredPairs_shift (a : Square ℝ n) (σ : ℝ) :
    (a.shift σ).centredPairs = a.centredPairs.map (Eigenpair.shift σ) := by
  cases n with
  | zero => simp [centredPairs, spectralPairs]
  | succ n =>
      have hentry : (a.shift σ).entry 0 0 = a.entry 0 0 + σ := by
        rw [entry_eq _ n.succ_pos n.succ_pos, entry_eq _ n.succ_pos n.succ_pos, getElem_shift,
          if_pos rfl]
      have hcentre : σ + -(a.entry 0 0 + σ) = -a.entry 0 0 := by ring
      rw [centredPairs, hentry, shift_shift, hcentre, centredPairs, List.map_map]
      apply List.map_congr_left
      intro p _
      simp [Eigenpair.shift, add_assoc]

/-- The exact factorizations, with eigenpairs that follow a shift. -/
noncomputable def Factorizations.centred : Factorizations ℝ :=
  { Factorizations.exact with symmetric := Square.centredPairs }

theorem Factorizations.centred_triangularExact : centred.TriangularExact :=
  exact_triangularExact

theorem Factorizations.centred_symmetricExact : centred.SymmetricExact := by
  intro n a h
  have hpairs := (Square.isEigenbasis_spectralPairs (h.shift (-a.entry 0 0))).shift (a.entry 0 0)
  rwa [Square.shift_shift, neg_add_cancel, Square.shift_zero] at hpairs

theorem Factorizations.centred_shiftEquivariant : centred.ShiftEquivariant := by
  intro n a σ _
  change sortedBy Eigenpair.value (a.shift σ).centredPairs = _
  rw [a.centredPairs_shift]
  exact sortedBy_map Eigenpair.value Eigenpair.value
    (fun p q => ranksBefore_add p.value q.value σ) _

end SubspaceEigen
