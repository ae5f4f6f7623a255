import SubspaceEigen.Proofs.Ritz.Certificate
import SubspaceEigen.Proofs.Ritz.MinMax

/-!
# The plain extraction

With an exact solver for symmetric matrices the plain extraction never fails on a basis that is not
empty.  It diagonalizes the symmetric part of the operator on the whole span of the basis; for a
symmetric operator that is the operator itself.
-/

namespace SubspaceEigen

open scoped RealInnerProductSpace
open Column

variable {n : ℕ} {f g : Euclid n →ₗ[ℝ] Euclid n} {cs : Columns ℝ n}

/-- As many certified pairs as columns, with vectors in their span that diagonalize the symmetric
part of the map. -/
structure Extraction.Resolves (f : Euclid n →ₗ[ℝ] Euclid n) (cs : Columns ℝ n)
    (e : Extraction ℝ n) : Prop where
  length_eq : e.pairs.length = cs.size
  certified : ∀ pair ∈ e.pairs, pair.Certified f
  mem_span : ∀ pair ∈ e.pairs, point pair.vector ∈ cs.span
  system : RitzSystem (symmetrized f) (fun i : Fin e.pairs.length => e.pairs[i].value)
    fun i => point e.pairs[i].vector

theorem IsEigenbasis.ritzSystem {k : ℕ} {a : Square ℝ k} {pairs : List (Eigenpair ℝ k)}
    (h : IsEigenbasis a pairs) (hsorted : pairs.Pairwise fun p q => p.value ≤ q.value) :
    RitzSystem a.toLinearMap (fun i : Fin pairs.length => pairs[i].value)
      fun i => point pairs[i].vector := by
  have horth : Orthonormal ℝ fun i : Fin pairs.length => point pairs[i].vector := by
    have hfamily : Orthonormal ℝ (Columns.family (pairs.map Eigenpair.vector).toArray) :=
      h.orthonormal
    have hsize : pairs.length = (pairs.map Eigenpair.vector).toArray.size := by simp
    have hcomp := hfamily.comp (Fin.cast hsize) (Fin.cast_injective hsize)
    simpa [Columns.family, Function.comp_def] using hcomp
  refine ⟨horth, ?_, ?_⟩
  · intro i j hij
    rcases hij.eq_or_lt with rfl | hlt
    · exact le_rfl
    · exact List.pairwise_iff_getElem.mp hsorted i j i.isLt j.isLt hlt
  · intro i j
    rw [← Square.point_mulColumn, h.eigen pairs[j] (List.getElem_mem ..), inner_smul_right,
      orthonormal_iff_ite.mp horth i j]
    split
    · exact mul_one _
    · exact mul_zero _

/-- What diagonalizes the compression of a map diagonalizes the map. -/
theorem RitzSystem.embed (h : cs.IsOrthonormal) {k : ℕ} {lam : Fin k → ℝ}
    {u : Fin k → Euclid cs.size} (hs : RitzSystem (cs.compression g).toLinearMap lam u) :
    RitzSystem g lam fun i => cs.embed (u i) where
  orthonormal := by
    rw [orthonormal_iff_ite]
    intro i j
    rw [h.inner_embed]
    exact orthonormal_iff_ite.mp hs.orthonormal i j
  monotone := hs.monotone
  diagonal i j := by
    rw [← Columns.inner_compression]
    exact hs.diagonal i j

theorem resolves_of_isEigenbasis (h : cs.IsOrthonormal) {pairs : List (Eigenpair ℝ cs.size)}
    (hpairs : IsEigenbasis (cs.compression (symmetrized f)) pairs)
    (hsorted : pairs.Pairwise fun p q => p.value ≤ q.value) :
    Extraction.Resolves f cs
      ⟨cs.size, pairs.map fun p => RitzPair.lift f cs p.value p.vector⟩ where
  length_eq := by simp [hpairs.length_eq]
  certified := by
    intro pair hpair
    obtain ⟨p, hp, rfl⟩ := List.mem_map.mp hpair
    have hunit : ‖point p.vector‖ = 1 :=
      hpairs.orthonormal.norm_eq_one (by simpa using ⟨p, hp, rfl⟩)
    refine RitzPair.lift_certified h hunit ?_
    calc
      p.value = ⟪point p.vector, p.value • point p.vector⟫ := by
        rw [inner_smul_right, real_inner_self_eq_norm_sq, hunit, one_pow, mul_one]
      _ = ⟪point p.vector, (cs.compression (symmetrized f)).toLinearMap (point p.vector)⟫ := by
        rw [← hpairs.eigen p hp, Square.point_mulColumn]
      _ = ⟪point p.vector, (cs.compression f).toLinearMap (point p.vector)⟫ := by
        rw [Columns.inner_compression, Columns.inner_compression, inner_symmetrized_self]
  mem_span := by
    intro pair hpair
    obtain ⟨p, -, rfl⟩ := List.mem_map.mp hpair
    rw [RitzPair.lift, Columns.point_combine_eq_embed]
    exact cs.embed_mem_span _
  system := by
    have hsystem := (hpairs.ritzSystem hsorted).embed h
    have hlength : (pairs.map fun p => RitzPair.lift f cs p.value p.vector).length ≤
        pairs.length := by simp
    simp only [RitzPair.lift, Columns.point_combine_eq_embed, Fin.getElem_fin, List.getElem_map]
    exact hsystem.castLE hlength

/-- The vectors of an extraction span what its basis spans. -/
theorem Extraction.Resolves.span_vectors {e : Extraction ℝ n}
    (h : e.Resolves f cs) (horth : cs.IsOrthonormal) :
    Submodule.span ℝ (Set.range fun i : Fin e.pairs.length => point e.pairs[i].vector) =
      cs.span := by
  apply Submodule.eq_of_le_of_finrank_eq
  · rw [Submodule.span_le]
    rintro _ ⟨i, rfl⟩
    exact h.mem_span _ (List.getElem_mem ..)
  · rw [finrank_span_eq_card h.system.orthonormal.linearIndependent, Fintype.card_fin,
      h.length_eq, horth.finrank_span]

/-- If the vectors up to the `j`-th lie in the span of another basis, the `j`-th value for that
basis is not larger. -/
theorem Extraction.Resolves.value_le {e next : Extraction ℝ n} {ds : Columns ℝ n}
    (h : e.Resolves f cs) (hnext : next.Resolves f ds) (horth : ds.IsOrthonormal) {j : ℕ}
    (hj : j < e.pairs.length)
    (hspan : ∀ i (hi : i < e.pairs.length), i ≤ j → point e.pairs[i].vector ∈ ds.span) :
    ∃ hj' : j < next.pairs.length, next.pairs[j].value ≤ e.pairs[j].value := by
  refine h.system.value_le hnext.system hj fun i hij => ?_
  rw [hnext.span_vectors horth]
  exact hspan i i.isLt hij

theorem Extraction.Resolves.system_of_isSymmetric {e : Extraction ℝ n} (h : e.Resolves f cs)
    (hf : f.IsSymmetric) :
    RitzSystem f (fun i : Fin e.pairs.length => e.pairs[i].value)
      fun i => point e.pairs[i].vector := by
  rw [← symmetrized_of_isSymmetric hf]
  exact h.system

/-- The `j`-th value of an extraction is at least the `j`-th eigenvalue. -/
theorem Extraction.Resolves.orderedEigenvalue_le {e : Extraction ℝ n}
    (h : e.Resolves f cs) (hf : f.IsSymmetric) {j : ℕ} (hj : j < e.pairs.length) :
    ∃ hn : j < n, orderedEigenvalue hf ⟨j, hn⟩ ≤ e.pairs[j].value :=
  (h.system_of_isSymmetric hf).orderedEigenvalue_le hf hj

section Refreshed

variable {dense : Factorizations ℝ} {s : SearchSpace ℝ n}

theorem plainRitz_refreshed_eq (dense : Factorizations ℝ) (s : SearchSpace ℝ n)
    (f : Euclid n →ₗ[ℝ] Euclid n) :
    plainRitz dense (s.refreshed f) = (do
      let spectrum ← diagonalize dense (s.basis.compress (symmetrized f)) none
      Extraction.ofReduced (s.refreshed f) (spectrum.pairs.map fun p => (p.value, p.vector))) := by
  have hpart : symmetricPart (s.refreshed f).projected =
      .ok (s.basis.compress (symmetrized f)) := s.basis.symmetricPart_compress f
  rw [plainRitz, hpart]
  rfl

theorem plainRitz_refreshed_of_empty (hzero : s.basis.size = 0) :
    plainRitz dense (s.refreshed f) = .error .noEigenproblem := by
  have hrows : (s.basis.compress (symmetrized f)).rows = 0 := hzero
  rw [plainRitz_refreshed_eq, diagonalize, s.basis.toSquare?_compress]
  simp only [if_pos hrows]
  rfl

/-- On a basis that is not empty the eigenpairs of the compression are lifted one by one. -/
theorem plainRitz_refreshed_of_pos (hpos : 0 < s.basis.size) :
    plainRitz dense (s.refreshed f) =
      .ok ⟨s.basis.size, (sortedBy Eigenpair.value
        (dense.symmetric (s.basis.compression (symmetrized f)))).map
          fun p => RitzPair.lift f s.basis p.value p.vector⟩ := by
  let pairs := sortedBy Eigenpair.value (dense.symmetric (s.basis.compression (symmetrized f)))
  have hdiagonalize : diagonalize dense (s.basis.compress (symmetrized f)) none = .ok ⟨pairs⟩ := by
    rw [diagonalize, s.basis.toSquare?_compress]
    exact if_neg hpos.ne'
  calc
    plainRitz dense (s.refreshed f) =
        Extraction.ofReduced (s.refreshed f) (pairs.map fun p => (p.value, p.vector)) := by
      rw [plainRitz_refreshed_eq, hdiagonalize]
      rfl
    _ = .ok ⟨s.basis.size, pairs.map fun p => RitzPair.lift f s.basis p.value p.vector⟩ := by
      rw [Extraction.ofReduced_refreshed, List.map_map]
      rfl

theorem size_pos_of_plainRitz {e : Extraction ℝ n}
    (he : plainRitz dense (s.refreshed f) = .ok e) : 0 < s.basis.size := by
  by_contra hzero
  rw [plainRitz_refreshed_of_empty (Nat.eq_zero_of_not_pos hzero)] at he
  cases he

theorem plainRitz_refreshed (hs : dense.SymmetricExact) (h : s.basis.IsOrthonormal)
    (hpos : 0 < s.basis.size) :
    ∃ e, plainRitz dense (s.refreshed f) = .ok e ∧ e.Resolves f s.basis := by
  let a := s.basis.compression (symmetrized f)
  have hpairs : IsEigenbasis a (sortedBy Eigenpair.value (dense.symmetric a)) :=
    (hs a (s.basis.compression_isSymmetric f)).perm (sortedBy_perm _ _)
  have hsorted : (sortedBy Eigenpair.value (dense.symmetric a)).Pairwise
      fun p q => p.value ≤ q.value :=
    (sortedBy_pairwise Eigenpair.value (dense.symmetric a)).imp fun hle =>
      (Scalar.ranksBefore_real _ _).mp hle
  exact ⟨_, plainRitz_refreshed_of_pos hpos, resolves_of_isEigenbasis h hpairs hsorted⟩

end Refreshed

end SubspaceEigen
