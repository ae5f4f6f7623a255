import Mathlib.LinearAlgebra.Charpoly.ToMatrix
import Mathlib.LinearAlgebra.FreeModule.PID
import Mathlib.RingTheory.Flat.TorsionFree
import Mathlib.RingTheory.SimpleRing.Principal
import SubspaceEigen.Proofs.Ritz.Compression

/-!
# Compressions to invariant spaces

On a space that a map keeps, its matrix against an orthonormal basis is the matrix of its
restriction.  So the matrix of the square is the square of the matrix, and the two have the same
eigenvalues.
-/

namespace SubspaceEigen

open scoped RealInnerProductSpace
open Column

variable {n : ℕ} {f : Euclid n →ₗ[ℝ] Euclid n} {cs : Columns ℝ n}

/-- The eigenvalues of a map on a space that it keeps, with multiplicity. -/
noncomputable def eigenvaluesOn (f : Euclid n →ₗ[ℝ] Euclid n) (s : Submodule ℝ (Euclid n))
    (hmaps : ∀ p ∈ s, f p ∈ s) : Multiset ℝ :=
  (f.restrict hmaps).charpoly.roots

namespace Columns

/-- A space is kept if the images of the columns lie in it. -/
theorem map_mem_span (h : ∀ x ∈ cs, f (point x) ∈ cs.span) : ∀ p ∈ cs.span, f p ∈ cs.span := by
  have hle : cs.span ≤ cs.span.comap f := by
    refine Submodule.span_le.mpr ?_
    rintro _ ⟨j, rfl⟩
    exact h _ (Array.getElem_mem _)
  exact hle

theorem exists_embed_eq {p : Euclid n} (hp : p ∈ cs.span) : ∃ u, cs.embed u = p := by
  obtain ⟨c, hc⟩ := (Submodule.mem_span_range_iff_exists_fun ℝ).mp hp
  exact ⟨WithLp.toLp 2 c, hc⟩

namespace IsOrthonormal

theorem embed_injective (h : cs.IsOrthonormal) : Function.Injective cs.embed := by
  intro u v huv
  rw [← sub_eq_zero, ← norm_eq_zero, ← h.norm_embed, map_sub, huv, sub_self, norm_zero]

noncomputable def spanEquiv (h : cs.IsOrthonormal) : Euclid cs.size ≃ₗ[ℝ] cs.span :=
  LinearEquiv.ofBijective (cs.embed.codRestrict cs.span cs.embed_mem_span) (by
    constructor
    · intro u v huv
      exact h.embed_injective (congrArg Subtype.val huv)
    · rintro ⟨p, hp⟩
      obtain ⟨u, rfl⟩ := exists_embed_eq hp
      exact ⟨u, rfl⟩)

/-- On a space that the map keeps, its matrix loses nothing. -/
theorem embed_compression (h : cs.IsOrthonormal) (hmaps : ∀ p ∈ cs.span, f p ∈ cs.span)
    (u : Euclid cs.size) : cs.embed ((cs.compression f).toLinearMap u) = f (cs.embed u) := by
  obtain ⟨w, hw⟩ := exists_embed_eq (hmaps _ (cs.embed_mem_span u))
  have hinner : ∀ v, ⟪v, (cs.compression f).toLinearMap u⟫ = ⟪v, w⟫ := by
    intro v
    rw [inner_compression, ← hw, h.inner_embed]
  rw [ext_inner_left ℝ hinner, hw]

theorem compression_comp (h : cs.IsOrthonormal) (hmaps : ∀ p ∈ cs.span, f p ∈ cs.span) :
    (cs.compression (f ∘ₗ f)).toLinearMap =
      (cs.compression f).toLinearMap ∘ₗ (cs.compression f).toLinearMap := by
  refine LinearMap.ext fun u => h.embed_injective ?_
  have htwice : ∀ p ∈ cs.span, (f ∘ₗ f) p ∈ cs.span := fun p hp => hmaps (f p) (hmaps p hp)
  rw [h.embed_compression htwice, LinearMap.comp_apply,
    LinearMap.comp_apply, h.embed_compression hmaps, h.embed_compression hmaps]

theorem eigenvaluesOn_span (h : cs.IsOrthonormal) (hmaps : ∀ p ∈ cs.span, f p ∈ cs.span) :
    eigenvaluesOn f cs.span hmaps = (cs.compression f).toLinearMap.charpoly.roots := by
  have hconj : h.spanEquiv.conj (cs.compression f).toLinearMap = f.restrict hmaps := by
    refine LinearMap.ext fun p => Subtype.ext ?_
    obtain ⟨u, rfl⟩ := h.spanEquiv.surjective p
    rw [LinearEquiv.conj_apply_apply, LinearEquiv.symm_apply_apply]
    exact h.embed_compression hmaps u
  rw [eigenvaluesOn, ← hconj, LinearEquiv.charpoly_conj]

theorem ker_compression (h : cs.IsOrthonormal) (hmaps : ∀ p ∈ cs.span, f p ∈ cs.span)
    (hinjective : ∀ p ∈ cs.span, f p = 0 → p = 0) :
    LinearMap.ker (cs.compression f).toLinearMap = ⊥ := by
  rw [LinearMap.ker_eq_bot']
  intro u hu
  have hembed : f (cs.embed u) = 0 := by
    rw [← h.embed_compression hmaps, hu, map_zero]
  refine h.embed_injective ?_
  rw [hinjective _ (cs.embed_mem_span u) hembed, map_zero]

end IsOrthonormal

end Columns

end SubspaceEigen
