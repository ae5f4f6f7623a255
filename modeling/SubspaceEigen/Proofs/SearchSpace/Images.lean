import SubspaceEigen.SearchSpace
import SubspaceEigen.Proofs.Operator.Linear
import SubspaceEigen.Proofs.Orthogonal.GramSchmidt
import SubspaceEigen.Proofs.Orthogonal.Triangular

/-!
# The images that a search space keeps

A search space keeps images of leading basis columns from round to round.  They are of use as long
as the leading columns are still the ones they were formed from; this module says what that means
and which operations respect it.  An update then gives the images of the whole basis.
-/

namespace SubspaceEigen

open scoped RealInnerProductSpace
open Column

variable {n : ℕ}

noncomputable def Columns.compress (cs : Columns ℝ n) (f : Euclid n →ₗ[ℝ] Euclid n) : Block ℝ :=
  ⟨cs.size, Array.ofFn fun j : Fin cs.size => Vector.ofFn fun i : Fin cs.size =>
    ⟪cs.family i, f (cs.family j)⟫⟩

theorem Columns.gram_map_through (cs : Columns ℝ n) (f : Euclid n →ₗ[ℝ] Euclid n) :
    (⟨cs.size, cs.gram (cs.map (through f))⟩ : Block ℝ) = cs.compress f := by
  unfold compress gram
  congr 1
  apply Array.ext
  · simp
  · intro j hj hj'
    simp [dot_eq_inner, family]

namespace SearchSpace

/-- The kept columns are the images of the first `computed` basis columns, and there are no others
unless these are about to be formed anew. -/
structure Caches (f : Euclid n →ₗ[ℝ] Euclid n) (basis : Columns ℝ n) (computed : ℕ)
    (kept : Columns ℝ n) : Prop where
  leading : kept.extract 0 computed = (basis.extract 0 computed).map (through f)
  size_eq : kept.size = computed ∨ computed = 0 ∧ 0 < basis.size

/-- The basis is orthonormal, and the images that the space keeps are those of leading basis
columns. -/
structure Tracks (f : Euclid n →ₗ[ℝ] Euclid n) (s : SearchSpace ℝ n) : Prop where
  orthonormal : s.basis.IsOrthonormal
  computed_le : s.computed ≤ s.basis.size
  image : Caches f s.basis s.computed s.image
  second : ∀ kept ∈ s.second, Caches (f ∘ₗ f) s.basis s.computed kept

noncomputable def refreshed (f : Euclid n →ₗ[ℝ] Euclid n) (s : SearchSpace ℝ n) :
    SearchSpace ℝ n :=
  { s with
    image := s.basis.map (through f)
    second := s.second.map fun _ => s.basis.map (through (f ∘ₗ f))
    projected := s.basis.compress f
    computed := s.basis.size }

namespace Caches

variable {f : Euclid n →ₗ[ℝ] Euclid n} {basis kept : Columns ℝ n} {computed : ℕ}

theorem computed_le (h : Caches f basis computed kept) : computed ≤ kept.size := by
  rcases h.size_eq with heq | ⟨hzero, -⟩
  · exact heq.ge
  · rw [hzero]
    exact Nat.zero_le _

theorem append_fresh (h : Caches f basis computed kept) :
    kept.extract 0 computed ++ (basis.extract computed basis.size).map (through f) =
      basis.map (through f) := by
  rw [h.leading, ← Array.map_append]
  simp

theorem eq_map (h : Caches f basis computed kept) (hle : computed ≤ basis.size)
    (hnone : basis.size ≤ computed) : kept = basis.map (through f) := by
  have hsize : kept.size = computed := by
    rcases h.size_eq with heq | ⟨hzero, hpos⟩
    · exact heq
    · omega
  have hleading := h.leading
  rw [← hsize, Array.extract_size, hsize, le_antisymm hle hnone, Array.extract_size] at hleading
  exact hleading

theorem of_map (f : Euclid n →ₗ[ℝ] Euclid n) (basis : Columns ℝ n) :
    Caches f basis basis.size (basis.map (through f)) where
  leading := by simp
  size_eq := .inl (by simp)

theorem empty (f : Euclid n →ₗ[ℝ] Euclid n) (basis : Columns ℝ n) : Caches f basis 0 #[] where
  leading := by simp
  size_eq := .inl rfl

/-- Columns appended to the basis do not concern the kept images. -/
theorem append (h : Caches f basis computed kept) (hle : computed ≤ basis.size)
    (added : Columns ℝ n) : Caches f (basis ++ added) computed kept where
  leading := by
    rw [h.leading, Array.extract_append, Nat.sub_eq_zero_of_le hle]
    simp
  size_eq := h.size_eq.imp id fun hzero => ⟨hzero.1, by rw [Array.size_append]; omega⟩

/-- Where no image counts any more, the basis may be any other that is not empty without need. -/
theorem lose (h : Caches f basis computed kept) (hle : computed ≤ basis.size)
    {other : Columns ℝ n} (hpos : 0 < basis.size → 0 < other.size) : Caches f other 0 kept where
  leading := by simp
  size_eq := by
    rcases Nat.eq_zero_or_pos basis.size with hzero | hbasis
    · rcases h.size_eq with heq | ⟨-, hbasis⟩
      · exact .inl (by omega)
      · omega
    · exact .inr ⟨rfl, hpos hbasis⟩

end Caches

variable {f : Euclid n →ₗ[ℝ] Euclid n} {s : SearchSpace ℝ n}

theorem tracks_start {basis : Columns ℝ n} (h : basis.IsOrthonormal) (tracked : ℕ)
    (harmonic : Bool) : Tracks f (start basis tracked harmonic) where
  orthonormal := h
  computed_le := Nat.zero_le _
  image := .empty f basis
  second kept hkept := by
    cases harmonic with
    | false => cases hkept
    | true =>
        obtain rfl := Option.mem_some.mp hkept
        exact .empty _ basis

theorem tracks_restart (s : SearchSpace ℝ n) {basis : Columns ℝ n} (h : basis.IsOrthonormal) :
    Tracks f (s.restart basis) where
  orthonormal := h
  computed_le := Nat.zero_le _
  image := .empty f basis
  second kept hkept := by
    obtain ⟨_, -, rfl⟩ := Option.mem_map.mp hkept
    exact .empty _ basis

theorem tracks_refreshed (h : Tracks f s) : Tracks f (s.refreshed f) where
  orthonormal := h.orthonormal
  computed_le := le_rfl
  image := .of_map f s.basis
  second kept hkept := by
    obtain ⟨_, -, rfl⟩ := Option.mem_map.mp hkept
    exact .of_map _ s.basis

theorem store_eq (h : Tracks f s) :
    s.store ⟨n, (s.basis.extract s.computed s.basis.size).map (through f)⟩
        (s.second.map fun _ =>
          ⟨n, (s.basis.extract s.computed s.basis.size).map (through (f ∘ₗ f))⟩) =
      .ok (s.refreshed f) := by
  have hcolumns : ∀ cs : Columns ℝ n, (⟨n, cs⟩ : Block ℝ).columnsOf n = .ok cs := by
    intro cs
    simp [Block.columnsOf]
  unfold store
  cases hsecond : s.second with
  | none =>
      simp only [hcolumns, bind, Except.bind, pure, Except.pure]
      rw [h.image.append_fresh, project, refreshed, hsecond]
      simp [against, Columns.gram_map_through]
  | some kept =>
      have hkept := h.second kept hsecond
      simp only [hcolumns, Option.map_some, bind, Except.bind, pure, Except.pure]
      rw [h.image.append_fresh, hkept.append_fresh, project, refreshed, hsecond]
      simp [against, Columns.gram_map_through]

/-- An update brings the images of the whole basis, and it never faults. -/
theorem update_eq (h : Tracks f s) {op : LinearOperator ℝ} (hop : op.ActsAs f) :
    (s.update op).outcome = .ok (s.refreshed f) := by
  unfold update
  split
  · next hnone =>
    have himage := h.image.eq_map h.computed_le hnone
    have hsecond : (s.second.map fun _ => s.basis.map (through (f ∘ₗ f))) = s.second := by
      cases hs : s.second with
      | none => rfl
      | some kept => rw [Option.map_some, ((h.second kept hs).eq_map h.computed_le hnone)]
    have hcomputed : s.computed = s.basis.size := le_antisymm h.computed_le hnone
    rw [project, refreshed, hsecond, ← hcomputed, himage, against, Columns.gram_map_through]
  · have hstore := store_eq h
    have htwice : ((s.basis.extract s.computed s.basis.size).map (through f)).map (through f) =
        (s.basis.extract s.computed s.basis.size).map (through (f ∘ₗ f)) := by
      rw [Array.map_map]
      congr 1
      funext x
      simp [through]
    cases hsecond : s.second with
    | none =>
        rw [hsecond] at hstore
        simp only [hop _]
        exact hstore
    | some kept =>
        rw [hsecond, Option.map_some, ← htwice] at hstore
        simp only [hop _]
        exact hstore

section Extend

variable {dense : Factorizations ℝ} {basis block : Columns ℝ n}

theorem orthonormalize_isOrthonormal (hd : dense.TriangularExact) (method : Orthogonalization)
    (h : basis.IsOrthonormal) (block : Columns ℝ n) :
    (orthonormalize dense method (basis ++ block) basis.size).IsOrthonormal := by
  cases method with
  | gramSchmidt =>
      apply gramSchmidt_isOrthonormal
      simpa using h
  | qr => exact qrOrthonormalize_isOrthonormal hd _

theorem orthonormalize_eq_self (hd : dense.TriangularExact) (method : Orthogonalization)
    {v : Columns ℝ n} (h : v.IsOrthonormal) (start : ℕ) :
    orthonormalize dense method v start = v := by
  cases method with
  | gramSchmidt => exact gramSchmidt_eq_self h start
  | qr => exact qrOrthonormalize_eq_self hd h

/-- An extension keeps the basis in place, unless a triangular factorization has a diagonal entry
beside which unit columns are negligible. -/
theorem orthonormalize_append (hd : dense.TriangularExact) (method : Orthogonalization)
    (h : basis.IsOrthonormal) (block : Columns ℝ n) :
    (∃ added, orthonormalize dense method (basis ++ block) basis.size = basis ++ added) ∨
      method = .qr ∧
        1 ≤ dependenceTolerance * (dense.triangular (basis ++ block)).largestPivot := by
  cases method with
  | gramSchmidt => exact .inl (gramSchmidt_append h)
  | qr =>
      rcases lt_or_ge (dependenceTolerance * (dense.triangular (basis ++ block)).largestPivot) 1
        with hsmall | hlarge
      · exact .inl (qrOrthonormalize_append hd h hsmall)
      · exact .inr ⟨rfl, hlarge⟩

theorem tolerance_mul_largestPivot_lt_one (hd : dense.TriangularExact) (h : basis.IsOrthonormal)
    (hblock : ∀ x ∈ block, ‖point x‖ ≤ 1) :
    dependenceTolerance * (dense.triangular (basis ++ block)).largestPivot < 1 := by
  have hone : (dense.triangular (basis ++ block)).largestPivot ≤ 1 := by
    apply (hd _).largestPivot_le_one
    intro x hx
    rcases Array.mem_append.mp hx with hx | hx
    · exact (h.norm_eq_one hx).le
    · exact hblock x hx
  nlinarith [dependenceTolerance_pos, dependenceTolerance_lt_one]

theorem orthonormalize_append_of_norm_le_one (hd : dense.TriangularExact)
    (method : Orthogonalization) (h : basis.IsOrthonormal) (hblock : ∀ x ∈ block, ‖point x‖ ≤ 1) :
    ∃ added, orthonormalize dense method (basis ++ block) basis.size = basis ++ added := by
  rcases orthonormalize_append hd method h block with hkept | ⟨-, hlarge⟩
  · exact hkept
  · exact absurd hlarge (not_le.mpr (tolerance_mul_largestPivot_lt_one hd h hblock))

/-- An extension puts as many new columns, or more, in the place of the old ones: beside the block
unit columns are negligible, and what is kept of it does not fall short of the old basis. -/
def Displaces (dense : Factorizations ℝ) (method : Orthogonalization)
    (basis block : Columns ℝ n) : Prop :=
  method = .qr ∧
    1 ≤ dependenceTolerance * (dense.triangular (basis ++ block)).largestPivot ∧
      basis.size ≤ (qrOrthonormalize dense (basis ++ block)).size

theorem not_displaces_of_norm_le_one (hd : dense.TriangularExact) (method : Orthogonalization)
    (h : basis.IsOrthonormal) (hblock : ∀ x ∈ block, ‖point x‖ ≤ 1) :
    ¬ Displaces dense method basis block := by
  rintro ⟨-, hlarge, -⟩
  exact absurd hlarge (not_le.mpr (tolerance_mul_largestPivot_lt_one hd h hblock))

theorem tracks_extend (hd : dense.TriangularExact) (method : Orthogonalization)
    (h : Tracks f s) (block : Columns ℝ n)
    (hsafe : 0 < s.computed → ¬ Displaces dense method s.basis block) :
    Tracks f (s.extend dense method block).1 := by
  have horth := orthonormalize_isOrthonormal hd method h.orthonormal block
  rcases orthonormalize_append hd method h.orthonormal block with ⟨added, hadded⟩ | ⟨rfl, hlarge⟩
  · have hsize : ¬ (s.basis ++ added).size < s.basis.size := by
      rw [Array.size_append]
      omega
    unfold extend
    simp only [hadded, if_neg hsize]
    exact {
      orthonormal := hadded ▸ horth
      computed_le := by
        simp only [Array.size_append]
        exact h.computed_le.trans (Nat.le_add_right _ _)
      image := h.image.append h.computed_le added
      second := fun kept hkept => (h.second kept hkept).append h.computed_le added }
  · have hcomputed : (s.extend dense .qr block).1.computed = 0 := by
      change (if _ < _ then 0 else s.computed) = 0
      split
      · rfl
      · next hnot =>
        by_contra hpos
        exact hsafe (Nat.pos_of_ne_zero hpos) ⟨rfl, hlarge, not_lt.mp hnot⟩
    have hpos : 0 < s.basis.size → 0 < (qrOrthonormalize dense (s.basis ++ block)).size :=
      size_qrOrthonormalize_pos hd h.orthonormal
    refine ⟨horth, ?_, ?_, ?_⟩
    · rw [hcomputed]
      exact Nat.zero_le _
    · rw [hcomputed]
      exact h.image.lose h.computed_le hpos
    · intro kept hkept
      rw [hcomputed]
      exact (h.second kept hkept).lose h.computed_le hpos

end Extend

end SearchSpace

end SubspaceEigen
