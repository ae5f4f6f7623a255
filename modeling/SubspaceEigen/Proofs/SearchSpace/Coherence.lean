import SubspaceEigen.Proofs.Dense.Supply
import SubspaceEigen.Proofs.SearchSpace.Images

/-!
# Coherence of search spaces

A caller updates, extends and restarts a search space in any order.  After every update the images,
the projected matrix and the metric should be those of the basis, and in between the kept images
should be images of leading basis columns.

A triangular factorization drops columns whose diagonal entry is negligible beside the largest one,
so a block of very long columns can drive out the basis it was added to.  The space notices this
only when fewer columns are left than there were.  Coherence holds for all operators exactly as long
as no extension replaces columns with kept images by as many others.
-/

namespace SubspaceEigen

open scoped RealInnerProductSpace
open Column

inductive SpaceOperation (α : Type) (n : ℕ) where
  | update
  | extend (method : Orthogonalization) (block : Columns α n)
  | restart (basis : Columns α n)

namespace SearchSpace

/-- The space after an operation. -/
def perform {α : Type} [Scalar α] {n : ℕ} (dense : Factorizations α) (op : LinearOperator α)
    (s : SearchSpace α n) : SpaceOperation α n → Except Fault (SearchSpace α n)
  | .update => (s.update op).outcome
  | .extend method block => .ok (s.extend dense method block).1
  | .restart basis => .ok (s.restart basis)

variable {n : ℕ} {f : Euclid n →ₗ[ℝ] Euclid n} {s : SearchSpace ℝ n} {dense : Factorizations ℝ}

/-- The basis is orthonormal, and the first `computed` columns of the kept images are the images of
its first columns. -/
structure Coherent (f : Euclid n →ₗ[ℝ] Euclid n) (s : SearchSpace ℝ n) : Prop where
  orthonormal : s.basis.IsOrthonormal
  computed_le : s.computed ≤ s.basis.size
  image : s.image.extract 0 s.computed = (s.basis.extract 0 s.computed).map (through f)
  second : ∀ kept ∈ s.second,
    kept.extract 0 s.computed = (s.basis.extract 0 s.computed).map (through (f ∘ₗ f))

/-- The basis `V` is orthonormal, no column is pending, and the space holds `f(V)`, `Vᵀ f(V)` and,
if it is harmonic, `Vᵀ f(f(V))`. -/
structure UpToDate (f : Euclid n →ₗ[ℝ] Euclid n) (harmonic : Bool) (s : SearchSpace ℝ n) :
    Prop where
  orthonormal : s.basis.IsOrthonormal
  pending : s.pending = 0
  image : s.image = s.basis.map (through f)
  projected : s.projected = s.basis.compress f
  metric : s.metric? = if harmonic then some (s.basis.compress (f ∘ₗ f)) else none

/-- The space is coherent before and after each of the operations, none of which faults, and up to
date after every update. -/
def CoherentAlong (dense : Factorizations ℝ) (op : LinearOperator ℝ)
    (f : Euclid n →ₗ[ℝ] Euclid n) (harmonic : Bool) :
    SearchSpace ℝ n → List (SpaceOperation ℝ n) → Prop
  | s, [] => Coherent f s
  | s, operation :: rest =>
      Coherent f s ∧ ∃ next, s.perform dense op operation = .ok next ∧
        (operation = .update → UpToDate f harmonic next) ∧
          CoherentAlong dense op f harmonic next rest

/-- Some extension puts as many new columns in the place of old ones of which images are kept.  The
basis and the number of kept images do not depend on the operator. -/
def Displaced (dense : Factorizations ℝ) : Columns ℝ n → ℕ → List (SpaceOperation ℝ n) → Prop
  | _, _, [] => False
  | basis, _, .update :: rest => Displaced dense basis basis.size rest
  | basis, computed, .extend method block :: rest =>
      let next := orthonormalize dense method (basis ++ block) basis.size
      0 < computed ∧ Displaces dense method basis block ∨
        Displaced dense next (if next.size < basis.size then 0 else computed) rest
  | _, _, .restart basis :: rest => Displaced dense basis 0 rest

theorem Tracks.coherent (h : Tracks f s) : Coherent f s where
  orthonormal := h.orthonormal
  computed_le := h.computed_le
  image := h.image.leading
  second := fun kept hkept => (h.second kept hkept).leading

theorem Tracks.upToDate_refreshed (h : Tracks f s) :
    UpToDate f s.second.isSome (s.refreshed f) where
  orthonormal := h.orthonormal
  pending := Nat.sub_self _
  image := rfl
  projected := rfl
  metric := by
    cases hsecond : s.second with
    | none => simp [metric?, refreshed, hsecond]
    | some kept =>
        simp [metric?, refreshed, hsecond]
        exact s.basis.gram_map_through (f ∘ₗ f)

theorem CoherentAlong.coherent {op : LinearOperator ℝ} {harmonic : Bool}
    {operations : List (SpaceOperation ℝ n)}
    (h : CoherentAlong dense op f harmonic s operations) : Coherent f s := by
  cases operations with
  | nil => exact h
  | cons operation rest => exact h.1

/-- Without displacement, coherence goes from each operation to the next. -/
theorem Tracks.coherentAlong (hd : dense.TriangularExact) {op : LinearOperator ℝ}
    (hop : op.ActsAs f) (operations : List (SpaceOperation ℝ n))
    (hrestart : ∀ basis, .restart basis ∈ operations → basis.IsOrthonormal)
    (h : Tracks f s) (hsafe : ¬ Displaced dense s.basis s.computed operations) :
    CoherentAlong dense op f s.second.isSome s operations := by
  induction operations generalizing s with
  | nil => exact h.coherent
  | cons operation rest ih =>
      have hrest : ∀ basis, .restart basis ∈ rest → basis.IsOrthonormal :=
        fun basis hbasis => hrestart basis (List.mem_cons_of_mem _ hbasis)
      refine ⟨h.coherent, ?_⟩
      cases operation with
      | update =>
          refine ⟨s.refreshed f, update_eq h hop, fun _ => h.upToDate_refreshed, ?_⟩
          have hnext := ih hrest (tracks_refreshed h) hsafe
          rwa [refreshed, Option.isSome_map] at hnext
      | extend method block =>
          obtain ⟨hplace, hlater⟩ := not_or.mp hsafe
          have hnext := tracks_extend hd method h block fun hpos hdisp => hplace ⟨hpos, hdisp⟩
          exact ⟨_, rfl, fun hupdate => absurd hupdate (by simp), ih hrest hnext hlater⟩
      | restart basis =>
          have hbasis := hrestart basis (List.mem_cons_self ..)
          have hnext := ih hrest (tracks_restart s hbasis) hsafe
          rw [restart, Option.isSome_map] at hnext
          exact ⟨_, rfl, fun hupdate => absurd hupdate (by simp), hnext⟩

/-- Under the identity a displaced space is not coherent: the image of the first column is the old
column, which the new one is orthogonal to. -/
theorem not_coherent_of_displaces (hd : dense.TriangularExact) {method : Orthogonalization}
    {block : Columns ℝ n} (h : Coherent LinearMap.id s) (hpos : 0 < s.computed)
    (hdisp : Displaces dense method s.basis block) :
    ¬ Coherent LinearMap.id (s.extend dense method block).1 := by
  obtain ⟨rfl, hlarge, hsize⟩ := hdisp
  intro hnext
  have hcomputed : (s.extend dense .qr block).1.computed = s.computed :=
    if_neg (not_lt.mpr hsize)
  have hleading : s.basis.extract 0 s.computed =
      (qrOrthonormalize dense (s.basis ++ block)).extract 0 s.computed := by
    have hafter := hnext.image
    rw [hcomputed, through_id, Array.map_id] at hafter
    have hbefore := h.image
    rw [through_id, Array.map_id] at hbefore
    exact hbefore.symm.trans hafter
  have hold : 0 < s.basis.size := hpos.trans_le h.computed_le
  have hnew : 0 < (qrOrthonormalize dense (s.basis ++ block)).size := hold.trans_le hsize
  have hfirst : s.basis[0] = (qrOrthonormalize dense (s.basis ++ block))[0] := by
    have hget := congrArg (fun cs : Columns ℝ n => cs[0]?) hleading
    simpa [Array.getElem?_extract, hpos, hold, hnew, h.computed_le] using hget
  have horth := inner_qrOrthonormalize_eq_zero hd h.orthonormal hlarge (Array.getElem_mem hnew)
    (Array.getElem_mem hold)
  rw [← hfirst, real_inner_self_eq_norm_sq,
    h.orthonormal.norm_eq_one (Array.getElem_mem hold)] at horth
  norm_num at horth

theorem Tracks.not_displaced (hd : dense.TriangularExact) {op : LinearOperator ℝ}
    (hop : op.ActsAs (LinearMap.id : Euclid n →ₗ[ℝ] Euclid n)) {harmonic : Bool}
    (operations : List (SpaceOperation ℝ n))
    (hrestart : ∀ basis, .restart basis ∈ operations → basis.IsOrthonormal)
    (h : Tracks LinearMap.id s)
    (halong : CoherentAlong dense op LinearMap.id harmonic s operations) :
    ¬ Displaced dense s.basis s.computed operations := by
  induction operations generalizing s with
  | nil => exact not_false
  | cons operation rest ih =>
      have hrest : ∀ basis, .restart basis ∈ rest → basis.IsOrthonormal :=
        fun basis hbasis => hrestart basis (List.mem_cons_of_mem _ hbasis)
      obtain ⟨-, next, hnext, -, hlater⟩ := halong
      cases operation with
      | update =>
          rw [perform, update_eq h hop] at hnext
          obtain rfl := Except.ok.inj hnext
          exact ih hrest (tracks_refreshed h) hlater
      | extend method block =>
          obtain rfl := Except.ok.inj hnext
          have hplace : 0 < s.computed → ¬ Displaces dense method s.basis block :=
            fun hpos hdisp =>
              not_coherent_of_displaces hd h.coherent hpos hdisp hlater.coherent
          rintro (⟨hpos, hdisp⟩ | hdisplaced)
          · exact hplace hpos hdisp
          · exact ih hrest (tracks_extend hd method h block hplace) hlater hdisplaced
      | restart basis =>
          obtain rfl := Except.ok.inj hnext
          exact ih hrest (tracks_restart s (hrestart basis (List.mem_cons_self ..))) hlater

/-- A column orthogonal to a basis of one column displaces it when its norm is at least `10 ^ 10`. -/
theorem displaces_of_long_column (hd : dense.TriangularExact) {basis : Columns ℝ n}
    (hbasis : basis.IsOrthonormal) (hone : basis.size = 1) (hn : 2 ≤ n) {x : Vector ℝ n}
    (horth : ∀ p ∈ basis.points, ⟪p, point x⟫ = 0)
    (hlong : 1 ≤ dependenceTolerance * ‖point x‖) : Displaces dense .qr basis #[x] := by
  have hf := hd (basis ++ #[x])
  have horder : 1 < (dense.triangular (basis ++ #[x])).order := by
    rw [hf.order_eq, Array.size_append, hone]
    simp only [List.size_toArray, List.length_cons, List.length_nil]
    omega
  have hdiagonal := hf.abs_diagonal_of_orthogonal hbasis (by simp) horth ⟨1, horder⟩ hone.symm
  have hpivot : ‖point x‖ ≤ (dense.triangular (basis ++ #[x])).largestPivot := by
    have hle := (dense.triangular (basis ++ #[x])).abs_diagonal_le ⟨1, horder⟩
    rw [hdiagonal] at hle
    exact hle
  refine ⟨rfl, hlong.trans ?_, ?_⟩
  · exact mul_le_mul_of_nonneg_left hpivot dependenceTolerance_pos.le
  · rw [hone]
    exact size_qrOrthonormalize_pos hd hbasis (by omega)

/-- A space stays coherent under every linear operator exactly when no extension displaces columns
of which images are kept. -/
theorem coherentAlong_iff_not_displaced (hd : dense.TriangularExact) {basis : Columns ℝ n}
    (hbasis : basis.IsOrthonormal) (tracked : ℕ) (harmonic : Bool)
    (operations : List (SpaceOperation ℝ n))
    (hrestart : ∀ v, .restart v ∈ operations → v.IsOrthonormal) :
    (∀ (op : LinearOperator ℝ) (f : Euclid n →ₗ[ℝ] Euclid n), op.ActsAs f →
        CoherentAlong dense op f harmonic (start basis tracked harmonic) operations) ↔
      ¬ Displaced dense basis 0 operations := by
  constructor
  · intro h
    exact (tracks_start hbasis tracked harmonic).not_displaced hd LinearOperator.identity_actsAs
      operations hrestart (h _ _ LinearOperator.identity_actsAs)
  · intro hsafe op f hop
    have halong := (tracks_start hbasis tracked harmonic).coherentAlong hd hop operations hrestart
      hsafe
    have hsecond : (start basis tracked harmonic).second.isSome = harmonic := by
      cases harmonic <;> rfl
    rwa [hsecond] at halong

/-- Unit columns in any order of operations do no harm: here the plane is filled up, and a restart
keeps one of its axes. -/
theorem coherentAlong_axes :
    let basis : Columns ℝ 2 := #[Column.unit 2 0]
    let operations : List (SpaceOperation ℝ 2) :=
      [.update, .extend .qr #[Column.unit 2 1], .update, .restart #[Column.unit 2 1], .update]
    Factorizations.exact.TriangularExact ∧ basis.IsOrthonormal ∧
      (∀ v, .restart v ∈ operations → v.IsOrthonormal) ∧
        ∀ (op : LinearOperator ℝ) (f : Euclid 2 →ₗ[ℝ] Euclid 2), op.ActsAs f →
          CoherentAlong Factorizations.exact op f true (start basis 1 true) operations := by
  intro basis operations
  have hd : Factorizations.exact.TriangularExact := Factorizations.exact_triangularExact
  have hbasis : basis.IsOrthonormal := Columns.isOrthonormal_unit (0 : Fin 2)
  have hrestart : ∀ v, .restart v ∈ operations → v.IsOrthonormal := by
    intro v hv
    obtain rfl : v = #[Column.unit 2 1] := by simpa [operations] using hv
    exact Columns.isOrthonormal_unit (1 : Fin 2)
  refine ⟨hd, hbasis, hrestart, ?_⟩
  refine (coherentAlong_iff_not_displaced hd hbasis 1 true operations hrestart).mpr ?_
  have hsafe : ¬ Displaces Factorizations.exact .qr basis #[Column.unit 2 1] := by
    apply not_displaces_of_norm_le_one hd .qr hbasis
    intro x hx
    obtain rfl : x = Column.unit 2 1 := by simpa using hx
    exact ((Columns.isOrthonormal_unit (1 : Fin 2)).norm_eq_one (by simp)).le
  simp [operations, Displaced, hsafe]

/-- A very long column costs a space its coherence: after the last update the image of the new basis
column is still that of the old one. -/
theorem not_coherentAlong_long_column :
    ¬ ∀ (op : LinearOperator ℝ) (f : Euclid 2 →ₗ[ℝ] Euclid 2), op.ActsAs f →
      CoherentAlong Factorizations.exact op f false (start #[Column.unit 2 0] 1 false)
        [.update, .extend .qr #[#v[0, 1e11]], .update] := by
  intro h
  have hd : Factorizations.exact.TriangularExact := Factorizations.exact_triangularExact
  have hbasis : Columns.IsOrthonormal (#[Column.unit 2 0] : Columns ℝ 2) :=
    Columns.isOrthonormal_unit (0 : Fin 2)
  have hnorm : ‖point (#v[0, 1e11] : Vector ℝ 2)‖ = 1e11 := by
    rw [EuclideanSpace.norm_eq, Fin.sum_univ_two, Real.sqrt_eq_iff_mul_self_eq_of_pos (by norm_num)]
    norm_num [point_apply]
  have hdisp : Displaces Factorizations.exact .qr #[Column.unit 2 0]
      #[(#v[0, 1e11] : Vector ℝ 2)] := by
    apply displaces_of_long_column hd hbasis rfl le_rfl
    · intro p hp
      obtain rfl : p = point (Column.unit 2 0) := by simpa [Columns.points] using hp
      rw [← dot_eq_inner]
      norm_num [dot, sum_eq_sum, Column.unit, Fin.sum_univ_two]
    · rw [hnorm, dependenceTolerance]
      norm_num
  have hsafe := (tracks_start hbasis 1 false).not_displaced hd LinearOperator.identity_actsAs
    _ (by simp) (h _ _ LinearOperator.identity_actsAs)
  apply hsafe
  simp [Displaced, start, hdisp]

end SearchSpace

end SubspaceEigen
