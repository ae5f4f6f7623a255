import Mathlib.Data.List.Basic
import SubspaceEigen.Dense.Standard

/-!
# The shapes that factorizations have

Whatever the arithmetic, a factorization gives back no more than fits: a triangular one not more
columns than there are rows or columns, the others not more eigenpairs or eigenvalues than the
matrix has rows.  The standard factorizations have these shapes, since rotations and steps keep the
number of entries and a matrix that falls apart does so into blocks that make up all of it.
-/

namespace SubspaceEigen

variable {α : Type} [Scalar α] {n : ℕ}

/-- The factorizations give back no more than the shapes of their arguments allow. -/
structure Factorizations.Shaped (dense : Factorizations α) : Prop where
  order_le : ∀ {n : ℕ} (v : Columns α n), (dense.triangular v).order ≤ min n v.size
  length_symmetric_le : ∀ {n : ℕ} (a : Square α n), (dense.symmetric a).length ≤ n
  length_eigenvalues_le : ∀ {n : ℕ} (a : Square α n) {values : List (ComplexNumber α)},
    dense.eigenvalues a = some values → values.length ≤ n

namespace Tridiagonal

theorem length_settle (nodes : List (Node α n)) :
    (settle nodes).1.length + (settle nodes).2.length = nodes.length := by
  fun_induction settle nodes with
  | case1 last before rest hlink => simp
  | case2 last before rest hlink settled linked hsettle ih =>
      rw [hsettle] at ih
      simp only [List.length_cons] at ih ⊢
      omega
  | case3 nodes hshort => simp

theorem length_segment (nodes : List (Node α n)) :
    (segment nodes).1.length + (segment nodes).2.length = nodes.length := by
  fun_induction segment nodes with
  | case1 last before rest hlink => simp; omega
  | case2 last before rest hlink part others hsegment ih =>
      rw [hsegment] at ih
      simp only [List.length_cons] at ih ⊢
      omega
  | case3 nodes hshort => simp

theorem length_chase (node : Node α n) (x z : α) (rest : List (Node α n)) :
    (chase node x z rest).length = rest.length + 1 := by
  fun_induction chase node x z rest with
  | case1 => simp
  | case2 => simp
  | case3 => simp_all
  | case4 => simp_all

theorem length_sweep (shift : α) (nodes : List (Node α n)) :
    (sweep shift nodes).length = nodes.length := by
  unfold sweep
  split
  · rw [length_chase]
    rfl
  · rfl

theorem length_solve (fuel : ℕ) (nodes : List (Node α n)) :
    (solve fuel nodes).length = nodes.length := by
  induction fuel generalizing nodes with
  | zero => rfl
  | succ fuel ih =>
      have hsettle := length_settle nodes
      have hsegment := length_segment (settle nodes).2
      rw [solve, List.length_append]
      split
      · next second first others h =>
        rw [h] at hsegment
        simp only [List.length_cons, ih, List.length_nil] at hsegment ⊢
        omega
      · next last before part others h =>
        rw [h] at hsegment
        simp only [List.length_append, List.length_reverse, ih, length_sweep, List.length_cons]
          at hsegment ⊢
        omega
      · next part others h =>
        rw [h] at hsegment
        simp only [List.length_append] at hsegment ⊢
        omega

theorem length_chain_le (a : Square α n) : (chain a).length ≤ n := by
  simp only [chain, List.length_reverse, List.length_zipWith, List.length_finRange]
  exact Nat.min_le_right _ _

theorem length_eigenpairs_le (a : Square α n) : (eigenpairs a).length ≤ n := by
  simp only [eigenpairs, List.length_map, List.length_reverse, length_solve]
  exact length_chain_le _

end Tridiagonal

namespace Hessenberg

theorem length_pair (unit : α) (a : Square α 2) : (pair unit a).length = 2 := by
  simp only [pair]
  split
  · rfl
  split
  · exact (apply_ite List.length _ _ _).trans (ite_self 2)
  · rfl

theorem cut?_le {a : Square α n} {i : ℕ} (h : cut? a = some i) : i ≤ n :=
  Nat.le_of_lt (List.mem_range.mp (List.mem_of_find?_eq_some h))

/-- The blocks of a matrix that falls apart have as many eigenvalues together as it has rows. -/
theorem length_solve (unit : α) (fuel : ℕ) (a : Square α n) {values : List (ComplexNumber α)}
    (h : solve unit fuel a = some values) : values.length = n := by
  induction fuel generalizing n values with
  | zero => cases h
  | succ fuel ih =>
      unfold solve at h
      split at h
      · next i hcut =>
        simp only [Option.bind_eq_bind, Option.bind_eq_some_iff, Option.some_inj] at h
        obtain ⟨left, hleft, right, hright, rfl⟩ := h
        have hle := cut?_le hcut
        rw [List.length_append, ih _ hleft, ih _ hright]
        omega
      · split at h
        · obtain rfl := Option.some.inj h
          rfl
        · obtain rfl := Option.some.inj h
          rfl
        · obtain rfl := Option.some.inj h
          exact length_pair _ _
        · exact ih _ h

theorem length_eigenvalues (a : Square α n) {values : List (ComplexNumber α)}
    (h : eigenvalues a = some values) : values.length = n := by
  unfold eigenvalues at h
  split at h
  · obtain rfl := Option.some.inj h
    rfl
  · obtain rfl := Option.some.inj h
    rfl
  · obtain rfl := Option.some.inj h
    exact length_pair _ _
  · simp only at h
    split at h
    · cases h
    · exact length_solve _ _ _ h

end Hessenberg

theorem Factorizations.standard_shaped : (Factorizations.standard : Factorizations α).Shaped where
  order_le _ := Nat.le_refl _
  length_symmetric_le := Tridiagonal.length_eigenpairs_le
  length_eigenvalues_le a _ h := Nat.le_of_eq (Hessenberg.length_eigenvalues a h)

end SubspaceEigen
