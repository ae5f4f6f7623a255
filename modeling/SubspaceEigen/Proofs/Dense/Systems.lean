import Mathlib.Analysis.Complex.Basic
import SubspaceEigen.Eigen.General
import SubspaceEigen.Proofs.Dense.Elimination
import SubspaceEigen.Proofs.Dense.Exact
import SubspaceEigen.Proofs.Operator.Linear

/-!
# Linear systems

A system is given by its rows, which are those of a matrix.  If the matrix takes no vector but zero
to zero then the elimination succeeds, and it ends with the vector that the matrix takes to the
right-hand side.
-/

namespace SubspaceEigen

open Elimination

section Systems

variable {β : Type} {n : ℕ}

theorem toList_eq_map_finRange (x : Vector β n) :
    x.toList = (List.finRange n).map x.get := by
  apply List.ext_getElem
  · simp
  · intro j hj hj'
    simp [Vector.get]

theorem InverseIteration.toVector?_eq_some_iff {items : List β} {x : Vector β n} :
    toVector? n items = some x ↔ x.toList = items := by
  unfold toVector?
  split
  · next hlength =>
    rw [Option.some_inj]
    constructor
    · rintro rfl
      rfl
    · rintro rfl
      rfl
  · next hlength =>
    constructor
    · nofun
    · rintro rfl
      exact absurd x.length_toList hlength

def rowsOf (n : ℕ) (entry : ℕ → ℕ → β) : List (List β) :=
  (List.range n).map fun i => (List.range n).map fun j => entry i j

theorem isSquare_rowsOf (entry : ℕ → ℕ → β) : IsSquare n (rowsOf n entry) where
  height := by simp [rowsOf]
  width := by simp [rowsOf]

variable [Field β]

/-- The matrix with given entries takes one vector to another. -/
def Takes (entry : ℕ → ℕ → β) (x y : Vector β n) : Prop :=
  ∀ i : Fin n, ∑ j : Fin n, entry i j * x.get j = y.get i

/-- The matrix with given entries takes no vector but zero to zero. -/
def IsRegular (n : ℕ) (entry : ℕ → ℕ → β) : Prop :=
  ∀ x : Vector β n, (∀ i : Fin n, ∑ j : Fin n, entry i j * x.get j = 0) → ∀ z ∈ x, z = 0

theorem rowDot_range (row : ℕ → β) (x : Vector β n) :
    rowDot ((List.range n).map row) x.toList = ∑ j : Fin n, row j * x.get j := by
  rw [toList_eq_map_finRange, ← List.map_coe_finRange_eq_range, List.map_map, rowDot,
    List.zipWith_map_left, List.zipWith_map_right, List.zipWith_self, Fin.sum_univ_def]
  rfl

theorem solves_rowsOf_iff {entry : ℕ → ℕ → β} {x y : Vector β n} :
    Solves (rowsOf n entry) x.toList y.toList ↔ Takes entry x y := by
  rw [rowsOf, toList_eq_map_finRange y, ← List.map_coe_finRange_eq_range, List.map_map, Solves,
    List.forall₂_map_left_iff, List.forall₂_map_right_iff, List.forall₂_same]
  constructor
  · intro h i
    rw [← h i (List.mem_finRange i), ← rowDot_range, ← List.map_coe_finRange_eq_range]
    rfl
  · intro h i _
    rw [← h i, ← rowDot_range, ← List.map_coe_finRange_eq_range]
    rfl

theorem noKernel_rowsOf_iff {entry : ℕ → ℕ → β} :
    NoKernel n (rowsOf n entry) ↔ IsRegular n entry := by
  have hzero : ∀ x : Vector β n, (∀ row ∈ rowsOf n entry, rowDot row x.toList = 0) ↔
      ∀ i : Fin n, ∑ j : Fin n, entry i j * x.get j = 0 := by
    intro x
    simp only [rowsOf, List.forall_mem_map, List.mem_range, rowDot_range]
    exact ⟨fun h i => h i i.isLt, fun h i hi => h ⟨i, hi⟩⟩
  constructor
  · intro h x hx z hz
    exact h x.toList x.length_toList ((hzero x).mpr hx) z (Vector.mem_toList_iff.mpr hz)
  · intro h items hitems hrows z hz
    obtain ⟨x, rfl⟩ : ∃ x : Vector β n, items = x.toList := ⟨⟨items.toArray, hitems⟩, rfl⟩
    exact h x ((hzero x).mp hrows) z (Vector.mem_toList_iff.mp hz)

variable {α : Type} [Scalar α] [Pivotal β α] [BEq β] [LawfulBEq β]

/-- The solution that is computed is the vector that the matrix takes to the right-hand side. -/
theorem solve_rowsOf {entry : ℕ → ℕ → β} {steps : List (Step β)}
    (hfactor : factor? (rowsOf n entry) = some steps) (y : Vector β n) :
    ∃ x : Vector β n, InverseIteration.toVector? n (solve steps y.toList) = some x ∧
      ∀ z : Vector β n, Takes entry z y ↔ z = x := by
  have hsquare : IsSquare n (rowsOf n entry) := isSquare_rowsOf entry
  rw [factor?, hsquare.height] at hfactor
  have hsolve := solves_iff_eq_solve hfactor hsquare y.length_toList
  obtain ⟨hlength, -⟩ := (hsolve (solve steps y.toList)).mpr rfl
  obtain ⟨x, hx⟩ : ∃ x : Vector β n, x.toList = solve steps y.toList :=
    ⟨⟨(solve steps y.toList).toArray, hlength⟩, rfl⟩
  refine ⟨x, InverseIteration.toVector?_eq_some_iff.mpr hx, fun z => ?_⟩
  rw [← solves_rowsOf_iff, ← Vector.toList_inj, hx, ← hsolve z.toList]
  exact (and_iff_right z.length_toList).symm

end Systems

theorem exists_factor?_rowsOf_iff {β : Type} [Field β] [Pivotal β ℝ] [BEq β] [LawfulBEq β]
    [Faithful β] {n : ℕ} {entry : ℕ → ℕ → β} :
    (∃ steps, factor? (rowsOf n entry) = some steps) ↔ IsRegular n entry := by
  have hsquare : IsSquare n (rowsOf n entry) := isSquare_rowsOf entry
  rw [← noKernel_rowsOf_iff, factor?, hsquare.height]
  constructor
  · rintro ⟨steps, hfactor⟩
    exact noKernel_of_factorRows? hfactor hsquare
  · exact fun h => h.exists_factorRows? hsquare

section Linear

open Column

variable {n : ℕ}

theorem takes_entry_iff {b : Square ℝ n} {x y : Vector ℝ n} :
    Takes b.entry x y ↔ b.mulColumn x = y := by
  have hrow : ∀ i : Fin n, (b.mulColumn x).get i = ∑ j : Fin n, b.entry i j * x.get j := by
    intro i
    change (b.mulColumn x)[i.val] = _
    simp only [Square.mulColumn, Vector.getElem_ofFn, sum_eq_sum]
    refine Finset.sum_congr rfl fun j _ => ?_
    rw [b.entry_eq i.isLt j.isLt]
    rfl
  constructor
  · intro h
    ext i hi
    exact (hrow ⟨i, hi⟩).trans (h ⟨i, hi⟩)
  · rintro rfl i
    exact (hrow i).symm

instance lawfulBEqReal : @LawfulBEq ℝ Scalar.toBEq where
  eq_of_beq := of_decide_eq_true
  rfl := decide_eq_true rfl

instance faithfulReal : Faithful ℝ where
  eq_zero_of_weight_le z h := by
    have hzero : |z| ≤ |(0 : ℝ)| := h
    rw [abs_zero] at hzero
    exact abs_nonpos_iff.mp hzero

theorem solveLinear?_eq_some {a b m : Square ℝ n} (hb : IsRegular n b.entry)
    (h : m.map b.mulColumn = a) : solveLinear? b a = some m := by
  obtain ⟨steps, hsteps⟩ := exists_factor?_rowsOf_iff.mpr hb
  have hrows : solveLinear? b a = (factor? (rowsOf n b.entry)).bind fun steps =>
      a.mapM fun c => InverseIteration.toVector? n (solve steps c.toList) := rfl
  choose solution hsolution hunique using solve_rowsOf hsteps
  rw [hrows, hsteps, Option.bind_some, funext hsolution]
  refine (Vector.mapM_pure solution).trans (congrArg some ?_)
  rw [← h, Vector.map_map]
  refine (Vector.map_congr_left fun x _ => ?_).trans (Vector.map_id m)
  exact ((hunique _ x).mp (takes_entry_iff.mpr rfl)).symm

end Linear

end SubspaceEigen
