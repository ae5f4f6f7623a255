import SubspaceEigen.Operator.Rowwise
import SubspaceEigen.Proofs.Dense.Exact
import SubspaceEigen.Proofs.Operator.Linear

/-!
# Operators that represent a matrix

An operator represents a matrix if all that can be asked of it is answered from that matrix: its
shape, its diagonal, its products with blocks and with vectors, and the matrix itself.  A matrix
represents itself, and so does the source of its rows.
-/

namespace SubspaceEigen

open Column

variable {n : ℕ}

theorem mapM_eq_ok {β γ ε : Type} {f : β → Except ε γ} {g : β → γ} {items : List β}
    (h : ∀ b ∈ items, f b = .ok (g b)) : items.mapM f = .ok (items.map g) := by
  induction items with
  | nil => rfl
  | cons b items ih =>
      rw [List.mapM_cons, h b (List.mem_cons_self ..),
        ih fun c hc => h c (List.mem_cons_of_mem _ hc)]
      rfl

theorem array_mapM_eq_ok {β γ ε : Type} {f : β → Except ε γ} {g : β → γ} {items : Array β}
    (h : ∀ b ∈ items, f b = .ok (g b)) : items.mapM f = .ok (items.map g) := by
  rw [Array.mapM_eq_mapM_toList, mapM_eq_ok fun b hb => h b (Array.mem_toList_iff.mp hb)]
  exact congrArg Except.ok (Array.toList_inj.mp (by simp))

theorem vector_mapM_eq_ok {β γ ε : Type} {k : ℕ} {f : β → Except ε γ} {g : β → γ}
    {items : Vector β k} (h : ∀ b ∈ items, f b = .ok (g b)) :
    items.mapM f = .ok (items.map g) := by
  have harray : Vector.toArray <$> items.mapM f = .ok (items.map g).toArray := by
    rw [Vector.toArray_mapM, Vector.toArray_map]
    exact array_mapM_eq_ok fun b hb => h b ⟨hb⟩
  cases hmap : items.mapM f with
  | error e =>
      rw [hmap] at harray
      cases harray
  | ok result =>
      rw [hmap] at harray
      exact congrArg Except.ok (Vector.toArray_inj.mp (Except.ok.inj harray))

namespace Square

noncomputable def diagonal (a : Square ℝ n) : Vector ℝ n :=
  Vector.ofFn fun i => a.entry i i

theorem map_mulColumn_unit (a : Square ℝ n) :
    (Array.ofFn fun j : Fin n => (Column.unit n j : Vector ℝ n)).map a.mulColumn = a.toArray := by
  apply Array.ext
  · simp
  · intro j hj hj'
    have hlt : j < n := by simpa using hj'
    rw [Array.getElem_map, Array.getElem_ofFn]
    exact a.mulColumn_unit hlt

theorem toArray_diagonal (a : Square ℝ n) :
    a.diagonal.toArray = Array.ofFn fun i : Fin n => a.entry i i := by
  simp [diagonal]

end Square

theorem Block.toSquare?_toArray {α : Type} (a : Square α n) :
    (⟨n, a.toArray⟩ : Block α).toSquare? = some a := by
  simp [toSquare?, squareOf?]

namespace LinearOperator

/-- The operator is square and answers from the matrix `a`. -/
structure Represents (op : LinearOperator ℝ) (a : Square ℝ n) : Prop where
  rows_eq : op.rows = n
  cols_eq : op.cols = n
  toDense_eq : op.toDense = .ok ⟨n, a.toArray⟩
  apply_eq : ∀ x : Columns ℝ n, op.apply ⟨n, x⟩ = .ok ⟨n, x.map a.mulColumn⟩
  applyVector_eq : ∀ x : Vector ℝ n, op.applyVector x.toArray = .ok (a.mulColumn x).toArray
  diagonal_eq : op.diagonal = .ok a.diagonal.toArray

/-- For an operator that does not store its matrix, the products with blocks give the matrix. -/
theorem represents_of_apply {op : LinearOperator ℝ} {a : Square ℝ n} (hrows : op.rows = n)
    (hcols : op.cols = n) (hstored : op.stored? = none)
    (happly : ∀ x : Columns ℝ n, op.apply ⟨n, x⟩ = .ok ⟨n, x.map a.mulColumn⟩)
    (hvector : ∀ x : Vector ℝ n, op.applyVector x.toArray = .ok (a.mulColumn x).toArray)
    (hdiagonal : op.diagonal = .ok a.diagonal.toArray) : op.Represents a where
  rows_eq := hrows
  cols_eq := hcols
  toDense_eq := by
    have hidentity : (Block.identity n n : Block ℝ) =
        ⟨n, Array.ofFn fun j : Fin n => Column.unit n j⟩ := rfl
    rw [toDense, hstored, hrows, hcols, hidentity]
    exact (happly _).trans (by rw [a.map_mulColumn_unit])
  apply_eq := happly
  applyVector_eq := hvector
  diagonal_eq := hdiagonal

theorem vectorThrough_eq {apply : Block ℝ → Except Fault (Block ℝ)} {a : Square ℝ n}
    (happly : ∀ x : Columns ℝ n, apply ⟨n, x⟩ = .ok ⟨n, x.map a.mulColumn⟩) (x : Vector ℝ n) :
    vectorThrough apply x.toArray = .ok (a.mulColumn x).toArray := by
  obtain ⟨items, rfl⟩ := x
  have hblock : apply (Block.ofColumn items.toVector) =
      .ok ⟨items.size, #[items.toVector].map a.mulColumn⟩ := happly _
  simp only [vectorThrough, hblock, bind, Except.bind]
  simp

theorem ofBlock_represents (a : Square ℝ n) :
    (LinearOperator.ofBlock ⟨n, a.toArray⟩).Represents a where
  rows_eq := rfl
  cols_eq := a.size_toArray
  toDense_eq := rfl
  apply_eq x := by
    rw [ofBlock_actsAs, a.through_toLinearMap]
  applyVector_eq x := by
    have hsize : x.toArray.size = a.toArray.size := x.size_toArray.trans a.size_toArray.symm
    simp only [ofBlock, Block.mulVector, dif_pos hsize]
    exact congrArg (fun y => Except.ok y.toArray) (a.combine_toArray a.size_toArray.symm x)
  diagonal_eq := by
    simp only [ofBlock, Block.diagonal, Block.toSquare?_toArray]
    exact congrArg Except.ok a.toArray_diagonal.symm

end LinearOperator

namespace RowSource

/-- The rows of a matrix, with the diagonal read off them. -/
def ofSquare (a : Square ℝ n) : RowSource ℝ :=
  ofRows n fun i =>
    if h : i < n then .ok (Array.ofFn fun j : Fin n => a[j][i]) else .error .outOfRange

variable (a : Square ℝ n)

theorem ofSquare_row {i : ℕ} (hi : i < n) :
    (ofSquare a).row i = .ok (Array.ofFn fun j : Fin n => a[j][i]) :=
  dif_pos hi

theorem ofSquare_diagonal : (ofSquare a).diagonal = .ok a.diagonal.toArray := by
  have helement : ∀ i ∈ List.range n, (ofSquare a).diagonalElement i = .ok (a.entry i i) := by
    intro i hi
    have hlt : i < n := List.mem_range.mp hi
    have hrow := ofSquare_row a hlt
    simp only [ofSquare, ofRows] at hrow ⊢
    simp only [hrow, bind, Except.bind]
    simp [hlt, Square.entry]
  have hmap : (List.range (ofSquare a).size).mapM (ofSquare a).diagonalElement =
      .ok ((List.range n).map fun i => a.entry i i) := mapM_eq_ok helement
  have hlist : ((List.range n).map fun i => a.entry i i).toArray = a.diagonal.toArray := by
    rw [a.toArray_diagonal]
    apply Array.ext
    · simp
    · simp
  simp only [diagonal, hmap, bind, Except.bind, hlist]
  rfl

theorem zero_eq_map_mulColumn {x : Columns ℝ n} (h : n = 0 ∨ x.size = 0) :
    (Block.zero n x.size : Block ℝ) = ⟨n, x.map a.mulColumn⟩ := by
  refine congrArg (Block.mk n) (Array.ext (by simp) fun j hj _ => Vector.ext fun i hi => ?_)
  have hsize : j < x.size := by simpa using hj
  omega

theorem rowOfLength_ofSquare {i : ℕ} (hi : i < n) :
    (ofSquare a).rowOfLength n i = .ok (Vector.ofFn fun j : Fin n => a[j][i]) := by
  simp only [rowOfLength, ofSquare_row a hi, bind, Except.bind]
  rw [dif_pos Array.size_ofFn]
  rfl

theorem ofSquare_apply (x : Columns ℝ n) :
    (ofSquare a).apply ⟨n, x⟩ = .ok ⟨n, x.map a.mulColumn⟩ := by
  have hheight : ¬ n ≠ (ofSquare a).size := not_not.mpr rfl
  have hrows : (Vector.range n).mapM (fun i => (ofSquare a).rowOfLength n i) =
      .ok ((Vector.range n).map fun i => Vector.ofFn fun j : Fin n => a.entry i j) := by
    refine vector_mapM_eq_ok fun i hi => ?_
    have hlt : i < n := Vector.mem_range.mp hi
    rw [rowOfLength_ofSquare a hlt]
    simp [Square.entry, hlt]
  have hproducts : ∀ c : Vector ℝ n, ((Vector.range n).map fun i =>
      Vector.ofFn fun j : Fin n => a.entry i j).map (fun r => dot r c) = a.mulColumn c := by
    intro c
    ext i hi
    simp [dot, Square.mulColumn, Square.entry, hi]
  rw [apply, if_neg hheight]
  split
  · next hnothing => exact congrArg Except.ok (zero_eq_map_mulColumn a hnothing)
  · change (do
        let rows ← (Vector.range n).mapM fun i => (ofSquare a).rowOfLength n i
        Except.ok (⟨n, x.map fun c => rows.map fun r => dot r c⟩ : Block ℝ)) = _
    rw [hrows]
    exact congrArg (fun f => Except.ok (⟨n, x.map f⟩ : Block ℝ)) (funext hproducts)

theorem ofSquare_represents : (ofSquare a).toOperator.Represents a :=
  LinearOperator.represents_of_apply rfl rfl rfl (ofSquare_apply a)
    (LinearOperator.vectorThrough_eq (ofSquare_apply a)) (ofSquare_diagonal a)

end RowSource

end SubspaceEigen
