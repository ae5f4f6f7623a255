import SubspaceEigen.Operator.Paired
import SubspaceEigen.Proofs.Operator.Represents

/-!
# The matrix of a paired operator

A paired operator takes a column apart into its halves and applies both blocks to both halves.  If
the blocks represent the matrices `A` and `B`, this is the product with `[[A, B], [-B, -A]]`.
-/

namespace SubspaceEigen

open Column

variable {n : ℕ}

/-- The matrix `[[a, b], [-b, -a]]`. -/
noncomputable def Square.paired (a b : Square ℝ n) : Square ℝ (n + n) :=
  Vector.zipWith (fun x y => x ++ negate y) a b ++ Vector.zipWith (fun x y => x ++ negate y) b a

/-- The rows of a column from `start` on, `count` of them. -/
def Column.rowsFrom {m : ℕ} (start count : ℕ) (h : start + count ≤ m) (x : Vector ℝ m) :
    Vector ℝ count :=
  Vector.ofFn fun i => x[start + i.val]

theorem Block.takeRows_eq {m start count : ℕ} (h : start + count ≤ m) (x : Columns ℝ m) :
    (⟨m, x⟩ : Block ℝ).takeRows start count = .ok ⟨count, x.map (rowsFrom start count h)⟩ :=
  dif_pos h

theorem Block.zipWith_eq {k : ℕ} (f : ℝ → ℝ → ℝ) {x y : Columns ℝ k} (h : y.size = x.size) :
    (⟨k, x⟩ : Block ℝ).zipWith f ⟨k, y⟩ = .ok ⟨k, Array.zipWith (Vector.zipWith f) x y⟩ :=
  dif_pos ⟨rfl, h⟩

theorem Square.paired_mulColumn (a b : Square ℝ n) (x : Vector ℝ (n + n)) :
    (a.paired b).mulColumn x =
      Vector.zipWith (· + ·) (a.mulColumn (rowsFrom 0 n (by omega) x))
          (b.mulColumn (rowsFrom n n le_rfl x)) ++
        Vector.zipWith (fun p q => -(p + q)) (b.mulColumn (rowsFrom 0 n (by omega) x))
          (a.mulColumn (rowsFrom n n le_rfl x)) := by
  ext i hi
  simp only [mulColumn, Vector.getElem_ofFn, sum_eq_sum, Fin.sum_univ_add, paired, rowsFrom]
  by_cases hupper : i < n
  · simp [hupper, -Fin.natAdd_eq_addNat]
  · simp only [not_lt] at hupper
    simp [Vector.getElem_append_right, hupper, negate, neg_add, -neg_add_rev,
      -Fin.natAdd_eq_addNat]

namespace PairedOperator

variable {h : PairedOperator ℝ} {a b : Square ℝ n}

theorem apply_eq (hfirst : h.first.Represents a) (hsecond : h.second.Represents b)
    (x : Columns ℝ (n + n)) :
    h.apply ⟨n + n, x⟩ = .ok ⟨n + n, x.map (a.paired b).mulColumn⟩ := by
  obtain rfl := hfirst.rows_eq
  let top := x.map (rowsFrom 0 h.first.rows (by omega))
  let bottom := x.map (rowsFrom h.first.rows h.first.rows le_rfl)
  have htop : (⟨_, x⟩ : Block ℝ).takeRows 0 h.first.rows = .ok ⟨_, top⟩ := Block.takeRows_eq _ x
  have hbottom : (⟨_, x⟩ : Block ℝ).takeRows h.first.rows h.first.rows = .ok ⟨_, bottom⟩ :=
    Block.takeRows_eq _ x
  have hupper := Block.zipWith_eq (x := top.map a.mulColumn) (y := bottom.map b.mulColumn) (· + ·)
    (by simp [top, bottom])
  have hlower := Block.zipWith_eq (x := top.map b.mulColumn) (y := bottom.map a.mulColumn)
    (fun p q => -(p + q)) (by simp [top, bottom])
  simp only [apply, blockSize, two_mul, ne_eq, not_true_eq_false, if_false, htop, hbottom,
    hfirst.apply_eq, hsecond.apply_eq, hupper, hlower, bind, Except.bind, pure, Except.pure]
  rw [if_pos (by simp [Block.cols, top, bottom])]
  refine congrArg (fun y => Except.ok (Block.mk _ y)) (Array.ext ?_ fun j _ _ => ?_)
  · simp [top, bottom]
  · simp [top, bottom, Square.paired_mulColumn]

theorem diagonal_eq (hfirst : h.first.Represents a) :
    h.diagonal = .ok (a.paired b).diagonal.toArray := by
  simp only [diagonal, hfirst.diagonal_eq, bind, Except.bind, pure, Except.pure]
  refine congrArg Except.ok (Array.ext (by simp) fun i _ hi => ?_)
  by_cases hupper : i < n
  · simp [Square.diagonal, Square.entry, Square.paired, hupper]
  · simp only [not_lt] at hupper
    simp [Square.diagonal, Square.entry, Square.paired, Vector.getElem_append_right,
      Array.getElem_append_right, hupper, negate]

/-- Two operators that represent matrices are composed to one that represents the paired matrix. -/
theorem compose_represents {first second : LinearOperator ℝ} (hfirst : first.Represents a)
    (hsecond : second.Represents b) :
    ∃ h, compose first second = .ok h ∧ h.toOperator.Represents (a.paired b) := by
  have hfirst_square : first.cols = first.rows := hfirst.cols_eq.trans hfirst.rows_eq.symm
  have hsecond_square : second.cols = second.rows := hsecond.cols_eq.trans hsecond.rows_eq.symm
  have hsize : second.rows = first.rows := hsecond.rows_eq.trans hfirst.rows_eq.symm
  have hrows : first.rows + second.rows = n + n := by rw [hfirst.rows_eq, hsecond.rows_eq]
  refine ⟨⟨first, second, hfirst_square, hsecond_square, hsize⟩, ?_, ?_⟩
  · simp only [compose, dif_pos, hfirst_square, hsecond_square, hsize]
  · have happly := apply_eq (h := ⟨first, second, hfirst_square, hsecond_square, hsize⟩)
      hfirst hsecond
    exact LinearOperator.represents_of_apply hrows hrows rfl happly
      (LinearOperator.vectorThrough_eq happly) (diagonal_eq hfirst)

end PairedOperator

end SubspaceEigen
