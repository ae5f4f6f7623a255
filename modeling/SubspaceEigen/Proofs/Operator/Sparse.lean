import SubspaceEigen.Proofs.Operator.Triplets

/-!
# The matrix of a sparse matrix

A row of entries stands for the sums of its entries column by column, in whatever order they come
and however often a column occurs.  Every product with the row is a sum of entries weighed by their
columns, and so is each of these sums; gathering a row keeps all weighed sums.  A sparse matrix
therefore represents the matrix of the column sums of its rows.
-/

namespace SubspaceEigen

open Column

variable {n : ℕ}

namespace SparseMatrix

/-- The sum of the entries of a row, each weighed by its column. -/
noncomputable def weigh (w : ℕ → ℝ) (row : List (ℕ × ℝ)) : ℝ :=
  (row.map fun e => e.2 * w e.1).sum

@[simp] theorem weigh_nil (w : ℕ → ℝ) : weigh w [] = 0 :=
  rfl

@[simp] theorem weigh_cons (w : ℕ → ℝ) (e : ℕ × ℝ) (row : List (ℕ × ℝ)) :
    weigh w (e :: row) = e.2 * w e.1 + weigh w row :=
  List.sum_cons

theorem weigh_perm (w : ℕ → ℝ) {row row' : List (ℕ × ℝ)} (h : row.Perm row') :
    weigh w row = weigh w row' :=
  (h.map _).sum_eq

theorem weigh_gather (w : ℕ → ℝ) (col : ℕ) (acc : ℝ) (rest : List (ℕ × ℝ)) :
    weigh w (gather col acc rest) = acc * w col + weigh w rest := by
  induction rest generalizing col acc with
  | nil => simp [gather]
  | cons e rest ih =>
      rw [gather]
      split
      · next hsame =>
        rw [ih, weigh_cons, hsame]
        ring
      · rw [weigh_cons, ih, weigh_cons]

theorem weigh_gatherRow (w : ℕ → ℝ) (entries : List (ℕ × ℝ)) :
    weigh w (gatherRow entries) = weigh w entries := by
  rw [← weigh_perm w (List.mergeSort_perm entries fun a b => a.1 ≤ b.1), gatherRow]
  cases entries.mergeSort fun a b => a.1 ≤ b.1 with
  | nil => rfl
  | cons e rest => rw [weigh_gather, weigh_cons]

/-- What a row holds in one column. -/
noncomputable def coefficient (row : List (ℕ × ℝ)) (j : ℕ) : ℝ :=
  weigh (fun k => if k = j then 1 else 0) row

theorem weigh_eq_sum (w : ℕ → ℝ) {row : List (ℕ × ℝ)} (h : ∀ e ∈ row, e.1 < n) :
    weigh w row = ∑ j : Fin n, coefficient row j * w j := by
  induction row with
  | nil => simp [coefficient]
  | cons e row ih =>
      have hcolumn : ∑ j : Fin n, e.2 * (if e.1 = j then 1 else 0) * w j = e.2 * w e.1 := by
        rw [Finset.sum_eq_single (⟨e.1, h e (List.mem_cons_self ..)⟩ : Fin n)]
        · simp
        · intro j _ hj
          rw [if_neg fun heq => hj (Fin.ext heq.symm), mul_zero, zero_mul]
        · simp
      simp only [coefficient, weigh_cons, add_mul, Finset.sum_add_distrib] at ih ⊢
      rw [hcolumn, ih fun e he => h e (List.mem_cons_of_mem _ he)]

noncomputable def toSquare (m : SparseMatrix ℝ) : Square ℝ m.size :=
  Vector.ofFn fun j => Vector.ofFn fun i => coefficient m.entries[i] j

/-- No entry lies outside of the matrix. -/
def Inside (m : SparseMatrix ℝ) : Prop :=
  ∀ row ∈ m.entries, ∀ e ∈ row, e.1 < m.size

theorem rowProduct_eq_weigh {w : ℕ → ℝ} {row : List (ℕ × ℝ)} {x : Array ℝ}
    (h : ∀ e ∈ row, x[e.1]? = some (w e.1)) : rowProduct row x = .ok (weigh w row) := by
  rw [rowProduct, ← zero_add (weigh w row)]
  generalize (0 : ℝ) = s
  induction row generalizing s with
  | nil => simp [pure, Except.pure]
  | cons e row ih =>
      obtain ⟨j, v⟩ := e
      have hentry : x[j]? = some (w j) := h (j, v) (List.mem_cons_self ..)
      rw [List.foldlM_cons, weigh_cons, ← add_assoc]
      simp only [hentry]
      exact ih (fun e he => h e (List.mem_cons_of_mem _ he)) _

theorem rowProduct_eq {row : List (ℕ × ℝ)} (h : ∀ e ∈ row, e.1 < n) (x : Vector ℝ n) :
    rowProduct row x.toArray =
      .ok (∑ j : Fin n, coefficient row j * getElem x j j.isLt) := by
  let w : ℕ → ℝ := fun j => x.toArray.getD j 0
  have hentry : ∀ e ∈ row, x.toArray[e.1]? = some (w e.1) := by
    intro e he
    simp [w, h e he]
  rw [rowProduct_eq_weigh hentry, weigh_eq_sum w h]
  simp [w]

theorem product_eq {m : SparseMatrix ℝ} (h : m.Inside) (x : Vector ℝ m.size) :
    m.product x.toArray = .ok (m.toSquare.mulColumn x) := by
  refine (vector_mapM_eq_ok fun row hrow => rowProduct_eq (h row hrow) x).trans ?_
  refine congrArg Except.ok (Vector.ext fun i hi => ?_)
  simp [Square.mulColumn, toSquare, sum_eq_sum]

theorem foldl_diagonal (i : ℕ) (row : List (ℕ × ℝ)) (s : ℝ) :
    row.foldl (fun sum (j, v) => if j = i then sum + v else sum) s = s + coefficient row i := by
  induction row generalizing s with
  | nil => simp [coefficient]
  | cons e row ih =>
      rw [List.foldl_cons, ih]
      simp only [coefficient, weigh_cons]
      split
      · ring
      · ring

theorem diagonal_eq (m : SparseMatrix ℝ) : m.diagonal = m.toSquare.diagonal := by
  ext i hi
  simp [diagonal, Square.diagonal, toSquare, Square.entry, foldl_diagonal]

theorem apply_eq {m : SparseMatrix ℝ} (h : m.Inside) (x : Columns ℝ m.size) :
    m.apply ⟨m.size, x⟩ = .ok ⟨m.size, x.map m.toSquare.mulColumn⟩ := by
  have hcolumns : x.mapM (fun c => m.product c.toArray) = .ok (x.map m.toSquare.mulColumn) :=
    array_mapM_eq_ok fun c _ => product_eq h c
  rw [apply, if_pos rfl, hcolumns]
  rfl

theorem represents {m : SparseMatrix ℝ} (h : m.Inside) :
    m.toOperator.Represents m.toSquare := by
  refine LinearOperator.represents_of_apply rfl rfl rfl (apply_eq h) (fun x => ?_) ?_
  · exact congrArg (Except.map Vector.toArray) (product_eq h x)
  · exact congrArg (fun d => Except.ok (Vector.toArray d)) m.diagonal_eq

/-- The rows, each with its entries inside of the matrix, hold what the matrix `a` holds. -/
theorem represents_of_coefficient {rows : Fin n → List (ℕ × ℝ)} {a : Square ℝ n}
    (hinside : ∀ i, ∀ e ∈ rows i, e.1 < n)
    (hcoefficient : ∀ i j : Fin n, coefficient (rows i) j = a.entry i j) :
    (SparseMatrix.mk n (Vector.ofFn rows)).toOperator.Represents a := by
  have hmatrix : (SparseMatrix.mk n (Vector.ofFn rows)).toSquare = a := by
    ext j hj i hi
    simpa [toSquare, Square.entry, hi, hj] using hcoefficient ⟨i, hi⟩ ⟨j, hj⟩
  have hrepresents := represents (m := ⟨n, Vector.ofFn rows⟩) fun row hrow => by
    obtain ⟨i, rfl⟩ := Vector.mem_ofFn.mp hrow
    exact hinside i
  rwa [hmatrix] at hrepresents

theorem weigh_filterMap (w : ℕ → ℝ) (keep : Fin n → Prop) [DecidablePred keep] (v : Fin n → ℝ)
    (l : List (Fin n)) :
    weigh w (l.filterMap fun j => if keep j then some (j.val, v j) else none) =
      (l.map fun j => if keep j then v j * w j else 0).sum := by
  induction l with
  | nil => rfl
  | cons j l ih =>
      rw [List.filterMap_cons, List.map_cons, List.sum_cons, ← ih]
      by_cases hkeep : keep j
      · simp [hkeep]
      · simp [hkeep]

end SparseMatrix

/-- The matrix without the entries off the diagonal whose magnitude is at most a limit. -/
noncomputable def Square.thinned (a : Square ℝ n) (limit : ℝ) : Square ℝ n :=
  Vector.ofFn fun j => Vector.ofFn fun i => if i = j ∨ limit < |a.entry i j| then a.entry i j else 0

/-- The matrix of the sums of the triplets given for each position. -/
noncomputable def Square.ofTriplets (n : ℕ) (triplets : List (Triplet ℝ)) : Square ℝ n :=
  Vector.ofFn fun j => Vector.ofFn fun i =>
    ((triplets.filter fun t => t.row = i.val && t.col = j.val).map Triplet.value).sum

namespace SparseMatrix

/-- The sparse form of a matrix represents the thinned matrix. -/
theorem ofBlock_represents (a : Square ℝ n) (limit : ℝ) :
    ∃ m, ofBlock ⟨n, a.toArray⟩ limit = .ok m ∧ m.toOperator.Represents (a.thinned limit) := by
  simp only [ofBlock, Block.toSquare?_toArray]
  refine ⟨_, rfl, represents_of_coefficient (fun i e he => ?_) fun i j => ?_⟩
  · obtain ⟨j, -, hj⟩ := List.mem_filterMap.mp he
    split at hj
    · exact Option.some.inj hj ▸ j.isLt
    · cases hj
  · rw [coefficient, weigh_filterMap, ← Fin.sum_univ_def, Square.entry_eq _ i.isLt j.isLt,
      Finset.sum_eq_single j]
    · simp [Square.thinned]
    · intro k _ hk
      simp [Fin.val_ne_of_ne hk]
    · simp

theorem coefficient_eq_sum (row : List (ℕ × ℝ)) (j : ℕ) :
    coefficient row j = (valuesAt row j).sum := by
  induction row with
  | nil => rfl
  | cons e row ih =>
      rw [coefficient] at ih ⊢
      rw [weigh_cons, ih]
      by_cases hcol : e.1 = j
      · simp [valuesAt, hcol]
      · simp [valuesAt, hcol]

/-- The sparse matrix of triplets represents the matrix of their sums. -/
theorem ofTriplets_represents {triplets : List (Triplet ℝ)}
    (h : ∀ t ∈ triplets, t.row < n ∧ t.col < n) :
    ∃ m, ofTriplets n triplets = .ok m ∧
      m.toOperator.Represents (Square.ofTriplets n triplets) := by
  rw [ofTriplets_of_inside h]
  refine ⟨_, rfl, represents_of_coefficient (fun i e he => ?_) fun i j => ?_⟩
  · obtain ⟨e', he', hcol⟩ := List.mem_map.mp (fst_mem_gatherRow e he)
    obtain ⟨t, ht, -, htcol⟩ := Triplet.fst_mem_givenRow he'
    exact hcol ▸ htcol ▸ (h t ht).2
  · rw [coefficient, weigh_gatherRow, ← coefficient, coefficient_eq_sum, Triplet.valuesAt_givenRow,
      Square.entry_eq _ i.isLt j.isLt]
    simp [Square.ofTriplets, Triplet.given]

end SparseMatrix

end SubspaceEigen
