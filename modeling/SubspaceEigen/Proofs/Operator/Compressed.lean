import SubspaceEigen.Proofs.Operator.Represents
import SubspaceEigen.Proofs.Operator.Rows

/-!
# Sparse matrices in compressed form

The rows of a sparse matrix stand one after the other in two lists, of columns and of values, and a
third list says where each row starts.  What is said of the rows can be read off these lists, and the
product with a vector can be formed from them, position by position, without leaving any of them.
-/

namespace SubspaceEigen

variable {α : Type}

namespace SparseMatrix

section Layout

variable {m : SparseMatrix α} {i k : ℕ}

def startOf (m : SparseMatrix α) (i : ℕ) : ℕ :=
  (m.entries.toList.take i).flatten.length

theorem columnIndices_eq (m : SparseMatrix α) :
    m.columnIndices = m.entries.toList.flatten.map Prod.fst := by
  rw [columnIndices, List.map_flatten, List.flatMap_def]

theorem values_eq (m : SparseMatrix α) : m.values = m.entries.toList.flatten.map Prod.snd := by
  rw [values, List.map_flatten, List.flatMap_def]

theorem rowStarts_getElem? (hi : i ≤ m.size) : m.rowStarts[i]? = some (m.startOf i) := by
  have hlt : i < m.size + 1 := Nat.lt_succ_of_le hi
  simp [rowStarts, startOf, hlt]

theorem startOf_succ (hi : i < m.size) :
    m.startOf (i + 1) = m.startOf i + (m.entries[i]).length := by
  simp [startOf, List.take_add_one, hi]

theorem startOf_size (m : SparseMatrix α) : m.startOf m.size = m.storedCount := by
  rw [startOf, storedCount, List.take_of_length_le (by simp)]

theorem startOf_le {j : ℕ} (h : i ≤ j) : m.startOf i ≤ m.startOf j := by
  have hprefix : (m.entries.toList.take i).Sublist (m.entries.toList.take j) :=
    (List.take_prefix_take_left h).sublist
  exact (List.Sublist.flatten hprefix).length_le

/-- The entries of a row stand from its start on. -/
theorem flatten_getElem? (hi : i < m.size) (hk : k < (m.entries[i]).length) :
    m.entries.toList.flatten[m.startOf i + k]? = (m.entries[i])[k]? := by
  have hlength : i < m.entries.toList.length := by simpa using hi
  have hsplit : m.entries.toList.flatten = (m.entries.toList.take i).flatten ++
      (m.entries[i] ++ (m.entries.toList.drop (i + 1)).flatten) := by
    conv_lhs => rw [← List.take_append_drop i m.entries.toList, List.drop_eq_getElem_cons hlength]
    rw [List.flatten_append, List.flatten_cons, Vector.getElem_toList]
  rw [hsplit, startOf, List.getElem?_append_right (Nat.le_add_right _ _), Nat.add_sub_cancel_left,
    List.getElem?_append_left hk]

theorem columnIndices_getElem? (hi : i < m.size) (hk : k < (m.entries[i]).length) :
    m.columnIndices[m.startOf i + k]? = some (m.entries[i])[k].1 := by
  rw [columnIndices_eq, List.getElem?_map, flatten_getElem? hi hk, List.getElem?_eq_getElem hk]
  rfl

theorem values_getElem? (hi : i < m.size) (hk : k < (m.entries[i]).length) :
    m.values[m.startOf i + k]? = some (m.entries[i])[k].2 := by
  rw [values_eq, List.getElem?_map, flatten_getElem? hi hk, List.getElem?_eq_getElem hk]
  rfl

/-- The position `k` of the lists belongs to the row `i`. -/
def InRow (m : SparseMatrix α) (i k : ℕ) : Prop :=
  ∃ start stop, m.rowStarts[i]? = some start ∧ m.rowStarts[i + 1]? = some stop ∧
    start ≤ k ∧ k < stop

theorem inRow_iff :
    m.InRow i k ↔ ∃ (hi : i < m.size) (l : ℕ), l < (m.entries[i]).length ∧ k = m.startOf i + l := by
  constructor
  · rintro ⟨start, stop, hstart, hstop, hle, hlt⟩
    have hi : i < m.size := by
      obtain ⟨hsucc, -⟩ := List.getElem?_eq_some_iff.mp hstop
      simp only [rowStarts, List.length_map, List.length_range] at hsucc
      omega
    rw [rowStarts_getElem? hi.le, Option.some.injEq] at hstart
    rw [rowStarts_getElem? hi, startOf_succ hi, Option.some.injEq] at hstop
    exact ⟨hi, k - m.startOf i, by omega, by omega⟩
  · rintro ⟨hi, l, hl, rfl⟩
    refine ⟨_, _, rowStarts_getElem? hi.le, rowStarts_getElem? hi, Nat.le_add_right _ _, ?_⟩
    rw [startOf_succ hi]
    omega

/-- The lists hold the value `v` for row `i` and column `j`. -/
def Stores (m : SparseMatrix α) (i j : ℕ) (v : α) : Prop :=
  ∃ k, m.InRow i k ∧ m.columnIndices[k]? = some j ∧ m.values[k]? = some v

theorem stores_iff {j : ℕ} {v : α} :
    m.Stores i j v ↔ ∃ hi : i < m.size, (j, v) ∈ m.entries[i] := by
  constructor
  · rintro ⟨k, hk, hcolumn, hvalue⟩
    obtain ⟨hi, l, hl, rfl⟩ := inRow_iff.mp hk
    rw [columnIndices_getElem? hi hl, Option.some.injEq] at hcolumn
    rw [values_getElem? hi hl, Option.some.injEq] at hvalue
    exact ⟨hi, hcolumn ▸ hvalue ▸ List.getElem_mem hl⟩
  · rintro ⟨hi, hmem⟩
    obtain ⟨l, hl, heq⟩ := List.getElem_of_mem hmem
    refine ⟨m.startOf i + l, inRow_iff.mpr ⟨hi, l, hl, rfl⟩, ?_, ?_⟩
    · rw [columnIndices_getElem? hi hl, heq]
    · rw [values_getElem? hi hl, heq]

/-- The three lists are a compressed form of a square matrix with ascending columns in its rows: the
starts begin with zero, never decrease and end with the number of entries. -/
structure Compressed (m : SparseMatrix α) : Prop where
  length_rowStarts : m.rowStarts.length = m.size + 1
  first : m.rowStarts[0]? = some 0
  nondecreasing : m.rowStarts.Pairwise (· ≤ ·)
  last : m.rowStarts[m.size]? = some m.storedCount
  length_values : m.values.length = m.storedCount
  length_columnIndices : m.columnIndices.length = m.storedCount
  inside : ∀ j ∈ m.columnIndices, j < m.size
  ascending : ∀ {i k l j j'}, m.InRow i k → m.InRow i l → k < l →
    m.columnIndices[k]? = some j → m.columnIndices[l]? = some j' → j < j'

/-- The lists of rows are a compressed form if the rows ascend and stay inside of the matrix. -/
theorem compressed_of_rows (hinside : ∀ row ∈ m.entries, ∀ e ∈ row, e.1 < m.size)
    (hascending : ∀ row ∈ m.entries, Ascending row) : m.Compressed where
  length_rowStarts := by simp [rowStarts]
  first := by
    rw [rowStarts_getElem? (Nat.zero_le _)]
    rfl
  nondecreasing := by
    rw [rowStarts, List.pairwise_map]
    exact List.pairwise_lt_range.imp fun h => startOf_le h.le
  last := by rw [rowStarts_getElem? le_rfl, startOf_size]
  length_values := by rw [values_eq, List.length_map, storedCount]
  length_columnIndices := by rw [columnIndices_eq, List.length_map, storedCount]
  inside := by
    intro j hj
    obtain ⟨e, he, rfl⟩ := List.mem_map.mp (columnIndices_eq m ▸ hj)
    obtain ⟨row, hrow, he⟩ := List.mem_flatten.mp he
    exact hinside row (Vector.mem_toList_iff.mp hrow) e he
  ascending := by
    intro i k l j j' hk hl hlt hj hj'
    obtain ⟨hi, k, hklength, rfl⟩ := inRow_iff.mp hk
    obtain ⟨_, l, hllength, rfl⟩ := inRow_iff.mp hl
    rw [columnIndices_getElem? hi hklength, Option.some.injEq] at hj
    rw [columnIndices_getElem? hi hllength, Option.some.injEq] at hj'
    have hrow := List.pairwise_iff_getElem.mp (hascending _ (Vector.getElem_mem hi))
    exact hj ▸ hj' ▸ hrow k l hklength hllength (by omega)

end Layout

section Product

/-- The item at a position, which has to exist. -/
def itemAt {β : Type} (l : List β) (k : ℕ) : Except Fault β :=
  match l[k]? with
  | some b => .ok b
  | none => .error .outOfRange

theorem itemAt_eq_ok {β : Type} {l : List β} {k : ℕ} {b : β} (h : l[k]? = some b) :
    itemAt l k = .ok b := by
  rw [itemAt, h]

theorem foldlM_eq_ok {β γ ε : Type} {f : γ → β → Except ε γ} {g : γ → β → γ} {items : List β}
    (h : ∀ b ∈ items, ∀ s, f s b = .ok (g s b)) (s : γ) :
    items.foldlM f s = .ok (items.foldl g s) := by
  induction items generalizing s with
  | nil => rfl
  | cons b items ih =>
      rw [List.foldlM_cons, List.foldl_cons, h b (List.mem_cons_self ..)]
      exact ih (fun c hc => h c (List.mem_cons_of_mem _ hc)) _

/-- A loop over positions, from `start` on, is one over the items that it reads there. -/
theorem foldlM_range' {β γ ε : Type} {f : γ → ℕ → Except ε γ} {g : γ → β → γ} {items : List β}
    {start : ℕ} (h : ∀ k (hk : k < items.length) s, f s (start + k) = .ok (g s items[k])) (s : γ) :
    (List.range' start items.length).foldlM f s = .ok (items.foldl g s) := by
  induction items generalizing start s with
  | nil => rfl
  | cons b items ih =>
      have hfirst : f s start = .ok (g s b) := h 0 (Nat.zero_lt_succ _) s
      rw [List.length_cons, List.range'_succ, List.foldlM_cons, List.foldl_cons, hfirst]
      refine ih (fun k hk s => ?_) _
      have hnext := h (k + 1) (Nat.succ_lt_succ hk) s
      rwa [← Nat.add_assoc, Nat.add_right_comm] at hnext

variable [Scalar α] {m : SparseMatrix α} {row : List (ℕ × α)} {x : Array α}

/-- The product of a row with a vector, read position by position from the compressed form. -/
def indexedRow (m : SparseMatrix α) (x : Array α) (i : ℕ) : Except Fault α := do
  let start ← itemAt m.rowStarts i
  let stop ← itemAt m.rowStarts (i + 1)
  (List.range' start (stop - start)).foldlM (fun sum k => do
    let v ← itemAt m.values k
    let j ← itemAt m.columnIndices k
    let xj ← itemAt x.toList j
    return sum + v * xj) 0

/-- The product with a vector, read position by position from the compressed form. -/
def indexedProduct (m : SparseMatrix α) (x : Array α) : Except Fault (Vector α m.size) :=
  (Vector.range m.size).mapM (m.indexedRow x)

def rowSum (x : Array α) (row : List (ℕ × α)) : α :=
  row.foldl (fun sum e => sum + e.2 * x.getD e.1 0) 0

theorem rowProduct_eq_rowSum (h : ∀ e ∈ row, e.1 < x.size) :
    rowProduct row x = .ok (rowSum x row) := by
  refine foldlM_eq_ok (fun e he s => ?_) 0
  have hlt : e.1 < x.size := h e he
  simp [hlt]

theorem indexedRow_eq {i : ℕ} (hi : i < m.size) (h : ∀ e ∈ m.entries[i], e.1 < x.size) :
    m.indexedRow x i = .ok (rowSum x m.entries[i]) := by
  have hstart := itemAt_eq_ok (rowStarts_getElem? hi.le)
  have hstop := itemAt_eq_ok (rowStarts_getElem? hi)
  simp only [indexedRow, hstart, hstop, bind, Except.bind, startOf_succ hi,
    Nat.add_sub_cancel_left]
  refine foldlM_range' (fun k hk s => ?_) 0
  have hlt : (m.entries[i])[k].1 < x.size := h _ (List.getElem_mem hk)
  have hitem : itemAt x.toList (m.entries[i])[k].1 = .ok x[(m.entries[i])[k].1] :=
    itemAt_eq_ok (by simp [hlt])
  simp only [itemAt_eq_ok (values_getElem? hi hk), itemAt_eq_ok (columnIndices_getElem? hi hk),
    hitem]
  simp [hlt, pure, Except.pure]

/-- A vector that is long enough has a product, and the compressed form gives the same. -/
theorem exists_product (hinside : ∀ row ∈ m.entries, ∀ e ∈ row, e.1 < m.size)
    (hx : m.size ≤ x.size) : ∃ y, m.indexedProduct x = .ok y ∧ m.product x = .ok y := by
  have hrow : ∀ row ∈ m.entries, ∀ e ∈ row, e.1 < x.size :=
    fun row hr e he => (hinside row hr e he).trans_le hx
  refine ⟨m.entries.map (rowSum x), ?_, vector_mapM_eq_ok fun row hr =>
    rowProduct_eq_rowSum (hrow row hr)⟩
  have hindexed : m.indexedProduct x =
      .ok ((Vector.range m.size).map fun i => rowSum x (m.entries[i]?.getD [])) := by
    refine vector_mapM_eq_ok fun i hi => ?_
    have hlt : i < m.size := Vector.mem_range.mp hi
    rw [indexedRow_eq hlt (hrow _ (Vector.getElem_mem hlt)), Vector.getElem?_eq_getElem hlt]
    rfl
  rw [hindexed]
  exact congrArg Except.ok (Vector.ext fun i hi => by simp [hi])

end Product

end SparseMatrix

end SubspaceEigen
