import SubspaceEigen.Proofs.Operator.Compressed

/-!
# Building the compressed form

The three lists of a compressed form can be pushed row after row.  The entries are first dealt out to
their rows; in a sorted row, an entry with the column of the last one is added to it.  This gives the
lists of the sparse matrix with the same entries, and it refuses the same triplets.
-/

namespace SubspaceEigen

variable {α : Type}

/-- The lists of a compressed form while they are built. -/
structure CompressedRows (α : Type) where
  rowStarts : Array ℕ
  columnIndices : Array ℕ
  values : Array α

def SparseMatrix.compressedRows (m : SparseMatrix α) : CompressedRows α where
  rowStarts := m.rowStarts.toArray
  columnIndices := m.columnIndices.toArray
  values := m.values.toArray

namespace CompressedRows

def empty : CompressedRows α :=
  ⟨#[0], #[], #[]⟩

def push (c : CompressedRows α) (e : ℕ × α) : CompressedRows α :=
  { c with columnIndices := c.columnIndices.push e.1, values := c.values.push e.2 }

def endRow (c : CompressedRows α) : CompressedRows α :=
  { c with rowStarts := c.rowStarts.push c.values.size }

theorem foldl_push (c : CompressedRows α) (row : List (ℕ × α)) :
    row.foldl push c = { c with
      columnIndices := c.columnIndices ++ (row.map Prod.fst).toArray
      values := c.values ++ (row.map Prod.snd).toArray } := by
  induction row generalizing c with
  | nil => simp
  | cons e row ih =>
      rw [List.foldl_cons, ih]
      simp [push]

/-- Rows pushed one after the other, each ended where the values end. -/
theorem foldl_endRow (rows : List (List (ℕ × α))) :
    rows.foldl (fun c row => (row.foldl push c).endRow) empty = {
      rowStarts := ((List.range (rows.length + 1)).map fun i => (rows.take i).flatten.length).toArray
      columnIndices := (rows.flatten.map Prod.fst).toArray
      values := (rows.flatten.map Prod.snd).toArray } := by
  induction rows using List.reverseRecOn with
  | nil => rfl
  | append_singleton rows row ih =>
      have hbefore : (List.range (rows.length + 1)).map
          (fun i => ((rows ++ [row]).take i).flatten.length) =
            (List.range (rows.length + 1)).map fun i => (rows.take i).flatten.length := by
        refine List.map_congr_left fun i hi => ?_
        rw [List.take_append_of_le_length (Nat.le_of_lt_succ (List.mem_range.mp hi))]
      have hlast : (rows ++ [row]).take (rows.length + 1) = rows ++ [row] :=
        List.take_of_length_le (by simp)
      rw [List.foldl_append, List.foldl_cons, List.foldl_nil, ih, foldl_push, endRow,
        List.length_append, List.length_singleton, List.range_succ (n := rows.length + 1),
        List.map_append, hbefore, List.map_singleton, hlast]
      simp [Function.comp_def]

/-- The lists of a sparse matrix are those of its rows, pushed one after the other. -/
theorem foldl_entries (m : SparseMatrix α) :
    m.entries.toList.foldl (fun c row => (row.foldl push c).endRow) empty = m.compressedRows := by
  rw [foldl_endRow, SparseMatrix.compressedRows, SparseMatrix.rowStarts,
    SparseMatrix.columnIndices_eq, SparseMatrix.values_eq, Vector.length_toList]

section Deal

variable {n : ℕ}

/-- Deal a triplet out to its row. -/
def deal (rows : Vector (List (ℕ × α)) n) (t : Triplet α) :
    Except OperatorError (Vector (List (ℕ × α)) n) :=
  if h : t.row < n ∧ t.col < n then
    .ok (rows.set t.row (rows[t.row] ++ [(t.col, t.value)]) h.1)
  else .error (.entryOutOfBounds t.row t.col n)

theorem deal_of_inside {t : Triplet α} (hrow : t.row < n) (hcol : t.col < n)
    (rows : Vector (List (ℕ × α)) n) :
    deal rows t = .ok (Vector.ofFn fun i =>
      rows.get i ++ if t.row = i.val then [(t.col, t.value)] else []) := by
  rw [deal, dif_pos ⟨hrow, hcol⟩]
  refine congrArg Except.ok (Vector.ext fun i hi => ?_)
  rw [Vector.getElem_set, Vector.getElem_ofFn]
  by_cases hsame : t.row = i
  · subst hsame
    rw [if_pos rfl, if_pos rfl]
    rfl
  · rw [if_neg hsame, if_neg hsame, List.append_nil]
    rfl

/-- Each row gets its entries in their order, unless some triplet lies outside. -/
theorem foldlM_deal (rows : Vector (List (ℕ × α)) n) (triplets : List (Triplet α)) :
    triplets.foldlM deal rows = (triplets.find? fun t => n ≤ t.row || n ≤ t.col).elim
      (.ok (Vector.ofFn fun i => rows.get i ++ triplets.filterMap fun t =>
        if t.row = i.val then some (t.col, t.value) else none))
      fun t => .error (.entryOutOfBounds t.row t.col n) := by
  induction triplets generalizing rows with
  | nil =>
      refine congrArg Except.ok (Vector.ext fun i hi => ?_)
      rw [Vector.getElem_ofFn, List.filterMap_nil, List.append_nil]
      rfl
  | cons t triplets ih =>
      rw [List.foldlM_cons]
      by_cases hinside : t.row < n ∧ t.col < n
      · obtain ⟨hrow, hcol⟩ := hinside
        have hnot : (n ≤ t.row || n ≤ t.col) = false := by simp [hrow, hcol]
        simp only [deal_of_inside hrow hcol, List.find?_cons, hnot]
        refine (ih _).trans ?_
        cases triplets.find? fun t => n ≤ t.row || n ≤ t.col with
        | some s => rfl
        | none =>
            refine congrArg Except.ok (congrArg Vector.ofFn (funext fun i => ?_))
            refine (congrArg (· ++ _) (Vector.getElem_ofFn i.isLt)).trans ?_
            rw [List.append_assoc, List.filterMap_cons]
            split <;> rfl
      · have hoff : (n ≤ t.row || n ≤ t.col) = true := by
          simpa [imp_iff_not_or] using hinside
        simp only [deal, dif_neg hinside, List.find?_cons, hoff]
        rfl

end Deal

variable [Scalar α]

def addToLast (c : CompressedRows α) (v : α) : CompressedRows α :=
  match c.values.back? with
  | none => c
  | some acc => { c with values := c.values.pop.push (acc + v) }

/-- Take in an entry of a row, given the column of the one before it in the row. -/
def place (state : CompressedRows α × Option ℕ) (e : ℕ × α) : CompressedRows α × Option ℕ :=
  if state.2 = some e.1 then (state.1.addToLast e.2, state.2) else (state.1.push e, some e.1)

def pushRow (c : CompressedRows α) (entries : List (ℕ × α)) : CompressedRows α :=
  ((entries.mergeSort fun a b => a.1 ≤ b.1).foldl place (c, none)).1.endRow

theorem addToLast_push (c : CompressedRows α) (j : ℕ) (acc v : α) :
    (c.push (j, acc)).addToLast v = c.push (j, acc + v) := by
  simp [addToLast, push]

/-- Entries taken in after an entry gather the values of neighbours in one column. -/
theorem foldl_place (c : CompressedRows α) (col : ℕ) (acc : α) (rest : List (ℕ × α)) :
    (rest.foldl place (c.push (col, acc), some col)).1 =
      (SparseMatrix.gather col acc rest).foldl push c := by
  induction rest generalizing c col acc with
  | nil => rfl
  | cons e rest ih =>
      rw [List.foldl_cons, place, SparseMatrix.gather]
      by_cases hsame : e.1 = col
      · rw [if_pos (congrArg some hsame.symm), if_pos hsame, addToLast_push]
        exact ih c col (acc + e.2)
      · rw [if_neg fun h => hsame (Option.some.inj h).symm, if_neg hsame, List.foldl_cons]
        exact ih (c.push (col, acc)) e.1 e.2

theorem pushRow_eq (c : CompressedRows α) (entries : List (ℕ × α)) :
    c.pushRow entries = ((SparseMatrix.gatherRow entries).foldl push c).endRow := by
  rw [pushRow, SparseMatrix.gatherRow]
  cases entries.mergeSort fun a b => a.1 ≤ b.1 with
  | nil => rfl
  | cons e rest => exact congrArg endRow (foldl_place c e.1 e.2 rest)

theorem foldl_pushRow {n : ℕ} (rows : Vector (List (ℕ × α)) n) :
    rows.toList.foldl pushRow empty =
      (SparseMatrix.mk n (rows.map SparseMatrix.gatherRow)).compressedRows := by
  rw [← foldl_entries, Vector.toList_map, List.foldl_map]
  exact congrArg (fun f => rows.toList.foldl f empty) (funext₂ pushRow_eq)

def ofTriplets (n : ℕ) (triplets : List (Triplet α)) : Except OperatorError (CompressedRows α) := do
  let rows ← triplets.foldlM deal (Vector.replicate n [])
  return rows.toList.foldl pushRow empty

/-- Pushing row after row builds the lists of the sparse matrix of the triplets, or refuses what it
refuses. -/
theorem ofTriplets_eq (n : ℕ) (triplets : List (Triplet α)) :
    ofTriplets n triplets =
      (SparseMatrix.ofTriplets n triplets).map SparseMatrix.compressedRows := by
  rw [ofTriplets, SparseMatrix.ofTriplets, foldlM_deal]
  cases triplets.find? fun t => n ≤ t.row || n ≤ t.col with
  | some t => rfl
  | none =>
      refine congrArg Except.ok ?_
      rw [foldl_pushRow]
      refine congrArg (fun rows => (SparseMatrix.mk n rows).compressedRows) ?_
      refine Vector.ext fun i hi => ?_
      have hempty : (Vector.replicate n ([] : List (ℕ × α))).get ⟨i, hi⟩ = [] :=
        Vector.getElem_replicate hi
      rw [Vector.getElem_map, Vector.getElem_ofFn, Vector.getElem_ofFn]
      exact congrArg SparseMatrix.gatherRow (congrArg (· ++ _) hempty)

end CompressedRows

end SubspaceEigen
