import Mathlib.Data.Nat.Basic
import Mathlib.Order.Basic
import SubspaceEigen.Operator.Sparse

/-!
# Gathered rows

The entries given for a row are sorted by their columns, and neighbours of one column are added up.
The sort is stable: it keeps the order of the entries of one column.  So each column is left with the
sum of its values from the first given to the last, in whatever arithmetic.  Ascending columns and
these sums determine the row.
-/

namespace SubspaceEigen.SparseMatrix

variable {α : Type}

/-- The columns of a row ascend, none of them twice. -/
def Ascending (row : List (ℕ × α)) : Prop :=
  row.Pairwise fun a b => a.1 < b.1

/-- The values of the entries in one column, in their order. -/
def valuesAt (row : List (ℕ × α)) (j : ℕ) : List α :=
  (row.filter fun e => e.1 = j).map Prod.snd

@[simp] theorem valuesAt_nil (j : ℕ) : valuesAt ([] : List (ℕ × α)) j = [] :=
  rfl

theorem valuesAt_cons_self (j : ℕ) (v : α) (row : List (ℕ × α)) :
    valuesAt ((j, v) :: row) j = v :: valuesAt row j := by
  simp [valuesAt]

theorem valuesAt_cons_of_ne {e : ℕ × α} {j : ℕ} (h : e.1 ≠ j) (row : List (ℕ × α)) :
    valuesAt (e :: row) j = valuesAt row j := by
  simp [valuesAt, h]

theorem valuesAt_eq_nil {row : List (ℕ × α)} {j : ℕ} (h : ∀ e ∈ row, e.1 ≠ j) :
    valuesAt row j = [] := by
  rw [valuesAt, List.filter_eq_nil_iff.mpr fun e he => by simpa using h e he, List.map_nil]

/-- Sorting by columns keeps the order of the values of each column. -/
theorem valuesAt_mergeSort (row : List (ℕ × α)) (j : ℕ) :
    valuesAt (row.mergeSort fun a b => a.1 ≤ b.1) j = valuesAt row j := by
  let le : ℕ × α → ℕ × α → Bool := fun a b => a.1 ≤ b.1
  let sorted := row.mergeSort le
  have hsublist : (row.filter fun e => e.1 = j).Sublist sorted := by
    refine List.sublist_mergeSort ?_ ?_ (List.pairwise_of_forall_mem_list ?_) List.filter_sublist
    · intro a b c hab hbc
      simp only [le, decide_eq_true_eq] at *
      omega
    · intro a b
      simp only [le, Bool.or_eq_true, decide_eq_true_eq]
      omega
    · intro a ha b hb
      simp only [List.mem_filter, decide_eq_true_eq] at ha hb
      simp [le, ha.2, hb.2]
  have hfilter := hsublist.filter fun e => decide (e.1 = j)
  rw [List.filter_filter] at hfilter
  have hlength : (sorted.filter fun e => e.1 = j).length = (row.filter fun e => e.1 = j).length :=
    ((List.mergeSort_perm row le).filter _).length_eq
  have heq := hfilter.eq_of_length (by simpa using hlength.symm)
  simp only [Bool.and_self] at heq
  exact congrArg (List.map Prod.snd) heq.symm

theorem pairwise_mergeSort (row : List (ℕ × α)) :
    (row.mergeSort fun a b => a.1 ≤ b.1).Pairwise fun a b => a.1 ≤ b.1 := by
  refine (List.pairwise_mergeSort ?_ ?_ row).imp fun h => by simpa using h
  · intro a b c hab hbc
    simp only [decide_eq_true_eq] at *
    omega
  · intro a b
    simp only [Bool.or_eq_true, decide_eq_true_eq]
    omega

/-- Rows that ascend and have the same entries are equal. -/
theorem Ascending.eq {row row' : List (ℕ × α)} (h : Ascending row) (h' : Ascending row')
    (hmem : ∀ e, e ∈ row ↔ e ∈ row') : row = row' := by
  have hnodup : ∀ {r : List (ℕ × α)}, Ascending r → r.Nodup :=
    fun hr => hr.imp fun hlt heq => hlt.ne (congrArg Prod.fst heq)
  refine ((List.perm_ext_iff_of_nodup (hnodup h) (hnodup h')).mpr hmem).eq_of_pairwise ?_ h h'
  intro a b _ _ hab hba
  exact absurd hab hba.not_gt

variable [Scalar α]

/-- The sum from the first value on, from left to right; nothing has no sum. -/
def leftSum? : List α → Option α
  | [] => none
  | v :: rest => some (rest.foldl (· + ·) v)

section Gather

variable {col j : ℕ} {acc v : α} {rest : List (ℕ × α)}

theorem fst_mem_gather :
    ∀ e ∈ gather col acc rest, e.1 = col ∨ e.1 ∈ rest.map Prod.fst := by
  induction rest generalizing col acc with
  | nil => simp [gather]
  | cons first rest ih =>
      intro e he
      rw [gather] at he
      split at he
      · rcases ih e he with hcol | hrest
        · exact .inl hcol
        · exact .inr (List.mem_cons_of_mem _ hrest)
      · rcases List.mem_cons.mp he with rfl | he
        · exact .inl rfl
        · rcases ih e he with hcol | hrest
          · exact .inr (hcol ▸ List.mem_cons_self ..)
          · exact .inr (List.mem_cons_of_mem _ hrest)

theorem ascending_gather (h : ((col, acc) :: rest).Pairwise fun a b => a.1 ≤ b.1) :
    Ascending (gather col acc rest) := by
  induction rest generalizing col acc with
  | nil => simp [gather, Ascending]
  | cons first rest ih =>
      obtain ⟨hfirst, hrest⟩ := List.pairwise_cons.mp h
      rw [gather]
      split
      · exact ih (List.pairwise_cons.mpr
          ⟨fun e he => hfirst e (List.mem_cons_of_mem _ he), (List.pairwise_cons.mp hrest).2⟩)
      · next hne =>
        have hlt : col < first.1 := lt_of_le_of_ne (hfirst first (List.mem_cons_self ..)) (Ne.symm hne)
        refine List.pairwise_cons.mpr ⟨fun e he => ?_, ih hrest⟩
        rcases fst_mem_gather e he with hcol | hmem
        · exact hcol ▸ hlt
        · obtain ⟨e', he', hcol⟩ := List.mem_map.mp hmem
          exact hlt.trans_le (hcol ▸ (List.pairwise_cons.mp hrest).1 e' he')

/-- Each column of sorted entries is left with the sum of its values. -/
theorem mem_gather_iff (h : ((col, acc) :: rest).Pairwise fun a b => a.1 ≤ b.1) :
    (j, v) ∈ gather col acc rest ↔ leftSum? (valuesAt ((col, acc) :: rest) j) = some v := by
  induction rest generalizing col acc with
  | nil =>
      by_cases hcol : col = j
      · subst hcol
        simp [gather, valuesAt_cons_self, leftSum?, eq_comm]
      · rw [valuesAt_cons_of_ne hcol]
        simp [gather, leftSum?, Ne.symm hcol]
  | cons first rest ih =>
      obtain ⟨k, w⟩ := first
      obtain ⟨hfirst, hrest⟩ := List.pairwise_cons.mp h
      have hle : ∀ e ∈ rest, k ≤ e.1 := (List.pairwise_cons.mp hrest).1
      rw [gather]
      split
      · next hsame =>
        subst hsame
        rw [ih (List.pairwise_cons.mpr ⟨hle, (List.pairwise_cons.mp hrest).2⟩)]
        by_cases hk : k = j
        · subst hk
          simp [valuesAt_cons_self, leftSum?]
        · rw [valuesAt_cons_of_ne hk, valuesAt_cons_of_ne hk, valuesAt_cons_of_ne hk]
      · next hne =>
        have hlt : col < k := lt_of_le_of_ne (hfirst (k, w) (List.mem_cons_self ..)) (Ne.symm hne)
        rw [List.mem_cons, ih hrest]
        by_cases hcol : col = j
        · subst hcol
          have hnone : valuesAt ((k, w) :: rest) col = [] := by
            refine valuesAt_eq_nil fun e he => ?_
            rcases List.mem_cons.mp he with rfl | he
            · exact hlt.ne'
            · exact (hlt.trans_le (hle e he)).ne'
          rw [valuesAt_cons_self, hnone]
          simp [leftSum?, eq_comm]
        · rw [valuesAt_cons_of_ne (e := (col, acc)) hcol]
          simp [Ne.symm hcol]

end Gather

section GatherRow

variable {entries : List (ℕ × α)} {j : ℕ} {v : α}

theorem ascending_gatherRow (entries : List (ℕ × α)) : Ascending (gatherRow entries) := by
  have hsorted := pairwise_mergeSort entries
  rw [gatherRow]
  split
  · exact List.Pairwise.nil
  · next first rest heq =>
    rw [heq] at hsorted
    exact ascending_gather hsorted

theorem mem_gatherRow_iff :
    (j, v) ∈ gatherRow entries ↔ leftSum? (valuesAt entries j) = some v := by
  have hsorted := pairwise_mergeSort entries
  rw [← valuesAt_mergeSort, gatherRow]
  split
  · next heq => simp [heq, leftSum?]
  · next first rest heq =>
    rw [heq] at hsorted ⊢
    exact mem_gather_iff hsorted

theorem fst_mem_gatherRow : ∀ e ∈ gatherRow entries, e.1 ∈ entries.map Prod.fst := by
  rintro ⟨j, v⟩ he
  by_contra hmem
  have hnone : valuesAt entries j = [] :=
    valuesAt_eq_nil fun e he heq => hmem (List.mem_map.mpr ⟨e, he, heq⟩)
  rw [mem_gatherRow_iff, hnone] at he
  cases he

/-- A row is what is gathered if it ascends and holds the sums. -/
theorem gatherRow_eq {row : List (ℕ × α)} (h : Ascending row)
    (hmem : ∀ j v, (j, v) ∈ row ↔ leftSum? (valuesAt entries j) = some v) :
    gatherRow entries = row :=
  (ascending_gatherRow entries).eq h fun e => mem_gatherRow_iff.trans (hmem e.1 e.2).symm

end GatherRow

end SubspaceEigen.SparseMatrix
