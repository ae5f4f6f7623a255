import SubspaceEigen.Proofs.Operator.Construction
import SubspaceEigen.Proofs.Reals

/-!
# Sparse matrices from triplets

A matrix built from triplets holds, at the positions that triplets name and at no others, the sums of
their values in the order given, and the columns of each row ascend.  This fixes the matrix.  So it
is the same for triplets in another order where sums do not depend on the order.  The entries kept of
a dense matrix share no position, so that there is nothing to add up; they give the sparse form of
that matrix in any order and in any arithmetic.
-/

namespace SubspaceEigen

variable {α : Type}

namespace Triplet

def Inside (n : ℕ) (t : Triplet α) : Prop :=
  t.row < n ∧ t.col < n

/-- The values given for a position, in their order. -/
def given (triplets : List (Triplet α)) (i j : ℕ) : List α :=
  (triplets.filter fun t => t.row = i ∧ t.col = j).map value

def givenRow (triplets : List (Triplet α)) (i : ℕ) : List (ℕ × α) :=
  triplets.filterMap fun t => if t.row = i then some (t.col, t.value) else none

variable {triplets : List (Triplet α)} {n i j : ℕ}

theorem given_cons_self (i j : ℕ) (v : α) (triplets : List (Triplet α)) :
    given (⟨i, j, v⟩ :: triplets) i j = v :: given triplets i j := by
  simp [given]

theorem given_cons_of_ne {t : Triplet α} (h : ¬ (t.row = i ∧ t.col = j))
    (triplets : List (Triplet α)) : given (t :: triplets) i j = given triplets i j := by
  simp [given, h]

theorem given_eq_nil_iff : given triplets i j = [] ↔ ∀ t ∈ triplets, ¬ (t.row = i ∧ t.col = j) := by
  simp [given]

theorem valuesAt_givenRow (triplets : List (Triplet α)) (i j : ℕ) :
    SparseMatrix.valuesAt (givenRow triplets i) j = given triplets i j := by
  induction triplets with
  | nil => rfl
  | cons t triplets ih =>
      rw [givenRow, SparseMatrix.valuesAt, given] at ih ⊢
      by_cases hrow : t.row = i
      · by_cases hcol : t.col = j
        · simp [hrow, hcol, ih]
        · simp [hrow, hcol, ih]
      · simp [hrow, ih]

theorem fst_mem_givenRow {e : ℕ × α} (he : e ∈ givenRow triplets i) :
    ∃ t ∈ triplets, t.row = i ∧ t.col = e.1 := by
  obtain ⟨t, ht, hsome⟩ := List.mem_filterMap.mp he
  split at hsome
  · next hrow => exact ⟨t, ht, hrow, by rw [← Option.some.inj hsome]⟩
  · cases hsome

end Triplet

namespace SparseMatrix

open Triplet

variable {triplets : List (Triplet α)} {n : ℕ}

/-- If not all triplets lie inside of the matrix, there is a first one outside. -/
theorem exists_first_outside (h : ¬ ∀ t ∈ triplets, t.Inside n) :
    ∃ before t after, triplets = before ++ t :: after ∧ (∀ s ∈ before, s.Inside n) ∧
      ¬ t.Inside n := by
  induction triplets with
  | nil => exact absurd (fun t ht => by cases ht) h
  | cons first triplets ih =>
      by_cases hfirst : first.Inside n
      · have hrest : ¬ ∀ t ∈ triplets, t.Inside n :=
          fun hall => h (List.forall_mem_cons.mpr ⟨hfirst, hall⟩)
        obtain ⟨before, t, after, rfl, hbefore, ht⟩ := ih hrest
        exact ⟨first :: before, t, after, rfl, List.forall_mem_cons.mpr ⟨hfirst, hbefore⟩, ht⟩
      · exact ⟨[], first, triplets, rfl, fun s hs => (by cases hs), hfirst⟩

variable [Scalar α]

def ofRows (n : ℕ) (triplets : List (Triplet α)) : SparseMatrix α :=
  ⟨n, Vector.ofFn fun i => gatherRow (givenRow triplets i)⟩

theorem ofTriplets_of_inside (h : ∀ t ∈ triplets, t.Inside n) :
    ofTriplets n triplets = .ok (ofRows n triplets) := by
  have hnone : triplets.find? (fun t => n ≤ t.row || n ≤ t.col) = none := by
    rw [List.find?_eq_none]
    intro t ht
    simp [(h t ht).1, (h t ht).2]
  rw [ofTriplets, hnone]
  rfl

theorem ofTriplets_of_outside {before after : List (Triplet α)} {t : Triplet α}
    (hbefore : ∀ s ∈ before, s.Inside n) (ht : ¬ t.Inside n) :
    ofTriplets n (before ++ t :: after) = .error (.entryOutOfBounds t.row t.col n) := by
  have hfind : (before ++ t :: after).find? (fun t => n ≤ t.row || n ≤ t.col) = some t := by
    rw [List.find?_eq_some_iff_append]
    refine ⟨?_, before, after, rfl, fun s hs => ?_⟩
    · simpa [Inside, imp_iff_not_or] using ht
    · simp [(hbefore s hs).1, (hbefore s hs).2]
  rw [ofTriplets, hfind]

theorem ofTriplets_eq_ok_iff {m : SparseMatrix α} :
    ofTriplets n triplets = .ok m ↔ (∀ t ∈ triplets, t.Inside n) ∧ ofRows n triplets = m := by
  by_cases h : ∀ t ∈ triplets, t.Inside n
  · rw [ofTriplets_of_inside h, Except.ok.injEq, and_iff_right h]
  · refine iff_of_false (fun hok => ?_) fun hall => h hall.1
    obtain ⟨before, t, after, rfl, hbefore, ht⟩ := exists_first_outside h
    rw [ofTriplets_of_outside hbefore ht] at hok
    cases hok

theorem ofTriplets_eq_error_iff {e : OperatorError} :
    ofTriplets n triplets = .error e ↔ ∃ before t after, triplets = before ++ t :: after ∧
      (∀ s ∈ before, s.Inside n) ∧ ¬ t.Inside n ∧ e = .entryOutOfBounds t.row t.col n := by
  constructor
  · intro he
    have hsome : ¬ ∀ t ∈ triplets, t.Inside n := by
      intro hall
      rw [ofTriplets_of_inside hall] at he
      cases he
    obtain ⟨before, t, after, rfl, hbefore, ht⟩ := exists_first_outside hsome
    rw [ofTriplets_of_outside hbefore ht] at he
    exact ⟨before, t, after, rfl, hbefore, ht, (Except.error.inj he).symm⟩
  · rintro ⟨before, t, after, rfl, hbefore, ht, rfl⟩
    exact ofTriplets_of_outside hbefore ht

theorem mem_gatherRow_givenRow {i j : ℕ} {v : α} :
    (j, v) ∈ gatherRow (givenRow triplets i) ↔ leftSum? (given triplets i j) = some v := by
  rw [mem_gatherRow_iff, valuesAt_givenRow]

theorem forall_mem_ofRows {p : List (ℕ × α) → Prop}
    (h : ∀ i, p (gatherRow (givenRow triplets i))) : ∀ row ∈ (ofRows n triplets).entries, p row := by
  intro row hrow
  obtain ⟨i, rfl⟩ := Vector.mem_ofFn.mp hrow
  exact h i

/-- The matrix holds the sums of the values given for each position, and its compressed form can be
read. -/
structure Canonical (triplets : List (Triplet α)) (m : SparseMatrix α) : Prop where
  compressed : m.Compressed
  stores_iff : ∀ i j v, m.Stores i j v ↔ leftSum? (given triplets i j) = some v
  product : ∀ x : Array α, m.size ≤ x.size →
    ∃ y, m.indexedProduct x = .ok y ∧ m.product x = .ok y

theorem canonical_ofRows (h : ∀ t ∈ triplets, t.Inside n) :
    Canonical triplets (ofRows n triplets) := by
  have hinside : ∀ row ∈ (ofRows n triplets).entries, ∀ e ∈ row, e.1 < n :=
    forall_mem_ofRows fun i e he => by
      obtain ⟨e', he', hcol⟩ := List.mem_map.mp (fst_mem_gatherRow e he)
      obtain ⟨t, ht, -, htcol⟩ := fst_mem_givenRow he'
      exact hcol ▸ htcol ▸ (h t ht).2
  constructor
  case compressed =>
    exact compressed_of_rows hinside (forall_mem_ofRows fun i => ascending_gatherRow _)
  case stores_iff =>
    intro i j v
    rw [stores_iff, ← mem_gatherRow_givenRow]
    constructor
    · rintro ⟨hi, hmem⟩
      simpa [ofRows] using hmem
    · intro hmem
      have hsum := mem_gatherRow_givenRow.mp hmem
      have hi : i < n := by
        by_contra hout
        have hnone : given triplets i j = [] :=
          given_eq_nil_iff.mpr fun t ht hposition => hout (hposition.1 ▸ (h t ht).1)
        rw [hnone] at hsum
        cases hsum
      exact ⟨hi, by simpa [ofRows] using hmem⟩
  case product => exact fun x hx => exists_product hinside hx

section Order

theorem leftSum?_eq_sum (l : List ℝ) : leftSum? l = if l = [] then none else some l.sum := by
  cases l with
  | nil => rfl
  | cons v rest =>
      rw [leftSum?, if_neg (List.cons_ne_nil _ _), List.sum_cons]
      congr 1
      induction rest generalizing v with
      | nil => simp
      | cons w rest ih =>
          rw [List.foldl_cons, ih, List.sum_cons]
          exact add_assoc v w _

theorem leftSum?_perm {l l' : List ℝ} (h : l.Perm l') : leftSum? l = leftSum? l' := by
  have hnil : l = [] ↔ l' = [] := ⟨fun heq => (heq ▸ h).nil_eq.symm, fun heq => (heq ▸ h).eq_nil⟩
  simp only [leftSum?_eq_sum, h.sum_eq, hnil]

/-- In exact arithmetic the matrix does not depend on the order of the triplets. -/
theorem ofTriplets_perm {triplets listed : List (Triplet ℝ)}
    (h : triplets.Perm listed) {m : SparseMatrix ℝ} (hm : ofTriplets n triplets = .ok m) :
    ofTriplets n listed = .ok m := by
  obtain ⟨hinside, rfl⟩ := ofTriplets_eq_ok_iff.mp hm
  refine ofTriplets_eq_ok_iff.mpr ⟨fun t ht => hinside t (h.mem_iff.mpr ht), ?_⟩
  refine congrArg (SparseMatrix.mk n) (congrArg Vector.ofFn (funext fun i => ?_))
  refine gatherRow_eq (ascending_gatherRow _) fun j v => ?_
  rw [mem_gatherRow_givenRow, valuesAt_givenRow]
  exact Eq.congr_left (leftSum?_perm ((h.filter _).map _))

end Order

end SparseMatrix

namespace Square

variable [Scalar α] {n : ℕ}

/-- The entries of a dense matrix on the diagonal or with a magnitude above the limit. -/
def kept (a : Square α n) (limit : α) : List (Triplet α) :=
  ((List.finRange n ×ˢ List.finRange n).filter fun p =>
    p.1 = p.2 ∨ limit < Scalar.abs (a.entry p.1 p.2)).map fun p => ⟨p.1, p.2, a.entry p.1 p.2⟩

theorem mem_kept {a : Square α n} {limit : α} {t : Triplet α} :
    t ∈ a.kept limit ↔ ∃ i j : Fin n, (i = j ∨ limit < Scalar.abs (a.entry i j)) ∧
      t = ⟨i, j, a.entry i j⟩ := by
  rw [kept, List.mem_map]
  constructor
  · rintro ⟨⟨i, j⟩, hp, rfl⟩
    exact ⟨i, j, of_decide_eq_true (List.mem_filter.mp hp).2, rfl⟩
  · rintro ⟨i, j, hkept, rfl⟩
    refine ⟨(i, j), List.mem_filter.mpr ⟨?_, decide_eq_true hkept⟩, rfl⟩
    exact List.mem_product.mpr ⟨List.mem_finRange i, List.mem_finRange j⟩

theorem nodup_kept (a : Square α n) (limit : α) :
    ((a.kept limit).map fun t => (t.row, t.col)).Nodup := by
  have hpositions : (List.finRange n ×ˢ List.finRange n).Nodup :=
    (List.nodup_finRange n).product (List.nodup_finRange n)
  rw [kept, List.map_map]
  refine (hpositions.filter _).map fun p q h => ?_
  obtain ⟨hrow, hcol⟩ := Prod.mk.inj h
  exact Prod.ext (Fin.ext hrow) (Fin.ext hcol)

end Square

namespace SparseMatrix

open Triplet

variable [Scalar α] {n : ℕ}

/-- Where no position is given twice, the sums are the values. -/
theorem leftSum?_given {triplets : List (Triplet α)}
    (h : (triplets.map fun t => (t.row, t.col)).Nodup) (i j : ℕ) (v : α) :
    leftSum? (given triplets i j) = some v ↔ ⟨i, j, v⟩ ∈ triplets := by
  induction triplets with
  | nil => simp [given, leftSum?]
  | cons t triplets ih =>
      obtain ⟨hfirst, hrest⟩ := List.nodup_cons.mp h
      rw [List.mem_cons]
      by_cases hposition : t.row = i ∧ t.col = j
      · obtain ⟨rfl, rfl⟩ := hposition
        have hnone : given triplets t.row t.col = [] := by
          refine given_eq_nil_iff.mpr fun s hs hsame => hfirst (List.mem_map.mpr ⟨s, hs, ?_⟩)
          rw [hsame.1, hsame.2]
        have hnot : (⟨t.row, t.col, v⟩ : Triplet α) ∉ triplets := fun hmem =>
          hfirst (List.mem_map.mpr ⟨_, hmem, rfl⟩)
        rw [show given (t :: triplets) t.row t.col = t.value :: given triplets t.row t.col from
          given_cons_self t.row t.col t.value triplets, hnone, or_iff_left hnot]
        cases t
        simp [leftSum?, eq_comm]
      · rw [given_cons_of_ne hposition, ih hrest, or_iff_right]
        rintro rfl
        exact hposition ⟨rfl, rfl⟩

/-- The kept entries of a dense matrix in any order give its sparse form. -/
theorem ofTriplets_kept (a : Square α n) (limit : α) {listed : List (Triplet α)}
    (h : listed.Perm (a.kept limit)) :
    ofTriplets n listed = ofBlock ⟨n, a.toArray⟩ limit := by
  have hnodup : (listed.map fun t => (t.row, t.col)).Nodup :=
    (h.map _).nodup_iff.mpr (a.nodup_kept limit)
  have hmem : ∀ {t}, t ∈ listed ↔ ∃ i j : Fin n, (i = j ∨ limit < Scalar.abs (a.entry i j)) ∧
      t = ⟨i, j, a.entry i j⟩ := fun {t} => h.mem_iff.trans Square.mem_kept
  have hinside : ∀ t ∈ listed, t.Inside n := by
    intro t ht
    obtain ⟨i, j, -, rfl⟩ := hmem.mp ht
    exact ⟨i.isLt, j.isLt⟩
  rw [ofTriplets_of_inside hinside]
  simp only [ofBlock, Block.toSquare?_toArray]
  refine congrArg (fun rows => Except.ok (SparseMatrix.mk n (Vector.ofFn rows))) (funext fun i => ?_)
  refine gatherRow_eq ?_ fun j v => ?_
  · refine (List.pairwise_lt_finRange n).filterMap _ fun j k hlt b hb c hc => ?_
    split at hb
    · split at hc
      · rw [← Option.some.inj hb, ← Option.some.inj hc]
        exact hlt
      · cases hc
    · cases hb
  · rw [valuesAt_givenRow, leftSum?_given hnodup, hmem, List.mem_filterMap]
    constructor
    · rintro ⟨k, -, hsome⟩
      split at hsome
      · next hkept =>
        obtain ⟨rfl, rfl⟩ := Prod.mk.inj (Option.some.inj hsome)
        exact ⟨i, k, hkept, rfl⟩
      · cases hsome
    · rintro ⟨i', k, hkept, heq⟩
      obtain ⟨hi, rfl, rfl⟩ := Triplet.mk.inj heq
      obtain rfl := Fin.ext hi
      exact ⟨k, List.mem_finRange k, if_pos hkept⟩

/-- What is built from triplets in dimension `n`, by pushing row after row.  It is refused exactly if
some triplet lies outside, and then for the first of them; all others give a matrix in compressed
form, with the sums of the values from left to right at the positions that triplets name. -/
structure BuiltFrom (n : ℕ) (triplets : List (Triplet α)) : Prop where
  pushed : CompressedRows.ofTriplets n triplets = (ofTriplets n triplets).map compressedRows
  refused_iff : ∀ e, ofTriplets n triplets = .error e ↔
    ∃ before t after, triplets = before ++ t :: after ∧ (∀ s ∈ before, s.Inside n) ∧
      ¬ t.Inside n ∧ e = .entryOutOfBounds t.row t.col n
  built_iff : (∃ m, ofTriplets n triplets = .ok m) ↔ ∀ t ∈ triplets, t.Inside n
  canonical : ∀ m, ofTriplets n triplets = .ok m → m.size = n ∧ Canonical triplets m

/-- Triplets give a canonical matrix in any arithmetic.  In exact arithmetic it does not depend on
their order; that of the kept entries of a dense matrix does not in any, and is its sparse form. -/
theorem ofTriplets_canonical :
    (∀ {α : Type} [Scalar α] (n : ℕ) (triplets : List (Triplet α)), BuiltFrom n triplets) ∧
    (∀ (n : ℕ) {triplets listed : List (Triplet ℝ)}, triplets.Perm listed → ∀ m,
      ofTriplets n triplets = .ok m → ofTriplets n listed = .ok m) ∧
    ∀ {α : Type} [Scalar α] {n : ℕ} (a : Square α n) (limit : α) {listed : List (Triplet α)},
      listed.Perm (a.kept limit) → ofTriplets n listed = ofBlock ⟨n, a.toArray⟩ limit := by
  refine ⟨fun n triplets => ?_, fun n _ _ h m hm => ofTriplets_perm h hm,
    fun a limit _ h => ofTriplets_kept a limit h⟩
  constructor
  case pushed => exact CompressedRows.ofTriplets_eq n triplets
  case refused_iff => exact fun e => ofTriplets_eq_error_iff
  case built_iff => simp only [ofTriplets_eq_ok_iff, exists_and_left, exists_eq', and_true]
  case canonical =>
    intro m hm
    obtain ⟨hinside, rfl⟩ := ofTriplets_eq_ok_iff.mp hm
    exact ⟨rfl, canonical_ofRows hinside⟩

/-- Four entries, two of them for one position, from the last to the first; and the entries kept of
the identity, from the last to the first. -/
theorem ofTriplets_canonical_reversed :
    let triplets : List (Triplet ℝ) := [⟨0, 0, 1⟩, ⟨2, 1, 4⟩, ⟨0, 0, 2⟩, ⟨1, 2, -1⟩]
    let a : Square Binary64 2 := Square.identity 2
    triplets.Perm triplets.reverse ∧
      (∃ m, ofTriplets 3 triplets = .ok m ∧ ofTriplets 3 triplets.reverse = .ok m ∧
        m.Stores 0 0 3) ∧
      ofTriplets 2 (a.kept 0).reverse = ofBlock ⟨2, a.toArray⟩ 0 := by
  intro triplets a
  obtain ⟨hbuilt, hperm, hdense⟩ := ofTriplets_canonical
  have hreverse : triplets.Perm triplets.reverse := (List.reverse_perm triplets).symm
  obtain ⟨m, hm⟩ := (hbuilt 3 triplets).built_iff.mpr fun t ht => by
    simp only [triplets, List.mem_cons, List.not_mem_nil, or_false] at ht
    rcases ht with rfl | rfl | rfl | rfl
    all_goals exact ⟨by decide, by decide⟩
  obtain ⟨-, hcanonical⟩ := (hbuilt 3 triplets).canonical m hm
  refine ⟨hreverse, ⟨m, hm, hperm 3 hreverse m hm, (hcanonical.stores_iff 0 0 3).mpr ?_⟩,
    hdense a 0 (List.reverse_perm _)⟩
  have hgiven : given triplets 0 0 = [1, 2] := by simp [triplets, given]
  rw [hgiven]
  exact congrArg some (by norm_num)

end SparseMatrix

end SubspaceEigen
