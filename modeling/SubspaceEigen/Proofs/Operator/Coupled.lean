import SubspaceEigen.Proofs.Operator.Represents
import SubspaceEigen.Proofs.Ritz.Restriction

/-!
# Diagonal matrices with a coupling

A matrix whose leading block is diagonal, with each position of the block coupled to a position
outside it.
-/

namespace SubspaceEigen

open Column

/-- The position outside the guess to which a guess position is coupled. -/
def partner (n guess j : ℕ) : ℕ :=
  guess + j % (n - guess)

/-- The diagonal `0, 1, …, n - 1`, and a coupling of every guess position to its partner. -/
noncomputable def Square.coupled (n guess : ℕ) (weight : ℝ) : Square ℝ n :=
  Vector.ofFn fun j => Vector.ofFn fun i =>
    if i = j then (i.val : ℝ)
    else if i.val < guess ∧ j.val = partner n guess i ∨ j.val < guess ∧ i.val = partner n guess j
      then weight
    else 0

variable {n guess : ℕ} {weight : ℝ}

theorem partner_lt (hguess : guess < n) (j : ℕ) : partner n guess j < n := by
  have hrest := Nat.mod_lt j (Nat.sub_pos_of_lt hguess)
  unfold partner
  omega

theorem guess_le_partner (n guess j : ℕ) : guess ≤ partner n guess j :=
  Nat.le_add_right _ _

theorem Square.entry_coupled {i j : ℕ} (hi : i < n) (hj : j < n) :
    (Square.coupled n guess weight).entry i j =
      if i = j then (i : ℝ)
      else if i < guess ∧ j = partner n guess i ∨ j < guess ∧ i = partner n guess j then weight
      else 0 := by
  rw [Square.entry_eq _ hi hj]
  simp [Square.coupled]

theorem Square.coupled_isSymmetric (n guess : ℕ) (weight : ℝ) :
    (Square.coupled n guess weight).IsSymmetric := by
  intro i j
  rw [entry_coupled i.isLt j.isLt, entry_coupled j.isLt i.isLt]
  by_cases hij : i.val = j.val
  · rw [if_pos hij, if_pos hij.symm, hij]
  · rw [if_neg hij, if_neg (Ne.symm hij)]
    simp only [or_comm]

theorem Square.coupled_unit (hguess : guess < n) {j : ℕ} (hj : j < guess) :
    (Square.coupled n guess weight).toLinearMap (point (Column.unit n j)) =
      (j : ℝ) • point (Column.unit n j) + weight • point (Column.unit n (partner n guess j)) := by
  have hjn : j < n := hj.trans hguess
  have hpartner := guess_le_partner n guess j
  rw [Square.toLinearMap_unit _ hjn]
  ext ⟨i, hi⟩
  show (Square.coupled n guess weight)[j][i] =
    (j : ℝ) * (Column.unit n j)[i] + weight * (Column.unit n (partner n guess j))[i]
  rw [← Square.entry_eq _ hi hjn, entry_coupled hi hjn, getElem_unit hi, getElem_unit hi]
  by_cases hij : i = j
  · have hne : ¬ i = partner n guess j := by omega
    rw [if_pos hij, if_pos hij, if_neg hne, hij, mul_one, mul_zero, add_zero]
  · have hback : ¬ (i < guess ∧ j = partner n guess i) := by
      rintro ⟨-, rfl⟩
      exact absurd hj (not_lt.mpr (guess_le_partner n guess i))
    rw [if_neg hij, if_neg hij, mul_zero, zero_add]
    by_cases hpos : i = partner n guess j
    · rw [if_pos (.inr ⟨hj, hpos⟩), if_pos hpos, mul_one]
    · rw [if_neg (not_or.mpr ⟨hback, fun h => hpos h.2⟩), if_neg hpos, mul_zero]

theorem Square.getElem_coupled_diagonal {k : ℕ} (hk : k < n) :
    (Square.coupled n guess weight).diagonal[k] = k := by
  simp [Square.diagonal, entry_coupled hk hk]

theorem Square.coupled_diagonal_pairwise (n guess : ℕ) (weight : ℝ) :
    (Square.coupled n guess weight).diagonal.toList.Pairwise (· ≤ ·) := by
  rw [List.pairwise_iff_getElem]
  intro i j hi hj hij
  rw [Vector.length_toList] at hi hj
  simp only [Vector.getElem_toList, getElem_coupled_diagonal hi, getElem_coupled_diagonal hj]
  exact Nat.cast_le.mpr hij.le

theorem Columns.mem_span_units {m : ℕ} {x : Euclid n} (h : ∀ i : Fin n, m ≤ i.val → x i = 0) :
    x ∈ Columns.span ((List.range m).map (Column.unit n)).toArray := by
  rw [← (EuclideanSpace.basisFun (Fin n) ℝ).sum_repr x]
  refine Submodule.sum_mem _ fun i _ => ?_
  rw [EuclideanSpace.basisFun_repr, EuclideanSpace.basisFun_apply]
  by_cases hi : i.val < m
  · rw [← point_unit]
    exact Submodule.smul_mem _ _ (Columns.mem_span_of_mem
      (List.mem_toArray.mpr (List.mem_map_of_mem (List.mem_range.mpr hi))))
  · rw [h i (not_lt.mp hi), zero_smul]
    exact Submodule.zero_mem _

/-- Leading axes that hold the guess and all its partners are kept. -/
theorem Square.coupled_maps_units {m : ℕ} (hguess : guess ≤ m) (hm : m ≤ n)
    (hpartner : ∀ j < guess, partner n guess j < m) :
    ∀ x ∈ Columns.span ((List.range m).map (Column.unit n)).toArray,
      (Square.coupled n guess weight).toLinearMap x ∈
        Columns.span ((List.range m).map (Column.unit n)).toArray := by
  refine Columns.map_mem_span fun x hx => ?_
  obtain ⟨k, hk, rfl⟩ := List.mem_map.mp (List.mem_toArray.mp hx)
  have hkm : k < m := List.mem_range.mp hk
  refine Columns.mem_span_units fun ⟨i, hin⟩ hi => ?_
  rw [Square.toLinearMap_unit _ (hkm.trans_le hm)]
  change (Square.coupled n guess weight)[k][i] = 0
  rw [← Square.entry_eq _ hin (hkm.trans_le hm), entry_coupled hin (hkm.trans_le hm),
    if_neg (hkm.trans_le hi).ne', if_neg]
  rintro (⟨hlow, -⟩ | ⟨hlow, heq⟩)
  · exact absurd hlow (not_lt.mpr (hguess.trans hi))
  · exact absurd (hpartner k hlow) (not_lt.mpr (heq ▸ hi))

end SubspaceEigen
