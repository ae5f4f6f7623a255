import SubspaceEigen.Proofs.Solver.Guess

/-!
# Guesses with noise

Noise is added to every entry of the coordinate vectors of a guess.  With an amplitude below one it
cannot cancel the entry one, so the first column keeps a direction and the guess keeps a column.
With any other amplitude there are draws that cancel every entry; then nothing is left of the guess.
-/

namespace SubspaceEigen

open scoped RealInnerProductSpace
open Column

variable {n : ℕ} {dense : Factorizations ℝ} {v : Columns ℝ n}

theorem GramSchmidt.insert_of_point_eq_zero {basis : Columns ℝ n} (h : basis.IsOrthonormal)
    {x : Vector ℝ n} (hx : point x = 0) : insert basis x = basis := by
  rw [insert, direction?_eq h, if_pos (.inl hx)]

/-- A column that is not zero is the first of a basis, up to its norm. -/
theorem GramSchmidt.size_insert_empty {x : Vector ℝ n} (hx : point x ≠ 0) :
    (insert (#[] : Columns ℝ n) x).size = 1 := by
  have hoff : Columns.off (#[] : Columns ℝ n) (point x) = point x :=
    Columns.off_eq_self (by simp)
  have hlarge : ¬ ‖point x‖ < dependenceTolerance * ‖point x‖ := by
    have hpos := norm_pos_iff.mpr hx
    nlinarith [dependenceTolerance_lt_one]
  rw [insert, direction?_eq Columns.isOrthonormal_empty, hoff, if_neg (not_or.mpr ⟨hx, hlarge⟩)]
  rfl

theorem gramSchmidt_zero (v : Columns ℝ n) :
    gramSchmidt v 0 = v.toList.foldl GramSchmidt.insert #[] := by
  have hall : v.extract 0 v.size = v := Array.extract_size
  rw [gramSchmidt, hall, ← Array.foldl_toList]
  simp

theorem GramSchmidt.foldl_insert_of_zero {vs : List (Vector ℝ n)} (hzero : ∀ x ∈ vs, point x = 0) :
    vs.foldl insert (#[] : Columns ℝ n) = #[] := by
  induction vs with
  | nil => rfl
  | cons x vs ih =>
      obtain ⟨hx, hrest⟩ := List.forall_mem_cons.mp hzero
      rw [List.foldl_cons, insert_of_point_eq_zero Columns.isOrthonormal_empty hx]
      exact ih hrest

/-- The diagonal of the triangular factor of columns that are all zero is zero. -/
theorem qrOrthonormalize_eq_empty (hd : dense.TriangularExact) (hzero : ∀ x ∈ v, point x = 0) :
    qrOrthonormalize dense v = #[] := by
  have hdiagonal : ∀ j : Fin (dense.triangular v).order,
      (dense.triangular v).diagonal[j] = 0 := by
    intro j
    have hv : j.val < v.size := j.isLt.trans_le (hd v).order_le
    rw [(hd v).diagonal_eq_inner j hv, hzero _ (Array.getElem_mem hv), inner_zero_right]
  have hpivot : 0 ≤ (dense.triangular v).largestPivot :=
    (TriangularFactors.largestPivot_le_iff.mp le_rfl).1
  rw [← Array.toList_eq_nil_iff, toList_qrOrthonormalize, List.filterMap_eq_nil_iff]
  intro j hj
  by_contra hkept
  obtain ⟨x, hx⟩ := Option.ne_none_iff_exists'.mp hkept
  obtain ⟨hlarge, -⟩ := TriangularFactors.kept?_eq_some_iff.mp hx
  rw [hdiagonal, abs_zero] at hlarge
  exact absurd hlarge (not_lt.mpr (mul_nonneg dependenceTolerance_pos.le hpivot))

theorem SearchSpace.orthonormalize_eq_empty (hd : dense.TriangularExact)
    (method : Orthogonalization) (hzero : ∀ x ∈ v, point x = 0) :
    orthonormalize dense method v 0 = #[] := by
  cases method with
  | gramSchmidt =>
      rw [orthonormalize, gramSchmidt_zero]
      exact GramSchmidt.foldl_insert_of_zero fun x hx => hzero x (Array.mem_toList_iff.mp hx)
  | qr => exact qrOrthonormalize_eq_empty hd hzero

theorem size_gramSchmidt_pos_of_first (hpos : 0 < v.size) (hfirst : point v[0] ≠ 0) :
    0 < (gramSchmidt v 0).size := by
  rcases v with ⟨_ | ⟨x, rest⟩⟩
  · exact absurd hpos (lt_irrefl 0)
  have hx : point x ≠ 0 := hfirst
  have horth : (GramSchmidt.insert #[] x).IsOrthonormal := by
    simpa using (GramSchmidt.foldl_insert Columns.isOrthonormal_empty [x]).1
  obtain ⟨-, added, hadded⟩ := GramSchmidt.foldl_insert horth rest
  rw [gramSchmidt_zero, List.foldl_cons, hadded, Array.size_append,
    GramSchmidt.size_insert_empty hx]
  omega

/-- The first column is its diagonal entry times the first factor column, so that entry is a pivot. -/
theorem size_qrOrthonormalize_pos_of_first (hd : dense.TriangularExact) (hpos : 0 < v.size)
    (hfirst : point v[0] ≠ 0) : 0 < (qrOrthonormalize dense v).size := by
  have hn : 0 < n := by
    by_contra hzero
    obtain rfl : n = 0 := by omega
    exact hfirst (Subsingleton.elim _ _)
  have horder : 0 < (dense.triangular v).order := by
    rw [(hd v).order_eq]
    omega
  let first : Fin (dense.triangular v).order := ⟨0, horder⟩
  have hsum : point v[0] =
      (dense.triangular v).diagonal[first] • point (dense.triangular v).q[first] :=
    (hd v).eq_diagonal_smul first hpos fun i hi => absurd hi (Nat.not_lt_zero _)
  have hdiagonal : (dense.triangular v).diagonal[first] ≠ 0 := by
    intro hzero
    rw [hsum, hzero, zero_smul] at hfirst
    exact hfirst rfl
  exact size_qrOrthonormalize_pos_of_largestPivot
    ((abs_pos.mpr hdiagonal).trans_le ((dense.triangular v).abs_diagonal_le first))

theorem SearchSpace.size_orthonormalize_pos (hd : dense.TriangularExact)
    (method : Orthogonalization) (hpos : 0 < v.size) (hfirst : point v[0] ≠ 0) :
    0 < (orthonormalize dense method v 0).size := by
  cases method with
  | gramSchmidt => exact size_gramSchmidt_pos_of_first hpos hfirst
  | qr => exact size_qrOrthonormalize_pos_of_first hd hpos hfirst

namespace Noise

theorem size_perturb (amplitude : ℝ) (draws : ℕ → ℝ) (v : Columns ℝ n) :
    (perturb amplitude draws v).size = v.size :=
  Array.size_mapIdx

theorem getElem_perturb (amplitude : ℝ) (draws : ℕ → ℝ) {j i : ℕ} (hj : j < v.size) (hi : i < n)
    (hj' : j < (perturb amplitude draws v).size) :
    (perturb amplitude draws v)[j][i] = v[j][i] + amplitude * (2 * draws (j * n + i) - 1) := by
  simp only [perturb, Array.getElem_mapIdx, Vector.getElem_mapIdx]
  norm_num

theorem bits_lt (seed : UInt64) (index : ℕ) : bits seed index < 2 ^ 53 := by
  have hshift : ∀ word : UInt64, (word >>> 11).toNat < 2 ^ 53 := by
    intro word
    have hword := word.toNat_lt
    rw [UInt64.toNat_shiftRight, Nat.shiftRight_eq_div_pow]
    exact Nat.div_lt_of_lt_mul hword
  exact hshift _

/-- The draws of a seed are in the unit interval. -/
theorem draw_mem (seed : UInt64) (index : ℕ) :
    (0 : ℝ) ≤ draw seed index ∧ draw seed index < (1 : ℝ) := by
  rw [draw]
  constructor
  · positivity
  · rw [div_lt_one (by norm_num)]
    exact_mod_cast bits_lt seed index

/-- The entry that a draw is added to; zero beyond the last column. -/
def entryAt (v : Columns ℝ n) (k : ℕ) : ℝ :=
  match v[k / n]? with
  | some x => x.toArray.getD (k % n) 0
  | none => 0

/-- Draws that cancel every entry. -/
noncomputable def cancelling (amplitude : ℝ) (v : Columns ℝ n) (k : ℕ) : ℝ :=
  (1 - entryAt v k / amplitude) / (1 + 1)

theorem entryAt_eq {j i : ℕ} (hj : j < v.size) (hi : i < n) :
    entryAt v (j * n + i) = v[j][i] := by
  have hcolumn : (j * n + i) / n = j := by
    rw [Nat.mul_comm, Nat.mul_add_div (by omega), Nat.div_eq_of_lt hi, Nat.add_zero]
  have hrow : (j * n + i) % n = i := by
    rw [Nat.mul_comm, Nat.mul_add_mod, Nat.mod_eq_of_lt hi]
  rw [entryAt, hcolumn, hrow, Array.getElem?_eq_getElem hj]
  simp [hi]

theorem point_perturb_cancelling {amplitude : ℝ} (h : amplitude ≠ 0) {x : Vector ℝ n}
    (hx : x ∈ perturb amplitude (cancelling amplitude v) v) : point x = 0 := by
  obtain ⟨j, hj, rfl⟩ := Array.getElem_of_mem hx
  have hv : j < v.size := by rwa [size_perturb] at hj
  ext i
  change (perturb amplitude (cancelling amplitude v) v)[j][i.val] = 0
  rw [getElem_perturb _ _ hv i.isLt hj, cancelling, entryAt_eq hv i.isLt]
  field_simp
  ring

theorem cancelling_mem {amplitude : ℝ} (h : 0 < amplitude)
    (hv : ∀ k, 0 ≤ entryAt v k ∧ entryAt v k ≤ amplitude) (k : ℕ) :
    0 ≤ cancelling amplitude v k ∧ cancelling amplitude v k < 1 := by
  have hle : entryAt v k / amplitude ≤ 1 := (div_le_one h).mpr (hv k).2
  have hnonneg : 0 ≤ entryAt v k / amplitude := div_nonneg (hv k).1 h.le
  rw [cancelling]
  constructor <;> linarith

theorem entryAt_cases (v : Columns ℝ n) (k : ℕ) :
    entryAt v k = 0 ∨ ∃ x ∈ v, ∃ (i : ℕ) (hi : i < n), entryAt v k = x[i] := by
  unfold entryAt
  split
  · next x hx =>
    by_cases hrow : k % n < n
    · exact .inr ⟨x, Array.mem_of_getElem? hx, k % n, hrow, by simp [hrow]⟩
    · exact .inl (by simp [hrow])
  · exact .inl rfl

end Noise

section Guess

variable (kind : OperatorKind) (diagonal : Vector ℝ n) (size : ℕ)

theorem exists_unit_of_mem_unitGuess {x : Vector ℝ n} (hx : x ∈ unitGuess kind diagonal size) :
    ∃ k < n, x = Column.unit n k := by
  rw [unitGuess, List.mem_toArray, List.mem_map] at hx
  obtain ⟨k, hk, rfl⟩ := hx
  have hrange := (ranking_perm diagonal.toList).mem_iff.mp
    (List.mem_of_mem_drop (List.mem_of_mem_take hk))
  rw [List.mem_range, Vector.length_toList] at hrange
  exact ⟨k, hrange, rfl⟩

theorem entryAt_unitGuess_mem (k : ℕ) :
    0 ≤ Noise.entryAt (unitGuess kind diagonal size) k ∧
      Noise.entryAt (unitGuess kind diagonal size) k ≤ 1 := by
  rcases Noise.entryAt_cases (unitGuess kind diagonal size) k with
    hzero | ⟨x, hx, i, hi, hentry⟩
  · rw [hzero]
    exact ⟨le_rfl, zero_le_one⟩
  · obtain ⟨l, -, rfl⟩ := exists_unit_of_mem_unitGuess kind diagonal size hx
    rw [hentry]
    by_cases hl : i = l
    · simp [Column.unit, hl]
    · simp [Column.unit, hl]

end Guess

namespace Config

variable {c : Config ℝ} {draws : ℕ → ℝ}

/-- With an amplitude below one a guess keeps a column, whatever the draws. -/
theorem size_guess_pos (hd : dense.TriangularExact) (hnoise : c.guessNoise < 1)
    (hdraws : ∀ k, 0 ≤ draws k) (diagonal : Vector ℝ n) {size : ℕ} (hpos : 0 < size)
    (hsize : size ≤ c.kind.available n) : 0 < (c.guess dense draws diagonal size).size := by
  rcases le_or_gt c.guessNoise 0 with hnone | hsome
  · rwa [size_guess_of_noise_le hnone dense draws diagonal hsize]
  have hunits : 0 < (unitGuess c.kind diagonal size).size := by
    rwa [size_unitGuess, min_eq_left hsize]
  obtain ⟨k, hk, hfirst⟩ := exists_unit_of_mem_unitGuess c.kind diagonal size
    (Array.getElem_mem hunits)
  have hsame := Noise.size_perturb c.guessNoise draws (unitGuess c.kind diagonal size)
  rw [guess, if_pos hsome]
  refine SearchSpace.size_orthonormalize_pos hd _ (by rwa [hsame]) fun hzero => ?_
  have hentry : (1 : ℝ) + c.guessNoise * (2 * draws (0 * n + k) - 1) = 0 := by
    have hvanishes := congrArg (fun p : Euclid n => p ⟨k, hk⟩) hzero
    change (Noise.perturb c.guessNoise draws (unitGuess c.kind diagonal size))[0][k] = 0
      at hvanishes
    rwa [Noise.getElem_perturb _ _ hunits hk, hfirst, Column.unit, Vector.getElem_ofFn,
      if_pos rfl] at hvanishes
  nlinarith [hdraws (0 * n + k)]

theorem guess_eq_empty (hd : dense.TriangularExact) (hnoise : 0 < c.guessNoise)
    {diagonal : Vector ℝ n} {size : ℕ}
    (hzero : ∀ x ∈ Noise.perturb c.guessNoise draws (unitGuess c.kind diagonal size),
      point x = 0) : c.guess dense draws diagonal size = #[] := by
  rw [guess, if_pos hnoise]
  exact SearchSpace.orthonormalize_eq_empty hd _ hzero

/-- With any other amplitude there are draws after which nothing is left of a guess. -/
theorem exists_draws_guess_eq_empty (hd : dense.TriangularExact) (hnoise : 1 ≤ c.guessNoise)
    (diagonal : Vector ℝ n) (size : ℕ) :
    ∃ draws : ℕ → ℝ, (∀ k, 0 ≤ draws k ∧ draws k < 1) ∧
      c.guess dense draws diagonal size = #[] := by
  have hpos : 0 < c.guessNoise := one_pos.trans_le hnoise
  refine ⟨Noise.cancelling c.guessNoise (unitGuess c.kind diagonal size), ?_, ?_⟩
  · refine Noise.cancelling_mem hpos fun k => ?_
    obtain ⟨hnonneg, hle⟩ := entryAt_unitGuess_mem c.kind diagonal size k
    exact ⟨hnonneg, hle.trans hnoise⟩
  · exact guess_eq_empty hd hpos fun x hx => Noise.point_perturb_cancelling hpos.ne' hx

end Config

end SubspaceEigen
