import SubspaceEigen.Proofs.Dense.Supply
import SubspaceEigen.Proofs.Operator.Paired

/-!
# Excitations of a paired operator

An eigenvector of `[[A, B], [-B, -A]]` has two halves, and changing them over gives one for the
opposite value.  With the signs of the lower half turned, the operator is `[[A, B], [B, A]]`, whose
form is positive where `A + B` and `A − B` are positive definite.  On eigenvectors this form is the
value times the difference of the squared norms of the halves.  So that difference has the sign of
the value, which is not zero, and it tells the excitations, which are scaled to make it one, from
their partners.
-/

namespace SubspaceEigen

open scoped RealInnerProductSpace
open Column

variable {n : ℕ}

section Halves

variable {A B : Euclid n →ₗ[ℝ] Euclid n} {ω ν : ℝ} {x y u v : Euclid n}

/-- The halves of an eigenvector of `[[A, B], [-B, -A]]`. -/
structure IsExcitation (A B : Euclid n →ₗ[ℝ] Euclid n) (ω : ℝ) (x y : Euclid n) : Prop where
  ne_zero : x ≠ 0 ∨ y ≠ 0
  upper : A x + B y = ω • x
  lower : -(B x + A y) = ω • y

namespace IsExcitation

theorem swap (h : IsExcitation A B ω x y) : IsExcitation A B (-ω) y x where
  ne_zero := h.ne_zero.symm
  upper := by rw [neg_smul, ← h.lower, neg_neg, add_comm]
  lower := by rw [neg_smul, ← h.upper, add_comm]

theorem form_eq (h : IsExcitation A B ω x y) (u v : Euclid n) :
    ⟪u, A x + B y⟫ + ⟪v, B x + A y⟫ = ω * (⟪u, x⟫ - ⟪v, y⟫) := by
  have hlower : B x + A y = -(ω • y) := by rw [← h.lower, neg_neg]
  rw [h.upper, hlower, inner_neg_right, inner_smul_right, inner_smul_right]
  ring

end IsExcitation

/-- The form is that of `A + B` on the sum of the halves and of `A − B` on their difference. -/
theorem form_eq_sum_add_difference (A B : Euclid n →ₗ[ℝ] Euclid n) (x y : Euclid n) :
    2 * (⟪x, A x + B y⟫ + ⟪y, B x + A y⟫) =
      ⟪x + y, (A + B) (x + y)⟫ + ⟪x - y, (A - B) (x - y)⟫ := by
  simp only [LinearMap.add_apply, LinearMap.sub_apply, map_add, map_sub, inner_add_left,
    inner_sub_left, inner_add_right, inner_sub_right]
  ring

theorem form_comm (hA : A.IsSymmetric) (hB : B.IsSymmetric) (x y u v : Euclid n) :
    ⟪u, A x + B y⟫ + ⟪v, B x + A y⟫ = ⟪x, A u + B v⟫ + ⟪y, B u + A v⟫ := by
  have hcomm : ∀ {f : Euclid n →ₗ[ℝ] Euclid n}, f.IsSymmetric → ∀ p q, ⟪p, f q⟫ = ⟪q, f p⟫ := by
    intro f hf p q
    rw [← hf p q, real_inner_comm]
  simp only [inner_add_right]
  rw [hcomm hA u x, hcomm hB u y, hcomm hB v x, hcomm hA v y]
  ring

/-- No vector but zero has a form that is not positive. -/
def IsPositiveDefinite (f : Euclid n →ₗ[ℝ] Euclid n) : Prop :=
  ∀ p, p ≠ 0 → 0 < ⟪p, f p⟫

theorem IsPositiveDefinite.nonneg {f : Euclid n →ₗ[ℝ] Euclid n} (h : IsPositiveDefinite f)
    (p : Euclid n) : 0 ≤ ⟪p, f p⟫ := by
  by_cases hp : p = 0
  · rw [hp, inner_zero_left]
  · exact (h p hp).le

theorem isPositiveDefinite_of_smul {f : Euclid n →ₗ[ℝ] Euclid n} {r : ℝ} (hr : 0 < r)
    (hf : ∀ p, f p = r • p) : IsPositiveDefinite f := by
  intro p hp
  rw [hf, inner_smul_right, real_inner_self_eq_norm_sq]
  exact mul_pos hr (pow_pos (norm_pos_iff.mpr hp) 2)

theorem form_pos (hsum : IsPositiveDefinite (A + B)) (hdifference : IsPositiveDefinite (A - B))
    (h : x ≠ 0 ∨ y ≠ 0) : 0 < ⟪x, A x + B y⟫ + ⟪y, B x + A y⟫ := by
  have hform := form_eq_sum_add_difference A B x y
  have hsumNonneg := hsum.nonneg (x + y)
  have hdifferenceNonneg := hdifference.nonneg (x - y)
  have hpos : 0 < ⟪x + y, (A + B) (x + y)⟫ ∨ 0 < ⟪x - y, (A - B) (x - y)⟫ := by
    by_cases hzero : x + y = 0
    · refine .inr (hdifference _ fun heq => ?_)
      have hy : y = x := (sub_eq_zero.mp heq).symm
      rw [hy, ← two_smul ℝ x, smul_eq_zero] at hzero
      have hx : x = 0 := hzero.resolve_left two_ne_zero
      exact h.elim (fun hne => hne hx) fun hne => hne (hy.trans hx)
    · exact .inl (hsum _ hzero)
  rcases hpos with hpos | hpos
  · linarith
  · linarith

namespace IsExcitation

/-- The difference of the squared norms has the sign of the value. -/
theorem value_mul_pos (h : IsExcitation A B ω x y) (hsum : IsPositiveDefinite (A + B))
    (hdifference : IsPositiveDefinite (A - B)) : 0 < ω * (‖x‖ ^ 2 - ‖y‖ ^ 2) := by
  rw [← real_inner_self_eq_norm_sq, ← real_inner_self_eq_norm_sq, ← h.form_eq]
  exact form_pos hsum hdifference h.ne_zero

theorem value_ne_zero (h : IsExcitation A B ω x y) (hsum : IsPositiveDefinite (A + B))
    (hdifference : IsPositiveDefinite (A - B)) : ω ≠ 0 :=
  left_ne_zero_of_mul (h.value_mul_pos hsum hdifference).ne'

/-- Excitations for different values are orthogonal in the indefinite product. -/
theorem inner_sub_inner_eq_zero (h : IsExcitation A B ω x y) (h' : IsExcitation A B ν u v)
    (hA : A.IsSymmetric) (hB : B.IsSymmetric) (hne : ω ≠ ν) : ⟪x, u⟫ - ⟪y, v⟫ = 0 := by
  have hform := form_comm hA hB x y u v
  rw [h.form_eq, h'.form_eq, real_inner_comm, real_inner_comm y v, ← sub_eq_zero, ← sub_mul] at hform
  exact (mul_eq_zero.mp hform).resolve_left (sub_ne_zero.mpr hne)

end IsExcitation

end Halves

namespace Column

def upper (v : Vector ℝ (n + n)) : Vector ℝ n :=
  rowsFrom 0 n ((Nat.zero_add n).trans_le (Nat.le_add_left n n)) v

def lower (v : Vector ℝ (n + n)) : Vector ℝ n :=
  rowsFrom n n le_rfl v

@[simp] theorem upper_append (x y : Vector ℝ n) : upper (x ++ y) = x := by
  ext i hi
  simp [upper, rowsFrom]

@[simp] theorem lower_append (x y : Vector ℝ n) : lower (x ++ y) = y := by
  ext i hi
  simp [lower, rowsFrom]

theorem upper_append_lower (v : Vector ℝ (n + n)) : upper v ++ lower v = v := by
  ext i hi
  by_cases hupper : i < n
  · simp [upper, rowsFrom, hupper]
  · simp [lower, rowsFrom, Vector.getElem_append_right, not_lt.mp hupper]

theorem eq_iff_halves {v w : Vector ℝ (n + n)} :
    v = w ↔ upper v = upper w ∧ lower v = lower w := by
  constructor
  · rintro rfl
    exact ⟨rfl, rfl⟩
  · rintro ⟨hupper, hlower⟩
    rw [← upper_append_lower v, hupper, hlower, upper_append_lower]

theorem scale_one (x : Vector ℝ n) : scale 1 x = x :=
  point_injective (by rw [point_scale, one_smul])

theorem upper_scale (a : ℝ) (v : Vector ℝ (n + n)) : upper (scale a v) = scale a (upper v) := by
  ext i hi
  simp [upper, rowsFrom, scale]

theorem lower_scale (a : ℝ) (v : Vector ℝ (n + n)) : lower (scale a v) = scale a (lower v) := by
  ext i hi
  simp [lower, rowsFrom, scale]

theorem point_eq_zero_iff_halves (v : Vector ℝ (n + n)) :
    point v = 0 ↔ point (upper v) = 0 ∧ point (lower v) = 0 := by
  have hzero : ∀ {m : ℕ} (x : Vector ℝ m), point x = 0 ↔ x = scale 0 x := by
    intro m x
    rw [← point_injective.eq_iff, point_scale, zero_smul]
  rw [hzero, hzero, hzero, eq_iff_halves, upper_scale, lower_scale]

end Column

theorem Square.toLinearMap_one_row (r : ℝ) (p : Euclid 1) :
    Square.toLinearMap #v[#v[r]] p = r • p := by
  ext i
  fin_cases i
  simp [toLinearMap_apply, mul_comm]

/-- The operator takes the column, which is not zero, to its multiple by the value. -/
structure LinearOperator.HasEigenvector (op : LinearOperator ℝ) (value : ℝ) (v : Vector ℝ n) :
    Prop where
  ne_zero : point v ≠ 0
  apply_eq : op.apply ⟨n, #[v]⟩ = .ok ⟨n, #[scale value v]⟩

namespace PairedOperator

variable {h : PairedOperator ℝ} {a b : Square ℝ n} {ω : ℝ}

theorem point_halves_mulColumn (a b : Square ℝ n) (v : Vector ℝ (n + n)) :
    point (upper ((a.paired b).mulColumn v)) =
        a.toLinearMap (point (upper v)) + b.toLinearMap (point (lower v)) ∧
      point (lower ((a.paired b).mulColumn v)) =
        -(b.toLinearMap (point (upper v)) + a.toLinearMap (point (lower v))) := by
  rw [Square.paired_mulColumn, upper_append, lower_append]
  simp only [← Square.point_mulColumn]
  constructor
  · ext i
    simp [upper, lower]
  · ext i
    simp [upper, lower]

/-- The eigenvectors of a paired operator are its excitations. -/
theorem hasEigenvector_iff (hfirst : h.first.Represents a) (hsecond : h.second.Represents b)
    (v : Vector ℝ (n + n)) :
    h.toOperator.HasEigenvector ω v ↔
      IsExcitation a.toLinearMap b.toLinearMap ω (point (upper v)) (point (lower v)) := by
  have hnonzero : point v ≠ 0 ↔ point (upper v) ≠ 0 ∨ point (lower v) ≠ 0 := by
    rw [ne_eq, point_eq_zero_iff_halves, not_and_or]
  obtain ⟨hupper, hlower⟩ := point_halves_mulColumn a b v
  have himage : h.toOperator.apply ⟨n + n, #[v]⟩ = .ok ⟨n + n, #[scale ω v]⟩ ↔
      a.toLinearMap (point (upper v)) + b.toLinearMap (point (lower v)) = ω • point (upper v) ∧
        -(b.toLinearMap (point (upper v)) + a.toLinearMap (point (lower v))) =
          ω • point (lower v) := by
    rw [← hupper, ← hlower, ← point_scale, ← point_scale, point_injective.eq_iff,
      point_injective.eq_iff, ← upper_scale, ← lower_scale, ← eq_iff_halves,
      show h.toOperator.apply = h.apply from rfl, apply_eq hfirst hsecond]
    simp
  constructor
  · rintro ⟨hne, happly⟩
    obtain ⟨hu, hl⟩ := himage.mp happly
    exact ⟨hnonzero.mp hne, hu, hl⟩
  · rintro ⟨hne, hu, hl⟩
    exact ⟨hnonzero.mpr hne, himage.mpr ⟨hu, hl⟩⟩

section Pair

variable {x y : Vector ℝ n}

theorem normalizePair_of_pos (hpos : 0 < normSq x - normSq y) :
    ∃ c > 0, normalizePair x y = (scale c x, scale c y) ∧
      normSq (scale c x) - normSq (scale c y) = 1 := by
  refine ⟨1 / √(normSq x - normSq y), one_div_pos.mpr (Real.sqrt_pos.mpr hpos), if_pos hpos, ?_⟩
  simp only [normSq_eq, point_scale, norm_smul, mul_pow] at hpos ⊢
  rw [← mul_sub, Real.norm_eq_abs, sq_abs, div_pow, Real.sq_sqrt hpos.le, one_pow,
    one_div_mul_cancel hpos.ne']

theorem normalizePair_of_nonpos (hpos : normSq x - normSq y ≤ 0) :
    normalizePair x y = (x, y) :=
  if_neg (not_lt.mpr hpos)

theorem normalizePair_of_eq_one (hone : normSq x - normSq y = 1) :
    normalizePair x y = (x, y) := by
  rw [normalizePair, hone]
  simp [scale_one]

theorem normalizePair_normalizePair (x y : Vector ℝ n) :
    normalizePair (normalizePair x y).1 (normalizePair x y).2 = normalizePair x y := by
  rcases lt_or_ge 0 (normSq x - normSq y) with hpos | hpos
  · obtain ⟨c, -, heq, hone⟩ := normalizePair_of_pos hpos
    rw [heq]
    exact normalizePair_of_eq_one hone
  · rw [normalizePair_of_nonpos hpos]
    exact normalizePair_of_nonpos hpos

end Pair

/-- Every column is taken apart and its halves are scaled. -/
theorem normalizeExcitations_eq (hsize : h.blockSize = n) (v : Columns ℝ (n + n)) :
    h.normalizeExcitations ⟨n + n, v⟩ =
      .ok (⟨n, Array.ofFn fun j : Fin v.size => (normalizePair (upper v[j]) (lower v[j])).1⟩,
        ⟨n, Array.ofFn fun j : Fin v.size => (normalizePair (upper v[j]) (lower v[j])).2⟩) := by
  have hsplit : h.splitColumns ⟨n + n, v⟩ = .ok (⟨n, v.map upper⟩, ⟨n, v.map lower⟩) := by
    rw [splitColumns, if_pos (by rw [hsize, two_mul]), hsize, Block.takeRows_eq (by omega),
      Block.takeRows_eq le_rfl]
    rfl
  simp only [normalizeExcitations, hsplit, bind, Except.bind, pure, Except.pure]
  refine congrArg Except.ok (Prod.ext (congrArg (Block.mk n) ?_) (congrArg (Block.mk n) ?_))
  · exact Array.ext (by simp) fun j _ _ => by simp
  · exact Array.ext (by simp) fun j _ _ => by simp

theorem normalizeExcitations_stack (hsize : h.blockSize = n) {k : ℕ} (x y : Fin k → Vector ℝ n) :
    h.normalizeExcitations (stack ⟨n, Array.ofFn x⟩ ⟨n, Array.ofFn y⟩) =
      .ok (⟨n, Array.ofFn fun j => (normalizePair (x j) (y j)).1⟩,
        ⟨n, Array.ofFn fun j => (normalizePair (x j) (y j)).2⟩) := by
  have hstack : (stack ⟨n, Array.ofFn x⟩ ⟨n, Array.ofFn y⟩ : Block ℝ) =
      ⟨n + n, Array.ofFn fun j => x j ++ y j⟩ :=
    congrArg (Block.mk (n + n)) (Array.ext (by simp) fun j _ _ => by simp)
  rw [hstack, normalizeExcitations_eq hsize]
  refine congrArg Except.ok (Prod.ext (congrArg (Block.mk n) ?_) (congrArg (Block.mk n) ?_))
  · exact Array.ext (by simp) fun j _ _ => by simp
  · exact Array.ext (by simp) fun j _ _ => by simp

/-- The columns `v` with their values `ω` are normalized to the halves `x` and `y`.  Those of positive
value are scaled so that the squared norms of their halves differ by one, and those of negative value
are as they were.  Columns of different values are orthogonal in the indefinite product, and there is
nothing left to scale. -/
structure Normalizes (h : PairedOperator ℝ) (v : Columns ℝ (n + n)) (ω : Fin v.size → ℝ)
    (x y : Fin v.size → Vector ℝ n) : Prop where
  halves : h.normalizeExcitations ⟨n + n, v⟩ = .ok (⟨n, Array.ofFn x⟩, ⟨n, Array.ofFn y⟩)
  scaled : ∀ j, 0 < ω j → ∃ c > 0, x j = scale c (upper v[j]) ∧ y j = scale c (lower v[j]) ∧
    normSq (x j) - normSq (y j) = 1
  kept : ∀ j, ω j < 0 → x j = upper v[j] ∧ y j = lower v[j]
  orthogonal : ∀ i j, ω i ≠ ω j → dot (x i) (x j) - dot (y i) (y j) = 0
  again : h.normalizeExcitations (stack ⟨n, Array.ofFn x⟩ ⟨n, Array.ofFn y⟩) =
    .ok (⟨n, Array.ofFn x⟩, ⟨n, Array.ofFn y⟩)

/-- The values of a paired operator with blocks of size `n` come in pairs, none of them zero, and its
eigenvectors are normalized by the sign of their values. -/
structure PairsSpectrum (h : PairedOperator ℝ) (n : ℕ) : Prop where
  partner : ∀ {ω : ℝ} {x y : Vector ℝ n}, h.toOperator.HasEigenvector ω (x ++ y) →
    ω ≠ 0 ∧ h.toOperator.HasEigenvector (-ω) (y ++ x)
  normalizes : ∀ (v : Columns ℝ (n + n)) (ω : Fin v.size → ℝ),
    (∀ j, h.toOperator.HasEigenvector (ω j) v[j]) → ∃ x y, h.Normalizes v ω x y

section Blocks

variable (hfirst : h.first.Represents a) (hsecond : h.second.Represents b)
  (hsum : IsPositiveDefinite (a.toLinearMap + b.toLinearMap))
  (hdifference : IsPositiveDefinite (a.toLinearMap - b.toLinearMap))

include hfirst hsecond hsum hdifference

/-- The halves of an eigenvector are scaled by a positive factor, which is one unless the value is
positive. -/
theorem exists_normalizePair_eq {v : Vector ℝ (n + n)} (hv : h.toOperator.HasEigenvector ω v) :
    ∃ c > 0, normalizePair (upper v) (lower v) = (scale c (upper v), scale c (lower v)) ∧
      (0 < ω → normSq (scale c (upper v)) - normSq (scale c (lower v)) = 1) ∧
        (ω < 0 → scale c (upper v) = upper v ∧ scale c (lower v) = lower v) := by
  have hsign := ((hasEigenvector_iff hfirst hsecond v).mp hv).value_mul_pos hsum hdifference
  rw [← normSq_eq, ← normSq_eq] at hsign
  rcases lt_or_ge 0 (normSq (upper v) - normSq (lower v)) with hpos | hpos
  · obtain ⟨c, hc, heq, hone⟩ := normalizePair_of_pos hpos
    have hω : 0 < ω := (pos_iff_pos_of_mul_pos hsign).mpr hpos
    exact ⟨c, hc, heq, fun _ => hone, fun hneg => absurd hω hneg.not_gt⟩
  · have hω : ¬ 0 < ω := fun hω => absurd hsign (mul_nonpos_of_nonneg_of_nonpos hω.le hpos).not_gt
    refine ⟨1, one_pos, ?_, fun h => absurd h hω, fun _ => ⟨scale_one _, scale_one _⟩⟩
    rw [normalizePair_of_nonpos hpos, scale_one, scale_one]

/-- For symmetric blocks whose sum and difference are positive definite the spectrum is paired, and
eigenvectors can be normalized. -/
theorem pairsSpectrum_of_positive (ha : a.IsSymmetric) (hb : b.IsSymmetric) :
    h.PairsSpectrum n where
  partner := by
    intro ω x y hv
    have hexcitation := (hasEigenvector_iff hfirst hsecond _).mp hv
    refine ⟨hexcitation.value_ne_zero hsum hdifference, (hasEigenvector_iff hfirst hsecond _).mpr ?_⟩
    rw [upper_append, lower_append] at hexcitation ⊢
    exact hexcitation.swap
  normalizes := by
    intro v ω hv
    choose c hc hpair hone hkept using fun j =>
      exists_normalizePair_eq hfirst hsecond hsum hdifference (hv j)
    refine ⟨fun j => scale (c j) (upper v[j]), fun j => scale (c j) (lower v[j]), ?_⟩
    have hhalves : h.normalizeExcitations ⟨n + n, v⟩ =
        .ok (⟨n, Array.ofFn fun j => scale (c j) (upper v[j])⟩,
          ⟨n, Array.ofFn fun j => scale (c j) (lower v[j])⟩) := by
      rw [normalizeExcitations_eq hfirst.rows_eq]
      simp only [hpair]
    constructor
    case halves => exact hhalves
    case scaled => exact fun j hω => ⟨c j, hc j, rfl, rfl, hone j hω⟩
    case kept => exact hkept
    case orthogonal =>
      intro i j hne
      have horthogonal := ((hasEigenvector_iff hfirst hsecond _).mp (hv i)).inner_sub_inner_eq_zero
        ((hasEigenvector_iff hfirst hsecond _).mp (hv j)) (Square.toLinearMap_isSymmetric ha)
        (Square.toLinearMap_isSymmetric hb) hne
      simp only [dot_eq_inner, point_scale, inner_smul_left, inner_smul_right, ← mul_sub,
        horthogonal, mul_zero]
    case again =>
      have hagain : ∀ j, normalizePair (scale (c j) (upper v[j])) (scale (c j) (lower v[j])) =
          (scale (c j) (upper v[j]), scale (c j) (lower v[j])) := by
        intro j
        have htwice := normalizePair_normalizePair (upper v[j]) (lower v[j])
        rwa [hpair j] at htwice
      rw [normalizeExcitations_stack hfirst.rows_eq]
      simp only [hagain]

end Blocks

/-- Blocks of one row with the values `4` and `-4`: both eigenvectors are normalized. -/
theorem pairsSpectrum_pair :
    let a : Square ℝ 1 := #v[#v[5]]
    let b : Square ℝ 1 := #v[#v[3]]
    let h : PairedOperator ℝ := ⟨.ofBlock ⟨1, a.toArray⟩, .ofBlock ⟨1, b.toArray⟩, rfl, rfl, rfl⟩
    let v : Columns ℝ (1 + 1) := #[#v[3, -1], #v[-1, 3]]
    h.first.Represents a ∧ h.second.Represents b ∧
      IsPositiveDefinite (a.toLinearMap + b.toLinearMap) ∧
        IsPositiveDefinite (a.toLinearMap - b.toLinearMap) ∧ a.IsSymmetric ∧ b.IsSymmetric ∧
          h.PairsSpectrum 1 ∧ ∃ x y, h.Normalizes v ![4, -4] x y := by
  intro a b h v
  have hfirst : h.first.Represents a := LinearOperator.ofBlock_represents a
  have hsecond : h.second.Represents b := LinearOperator.ofBlock_represents b
  have hsum : IsPositiveDefinite (a.toLinearMap + b.toLinearMap) :=
    isPositiveDefinite_of_smul (show (0 : ℝ) < 8 by norm_num) fun p => by
      rw [LinearMap.add_apply, Square.toLinearMap_one_row, Square.toLinearMap_one_row, ← add_smul]
      norm_num
  have hdifference : IsPositiveDefinite (a.toLinearMap - b.toLinearMap) :=
    isPositiveDefinite_of_smul (show (0 : ℝ) < 2 by norm_num) fun p => by
      rw [LinearMap.sub_apply, Square.toLinearMap_one_row, Square.toLinearMap_one_row, ← sub_smul]
      norm_num
  have hsymmetric : ∀ c : Square ℝ 1, c.IsSymmetric := fun c i j => by
    rw [Subsingleton.elim i j]
  have hpairs := pairsSpectrum_of_positive hfirst hsecond hsum hdifference (hsymmetric a)
    (hsymmetric b)
  have hexcited : IsExcitation a.toLinearMap b.toLinearMap 4 (point #v[3]) (point #v[-1]) := by
    constructor
    · left
      intro hzero
      simpa using congrArg (fun p : Euclid 1 => p 0) hzero
    · rw [Square.toLinearMap_one_row, Square.toLinearMap_one_row]
      ext i
      fin_cases i
      norm_num
    · rw [Square.toLinearMap_one_row, Square.toLinearMap_one_row]
      ext i
      fin_cases i
      norm_num
  have hvectors : ∀ j : Fin v.size, h.toOperator.HasEigenvector (![4, -4] j) v[j] := by
    intro j
    fin_cases j
    · exact (hasEigenvector_iff hfirst hsecond _).mpr hexcited
    · exact (hasEigenvector_iff hfirst hsecond _).mpr hexcited.swap
  exact ⟨hfirst, hsecond, hsum, hdifference, hsymmetric a, hsymmetric b, hpairs,
    hpairs.normalizes v _ hvectors⟩

end PairedOperator

end SubspaceEigen
