import Mathlib.LinearAlgebra.Matrix.Charpoly.Coeff
import SubspaceEigen.Proofs.Dense.Supply
import SubspaceEigen.Proofs.Eigen.General
import SubspaceEigen.Proofs.Operator.Represents

/-!
# Eigenvectors in another unit

A matrix in another unit is the matrix times a positive factor.  Its shifted systems have the
solutions of the matrix itself for the shift in the old unit, up to a factor that is lost when they
are brought to norm one.  So its eigenvectors are the old ones exactly if the shift is as large in
one unit as in the other.  It is relative to the largest entry only from one on, and absolute below.
-/

namespace SubspaceEigen

open Elimination

variable {n : ℕ}

/-! ## Matrices in another unit -/

def Square.scaled {α : Type} [Scalar α] (c : α) (a : Square α n) : Square α n :=
  a.map (Column.scale c)

theorem Square.entry_scaled (c : ℝ) (a : Square ℝ n) (i j : ℕ) :
    (a.scaled c).entry i j = a.entry i j * c := by
  unfold entry
  split
  · simp [scaled, Column.scale]
  · exact (zero_mul c).symm

theorem Square.scaled_scaled (c d : ℝ) (a : Square ℝ n) :
    (a.scaled c).scaled d = a.scaled (c * d) := by
  simp [scaled, Column.scale, Function.comp_def, mul_assoc]

theorem Square.scaled_one (a : Square ℝ n) : a.scaled 1 = a := by
  have hone : (Column.scale 1 : Vector ℝ n → Vector ℝ n) = id := by
    funext x
    simp [Column.scale]
  rw [scaled, hone, Vector.map_id]

theorem Square.largestEntry_scaled_le {c : ℝ} (hc : 0 < c) (a : Square ℝ n) :
    (a.scaled c).largestEntry ≤ a.largestEntry * c := by
  obtain ⟨hnonneg, hle⟩ := (largestEntry_le_iff (a := a)).mp le_rfl
  refine largestEntry_le_iff.mpr ⟨mul_nonneg hnonneg hc.le, fun x hx y hy => ?_⟩
  obtain ⟨x, hcolumn, rfl⟩ := Vector.mem_map.mp hx
  obtain ⟨y, hentry, rfl⟩ := Vector.mem_map.mp hy
  rw [abs_mul, abs_of_pos hc]
  exact mul_le_mul_of_nonneg_right (hle x hcolumn y hentry) hc.le

theorem Square.largestEntry_scaled {c : ℝ} (hc : 0 < c) (a : Square ℝ n) :
    (a.scaled c).largestEntry = a.largestEntry * c := by
  refine le_antisymm (largestEntry_scaled_le hc a) ?_
  have hback := largestEntry_scaled_le (inv_pos.mpr hc) (a.scaled c)
  rw [scaled_scaled, mul_inv_cancel₀ hc.ne', scaled_one] at hback
  exact (le_div_iff₀ hc).mp hback

namespace InverseIteration

open ComplexNumber

variable {a : Square ℝ n} {value sigma : ComplexNumber ℝ} {c : ℝ}

/-! ## Shifted systems -/

theorem shiftedEntry_scaled (i j : ℕ) :
    shiftedEntry (a.scaled c) (sigma * ofReal c) i j = shiftedEntry a sigma i j * ofReal c := by
  have hentry : ofReal ((a.scaled c).entry i j) = ofReal (a.entry i j) * ofReal c := by
    rw [a.entry_scaled, ← ofRealHom_apply, map_mul]
    rfl
  by_cases hij : i = j
  · rw [shiftedEntry, shiftedEntry, if_pos hij, if_pos hij, hentry, sub_mul]
  · rw [shiftedEntry, shiftedEntry, if_neg hij, if_neg hij, hentry]

theorem sum_shiftedEntry_scaled (x : Vector (ComplexNumber ℝ) n) (i : Fin n) :
    ∑ j : Fin n, shiftedEntry (a.scaled c) (sigma * ofReal c) i j * x.get j =
      ∑ j : Fin n, shiftedEntry a sigma i j * (x.map fun z => z * ofReal c).get j := by
  refine Finset.sum_congr rfl fun j _ => ?_
  rw [shiftedEntry_scaled, get_map_mul, mul_assoc, mul_comm (ofReal c)]

/-- In another unit a solution is divided by the factor. -/
theorem takes_scaled_iff {x y : Vector (ComplexNumber ℝ) n} :
    Takes (shiftedEntry (a.scaled c) (sigma * ofReal c)) y x ↔
      Takes (shiftedEntry a sigma) (y.map fun z => z * ofReal c) x := by
  refine forall_congr' fun i => ?_
  rw [sum_shiftedEntry_scaled]

theorem isRegular_scaled (hc : c ≠ 0) (h : IsRegular n (shiftedEntry a sigma)) :
    IsRegular n (shiftedEntry (a.scaled c) (sigma * ofReal c)) := by
  intro x hx z hz
  have hscaled := h (x.map fun z => z * ofReal c) fun i => by
    rw [← sum_shiftedEntry_scaled]
    exact hx i
  exact (mul_eq_zero.mp (hscaled _ (Vector.mem_map_of_mem hz))).resolve_right (ofReal_ne_zero hc)

theorem isRegular_scaled_iff (hc : c ≠ 0) :
    IsRegular n (shiftedEntry (a.scaled c) (sigma * ofReal c)) ↔
      IsRegular n (shiftedEntry a sigma) := by
  refine ⟨fun h => ?_, isRegular_scaled hc⟩
  have hback := isRegular_scaled (inv_ne_zero hc) h
  rwa [a.scaled_scaled, mul_inv_cancel₀ hc, a.scaled_one, mul_assoc, ofReal_mul_inv hc,
    mul_one] at hback

theorem norm_map_mul (hc : 0 ≤ c) (x : Vector (ComplexNumber ℝ) n) :
    norm (x.map fun z => z * ofReal c) = norm x * c := by
  have htotal : Column.total ((x.map fun z => z * ofReal c).map normSq) =
      Column.total (x.map normSq) * (c * c) := by
    simp only [Column.total, Column.sum_eq_sum, Finset.sum_mul]
    refine Finset.sum_congr rfl fun i _ => ?_
    simp only [Fin.getElem_fin, Vector.getElem_map, normSq_mul]
    simp [normSq]
  rw [norm, htotal, Scalar.sqrt_real, Real.sqrt_mul' _ (mul_self_nonneg c), Real.sqrt_mul_self hc]
  rfl

theorem divide_norm_map_mul (hc : 0 < c) (x : Vector (ComplexNumber ℝ) n) :
    divide (x.map fun z => z * ofReal c) (norm (x.map fun z => z * ofReal c)) =
      divide x (norm x) := by
  have hfactor : ofReal c * ofReal (norm x * c)⁻¹ = ofReal (norm x)⁻¹ := by
    rw [← ofRealHom_apply, ← ofRealHom_apply, ← map_mul, mul_inv_rev, ← mul_assoc,
      mul_inv_cancel₀ hc.ne', one_mul, ofRealHom_apply]
  rw [norm_map_mul hc.le, divide_eq, divide_eq, map_mul_mul, hfactor]

/-! ## Iterations -/

theorem iterate?_eq {steps : List (Step (ComplexNumber ℝ))} {x y : Vector (ComplexNumber ℝ) n}
    (count : ℕ) (hsolve : toVector? n (solve steps x.toList) = some y) :
    iterate? steps (count + 1) x =
      if norm y = 0 then none else iterate? steps count (divide y (norm y)) := by
  by_cases hzero : norm y = 0
  · rw [if_pos hzero, iterate?, hsolve]
    exact if_pos (.inl (decide_eq_true hzero))
  · rw [if_neg hzero, iterate?_succ count hsolve hzero]

/-- The step is the same in both units, and so is the run. -/
theorem iterate?_scaled (hc : 0 < c) {steps steps' : List (Step (ComplexNumber ℝ))}
    (hsteps : factor? (shiftedRows a sigma) = some steps)
    (hsteps' : factor? (shiftedRows (a.scaled c) (sigma * ofReal c)) = some steps') (count : ℕ)
    (x : Vector (ComplexNumber ℝ) n) : iterate? steps' count x = iterate? steps count x := by
  induction count generalizing x with
  | zero => rfl
  | succ count ih =>
      obtain ⟨y, hsolve, hunique⟩ := solve_rowsOf (shiftedRows_eq a sigma ▸ hsteps) x
      obtain ⟨y', hsolve', hunique'⟩ := solve_rowsOf (shiftedRows_eq _ _ ▸ hsteps') x
      have hy : y'.map (fun z => z * ofReal c) = y :=
        (hunique _).mp (takes_scaled_iff.mp ((hunique' y').mpr rfl))
      have hzero : norm y' = 0 ↔ norm y = 0 := by
        rw [← hy, norm_map_mul hc.le, mul_eq_zero, or_iff_left hc.ne']
      rw [iterate?_eq count hsolve, iterate?_eq count hsolve', if_congr hzero rfl rfl, ih, ← hy,
        divide_norm_map_mul hc]

theorem attempt_scaled (hc : 0 < c) (count : ℕ) (x : Vector (ComplexNumber ℝ) n) :
    ((factor? (shiftedRows (a.scaled c) (sigma * ofReal c))).bind fun steps =>
        iterate? steps count x) =
      (factor? (shiftedRows a sigma)).bind fun steps => iterate? steps count x := by
  have hiff : (∃ steps, factor? (shiftedRows (a.scaled c) (sigma * ofReal c)) = some steps) ↔
      ∃ steps, factor? (shiftedRows a sigma) = some steps := by
    rw [shiftedRows_eq, shiftedRows_eq, exists_factor?_rowsOf_iff, exists_factor?_rowsOf_iff,
      isRegular_scaled_iff hc.ne']
  cases hsteps : factor? (shiftedRows a sigma) with
  | none =>
      cases hsteps' : factor? (shiftedRows (a.scaled c) (sigma * ofReal c)) with
      | none => rfl
      | some steps' =>
          obtain ⟨steps, hfound⟩ := hiff.mp ⟨steps', hsteps'⟩
          cases hsteps.symm.trans hfound
  | some steps =>
      obtain ⟨steps', hsteps'⟩ := hiff.mpr ⟨steps, hsteps⟩
      rw [hsteps']
      exact iterate?_scaled hc hsteps hsteps' count x

theorem vector?_scaled (hc : 0 < c) (k count : ℕ) (shift : ℝ) :
    vector? (a.scaled c) (value * ofReal c) k count (shift * c) =
      vector? a value k count shift := by
  induction count generalizing shift with
  | zero => rfl
  | succ count ih =>
      have hsigma : value * ofReal c + ofReal (shift * c) = (value + ofReal shift) * ofReal c := by
        rw [add_mul, ← ofRealHom_apply (shift * c), map_mul]
        rfl
      have hnext : shift * c * growth = shift * growth * c := mul_right_comm _ _ _
      rw [vector?, vector?, hsigma, attempt_scaled hc, hnext, ih]

end InverseIteration

/-! ## Eigenvectors -/

section Eigenvectors

open InverseIteration ComplexNumber

variable {dense : Factorizations ℝ} {a : Square ℝ n} {values : List (ComplexNumber ℝ)} {c : ℝ}

noncomputable def eigenvectors? (dense : Factorizations ℝ) (m : Block ℝ) :
    Option (List (Vector (ComplexNumber ℝ) m.rows)) :=
  (generalEigen dense m).map fun pairs => pairs.map ComplexEigenpair.vector

theorem mapM_vector (f : ComplexNumber ℝ × ℕ → Option (Vector (ComplexNumber ℝ) n))
    (items : List (ComplexNumber ℝ × ℕ)) :
    ((items.mapM fun v => (f v).map fun x => (⟨v.1, x⟩ : ComplexEigenpair ℝ n)).map fun pairs =>
      pairs.map ComplexEigenpair.vector) = items.mapM f := by
  induction items with
  | nil => rfl
  | cons v items ih =>
      simp only [List.mapM_cons, Option.bind_eq_bind, Option.pure_def, ← ih]
      cases f v with
      | none => rfl
      | some x =>
          cases items.mapM fun v => (f v).map fun x => (⟨v.1, x⟩ : ComplexEigenpair ℝ n) <;> rfl

theorem eigenvectors?_eq (hvalues : dense.eigenvalues a = some values) :
    eigenvectors? dense ⟨n, a.toArray⟩ =
      values.zipIdx.mapM fun v => vector? a v.1 v.2 attempts (firstShift a) := by
  rw [← mapM_vector, eigenvectors?, generalEigen, Block.toSquare?_toArray, Option.bind_some,
    squareEigen_eq, hvalues, Option.bind_some]

/-- The eigenvectors in another unit are those of the matrix for another first shift. -/
theorem eigenvectors?_scaled (hc : 0 < c)
    (hvalues : dense.eigenvalues (a.scaled c) = some (values.map fun v => v * ofReal c)) :
    eigenvectors? dense ⟨n, (a.scaled c).toArray⟩ = values.zipIdx.mapM fun v =>
      vector? a v.1 v.2 attempts (relativeShift * max a.largestEntry c⁻¹) := by
  have hshift : firstShift (a.scaled c) = relativeShift * max a.largestEntry c⁻¹ * c := by
    rw [firstShift, Scalar.max_real, a.largestEntry_scaled hc, mul_assoc,
      max_mul_of_nonneg _ _ hc.le, inv_mul_cancel₀ hc.ne']
  rw [eigenvectors?_eq hvalues, List.zipIdx_map, List.mapM_map, hshift]
  exact congrArg (List.mapM · values.zipIdx) (funext fun v => vector?_scaled hc v.2 attempts _)

end Eigenvectors

/-! ## Diagonal matrices of order two -/

def Square.pair (p q : ℝ) : Square ℝ 2 :=
  #v[#v[p, 0], #v[0, q]]

theorem Square.scaled_pair (c p q : ℝ) : (pair p q).scaled c = pair (p * c) (q * c) := by
  simp [scaled, pair, Column.scale]

theorem Square.largestEntry_pair (p q : ℝ) : (pair p q).largestEntry = max |p| |q| := by
  refine eq_of_forall_ge_iff fun c => ?_
  rw [largestEntry_le_iff, max_le_iff]
  simp only [pair, Vector.mem_mk, List.mem_toArray, List.mem_cons, List.not_mem_nil, or_false,
    forall_eq_or_imp, forall_eq, abs_zero]
  constructor
  · rintro ⟨-, ⟨hp, -⟩, -, hq⟩
    exact ⟨hp, hq⟩
  · rintro ⟨hp, hq⟩
    have hzero : 0 ≤ c := (abs_nonneg p).trans hp
    exact ⟨hzero, ⟨hp, hzero⟩, hzero, hq⟩

namespace InverseIteration

open ComplexNumber

variable {p q : ℝ} {sigma : ComplexNumber ℝ} {x y : Vector (ComplexNumber ℝ) 2}
  {steps : List (Step (ComplexNumber ℝ))} {u v : ComplexNumber ℝ}

theorem sum_shiftedEntry_pair (p q : ℝ) (sigma : ComplexNumber ℝ)
    (x : Vector (ComplexNumber ℝ) 2) :
    ∑ j : Fin 2, shiftedEntry (Square.pair p q) sigma 0 j * x.get j = (ofReal p - sigma) * x.get 0 ∧
      ∑ j : Fin 2, shiftedEntry (Square.pair p q) sigma 1 j * x.get j =
        (ofReal q - sigma) * x.get 1 := by
  have hzero : ofReal (0 : ℝ) = 0 := rfl
  simp [Fin.sum_univ_two, shiftedEntry, Square.pair, Square.entry, hzero]

theorem ofReal_sub_add (r value shift : ℝ) :
    ofReal r - (ofReal value + ofReal shift) = ofReal (r - value - shift) := by
  simp only [← ofRealHom_apply, map_sub]
  ring

/-- A shift is regular unless it leads from the value to an eigenvalue. -/
theorem isRegular_pair {value shift : ℝ} (hp : p - value - shift ≠ 0) (hq : q - value - shift ≠ 0) :
    IsRegular 2 (shiftedEntry (Square.pair p q) (ofReal value + ofReal shift)) := by
  intro x hx z hz
  obtain ⟨hfirst, hsecond⟩ := sum_shiftedEntry_pair p q (ofReal value + ofReal shift) x
  rw [ofReal_sub_add] at hfirst hsecond
  have hzero : ∀ i : Fin 2, x.get i = 0 := by
    intro i
    match i with
    | 0 => exact (mul_eq_zero.mp (hfirst.symm.trans (hx 0))).resolve_left (ofReal_ne_zero hp)
    | 1 => exact (mul_eq_zero.mp (hsecond.symm.trans (hx 1))).resolve_left (ofReal_ne_zero hq)
  obtain ⟨i, hi, rfl⟩ := Vector.getElem_of_mem hz
  exact hzero ⟨i, hi⟩

/-- Solving a system multiplies the two components by factors of their own. -/
theorem cross_takes (h : Takes (shiftedEntry (Square.pair p q) sigma) y x)
    (hcross : x.get 1 * u = x.get 0 * v) :
    y.get 1 * ((ofReal q - sigma) * u) = y.get 0 * ((ofReal p - sigma) * v) := by
  obtain ⟨hfirst, hsecond⟩ := sum_shiftedEntry_pair p q sigma y
  have hp : (ofReal p - sigma) * y.get 0 = x.get 0 := hfirst.symm.trans (h 0)
  have hq : (ofReal q - sigma) * y.get 1 = x.get 1 := hsecond.symm.trans (h 1)
  linear_combination hcross + u * hq - v * hp

theorem cross_divide (hcross : x.get 1 * u = x.get 0 * v) (size : ℝ) :
    (divide x size).get 1 * u = (divide x size).get 0 * v := by
  rw [divide_eq, get_map_mul, get_map_mul]
  linear_combination ofReal size⁻¹ * hcross

theorem cross_iterate? (hsteps : factor? (shiftedRows (Square.pair p q) sigma) = some steps)
    {count : ℕ} (hy : iterate? steps count x = some y) (hcross : x.get 1 * u = x.get 0 * v) :
    y.get 1 * ((ofReal q - sigma) ^ count * u) = y.get 0 * ((ofReal p - sigma) ^ count * v) := by
  induction count generalizing x u v with
  | zero =>
      obtain rfl := Option.some.inj hy
      simpa using hcross
  | succ count ih =>
      obtain ⟨z, hsolve, hunique⟩ := solve_rowsOf (shiftedRows_eq _ sigma ▸ hsteps) x
      rw [iterate?_eq count hsolve] at hy
      obtain ⟨-, hrest⟩ := Option.ite_none_left_eq_some.mp hy
      have hsolved := cross_divide (cross_takes ((hunique z).mpr rfl) hcross) (norm z)
      rw [pow_succ, pow_succ, mul_assoc, mul_assoc]
      exact ih hrest hsolved

theorem cross_start (k : ℕ) : (start 2 k : Vector (ComplexNumber ℝ) 2).get 1 * ofReal (seed k 0) =
    (start 2 k : Vector (ComplexNumber ℝ) 2).get 0 * ofReal (seed k 1) := by
  rw [start_eq]
  refine cross_divide ?_ _
  rw [get_seeds, get_seeds]
  exact mul_comm _ _

/-- The components of a vector for the first eigenvalue stand in a ratio that tells the shift. -/
theorem cross_vector? {shift : ℝ} (hshift : shift ≠ 0) (hother : q - p - shift ≠ 0) {k count : ℕ}
    (hx : vector? (Square.pair p q) (ofReal p) k (count + 1) shift = some x) :
    x.get 1 * ofReal ((q - p - shift) ^ solves * seed k 0) =
      x.get 0 * ofReal ((-shift) ^ solves * seed k 1) := by
  have hsame : p - p - shift = -shift := by rw [sub_self, zero_sub]
  have hregular := isRegular_pair (hsame ▸ neg_ne_zero.mpr hshift) hother
  obtain ⟨steps, hsteps⟩ := exists_factor?_rowsOf_iff.mpr hregular
  obtain ⟨y, hy⟩ := exists_iterate? hsteps solves (exists_start_ne_zero two_pos k)
  have hcross := cross_iterate? hsteps hy (cross_start k)
  rw [vector?, shiftedRows_eq, hsteps, Option.bind_some, hy] at hx
  obtain rfl := Option.some.inj hx
  obtain ⟨c, -, hphase⟩ := exists_fixPhase_eq_map_mul y
  rw [ofReal_sub_add, ofReal_sub_add, hsame] at hcross
  rw [hphase, get_map_mul, get_map_mul]
  simp only [← ofRealHom_apply, map_mul, map_pow] at hcross ⊢
  linear_combination c * hcross

theorem ratio_unique (hx : ∃ z ∈ x, z ≠ 0) {l m l' m' : ℝ} (hl : l ≠ 0) (hm : m ≠ 0)
    (h : x.get 1 * ofReal l = x.get 0 * ofReal m) (h' : x.get 1 * ofReal l' = x.get 0 * ofReal m') :
    l * m' = m * l' := by
  have hiff : x.get 0 = 0 ↔ x.get 1 = 0 := by
    constructor
    · intro hzero
      rw [hzero, zero_mul] at h
      exact (mul_eq_zero.mp h).resolve_right (ofReal_ne_zero hl)
    · intro hzero
      rw [hzero, zero_mul] at h
      exact (mul_eq_zero.mp h.symm).resolve_right (ofReal_ne_zero hm)
  have hfirst : x.get 0 ≠ 0 := by
    intro hzero
    obtain ⟨z, hz, hne⟩ := hx
    obtain ⟨i, hi, rfl⟩ := Vector.getElem_of_mem hz
    match i, hi with
    | 0, _ => exact hne hzero
    | 1, _ => exact hne (hiff.mp hzero)
  have hproduct : x.get 0 * x.get 1 ≠ 0 := mul_ne_zero hfirst (mt hiff.mpr hfirst)
  have hcomplex : ofRealHom (l * m') = ofRealHom (m * l') := by
    refine mul_left_cancel₀ hproduct ?_
    simp only [map_mul, ofRealHom_apply]
    linear_combination x.get 0 * ofReal m' * h - x.get 0 * ofReal m * h'
  exact congrArg ComplexNumber.re hcomplex

/-- Different shifts give different vectors. -/
theorem shift_eq_of_vector? (hne : p ≠ q) {s s' : ℝ} (hs : s ≠ 0) (hs' : s' ≠ 0)
    (hother : q - p - s ≠ 0) (hother' : q - p - s' ≠ 0) {k count : ℕ}
    (hx : vector? (Square.pair p q) (ofReal p) k (count + 1) s = some x)
    (hx' : vector? (Square.pair p q) (ofReal p) k (count + 1) s' = some x) : s = s' := by
  have hnonzero : ∃ z ∈ x, z ≠ 0 := by
    obtain ⟨z, hz, -, hpos, -⟩ := hasRealLead_of_vector? hx
    exact ⟨z, hz, fun hzero => hpos.ne' (congrArg ComplexNumber.re hzero)⟩
  have hseed := (seed_pos k 0).ne'
  have hseed' := (seed_pos k 1).ne'
  have hratio := ratio_unique hnonzero (mul_ne_zero (pow_ne_zero _ hother) hseed)
    (mul_ne_zero (pow_ne_zero _ (neg_ne_zero.mpr hs)) hseed') (cross_vector? hs hother hx)
    (cross_vector? hs' hother' hx')
  have hpow : ((q - p - s) * -s') ^ solves = (-s * (q - p - s')) ^ solves := by
    refine mul_right_cancel₀ (mul_ne_zero hseed hseed') ?_
    rw [mul_pow, mul_pow]
    linear_combination hratio
  have hodd : Odd solves := by decide
  have hlinear := hodd.pow_injective hpow
  have hgap : q - p ≠ 0 := sub_ne_zero.mpr hne.symm
  refine mul_left_cancel₀ hgap ?_
  linear_combination hlinear

/-- A vector is found for every eigenvalue: two shifts do not both lead to the other one. -/
theorem exists_vector?_pair {value shift : ℝ} (hshift : 0 < shift) (hvalue : value = p ∨ value = q)
    (k count : ℕ) :
    ∃ x, vector? (Square.pair p q) (ofReal value) k (count + 2) shift = some x := by
  have hgrowth : shift < shift * growth := by
    have hone : (1 : ℝ) < growth := by
      unfold growth
      norm_num
    exact lt_mul_of_one_lt_right hshift hone
  by_cases hfirst : p - value - shift ≠ 0 ∧ q - value - shift ≠ 0
  · exact exists_vector? two_pos (isRegular_pair hfirst.1 hfirst.2) k (count + 1)
  have hsecond : p - value - shift * growth ≠ 0 ∧ q - value - shift * growth ≠ 0 := by
    constructor
    all_goals
      intro hmeet
      refine hfirst ⟨fun h => ?_, fun h => ?_⟩
      all_goals
        rcases hvalue with rfl | rfl
        all_goals linarith
  exact exists_vector?_of_second two_pos (isRegular_pair hsecond.1 hsecond.2) k count

end InverseIteration

/-! ## The condition -/

section Condition

open InverseIteration ComplexNumber Polynomial

/-- The values are the roots of the characteristic polynomial, each as often as it is one. -/
def IsSpectrum (a : Square ℝ n) (values : List (ComplexNumber ℝ)) : Prop :=
  (Matrix.of fun i j : Fin n => ofReal (a.entry i j)).charpoly =
    (values.map fun v => X - C v).prod

theorem isSpectrum_pair (p q : ℝ) : IsSpectrum (Square.pair p q) [ofReal p, ofReal q] := by
  have hzero : ofReal (0 : ℝ) = 0 := rfl
  have hmatrix : (Matrix.of fun i j : Fin 2 => ofReal ((Square.pair p q).entry i j)) =
      !![ofReal p, 0; 0, ofReal q] := by
    ext i j : 1
    fin_cases i <;> fin_cases j <;> simp [Square.pair, Square.entry, hzero]
  rw [IsSpectrum, hmatrix, Matrix.charpoly_fin_two, Matrix.trace_fin_two_of, Matrix.det_fin_two_of,
    List.map_cons, List.map_singleton, List.prod_cons, List.prod_singleton, C.map_add, mul_zero,
    sub_zero, C.map_mul]
  ring

/-- Factorizations that take the entries on the diagonal for the eigenvalues. -/
noncomputable def Factorizations.diagonal : Factorizations ℝ :=
  { Factorizations.exact with
    eigenvalues := fun {n} a => some (List.ofFn fun i : Fin n => ofReal (a.entry i i)) }

theorem eigenvalues_pair (p q : ℝ) :
    Factorizations.diagonal.eigenvalues (Square.pair p q) = some [ofReal p, ofReal q] := by
  simp [Factorizations.diagonal, Square.pair, Square.entry]

theorem eigenvalues_scaled_pair (c p q : ℝ) :
    Factorizations.diagonal.eigenvalues ((Square.pair p q).scaled c) =
      some ([ofReal p, ofReal q].map fun v => v * ofReal c) := by
  rw [Square.scaled_pair, eigenvalues_pair]
  simp only [List.map_cons, List.map_nil, ← ofRealHom_apply, map_mul]

theorem max_inv_eq_iff {c top : ℝ} (hc : 0 < c) :
    max top c⁻¹ = max top 1 ↔ c = 1 ∨ 1 ≤ top ∧ 1 ≤ top * c := by
  have hinv : c⁻¹ ≤ top ↔ 1 ≤ top * c := inv_le_iff_one_le_mul₀ hc
  constructor
  · intro h
    rcases le_total 1 top with htop | htop
    · rw [max_eq_left htop, max_eq_left_iff, hinv] at h
      exact .inr ⟨htop, h⟩
    · rw [max_eq_right htop] at h
      rcases max_choice top c⁻¹ with hmax | hmax
      · have hone : top = 1 := hmax.symm.trans h
        exact .inr ⟨hone.ge, hinv.mp (max_eq_left_iff.mp hmax)⟩
      · exact .inl (inv_eq_one.mp (hmax.symm.trans h))
  · rintro (rfl | ⟨htop, hscaled⟩)
    · rw [inv_one]
    · rw [max_eq_left htop, max_eq_left (hinv.mpr hscaled)]

/-- A diagonal matrix of order two that keeps its eigenvectors keeps its relative shift. -/
theorem max_inv_eq_of_eigenvectors? {p q c : ℝ} (hc : 0 < c) (hlt : q < p)
    (h : eigenvectors? .diagonal ⟨2, ((Square.pair p q).scaled c).toArray⟩ =
      eigenvectors? .diagonal ⟨2, (Square.pair p q).toArray⟩) :
    max (max |p| |q|) c⁻¹ = max (max |p| |q|) 1 := by
  let a := Square.pair p q
  have hpos := firstShift_pos a
  have hpos' : 0 < relativeShift * max a.largestEntry c⁻¹ :=
    mul_pos relativeShift_pos (lt_max_of_lt_right (inv_pos.mpr hc))
  rw [eigenvectors?_scaled hc (eigenvalues_scaled_pair c p q),
    eigenvectors?_eq (eigenvalues_pair p q)] at h
  obtain ⟨x, hx⟩ := exists_vector?_pair hpos (.inl rfl) 0 2
  obtain ⟨y, hy⟩ := exists_vector?_pair hpos (.inr rfl) 1 2
  have hvectors : [ofReal p, ofReal q].zipIdx.mapM (fun v =>
      vector? a v.1 v.2 attempts (firstShift a)) = some [x, y] :=
    mapM_eq_some_iff.mpr (.cons hx (.cons hy .nil))
  cases mapM_eq_some_iff.mp (h.trans hvectors) with
  | cons hx' _ =>
      have hshift := shift_eq_of_vector? hlt.ne' hpos'.ne' hpos.ne' (by linarith) (by linarith)
        hx' hx
      rw [firstShift, Scalar.max_real, Square.largestEntry_pair] at hshift
      exact mul_left_cancel₀ relativeShift_pos.ne' hshift

/-- For which units all matrices with a given largest entry keep their eigenvectors: the unit is the
old one, or the largest entry is at least one in both.  Values are exact and in one order. -/
theorem eigenvectors_keep_unit_iff {c top : ℝ} (hc : 0 < c) (htop : 0 < top) :
    (∀ (dense : Factorizations ℝ) {n : ℕ} (a : Square ℝ n) (values : List (ComplexNumber ℝ)),
      a.largestEntry = top → IsSpectrum a values → dense.eigenvalues a = some values →
        dense.eigenvalues (a.scaled c) = some (values.map fun v => v * ofReal c) →
          eigenvectors? dense ⟨n, (a.scaled c).toArray⟩ = eigenvectors? dense ⟨n, a.toArray⟩) ↔
      c = 1 ∨ 1 ≤ top ∧ 1 ≤ top * c := by
  rw [← max_inv_eq_iff hc]
  constructor
  · intro h
    have hlargest : max |top| |0| = top := by
      rw [abs_zero, abs_of_pos htop, max_eq_left htop.le]
    have hkeep := h .diagonal (Square.pair top 0) [ofReal top, ofReal 0]
      ((Square.largestEntry_pair top 0).trans hlargest) (isSpectrum_pair top 0)
      (eigenvalues_pair top 0) (eigenvalues_scaled_pair c top 0)
    have hmax := max_inv_eq_of_eigenvectors? hc htop hkeep
    rwa [hlargest] at hmax
  · intro hmax dense n a values hlargest _ hvalues hscaled
    rw [eigenvectors?_scaled hc hscaled, eigenvectors?_eq hvalues, firstShift, Scalar.max_real,
      hlargest, hmax]

/-- A matrix with largest entry one keeps its eigenvectors when it is doubled. -/
theorem eigenvectors_keep_unit_doubled :
    let a : Square ℝ 2 := Square.pair 1 0
    (0 : ℝ) < 2 ∧ (0 : ℝ) < 1 ∧ a.largestEntry = 1 ∧ IsSpectrum a [ofReal 1, ofReal 0] ∧
      eigenvectors? .diagonal ⟨2, (a.scaled 2).toArray⟩ =
        eigenvectors? .diagonal ⟨2, a.toArray⟩ := by
  intro a
  have hlargest : a.largestEntry = 1 := by
    rw [Square.largestEntry_pair]
    norm_num
  exact ⟨two_pos, one_pos, hlargest, isSpectrum_pair 1 0,
    (eigenvectors_keep_unit_iff two_pos one_pos).mpr (.inr ⟨le_rfl, by norm_num⟩) .diagonal a _
      hlargest (isSpectrum_pair 1 0) (eigenvalues_pair 1 0) (eigenvalues_scaled_pair 2 1 0)⟩

/-- In a unit in which its entries are far below one, a diagonal matrix has other eigenvectors. -/
theorem eigenvectors_change_unit_small :
    let a : Square ℝ 2 := Square.pair 2 1
    let c : ℝ := 1 / 1000000000000
    0 < c ∧ IsSpectrum a [ofReal 2, ofReal 1] ∧
      Factorizations.diagonal.eigenvalues a = some [ofReal 2, ofReal 1] ∧
        Factorizations.diagonal.eigenvalues (a.scaled c) =
          some ([ofReal 2, ofReal 1].map fun v => v * ofReal c) ∧
            eigenvectors? .diagonal ⟨2, (a.scaled c).toArray⟩ ≠
              eigenvectors? .diagonal ⟨2, a.toArray⟩ := by
  intro a c
  have hc : 0 < c := by positivity
  refine ⟨hc, isSpectrum_pair 2 1, eigenvalues_pair 2 1, eigenvalues_scaled_pair c 2 1, ?_⟩
  intro hkeep
  have hmax := max_inv_eq_of_eigenvectors? hc one_lt_two hkeep
  norm_num [c] at hmax

end Condition

end SubspaceEigen
