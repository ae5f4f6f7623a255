import Mathlib.Analysis.Complex.Basic
import SubspaceEigen.Eigen.General
import SubspaceEigen.Proofs.Complex
import SubspaceEigen.Proofs.Euclid

/-!
# The phase of an eigenvector

An eigenvector is determined up to a factor.  Its modulus is taken out by a norm, and what is left
is a phase, which is chosen so that a component of largest modulus is real and positive.  The choice
is the same for all vectors that differ by a turn, a factor of modulus one, and the real part of such
a vector is not zero.
-/

namespace SubspaceEigen

open Column

namespace InverseIteration

variable {n : ℕ}

/-- Some component is real and positive, and none has a larger modulus. -/
def HasRealLead (x : Vector (ComplexNumber ℝ) n) : Prop :=
  ∃ z ∈ x, z.im = 0 ∧ 0 < z.re ∧ ∀ w ∈ x, w.normSq ≤ z.normSq

/-- The component whose phase is taken out: the later one of those with the largest modulus. -/
noncomputable def pivot (first : ComplexNumber ℝ) (rest : List (ComplexNumber ℝ)) :
    ComplexNumber ℝ :=
  rest.foldl (fun best z => if Scalar.ranksBefore best.normSq z.normSq then z else best) first

/-- The pivot is a component, and no other one has a larger modulus. -/
theorem pivot_largest (first : ComplexNumber ℝ) (rest : List (ComplexNumber ℝ)) :
    pivot first rest ∈ first :: rest ∧
      ∀ z ∈ first :: rest, z.normSq ≤ (pivot first rest).normSq := by
  induction rest generalizing first with
  | nil => simp [pivot]
  | cons next rest ih =>
      rw [pivot, List.foldl_cons, ← pivot]
      by_cases hle : first.normSq ≤ next.normSq
      · obtain ⟨hmem, hlargest⟩ := ih next
        rw [if_pos ((Scalar.ranksBefore_real _ _).mpr hle)]
        refine ⟨List.mem_cons_of_mem _ hmem, List.forall_mem_cons.mpr ⟨?_, hlargest⟩⟩
        exact hle.trans (hlargest next (List.mem_cons_self ..))
      · obtain ⟨hmem, hlargest⟩ := ih first
        have hfirst := hlargest first (List.mem_cons_self ..)
        rw [if_neg fun h => hle ((Scalar.ranksBefore_real _ _).mp h)]
        constructor
        · rcases List.mem_cons.mp hmem with heq | hmem
          · exact List.mem_cons.mpr (.inl heq)
          · exact List.mem_cons_of_mem _ (List.mem_cons_of_mem _ hmem)
        · refine List.forall_mem_cons.mpr ⟨hfirst, List.forall_mem_cons.mpr ⟨?_, ?_⟩⟩
          · exact (not_le.mp hle).le.trans hfirst
          · exact fun z hz => hlargest z (List.mem_cons_of_mem _ hz)

/-- A turn changes no comparison of moduli, so the pivot is found in the same place, also where
several components have the largest modulus. -/
theorem pivot_map_mul {c : ComplexNumber ℝ} (hc : c.modulus = 1) (first : ComplexNumber ℝ)
    (rest : List (ComplexNumber ℝ)) :
    pivot (first * c) (rest.map fun z => z * c) = pivot first rest * c := by
  have hnormSq : ∀ z : ComplexNumber ℝ, (z * c).normSq = z.normSq := fun z => by
    rw [ComplexNumber.normSq_mul, c.modulus_eq_one_iff.mp hc, mul_one]
  rw [pivot, List.foldl_map]
  refine List.foldl_hom (· * c) fun best z => ?_
  rw [hnormSq, hnormSq, apply_ite (· * c)]

section FixPhase

variable {x : Vector (ComplexNumber ℝ) n} {first : ComplexNumber ℝ}
  {rest : List (ComplexNumber ℝ)}

theorem fixPhase_eq (h : x.toList = first :: rest) :
    fixPhase x = if 0 < (pivot first rest).modulus then
      x.map fun z => z * (pivot first rest).conj.divReal (pivot first rest).modulus else x := by
  unfold fixPhase
  rw [h]
  rfl

theorem pivot_mem (h : x.toList = first :: rest) :
    pivot first rest ∈ x ∧ ∀ z ∈ x, z.normSq ≤ (pivot first rest).normSq := by
  simpa only [← h, Vector.mem_toList_iff] using pivot_largest first rest

theorem modulus_pivot_pos (hx : ∃ z ∈ x, z ≠ 0) (h : x.toList = first :: rest) :
    0 < (pivot first rest).modulus := by
  obtain ⟨z, hz, hne⟩ := hx
  rw [ComplexNumber.modulus_pos_iff]
  intro hzero
  have hle := (pivot_mem h).2 z hz
  rw [hzero, (ComplexNumber.normSq_eq_zero 0).mpr rfl] at hle
  exact hne ((ComplexNumber.normSq_eq_zero _).mp (le_antisymm hle (ComplexNumber.normSq_nonneg _)))

theorem exists_toList_eq_cons (hx : ∃ z ∈ x, z ≠ 0) : ∃ first rest, x.toList = first :: rest := by
  obtain ⟨z, hz, -⟩ := hx
  exact List.exists_cons_of_ne_nil (List.ne_nil_of_mem (Vector.mem_toList_iff.mpr hz))

theorem fixPhase_hasRealLead (hx : ∃ z ∈ x, z ≠ 0) : HasRealLead (fixPhase x) := by
  obtain ⟨first, rest, hlist⟩ := exists_toList_eq_cons hx
  obtain ⟨hmem, hlargest⟩ := pivot_mem hlist
  have hpos := modulus_pivot_pos hx hlist
  obtain ⟨hturned, hunit⟩ := (pivot first rest).mul_phase hpos
  rw [fixPhase_eq hlist, if_pos hpos]
  refine ⟨_, Vector.mem_map_of_mem hmem, ?_, ?_, fun w hw => ?_⟩
  · rw [hturned]
  · rw [hturned]
    exact hpos
  · obtain ⟨v, hv, rfl⟩ := Vector.mem_map.mp hw
    rw [ComplexNumber.normSq_mul, ComplexNumber.normSq_mul, hunit, mul_one, mul_one]
    exact hlargest v hv

theorem map_mul_one (x : Vector (ComplexNumber ℝ) n) : (x.map fun z => z * 1) = x := by
  simp

theorem map_mul_mul (x : Vector (ComplexNumber ℝ) n) (c d : ComplexNumber ℝ) :
    ((x.map fun z => z * c).map fun z => z * d) = x.map fun z => z * (c * d) := by
  simp [Function.comp_def, mul_assoc]

/-- The vector is turned, and nothing else happens to it. -/
theorem exists_fixPhase_eq_map_mul (x : Vector (ComplexNumber ℝ) n) :
    ∃ c : ComplexNumber ℝ, c.modulus = 1 ∧ fixPhase x = x.map fun z => z * c := by
  cases hlist : x.toList with
  | nil =>
      refine ⟨1, ComplexNumber.modulus_one, ?_⟩
      rw [map_mul_one, fixPhase, hlist]
  | cons first rest =>
      rw [fixPhase_eq hlist]
      split
      · next hpos =>
        exact ⟨_, (ComplexNumber.modulus_eq_one_iff _).mpr (ComplexNumber.mul_phase _ hpos).2, rfl⟩
      · exact ⟨1, ComplexNumber.modulus_one, (map_mul_one x).symm⟩

/-- Whatever the phase was before, the result is the same. -/
theorem fixPhase_map_mul {c : ComplexNumber ℝ} (hc : c.modulus = 1)
    (x : Vector (ComplexNumber ℝ) n) : fixPhase (x.map fun z => z * c) = fixPhase x := by
  by_cases hx : ∃ z ∈ x, z ≠ 0
  · obtain ⟨first, rest, hlist⟩ := exists_toList_eq_cons hx
    have hturned : (x.map fun z => z * c).toList = first * c :: rest.map fun z => z * c := by
      rw [Vector.toList_map, hlist, List.map_cons]
    have hmodulus : (pivot first rest * c).modulus = (pivot first rest).modulus := by
      rw [ComplexNumber.modulus_mul, hc, mul_one]
    have hpos := modulus_pivot_pos hx hlist
    rw [fixPhase_eq hturned, fixPhase_eq hlist, pivot_map_mul hc, hmodulus, if_pos hpos,
      if_pos hpos, map_mul_mul, ComplexNumber.mul_conj_mul_divReal _ hc]
  · push Not at hx
    have hsame : (x.map fun z => z * c) = x.map id :=
      Vector.map_congr_left fun z hz => by rw [hx z hz, zero_mul, id]
    rw [hsame, Vector.map_id]

/-- Two vectors have the same result exactly if one is a turn of the other. -/
theorem fixPhase_eq_fixPhase_iff {y : Vector (ComplexNumber ℝ) n} :
    fixPhase y = fixPhase x ↔
      ∃ c : ComplexNumber ℝ, c.modulus = 1 ∧ y = x.map fun z => z * c := by
  constructor
  · intro h
    obtain ⟨c, hc, hx⟩ := exists_fixPhase_eq_map_mul x
    obtain ⟨d, hd, hy⟩ := exists_fixPhase_eq_map_mul y
    refine ⟨c * d.conj, ?_, ?_⟩
    · rw [ComplexNumber.modulus_mul, ComplexNumber.modulus_conj, hc, hd, mul_one]
    · calc
        y = (fixPhase y).map fun z => z * d.conj := by
          rw [hy, map_mul_mul, ComplexNumber.mul_conj_eq_one hd, map_mul_one]
        _ = x.map fun z => z * (c * d.conj) := by rw [h, hx, map_mul_mul]
  · rintro ⟨c, hc, rfl⟩
    exact fixPhase_map_mul hc x

theorem fixPhase_fixPhase (x : Vector (ComplexNumber ℝ) n) : fixPhase (fixPhase x) = fixPhase x :=
  fixPhase_eq_fixPhase_iff.mpr (exists_fixPhase_eq_map_mul x)

theorem get_map_mul (z : ComplexNumber ℝ) (x : Vector (ComplexNumber ℝ) n) (i : Fin n) :
    (x.map fun w => w * z).get i = x.get i * z :=
  Vector.getElem_map _ i.isLt

theorem modulus_get_fixPhase (x : Vector (ComplexNumber ℝ) n) (i : Fin n) :
    ((fixPhase x).get i).modulus = (x.get i).modulus := by
  obtain ⟨c, hc, hphase⟩ := exists_fixPhase_eq_map_mul x
  rw [hphase, get_map_mul, ComplexNumber.modulus_mul, hc, mul_one]

end FixPhase

/-- The phase of a vector is fixed in one way for all its turns. -/
structure HasCanonicalPhase (x : Vector (ComplexNumber ℝ) n) : Prop where
  /-- The vectors with the same result are the turns of this one. -/
  turns : ∀ y : Vector (ComplexNumber ℝ) n, fixPhase y = fixPhase x ↔
    ∃ c : ComplexNumber ℝ, c.modulus = 1 ∧ y = x.map fun z => z * c
  fixed : fixPhase (fixPhase x) = fixPhase x
  modulus_eq : ∀ i : Fin n, ((fixPhase x).get i).modulus = (x.get i).modulus
  hasRealLead : HasRealLead (fixPhase x)

theorem hasCanonicalPhase_of_ne_zero {x : Vector (ComplexNumber ℝ) n} (hx : ∃ z ∈ x, z ≠ 0) :
    HasCanonicalPhase x where
  turns _ := fixPhase_eq_fixPhase_iff
  fixed := fixPhase_fixPhase x
  modulus_eq := modulus_get_fixPhase x
  hasRealLead := fixPhase_hasRealLead hx

theorem HasRealLead.norm_re_pos {x : Vector (ComplexNumber ℝ) n} (h : HasRealLead x) :
    0 < Column.norm (x.map ComplexNumber.re) := by
  obtain ⟨z, hz, -, hpos, -⟩ := h
  obtain ⟨i, hi, rfl⟩ := Vector.getElem_of_mem hz
  rw [norm_eq, norm_pos_iff]
  intro hzero
  have hentry : point (x.map ComplexNumber.re) ⟨i, hi⟩ = x[i].re := by simp
  rw [hzero] at hentry
  exact hpos.ne hentry

theorem norm_eq_zero_iff {x : Vector (ComplexNumber ℝ) n} : norm x = 0 ↔ ∀ z ∈ x, z = 0 := by
  have htotal : Column.total (x.map ComplexNumber.normSq) = ∑ i : Fin n, x[i].normSq := by
    simp [Column.total, sum_eq_sum]
  rw [norm, htotal, Scalar.sqrt_real,
    Real.sqrt_eq_zero (Finset.sum_nonneg fun i _ => ComplexNumber.normSq_nonneg _),
    Finset.sum_eq_zero_iff_of_nonneg fun i _ => ComplexNumber.normSq_nonneg _]
  constructor
  · intro h z hz
    obtain ⟨i, hi, rfl⟩ := Vector.getElem_of_mem hz
    exact (ComplexNumber.normSq_eq_zero _).mp (h ⟨i, hi⟩ (Finset.mem_univ _))
  · intro h i _
    exact (ComplexNumber.normSq_eq_zero _).mpr (h _ (Vector.getElem_mem _))

theorem norm_ne_zero_iff {x : Vector (ComplexNumber ℝ) n} : norm x ≠ 0 ↔ ∃ z ∈ x, z ≠ 0 := by
  rw [Ne, norm_eq_zero_iff]
  push Not
  rfl

theorem divide_eq (x : Vector (ComplexNumber ℝ) n) (size : ℝ) :
    divide x size = x.map fun z => z * ComplexNumber.ofReal size⁻¹ :=
  congrArg x.map (funext fun z => z.divReal_eq size)

theorem exists_divide_ne_zero {x : Vector (ComplexNumber ℝ) n} {a : ℝ} (ha : a ≠ 0)
    (hx : ∃ z ∈ x, z ≠ 0) : ∃ z ∈ divide x a, z ≠ 0 := by
  obtain ⟨z, hz, hne⟩ := hx
  refine ⟨z.divReal a, Vector.mem_map_of_mem hz, fun hzero => hne ?_⟩
  rw [← ComplexNumber.normSq_eq_zero] at hzero ⊢
  rw [ComplexNumber.normSq_divReal] at hzero
  exact (div_eq_zero_iff.mp hzero).resolve_right (mul_ne_zero ha ha)

/-- What a chain of solutions ends with is not zero. -/
theorem exists_ne_zero_of_iterate? {steps : List (Elimination.Step (ComplexNumber ℝ))}
    {count : ℕ} {x y : Vector (ComplexNumber ℝ) n} (h : iterate? steps (count + 1) x = some y) :
    ∃ z ∈ y, z ≠ 0 := by
  induction count generalizing x with
  | zero =>
      simp only [iterate?, Option.bind_eq_bind, Option.bind_eq_some_iff] at h
      obtain ⟨z, -, hz⟩ := h
      split at hz
      · cases hz
      next hsize =>
      obtain rfl := Option.some.inj hz
      have hne : norm z ≠ 0 := fun hzero => hsize (.inl (decide_eq_true hzero))
      exact exists_divide_ne_zero hne (norm_ne_zero_iff.mp hne)
  | succ count ih =>
      rw [iterate?] at h
      simp only [Option.bind_eq_bind, Option.bind_eq_some_iff] at h
      obtain ⟨z, -, hz⟩ := h
      split at hz
      · cases hz
      · exact ih hz

theorem hasRealLead_of_vector? {a : Square ℝ n} {value : ComplexNumber ℝ} {k count : ℕ}
    {shift : ℝ} {x : Vector (ComplexNumber ℝ) n} (h : vector? a value k count shift = some x) :
    HasRealLead x := by
  induction count generalizing shift with
  | zero => cases h
  | succ count ih =>
      rw [vector?] at h
      split at h
      · next y hy =>
        obtain rfl := Option.some.inj h
        obtain ⟨steps, -, hsteps⟩ := Option.bind_eq_some_iff.mp hy
        exact fixPhase_hasRealLead (exists_ne_zero_of_iterate? hsteps)
      · exact ih h

end InverseIteration

end SubspaceEigen
