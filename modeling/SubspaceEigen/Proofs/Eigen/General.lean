import SubspaceEigen.Proofs.Eigen.Inverse

/-!
# Eigenpairs of general matrices

For every eigenvalue that is supplied a vector is found by inverse iteration.  The vectors have a
real lead, and they are eigenvectors if the iteration starts from eigenvectors.
-/

namespace SubspaceEigen

theorem mapM_eq_some_iff {β γ : Type} {f : β → Option γ} {items : List β} {images : List γ} :
    items.mapM f = some images ↔ List.Forall₂ (fun b c => f b = some c) items images := by
  induction items generalizing images with
  | nil => simp [eq_comm]
  | cons b items ih =>
      rw [List.forall₂_cons_left_iff]
      simp only [List.mapM_cons, Option.bind_eq_bind, Option.bind_eq_some_iff, Option.pure_def,
        Option.some_inj, ih]
      constructor
      · rintro ⟨c, hc, rest, hrest, rfl⟩
        exact ⟨c, rest, hc, hrest, rfl⟩
      · rintro ⟨c, rest, hc, hrest, rfl⟩
        exact ⟨c, hc, rest, hrest, rfl⟩

section Eigenpairs

open InverseIteration

variable {n : ℕ} {dense : Factorizations ℝ}

noncomputable def firstShift (a : Square ℝ n) : ℝ :=
  relativeShift * Scalar.max a.largestEntry 1

theorem relativeShift_pos : (0 : ℝ) < relativeShift := by
  unfold relativeShift
  norm_num

theorem firstShift_pos (a : Square ℝ n) : 0 < firstShift a := by
  have hone : (1 : ℝ) ≤ max a.largestEntry 1 := le_max_right _ _
  rw [firstShift, Scalar.max_real]
  exact mul_pos relativeShift_pos (zero_lt_one.trans_le hone)

theorem Columns.largestEntry_le_iff {cs : Columns ℝ n} {c : ℝ} :
    cs.largestEntry ≤ c ↔ 0 ≤ c ∧ ∀ x ∈ cs, ∀ y ∈ x, |y| ≤ c := by
  have hentry : ∀ (ys : List ℝ) (top : ℝ),
      ys.foldl (fun top y => if Scalar.abs y ≤ top then top else Scalar.abs y) top ≤ c ↔
        top ≤ c ∧ ∀ y ∈ ys, |y| ≤ c := by
    intro ys
    induction ys with
    | nil => simp
    | cons y ys ih =>
        intro top
        have hlarger : (if |y| ≤ top then top else |y|) = max top |y| := max_def' top |y| ▸ rfl
        rw [List.foldl_cons, ih, Scalar.abs_real, hlarger, max_le_iff, List.forall_mem_cons,
          and_assoc]
  have hcolumn : ∀ (xs : List (Vector ℝ n)) (top : ℝ),
      xs.foldl (fun top x => x.toArray.foldl (fun top y =>
        if Scalar.abs y ≤ top then top else Scalar.abs y) top) top ≤ c ↔
        top ≤ c ∧ ∀ x ∈ xs, ∀ y ∈ x, |y| ≤ c := by
    intro xs
    induction xs with
    | nil => simp
    | cons x xs ih =>
        intro top
        rw [List.foldl_cons, ih, ← Array.foldl_toList, hentry, List.forall_mem_cons, and_assoc]
        simp only [Array.mem_toList_iff, Vector.mem_toArray_iff]
  rw [largestEntry, ← Array.foldl_toList, hcolumn]
  simp only [Array.mem_toList_iff]

theorem Square.largestEntry_le_iff {a : Square ℝ n} {c : ℝ} :
    a.largestEntry ≤ c ↔ 0 ≤ c ∧ ∀ x ∈ a, ∀ y ∈ x, |y| ≤ c := by
  rw [largestEntry, Columns.largestEntry_le_iff]
  simp only [Vector.mem_toArray_iff]

/-- A bound on the entries bounds the shift. -/
theorem firstShift_le {a : Square ℝ n} {c : ℝ} (hc : 1 ≤ c) (h : ∀ x ∈ a, ∀ y ∈ x, |y| ≤ c) :
    firstShift a ≤ relativeShift * c := by
  have hlargest : a.largestEntry ≤ c :=
    Square.largestEntry_le_iff.mpr ⟨zero_le_one.trans hc, h⟩
  rw [firstShift, Scalar.max_real]
  exact mul_le_mul_of_nonneg_left (max_le hlargest hc) relativeShift_pos.le

theorem squareEigen_eq (dense : Factorizations ℝ) (a : Square ℝ n) :
    squareEigen dense a = (dense.eigenvalues a).bind fun values => values.zipIdx.mapM fun v =>
      (vector? a v.1 v.2 attempts (firstShift a)).map fun x => ⟨v.1, x⟩ := by
  have hfinite : ¬ (a.toArray.any fun c => c.toArray.any fun x => !Scalar.isFinite x) = true := by
    simp only [Scalar.isFinite_real, Bool.not_true, Array.any_eq_true]
    rintro ⟨i, hi, j, hj, hfalse⟩
    cases hfalse
  exact if_neg hfinite

theorem squareEigen_eq_some_iff {a : Square ℝ n} {pairs : List (ComplexEigenpair ℝ n)} :
    squareEigen dense a = some pairs ↔ ∃ values, dense.eigenvalues a = some values ∧
      List.Forall₂ (fun v p => p.value = v.1 ∧
        vector? a v.1 v.2 attempts (firstShift a) = some p.vector) values.zipIdx pairs := by
  have hpair : ∀ (v : ComplexNumber ℝ × ℕ) (p : ComplexEigenpair ℝ n),
      (vector? a v.1 v.2 attempts (firstShift a)).map (fun x => (⟨v.1, x⟩ : ComplexEigenpair ℝ n)) =
        some p ↔ p.value = v.1 ∧ vector? a v.1 v.2 attempts (firstShift a) = some p.vector := by
    intro v p
    rw [Option.map_eq_some_iff]
    constructor
    · rintro ⟨x, hx, rfl⟩
      exact ⟨rfl, hx⟩
    · rintro ⟨hvalue, hvector⟩
      exact ⟨p.vector, hvector, by rw [← hvalue]⟩
  simp only [squareEigen_eq, Option.bind_eq_some_iff, mapM_eq_some_iff, hpair]

theorem map_value_of_squareEigen {a : Square ℝ n} {pairs : List (ComplexEigenpair ℝ n)}
    {values : List (ComplexNumber ℝ)} (hvalues : dense.eigenvalues a = some values)
    (h : squareEigen dense a = some pairs) : pairs.map ComplexEigenpair.value = values := by
  obtain ⟨values', hvalues', hpairs⟩ := squareEigen_eq_some_iff.mp h
  obtain rfl := Option.some.inj (hvalues.symm.trans hvalues')
  have hfst : values.zipIdx.map Prod.fst = values := List.zipIdx_map_fst 0 values
  rw [← hfst, ← List.forall₂_eq_eq_eq, List.forall₂_map_left_iff, List.forall₂_map_right_iff]
  exact hpairs.flip.imp fun _ _ hpair => hpair.1

/-- Every vector has a component of largest modulus that is real and positive. -/
theorem hasRealLead_of_squareEigen {a : Square ℝ n} {pairs : List (ComplexEigenpair ℝ n)}
    (h : squareEigen dense a = some pairs) : ∀ p ∈ pairs, HasRealLead p.vector := by
  obtain ⟨values, -, hpairs⟩ := squareEigen_eq_some_iff.mp h
  have hboth := hpairs.flip.imp fun _ _ hpair => And.intro (hasRealLead_of_vector? hpair.2) hpair
  exact ((List.forall₂_and_left _ _).mp hboth).1

/-- If the iteration starts from eigenvectors, the pairs are exact. -/
theorem scales_of_squareEigen {a : Square ℝ n} {values : List (ComplexNumber ℝ)}
    (hvalues : dense.eigenvalues a = some values)
    (hstart : ∀ v ∈ values.zipIdx, Scales a v.1 (start n v.2)) {pairs : List (ComplexEigenpair ℝ n)}
    (h : squareEigen dense a = some pairs) : ∀ p ∈ pairs, Scales a p.value p.vector := by
  obtain ⟨values', hvalues', hpairs⟩ := squareEigen_eq_some_iff.mp h
  obtain rfl := Option.some.inj (hvalues.symm.trans hvalues')
  have hstarted := (List.forall₂_and_left _ _).mpr ⟨hstart, hpairs⟩
  have hboth : List.Forall₂ (fun p (v : ComplexNumber ℝ × ℕ) =>
      Scales a p.value p.vector ∧ p.value = v.1) pairs values.zipIdx := by
    refine hstarted.flip.imp fun p v hpair => ⟨?_, hpair.2.1⟩
    obtain ⟨hscales, hvalue, hvector⟩ := hpair
    rw [hvalue]
    exact hscales.of_vector? (firstShift_pos a) hvector
  exact ((List.forall₂_and_left _ _).mp hboth).1

/-- Eigenpairs are found unless a shifted eigenvalue is an eigenvalue too. -/
theorem exists_squareEigen {a : Square ℝ n} {values : List (ComplexNumber ℝ)} (hpos : 0 < n)
    (hvalues : dense.eigenvalues a = some values)
    (hregular : ∀ value ∈ values,
      IsRegular n (shiftedEntry a (value + ComplexNumber.ofReal (firstShift a)))) :
    ∃ pairs, squareEigen dense a = some pairs := by
  have hvector : ∀ v : ComplexNumber ℝ × ℕ, ∃ x, v ∈ values.zipIdx →
      vector? a v.1 v.2 attempts (firstShift a) = some x := by
    intro v
    by_cases hv : v ∈ values.zipIdx
    · obtain ⟨x, hx⟩ := exists_vector? hpos
        (hregular v.1 (List.fst_mem_of_mem_zipIdx hv)) v.2 (attempts - 1)
      exact ⟨x, fun _ => hx⟩
    · exact ⟨start n v.2, fun h => absurd h hv⟩
  choose vector hvector using hvector
  refine ⟨values.zipIdx.map fun v => ⟨v.1, vector v⟩, squareEigen_eq_some_iff.mpr
    ⟨values, hvalues, ?_⟩⟩
  rw [List.forall₂_map_right_iff, List.forall₂_same]
  exact fun v hv => ⟨rfl, hvector v hv⟩

theorem hasRealLead_of_generalizedEigen {a b : Block ℝ} {pairs : List (ComplexEigenpair ℝ a.rows)}
    (h : generalizedEigen dense a b = some pairs) : ∀ p ∈ pairs, HasRealLead p.vector := by
  simp only [generalizedEigen, Option.bind_eq_bind, Option.bind_eq_some_iff] at h
  obtain ⟨numerator, -, metric, -, m, -, hpairs⟩ := h
  exact hasRealLead_of_squareEigen hpairs

end Eigenpairs

end SubspaceEigen
