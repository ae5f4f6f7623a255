import SubspaceEigen.Dense.Standard
import SubspaceEigen.Eigen.Symmetric
import SubspaceEigen.Proofs.Operator.Represents
import SubspaceEigen.Proofs.Ranking
import SubspaceEigen.Proofs.Solver.Guess
import SubspaceEigen.Proofs.Solver.Settling
import SubspaceEigen.Proofs.TotalOrder

/-!
# Where undefined values rank

In the total order an undefined number lies above all numbers or, with the sign bit set, below them.
So what is sorted by it has the numbers in front unless one of the second kind is there, and then
that one is in front.
-/

namespace SubspaceEigen

open Binary64

/-! ## Sorted lists -/

/-- Behind an undefined number there are no others than undefined ones. -/
def NumbersFirst (values : List Binary64) : Prop :=
  values.Pairwise fun x y => x.isUndefined = true → y.isUndefined = true

/-- There are numbers, and an undefined one with the sign bit set, which the total order puts below
them. -/
def SinksBelow (values : List Binary64) : Prop :=
  (∃ x ∈ values, x.isUndefined = true ∧ x.isNegative = true) ∧
    ∃ y ∈ values, y.isUndefined = false

instance (values : List Binary64) : Decidable (NumbersFirst values) :=
  inferInstanceAs (Decidable (List.Pairwise _ _))

instance (values : List Binary64) : Decidable (SinksBelow values) :=
  inferInstanceAs (Decidable (_ ∧ _))

theorem sinksBelow_congr {values others : List Binary64} (h : values.Perm others) :
    SinksBelow values ↔ SinksBelow others := by
  simp only [SinksBelow, h.mem_iff]

/-- The values that are numbers ascend. -/
def NumbersAscend (values : List Binary64) : Prop :=
  (values.filter fun x => !x.isUndefined).Pairwise fun x y => x ≤ y

section Sorted

variable {values : List Binary64} (h : values.Pairwise fun x y => totalOrder x y = true)

include h

theorem numbersAscend_of_pairwise : NumbersAscend values := by
  have hfilter := h.filter fun x => !x.isUndefined
  refine hfilter.imp_of_mem ?_
  intro x y hx hy hle
  have hdefined : ∀ z ∈ values.filter fun x => !x.isUndefined, z.isUndefined = false := fun z hz =>
    Bool.not_eq_true' _ ▸ (List.mem_filter.mp hz).2
  exact le_of_orderKey_le (hdefined x hx) (hdefined y hy) (of_decide_eq_true hle)

theorem numbersFirst_iff_of_pairwise : NumbersFirst values ↔ ¬ SinksBelow values := by
  constructor
  · rintro hfirst ⟨⟨x, hx, hundefined, hnegative⟩, y, hy, hdefined⟩
    have hkey := orderKey_lt_of_isNegative hundefined hnegative hdefined
    obtain ⟨i, hi, rfl⟩ := List.getElem_of_mem hx
    obtain ⟨j, hj, rfl⟩ := List.getElem_of_mem hy
    rcases lt_trichotomy i j with hij | rfl | hji
    · have hlast := List.pairwise_iff_getElem.mp hfirst i j hi hj hij hundefined
      exact Bool.false_ne_true (hdefined.symm.trans hlast)
    · exact Bool.false_ne_true (hdefined.symm.trans hundefined)
    · have hle := of_decide_eq_true (List.pairwise_iff_getElem.mp h j i hj hi hji)
      omega
  · intro hsinks
    refine h.imp_of_mem ?_
    intro x y hx hy hle hundefined
    by_contra hdefined
    rw [Bool.not_eq_true] at hdefined
    have hkey := of_decide_eq_true hle
    have hnegative : x.isNegative = true := by
      by_contra hpositive
      rw [Bool.not_eq_true] at hpositive
      exact absurd hkey (not_le.mpr (orderKey_lt_of_not_isNegative hundefined hpositive hdefined))
    exact hsinks ⟨⟨x, hx, hundefined, hnegative⟩, y, hy, hdefined⟩

end Sorted

/-! ## What is sorted -/

def ranked {α : Type} [Scalar α] (values : List α) : List α :=
  (ranking values).filterMap fun i => values[i]?

theorem ranked_eq {α : Type} [Scalar α] (values : List α) :
    ranked values = (sortedBy Prod.fst values.zipIdx).map Prod.fst := by
  rw [ranked, ranking, List.filterMap_map, ← List.filterMap_eq_map]
  refine List.filterMap_congr fun p hp => ?_
  exact List.mem_zipIdx_iff_getElem?.mp ((sortedBy_perm _ _).mem_iff.mp hp)

theorem ranked_perm {α : Type} [Scalar α] (values : List α) : (ranked values).Perm values := by
  rw [ranked_eq]
  exact ((sortedBy_perm _ _).map _).trans (.of_eq (List.zipIdx_map_fst 0 values))

theorem pairwise_map_sortedBy {β : Type} (key : β → Binary64) (items : List β) :
    ((sortedBy key items).map key).Pairwise fun x y => totalOrder x y = true :=
  List.pairwise_map.mpr (sortedBy_pairwise key items)

theorem pairwise_ranked (values : List Binary64) :
    (ranked values).Pairwise fun x y => totalOrder x y = true := by
  rw [ranked_eq]
  exact pairwise_map_sortedBy Prod.fst values.zipIdx

theorem pairwise_diagonalize {dense : Factorizations Binary64} {m : Block Binary64}
    {lowest : Option ℕ} {spectrum : Spectrum Binary64 m.rows}
    (h : diagonalize dense m lowest = .ok spectrum) :
    (spectrum.pairs.map Eigenpair.value).Pairwise fun x y => totalOrder x y = true := by
  unfold diagonalize at h
  split at h
  · cases h
  · split at h
    · cases h
    obtain rfl := Except.ok.inj h
    have hsorted := pairwise_map_sortedBy Eigenpair.value (dense.symmetric ‹Square Binary64 m.rows›)
    cases lowest with
    | none => exact hsorted
    | some count => exact hsorted.sublist ((List.take_sublist _ _).map _)

/-! ## Guesses -/

/-- The guess takes an undefined entry of the diagonal only where it takes all numbers. -/
def TakesNumbersFirst {n : ℕ} (diagonal : Vector Binary64 n) (guess : Columns Binary64 n) : Prop :=
  ∀ i j : Fin n, Column.unit n i ∈ guess → (getElem diagonal i i.isLt).isUndefined = true →
    (getElem diagonal j j.isLt).isUndefined = false → Column.unit n j ∈ guess

theorem unit_inj {n : ℕ} {i j : Fin n}
    (h : (Column.unit n i : Vector Binary64 n) = Column.unit n j) : i = j := by
  have hentry := congrArg (fun x : Vector Binary64 n => x[i]) h
  simp only [Column.unit, Fin.getElem_fin, Vector.getElem_ofFn, if_pos] at hentry
  by_contra hij
  rw [if_neg (mt Fin.ext hij)] at hentry
  exact absurd hentry (by decide)

/-- A guess takes the positions whose place in the ranking is below its size. -/
theorem mem_unitGuess_iff {n : ℕ} {diagonal : Vector Binary64 n} {σ : Equiv.Perm (Fin n)}
    (hσ : ranking diagonal.toList = List.ofFn fun j => (σ j).val) (size : ℕ) (j : Fin n) :
    Column.unit n (σ j) ∈ unitGuess .symmetric diagonal size ↔ j.val < size := by
  have hmem : (σ j).val ∈ (ranking diagonal.toList).take size ↔ j.val < size := by
    rw [hσ, List.mem_take_iff_getElem]
    constructor
    · rintro ⟨i, hi, hget⟩
      rw [List.getElem_ofFn] at hget
      obtain rfl := σ.injective (Fin.ext hget)
      exact (lt_min_iff.mp hi).1
    · intro hj
      exact ⟨j, lt_min hj (by simp), by simp⟩
  rw [← hmem, unitGuess, OperatorKind.guessOffset, List.drop_zero, List.mem_toArray, List.mem_map]
  constructor
  · rintro ⟨k, hk, hunit⟩
    have hlt : k < n := by
      rw [hσ] at hk
      obtain ⟨i, rfl⟩ := List.mem_ofFn.mp (List.mem_of_mem_take hk)
      exact (σ i).isLt
    exact unit_inj (show Column.unit n (Fin.mk k hlt).val = _ from hunit) ▸ hk
  · intro hk
    exact ⟨_, hk, rfl⟩

/-- Numbers are taken first exactly if there is no undefined entry with the sign bit set, or all
numbers are taken. -/
theorem takesNumbersFirst_iff {n : ℕ} (diagonal : Vector Binary64 n) (size : ℕ) :
    TakesNumbersFirst diagonal (unitGuess .symmetric diagonal size) ↔
      (0 < size → SinksBelow diagonal.toList → ∀ j : Fin n,
        (getElem diagonal j j.isLt).isUndefined = false →
          Column.unit n j ∈ unitGuess .symmetric diagonal size) := by
  obtain ⟨σ, hranking, hσ⟩ := exists_ranking_eq diagonal
  have hmem := mem_unitGuess_iff hranking size
  have hkey : ∀ a b, a ≤ b → diagonal[σ a].orderKey ≤ diagonal[σ b].orderKey := by
    intro a b hab
    rcases hab.eq_or_lt with rfl | hlt
    · exact le_rfl
    · exact of_decide_eq_true ((hσ a b).mpr hlt).1
  constructor
  · rintro hfirst hsize ⟨⟨x, hx, hundefined, hnegative⟩, -⟩ j hj
    obtain ⟨i, hi, rfl⟩ := List.getElem_of_mem hx
    rw [Vector.length_toList] at hi
    rw [Vector.getElem_toList] at hundefined hnegative
    let least : Fin n := ⟨0, i.zero_le.trans_lt hi⟩
    have hle := hkey least (σ.symm ⟨i, hi⟩) (Nat.zero_le _)
    simp only [Equiv.apply_symm_apply, Fin.getElem_fin] at hle
    have hleast : diagonal[σ least].isUndefined = true := by
      by_contra hdefined
      rw [Bool.not_eq_true] at hdefined
      exact absurd hle (not_le.mpr (orderKey_lt_of_isNegative hundefined hnegative hdefined))
    exact hfirst (σ least) j ((hmem least).mpr hsize) hleast hj
  · intro hsinks i j hi hundefined hj
    obtain ⟨a, rfl⟩ := σ.surjective i
    obtain ⟨b, rfl⟩ := σ.surjective j
    have hsize : a.val < size := (hmem a).mp hi
    rcases le_total b a with hba | hab
    · exact (hmem b).mpr (lt_of_le_of_lt hba hsize)
    have hnegative : diagonal[σ a].isNegative = true := by
      by_contra hpositive
      rw [Bool.not_eq_true] at hpositive
      exact absurd (hkey a b hab)
        (not_le.mpr (orderKey_lt_of_not_isNegative hundefined hpositive hj))
    exact hsinks (a.val.zero_le.trans_lt hsize)
      ⟨⟨_, by simp, hundefined, hnegative⟩, _, by simp, hj⟩ (σ b) hj

/-! ## The condition -/

/-- Sorting is by a permutation along which the numbers ascend.  The undefined values come last in a
ranking, in a spectrum and among the roots of a solution, except where one of them has the sign bit
set and there are numbers as well; and then also a guess takes that one in place of a number, unless
it takes all numbers. -/
theorem numbers_first_iff (values : List Binary64) (dense : Factorizations Binary64) :
    ((ranking values).Perm (List.range values.length) ∧ NumbersAscend (ranked values) ∧
      (NumbersFirst (ranked values) ↔ ¬ SinksBelow values)) ∧
    (∀ (m : Block Binary64) (lowest : Option ℕ) (spectrum : Spectrum Binary64 m.rows),
      diagonalize dense m lowest = .ok spectrum →
        let values := spectrum.pairs.map Eigenpair.value
        NumbersAscend values ∧ (NumbersFirst values ↔ ¬ SinksBelow values)) ∧
    (∀ {n order : ℕ} (pairs : List (RitzPair Binary64 n order)) (norms : List Binary64)
      (flags : List Bool) (requested : ℕ),
        let values := (Solution.settle pairs norms flags requested).map Root.value
        NumbersAscend values ∧ (NumbersFirst values ↔ ¬ SinksBelow values)) ∧
    ∀ {n : ℕ} (diagonal : Vector Binary64 n) (size : ℕ),
      TakesNumbersFirst diagonal (unitGuess .symmetric diagonal size) ↔
        (0 < size → SinksBelow diagonal.toList → ∀ j : Fin n,
          (getElem diagonal j j.isLt).isUndefined = false →
            Column.unit n j ∈ unitGuess .symmetric diagonal size) := by
  refine ⟨⟨ranking_perm values, ?_, ?_⟩, fun m lowest spectrum h => ?_,
    fun pairs norms flags requested => ?_, takesNumbersFirst_iff⟩
  · exact numbersAscend_of_pairwise (pairwise_ranked values)
  · rw [numbersFirst_iff_of_pairwise (pairwise_ranked values),
      sinksBelow_congr (ranked_perm values)]
  · have hsorted := pairwise_diagonalize h
    exact ⟨numbersAscend_of_pairwise hsorted, numbersFirst_iff_of_pairwise hsorted⟩
  · have hsorted := pairwise_map_sortedBy Root.value
      (Solution.leadingRoots pairs norms flags requested)
    exact ⟨numbersAscend_of_pairwise hsorted, numbersFirst_iff_of_pairwise hsorted⟩

/-- An undefined value without the sign bit comes last, and the eigenvalues of a diagonal matrix are
numbers. -/
theorem numbers_first_of_positive :
    let values : List Binary64 := [⟨0x7ff8000000000000⟩, ⟨0x3ff0000000000000⟩, ⟨0⟩]
    let a : Square Binary64 2 := #v[#v[⟨0x4000000000000000⟩, 0], #v[0, 1]]
    NumbersFirst (ranked values) ∧
      ∃ spectrum, diagonalize .standard ⟨2, a.toArray⟩ none = .ok spectrum ∧
        NumbersFirst (spectrum.pairs.map Eigenpair.value) := by
  intro values a
  let pairs := Factorizations.standard.symmetric a
  have hspectrum : diagonalize .standard ⟨2, a.toArray⟩ none =
      .ok ⟨sortedBy Eigenpair.value pairs⟩ := by
    rw [diagonalize, Block.toSquare?_toArray]
    exact if_neg two_ne_zero
  have hvalues : ¬ SinksBelow ((sortedBy Eigenpair.value pairs).map Eigenpair.value) := by
    rw [sinksBelow_congr ((sortedBy_perm Eigenpair.value pairs).map Eigenpair.value)]
    decide +kernel
  obtain ⟨⟨-, -, hranked⟩, hsorted, -⟩ := numbers_first_iff values .standard
  exact ⟨hranked.mpr (by decide +kernel), _, hspectrum, (hsorted _ none _ hspectrum).2.mpr hvalues⟩

/-- An undefined value with the sign bit set comes first, and the guess takes its position. -/
theorem undefined_first_of_negative :
    let values : Vector Binary64 2 := #v[⟨0xfff8000000000000⟩, ⟨0x3ff0000000000000⟩]
    ranking values.toList = [0, 1] ∧ values[0].isUndefined = true ∧
      values[1].isUndefined = false ∧ ¬ NumbersFirst (ranked values.toList) ∧
        ¬ TakesNumbersFirst values (unitGuess .symmetric values 1) := by
  intro values
  have hranking : ranking values.toList = [0, 1] := ranking_of_sorted (by decide +kernel)
  have hranked : ranked values.toList = values.toList := by
    rw [ranked, hranking]
    rfl
  have hguess : unitGuess .symmetric values 1 = #[Column.unit 2 0] := by
    rw [unitGuess, hranking]
    rfl
  refine ⟨hranking, by decide +kernel, by decide +kernel, ?_, fun hfirst => ?_⟩
  · rw [hranked]
    decide +kernel
  · have hmem := hfirst 0 1 (by simp [hguess]) (by decide +kernel) (by decide +kernel)
    rw [hguess, Array.mem_singleton] at hmem
    exact one_ne_zero (unit_inj (show Column.unit 2 (1 : Fin 2).val = Column.unit 2 0 from hmem))

end SubspaceEigen
