import SubspaceEigen.Operator.Paired
import SubspaceEigen.Proofs.Dense.Supply
import SubspaceEigen.Proofs.Operator.Represents
import SubspaceEigen.Proofs.Ranking
import SubspaceEigen.Proofs.Solver.Guess
import SubspaceEigen.Proofs.Solver.Sizes
import SubspaceEigen.Proofs.TotalOrder

/-!
# Where a guess lies

Without noise a guess consists of coordinate vectors at positions that stand next to each other in
the ranking of the diagonal.  A paired operator has the diagonal `(d, -d)`, and the first half of
its ranking is passed over.  If `d` is positive, that half holds the negatives, and the guess lies
at the smallest entries of `d`.
-/

namespace SubspaceEigen

section Positions

variable {α : Type} [Scalar α] {n size : ℕ}

theorem Selected.injective {values : Vector α n} {passed : ℕ} {c : Fin size → Fin n}
    (h : Selected values passed c) : Function.Injective c := by
  intro i j hij
  rcases lt_trichotomy i j with hlt | rfl | hgt
  · exact absurd (hij ▸ h.ascending hlt) (not_precedes_self _ _)
  · rfl
  · exact absurd (hij ▸ h.ascending hgt) (not_precedes_self _ _)

/-- The columns are coordinate vectors at different positions of the values, those next to each
other in the ranking of the values after the ones that are passed over. -/
def Columns.AreUnitsAt {k : ℕ} (guess : Columns α n) (values : Vector α k)
    (passed size : ℕ) : Prop :=
  ∃ positions : Fin size → Fin k, Function.Injective positions ∧
    Selected values passed positions ∧
      guess = Array.ofFn fun j => Column.unit n (positions j)

theorem OperatorKind.guessOffset_add_available (kind : OperatorKind) (n : ℕ) :
    kind.guessOffset n + kind.available n = n := by
  cases kind with
  | symmetric => exact Nat.zero_add n
  | hamiltonian => exact Nat.add_sub_cancel' (Nat.div_le_self n 2)

theorem unitGuess_areUnitsAt (kind : OperatorKind) (diagonal : Vector α n)
    (hsize : kind.guessOffset n + size ≤ n) :
    (unitGuess kind diagonal size).AreUnitsAt diagonal (kind.guessOffset n) size := by
  obtain ⟨c, hranking, hc⟩ := exists_selected diagonal hsize
  refine ⟨c, hc.injective, hc, ?_⟩
  have hindices : ((ranking diagonal.toList).drop (kind.guessOffset n)).take size =
      List.ofFn fun j => (c j).val := by
    refine List.ext_getElem? fun j => ?_
    rw [List.getElem?_take, List.getElem?_drop, List.getElem?_ofFn]
    split
    · next hj => exact hranking ⟨j, hj⟩
    · rfl
  rw [unitGuess, hindices, List.map_ofFn, List.toArray_ofFn]
  rfl

end Positions

/-! ## Mirrored diagonals -/

section Mirrored

open Binary64

variable {m : ℕ} {d : Vector Binary64 m}

def mirrored (d : Vector Binary64 m) : Vector Binary64 (m + m) :=
  d ++ d.map fun x => -x

theorem mirrored_castAdd (d : Vector Binary64 m) (i : Fin m) :
    getElem (mirrored d) (Fin.castAdd m i) (Fin.castAdd m i).isLt = getElem d i i.isLt :=
  Vector.getElem_append_left i.isLt

theorem mirrored_natAdd (d : Vector Binary64 m) (i : Fin m) :
    getElem (mirrored d) (Fin.natAdd m i) (Fin.natAdd m i).isLt = -getElem d i i.isLt := by
  simp [mirrored]

theorem precedes_castAdd_iff {i j : Fin m} :
    Precedes (mirrored d) (Fin.castAdd m i) (Fin.castAdd m j) ↔ Precedes d i j := by
  simp only [Precedes, mirrored_castAdd, Fin.lt_def, Fin.val_castAdd]

theorem precedes_natAdd_castAdd (hd : ∀ x ∈ d, 0 < x) (i j : Fin m) :
    Precedes (mirrored d) (Fin.natAdd m i) (Fin.castAdd m j) := by
  have hi := orderKey_pos (hd d[i] (Vector.getElem_mem i.isLt))
  have hj := orderKey_pos (hd d[j] (Vector.getElem_mem j.isLt))
  have hkey : (-d[i]).orderKey = -1 - d[i].orderKey := orderKey_negate d[i]
  rw [Precedes, mirrored_natAdd, mirrored_castAdd]
  constructor
  · exact decide_eq_true (by omega)
  · intro hback
    have hle := of_decide_eq_true hback
    omega

/-- The predecessors of a position lie among the values or among the negatives. -/
theorem card_precedes_mirrored (d : Vector Binary64 m) (j : Fin (m + m)) :
    (Finset.univ.filter fun k => Precedes (mirrored d) k j).card =
      (Finset.univ.filter fun k => Precedes (mirrored d) (Fin.castAdd m k) j).card +
        (Finset.univ.filter fun k => Precedes (mirrored d) (Fin.natAdd m k) j).card := by
  simp only [Finset.card_filter, Fin.sum_univ_add]

theorem card_precedes_castAdd (hd : ∀ x ∈ d, 0 < x) (j : Fin m) :
    (Finset.univ.filter fun k => Precedes (mirrored d) k (Fin.castAdd m j)).card =
      (Finset.univ.filter fun k => Precedes d k j).card + m := by
  rw [card_precedes_mirrored,
    Finset.filter_true_of_mem fun k _ => precedes_natAdd_castAdd hd k j, Finset.card_univ,
    Fintype.card_fin]
  simp only [precedes_castAdd_iff]

theorem card_precedes_natAdd_lt (hd : ∀ x ∈ d, 0 < x) (j : Fin m) :
    (Finset.univ.filter fun k => Precedes (mirrored d) k (Fin.natAdd m j)).card < m := by
  have hself : j ∉ Finset.univ.filter fun k =>
      Precedes (mirrored d) (Fin.natAdd m k) (Fin.natAdd m j) := fun hmem =>
    not_precedes_self _ _ (Finset.mem_filter.mp hmem).2
  rw [card_precedes_mirrored,
    Finset.filter_false_of_mem fun k _ => (precedes_natAdd_castAdd hd j k).asymm,
    Finset.card_empty, zero_add]
  exact (Finset.card_lt_univ_of_notMem hself).trans_eq (Fintype.card_fin m)

/-- Behind the middle of the ranking there are the smallest values. -/
theorem selected_of_mirrored (hd : ∀ x ∈ d, 0 < x) {size : ℕ} {c : Fin size → Fin (m + m)}
    (hc : Selected (mirrored d) m c) :
    ∃ positions : Fin size → Fin m, Selected d 0 positions ∧
      ∀ j, c j = Fin.castAdd m (positions j) := by
  have hfirst : ∀ j, ∃ i, c j = Fin.castAdd m i := by
    intro j
    have hcard := hc.card_precedes j
    generalize c j = k at hcard ⊢
    induction k using Fin.addCases with
    | left i => exact ⟨i, rfl⟩
    | right i =>
        have hlt := card_precedes_natAdd_lt hd i
        omega
  choose positions hpositions using hfirst
  refine ⟨positions, selected_of_card fun j => ?_, hpositions⟩
  have hcard := hc.card_precedes j
  rw [hpositions, card_precedes_castAdd hd] at hcard
  omega

theorem unitGuess_mirrored (hd : ∀ x ∈ d, 0 < x) {n size : ℕ} (hn : n = m + m) (hsize : size ≤ m)
    {diagonal : Vector Binary64 n} (hdiagonal : diagonal.toArray = (mirrored d).toArray) :
    (unitGuess .hamiltonian diagonal size).AreUnitsAt d 0 size := by
  subst hn
  obtain rfl := Vector.toArray_inj.mp hdiagonal
  have hoffset : OperatorKind.hamiltonian.guessOffset (m + m) = m := by
    rw [OperatorKind.guessOffset]
    omega
  obtain ⟨c, -, hc, hguess⟩ := unitGuess_areUnitsAt .hamiltonian (mirrored d)
    (show _ + size ≤ m + m by omega)
  rw [hoffset] at hc
  obtain ⟨positions, hselected, hpositions⟩ := selected_of_mirrored hd hc
  refine ⟨positions, hselected.injective, hselected, hguess.trans ?_⟩
  simp only [hpositions, Fin.val_castAdd]

end Mirrored

/-! ## The guess of a solve -/

namespace Config

variable {n requested guess : ℕ} {settings : EffectiveSettings}

theorem guessOffset_add_initialGuess_le {α : Type} {c : Config α}
    (hsettings : c.effectiveSettings n requested guess = .ok settings) :
    c.kind.guessOffset n + settings.initialGuess ≤ n :=
  (Nat.add_le_add_left (initialGuess_bounds hsettings).2 _).trans_eq
    (c.kind.guessOffset_add_available n)

theorem guess_areUnitsAt {α : Type} [Scalar α] {c : Config α} (hnoise : ¬ 0 < c.guessNoise)
    (hsettings : c.effectiveSettings n requested guess = .ok settings)
    (dense : Factorizations α) (draws : ℕ → α) (diagonal : Vector α n) :
    (c.guess dense draws diagonal settings.initialGuess).AreUnitsAt diagonal
      (c.kind.guessOffset n) settings.initialGuess := by
  have hunits : c.guess dense draws diagonal settings.initialGuess =
      unitGuess c.kind diagonal settings.initialGuess := if_neg hnoise
  rw [hunits]
  exact unitGuess_areUnitsAt c.kind diagonal (guessOffset_add_initialGuess_le hsettings)

/-- For a paired operator whose first block has a positive diagonal, a guess lies in the upper half,
at the smallest entries of that diagonal. -/
theorem guess_areUnitsAt_first {c : Config Binary64} (hkind : c.kind = .hamiltonian)
    (hnoise : ¬ 0 < c.guessNoise) {h : PairedOperator Binary64}
    (hsettings : c.effectiveSettings h.toOperator.rows requested guess = .ok settings)
    {d : Vector Binary64 h.blockSize} (hdiagonal : h.first.diagonal = .ok d.toArray)
    (hpos : ∀ x ∈ d, 0 < x) (dense : Factorizations Binary64) (draws : ℕ → Binary64) :
    ∃ diagonal : Vector Binary64 h.toOperator.rows,
      h.toOperator.diagonal = .ok diagonal.toArray ∧
        (c.guess dense draws diagonal settings.initialGuess).AreUnitsAt d 0
          settings.initialGuess := by
  have hrows : h.toOperator.rows = h.blockSize + h.blockSize :=
    congrArg (h.first.rows + ·) h.same_size
  have hwhole : h.toOperator.diagonal = .ok (mirrored d).toArray := by
    show h.diagonal = _
    rw [PairedOperator.diagonal, hdiagonal]
    simp [mirrored, Vector.toArray_append, pure, Except.pure, bind, Except.bind]
  refine ⟨(mirrored d).cast hrows.symm, hwhole, ?_⟩
  have hunits : c.guess dense draws ((mirrored d).cast hrows.symm) settings.initialGuess =
      unitGuess .hamiltonian ((mirrored d).cast hrows.symm) settings.initialGuess := by
    rw [← hkind]
    exact if_neg hnoise
  have hsize := (initialGuess_bounds hsettings).2
  rw [hkind, OperatorKind.available] at hsize
  rw [hunits]
  exact unitGuess_mirrored hpos hrows (by omega) rfl

/-- The guess of a solve, for a request that is accepted.  Without noise it consists of coordinate
vectors, at positions that are all there, next to those that are passed over; for a paired operator
whose first block has a positive diagonal they lie at the smallest entries of that block.  In exact
arithmetic it is orthonormal and no larger than it should be, with noise from any draws. -/
theorem guess_areUnitsAt_and_isOrthonormal (requested guess : ℕ) :
    (∀ {α : Type} [Scalar α] (c : Config α) (dense : Factorizations α) (draws : ℕ → α) {n : ℕ}
      (diagonal : Vector α n) (settings : EffectiveSettings), ¬ 0 < c.guessNoise →
        c.effectiveSettings n requested guess = .ok settings →
          c.kind.guessOffset n + settings.initialGuess ≤ (ranking diagonal.toList).length ∧
            (c.guess dense draws diagonal settings.initialGuess).AreUnitsAt diagonal
              (c.kind.guessOffset n) settings.initialGuess) ∧
    (∀ (c : Config Binary64) (dense : Factorizations Binary64) (draws : ℕ → Binary64)
      (h : PairedOperator Binary64) (d : Vector Binary64 h.blockSize)
      (settings : EffectiveSettings), c.kind = .hamiltonian → ¬ 0 < c.guessNoise →
        c.effectiveSettings h.toOperator.rows requested guess = .ok settings →
          h.first.diagonal = .ok d.toArray → (∀ x ∈ d, 0 < x) →
            ∃ diagonal : Vector Binary64 h.toOperator.rows,
              h.toOperator.diagonal = .ok diagonal.toArray ∧
                (c.guess dense draws diagonal settings.initialGuess).AreUnitsAt d 0
                  settings.initialGuess) ∧
    ∀ (c : Config ℝ) (dense : Factorizations ℝ), dense.TriangularExact →
      ∀ (draws : ℕ → ℝ) {n : ℕ} (diagonal : Vector ℝ n) (settings : EffectiveSettings),
        c.effectiveSettings n requested guess = .ok settings →
          (c.guess dense draws diagonal settings.initialGuess).IsOrthonormal ∧
            (c.guess dense draws diagonal settings.initialGuess).size ≤
              settings.initialGuess := by
  refine ⟨fun c dense draws n diagonal settings hnoise hsettings => ?_,
    fun c dense draws h d settings hkind hnoise hsettings hdiagonal hpos =>
      guess_areUnitsAt_first hkind hnoise hsettings hdiagonal hpos dense draws,
    fun c dense hd draws n diagonal settings _ => ?_⟩
  · refine ⟨?_, guess_areUnitsAt hnoise hsettings dense draws diagonal⟩
    rw [(ranking_perm diagonal.toList).length_eq, List.length_range, Vector.length_toList]
    exact guessOffset_add_initialGuess_le hsettings
  · exact ⟨c.guess_isOrthonormal hd draws diagonal _,
      c.size_guess_le_of_order (fun v => (hd v).order_le) draws diagonal _⟩

/-- Two of three positions, the upper half of two paired identities, and two columns with noise. -/
theorem guess_areUnitsAt_and_isOrthonormal_two_columns :
    let c : Config Binary64 := .standard
    let noisy : Config ℝ := { Config.standard with guessNoise := 1 }
    let diagonal : Vector Binary64 3 :=
      #v[⟨0x4008000000000000⟩, ⟨0x3ff0000000000000⟩, ⟨0x4000000000000000⟩]
    let a : LinearOperator Binary64 := .ofBlock ⟨2, (Square.identity 2).toArray⟩
    let h : PairedOperator Binary64 := ⟨a, a, rfl, rfl, rfl⟩
    (∀ dense draws, (c.guess dense draws diagonal 2).AreUnitsAt diagonal 0 2) ∧
      (∀ dense draws, ∃ diagonal : Vector Binary64 4, h.toOperator.diagonal = .ok diagonal.toArray ∧
        ({ c with kind := .hamiltonian }.guess dense draws diagonal 2).AreUnitsAt
          (#v[1, 1] : Vector Binary64 2) 0 2) ∧
      ∀ draws, (noisy.guess .exact draws #v[1, 2, 3] 2).IsOrthonormal ∧
        (noisy.guess .exact draws #v[1, 2, 3] 2).size ≤ 2 := by
  intro c noisy diagonal a h
  obtain ⟨hunits, hpaired, hnoisy⟩ := guess_areUnitsAt_and_isOrthonormal 1 2
  have hnoise : ¬ 0 < c.guessNoise := by decide +kernel
  have hdiagonal : h.first.diagonal = .ok #[1, 1] := by
    have hentries : (Array.ofFn fun i : Fin 2 =>
        (Square.identity 2 : Square Binary64 2).entry i i) = #[1, 1] := by decide +kernel
    show (Block.mk 2 (Square.identity 2).toArray).diagonal = _
    rw [Block.diagonal, Block.toSquare?_toArray]
    exact congrArg Except.ok hentries
  have hpos : ∀ x ∈ (#v[1, 1] : Vector Binary64 2), 0 < x := by
    have hone : (0 : Binary64) < 1 := by decide +kernel
    simp [hone]
  have hsettings : { c with kind := .hamiltonian }.effectiveSettings 4 1 2 = .ok ⟨2, 1, 4⟩ := rfl
  refine ⟨fun dense draws => (hunits c dense draws diagonal ⟨2, 1, 3⟩ hnoise rfl).2,
    fun dense draws => ?_, fun draws => ?_⟩
  · exact hpaired { c with kind := .hamiltonian } dense draws h #v[1, 1] ⟨2, 1, 4⟩ rfl hnoise
      hsettings hdiagonal hpos
  · exact hnoisy noisy .exact Factorizations.exact_triangularExact draws #v[1, 2, 3] ⟨2, 1, 3⟩ rfl

end Config

end SubspaceEigen
