import Mathlib.Data.Fintype.EquivFin
import Mathlib.Order.Interval.Finset.Fin
import SubspaceEigen.Ranking

/-!
# Sorting as a permutation of positions

Sorting a list takes its items in the order of one permutation of their positions.  The keys ascend
along it, and among items of one rank the positions do.  That makes the ranking of values a strict
linear order of the positions, in which the place of a position is the number of its predecessors.
-/

namespace SubspaceEigen

variable {α β : Type} [Scalar α]

/-- A permutation of the positions of a list that sorts it by a key, with equal items in their given
order. -/
structure Sorts (key : β → α) (items : List β) {k : ℕ} (σ : Equiv.Perm (Fin k)) : Prop where
  length_eq : items.length = k
  getElem?_sortedBy : ∀ j : Fin k, (sortedBy key items)[j.val]? = items[(σ j).val]?
  stable : ∀ {i j : Fin k} {a b : β}, i < j → items[(σ i).val]? = some a →
    items[(σ j).val]? = some b → Scalar.ranksBefore (key b) (key a) = true → σ i < σ j

theorem exists_perm_of_perm_range {positions : List ℕ} {k : ℕ}
    (h : positions.Perm (List.range k)) :
    ∃ σ : Equiv.Perm (Fin k), ∀ j : Fin k, positions[j.val]? = some (σ j).val := by
  have hlength : positions.length = k := by
    rw [h.length_eq, List.length_range]
  have hnodup : positions.Nodup := h.nodup_iff.mpr List.nodup_range
  have hlt : ∀ j : Fin k, j.val < positions.length := fun j => hlength.symm ▸ j.isLt
  let f (j : Fin k) : Fin k :=
    ⟨positions.get ⟨j, hlt j⟩, List.mem_range.mp (h.mem_iff.mp (List.getElem_mem (hlt j)))⟩
  have hinjective : Function.Injective f := fun i j hij =>
    Fin.ext (hnodup.getElem_inj_iff.mp (congrArg Fin.val hij))
  exact ⟨Equiv.ofBijective f (Finite.injective_iff_bijective.mp hinjective), fun j =>
    List.getElem?_eq_getElem (hlt j)⟩

def sortedPositions (key : β → α) (items : List β) : List (β × ℕ) :=
  items.zipIdx.mergeSort (List.zipIdxLE fun a b => Scalar.ranksBefore (key a) (key b))

variable (key : β → α) (items : List β)

theorem map_fst_sortedPositions : (sortedPositions key items).map Prod.fst = sortedBy key items :=
  List.mergeSort_zipIdx

theorem perm_sortedPositions : (sortedPositions key items).Perm items.zipIdx :=
  List.mergeSort_perm _ _

theorem map_snd_sortedPositions_perm :
    ((sortedPositions key items).map Prod.snd).Perm (List.range items.length) := by
  rw [List.range_eq_range', ← List.zipIdx_map_snd]
  exact (perm_sortedPositions key items).map Prod.snd

/-- Of two items that the ranking does not tell apart, the first has the smaller position. -/
theorem pairwise_sortedPositions :
    (sortedPositions key items).Pairwise fun p q =>
      Scalar.ranksBefore (key q.1) (key p.1) = true → p.2 < q.2 := by
  have hsorted := List.pairwise_mergeSort
    (List.zipIdxLE_trans fun a b c => Scalar.ranksBefore_trans (key a) (key b) (key c))
    (List.zipIdxLE_total fun a b => Scalar.ranksBefore_total (key a) (key b)) items.zipIdx
  have hdistinct : (sortedPositions key items).Pairwise fun p q => p.2 ≠ q.2 :=
    List.pairwise_map.mp
      ((map_snd_sortedPositions_perm key items).nodup_iff.mpr List.nodup_range)
  refine (hsorted.and hdistinct).imp ?_
  rintro p q ⟨hle, hne⟩ hback
  have hle' : Scalar.ranksBefore (key p.1) (key q.1) = true ∧ p.2 ≤ q.2 := by
    simpa [List.zipIdxLE, hback] using hle
  exact lt_of_le_of_ne hle'.2 hne

variable {items}

theorem exists_sorts {k : ℕ} (hk : items.length = k) :
    ∃ σ : Equiv.Perm (Fin k), Sorts key items σ := by
  subst hk
  obtain ⟨σ, hσ⟩ := exists_perm_of_perm_range (map_snd_sortedPositions_perm key items)
  have hpositions : ∀ j : Fin items.length, ∃ a, items[(σ j).val]? = some a ∧
      (sortedPositions key items)[j.val]? = some (a, (σ j).val) := by
    intro j
    obtain ⟨⟨a, i⟩, hget, hi⟩ := Option.map_eq_some_iff.mp (List.getElem?_map.symm.trans (hσ j))
    obtain rfl : i = (σ j).val := hi
    have hmem := (perm_sortedPositions key items).mem_iff.mp (List.mem_of_getElem? hget)
    exact ⟨a, List.mem_zipIdx_iff_getElem?.mp hmem, hget⟩
  refine ⟨σ, rfl, fun j => ?_, fun {i j a b} hij ha hb hback => ?_⟩
  · obtain ⟨a, ha, hget⟩ := hpositions j
    rw [← map_fst_sortedPositions, List.getElem?_map, hget, ha, Option.map_some]
  · obtain ⟨a', ha', hi⟩ := hpositions i
    obtain ⟨b', hb', hj⟩ := hpositions j
    obtain rfl := Option.some.inj (ha.symm.trans ha')
    obtain rfl := Option.some.inj (hb.symm.trans hb')
    obtain ⟨hilt, hieq⟩ := List.getElem?_eq_some_iff.mp hi
    obtain ⟨hjlt, hjeq⟩ := List.getElem?_eq_some_iff.mp hj
    have hpair :=
      List.pairwise_iff_getElem.mp (pairwise_sortedPositions key items) _ _ hilt hjlt hij
    rw [hieq, hjeq] at hpair
    exact hpair hback

/-! ## The order of the positions -/

section Positions

variable {α : Type} [Scalar α] {n : ℕ}

/-- Position `i` comes before position `j` in the ranking of values: its value ranks before the
other one, and of values of one rank the one at the smaller position comes first. -/
def Precedes (values : Vector α n) (i j : Fin n) : Prop :=
  Scalar.ranksBefore (getElem values i i.isLt) (getElem values j j.isLt) = true ∧
    (Scalar.ranksBefore (getElem values j j.isLt) (getElem values i i.isLt) = true → i < j)

instance (values : Vector α n) (i j : Fin n) : Decidable (Precedes values i j) :=
  inferInstanceAs (Decidable (_ ∧ _))

variable {values : Vector α n} {i j : Fin n}

theorem not_precedes_self (values : Vector α n) (i : Fin n) : ¬ Precedes values i i := by
  rintro ⟨hle, hlt⟩
  exact lt_irrefl i (hlt hle)

theorem Precedes.asymm (h : Precedes values i j) : ¬ Precedes values j i := by
  rintro ⟨hle, hlt⟩
  exact lt_asymm (h.2 hle) (hlt h.1)

/-- A permutation that puts every position after those that precede it. -/
theorem precedes_iff_lt {σ : Equiv.Perm (Fin n)}
    (hσ : ∀ i j, i < j → Precedes values (σ i) (σ j)) (i j : Fin n) :
    Precedes values (σ i) (σ j) ↔ i < j := by
  refine ⟨fun h => ?_, hσ i j⟩
  rcases lt_trichotomy i j with hlt | rfl | hgt
  · exact hlt
  · exact absurd h (not_precedes_self _ _)
  · exact absurd h (hσ j i hgt).asymm

theorem card_precedes {σ : Equiv.Perm (Fin n)}
    (hσ : ∀ i j, Precedes values (σ i) (σ j) ↔ i < j) (j : Fin n) :
    (Finset.univ.filter fun k => Precedes values k (σ j)).card = j := by
  have hset : (Finset.univ.filter fun k => Precedes values k (σ j)) =
      (Finset.Iio j).map σ.toEmbedding := by
    ext k
    obtain ⟨i, rfl⟩ := σ.surjective k
    simp [hσ]
  rw [hset, Finset.card_map, Fin.card_Iio]

/-- There is one such permutation only. -/
theorem perm_unique {σ τ : Equiv.Perm (Fin n)}
    (hσ : ∀ i j, Precedes values (σ i) (σ j) ↔ i < j)
    (hτ : ∀ i j, Precedes values (τ i) (τ j) ↔ i < j) : σ = τ := by
  refine Equiv.ext fun j => (Equiv.eq_symm_apply σ).mp (Fin.ext ?_)
  rw [← card_precedes hτ j, ← card_precedes hσ (σ.symm (τ j)), σ.apply_symm_apply]

/-- A permutation that sorts items puts every position after those that precede it. -/
theorem Sorts.precedes {key : β → α} {items : List β} {σ : Equiv.Perm (Fin n)}
    (h : Sorts key items σ) (hvalues : items.map key = values.toList) (i j : Fin n) :
    Precedes values (σ i) (σ j) ↔ i < j := by
  have hitem : ∀ j : Fin n, ∃ b, items[j.val]? = some b ∧ key b = getElem values j j.isLt := by
    intro j
    have hget := congrArg (·[j.val]?) hvalues
    simpa using hget
  have hsorted : ∀ j : Fin n, ∃ b, items[(σ j).val]? = some b ∧
      (sortedBy key items)[j.val]? = some b ∧ key b = getElem values (σ j) (σ j).isLt := by
    intro j
    obtain ⟨b, hb, hkey⟩ := hitem (σ j)
    exact ⟨b, hb, (h.getElem?_sortedBy j).trans hb, hkey⟩
  refine precedes_iff_lt (fun i j hij => ?_) i j
  obtain ⟨a, ha, hi, hkeyi⟩ := hsorted i
  obtain ⟨b, hb, hj, hkeyj⟩ := hsorted j
  obtain ⟨hilt, hieq⟩ := List.getElem?_eq_some_iff.mp hi
  obtain ⟨hjlt, hjeq⟩ := List.getElem?_eq_some_iff.mp hj
  have hpair := List.pairwise_iff_getElem.mp (sortedBy_pairwise key items) _ _ hilt hjlt hij
  rw [hieq, hjeq] at hpair
  rw [Precedes, ← hkeyi, ← hkeyj]
  exact ⟨hpair, fun hback => h.stable hij ha hb hback⟩

/-- The ranking of values lists all positions, each one after those that precede it. -/
theorem exists_ranking_eq (values : Vector α n) :
    ∃ σ : Equiv.Perm (Fin n), ranking values.toList = List.ofFn (fun j => (σ j).val) ∧
      ∀ i j, Precedes values (σ i) (σ j) ↔ i < j := by
  let items := values.toList.zipIdx
  have hlength : items.length = n := by simp [items]
  obtain ⟨σ, hσ⟩ := exists_sorts Prod.fst hlength
  refine ⟨σ, List.ext_getElem? fun k => ?_, hσ.precedes (List.zipIdx_map_fst 0 _)⟩
  by_cases hk : k < n
  · rw [ranking, List.getElem?_map, hσ.getElem?_sortedBy ⟨k, hk⟩]
    simp [items, hk]
  · have hle : n ≤ k := not_lt.mp hk
    rw [List.getElem?_eq_none, List.getElem?_eq_none]
    · rwa [List.length_ofFn]
    · rwa [ranking, List.length_map, (sortedBy_perm Prod.fst items).length_eq, hlength]

/-- A permutation that sorts items is the ranking of their keys. -/
theorem Sorts.ranking_eq {key : β → α} {items : List β} {σ : Equiv.Perm (Fin n)}
    (h : Sorts key items σ) : ranking (items.map key) = List.ofFn fun j => (σ j).val := by
  let values : Vector α n := ⟨(items.map key).toArray, by simp [h.length_eq]⟩
  have hvalues : items.map key = values.toList := rfl
  obtain ⟨τ, hranking, hτ⟩ := exists_ranking_eq values
  rw [perm_unique (h.precedes hvalues) hτ, hvalues]
  exact hranking

/-- Positions that stand next to each other in the ranking of values, after `passed` others. -/
structure Selected (values : Vector α n) (passed : ℕ) {size : ℕ} (c : Fin size → Fin n) :
    Prop where
  ascending : ∀ {i j : Fin size}, i < j → Precedes values (c i) (c j)
  /-- Before the first of them there are those that are passed over, and no others. -/
  card_precedes : ∀ j : Fin size,
    (Finset.univ.filter fun k => Precedes values k (c j)).card = passed + j
  apart : ∀ k, (∀ j, k ≠ c j) → (∀ j, Precedes values k (c j)) ∨ ∀ j, Precedes values (c j) k

variable {passed size : ℕ} {c : Fin size → Fin n}

theorem selected_of_eq {σ : Equiv.Perm (Fin n)}
    (hσ : ∀ i j, Precedes values (σ i) (σ j) ↔ i < j) (rank : Fin size → Fin n)
    (hrank : ∀ j, (rank j).val = passed + j) (hc : ∀ j, c j = σ (rank j)) :
    Selected values passed c where
  ascending {i j} hij := by
    rw [hc, hc, hσ, Fin.lt_def, hrank, hrank]
    exact Nat.add_lt_add_left hij passed
  card_precedes j := by
    rw [hc, SubspaceEigen.card_precedes hσ, hrank]
  apart k hk := by
    obtain ⟨i, rfl⟩ := σ.surjective k
    have hne : ∀ j, i ≠ rank j := fun j heq => hk j (by rw [heq, hc])
    rcases lt_or_ge i.val passed with hlt | hge
    · left
      intro j
      rw [hc, hσ, Fin.lt_def, hrank]
      omega
    · right
      intro j
      rw [hc, hσ, Fin.lt_def, hrank]
      by_contra hle
      have hsize : i.val - passed < size := by omega
      refine hne ⟨i.val - passed, hsize⟩ (Fin.ext ?_)
      rw [hrank]
      exact (Nat.add_sub_cancel' hge).symm

theorem exists_selected (values : Vector α n) (h : passed + size ≤ n) :
    ∃ c : Fin size → Fin n,
      (∀ j : Fin size, (ranking values.toList)[passed + j.val]? = some (c j).val) ∧
        Selected values passed c := by
  obtain ⟨σ, hranking, hσ⟩ := exists_ranking_eq values
  let rank (j : Fin size) : Fin n := ⟨passed + j.val, by omega⟩
  refine ⟨fun j => σ (rank j), fun j => ?_,
    selected_of_eq hσ rank (fun _ => rfl) fun _ => rfl⟩
  rw [hranking, List.getElem?_ofFn, dif_pos]

/-- The number of predecessors determines a position. -/
theorem selected_of_card (h : ∀ j : Fin size,
    (Finset.univ.filter fun k => Precedes values k (c j)).card = passed + j) :
    Selected values passed c := by
  obtain ⟨σ, -, hσ⟩ := exists_ranking_eq values
  refine selected_of_eq hσ (fun j => σ.symm (c j)) (fun j => ?_) fun j =>
    (σ.apply_symm_apply _).symm
  rw [← card_precedes hσ, σ.apply_symm_apply, h]

end Positions

end SubspaceEigen
