import SubspaceEigen.Proofs.Ranking
import SubspaceEigen.Proofs.SquareRoot
import SubspaceEigen.Solver.Basic

/-!
# Settling a solution

Settling cuts the Ritz pairs to the requested number and sorts them by value.  What belongs to one
pair stays together: one permutation tells where the value, the vector, the residual, the norm and
the flag of each root come from.  This holds for any values, undefined ones and zeros of both signs
included, since the total order of floating-point numbers has a place for each of them.
-/

namespace SubspaceEigen.Solution

variable {α : Type} [Scalar α] {n order : ℕ}

def rootOf (pair : RitzPair α n order) (norm : α) (converged : Bool) : Root α n where
  value := pair.value
  vector := Column.normalize pair.vector
  residual := pair.residual
  residualNorm := norm
  converged := converged

/-- The first `requested` Ritz pairs as roots, in their own order. -/
def leadingRoots (pairs : List (RitzPair α n order)) (norms : List α) (flags : List Bool)
    (requested : ℕ) : List (Root α n) :=
  ((pairs.take requested).zip norms).zipIdx.map fun ((pair, norm), j) =>
    rootOf pair norm (flags.getD j false)

section

variable {pairs : List (RitzPair α n order)} {norms : List α} {flags : List Bool} {requested : ℕ}

theorem settle_eq_sortedBy : settle pairs norms flags requested =
    sortedBy Root.value (leadingRoots pairs norms flags requested) :=
  rfl

theorem length_leadingRoots (h : norms.length = pairs.length) :
    (leadingRoots pairs norms flags requested).length = min requested pairs.length := by
  rw [leadingRoots, List.length_map, List.length_zipIdx, List.length_zip, List.length_take, h,
    min_eq_left (min_le_right _ _)]

theorem map_value_leadingRoots (h : norms.length = pairs.length) :
    (leadingRoots pairs norms flags requested).map Root.value =
      (pairs.take requested).map RitzPair.value := by
  have hle : (pairs.take requested).length ≤ norms.length := by
    rw [h, List.length_take]
    exact min_le_right _ _
  calc
    (leadingRoots pairs norms flags requested).map Root.value =
        (((pairs.take requested).zip norms).zipIdx.map Prod.fst).map fun item => item.1.value := by
      rw [leadingRoots, List.map_map, List.map_map]
      rfl
    _ = (((pairs.take requested).zip norms).map Prod.fst).map RitzPair.value := by
      rw [List.zipIdx_map_fst, List.map_map]
      rfl
    _ = (pairs.take requested).map RitzPair.value := by
      rw [List.map_fst_zip hle]

theorem getElem?_leadingRoots {j : ℕ} (hj : j < requested) {pair : RitzPair α n order} {norm : α}
    (hpair : pairs[j]? = some pair) (hnorm : norms[j]? = some norm) :
    (leadingRoots pairs norms flags requested)[j]? =
      some (rootOf pair norm (flags.getD j false)) := by
  have hzip : ((pairs.take requested).zip norms)[j]? = some (pair, norm) := by
    rw [List.getElem?_zip_eq_some, List.getElem?_take_of_lt hj]
    exact ⟨hpair, hnorm⟩
  rw [leadingRoots, List.getElem?_map, List.getElem?_zipIdx, hzip, Option.map_some,
    Option.map_some, Nat.zero_add]

/-- What comes after the first `requested` pairs does not matter. -/
theorem leadingRoots_take (h : norms.length = pairs.length) :
    let k := min requested pairs.length
    leadingRoots (pairs.take k) (norms.take k) (flags.take k) requested =
      leadingRoots pairs norms flags requested := by
  intro k
  have hk : k ≤ pairs.length := min_le_right _ _
  have hpairs : (pairs.take k).length = k := List.length_take_of_le hk
  have hnorms : (norms.take k).length = k := List.length_take_of_le (hk.trans h.ge)
  apply List.ext_getElem?
  intro j
  by_cases hj : j < k
  · have hpair := List.getElem?_eq_getElem (hj.trans_le hk)
    have hnorm := List.getElem?_eq_getElem ((hj.trans_le hk).trans_eq h.symm)
    have hrequested : j < requested := hj.trans_le (min_le_left _ _)
    rw [getElem?_leadingRoots hrequested hpair hnorm,
      getElem?_leadingRoots hrequested ((List.getElem?_take_of_lt hj).trans hpair)
        ((List.getElem?_take_of_lt hj).trans hnorm),
      List.getD_eq_getElem?_getD, List.getElem?_take_of_lt hj, List.getD_eq_getElem?_getD]
  · rw [List.getElem?_eq_none, List.getElem?_eq_none]
    · rw [length_leadingRoots h]
      exact not_lt.mp hj
    · rw [length_leadingRoots (hnorms.trans hpairs.symm), hpairs]
      exact (min_le_right _ _).trans (not_lt.mp hj)

end

theorem normalize_eq (x : Vector Binary64 n) : Column.normalize x =
    if Column.norm x == 0 ∨ ¬ Column.norm x ≤ Column.norm x then x
    else Column.divide x (Column.norm x) := by
  have hpos : 0 < Column.norm x ↔ ¬ (Column.norm x == 0 ∨ ¬ Column.norm x ≤ Column.norm x) := by
    rw [Column.norm, Binary64.sqrt_pos_iff, not_or, not_not, Bool.not_eq_true, and_comm]
  rw [Column.normalize]
  by_cases h : 0 < Column.norm x
  · rw [if_pos h, if_neg (hpos.mp h)]
  · rw [if_neg h, if_pos (not_not.mp (mt hpos.mpr h))]

/-- Each root is one of the first `k` Ritz pairs, and `σ` tells which: its value, its residual, its
norm and its flag are those of that pair, and its vector is that of the pair divided by its norm, or
unchanged if the norm is zero or undefined.  The values ascend in the total order, and pairs of one
value keep their order: `σ` is the ranking of the first `k` values. -/
structure Gathers (pairs : List (RitzPair Binary64 n order)) (norms : List Binary64)
    (flags : List Bool) (roots : List (Root Binary64 n)) {k : ℕ} (σ : Equiv.Perm (Fin k)) :
    Prop where
  length_eq : roots.length = k
  root_eq : ∀ j : Fin k, ∃ pair norm, pairs[(σ j).val]? = some pair ∧
    norms[(σ j).val]? = some norm ∧ roots[j.val]? = some {
      value := pair.value
      vector :=
        if Column.norm pair.vector == 0 ∨ ¬ Column.norm pair.vector ≤ Column.norm pair.vector then
          pair.vector
        else Column.divide pair.vector (Column.norm pair.vector)
      residual := pair.residual
      residualNorm := norm
      converged := flags.getD (σ j) false }
  ascending : roots.Pairwise fun a b => a.value.orderKey ≤ b.value.orderKey
  stable : ∀ {i j : Fin k} {a b : RitzPair Binary64 n order}, i < j →
    pairs[(σ i).val]? = some a → pairs[(σ j).val]? = some b →
      a.value.orderKey = b.value.orderKey → σ i < σ j
  ranking_eq : ranking ((pairs.take k).map RitzPair.value) = List.ofFn fun j => (σ j).val

/-- Settling cuts the pairs to the requested number, and gathers them along one permutation. -/
theorem settle_gathers (pairs : List (RitzPair Binary64 n order)) (norms : List Binary64)
    (flags : List Bool) (requested : ℕ) (h : norms.length = pairs.length) :
    let k := min requested pairs.length
    (∃ σ : Equiv.Perm (Fin k),
      Gathers pairs norms flags (settle pairs norms flags requested) σ) ∧
    settle (pairs.take k) (norms.take k) (flags.take k) requested =
      settle pairs norms flags requested := by
  intro k
  have hlength : (leadingRoots pairs norms flags requested).length = k := length_leadingRoots h
  obtain ⟨σ, hσ⟩ := exists_sorts Root.value hlength
  have hroots : ∀ j : Fin k, ∃ pair norm, pairs[j.val]? = some pair ∧ norms[j.val]? = some norm ∧
      (leadingRoots pairs norms flags requested)[j.val]? =
        some (rootOf pair norm (flags.getD j false)) := by
    intro j
    obtain ⟨hrequested, hpairs⟩ := lt_min_iff.mp j.isLt
    have hpair := List.getElem?_eq_getElem hpairs
    have hnorm := List.getElem?_eq_getElem (hpairs.trans_eq h.symm)
    exact ⟨_, _, hpair, hnorm, getElem?_leadingRoots hrequested hpair hnorm⟩
  refine ⟨⟨σ, ?_, ?_, ?_, ?_, ?_⟩, ?_⟩
  · rw [settle_eq_sortedBy, (sortedBy_perm _ _).length_eq, hlength]
  · intro j
    obtain ⟨pair, norm, hpair, hnorm, hroot⟩ := hroots (σ j)
    refine ⟨pair, norm, hpair, hnorm, ?_⟩
    rw [settle_eq_sortedBy, hσ.getElem?_sortedBy, hroot, rootOf, normalize_eq]
  · exact (sortedBy_pairwise Root.value _).imp fun hle => of_decide_eq_true hle
  · intro i j a b hij ha hb heq
    obtain ⟨pair, norm, hpair, -, hfirst⟩ := hroots (σ i)
    obtain ⟨pair', norm', hpair', -, hsecond⟩ := hroots (σ j)
    obtain rfl := Option.some.inj (ha.symm.trans hpair)
    obtain rfl := Option.some.inj (hb.symm.trans hpair')
    exact hσ.stable hij hfirst hsecond (decide_eq_true heq.ge)
  · have htake : pairs.take k = pairs.take requested := List.take_eq_take_min.symm
    rw [htake, ← map_value_leadingRoots h, hσ.ranking_eq]
  · rw [settle_eq_sortedBy, settle_eq_sortedBy, leadingRoots_take h]

/-- Zeros of both signs, of which the negative one comes first, and a pair that is not requested.
There are fewer flags than pairs. -/
theorem settle_gathers_zeros :
    let pairs : List (RitzPair Binary64 1 0) := [⟨0, #v[], #v[-1], #v[1]⟩,
      ⟨-0, #v[], #v[0], #v[0]⟩, ⟨-1, #v[], #v[1], #v[0]⟩]
    let norms : List Binary64 := [1, 0, 0]
    norms.length = pairs.length ∧
      (∃ σ : Equiv.Perm (Fin 2), Gathers pairs norms [true] (settle pairs norms [true] 2) σ) ∧
        settle (pairs.take 2) (norms.take 2) [true] 2 = settle pairs norms [true] 2 := by
  intro pairs norms
  have hlength : norms.length = pairs.length := rfl
  exact ⟨hlength, settle_gathers pairs norms [true] 2 hlength⟩

/-- A vector with an undefined entry has an undefined norm, which is not zero.  Its root has the
vector as it was, and not divided by the norm. -/
theorem settle_undefined_norm :
    let vector : Vector Binary64 2 := #v[⟨0x7ff8000000000000⟩, 1]
    let pairs : List (RitzPair Binary64 2 0) := [⟨1, #v[], vector, #v[0, 0]⟩]
    (Column.norm vector == 0) = false ∧
      (settle pairs [0] [true] 1).map Root.vector = [vector] ∧
        vector ≠ Column.divide vector (Column.norm vector) := by
  decide +kernel

end SubspaceEigen.Solution
