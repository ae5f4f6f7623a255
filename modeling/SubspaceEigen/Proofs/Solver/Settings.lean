import SubspaceEigen.Proofs.Solver.Requests

/-!
# The sizes of a solve

The sizes follow from the number of requested eigenpairs by a chain of bounds.  They are computed on
machine words; up to a dimension of `2⁶⁰` every count on the way fits one, for a request that the
operator can serve.  So the words hold the numbers themselves, and what is found for numbers holds:
the chain is in its order, the policies are in theirs, and a larger request has no smaller sizes.
-/

namespace SubspaceEigen

theorem wordCount_of_lt {k : ℕ} (h : k < 2 ^ 64) : wordCount k = k := by
  rw [wordCount, UInt64.toNat_ofNat']
  exact Nat.mod_eq_of_lt h

namespace Exactly

/-- The count, if a machine word holds it. -/
def word? (k : ℕ) : Option ℕ :=
  if k < 2 ^ 64 then some k else none

/-- The difference, if it is a count. -/
def difference? (k l : ℕ) : Option ℕ :=
  if l ≤ k then some (k - l) else none

/-- The count moved between two bounds, if these are in their order. -/
def between? (low high k : ℕ) : Option ℕ :=
  if low ≤ high then some (min (max k low) high) else none

theorem word?_eq {k : ℕ} (h : k < 2 ^ 64) : word? k = some (wordCount k) := by
  rw [word?, if_pos h, wordCount_of_lt h]

theorem between?_eq {low high : ℕ} (h : low ≤ high) (k : ℕ) :
    between? low high k = some (min (max k low) high) :=
  if_pos h

end Exactly

open Exactly

/-- The number of eigenpairs that an operator can serve, by operations that all have to give their
exact result. -/
def OperatorKind.available? (kind : OperatorKind) (n : ℕ) : Option ℕ :=
  match kind with
  | .symmetric => some n
  | .hamiltonian => difference? n (n / 2)

theorem OperatorKind.available?_eq (kind : OperatorKind) (n : ℕ) :
    kind.available? n = some (kind.available n) := by
  cases kind with
  | symmetric => rfl
  | hamiltonian => exact if_pos (Nat.div_le_self n 2)

namespace SizePolicy

/-- The number of tracked roots, by exact operations. -/
def trackedRoots? (policy : SizePolicy) (requested : ℕ) : Option ℕ :=
  match policy with
  | .min => some requested
  | .safe =>
    if requested < 20 then (word? (requested * 3)).map (· / 2) else word? (requested + 10)
  | .max => word? (2 * requested)

variable {requested : ℕ}

theorem trackedRoots?_eq (policy : SizePolicy) (h : requested ≤ 2 ^ 60) :
    policy.trackedRoots? requested = some (policy.trackedRoots requested) := by
  cases policy with
  | min => rfl
  | safe =>
      rw [trackedRoots?, trackedRoots]
      by_cases hfew : requested < 20
      · have hproduct : word? (requested * 3) = some (requested * 3) := if_pos (by omega)
        rw [if_pos hfew, if_pos hfew, hproduct]
        rfl
      · rw [if_neg hfew, if_neg hfew, word?_eq (by omega)]
  | max => exact word?_eq (by omega)

theorem trackedRoots_eq (policy : SizePolicy) (h : requested ≤ 2 ^ 60) :
    policy.trackedRoots requested =
      match policy with
      | .min => requested
      | .safe => if requested < 20 then requested * 3 / 2 else requested + 10
      | .max => 2 * requested := by
  cases policy with
  | min => rfl
  | safe => rw [trackedRoots, wordCount_of_lt (by omega)]
  | max => exact wordCount_of_lt (by omega)

theorem trackedRoots_le (policy : SizePolicy) (h : requested ≤ 2 ^ 60) :
    policy.trackedRoots requested ≤ 2 * requested := by
  rw [policy.trackedRoots_eq h]
  cases policy with
  | min => exact Nat.le_mul_of_pos_left _ two_pos
  | safe =>
      dsimp only
      split
      · omega
      · omega
  | max => exact le_rfl

theorem trackedRoots_mono (policy : SizePolicy) {more : ℕ} (hle : requested ≤ more)
    (h : more ≤ 2 ^ 60) : policy.trackedRoots requested ≤ policy.trackedRoots more := by
  rw [policy.trackedRoots_eq h, policy.trackedRoots_eq (hle.trans h)]
  cases policy with
  | min => exact hle
  | safe =>
      dsimp only
      split_ifs
      · omega
      · omega
      · omega
      · omega
  | max => exact Nat.mul_le_mul_left 2 hle

/-- From one policy to the next no fewer roots are tracked. -/
theorem trackedRoots_ordered (hpos : 0 < requested) (h : requested ≤ 2 ^ 60) :
    SizePolicy.min.trackedRoots requested ≤ SizePolicy.safe.trackedRoots requested ∧
      SizePolicy.safe.trackedRoots requested ≤ SizePolicy.max.trackedRoots requested := by
  simp only [trackedRoots_eq _ h]
  split
  · omega
  · omega

end SizePolicy

namespace Config

variable {α : Type} {c : Config α} {n requested guess : ℕ} {s : EffectiveSettings}

/-- The limit of the search space, by exact operations. -/
def searchLimit? (c : Config α) (n requested : ℕ) : Option ℕ := do
  let wanted ← match c.searchLimit with
    | some limit => if requested ≤ limit.toNat then some limit.toNat else word? (5 * requested)
    | none => word? (5 * requested)
  return min wanted n

theorem searchLimit?_eq (c : Config α) (n : ℕ) (h : requested ≤ 2 ^ 60) :
    c.searchLimit? n requested = some (c.searchLimitFor n requested) := by
  rw [searchLimit?, searchLimitFor, word?_eq (by omega)]
  cases c.searchLimit with
  | none => rfl
  | some limit =>
      dsimp only
      split
      · rfl
      · rfl

theorem searchLimitFor_bounds (c : Config α) (hle : requested ≤ n) (h : requested ≤ 2 ^ 60) :
    requested ≤ c.searchLimitFor n requested ∧ c.searchLimitFor n requested ≤ n := by
  rw [searchLimitFor, wordCount_of_lt (by omega)]
  cases c.searchLimit with
  | none =>
      dsimp only
      omega
  | some limit =>
      dsimp only
      split
      · omega
      · omega

/-- A configured limit below the request gives way to five times the request, which is above it. -/
theorem searchLimitFor_mono (c : Config α) (n : ℕ) {more : ℕ} (hle : requested ≤ more)
    (h : more ≤ 2 ^ 60) : c.searchLimitFor n requested ≤ c.searchLimitFor n more := by
  rw [searchLimitFor, searchLimitFor, wordCount_of_lt (by omega), wordCount_of_lt (by omega)]
  cases c.searchLimit with
  | none =>
      dsimp only
      omega
  | some limit =>
      dsimp only
      split_ifs
      · omega
      · omega
      · omega
      · omega

/-- The number of guess vectors asked for, by exact operations. -/
def wantedGuess? (requested guess : ℕ) : Option ℕ :=
  if guess = 0 then word? (2 * requested) else some guess

theorem wantedGuess?_eq (guess : ℕ) (h : requested ≤ 2 ^ 60) :
    wantedGuess? requested guess =
      some (if guess = 0 then wordCount (2 * requested) else guess) := by
  rw [wantedGuess?, word?_eq (by omega), ← apply_ite]

/-- The settings of a solve, by exact operations: there are none if a count on the way does not fit a
machine word, a difference is negative or the bounds of the tracked roots are not in their order. -/
def settings? (c : Config α) (n requested guess : ℕ) :
    Option (Except (Error α) EffectiveSettings) := do
  let available ← c.kind.available? n
  if requested = 0 then return .error (.request .nothingRequested)
  else if available < requested then
    return .error (.request (.tooMany requested available n (OperatorKind.vocabulary.label c.kind)))
  else
    let wanted ← wantedGuess? requested guess
    let initialGuess := min (max wanted requested) available
    let roots ← c.sizePolicy.trackedRoots? requested
    let trackedRoots ← between? requested initialGuess roots
    let searchLimit ← c.searchLimit? n requested
    return .ok ⟨initialGuess, trackedRoots, searchLimit⟩

/-- No operation on the way to the settings, or to a refusal, goes wrong. -/
theorem settings?_eq (c : Config α) (hn : n ≤ 2 ^ 60) (requested guess : ℕ) :
    c.settings? n requested guess = some (c.effectiveSettings n requested guess) := by
  unfold settings? effectiveSettings
  simp only [OperatorKind.available?_eq, bind, Option.bind]
  by_cases hnone : requested = 0
  · rw [if_pos hnone, if_pos hnone]
    rfl
  by_cases hmany : c.kind.available n < requested
  · rw [if_neg hnone, if_neg hnone, if_pos hmany, if_pos hmany]
    rfl
  have hrequested : requested ≤ 2 ^ 60 :=
    (not_lt.mp hmany).trans ((c.kind.available_le n).trans hn)
  have hbounds : ∀ wanted, requested ≤ min (max wanted requested) (c.kind.available n) :=
    fun wanted => le_min (le_max_right _ _) (not_lt.mp hmany)
  rw [if_neg hnone, if_neg hnone, if_neg hmany, if_neg hmany, wantedGuess?_eq guess hrequested]
  simp only [c.sizePolicy.trackedRoots?_eq hrequested, c.searchLimit?_eq n hrequested,
    between?_eq (hbounds _)]
  rfl

/-- The sizes for a request that the operator can serve. -/
def sizesFor (c : Config α) (n requested guess : ℕ) : EffectiveSettings :=
  let wanted := if guess = 0 then wordCount (2 * requested) else guess
  let initialGuess := min (max wanted requested) (c.kind.available n)
  ⟨initialGuess, min (max (c.sizePolicy.trackedRoots requested) requested) initialGuess,
    c.searchLimitFor n requested⟩

theorem effectiveSettings_eq_ok_iff :
    c.effectiveSettings n requested guess = .ok s ↔
      (1 ≤ requested ∧ requested ≤ c.kind.available n) ∧ c.sizesFor n requested guess = s := by
  unfold effectiveSettings sizesFor
  dsimp only
  by_cases hnone : requested = 0
  · simp [hnone]
  by_cases hmany : c.kind.available n < requested
  · simp [hnone, hmany]
  · simp [hnone, hmany, Nat.one_le_iff_ne_zero, not_lt.mp hmany]

theorem sizesFor_mono (c : Config α) (n guess : ℕ) {more : ℕ} (hle : requested ≤ more)
    (h : more ≤ 2 ^ 60) :
    (c.sizesFor n requested guess).initialGuess ≤ (c.sizesFor n more guess).initialGuess ∧
      (c.sizesFor n requested guess).trackedRoots ≤ (c.sizesFor n more guess).trackedRoots ∧
        (c.sizesFor n requested guess).searchLimit ≤ (c.sizesFor n more guess).searchLimit := by
  have hguess : (c.sizesFor n requested guess).initialGuess ≤
      (c.sizesFor n more guess).initialGuess := by
    simp only [sizesFor, wordCount_of_lt (show 2 * requested < 2 ^ 64 by omega),
      wordCount_of_lt (show 2 * more < 2 ^ 64 by omega)]
    refine min_le_min_right _ (max_le_max ?_ hle)
    split
    · exact Nat.mul_le_mul_left 2 hle
    · exact le_rfl
  have hroots := c.sizePolicy.trackedRoots_mono hle h
  exact ⟨hguess, min_le_min (max_le_max hroots hle) hguess, c.searchLimitFor_mono n hle h⟩

/-- The sizes that a configuration gives for requests in dimension `n`.  There are sizes exactly for
a request that the operator can serve, and no operation on the way goes wrong for any request.  The
sizes are in their order, and so are the policies, and those of a larger request are no smaller. -/
structure OrdersSizes (c : Config α) (n guess : ℕ) : Prop where
  accepts_iff : ∀ requested, (∃ s, c.effectiveSettings n requested guess = .ok s) ↔
    1 ≤ requested ∧ requested ≤ c.kind.available n
  exact : ∀ requested,
    c.settings? n requested guess = some (c.effectiveSettings n requested guess)
  chain : ∀ {requested s}, c.effectiveSettings n requested guess = .ok s →
    requested ≤ s.trackedRoots ∧ s.trackedRoots ≤ s.initialGuess ∧
      s.initialGuess ≤ c.kind.available n
  roots_le : ∀ {requested s}, c.effectiveSettings n requested guess = .ok s →
    s.trackedRoots ≤ 2 * requested
  limit : ∀ {requested s}, c.effectiveSettings n requested guess = .ok s →
    requested ≤ s.searchLimit ∧ s.searchLimit ≤ n
  policies : ∀ {requested least moderate most},
    { c with sizePolicy := .min }.effectiveSettings n requested guess = .ok least →
      { c with sizePolicy := .safe }.effectiveSettings n requested guess = .ok moderate →
        { c with sizePolicy := .max }.effectiveSettings n requested guess = .ok most →
          least.trackedRoots ≤ moderate.trackedRoots ∧ moderate.trackedRoots ≤ most.trackedRoots
  monotone : ∀ {requested more s t}, requested ≤ more →
    c.effectiveSettings n requested guess = .ok s → c.effectiveSettings n more guess = .ok t →
      s.initialGuess ≤ t.initialGuess ∧ s.trackedRoots ≤ t.trackedRoots ∧
        s.searchLimit ≤ t.searchLimit

theorem ordersSizes_of_le (c : Config α) (hn : n ≤ 2 ^ 60) (guess : ℕ) : c.OrdersSizes n guess := by
  have hword : ∀ {requested}, requested ≤ c.kind.available n → requested ≤ 2 ^ 60 :=
    fun h => h.trans ((c.kind.available_le n).trans hn)
  constructor
  case accepts_iff =>
    intro requested
    simp [effectiveSettings_eq_ok_iff]
  case exact =>
    intro requested
    exact c.settings?_eq hn requested guess
  case chain =>
    intro requested s h
    exact (c.settings_bounds h).2
  case roots_le =>
    intro requested s h
    obtain ⟨⟨-, hle⟩, rfl⟩ := effectiveSettings_eq_ok_iff.mp h
    have hroots := c.sizePolicy.trackedRoots_le (hword hle)
    simp only [sizesFor]
    omega
  case limit =>
    intro requested s h
    obtain ⟨⟨-, hle⟩, rfl⟩ := effectiveSettings_eq_ok_iff.mp h
    exact c.searchLimitFor_bounds (hle.trans (c.kind.available_le n)) (hword hle)
  case policies =>
    intro requested least moderate most hleast hmoderate hmost
    obtain ⟨⟨hpos, hle⟩, rfl⟩ := effectiveSettings_eq_ok_iff.mp hleast
    obtain ⟨-, rfl⟩ := effectiveSettings_eq_ok_iff.mp hmoderate
    obtain ⟨-, rfl⟩ := effectiveSettings_eq_ok_iff.mp hmost
    have hordered := SizePolicy.trackedRoots_ordered hpos (hword hle)
    exact ⟨min_le_min_right _ (max_le_max_right _ hordered.1),
      min_le_min_right _ (max_le_max_right _ hordered.2)⟩
  case monotone =>
    intro requested more s t hle hs ht
    obtain ⟨-, rfl⟩ := effectiveSettings_eq_ok_iff.mp hs
    obtain ⟨⟨-, hmore⟩, rfl⟩ := effectiveSettings_eq_ok_iff.mp ht
    exact c.sizesFor_mono n guess hle (hword hmore)

/-- In the largest dimension, for a paired operator: half of it can be requested, and then all of
that half is tracked. -/
theorem ordersSizes_largest :
    let c : Config Binary64 := { (.standard : Config Binary64) with kind := .hamiltonian }
    c.OrdersSizes (2 ^ 60) 0 ∧
      ∃ s, c.effectiveSettings (2 ^ 60) (2 ^ 59) 0 = .ok s ∧ s.trackedRoots = 2 ^ 59 := by
  intro c
  have horders : c.OrdersSizes (2 ^ 60) 0 := ordersSizes_of_le c le_rfl 0
  obtain ⟨s, hs⟩ := (horders.accepts_iff (2 ^ 59)).mpr ⟨by norm_num, by decide⟩
  obtain ⟨hroots, hguess, havailable⟩ := horders.chain hs
  have hhalf : c.kind.available (2 ^ 60) = 2 ^ 59 := by decide
  exact ⟨horders, s, hs, by omega⟩

end Config

end SubspaceEigen
