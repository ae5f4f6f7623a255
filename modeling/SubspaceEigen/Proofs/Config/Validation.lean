import Mathlib.Data.Nat.Notation
import Mathlib.Logic.Basic
import SubspaceEigen.Config.Basic

/-!
# Valid configurations

The settings that can drive a solve, all conditions at once.
-/

namespace SubspaceEigen.Config

variable {α : Type} [Scalar α] {c : Config α}

theorem validate_eq_ok_iff :
    c.validate = .ok () ↔
      c.maxIterations ≠ 0 ∧ (Scalar.isFinite c.tolerance = true ∧ 0 < c.tolerance) ∧
        c.searchLimit ≠ some 0 ∧ Scalar.isFinite c.guessNoise = true ∧ 0 ≤ c.guessNoise := by
  unfold validate defect?
  constructor
  · intro h
    split at h
    · cases h
    · next hnone =>
      split at hnone
      · cases hnone
      split at hnone
      · cases hnone
      split at hnone
      · cases hnone
      split at hnone
      · cases hnone
      next hrounds htolerance hlimit hnoise =>
      exact ⟨hrounds, not_not.mp htolerance, hlimit, not_not.mp hnoise⟩
  · rintro ⟨hrounds, htolerance, hlimit, hnoise⟩
    rw [if_neg hrounds, if_neg (not_not_intro htolerance), if_neg hlimit,
      if_neg (not_not_intro hnoise)]

theorem maxIterations_pos (h : c.validate = .ok ()) : 0 < c.maxIterations.toNat := by
  obtain ⟨hrounds, -⟩ := validate_eq_ok_iff.mp h
  exact Nat.pos_of_ne_zero fun hzero => hrounds (UInt64.toNat_inj.mp hzero)

theorem standard_validate : (standard : Config Binary64).validate = .ok () := by
  have hdefect : (standard : Config Binary64).defect?.isNone = true := by decide +kernel
  rw [validate, Option.isNone_iff_eq_none.mp hdefect]

end SubspaceEigen.Config
