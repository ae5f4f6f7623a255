import SubspaceEigen.Proofs.TotalOrder

/-!
# Square roots of floating-point numbers

A square root is undefined, or it is not below zero.  So a norm that is not positive is zero or
undefined.
-/

namespace SubspaceEigen.Binary64

open Float.Model

/-- Undefined, or not below zero. -/
def Nonnegative (u : UnpackedFloat) : Prop :=
  ∀ a ∈ place u, toLex (0, toLex (0, 0)) ≤ a

theorem nonnegative_finite (m : ℕ) (e : ℤ) (hm : 0 < m) :
    Nonnegative (.finite .positive m e hm) := by
  rintro a ⟨⟩
  exact le_of_lt (Prod.Lex.toLex_lt_toLex.mpr (.inl Int.one_pos))

theorem nonnegative_round {spec : Format} (m : ℕ) (e : ℤ) (accuracy : UnpackedFloat.Accuracy) :
    Nonnegative (UnpackedFloat.roundWithAccuracy spec .positive m e accuracy) := by
  intro a ha
  unfold UnpackedFloat.roundWithAccuracy at ha
  dsimp only at ha
  rw [apply_dite place] at ha
  obtain ⟨_, ⟨⟩⟩ | ⟨_, hfinite⟩ := dite_eq_iff.mp ha
  · exact le_rfl
  · exact nonnegative_finite _ _ _ a hfinite

theorem nonnegative_sqrt (u : UnpackedFloat) :
    Nonnegative (UnpackedFloat.sqrt Format.binary64 u) := by
  rcases u with (_ | _) | _ | _ | ⟨(_ | _), m, e, hm⟩
  case infinity.positive =>
    rintro a ⟨⟩
    decide
  case zero =>
    rintro a ⟨⟩
    exact le_rfl
  case finite.positive => exact nonnegative_round _ _ _
  all_goals rintro a ⟨⟩

theorem nonnegative_unpack {b : BitVec Format.binary64.numBits} {k f : ℕ}
    (h : HasFields b .positive k f) : Nonnegative (UnpackedFloat.unpack Format.binary64 b) := by
  by_cases htop : k = 2047
  · subst htop
    by_cases hf : f = 0
    · subst hf
      rw [h.unpack_infinity]
      rintro a ⟨⟩
      decide
    · rw [h.unpack_undefined hf]
      rintro a ⟨⟩
  by_cases hleast : k = 0
  · subst hleast
    obtain rfl | hpos := Nat.eq_zero_or_pos f
    · rw [h.unpack_zero]
      rintro a ⟨⟩
      exact le_rfl
    · rw [h.unpack_subnormal hpos]
      exact nonnegative_finite _ _ _
  · rw [h.unpack_normal hleast htop (by omega)]
    exact nonnegative_finite _ _ _

/-- A number that is packed and unpacked again does not turn negative. -/
theorem Nonnegative.unpack_pack {u : UnpackedFloat} (h : Nonnegative u) :
    Nonnegative (pack u).unpack := by
  show Nonnegative (UnpackedFloat.unpack Format.binary64 (UnpackedFloat.pack Format.binary64 u))
  rcases u with (_ | _) | _ | (_ | _) | ⟨(_ | _), m, e, hm⟩
  case infinity.negative => exact absurd (h _ rfl) (by decide)
  case finite.negative =>
    have hbelow : toLex (-1, toLex (-e, -(m : ℤ))) < toLex (0, toLex (0, 0)) :=
      Prod.Lex.toLex_lt_toLex.mpr (.inl (Int.neg_neg_of_pos Int.one_pos))
    exact absurd (h _ rfl) (not_le_of_gt hbelow)
  case zero.negative =>
    rintro a ⟨⟩
    exact le_rfl
  case finite.positive =>
    obtain ⟨exponent, mantissa, hpack⟩ := exists_pack_finite .positive m e hm
    rw [hpack]
    exact nonnegative_unpack (hasFields_packComponents _ _ _)
  all_goals exact nonnegative_unpack (hasFields_packComponents _ _ _)

variable {x y : Binary64}

theorem isUndefined_quiet (h : x.isUndefined = true) : x.quiet.isUndefined = true := by
  have hmagnitude : x.quiet.magnitude.toNat =
      x.magnitude.toNat ||| (0x8000000000000 &&& 0x7fffffffffffffff) := by
    simp only [quiet, magnitude, UInt64.toNat_and, UInt64.toNat_or, Nat.and_or_distrib_right]
    rfl
  rw [isUndefined_iff] at h ⊢
  rw [hmagnitude]
  exact h.trans_le Nat.left_le_or

theorem rank_quiet (h : x.isUndefined = true) : rank x.quiet = none := by
  rw [rank_eq, if_pos (isUndefined_quiet h)]

theorem rank_undefined : rank undefined = none := by
  decide +kernel

theorem rank_zero : rank 0 = some (toLex (0, toLex (0, 0))) := by
  decide +kernel

theorem beq_iff_rank : (x == y) = true ↔ ∃ a, rank x = some a ∧ rank y = some a := by
  have hcompare : (x == y) = true ↔ Option.map₂ compare (rank x) (rank y) = some .eq := by
    rw [rank, rank, ← compare_eq_compare_place]
    show (UnpackedFloat.compare _ _ == some .eq) = true ↔ _
    rw [beq_iff_eq]
  rw [hcompare, Option.map₂_eq_some_iff]
  constructor
  · rintro ⟨a, b, ha, hb, heq⟩
    obtain rfl := compare_eq_iff_eq.mp heq
    exact ⟨a, ha, hb⟩
  · rintro ⟨a, hx, hy⟩
    exact ⟨a, a, hx, hy, compare_eq_iff_eq.mpr rfl⟩

/-- A square root that is defined has its place at zero or above. -/
theorem zero_le_of_rank_sqrt (x : Binary64) :
    ∀ a ∈ rank (Scalar.sqrt x), toLex (0, toLex (0, 0)) ≤ a := by
  show ∀ a ∈ rank (lift Float.sqrt x), _
  unfold lift
  dsimp only
  split
  · exact (nonnegative_sqrt _).unpack_pack.unpack_pack
  · split
    · next h =>
      rw [rank_quiet h]
      exact fun a ha => (Option.not_mem_none a ha).elim
    · rw [rank_undefined]
      exact fun a ha => (Option.not_mem_none a ha).elim

/-- A square root is positive exactly if it is defined and not zero. -/
theorem sqrt_pos_iff (x : Binary64) : 0 < Scalar.sqrt x ↔
    Scalar.sqrt x ≤ Scalar.sqrt x ∧ (Scalar.sqrt x == 0) = false := by
  rw [← Bool.not_eq_true, lt_iff_rank, le_iff_rank, beq_iff_rank]
  simp only [rank_zero]
  constructor
  · rintro ⟨zero, a, hzero, ha, hlt⟩
    obtain rfl := Option.some.inj hzero
    refine ⟨⟨a, a, ha, ha, le_rfl⟩, ?_⟩
    rintro ⟨b, hb, hb0⟩
    obtain rfl := Option.some.inj (ha.symm.trans hb)
    exact hlt.ne (Option.some.inj hb0)
  · rintro ⟨⟨a, -, ha, -, -⟩, hne⟩
    refine ⟨_, a, rfl, ha, lt_of_le_of_ne (zero_le_of_rank_sqrt x a ha) ?_⟩
    rintro rfl
    exact hne ⟨_, ha, rfl⟩

end SubspaceEigen.Binary64
