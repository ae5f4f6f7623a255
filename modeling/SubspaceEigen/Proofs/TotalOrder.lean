import Mathlib.Algebra.Order.Group.Defs
import Mathlib.Algebra.Order.Group.Int
import Mathlib.Algebra.Order.Group.Synonym
import Mathlib.Algebra.Order.Monoid.Prod
import Mathlib.Data.Nat.Bitwise
import SubspaceEigen.Proofs.Comparison

/-!
# The total order and the comparisons

Sorting goes by the bit patterns of floating-point numbers, and comparison by what they stand for.
On defined numbers the two agree, but for the zeros, of which the total order puts the negative one
first.  The undefined patterns have places of their own in the total order: those with the sign bit
set lie below all numbers, and the others above.
-/

namespace SubspaceEigen.Binary64

open Float.Model
open Float.Model.UnpackedFloat (Sign packComponents unpackSign unpackExponent unpackMantissa)

variable {x y : Binary64}

/-! ## The parts of a pattern -/

theorem toNat_magnitude (x : Binary64) : x.magnitude.toNat = x.bits.toNat % 2 ^ 63 := by
  rw [magnitude, UInt64.toNat_and]
  exact Nat.and_two_pow_sub_one_eq_mod _ 63

theorem magnitude_lt (x : Binary64) : x.magnitude.toNat < 2 ^ 63 := by
  rw [toNat_magnitude]
  exact Nat.mod_lt _ (Nat.two_pow_pos 63)

theorem isNegative_eq (x : Binary64) : x.isNegative = x.bits.toNat.testBit 63 := by
  have hmask : (x.bits &&& 0x8000000000000000).toNat = (x.bits.toNat.testBit 63).toNat * 2 ^ 63 :=
    (UInt64.toNat_and _ _).trans (Nat.and_two_pow _ 63)
  have hset : x.isNegative = true ↔ (x.bits &&& 0x8000000000000000).toNat ≠ 0 := by
    rw [isNegative, bne_iff_ne, ← UInt64.toNat_zero, Ne, Ne, UInt64.toNat_inj]
  rw [Bool.eq_iff_iff, hset, hmask]
  cases x.bits.toNat.testBit 63 <;> simp

theorem isUndefined_iff : x.isUndefined = true ↔ 0x7ff0000000000000 < x.magnitude.toNat :=
  decide_eq_true_iff.trans UInt64.lt_iff_toNat_lt

theorem isUndefined_eq_false_iff :
    x.isUndefined = false ↔ x.magnitude.toNat ≤ 0x7ff0000000000000 := by
  rw [← Bool.not_eq_true, isUndefined_iff, not_lt]

theorem orderKey_eq (x : Binary64) :
    x.orderKey = if x.isNegative then -1 - (x.magnitude.toNat : ℤ) else x.magnitude.toNat :=
  rfl

theorem orderKey_negate (x : Binary64) : x.negate.orderKey = -1 - x.orderKey := by
  have hbits : x.negate.bits.toNat = x.bits.toNat ^^^ 2 ^ 63 := UInt64.toNat_xor _ _
  have hmagnitude : x.negate.magnitude.toNat = x.magnitude.toNat := by
    rw [toNat_magnitude, toNat_magnitude, hbits, Nat.xor_mod_two_pow, Nat.mod_self, Nat.xor_zero]
  have hsign : x.negate.isNegative = !x.isNegative := by
    rw [isNegative_eq, isNegative_eq, hbits, Nat.testBit_xor, Nat.testBit_two_pow_self,
      Bool.xor_true]
  rw [orderKey_eq, orderKey_eq, hmagnitude, hsign]
  cases x.isNegative with
  | false => rfl
  | true => simp

/-- An undefined pattern with the sign bit set lies below every number. -/
theorem orderKey_lt_of_isNegative (hx : x.isUndefined = true) (hneg : x.isNegative = true)
    (hy : y.isUndefined = false) : x.orderKey < y.orderKey := by
  rw [isUndefined_iff] at hx
  rw [isUndefined_eq_false_iff] at hy
  rw [orderKey_eq, orderKey_eq, if_pos hneg]
  split <;> omega

/-- An undefined pattern without the sign bit lies above every number. -/
theorem orderKey_lt_of_not_isNegative (hx : x.isUndefined = true) (hpos : x.isNegative = false)
    (hy : y.isUndefined = false) : y.orderKey < x.orderKey := by
  rw [isUndefined_iff] at hx
  rw [isUndefined_eq_false_iff] at hy
  rw [orderKey_eq, orderKey_eq, hpos, if_neg Bool.false_ne_true]
  split <;> omega

/-! ## What the decoder makes of a pattern -/

section Decoder

variable {b : BitVec Format.binary64.numBits} {s s' : Sign} {k f m m' : ℕ} {e e' : ℤ}

/-- The three fields of a pattern. -/
structure HasFields (b : BitVec Format.binary64.numBits) (s : Sign) (k f : ℕ) : Prop where
  sign : Sign.ofBitVec (unpackSign b) = s
  exponent : (unpackExponent b).toNat = k
  mantissa : (unpackMantissa b).toNat = f

theorem unpackSign_eq (b : BitVec Format.binary64.numBits) :
    unpackSign b = BitVec.ofBool (b.getLsbD 63) := by
  apply BitVec.eq_of_getLsbD_eq
  intro i hi
  obtain rfl : i = 0 := by omega
  show ((b.extractLsb 63 63).cast _).getLsbD 0 = _
  rw [BitVec.getLsbD_cast, BitVec.getLsbD_extractLsb]
  cases b.getLsbD 63 <;> rfl

theorem hasFields_bits (x : Binary64) :
    HasFields x.bits.toBitVec (if x.isNegative then .negative else .positive)
      (x.magnitude.toNat / 2 ^ 52) (x.magnitude.toNat % 2 ^ 52) where
  sign := by
    have hbit : x.bits.toBitVec.getLsbD 63 = x.isNegative := by
      rw [isNegative_eq, BitVec.getLsbD, UInt64.toNat_toBitVec]
    rw [unpackSign_eq, hbit]
    cases x.isNegative <;> rfl
  exponent := by
    show ((x.bits.toBitVec.extractLsb 62 52).cast _).toNat = _
    rw [BitVec.toNat_cast, BitVec.extractLsb_toNat, toNat_magnitude, Nat.shiftRight_eq_div_pow,
      UInt64.toNat_toBitVec]
    omega
  mantissa := by
    show ((x.bits.toBitVec.extractLsb 51 0).cast _).toNat = _
    rw [BitVec.toNat_cast, BitVec.extractLsb_toNat, toNat_magnitude, Nat.shiftRight_zero,
      UInt64.toNat_toBitVec]
    omega

theorem hasFields_packComponents (s : Sign) (exponent : BitVec 11) (mantissa : BitVec 52) :
    HasFields (packComponents Format.binary64 s exponent mantissa) s exponent.toNat
      mantissa.toNat where
  sign := by
    have hbit : (s.toBitVec ++ exponent ++ mantissa).getLsbD 63 = s.toBitVec.getLsbD 0 := by
      rw [BitVec.getLsbD_append, BitVec.getLsbD_append]
      rfl
    rw [unpackSign_eq, packComponents, hbit]
    cases s <;> rfl
  exponent := by rw [UnpackedFloat.unpackExponent_packComponents]
  mantissa := by rw [UnpackedFloat.unpackMantissa_packComponents]

theorem finite_congr (hs : s = s') (hm : m = m') (he : e = e') (hpos : 0 < m) (hpos' : 0 < m') :
    UnpackedFloat.finite s m e hpos = .finite s' m' e' hpos' := by
  subst hs hm he
  rfl

namespace HasFields

theorem exponent_eq_iff (h : HasFields b s k f) (v : BitVec 11) :
    unpackExponent b = v ↔ k = v.toNat := by
  rw [← h.exponent]
  exact BitVec.toNat_inj.symm

theorem exponent_eq_top_iff (h : HasFields b s k f) : unpackExponent b = -1#11 ↔ k = 2047 :=
  h.exponent_eq_iff (-1#11)

theorem exponent_eq_zero_iff (h : HasFields b s k f) : unpackExponent b = 0#11 ↔ k = 0 :=
  h.exponent_eq_iff 0#11

theorem mantissa_eq_zero_iff (h : HasFields b s k f) : unpackMantissa b = 0#52 ↔ f = 0 := by
  rw [← h.mantissa]
  exact BitVec.toNat_inj.symm

theorem unpack_undefined (h : HasFields b s 2047 f) (hf : f ≠ 0) :
    UnpackedFloat.unpack Format.binary64 b = .notANumber :=
  (if_pos (h.exponent_eq_top_iff.mpr rfl)).trans (if_neg (mt h.mantissa_eq_zero_iff.mp hf))

theorem unpack_infinity (h : HasFields b s 2047 0) :
    UnpackedFloat.unpack Format.binary64 b = .infinity s :=
  (if_pos (h.exponent_eq_top_iff.mpr rfl)).trans ((if_pos (h.mantissa_eq_zero_iff.mpr rfl)).trans
    (congrArg UnpackedFloat.infinity h.sign))

theorem unpack_zero (h : HasFields b s 0 0) :
    UnpackedFloat.unpack Format.binary64 b = .zero s :=
  (if_neg (mt h.exponent_eq_top_iff.mp (by decide))).trans
    ((if_pos (h.exponent_eq_zero_iff.mpr rfl)).trans
      ((dif_pos (h.mantissa_eq_zero_iff.mpr rfl)).trans (congrArg UnpackedFloat.zero h.sign)))

theorem unpack_subnormal (h : HasFields b s 0 f) (hpos : 0 < f) :
    UnpackedFloat.unpack Format.binary64 b = .finite s f (-1074) hpos := by
  refine (if_neg (mt h.exponent_eq_top_iff.mp (by decide))).trans
    ((if_pos (h.exponent_eq_zero_iff.mpr rfl)).trans
      ((dif_neg (mt h.mantissa_eq_zero_iff.mp hpos.ne')).trans
        (finite_congr h.sign h.mantissa ?_ _ _)))
  rw [h.exponent]
  rfl

theorem unpack_normal (h : HasFields b s k f) (hleast : k ≠ 0) (htop : k ≠ 2047)
    (hpos : 0 < 2 ^ 52 + f) :
    UnpackedFloat.unpack Format.binary64 b = .finite s (2 ^ 52 + f) (k - 1075) hpos := by
  refine (if_neg (mt h.exponent_eq_top_iff.mp htop)).trans
    ((if_neg (mt h.exponent_eq_zero_iff.mp hleast)).trans (finite_congr h.sign ?_ ?_ _ _))
  · rw [BitVec.toNat_append, ← Nat.shiftLeft_add_eq_or_of_lt (BitVec.isLt _), h.mantissa]
    rfl
  · rw [h.exponent]
    rfl

end HasFields

theorem exists_pack_finite (s : Sign) (m : ℕ) (e : ℤ) (hpos : 0 < m) :
    ∃ exponent mantissa, UnpackedFloat.pack Format.binary64 (.finite s m e hpos) =
      packComponents Format.binary64 s exponent mantissa := by
  by_cases hlarge : 2 ^ 11 ≤ (e + 1023 + 52).toNat + 1
  · exact ⟨_, _, if_pos hlarge⟩
  by_cases hlog : m.log2 + 1 = 53
  · exact ⟨_, _, (if_neg hlarge).trans (if_pos hlog)⟩
  · exact ⟨_, _, (if_neg hlarge).trans (if_neg hlog)⟩

/-- What is read back of an unpacked number that is packed. -/
def repacked (u : UnpackedFloat) : UnpackedFloat :=
  UnpackedFloat.unpack Format.binary64 (UnpackedFloat.pack Format.binary64 u)

theorem repacked_subnormal (hpos : 0 < f) (hlt : f < 2 ^ 52) :
    repacked (.finite s f (-1074) hpos) = .finite s f (-1074) hpos := by
  have hlog : ¬ f.log2 + 1 = 53 := by
    have hlt' := (Nat.log2_lt hpos.ne').mpr hlt
    omega
  have hpack : UnpackedFloat.pack Format.binary64 (.finite s f (-1074) hpos) =
      packComponents Format.binary64 s 0#11 (BitVec.ofNat 52 f) := if_neg hlog
  have hfields := hasFields_packComponents s 0#11 (BitVec.ofNat 52 f)
  rw [BitVec.toNat_ofNat, BitVec.toNat_ofNat, Nat.mod_eq_of_lt hlt] at hfields
  rw [repacked, hpack]
  exact hfields.unpack_subnormal hpos

theorem repacked_normal (hf : f < 2 ^ 52) (hleast : k ≠ 0) (htop : k < 2047)
    (hpos : 0 < 2 ^ 52 + f) :
    repacked (.finite s (2 ^ 52 + f) (k - 1075) hpos) =
      .finite s (2 ^ 52 + f) (k - 1075) hpos := by
  have hlog : (2 ^ 52 + f).log2 + 1 = 53 :=
    congrArg (· + 1) ((Nat.log2_eq_iff hpos.ne').mpr ⟨by omega, by omega⟩)
  have hbiased : ((k : ℤ) - 1075 + 1023 + 52).toNat = k := by omega
  have hfits : ¬ 2 ^ 11 ≤ ((k : ℤ) - 1075 + 1023 + 52).toNat + 1 := by omega
  have hpack : UnpackedFloat.pack Format.binary64 (.finite s (2 ^ 52 + f) (k - 1075) hpos) =
      packComponents Format.binary64 s (BitVec.ofNat 11 k) (BitVec.ofNat 52 (2 ^ 52 + f)) :=
    (if_neg hfits).trans ((if_pos hlog).trans (congrArg
      (fun k => packComponents Format.binary64 s (BitVec.ofNat 11 k) _) hbiased))
  have hfields := hasFields_packComponents s (BitVec.ofNat 11 k) (BitVec.ofNat 52 (2 ^ 52 + f))
  rw [BitVec.toNat_ofNat, BitVec.toNat_ofNat, Nat.mod_eq_of_lt (by omega), Nat.add_mod_left,
    Nat.mod_eq_of_lt hf] at hfields
  rw [repacked, hpack]
  exact hfields.unpack_normal hleast htop.ne hpos

end Decoder

/-! ## Places by the total order -/

/-- The place of the number that is not negative and has these bits. -/
def placeOf (bits : ℕ) : ℤ ×ₗ ℤ ×ₗ ℤ :=
  if bits / 2 ^ 52 = 2047 then toLex (2, toLex (0, 0))
  else if bits = 0 then toLex (0, toLex (0, 0))
  else if bits / 2 ^ 52 = 0 then toLex (1, toLex (-1074, bits))
  else toLex (1, toLex (bits / 2 ^ 52 - 1075, 2 ^ 52 + bits % 2 ^ 52))

theorem placeOf_nonneg (bits : ℕ) : toLex (0, toLex (0, 0)) ≤ placeOf bits := by
  unfold placeOf
  split
  · decide
  split
  · decide
  split <;> exact (Prod.Lex.toLex_lt_toLex.mpr (.inl Int.one_pos)).le

theorem placeOf_mono {a b : ℕ} (hab : a ≤ b) (hb : b / 2 ^ 52 ≤ 2047) :
    placeOf a ≤ placeOf b := by
  have hfield : a / 2 ^ 52 ≤ b / 2 ^ 52 := Nat.div_le_div_right hab
  unfold placeOf
  split_ifs <;> simp only [Prod.Lex.toLex_le_toLex, true_and] <;> omega

/-- A place with a sign. -/
def signed (negative : Bool) (p : ℤ ×ₗ ℤ ×ₗ ℤ) : ℤ ×ₗ ℤ ×ₗ ℤ :=
  if negative then -p else p

section

variable (negative : Bool)

theorem place_infinity : place (repacked (.infinity (if negative then .negative else .positive))) =
    some (signed negative (toLex (2, toLex (0, 0)))) := by
  cases negative <;> rfl

theorem place_zero : place (repacked (.zero (if negative then .negative else .positive))) =
    some (signed negative (toLex (0, toLex (0, 0)))) := by
  cases negative <;> rfl

theorem place_finite (m : ℕ) (e : ℤ) (hpos : 0 < m) :
    place (.finite (if negative then .negative else .positive) m e hpos) =
      some (signed negative (toLex (1, toLex (e, (m : ℤ))))) := by
  cases negative <;> rfl

end

theorem place_repacked_unpack (h : x.isUndefined = false) :
    place (repacked (UnpackedFloat.unpack Format.binary64 x.bits.toBitVec)) =
      some (signed x.isNegative (placeOf x.magnitude.toNat)) := by
  rw [isUndefined_eq_false_iff] at h
  have hfields := hasFields_bits x
  have hlt : x.magnitude.toNat % 2 ^ 52 < 2 ^ 52 := Nat.mod_lt _ (Nat.two_pow_pos 52)
  unfold placeOf
  by_cases htop : x.magnitude.toNat / 2 ^ 52 = 2047
  · have hfield : x.magnitude.toNat % 2 ^ 52 = 0 := by omega
    rw [htop, hfield] at hfields
    rw [hfields.unpack_infinity, if_pos htop, place_infinity]
  rw [if_neg htop]
  by_cases hleast : x.magnitude.toNat / 2 ^ 52 = 0
  · have hfield : x.magnitude.toNat % 2 ^ 52 = x.magnitude.toNat := by omega
    rw [hleast, hfield] at hfields
    by_cases hzero : x.magnitude.toNat = 0
    · rw [hzero] at hfields
      rw [hfields.unpack_zero, if_pos hzero, place_zero]
    · have hpos : 0 < x.magnitude.toNat := by omega
      rw [hfields.unpack_subnormal hpos, repacked_subnormal hpos (by omega), place_finite,
        if_neg hzero, if_pos hleast]
  · have hzero : ¬ x.magnitude.toNat = 0 := by omega
    rw [hfields.unpack_normal hleast htop (by omega), repacked_normal hlt hleast (by omega),
      place_finite, if_neg hzero, if_neg hleast]
    push_cast
    rfl

theorem rank_eq (x : Binary64) : rank x =
    if x.isUndefined then none else some (signed x.isNegative (placeOf x.magnitude.toNat)) := by
  have hpacked : rank x =
      place (repacked (UnpackedFloat.unpack Format.binary64 x.bits.toBitVec)) := rfl
  rw [hpacked]
  by_cases h : x.isUndefined = true
  · rw [if_pos h]
    rw [isUndefined_iff] at h
    have hlt := x.magnitude_lt
    have hfields := hasFields_bits x
    have htop : x.magnitude.toNat / 2 ^ 52 = 2047 := by omega
    rw [htop] at hfields
    rw [hfields.unpack_undefined (by omega)]
    rfl
  · rw [if_neg h]
    exact place_repacked_unpack (Bool.not_eq_true _ ▸ h)

/-- A number is defined exactly if it compares with itself. -/
theorem le_self_iff : x ≤ x ↔ x.isUndefined = false := by
  rw [le_iff_rank, rank_eq]
  cases x.isUndefined with
  | false => exact ⟨fun _ => rfl, fun _ => ⟨_, _, rfl, rfl, le_rfl⟩⟩
  | true =>
      constructor
      · rintro ⟨a, -, ha, -⟩
        cases ha
      · nofun

/-- Numbers that ascend in the total order ascend. -/
theorem le_of_orderKey_le (hx : x.isUndefined = false) (hy : y.isUndefined = false)
    (h : x.orderKey ≤ y.orderKey) : x ≤ y := by
  have hxlt := x.magnitude_lt
  have hylt := y.magnitude_lt
  rw [le_iff_rank, rank_eq, rank_eq, hx, hy]
  refine ⟨_, _, rfl, rfl, ?_⟩
  rw [orderKey_eq, orderKey_eq] at h
  cases hxneg : x.isNegative with
  | false =>
      cases hyneg : y.isNegative with
      | false =>
          rw [hxneg, hyneg] at h
          exact placeOf_mono (Int.ofNat_le.mp h) (by omega)
      | true =>
          rw [hxneg, hyneg, if_neg Bool.false_ne_true, if_pos rfl] at h
          omega
  | true =>
      cases hyneg : y.isNegative with
      | false => exact (neg_nonpos.mpr (placeOf_nonneg _)).trans (placeOf_nonneg _)
      | true =>
          rw [hxneg, hyneg, if_pos rfl, if_pos rfl] at h
          exact neg_le_neg (placeOf_mono (by omega) (by omega))

theorem orderKey_pos (h : 0 < x) : 0 < x.orderKey := by
  obtain ⟨a, b, hzero, hx, hab⟩ := lt_iff_rank.mp h
  have hdefined : x.isUndefined = false := le_self_iff.mp (le_iff_rank.mpr ⟨b, b, hx, hx, le_rfl⟩)
  by_contra hle
  have hle' : x.orderKey ≤ orderKey 0 := not_lt.mp hle
  have hdefined' : isUndefined 0 = false := rfl
  obtain ⟨b', a', hx', hzero', hba⟩ :=
    le_iff_rank.mp (le_of_orderKey_le hdefined hdefined' hle')
  obtain rfl := Option.some.inj (hx.symm.trans hx')
  obtain rfl := Option.some.inj (hzero.symm.trans hzero')
  exact hab.not_ge hba

end SubspaceEigen.Binary64
