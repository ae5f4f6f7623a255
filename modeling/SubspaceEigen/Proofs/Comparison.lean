import Mathlib.Data.Option.NAry
import Mathlib.Data.Prod.Lex
import Mathlib.Order.Basic
import SubspaceEigen.Binary64

/-!
# Comparisons of floating-point numbers

An undefined value compares with nothing, itself included, so comparison is no order.  Among the
values that compare with themselves it is one: each has a place in a linear order, and two values
compare as their places do.  What a running maximum needs of this is kept as a class.
-/

namespace SubspaceEigen

/-- The laws of `<` where a value may compare with nothing; `a ≤ a` says that it does not. -/
class Scalar.Compares (α : Type) [Scalar α] : Prop where
  zero_le_zero : (0 : α) ≤ 0
  defined_of_lt : ∀ {a b : α}, a < b → a ≤ a ∧ b ≤ b
  lt_trans : ∀ {a b c : α}, a < b → b < c → a < c
  lt_of_not_lt : ∀ {a b c : α}, a ≤ a → b ≤ b → ¬ a < b → a < c → b < c

namespace Scalar

variable {α : Type} [Scalar α]

theorem max_eq {a : α} (ha : a ≤ a) (b : α) : max a b = if a < b then b else a := by
  rw [max, if_pos ha]

variable [Compares α]

theorem defined_max {a : α} (ha : a ≤ a) (b : α) : max a b ≤ max a b := by
  rw [max_eq ha]
  split
  · next hlt => exact (Compares.defined_of_lt hlt).2
  · exact ha

/-- The larger of two values is below a bound if the first is, and the second unless it is undefined.
-/
theorem max_lt_iff {a b c : α} (ha : a ≤ a) : max a b < c ↔ a < c ∧ (b ≤ b → b < c) := by
  rw [max_eq ha]
  split
  · next hlt =>
    have hb : b ≤ b := (Compares.defined_of_lt hlt).2
    exact ⟨fun h => ⟨Compares.lt_trans hlt h, fun _ => h⟩, fun h => h.2 hb⟩
  · next hlt => exact ⟨fun h => ⟨h, fun hb => Compares.lt_of_not_lt ha hb hlt h⟩, And.left⟩

/-- A running maximum is below a bound exactly if its start is, and all values but the undefined ones.
-/
theorem foldl_max_lt_iff {top : α} (htop : top ≤ top) (values : List α) {c : α} :
    values.foldl max top < c ↔ top < c ∧ ∀ x ∈ values, x ≤ x → x < c := by
  induction values generalizing top with
  | nil => simp
  | cons x values ih =>
      rw [List.foldl_cons, ih (defined_max htop x), max_lt_iff htop, List.forall_mem_cons, and_assoc]

theorem forall_lt_iff_of_foldl_max_lt {top : α} (htop : top ≤ top) {values : List α} {c : α}
    (h : values.foldl max top < c) : (∀ x ∈ values, x < c) ↔ ∀ x ∈ values, x ≤ x := by
  obtain ⟨-, hdefined⟩ := (foldl_max_lt_iff htop values).mp h
  constructor
  · exact fun hlt x hx => (Compares.defined_of_lt (hlt x hx)).1
  · exact fun hle x hx => hdefined x hx (hle x hx)

end Scalar

namespace Binary64

open Float.Model

/-- The place of an unpacked number: by sign with the infinities outermost, then by exponent and
mantissa.  An undefined value has none. -/
def place : UnpackedFloat → Option (ℤ ×ₗ ℤ ×ₗ ℤ)
  | .notANumber => none
  | .infinity .positive => some (toLex (2, toLex (0, 0)))
  | .infinity .negative => some (toLex (-2, toLex (0, 0)))
  | .zero _ => some (toLex (0, toLex (0, 0)))
  | .finite .positive mantissa exponent _ => some (toLex (1, toLex (exponent, mantissa)))
  | .finite .negative mantissa exponent _ => some (toLex (-1, toLex (-exponent, -mantissa)))

theorem compare_natCast (a b : ℕ) : compare (a : ℤ) (b : ℤ) = compare a b := by
  rcases lt_trichotomy a b with h | rfl | h
  · rw [compare_lt_iff_lt.mpr h, compare_lt_iff_lt.mpr (Int.ofNat_lt.mpr h)]
  · simp
  · rw [compare_gt_iff_gt.mpr h, compare_gt_iff_gt.mpr (Int.ofNat_lt.mpr h)]

theorem compare_neg (a b : ℤ) : compare (-a) (-b) = (compare a b).swap := by
  rcases lt_trichotomy a b with h | rfl | h
  · rw [compare_lt_iff_lt.mpr h, compare_gt_iff_gt.mpr (Int.neg_lt_neg h)]
    rfl
  · simp
  · rw [compare_gt_iff_gt.mpr h, compare_lt_iff_lt.mpr (Int.neg_lt_neg h)]
    rfl

/-- Numbers compare as their places do; where one has none, there is no comparison. -/
theorem compare_eq_compare_place (a b : UnpackedFloat) :
    a.compare b = Option.map₂ compare (place a) (place b) := by
  rcases a with (_ | _) | _ | (_ | _) | ⟨(_ | _), m, e, hm⟩ <;>
    rcases b with (_ | _) | _ | (_ | _) | ⟨(_ | _), m', e', hm'⟩ <;> try rfl
  case finite.negative.finite.negative =>
    have hreversed : ((compare e e').then (compare m m')).swap =
        (compare (-e) (-e')).then (compare (-m : ℤ) (-m')) := by
      rw [Ordering.swap_then, compare_neg, compare_neg, compare_natCast]
    exact congrArg some hreversed
  case finite.positive.finite.positive =>
    have hsame : (compare e e').then (compare m m') =
        (compare e e').then (compare (m : ℤ) m') := by
      rw [compare_natCast]
    exact congrArg some hsame

def rank (x : Binary64) : Option (ℤ ×ₗ ℤ ×ₗ ℤ) :=
  place x.toFloat.toModel.unpack

variable {x y : Binary64}

theorem lt_iff_rank : x < y ↔ ∃ a b, rank x = some a ∧ rank y = some b ∧ a < b := by
  have hcompare : x < y ↔ Option.map₂ compare (rank x) (rank y) = some .lt := by
    rw [rank, rank, ← compare_eq_compare_place]
    show Float.lt x.toFloat y.toFloat = true ↔ _
    rw [Float.lt, decide_eq_true_iff]
    show UnpackedFloat.lt _ _ = true ↔ _
    rw [UnpackedFloat.lt, beq_iff_eq]
  simp only [hcompare, Option.map₂_eq_some_iff, Option.mem_def, compare_lt_iff_lt]

theorem le_iff_rank : x ≤ y ↔ ∃ a b, rank x = some a ∧ rank y = some b ∧ a ≤ b := by
  have hcompare : x ≤ y ↔ Option.map₂ compare (rank x) (rank y) = some .lt ∨
      Option.map₂ compare (rank x) (rank y) = some .eq := by
    rw [rank, rank, ← compare_eq_compare_place]
    show Float.le x.toFloat y.toFloat = true ↔ _
    rw [Float.le, decide_eq_true_iff]
    show UnpackedFloat.le _ _ = true ↔ _
    rw [UnpackedFloat.le]
    rcases x.toFloat.toModel.unpack.compare y.toFloat.toModel.unpack with _ | (_ | _ | _) <;> simp
  simp only [hcompare, Option.map₂_eq_some_iff, Option.mem_def, compare_lt_iff_lt,
    compare_eq_iff_eq, le_iff_lt_or_eq, and_or_left, exists_or]

instance : Scalar.Compares Binary64 where
  zero_le_zero := by decide +kernel
  defined_of_lt := by
    intro a b h
    obtain ⟨x, y, hx, hy, -⟩ := lt_iff_rank.mp h
    exact ⟨le_iff_rank.mpr ⟨x, x, hx, hx, le_rfl⟩, le_iff_rank.mpr ⟨y, y, hy, hy, le_rfl⟩⟩
  lt_trans := by
    intro a b c hab hbc
    obtain ⟨x, y, hx, hy, hxy⟩ := lt_iff_rank.mp hab
    obtain ⟨y', z, hy', hz, hyz⟩ := lt_iff_rank.mp hbc
    obtain rfl := Option.some.inj (hy.symm.trans hy')
    exact lt_iff_rank.mpr ⟨x, z, hx, hz, hxy.trans hyz⟩
  lt_of_not_lt := by
    intro a b c ha hb hab hac
    obtain ⟨x, -, hx, -, -⟩ := le_iff_rank.mp ha
    obtain ⟨y, -, hy, -, -⟩ := le_iff_rank.mp hb
    obtain ⟨x', z, hx', hz, hxz⟩ := lt_iff_rank.mp hac
    obtain rfl := Option.some.inj (hx.symm.trans hx')
    have hyx : y ≤ x := not_lt.mp fun hxy => hab (lt_iff_rank.mpr ⟨x, y, hx, hy, hxy⟩)
    exact lt_iff_rank.mpr ⟨y, z, hy, hz, hyx.trans_lt hxz⟩

end Binary64

end SubspaceEigen
