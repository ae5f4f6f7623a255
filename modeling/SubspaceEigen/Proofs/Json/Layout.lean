import SubspaceEigen.Proofs.Decimal.Shortest
import SubspaceEigen.Proofs.Json.Numbers

/-!
# Numbers in documents

The layout of documents writes every finite number as a number of the format, and every other one as
`null`.
-/

namespace SubspaceEigen

open Json Decimal

/-- The text is that of a number without a sign. -/
def Json.IsUnsigned (s : List Char) : Prop :=
  ∃ n : Number, n.Proper ∧ n.negative = false ∧ n.text = s

theorem Json.exponentText_some (e : ℤ) :
    exponentText (some e) = 'e' :: (if 0 ≤ e then "+" ++ toString e.toNat
      else "-" ++ toString (-e).toNat).toList := by
  split
  · next he => simp [exponentText, he, show e.natAbs = e.toNat by omega]
  · next he => simp [exponentText, he, show e.natAbs = (-e).toNat by omega]

variable {d : Decimal}

theorem Decimal.isUnsigned_of_nonneg (hd : d.digits ≠ 0) (he : 0 ≤ d.exponent) :
    IsUnsigned (d.positional ".0").toList := by
  obtain ⟨first, others, heq, hfirst, hdigits⟩ := exists_toDigits_eq_cons hd
  refine ⟨⟨false, first :: (others ++ List.replicate d.exponent.toNat '0'), ['0'], none⟩,
    ⟨isWhole_cons hfirst ?_, by simp⟩, rfl, ?_⟩
  · intro c hc
    rw [← List.cons_append] at hc
    rcases List.mem_append.mp hc with hc | hc
    · exact hdigits c hc
    · rw [List.eq_of_mem_replicate hc]
      rfl
  · simp [positional, he, digitText, heq, zeros, Number.text, fractionText, exponentText]

theorem Decimal.isUnsigned_of_neg (hd : d.digits ≠ 0) (he : d.exponent < 0) :
    IsUnsigned (d.positional ".0").toList := by
  obtain ⟨first, others, heq, hfirst, hdigits⟩ := exists_toDigits_eq_cons hd
  obtain ⟨places, hplaces⟩ : ∃ k : ℕ, (-d.exponent).toNat = k + 1 :=
    ⟨(-d.exponent).toNat - 1, by omega⟩
  set all := padded (places + 1) (first :: others) with hall
  refine ⟨⟨false, all.take (all.length - (places + 1)), all.drop (all.length - (places + 1)),
    none⟩, ⟨isWhole_take_padded hfirst hdigits (places + 1), ?_⟩, rfl, ?_⟩
  · intro c hc
    exact isDigit_of_mem_padded hdigits (List.mem_of_mem_drop hc)
  · have hlength : places + 1 < all.length := lt_length_padded (places + 1) (first :: others)
    have hfraction : all.drop (all.length - (places + 1)) ≠ [] := by
      rw [Ne, List.drop_eq_nil_iff]
      omega
    rw [positional, if_neg (by omega), heq, hplaces]
    change _ = (String.ofList (all.take (all.length - (places + 1))) ++ "." ++
      String.ofList (all.drop (all.length - (places + 1)))).toList
    rw [Number.text, fractionText, if_neg hfraction]
    simp [exponentText]

theorem Decimal.isUnsigned_scientific (hd : d.digits ≠ 0) :
    IsUnsigned (d.scientific "+").toList := by
  obtain ⟨first, others, heq, hfirst, hdigits⟩ := exists_toDigits_eq_cons hd
  refine ⟨⟨false, [first], others, some d.leadingExponent⟩,
    ⟨isWhole_cons hfirst ?_, ?_⟩, rfl, ?_⟩
  · intro c hc
    exact hdigits c (by simp_all)
  · exact fun c hc => hdigits c (List.mem_cons_of_mem first hc)
  · cases others <;> simp [scientific, heq, Number.text, fractionText, exponentText_some]

theorem Json.Number.Proper.exists_signed {n : Number} (hn : n.Proper) (hsign : n.negative = false)
    (negative : Bool) :
    ∃ m : Number, m.Proper ∧ m.text = (if negative then "-" else "").toList ++ n.text := by
  refine ⟨{ n with negative := negative }, ⟨hn.whole, hn.fraction⟩, ?_⟩
  cases negative <;> simp [Number.text, hsign]

theorem Binary64.isFinite_iff (x : Binary64) :
    x.isFinite = true ↔
      ∃ negative mantissa exponent, x.value = .finite negative mantissa exponent := by
  have hsize : x.magnitude.toNat < 2048 * hiddenBit := by
    have hle : x.magnitude.toNat ≤ 0x7fffffffffffffff := by
      rw [magnitude, UInt64.toNat_and]
      exact Nat.and_le_right
    exact lt_of_le_of_lt hle (by decide)
  have hfinite : x.isFinite = true ↔ x.magnitude.toNat / hiddenBit < 2047 := by
    rw [Nat.div_lt_iff_lt_mul (by decide), isFinite, decide_eq_true_iff, UInt64.lt_iff_toNat_lt]
    rfl
  have hbiased : x.magnitude.toNat / hiddenBit < 2048 :=
    (Nat.div_lt_iff_lt_mul (by decide)).mpr hsize
  rw [hfinite, value]
  split
  · split <;> simp <;> omega
  · split <;> simp <;> omega

namespace NumberLayout

theorem exists_text_eq_document {x : Binary64} {negative : Bool} {mantissa : ℕ} {exponent : ℤ}
    (hvalue : x.value = .finite negative mantissa exponent) :
    ∃ n : Number, n.Proper ∧ n.text = (document.render x).toList := by
  rw [render, hvalue]
  cases mantissa with
  | zero =>
    refine ⟨⟨negative, ['0'], ['0'], none⟩, ⟨isWhole_zero, by simp⟩, ?_⟩
    cases negative <;> simp [Number.text, fractionText, exponentText, document]
  | succ mantissa =>
    set d := (shortest (mantissa + 1) exponent document.tie).normalize
    have hd : d.digits ≠ 0 :=
      normalize_digits_ne_zero (shortest_digits_ne_zero mantissa.succ_pos exponent document.tie)
    have hunsigned : IsUnsigned (if document.isPositional d.leadingExponent then
        d.positional document.wholeSuffix else d.scientific document.plus).toList := by
      split
      · rcases le_or_gt 0 d.exponent with he | he
        · exact isUnsigned_of_nonneg hd he
        · exact isUnsigned_of_neg hd he
      · exact isUnsigned_scientific hd
    obtain ⟨n, hn, hsign, htext⟩ := hunsigned
    obtain ⟨m, hm, hmtext⟩ := hn.exists_signed hsign negative
    refine ⟨m, hm, ?_⟩
    rw [hmtext, htext, ← String.toList_append]
    rfl

theorem document_of_isFinite {x : Binary64} (hx : x.isFinite = true) :
    ∃ n : Number, n.Proper ∧ n.text = (document.render x).toList := by
  obtain ⟨negative, mantissa, exponent, hvalue⟩ := x.isFinite_iff.mp hx
  exact exists_text_eq_document hvalue

theorem document_of_not_isFinite {x : Binary64} (hx : x.isFinite = false) :
    document.render x = "null" := by
  unfold render
  split
  · rfl
  · rfl
  · next hvalue => exact absurd (x.isFinite_iff.mpr ⟨_, _, _, hvalue⟩) (by simp [hx])
  · next hvalue => exact absurd (x.isFinite_iff.mpr ⟨_, _, _, hvalue⟩) (by simp [hx])

end NumberLayout

end SubspaceEigen
