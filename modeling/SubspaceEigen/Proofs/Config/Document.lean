import SubspaceEigen.Config.Document
import SubspaceEigen.Proofs.Config.Validation
import SubspaceEigen.Proofs.Json.Layout
import SubspaceEigen.Proofs.Json.Objects

/-!
# Configurations read back from their documents

Every setting of a configuration is written so that its field reads it back as it was, but for the
two measures: what the text of a number gives back is that number only where the reader, which
scales by powers of ten in floating point, hits it.  A measure that is not finite is written as
`null` and refused.  The configuration read back is then validated, as any other is.
-/

namespace SubspaceEigen

/-- Every value is read back from the name written for it. -/
def Vocabulary.Faithful {β : Type} [BEq β] (v : Vocabulary β) : Prop :=
  ∀ value, v.decode? (v.encode value) = some value ∧ Json.Plain (v.encode value).toList

theorem CorrectionScheme.faithful : CorrectionScheme.vocabulary.Faithful := by
  intro value
  cases value <;> decide

theorem SizePolicy.faithful : SizePolicy.vocabulary.Faithful := by
  intro value
  cases value <;> decide

theorem Orthogonalization.faithful : Orthogonalization.vocabulary.Faithful := by
  intro value
  cases value <;> decide

theorem OperatorKind.faithful : OperatorKind.vocabulary.Faithful := by
  intro value
  cases value <;> decide

namespace Config

open Json

variable {c d : Config Binary64}

namespace Field

theorem ofName?_name (f : Field) : ofName? f.name = some f := by
  cases f <;> decide

theorem plain_name (f : Field) : Plain f.name.toList := by
  cases f <;> decide

/-- What a document gives back for a number. -/
def reread? (x : Binary64) : Option Binary64 :=
  (parse? (NumberLayout.document.render x)).bind measure?

theorem reread?_of_not_isFinite {x : Binary64} (hx : x.isFinite = false) : reread? x = none := by
  have hnull : parse? "null" = some .null := parse?_of_written written_null
  rw [reread?, NumberLayout.document_of_not_isFinite hx, hnull]
  rfl

theorem exists_written_measure (x : Binary64) :
    ∃ v : Value, v.Written (NumberLayout.document.render x).toList ∧ measure? v = reread? x ∧
      ∀ s, v ≠ .text s := by
  cases hx : x.isFinite with
  | true =>
    obtain ⟨n, hn, htext⟩ := NumberLayout.document_of_isFinite hx
    have hwritten : (Value.number n).Written (NumberLayout.document.render x).toList :=
      htext ▸ written_number hn
    refine ⟨.number n, hwritten, ?_, nofun⟩
    rw [reread?, parse?_of_written hwritten]
    rfl
  | false =>
    refine ⟨.null, ?_, (reread?_of_not_isFinite hx).symm, nofun⟩
    rw [NumberLayout.document_of_not_isFinite hx]
    exact written_null

theorem written_word (n : UInt64) :
    (Value.number (Number.ofNat n.toNat)).Written (toString n.toNat).toList := by
  simpa using written_number (Number.proper_ofNat n.toNat)

theorem word?_ofNat (n : UInt64) : word? (.number (Number.ofNat n.toNat)) = some n := by
  have hsize := n.toNat_lt_size
  simp [word?, Number.toWord?, Number.ofNat, Number.isWhole, Decimal.digitsValue_toDigits, hsize]

/-- Give one field of `d` what a document of `c` gives back for it. -/
def restore? (c d : Config Binary64) : Field → Option (Config Binary64)
  | .maxIterations => some { d with maxIterations := c.maxIterations }
  | .searchLimit => some { d with searchLimit := c.searchLimit }
  | .tolerance => (reread? c.tolerance).map fun x => { d with tolerance := x }
  | .correction => some { d with correction := c.correction }
  | .sizePolicy => some { d with sizePolicy := c.sizePolicy }
  | .orthogonalization => some { d with orthogonalization := c.orthogonalization }
  | .kind => some { d with kind := c.kind }
  | .guessNoise => (reread? c.guessNoise).map fun x => { d with guessNoise := x }
  | .seed => some { d with seed := c.seed }

theorem exists_written_choice {β : Type} [BEq β] {v : Vocabulary β} (hv : v.Faithful) (value : β) :
    ∃ written : Value, written.Written ("\"" ++ v.encode value ++ "\"").toList ∧
      choice? v written = some value :=
  ⟨.text (v.encode value), written_text (hv value).2, (hv value).1⟩

/-- A tolerance may be given as a text; another value of it has to be a measure. -/
theorem assign?_tolerance {v : Value} (hv : ∀ s, v ≠ .text s) :
    assign? d .tolerance v = (measure? v).map fun x => { d with tolerance := x } := by
  cases v with
  | text s => exact absurd rfl (hv s)
  | _ => rfl

/-- Every field is written as a value that assigns what the document gives back. -/
theorem exists_written (c : Config Binary64) (f : Field) :
    ∃ v : Value, v.Written (f.render c).toList ∧ ∀ d, assign? d f v = restore? c d f := by
  cases f with
  | maxIterations =>
    refine ⟨_, written_word c.maxIterations, fun d => ?_⟩
    simp [assign?, restore?, word?_ofNat]
  | searchLimit =>
    cases hlimit : c.searchLimit with
    | none =>
      refine ⟨.null, ?_, fun d => ?_⟩
      · simpa [render, hlimit] using written_null
      · simp [assign?, restore?, hlimit]
    | some limit =>
      refine ⟨.number (Number.ofNat limit.toNat), ?_, fun d => ?_⟩
      · simpa [render, hlimit] using written_word limit
      · simp [assign?, restore?, hlimit, word?_ofNat]
  | tolerance =>
    obtain ⟨v, hv, hmeasure, htext⟩ := exists_written_measure c.tolerance
    refine ⟨v, hv, fun d => ?_⟩
    rw [assign?_tolerance htext, hmeasure, restore?]
  | guessNoise =>
    obtain ⟨v, hv, hmeasure, -⟩ := exists_written_measure c.guessNoise
    refine ⟨v, hv, fun d => ?_⟩
    simp [assign?, restore?, hmeasure]
  | seed =>
    refine ⟨_, written_word c.seed, fun d => ?_⟩
    simp [assign?, restore?, word?_ofNat]
  | correction =>
    obtain ⟨v, hv, hchoice⟩ := exists_written_choice CorrectionScheme.faithful c.correction
    exact ⟨v, hv, fun d => by simp [assign?, restore?, hchoice]⟩
  | sizePolicy =>
    obtain ⟨v, hv, hchoice⟩ := exists_written_choice SizePolicy.faithful c.sizePolicy
    exact ⟨v, hv, fun d => by simp [assign?, restore?, hchoice]⟩
  | orthogonalization =>
    obtain ⟨v, hv, hchoice⟩ := exists_written_choice Orthogonalization.faithful c.orthogonalization
    exact ⟨v, hv, fun d => by simp [assign?, restore?, hchoice]⟩
  | kind =>
    obtain ⟨v, hv, hchoice⟩ := exists_written_choice OperatorKind.faithful c.kind
    exact ⟨v, hv, fun d => by simp [assign?, restore?, hchoice]⟩

/-- Distinct fields, none of them seen before, are assigned one after another. -/
theorem assignAll?_map (value : Field → Value) {fs seen : List Field} (hfs : fs.Nodup)
    (hseen : ∀ f ∈ fs, f ∉ seen) (d : Config Binary64) :
    assignAll? d seen (fs.map fun f => (f.name, value f)) =
      fs.foldlM (fun d f => assign? d f (value f)) d := by
  induction fs generalizing d seen with
  | nil => rfl
  | cons f fs ih =>
    obtain ⟨hf, hfs⟩ := List.nodup_cons.mp hfs
    have hnew : f ∉ seen := hseen f List.mem_cons_self
    have hrest : ∀ g ∈ fs, g ∉ f :: seen := by
      intro g hg hmem
      rcases List.mem_cons.mp hmem with rfl | hmem
      · exact hf hg
      · exact hseen g (List.mem_cons_of_mem f hg) hmem
    rw [List.map_cons, assignAll?, ofName?_name, List.foldlM_cons]
    simp [hnew, ih hfs hrest]

end Field

/-- What a document of `c` gives back, before it is validated. -/
def reread? (c : Config Binary64) : Option (Config Binary64) := do
  let tolerance ← Field.reread? c.tolerance
  let guessNoise ← Field.reread? c.guessNoise
  return { c with tolerance := tolerance, guessNoise := guessNoise }

theorem foldlM_restore? (c d : Config Binary64) :
    Field.all.foldlM (Field.restore? c) d = c.reread? := by
  simp only [Field.all, List.foldlM, Field.restore?, reread?]
  cases Field.reread? c.tolerance <;> cases Field.reread? c.guessNoise <;> rfl

theorem toList_toDocument (c : Config Binary64) :
    c.toDocument.toList =
      '{' :: '\n' :: fieldLines Field.name (fun f => (f.render c).toList) Field.all ++
        ['\n', '}'] := by
  simp [toDocument, fieldLines, fieldLine, Function.comp_def]

theorem decode_toDocument (c : Config Binary64) :
    (parse? c.toDocument).bind ofValue? = c.reread? := by
  choose value hwritten hassign using Field.exists_written c
  have hobject : (Value.object (Field.all.map fun f => (f.name, value f))).Written
      c.toDocument.toList := by
    rw [toList_toDocument]
    exact written_object Field.plain_name hwritten _ _
  rw [parse?_of_written hobject, Option.bind_some, ofValue?,
    Field.assignAll?_map value (by decide) (by simp)]
  simp only [hassign]
  exact foldlM_restore? c standard

theorem ofDocument_eq (s : String) :
    ofDocument s =
      match (parse? s).bind ofValue? with
      | none => .error .document
      | some d => d.validate.map fun _ => d := by
  rw [ofDocument]
  cases (parse? s).bind ofValue? with
  | none => rfl
  | some d =>
    dsimp only
    cases d.validate <;> rfl

/-- Reading a document back is rereading its two measures and validating the result. -/
theorem ofDocument_toDocument (c : Config Binary64) :
    ofDocument c.toDocument =
      match c.reread? with
      | none => .error .document
      | some d => d.validate.map fun _ => d := by
  rw [ofDocument_eq, decode_toDocument]

/-- The text of a number, if it is finite, gives this number back. -/
def Field.ReadsBack (x : Binary64) : Prop :=
  x.isFinite = true → reread? x = some x

/-- Not every number does: this one comes back as the next greater one. -/
example : Field.reread? ⟨0x3f943f04a6ece53d⟩ = some ⟨0x3f943f04a6ece53e⟩ := by decide +kernel

theorem reread?_eq_none (h : c.tolerance.isFinite = false ∨ c.guessNoise.isFinite = false) :
    c.reread? = none := by
  rcases h with h | h
  · simp [reread?, Field.reread?_of_not_isFinite h]
  · simp [reread?, Field.reread?_of_not_isFinite h]

theorem reread?_eq_self (ht : Field.reread? c.tolerance = some c.tolerance)
    (hn : Field.reread? c.guessNoise = some c.guessNoise) : c.reread? = some c := by
  simp [reread?, ht, hn]

/-- A configuration whose measures read back is restored by its document if it is valid, and its
document is refused if it is not. -/
theorem document_restores (c : Config Binary64) (ht : Field.ReadsBack c.tolerance)
    (hn : Field.ReadsBack c.guessNoise) :
    (c.validate = .ok () → ofDocument c.toDocument = .ok c) ∧
      ∀ e, c.validate = .error e → ∃ e', ofDocument c.toDocument = .error e' := by
  rw [ofDocument_toDocument]
  constructor
  · intro hvalid
    obtain ⟨-, ⟨htolerance, -⟩, -, hnoise, -⟩ := validate_eq_ok_iff.mp hvalid
    rw [reread?_eq_self (ht htolerance) (hn hnoise)]
    simp [hvalid, Except.map]
  · intro e hinvalid
    by_cases hfinite : c.tolerance.isFinite = true ∧ c.guessNoise.isFinite = true
    · rw [reread?_eq_self (ht hfinite.1) (hn hfinite.2)]
      exact ⟨e, by simp [hinvalid, Except.map]⟩
    · rw [reread?_eq_none (by simpa [or_iff_not_imp_left] using hfinite)]
      exact ⟨.document, rfl⟩

/-- A configuration that differs from the standard one in every setting. -/
theorem document_restores_changed :
    let c : Config Binary64 := {
      maxIterations := 120
      searchLimit := some 40
      tolerance := 1e-6
      correction := .olsen
      sizePolicy := .max
      orthogonalization := .qr
      kind := .hamiltonian
      guessNoise := 0.25
      seed := 0xffffffffffffffff }
    c.validate = .ok () ∧ ofDocument c.toDocument = .ok c := by
  intro c
  have ht : Field.ReadsBack c.tolerance := fun _ => by decide +kernel
  have hn : Field.ReadsBack c.guessNoise := fun _ => by decide +kernel
  have hdefect : c.defect?.isNone = true := by decide +kernel
  have hvalid : c.validate = .ok () := by
    rw [validate, Option.isNone_iff_eq_none.mp hdefect]
  exact ⟨hvalid, (document_restores c ht hn).1 hvalid⟩

end Config

end SubspaceEigen
