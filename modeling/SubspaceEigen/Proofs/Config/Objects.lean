import SubspaceEigen.Proofs.Config.Document

/-!
# Configurations from any object

An object decodes exactly if its names are different names of fields and every value is one for its
field.  The configuration has these values in the fields that are named and the defaults in the
others, so the order in the document does not matter.  Only what decodes is validated.
-/

namespace SubspaceEigen.Config

open Json

namespace Field

/-- What a field holds. -/
def Content : Field → Type
  | .maxIterations => UInt64
  | .searchLimit => Option UInt64
  | .tolerance => Binary64
  | .correction => CorrectionScheme
  | .sizePolicy => SizePolicy
  | .orthogonalization => Orthogonalization
  | .kind => OperatorKind
  | .guessNoise => Binary64
  | .seed => UInt64

def get (c : Config Binary64) : (f : Field) → f.Content
  | .maxIterations => c.maxIterations
  | .searchLimit => c.searchLimit
  | .tolerance => c.tolerance
  | .correction => c.correction
  | .sizePolicy => c.sizePolicy
  | .orthogonalization => c.orthogonalization
  | .kind => c.kind
  | .guessNoise => c.guessNoise
  | .seed => c.seed

def set (c : Config Binary64) : (f : Field) → f.Content → Config Binary64
  | .maxIterations, x => { c with maxIterations := x }
  | .searchLimit, x => { c with searchLimit := x }
  | .tolerance, x => { c with tolerance := x }
  | .correction, x => { c with correction := x }
  | .sizePolicy, x => { c with sizePolicy := x }
  | .orthogonalization, x => { c with orthogonalization := x }
  | .kind, x => { c with kind := x }
  | .guessNoise, x => { c with guessNoise := x }
  | .seed, x => { c with seed := x }

/-- What a value in a document means for a field. -/
def read? : (f : Field) → Value → Option f.Content
  | .maxIterations, value => word? value
  | .searchLimit, .null => some none
  | .searchLimit, value => (word? value).map some
  | .tolerance, .text s => (Tolerance.parse s).toOption
  | .tolerance, value => measure? value
  | .correction, value => choice? CorrectionScheme.vocabulary value
  | .sizePolicy, value => choice? SizePolicy.vocabulary value
  | .orthogonalization, value => choice? Orthogonalization.vocabulary value
  | .kind, value => choice? OperatorKind.vocabulary value
  | .guessNoise, value => measure? value
  | .seed, value => word? value

variable {c d : Config Binary64} {f g : Field}

theorem get_set_self (c : Config Binary64) (f : Field) (x : f.Content) : get (set c f x) f = x := by
  cases f <;> rfl

theorem get_set_of_ne (hne : g ≠ f) (x : f.Content) : get (set c f x) g = get c g := by
  cases f <;> cases g <;> first | rfl | exact absurd rfl hne

theorem eq_of_get (h : ∀ f, get c f = get d f) : c = d := by
  cases c
  cases d
  rw [Config.mk.injEq]
  exact ⟨h .maxIterations, h .searchLimit, h .tolerance, h .correction, h .sizePolicy,
    h .orthogonalization, h .kind, h .guessNoise, h .seed⟩

theorem toOption_parse (s : String) : (Tolerance.parse s).toOption = Tolerance.parse? s := by
  rw [Tolerance.parse]
  cases Tolerance.parse? s <;> rfl

theorem assign?_eq (c : Config Binary64) (f : Field) (value : Value) :
    assign? c f value = (f.read? value).map (set c f) := by
  cases f with
  | searchLimit =>
      have hword : ∀ w : Option UInt64, (w.map fun n => { c with searchLimit := some n }) =
          (w.map some).map fun limit => { c with searchLimit := limit } := by
        intro w
        cases w <;> rfl
      cases value with
      | number n => exact hword _
      | _ => rfl
  | tolerance =>
      cases value with
      | text s =>
          rw [read?, toOption_parse]
          rfl
      | _ => rfl
  | _ => rfl

theorem name_of_ofName? {name : String} (h : ofName? name = some f) : f.name = name := by
  have hfound := List.find?_some h
  exact eq_of_beq hfound

theorem name_injective : Function.Injective name := fun f g h =>
  Option.some.inj ((ofName?_name f).symm.trans ((congrArg ofName? h).trans (ofName?_name g)))

theorem entry_inj {v w : Value} (h : (f.name, v) = (g.name, w)) : f = g ∧ v = w := by
  obtain ⟨hname, hvalue⟩ := Prod.mk.inj h
  exact ⟨name_injective hname, hvalue⟩

end Field

/-- The names are different names of fields, and every value is one for its field. -/
structure WellFormed (fields : List (String × Value)) : Prop where
  distinct : (fields.map Prod.fst).Nodup
  known : ∀ name ∈ fields.map Prod.fst, ∃ f : Field, f.name = name
  decodes : ∀ (f : Field) (value : Value), (f.name, value) ∈ fields → ∃ x, f.read? value = some x

/-- The configuration `d` has the values given for the fields that are named, and is `c` in the
others. -/
structure Replaces (c : Config Binary64) (fields : List (String × Value)) (d : Config Binary64) :
    Prop where
  given : ∀ (f : Field) (value : Value), (f.name, value) ∈ fields →
    f.read? value = some (Field.get d f)
  kept : ∀ f : Field, f.name ∉ fields.map Prod.fst → Field.get d f = Field.get c f

section Objects

variable {c d d' : Config Binary64} {fields fields' : List (String × Value)}

theorem Replaces.unique (h : Replaces c fields d) (h' : Replaces c fields d') : d = d' := by
  refine Field.eq_of_get fun f => ?_
  by_cases hnamed : f.name ∈ fields.map Prod.fst
  · obtain ⟨⟨name, value⟩, hmem, rfl⟩ := List.mem_map.mp hnamed
    exact Option.some.inj ((h.given f value hmem).symm.trans (h'.given f value hmem))
  · rw [h.kept f hnamed, h'.kept f hnamed]

theorem Replaces.perm (h : Replaces c fields d) (hperm : fields.Perm fields') :
    Replaces c fields' d where
  given f value hmem := h.given f value (hperm.mem_iff.mpr hmem)
  kept f hnamed := h.kept f fun hmem => hnamed ((hperm.map _).mem_iff.mp hmem)

theorem WellFormed.perm (h : WellFormed fields) (hperm : fields.Perm fields') :
    WellFormed fields' where
  distinct := (hperm.map _).nodup_iff.mp h.distinct
  known name hmem := h.known name ((hperm.map _).mem_iff.mpr hmem)
  decodes f value hmem := h.decodes f value (hperm.mem_iff.mpr hmem)

section Cons

variable {f : Field} {value : Value} {x : f.Content}

theorem wellFormed_nil : WellFormed [] :=
  ⟨List.nodup_nil, nofun, nofun⟩

theorem WellFormed.cons (hx : f.read? value = some x) (hnew : f.name ∉ fields.map Prod.fst)
    (h : WellFormed fields) : WellFormed ((f.name, value) :: fields) where
  distinct := List.nodup_cons.mpr ⟨hnew, h.distinct⟩
  known name hmem := by
    rcases List.mem_cons.mp hmem with rfl | hmem
    · exact ⟨f, rfl⟩
    · exact h.known name hmem
  decodes g v hmem := by
    rcases List.mem_cons.mp hmem with heq | hmem
    · obtain ⟨rfl, rfl⟩ := Field.entry_inj heq
      exact ⟨x, hx⟩
    · exact h.decodes g v hmem

theorem WellFormed.tail {name : String} (h : WellFormed ((name, value) :: fields)) :
    WellFormed fields where
  distinct := (List.nodup_cons.mp h.distinct).2
  known name hmem := h.known name (List.mem_cons_of_mem _ hmem)
  decodes f value hmem := h.decodes f value (List.mem_cons_of_mem _ hmem)

theorem replaces_nil (c : Config Binary64) : Replaces c [] c :=
  ⟨nofun, fun _ _ => rfl⟩

theorem Replaces.cons (hx : f.read? value = some x) (hnew : f.name ∉ fields.map Prod.fst)
    (h : Replaces (Field.set c f x) fields d) : Replaces c ((f.name, value) :: fields) d where
  given g v hmem := by
    rcases List.mem_cons.mp hmem with heq | hmem
    · obtain ⟨rfl, rfl⟩ := Field.entry_inj heq
      rw [h.kept g hnew, Field.get_set_self, hx]
    · exact h.given g v hmem
  kept g hnamed := by
    obtain ⟨hne, hrest⟩ := not_or.mp (mt List.mem_cons.mpr hnamed)
    rw [h.kept g hrest, Field.get_set_of_ne fun heq => hne (congrArg Field.name heq)]

end Cons

/-- Fields that are not yet assigned are assigned all at once. -/
theorem Field.assignAll?_of_wellFormed (h : WellFormed fields) {seen : List Field}
    (hseen : ∀ f ∈ seen, f.name ∉ fields.map Prod.fst) (c : Config Binary64) :
    ∃ d, assignAll? c seen fields = some d ∧ Replaces c fields d := by
  induction fields generalizing c seen with
  | nil => exact ⟨c, rfl, replaces_nil c⟩
  | cons entry fields ih =>
    obtain ⟨name, value⟩ := entry
    obtain ⟨f, rfl⟩ := h.known name List.mem_cons_self
    obtain ⟨x, hx⟩ := h.decodes f value List.mem_cons_self
    have hnew : f.name ∉ fields.map Prod.fst := (List.nodup_cons.mp h.distinct).1
    have hunseen : f ∉ seen := fun hmem => hseen f hmem List.mem_cons_self
    have hrest : ∀ g ∈ f :: seen, g.name ∉ fields.map Prod.fst := by
      intro g hg
      rcases List.mem_cons.mp hg with rfl | hg
      · exact hnew
      · exact fun hmem => hseen g hg (List.mem_cons_of_mem _ hmem)
    obtain ⟨d, hd, hreplaces⟩ := ih h.tail hrest (set c f x)
    refine ⟨d, ?_, hreplaces.cons hx hnew⟩
    rw [assignAll?, ofName?_name, ← hd]
    simp [hunseen, assign?_eq, hx]

/-- What is assigned is well-formed, and has no field that was assigned before. -/
theorem Field.wellFormed_of_assignAll? {seen : List Field}
    (h : assignAll? c seen fields = some d) :
    WellFormed fields ∧ ∀ f ∈ seen, f.name ∉ fields.map Prod.fst := by
  induction fields generalizing c seen with
  | nil => exact ⟨wellFormed_nil, fun _ _ => List.not_mem_nil⟩
  | cons entry fields ih =>
    obtain ⟨name, value⟩ := entry
    obtain ⟨f, hf, hbody⟩ := Option.bind_eq_some_iff.mp h
    obtain rfl := name_of_ofName? hf
    obtain ⟨hunseen, hbody⟩ := Option.ite_none_left_eq_some.mp hbody
    obtain ⟨c', hassign, hrest⟩ := Option.bind_eq_some_iff.mp hbody
    rw [assign?_eq] at hassign
    obtain ⟨x, hx, -⟩ := Option.map_eq_some_iff.mp hassign
    obtain ⟨hwell, hseen⟩ := ih hrest
    have hnew : f.name ∉ fields.map Prod.fst := hseen f List.mem_cons_self
    refine ⟨hwell.cons hx hnew, fun g hg hmem => ?_⟩
    rcases List.mem_cons.mp hmem with heq | hmem
    · obtain rfl := name_injective heq
      exact hunseen (List.contains_iff_mem.mpr hg)
    · exact hseen g (List.mem_cons_of_mem f hg) hmem

variable {s s' : String}

/-- A well-formed object decodes to the defaults with its fields replaced, which are validated. -/
theorem exists_ofDocument_eq (hs : parse? s = some (.object fields)) (h : WellFormed fields) :
    ∃ c, Replaces standard fields c ∧ ofDocument s = c.validate.map fun _ => c := by
  have hseen : ∀ f ∈ ([] : List Field), f.name ∉ fields.map Prod.fst := by simp
  obtain ⟨c, hc, hreplaces⟩ := Field.assignAll?_of_wellFormed h hseen standard
  refine ⟨c, hreplaces, ?_⟩
  rw [ofDocument_eq, hs, Option.bind_some, ofValue?, hc]

theorem ofDocument_of_not_wellFormed (hs : parse? s = some (.object fields))
    (h : ¬ WellFormed fields) : ofDocument s = .error .document := by
  have hnone : Field.assignAll? standard [] fields = none := by
    by_contra hsome
    obtain ⟨c, hc⟩ := Option.ne_none_iff_exists'.mp hsome
    exact h (Field.wellFormed_of_assignAll? hc).1
  rw [ofDocument_eq, hs, Option.bind_some, ofValue?, hnone]

theorem ofDocument_of_perm (hs : parse? s = some (.object fields))
    (hs' : parse? s' = some (.object fields')) (hperm : fields.Perm fields') :
    ofDocument s' = ofDocument s := by
  by_cases h : WellFormed fields
  · obtain ⟨c, hc, hdocument⟩ := exists_ofDocument_eq hs h
    obtain ⟨c', hc', hdocument'⟩ := exists_ofDocument_eq hs' (h.perm hperm)
    obtain rfl := (hc.perm hperm).unique hc'
    rw [hdocument, hdocument']
  · rw [ofDocument_of_not_wellFormed hs h,
      ofDocument_of_not_wellFormed hs' fun h' => h (h'.perm hperm.symm)]

theorem read?_tolerance_text_iff {text : String} {x : Binary64} :
    Field.tolerance.read? (.text text) = some x ↔ Tolerance.parse text = .ok x := by
  show (Tolerance.parse text).toOption = some x ↔ _
  cases Tolerance.parse text <;> simp [Except.toOption]

end Objects

/-- An object decodes exactly if it is well-formed.  Its configuration is the one that replaces the
fields that are named; it is returned if it is valid, and refused for its first defect if it is not.
The order of the fields does not matter.  A tolerance given as a text is what the setting of that
text stores. -/
theorem ofDocument_object {s : String} {fields : List (String × Value)}
    (hs : parse? s = some (.object fields)) :
    (WellFormed fields → ∃ c, (∀ d, Replaces standard fields d ↔ d = c) ∧
      (c.validate = .ok () → ofDocument s = .ok c) ∧
        ∀ cause, c.defect? = some cause → ofDocument s = .error (.setting cause)) ∧
    (¬ WellFormed fields → ofDocument s = .error .document) ∧
    (∀ (s' : String) (fields' : List (String × Value)), parse? s' = some (.object fields') →
      fields.Perm fields' → ofDocument s' = ofDocument s) ∧
    ∀ text : String,
      ((∃ x, Field.tolerance.read? (.text text) = some x) ↔ ∃ x, Tolerance.parse text = .ok x) ∧
        ((Field.tolerance.name, .text text) ∈ fields → ∀ c, Replaces standard fields c →
          ∀ d : Config Binary64, d.setTolerance text = .ok { d with tolerance := c.tolerance }) := by
  refine ⟨fun h => ?_, ofDocument_of_not_wellFormed hs, fun s' fields' hs' hperm =>
    ofDocument_of_perm hs hs' hperm, fun text => ⟨?_, fun hmem c hc d => ?_⟩⟩
  · obtain ⟨c, hc, hdocument⟩ := exists_ofDocument_eq hs h
    refine ⟨c, fun d => ⟨fun hd => hd.unique hc, fun hd => hd ▸ hc⟩, fun hvalid => ?_,
      fun cause hcause => ?_⟩
    · rw [hdocument, hvalid]
      rfl
    · rw [hdocument, validate, hcause]
      rfl
  · exact exists_congr fun x => read?_tolerance_text_iff
  · have hparse := read?_tolerance_text_iff.mp (hc.given .tolerance _ hmem)
    rw [setTolerance, hparse]
    rfl

/-- Two fields in two orders, with a tolerance given by name; and a field that is given twice. -/
theorem ofDocument_object_of_two :
    let s := "\x7b\"max_iter\": 7, \"tolerance\": \"tight\"\x7d"
    let s' := "\x7b\"tolerance\": \"tight\", \"max_iter\": 7\x7d"
    let twice := "\x7b\"max_iter\": 0, \"max_iter\": 0\x7d"
    let c : Config Binary64 := { Config.standard with maxIterations := 7, tolerance := 1e-6 }
    ofDocument s = .ok c ∧ ofDocument s' = ofDocument s ∧ ofDocument twice = .error .document := by
  intro s s' twice c
  let rounds : String × Value := (Field.maxIterations.name, .number ⟨false, ['7'], [], none⟩)
  let tight : String × Value := (Field.tolerance.name, .text "tight")
  let zero : String × Value := (Field.maxIterations.name, .number ⟨false, ['0'], [], none⟩)
  have hs : parse? s = some (.object [rounds, tight]) :=
    parse?_eq_some String.toList_ofList (by rfl)
  have hs' : parse? s' = some (.object [tight, rounds]) :=
    parse?_eq_some String.toList_ofList (by rfl)
  have htwice : parse? twice = some (.object [zero, zero]) :=
    parse?_eq_some String.toList_ofList (by rfl)
  have hrounds : Field.maxIterations.read? rounds.2 = some (7 : UInt64) := rfl
  have htight : Field.tolerance.read? tight.2 = some (1e-6 : Binary64) := by
    have hparse : Tolerance.parse? "tight" = some 1e-6 := by decide +kernel
    exact (Field.toOption_parse "tight").trans hparse
  have hnew : rounds.1 ∉ [tight].map Prod.fst := by decide
  have hwell : WellFormed [rounds, tight] :=
    (wellFormed_nil.cons htight List.not_mem_nil).cons hrounds hnew
  have hreplaces : Replaces standard [rounds, tight] c :=
    Replaces.cons hrounds hnew (Replaces.cons htight List.not_mem_nil (replaces_nil c))
  obtain ⟨hdecodes, -, hperm, -⟩ := ofDocument_object hs
  obtain ⟨d, hd, hvalid, -⟩ := hdecodes hwell
  obtain rfl := (hd c).mp hreplaces
  have hdefect : c.defect?.isNone = true := by decide +kernel
  refine ⟨hvalid ?_, hperm s' _ hs' (List.Perm.swap _ _ _), (ofDocument_object htwice).2.1 ?_⟩
  · rw [validate, Option.isNone_iff_eq_none.mp hdefect]
  · exact fun h => absurd h.distinct (by decide)

end SubspaceEigen.Config
