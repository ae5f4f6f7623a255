import Mathlib.Data.List.DropRight
import SubspaceEigen.Proofs.Json.Numbers

/-!
# Objects read as they are written

Values on one line each, between braces: the reader finds every field with its value, in order.  The
reader carries fuel, and the length of the text is enough of it.
-/

namespace SubspaceEigen.Json

variable {rest : List Char} {fuel : ℕ}

/-- The value that a text stands for, whatever follows the text that cannot continue a number. -/
def Value.Written (v : Value) (s : List Char) : Prop :=
  ∀ fuel rest, s.length ≤ fuel → EndsNumber rest →
    readValue? (fuel + 1) (s ++ rest) = some (v, rest)

theorem parse?_eq_some {v : Value} {s : String} {cs : List Char} (hs : s.toList = cs)
    (h : readValue? (cs.length + 1) cs = some (v, [])) : parse? s = some v := by
  simp [parse?, hs, h, skipSpace]

theorem parse?_of_written {v : Value} {s : String} (h : v.Written s.toList) :
    parse? s = some v := by
  have hread := h s.toList.length [] (Nat.le_refl _) endsNumber_nil
  rw [List.append_nil] at hread
  exact parse?_eq_some rfl hread

theorem written_null : Value.null.Written "null".toList := by
  intro fuel rest _ _
  simp [readValue?, skipSpace]

theorem Number.Proper.exists_text_eq_cons {n : Number} (hn : n.Proper) :
    ∃ c others, n.text = c :: others ∧ (c = '-' ∨ c.isDigit = true) := by
  obtain ⟨negative, whole, fraction, exponent⟩ := n
  cases negative with
  | true => exact ⟨'-', _, rfl, .inl rfl⟩
  | false =>
    obtain ⟨c, others, rfl⟩ := List.exists_cons_of_ne_nil hn.whole.ne_nil
    exact ⟨c, _, rfl, .inr (hn.whole.isDigit c (by simp))⟩

theorem written_number {n : Number} (hn : n.Proper) : (Value.number n).Written n.text := by
  intro fuel rest _ hrest
  have hread := readNumber?_append hn hrest
  obtain ⟨c, others, heq, hc⟩ := hn.exists_text_eq_cons
  rw [heq, List.cons_append] at hread ⊢
  have hother : c ≠ ' ' ∧ c ≠ '\n' ∧ c ≠ '\t' ∧ c ≠ '\r' ∧ c ≠ 'n' ∧ c ≠ 't' ∧ c ≠ 'f' ∧
      c ≠ '"' ∧ c ≠ '[' ∧ c ≠ '{' := by
    refine ⟨?_, ?_, ?_, ?_, ?_, ?_, ?_, ?_, ?_, ?_⟩ <;> (rintro rfl; revert hc; decide)
  simp [readValue?, skipSpace, hother, hread]

/-- A text that needs no escapes. -/
def Plain (s : List Char) : Prop :=
  ∀ c ∈ s, c ≠ '"' ∧ c ≠ '\\' ∧ 0x20 ≤ c.toNat

instance (s : List Char) : Decidable (Plain s) :=
  List.decidableBAll (fun c => c ≠ '"' ∧ c ≠ '\\' ∧ 0x20 ≤ c.toNat) s

theorem readText?_append {s : List Char} (hs : Plain s) (hfuel : s.length ≤ fuel)
    (rest : List Char) :
    readText? (fuel + 1) (s ++ '"' :: rest) = some (s, rest) := by
  induction s generalizing fuel with
  | nil => rfl
  | cons c s ih =>
    obtain ⟨hquote, hescape, hcontrol⟩ := hs c List.mem_cons_self
    obtain ⟨fuel, rfl⟩ : ∃ k, fuel = k + 1 := ⟨fuel - 1, by simp at hfuel; omega⟩
    have hrec := ih (fun x hx => hs x (List.mem_cons_of_mem c hx))
      (by simpa using hfuel : s.length ≤ fuel)
    simp [readText?, hescape, hcontrol, hrec]

theorem written_text {s : String} (hs : Plain s.toList) :
    (Value.text s).Written ("\"" ++ s ++ "\"").toList := by
  intro fuel rest hfuel _
  have hlength : s.toList.length + 2 ≤ fuel := by
    simp at hfuel
    omega
  obtain ⟨fuel, rfl⟩ : ∃ k, fuel = k + 1 := ⟨fuel - 1, by omega⟩
  have hread := readText?_append hs (by omega : s.toList.length ≤ fuel) rest
  simp [readValue?, skipSpace, hread]

theorem readValue?_space (s : List Char) :
    readValue? (fuel + 1) (' ' :: s) = readValue? (fuel + 1) s := by
  simp [readValue?, skipSpace]

theorem readFields?_newline (s : List Char) :
    readFields? (fuel + 1) ('\n' :: s) = readFields? (fuel + 1) s := by
  simp [readFields?, skipSpace]

theorem readFields?_skipSpace (s : List Char) :
    readFields? (fuel + 1) (skipSpace s) = readFields? (fuel + 1) s := by
  have htwice : skipSpace (skipSpace s) = skipSpace s := List.dropWhile_idempotent _ s
  simp [readFields?, htwice]

def fieldLine (name : String) (s : List Char) : List Char :=
  [' ', ' ', '"'] ++ name.toList ++ ['"', ':', ' '] ++ s

section Line

variable {v : Value} {name : String} {s : List Char}

/-- A line holds the name of the field and, after a colon, its value. -/
theorem exists_parts_fieldLine (hname : Plain name.toList) (hv : v.Written s)
    (hfuel : (fieldLine name s).length ≤ fuel) (hrest : EndsNumber rest) :
    ∃ afterQuote afterName afterColon,
      skipSpace (fieldLine name s ++ rest) = '"' :: afterQuote ∧
        readText? fuel afterQuote = some (name.toList, afterName) ∧
        skipSpace afterName = ':' :: afterColon ∧ readValue? fuel afterColon = some (v, rest) := by
  have hlength : s.length + name.toList.length + 6 ≤ fuel := by
    simp [fieldLine] at hfuel ⊢
    omega
  obtain ⟨fuel, rfl⟩ : ∃ k, fuel = k + 1 := ⟨fuel - 1, by omega⟩
  refine ⟨name.toList ++ '"' :: ':' :: ' ' :: (s ++ rest), ':' :: ' ' :: (s ++ rest),
    ' ' :: (s ++ rest), ?_, ?_, ?_, ?_⟩
  · simp [fieldLine, skipSpace]
  · exact readText?_append hname (by omega) _
  · simp [skipSpace]
  · rw [readValue?_space]
    exact hv fuel rest (by omega) hrest

/-- After a comma the object goes on. -/
theorem readFields?_line (hname : Plain name.toList) (hv : v.Written s)
    (hfuel : (fieldLine name s).length ≤ fuel) :
    readFields? (fuel + 1) (fieldLine name s ++ ',' :: rest) =
      (readFields? fuel rest).bind fun (fields, rest) => some ((name, v) :: fields, rest) := by
  have hcomma : skipSpace (',' :: rest) = ',' :: rest := by simp [skipSpace]
  obtain ⟨_, _, _, hopen, hname, hcolon, hvalue⟩ :=
    exists_parts_fieldLine hname hv hfuel (by simp : EndsNumber (',' :: rest))
  rw [readFields?, hopen]
  simp [hname, hcolon, hvalue, hcomma]

/-- At a closing brace it ends. -/
theorem readFields?_lastLine (hname : Plain name.toList) (hv : v.Written s)
    (hfuel : (fieldLine name s).length ≤ fuel) :
    readFields? (fuel + 1) (fieldLine name s ++ '\n' :: '}' :: rest) =
      some ([(name, v)], rest) := by
  have hbrace : skipSpace ('\n' :: '}' :: rest) = '}' :: rest := by simp [skipSpace]
  obtain ⟨_, _, _, hopen, hname, hcolon, hvalue⟩ :=
    exists_parts_fieldLine hname hv hfuel (by simp : EndsNumber ('\n' :: '}' :: rest))
  rw [readFields?, hopen]
  simp [hname, hcolon, hvalue, hbrace]

end Line

section Lines

variable {ι : Type} {name : ι → String} {text : ι → List Char} {value : ι → Value}

/-- The lines of an object, one for each of some fields. -/
def fieldLines (name : ι → String) (text : ι → List Char) (fs : List ι) : List Char :=
  List.intercalate [',', '\n'] (fs.map fun i => fieldLine (name i) (text i))

theorem fieldLines_cons_cons (f g : ι) (fs : List ι) :
    fieldLines name text (f :: g :: fs) =
      fieldLine (name f) (text f) ++ ',' :: '\n' :: fieldLines name text (g :: fs) := by
  simp [fieldLines, List.intercalate_cons_cons]

theorem skipSpace_fieldLines (name : ι → String) (text : ι → List Char) (f : ι) (fs : List ι)
    (rest : List Char) :
    ∃ s, skipSpace (fieldLines name text (f :: fs) ++ rest) = '"' :: s := by
  cases fs with
  | nil => simp [fieldLines, fieldLine, skipSpace]
  | cons g fs => simp [fieldLines_cons_cons, fieldLine, skipSpace]

/-- Reading the lines of an object up to its closing brace. -/
theorem readFields?_lines (hname : ∀ i, Plain (name i).toList)
    (hvalue : ∀ i, (value i).Written (text i)) (f : ι) (fs : List ι)
    (hfuel : (fieldLines name text (f :: fs)).length ≤ fuel) (rest : List Char) :
    readFields? (fuel + 1) (fieldLines name text (f :: fs) ++ '\n' :: '}' :: rest) =
      some ((f :: fs).map fun i => (name i, value i), rest) := by
  induction fs generalizing f fuel with
  | nil =>
    simp only [fieldLines, List.map_cons, List.map_nil, List.intercalate_singleton] at hfuel ⊢
    exact readFields?_lastLine (hname f) (hvalue f) hfuel
  | cons g fs ih =>
    rw [fieldLines_cons_cons] at hfuel ⊢
    simp only [List.length_append, List.length_cons] at hfuel
    obtain ⟨fuel, rfl⟩ : ∃ k, fuel = k + 1 := ⟨fuel - 1, by omega⟩
    have hrec := ih g (by omega : (fieldLines name text (g :: fs)).length ≤ fuel)
    rw [List.append_assoc, List.cons_append, List.cons_append,
      readFields?_line (hname f) (hvalue f) (by omega), readFields?_newline, hrec]
    rfl

theorem written_object (hname : ∀ i, Plain (name i).toList)
    (hvalue : ∀ i, (value i).Written (text i)) (f : ι) (fs : List ι) :
    (Value.object ((f :: fs).map fun i => (name i, value i))).Written
      ('{' :: '\n' :: fieldLines name text (f :: fs) ++ ['\n', '}']) := by
  intro fuel rest hfuel _
  simp only [List.length_append, List.length_cons] at hfuel
  obtain ⟨fuel, rfl⟩ : ∃ k, fuel = k + 1 := ⟨fuel - 1, by omega⟩
  have hread := readFields?_lines hname hvalue f fs
    (by omega : (fieldLines name text (f :: fs)).length ≤ fuel) rest
  obtain ⟨s, hstart⟩ := skipSpace_fieldLines name text f fs ('\n' :: '}' :: rest)
  have hopen : skipSpace ('\n' :: (fieldLines name text (f :: fs) ++ '\n' :: '}' :: rest)) =
      '"' :: s := by
    rw [← hstart]
    simp [skipSpace]
  rw [← readFields?_skipSpace, hstart] at hread
  have hbrace : skipSpace ('{' :: '\n' :: fieldLines name text (f :: fs) ++ ['\n', '}'] ++ rest) =
      '{' :: '\n' :: (fieldLines name text (f :: fs) ++ '\n' :: '}' :: rest) := by
    simp [skipSpace]
  rw [readValue?, hbrace]
  simp [hopen, hread]

end Lines

end SubspaceEigen.Json
