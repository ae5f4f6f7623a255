import Mathlib.Data.List.Induction
import SubspaceEigen.Conjugates

/-!
# What pairing does with a spectrum

Values are paired in a single pass, and each one closes the first open value that it matches.
Matching is by a tolerance and not transitive, so a value may fit several others; still no index is
used twice, none is lost, and what stays open holds no further match.  All this is a matter of the
order in which values are taken in, and holds in every arithmetic, undefined and infinite parts
included.
-/

namespace SubspaceEigen

variable {α : Type}

namespace Conjugates

def Entry.members (entry : Entry α) : List ℕ :=
  entry.index :: entry.partner.toList

/-- The entries as pairs of indices, as far as they are closed. -/
def closed (entries : List (Entry α)) : List (ℕ × ℕ) :=
  entries.filterMap fun entry => entry.partner.map fun partner => (entry.index, partner)

/-- The entries that are still open. -/
def stillOpen (entries : List (Entry α)) : List (Entry α) :=
  entries.filter fun entry => entry.partner.isNone

section Entries

variable {entries : List (Entry α)}

/-- The indices in the pairs, together with those of the open entries, are the indices of all
entries. -/
theorem members_perm (entries : List (Entry α)) :
    (((closed entries).flatMap fun pair => [pair.1, pair.2]) ++
      (stillOpen entries).map Entry.index).Perm (entries.flatMap Entry.members) := by
  induction entries with
  | nil => exact .nil
  | cons entry rest ih =>
      cases hpartner : entry.partner with
      | none =>
          simp only [closed, stillOpen, Entry.members, hpartner, List.filterMap_cons,
            List.filter_cons, List.flatMap_cons, Option.map_none, Option.isNone_none, if_true,
            List.map_cons, Option.toList_none, List.cons_append, List.nil_append]
          exact List.perm_middle.trans (ih.cons _)
      | some partner =>
          simp only [closed, stillOpen, Entry.members, hpartner, List.filterMap_cons,
            List.filter_cons, List.flatMap_cons, Option.map_some, Option.isNone_some,
            Bool.false_eq_true, if_false, Option.toList_some, List.cons_append, List.nil_append]
          exact (ih.cons _).cons _

theorem mem_closed {pair : ℕ × ℕ} :
    pair ∈ closed entries ↔
      ∃ entry ∈ entries, entry.index = pair.1 ∧ entry.partner = some pair.2 := by
  simp only [closed, List.mem_filterMap, Option.map_eq_some_iff, Prod.ext_iff]
  constructor
  · rintro ⟨entry, hentry, partner, hpartner, hindex, rfl⟩
    exact ⟨entry, hentry, hindex, hpartner⟩
  · rintro ⟨entry, hentry, hindex, hpartner⟩
    exact ⟨entry, hentry, pair.2, hpartner, hindex, rfl⟩

theorem mapM_entries (entries : List (Entry α)) :
    (entries.mapM fun entry => match entry.partner with
      | some partner => (.ok (entry.index, partner) : Except (Error α) (ℕ × ℕ))
      | none => .error (.unpaired entry.index entry.value)) =
    match stillOpen entries with
      | [] => .ok (closed entries)
      | entry :: _ => .error (.unpaired entry.index entry.value) := by
  induction entries with
  | nil => rfl
  | cons entry rest ih =>
      rw [List.mapM_cons, ih]
      cases hpartner : entry.partner with
      | none => simp [stillOpen, hpartner, bind, Except.bind]
      | some partner =>
          simp only [stillOpen, closed, hpartner, List.filter_cons, List.filterMap_cons,
            Option.isNone_some, Bool.false_eq_true, if_false, Option.map_some]
          cases List.filter (fun entry => entry.partner.isNone) rest with
          | nil => rfl
          | cons next later => rfl

end Entries

variable [Scalar α]

def nonReal (values : List (ComplexNumber α)) : List ℕ :=
  (values.zipIdx.filter fun v => !(v.1.im == 0)).map Prod.snd

def pairs (values : List (ComplexNumber α)) : List (ℕ × ℕ) :=
  closed (entries values)

/-- The indices that are left without a partner then. -/
def unpaired (values : List (ComplexNumber α)) : List ℕ :=
  (stillOpen (entries values)).map Entry.index

/-- Two indices of a list whose values match. -/
def MatchAt (values : List (ComplexNumber α)) (i j : ℕ) : Prop :=
  ∃ z w, values[i]? = some z ∧ values[j]? = some w ∧
    Scalar.abs (z.re - w.re) < tolerance ∧ Scalar.abs (z.im + w.im) < tolerance

/-- The values that are not real fall into pairs of conjugates and a rest without any. -/
structure Partitions (values : List (ComplexNumber α)) (pairs : List (ℕ × ℕ)) (rest : List ℕ) :
    Prop where
  /-- Every index of a value that is not real occurs once, and no other index does. -/
  members : ((pairs.flatMap fun pair => [pair.1, pair.2]) ++ rest).Perm (nonReal values)
  matched : ∀ pair ∈ pairs, pair.1 < pair.2 ∧ MatchAt values pair.1 pair.2
  firsts : pairs.Pairwise fun p q => p.1 < q.1
  ascending : rest.Pairwise (· < ·)
  unmatched : rest.Pairwise fun i j => ¬ MatchAt values i j

/-- Entries that account for the values taken in so far. -/
structure Accounts (values : List (ComplexNumber α)) (entries : List (Entry α)) : Prop where
  value : ∀ entry ∈ entries, values[entry.index]? = some entry.value
  partner : ∀ entry ∈ entries, ∀ partner ∈ entry.partner,
    entry.index < partner ∧ ∃ w, values[partner]? = some w ∧ matching entry.value w = true
  sorted : entries.Pairwise fun d e => d.index < e.index
  members : (entries.flatMap Entry.members).Perm (nonReal values)
  unmatched : (stillOpen entries).Pairwise fun d e => matching d.value e.value = false

section Step

variable {values : List (ComplexNumber α)} {entries : List (Entry α)} {value : ComplexNumber α}
  {index : ℕ}

/-- A value opens an entry of its own if no open one matches it; otherwise it closes one. -/
theorem place_cases (index : ℕ) (value : ComplexNumber α) (entries : List (Entry α)) :
    ((∀ entry ∈ stillOpen entries, matching entry.value value = false) ∧
      place index value entries = entries ++ [⟨index, value, none⟩]) ∨
    ∃ before entry after, entries = before ++ entry :: after ∧ entry.partner = none ∧
      matching entry.value value = true ∧
        place index value entries = before ++ { entry with partner := some index } :: after := by
  induction entries with
  | nil => exact .inl ⟨nofun, rfl⟩
  | cons first rest ih =>
      rw [place]
      split
      · next hcloses =>
        obtain ⟨hopen, hmatch⟩ := (Bool.and_eq_true_iff).mp hcloses
        exact .inr ⟨[], first, rest, rfl, Option.isNone_iff_eq_none.mp hopen, hmatch, rfl⟩
      · next hpasses =>
        rcases ih with ⟨hnone, hplace⟩ | ⟨before, entry, after, rfl, hopen, hmatch, hplace⟩
        · refine .inl ⟨?_, by rw [hplace, List.cons_append]⟩
          intro entry hentry
          obtain ⟨hmem, hopen⟩ := List.mem_filter.mp hentry
          rcases List.mem_cons.mp hmem with rfl | hmem
          · simpa [hopen] using hpasses
          · exact hnone entry (List.mem_filter.mpr ⟨hmem, hopen⟩)
        · exact .inr ⟨first :: before, entry, after, rfl, hopen, hmatch, by rw [hplace]; rfl⟩

theorem nonReal_concat (values : List (ComplexNumber α)) (value : ComplexNumber α) :
    nonReal (values ++ [value]) =
      if value.im == 0 then nonReal values else nonReal values ++ [values.length] := by
  unfold nonReal
  rw [List.zipIdx_append, List.filter_append, List.map_append]
  by_cases hreal : value.im == 0
  · simp [hreal]
  · simp [hreal]

theorem entries_concat (values : List (ComplexNumber α)) (value : ComplexNumber α) :
    Conjugates.entries (values ++ [value]) =
      if value.im == 0 then Conjugates.entries values
      else place values.length value (Conjugates.entries values) := by
  simp [Conjugates.entries, List.zipIdx_append]

namespace Accounts

theorem index_lt (h : Accounts values entries) {entry : Entry α} (hentry : entry ∈ entries) :
    entry.index < values.length :=
  (List.getElem?_eq_some_iff.mp (h.value entry hentry)).1

/-- Further values do not change what earlier indices stand for. -/
theorem value_concat (h : Accounts values entries) (value : ComplexNumber α) :
    ∀ entry ∈ entries, (values ++ [value])[entry.index]? = some entry.value := by
  intro entry hentry
  rw [List.getElem?_append_left (h.index_lt hentry)]
  exact h.value entry hentry

theorem partner_concat (h : Accounts values entries) (value : ComplexNumber α) :
    ∀ entry ∈ entries, ∀ partner ∈ entry.partner, entry.index < partner ∧
      ∃ w, (values ++ [value])[partner]? = some w ∧ matching entry.value w = true := by
  intro entry hentry partner hpartner
  obtain ⟨hlt, w, hw, hmatch⟩ := h.partner entry hentry partner hpartner
  refine ⟨hlt, w, ?_, hmatch⟩
  rw [List.getElem?_append_left (List.getElem?_eq_some_iff.mp hw).1]
  exact hw

theorem skip (h : Accounts values entries) (hreal : (value.im == 0) = true) :
    Accounts (values ++ [value]) entries where
  value := h.value_concat value
  partner := h.partner_concat value
  sorted := h.sorted
  members := by
    rw [nonReal_concat, if_pos hreal]
    exact h.members
  unmatched := h.unmatched

theorem opened (h : Accounts values entries) (hreal : ¬ (value.im == 0) = true)
    (hnone : ∀ entry ∈ stillOpen entries, matching entry.value value = false) :
    Accounts (values ++ [value]) (entries ++ [⟨values.length, value, none⟩]) where
  value := by
    intro entry hentry
    rcases List.mem_append.mp hentry with hold | hnew
    · exact h.value_concat value entry hold
    · obtain rfl := List.mem_singleton.mp hnew
      exact List.getElem?_concat_length
  partner := by
    intro entry hentry partner hpartner
    rcases List.mem_append.mp hentry with hold | hnew
    · exact h.partner_concat value entry hold partner hpartner
    · obtain rfl := List.mem_singleton.mp hnew
      cases hpartner
  sorted := by
    refine List.pairwise_append.mpr ⟨h.sorted, List.pairwise_singleton _ _, ?_⟩
    intro entry hentry new hnew
    obtain rfl := List.mem_singleton.mp hnew
    exact h.index_lt hentry
  members := by
    rw [nonReal_concat, if_neg hreal, List.flatMap_append]
    exact h.members.append_right _
  unmatched := by
    rw [stillOpen, List.filter_append]
    refine List.pairwise_append.mpr ⟨h.unmatched, List.pairwise_singleton _ _, ?_⟩
    intro entry hentry new hnew
    obtain rfl := List.mem_singleton.mp hnew
    exact hnone entry hentry

theorem closes {before after : List (Entry α)} {entry : Entry α}
    (h : Accounts values (before ++ entry :: after)) (hreal : ¬ (value.im == 0) = true)
    (hopen : entry.partner = none) (hmatch : matching entry.value value = true) :
    Accounts (values ++ [value])
      (before ++ { entry with partner := some values.length } :: after) where
  value := by
    have hvalue := h.value_concat value
    simp only [List.forall_mem_append, List.forall_mem_cons] at hvalue ⊢
    exact hvalue
  partner := by
    have hpartner := h.partner_concat value
    simp only [List.forall_mem_append, List.forall_mem_cons] at hpartner ⊢
    refine ⟨hpartner.1, fun partner hsome => ?_, hpartner.2.2⟩
    obtain rfl := Option.mem_some.mp hsome
    exact ⟨h.index_lt (List.mem_append_right _ (List.mem_cons_self ..)), value,
      List.getElem?_concat_length, hmatch⟩
  sorted := by
    have hsorted := h.sorted
    simp only [List.pairwise_append, List.pairwise_cons, List.forall_mem_cons] at hsorted ⊢
    exact hsorted
  members := by
    have hmoved : ((before ++ { entry with partner := some values.length } :: after).flatMap
        Entry.members).Perm (((before ++ entry :: after).flatMap Entry.members) ++
          [values.length]) := by
      simp only [List.flatMap_append, List.flatMap_cons, Entry.members, hopen, Option.toList_some,
        Option.toList_none, List.append_assoc, List.cons_append, List.nil_append]
      refine (List.Perm.append_left _ (List.Perm.cons _ ?_))
      exact (List.perm_append_singleton _ _).symm
    rw [nonReal_concat, if_neg hreal]
    exact hmoved.trans (h.members.append_right _)
  unmatched := by
    refine h.unmatched.sublist ?_
    have hclosed : ({ entry with partner := some values.length } : Entry α).partner.isNone = false :=
      rfl
    simp only [stillOpen, List.filter_append, List.filter_cons, hclosed, Bool.false_eq_true,
      if_false]
    refine List.Sublist.append_left ?_ _
    split
    · exact List.sublist_cons_self _ _
    · exact List.Sublist.refl _

/-- Taking in one more value keeps the account. -/
theorem concat (h : Accounts values (Conjugates.entries values)) (value : ComplexNumber α) :
    Accounts (values ++ [value]) (Conjugates.entries (values ++ [value])) := by
  rw [entries_concat]
  split
  · next hreal => exact h.skip hreal
  · next hreal =>
    rcases place_cases values.length value (Conjugates.entries values) with
      ⟨hnone, hplace⟩ | ⟨before, entry, after, hsplit, hopen, hmatch, hplace⟩
    · rw [hplace]
      exact h.opened hreal hnone
    · rw [hplace]
      rw [hsplit] at h
      exact h.closes hreal hopen hmatch

end Accounts

theorem accounts_entries (values : List (ComplexNumber α)) :
    Accounts values (Conjugates.entries values) := by
  induction values using List.reverseRecOn with
  | nil => exact ⟨nofun, nofun, .nil, .nil, .nil⟩
  | append_singleton values value ih => exact ih.concat value

end Step

section Outcome

variable {values : List (ComplexNumber α)} {entries : List (Entry α)}

theorem matching_iff (z w : ComplexNumber α) :
    matching z w = true ↔ Scalar.abs (z.re - w.re) < tolerance ∧
      Scalar.abs (z.im + w.im) < tolerance := by
  simp [matching]

namespace Accounts

theorem matched (h : Accounts values entries) {pair : ℕ × ℕ} (hpair : pair ∈ closed entries) :
    pair.1 < pair.2 ∧ MatchAt values pair.1 pair.2 := by
  obtain ⟨entry, hentry, hindex, hpartner⟩ := mem_closed.mp hpair
  obtain ⟨hlt, w, hw, hmatch⟩ := h.partner entry hentry pair.2 hpartner
  have hvalue := h.value entry hentry
  rw [hindex] at hlt hvalue
  exact ⟨hlt, entry.value, w, hvalue, hw, (matching_iff _ _).mp hmatch⟩

theorem partitions (h : Accounts values entries) :
    Partitions values (closed entries) ((stillOpen entries).map Entry.index) where
  members := (members_perm entries).trans h.members
  matched _ hpair := h.matched hpair
  firsts := by
    refine List.pairwise_filterMap.mpr (h.sorted.imp ?_)
    intro d e hlt p hp q hq
    obtain ⟨-, -, rfl⟩ := Option.map_eq_some_iff.mp hp
    obtain ⟨-, -, rfl⟩ := Option.map_eq_some_iff.mp hq
    exact hlt
  ascending := List.pairwise_map.mpr (h.sorted.sublist List.filter_sublist)
  unmatched := by
    refine List.pairwise_map.mpr (h.unmatched.imp_of_mem ?_)
    rintro d e hd he hno ⟨z, w, hz, hw, hmatch⟩
    rw [h.value d (List.mem_filter.mp hd |>.1)] at hz
    rw [h.value e (List.mem_filter.mp he |>.1)] at hw
    obtain rfl := Option.some.inj hz
    obtain rfl := Option.some.inj hw
    rw [(matching_iff _ _).mpr hmatch] at hno
    cases hno

end Accounts

end Outcome

end Conjugates

open Conjugates in
/-- The pairs are given if no entry is left open. -/
theorem pairConjugates_eq [Scalar α] (values : List (ComplexNumber α)) :
    pairConjugates values = match stillOpen (entries values) with
      | [] => .ok (pairs values)
      | entry :: _ => .error (.unpaired entry.index entry.value) :=
  mapM_entries (entries values)

open Conjugates in
/-- Pairing splits the values that are not real into pairs of conjugates and a rest in which no two
are conjugates.  It gives the pairs if nothing is left, and otherwise reports the least index that
is left, with its value. -/
theorem pairConjugates_partitions [Scalar α] (values : List (ComplexNumber α)) :
    Partitions values (pairs values) (unpaired values) ∧
      match unpaired values with
      | [] => pairConjugates values = .ok (pairs values)
      | index :: _ => ∃ value, values[index]? = some value ∧
          pairConjugates values = .error (.unpaired index value) := by
  have haccounts := accounts_entries values
  refine ⟨haccounts.partitions, ?_⟩
  rw [pairConjugates_eq, unpaired]
  cases hopen : stillOpen (entries values) with
  | nil => rfl
  | cons entry rest =>
      have hentry : entry ∈ entries values :=
        (List.mem_filter.mp (hopen ▸ List.mem_cons_self : entry ∈ stillOpen _)).1
      exact ⟨entry.value, haccounts.value entry hentry, rfl⟩

end SubspaceEigen
