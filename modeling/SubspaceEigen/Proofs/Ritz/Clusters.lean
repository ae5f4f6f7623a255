import Mathlib.Data.List.Perm.Subperm
import SubspaceEigen.Proofs.Ritz.Selection

/-!
# When pairing is complete

In a spectrum that is closed under conjugation every value has a partner, its own conjugate.  But a
value closes the first open one within the tolerance, and that may be the conjugate of another.
This does no harm where the two values left behind match each other.  So pairing is complete in
every order exactly if matching is closed along chains of three links, and it is not for a cluster
whose neighbours are closer than the tolerance and whose ends are farther apart.
-/

namespace SubspaceEigen

namespace Conjugates

section Waiting

variable {α : Type} [Scalar α]

def complexValues (values : List (ComplexNumber α)) : List (ComplexNumber α) :=
  values.filter fun z => !(z.im == 0)

/-- The values without a partner after all values are taken in. -/
def waiting (values : List (ComplexNumber α)) : List (ComplexNumber α) :=
  (stillOpen (entries values)).map Entry.value

def accept : List (ComplexNumber α) → ComplexNumber α → List (ComplexNumber α)
  | [], z => [z]
  | w :: rest, z => if matching w z then rest else w :: accept rest z

theorem complexValues_concat (values : List (ComplexNumber α)) (z : ComplexNumber α) :
    complexValues (values ++ [z]) =
      if z.im == 0 then complexValues values else complexValues values ++ [z] := by
  by_cases hreal : z.im == 0
  · simp [complexValues, hreal]
  · simp [complexValues, hreal]

theorem waiting_place (index : ℕ) (z : ComplexNumber α) (entries : List (Entry α)) :
    (stillOpen (place index z entries)).map Entry.value =
      accept ((stillOpen entries).map Entry.value) z := by
  induction entries with
  | nil => rfl
  | cons entry rest ih =>
      rw [place]
      by_cases hopen : entry.partner.isNone
      · by_cases hmatch : matching entry.value z
        · simp [stillOpen, accept, hopen, hmatch]
        · simp [stillOpen, accept, hopen, hmatch] at ih ⊢
          exact ih
      · simp [stillOpen, hopen] at ih ⊢
        exact ih

/-- Only the values that are not real count, and they count by value. -/
theorem waiting_eq_foldl (values : List (ComplexNumber α)) :
    waiting values = (complexValues values).foldl accept [] := by
  induction values using List.reverseRecOn with
  | nil => rfl
  | append_singleton values z ih =>
      rw [complexValues_concat, waiting, entries_concat]
      split
      · exact ih
      · rw [waiting_place, ← waiting, ih, List.foldl_concat]

theorem length_complexValues (values : List (ComplexNumber α)) :
    (complexValues values).length = (nonReal values).length := by
  induction values using List.reverseRecOn with
  | nil => rfl
  | append_singleton values z ih =>
      rw [complexValues_concat, nonReal_concat]
      split
      · exact ih
      · rw [List.length_append, List.length_append, ih, List.length_singleton,
          List.length_singleton]

theorem length_pairs_add_waiting (values : List (ComplexNumber α)) :
    2 * (pairs values).length + (waiting values).length = (complexValues values).length := by
  have hmembers := ((members_perm (entries values)).trans
    (accounts_entries values).members).length_eq
  have htwo : ((closed (entries values)).flatMap fun pair => [pair.1, pair.2]).length =
      2 * (closed (entries values)).length := by
    simp [List.length_flatMap, mul_comm]
  rw [length_complexValues, ← hmembers, List.length_append, htwo, waiting, pairs, List.length_map,
    List.length_map]

/-- Pairing is complete exactly if no value is left waiting. -/
theorem exists_pairs_iff (values : List (ComplexNumber α)) :
    (∃ pairs, pairConjugates values = .ok pairs ∧
      2 * pairs.length = (complexValues values).length) ↔ waiting values = [] := by
  have hlength := length_pairs_add_waiting values
  rw [pairConjugates_eq]
  constructor
  · rintro ⟨pairs, hpairs, -⟩
    split at hpairs
    · next hnone => rw [waiting, hnone, List.map_nil]
    · cases hpairs
  · intro hnone
    rw [hnone, List.length_nil, Nat.add_zero] at hlength
    rw [List.map_eq_nil_iff.mp hnone]
    exact ⟨pairs values, rfl, hlength⟩

end Waiting

section Chains

theorem matching_comm (z w : ComplexNumber ℝ) : matching z w = matching w z := by
  rw [Bool.eq_iff_iff, matching_iff, matching_iff]
  simp only [Scalar.abs_real, abs_sub_comm z.re, add_comm z.im]

/-- Each complex value occurs as often as its conjugate. -/
def ConjugateClosed (values : List (ComplexNumber ℝ)) : Prop :=
  ∀ z : ComplexNumber ℝ, z.im ≠ 0 → values.count z = values.count z.conj

/-- Where three links lead from one value to another, these match too. -/
def ClosedAlongChains (values : List (ComplexNumber ℝ)) : Prop :=
  ∀ a b c d, [a, b, c, d].Subperm values → matching a b = true → matching b c = true →
    matching c d = true → matching a d = true

/-- The values can be split into pairs that match. -/
inductive Pairable : List (ComplexNumber ℝ) → Prop where
  | nil : Pairable []
  | pair {x y rest values} (hmatch : matching x y = true) (hrest : Pairable rest)
      (hperm : values.Perm (x :: y :: rest)) : Pairable values

variable {values rest : List (ComplexNumber ℝ)} {x y : ComplexNumber ℝ}

theorem ClosedAlongChains.subperm (h : ClosedAlongChains values) (hsub : rest.Subperm values) :
    ClosedAlongChains rest :=
  fun a b c d hchain => h a b c d (hchain.trans hsub)

namespace Pairable

theorem perm (h : Pairable values) (hperm : rest.Perm values) : Pairable rest := by
  cases h with
  | nil =>
      obtain rfl := hperm.eq_nil
      exact .nil
  | pair hmatch hrest hsplit => exact .pair hmatch hrest (hperm.trans hsplit)

theorem exists_partner (h : Pairable values) (hx : x ∈ values) :
    ∃ y rest, values.Perm (x :: y :: rest) ∧ matching x y = true ∧ Pairable rest := by
  induction h with
  | nil => cases hx
  | @pair u v rest values hmatch hrest hperm ih =>
      rcases List.mem_cons.mp (hperm.mem_iff.mp hx) with rfl | hx
      · exact ⟨v, rest, hperm, hmatch, hrest⟩
      rcases List.mem_cons.mp hx with rfl | hx
      · exact ⟨u, rest, hperm.trans (.swap _ _ _), (matching_comm _ _).trans hmatch, hrest⟩
      · obtain ⟨y, others, hsplit, hxy, hothers⟩ := ih hx
        refine ⟨y, u :: v :: others, hperm.trans ?_, hxy, .pair hmatch hothers .rfl⟩
        calc
          (u :: v :: rest).Perm ([u, v] ++ ([x, y] ++ others)) := (hsplit.cons v).cons u
          _ = ([u, v] ++ [x, y]) ++ others := (List.append_assoc ..).symm
          List.Perm _ (([x, y] ++ [u, v]) ++ others) := List.perm_append_comm.append_right _

/-- Any two values that match may be taken out: their partners match each other. -/
theorem of_cons_cons (h : Pairable (x :: y :: rest)) (hchains : ClosedAlongChains (x :: y :: rest))
    (hxy : matching x y = true) : Pairable rest := by
  obtain ⟨u, others, hx, hxu, hothers⟩ := h.exists_partner (List.mem_cons_self ..)
  have hsplit : (y :: rest).Perm (u :: others) := List.Perm.cons_inv hx
  rcases List.mem_cons.mp (hsplit.mem_iff.mp (List.mem_cons_self ..)) with rfl | hy
  · exact hothers.perm (List.Perm.cons_inv hsplit)
  · obtain ⟨v, last, hy, hyv, hlast⟩ := hothers.exists_partner hy
    have hrest : rest.Perm (u :: v :: last) := by
      refine List.Perm.cons_inv (hsplit.trans ((hy.cons u).trans ?_))
      exact (List.Perm.swap y u _)
    have hchain : [u, x, y, v].Subperm (x :: y :: rest) := by
      have hfront : (x :: y :: rest).Perm ([u, x, y, v] ++ last) := by
        refine ((hrest.cons y).cons x).trans ?_
        exact ((List.Perm.swap u y _).cons x).trans (.swap _ _ _)
      exact (List.sublist_append_left _ _).subperm.trans hfront.symm.subperm
    have huv : matching u v = true :=
      hchains u x y v hchain ((matching_comm _ _).trans hxu) hxy hyv
    exact .pair huv hlast hrest

/-- What can be split into pairs and holds no two values that match is empty. -/
theorem eq_nil (h : Pairable values) (hno : values.Pairwise fun z w => matching z w = false) :
    values = [] := by
  cases h with
  | nil => rfl
  | @pair x y rest _ hmatch hrest hperm =>
      have hpairwise : (x :: y :: rest).Pairwise fun z w => matching z w = false :=
        (hperm.pairwise_iff fun {z w} hzw => (matching_comm w z).trans hzw).mp hno
      have hxy := (List.pairwise_cons.mp hpairwise).1 y (List.mem_cons_self ..)
      rw [hmatch] at hxy
      cases hxy

end Pairable

/-- A value waits with the others, or it takes out one that it matches. -/
theorem accept_cases (queue : List (ComplexNumber ℝ)) (z : ComplexNumber ℝ) :
    ((∀ w ∈ queue, matching w z = false) ∧ accept queue z = queue ++ [z]) ∨
      ∃ w, matching w z = true ∧ queue.Perm (w :: accept queue z) ∧
        (accept queue z).Sublist queue := by
  induction queue with
  | nil => exact .inl ⟨nofun, rfl⟩
  | cons w rest ih =>
      rw [accept]
      by_cases hmatch : matching w z = true
      · rw [if_pos hmatch]
        exact .inr ⟨w, hmatch, .rfl, List.sublist_cons_self _ _⟩
      · rw [if_neg hmatch]
        rcases ih with ⟨hno, haccept⟩ | ⟨v, hv, hperm, hsub⟩
        · refine .inl ⟨List.forall_mem_cons.mpr ⟨Bool.eq_false_of_not_eq_true hmatch, hno⟩, ?_⟩
          rw [haccept, List.cons_append]
        · exact .inr ⟨v, hv, (hperm.cons w).trans (.swap _ _ _), hsub.cons_cons w⟩

/-- Where matching is closed along chains, the values waiting and those to come can be split into
pairs throughout, so in the end none waits. -/
theorem foldl_accept_eq_nil (later : List (ComplexNumber ℝ)) {queue : List (ComplexNumber ℝ)}
    (hpairable : Pairable (queue ++ later)) (hchains : ClosedAlongChains (queue ++ later))
    (hno : queue.Pairwise fun z w => matching z w = false) : later.foldl accept queue = [] := by
  induction later generalizing queue with
  | nil =>
      rw [List.append_nil] at hpairable
      exact hpairable.eq_nil hno
  | cons z later ih =>
      rw [List.foldl_cons]
      rcases accept_cases queue z with ⟨hnone, haccept⟩ | ⟨w, hmatch, hperm, hsub⟩
      · rw [haccept]
        rw [List.append_cons] at hpairable hchains
        refine ih hpairable hchains (List.pairwise_append.mpr
          ⟨hno, List.pairwise_singleton _ _, fun v hv u hu => ?_⟩)
        obtain rfl := List.mem_singleton.mp hu
        exact hnone v hv
      · have hsplit : (queue ++ z :: later).Perm (w :: z :: (accept queue z ++ later)) :=
          (hperm.append_right _).trans (List.perm_middle.cons w)
        have hrest : Pairable (accept queue z ++ later) :=
          (hpairable.perm hsplit.symm).of_cons_cons (hchains.subperm hsplit.symm.subperm) hmatch
        refine ih hrest (hchains.subperm ?_) (hno.sublist hsub)
        exact (hsub.append_right _).subperm.trans
          ((List.sublist_cons_self z later).append_left _).subperm

theorem conj_conj (z : ComplexNumber ℝ) : z.conj.conj = z := by
  simp [ComplexNumber.conj]

theorem conj_injective :
    Function.Injective (ComplexNumber.conj : ComplexNumber ℝ → ComplexNumber ℝ) :=
  Function.LeftInverse.injective conj_conj

theorem count_map_conj (values : List (ComplexNumber ℝ)) (z : ComplexNumber ℝ) :
    (values.map ComplexNumber.conj).count z = values.count z.conj := by
  rw [← List.count_map_of_injective values _ conj_injective, conj_conj]

theorem ConjugateClosed.of_perm (h : (values.map ComplexNumber.conj).Perm values) :
    ConjugateClosed values := by
  intro z _
  rw [← h.count_eq, count_map_conj]

theorem pairable_append_conj (values : List (ComplexNumber ℝ)) :
    Pairable (values ++ values.map ComplexNumber.conj) := by
  induction values with
  | nil => exact .nil
  | cons z rest ih =>
      refine .pair (matching_conj z) ih (List.Perm.cons z ?_)
      exact List.perm_middle

/-- Values with their conjugates are those in the upper half plane and their conjugates. -/
theorem ConjugateClosed.pairable (h : ConjugateClosed values) :
    Pairable (complexValues values) := by
  let upper := values.filter fun z => decide (0 < z.im)
  refine (pairable_append_conj upper).perm (List.perm_iff_count.mpr fun z => ?_)
  have hupper : ∀ w : ComplexNumber ℝ, upper.count w = if 0 < w.im then values.count w else 0 := by
    intro w
    split
    · next hpos => exact List.count_filter (decide_eq_true hpos)
    · next hnot =>
      refine List.count_eq_zero_of_not_mem fun hmem => hnot ?_
      exact of_decide_eq_true (List.mem_filter.mp hmem).2
  have hconj : z.conj.im = -z.im := rfl
  have hcomplex : z.im ≠ 0 → (complexValues values).count z = values.count z := fun hz =>
    List.count_filter (by simpa using hz)
  rw [List.count_append, count_map_conj, hupper, hupper, hconj]
  rcases lt_trichotomy z.im 0 with hneg | hzero | hpos
  · rw [hcomplex hneg.ne, if_neg hneg.not_gt, if_pos (neg_pos.mpr hneg), Nat.zero_add]
    exact h z hneg.ne
  · have hnotMem : z ∉ complexValues values := by
      intro hmem
      simpa [hzero] using (List.mem_filter.mp hmem).2
    simp [hzero, List.count_eq_zero_of_not_mem hnotMem]
  · rw [hcomplex hpos.ne', if_pos hpos, if_neg (neg_neg_of_pos hpos).not_gt, Nat.add_zero]

/-- Where a value matches no other one than its conjugate, every chain closes. -/
theorem closedAlongChains_of_separated
    (h : ∀ z ∈ values, ∀ w ∈ values, matching z w = true → w = z.conj) :
    ClosedAlongChains values := by
  intro a b c d hsub hab hbc hcd
  have ha : a ∈ values := hsub.subset (by simp)
  have hb : b ∈ values := hsub.subset (by simp)
  have hc : c ∈ values := hsub.subset (by simp)
  have hd : d ∈ values := hsub.subset (by simp)
  rw [h c hc d hd hcd, h b hb c hc hbc, conj_conj, h a ha b hb hab]
  exact matching_conj a

/-- Any order of the complex values is that of some order of all values. -/
theorem exists_order {l : List (ComplexNumber ℝ)} (h : l.Perm (complexValues values)) :
    ∃ order : List (ComplexNumber ℝ), order.Perm values ∧ complexValues order = l := by
  let real := values.filter fun z => z.im == 0
  have hall : (complexValues values ++ real).Perm values := by
    simpa [complexValues, real] using
      List.filter_append_perm (fun z : ComplexNumber ℝ => !(z.im == 0)) values
  have hl : complexValues l = l := by
    refine List.filter_eq_self.mpr fun z hz => ?_
    exact (List.mem_filter.mp (h.mem_iff.mp hz)).2
  have hreal : complexValues real = [] := by
    simp [complexValues, real]
  refine ⟨l ++ real, (h.append_right real).trans hall, ?_⟩
  rw [complexValues, List.filter_append, ← complexValues, ← complexValues, hl, hreal,
    List.append_nil]

/-- If nothing is left in any order, links from one value to another close a chain: taken in with
the outer ones last, these match each other or wait. -/
theorem closedAlongChains_of_forall {values : List (ComplexNumber ℝ)}
    (h : ∀ l : List (ComplexNumber ℝ), l.Perm values → l.foldl accept [] = []) :
    ClosedAlongChains values := by
  intro a b c d hsub hab hbc hcd
  obtain ⟨front, hfront, hsublist⟩ := hsub
  obtain ⟨rest, hrest⟩ := hsublist.exists_perm_append
  have hvalues : (a :: b :: c :: d :: rest).Perm values :=
    (hrest.trans (hfront.append_right rest)).symm
  have hnone : rest.foldl accept [] = [] := by
    simpa [accept, hab, hcd] using h _ hvalues
  have houter : (b :: c :: (rest ++ [a, d])).Perm values := by
    have hmoved : (b :: c :: (rest ++ [a, d])).Perm ([b, c] ++ a :: d :: rest) :=
      (List.perm_append_comm.cons c).cons b
    exact hmoved.trans (List.perm_middle.trans hvalues)
  have hlast : accept (accept [] a) d = [] := by
    simpa [accept, hbc, hnone] using h _ houter
  by_contra hno
  simp [accept, hno] at hlast

end Chains

end Conjugates

open Conjugates in
/-- A spectrum that is closed under conjugation is paired completely in every order exactly if
matching is closed along chains of its complex values. -/
theorem pairConjugates_complete_iff {values : List (ComplexNumber ℝ)}
    (h : ConjugateClosed values) :
    (∀ order : List (ComplexNumber ℝ), order.Perm values →
      ∃ pairs, pairConjugates order = .ok pairs ∧
        2 * pairs.length = (complexValues order).length) ↔
      ClosedAlongChains (complexValues values) := by
  simp only [exists_pairs_iff, waiting_eq_foldl]
  constructor
  · intro hall
    refine closedAlongChains_of_forall fun l hl => ?_
    obtain ⟨order, horder, rfl⟩ := exists_order hl
    exact hall order horder
  · intro hchains order horder
    have hperm : (complexValues order).Perm (complexValues values) := horder.filter _
    exact foldl_accept_eq_nil _ (h.pairable.perm hperm) (hchains.subperm hperm.subperm) .nil

open Conjugates in
/-- Each of two conjugates twice, and a real value among them. -/
theorem pairConjugates_complete_twice :
    let values : List (ComplexNumber ℝ) := [⟨0, 1⟩, ⟨3, 0⟩, ⟨0, 1⟩, ⟨0, -1⟩, ⟨0, -1⟩]
    ConjugateClosed values ∧ ClosedAlongChains (complexValues values) ∧
      ∀ order : List (ComplexNumber ℝ), order.Perm values →
        ∃ pairs, pairConjugates order = .ok pairs ∧
          2 * pairs.length = (complexValues order).length := by
  intro values
  have hconj : values.map ComplexNumber.conj = [⟨0, -1⟩, ⟨3, 0⟩, ⟨0, -1⟩, ⟨0, 1⟩, ⟨0, 1⟩] := by
    simp [values, ComplexNumber.conj]
  have hclosed : ConjugateClosed values := by
    refine ConjugateClosed.of_perm ?_
    rw [hconj, List.perm_iff_count]
    intro z
    simp only [values, List.count_cons, List.count_nil]
    omega
  have hcomplex : complexValues values = [⟨0, 1⟩, ⟨0, 1⟩, ⟨0, -1⟩, ⟨0, -1⟩] := by
    simp [values, complexValues]
  have hchains : ClosedAlongChains (complexValues values) := by
    refine closedAlongChains_of_separated ?_
    rw [hcomplex]
    simp only [matching_iff, List.forall_mem_cons]
    norm_num [tolerance, ComplexNumber.conj]
  exact ⟨hclosed, hchains, (pairConjugates_complete_iff hclosed).mpr hchains⟩

/-- Three values and their conjugates, neighbours `6·10⁻¹⁰` apart. -/
noncomputable def cluster : List (ComplexNumber ℝ) :=
  [⟨0, 1⟩, ⟨6e-10, -1⟩, ⟨6e-10, 1⟩, ⟨12e-10, -1⟩, ⟨12e-10, 1⟩, ⟨0, -1⟩]

open Conjugates in
/-- The first two values of the cluster take the conjugates of their neighbours.  That leaves the
third value, which is reported although its conjugate is there. -/
theorem pairConjugates_cluster :
    ConjugateClosed cluster ∧ pairConjugates cluster = .error (.unpaired 4 ⟨12e-10, 1⟩) := by
  constructor
  · have hconj : cluster.map ComplexNumber.conj =
        [⟨0, -1⟩, ⟨6e-10, 1⟩, ⟨6e-10, -1⟩, ⟨12e-10, 1⟩, ⟨12e-10, -1⟩, ⟨0, 1⟩] := by
      simp [cluster, ComplexNumber.conj]
    refine ConjugateClosed.of_perm ?_
    rw [hconj, List.perm_iff_count]
    intro z
    simp only [cluster, List.count_cons, List.count_nil]
    omega
  · have hfirst : matching (⟨0, 1⟩ : ComplexNumber ℝ) ⟨6e-10, -1⟩ = true := by
      rw [matching_iff]
      norm_num [tolerance]
    have hsecond : matching (⟨6e-10, 1⟩ : ComplexNumber ℝ) ⟨12e-10, -1⟩ = true := by
      rw [matching_iff]
      norm_num [tolerance]
    have hthird : matching (⟨12e-10, 1⟩ : ComplexNumber ℝ) ⟨0, -1⟩ = false := by
      rw [Bool.eq_false_iff, Ne, matching_iff]
      norm_num [tolerance]
    have hentries : entries cluster = [⟨0, ⟨0, 1⟩, some 1⟩, ⟨2, ⟨6e-10, 1⟩, some 3⟩,
        ⟨4, ⟨12e-10, 1⟩, none⟩, ⟨5, ⟨0, -1⟩, none⟩] := by
      simp [entries, cluster, place, hfirst, hsecond, hthird]
    rw [pairConjugates_eq, hentries]
    rfl

end SubspaceEigen
