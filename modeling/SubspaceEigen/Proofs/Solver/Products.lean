import Mathlib.Algebra.BigOperators.Intervals
import SubspaceEigen.Proofs.Solver.Grammar

/-!
# Products with the operator over a run

Every column that is passed to the operator is passed in some round, and a journal tells how many
columns that are.  In the first round, after a restart and when columns were lost, all columns of
the search space are new; in any other round those are new by which the space has grown.  Each new
column is passed once, and for a paired operator its image once more.

All of this holds in any arithmetic and for any operator: a round that is reported had images that
fit its basis.
-/

namespace SubspaceEigen

variable {α : Type} {n : ℕ}

/-- The number of columns that are passed to an operator for every new basis column. -/
def OperatorKind.productsPerColumn : OperatorKind → ℕ
  | .symmetric => 1
  | .hamiltonian => 2

namespace Journal

def spaceSize (journal : Journal α) (i : ℕ) : ℕ :=
  ((measurements journal).map Measurement.searchSpace).getD i 0

def restartedAfter (journal : Journal α) (i : ℕ) : Bool :=
  journal.any fun
    | .restart j _ _ => j == i
    | _ => false

/-- The number of basis columns that are new in an iteration. -/
def newColumns (journal : Journal α) : ℕ → ℕ
  | 0 => spaceSize journal 0
  | i + 1 =>
    if restartedAfter journal i = true ∨ spaceSize journal (i + 1) < spaceSize journal i then
      spaceSize journal (i + 1)
    else spaceSize journal (i + 1) - spaceSize journal i

/-- The positions of the columns that are new in an iteration; they are the last ones. -/
def newPositions (journal : Journal α) (i : ℕ) : Finset ℕ :=
  Finset.Ico (spaceSize journal i - newColumns journal i) (spaceSize journal i)

theorem restartedAfter_iff {journal : Journal α} {i : ℕ} :
    restartedAfter journal i = true ↔ ∃ before after, .restart i before after ∈ journal := by
  rw [restartedAfter, List.any_eq_true]
  constructor
  · rintro ⟨event, hmem, hevent⟩
    split at hevent
    · next j before after =>
      obtain rfl := beq_iff_eq.mp hevent
      exact ⟨before, after, hmem⟩
    · cases hevent
  · rintro ⟨before, after, hmem⟩
    exact ⟨_, hmem, beq_self_eq_true i⟩

/-- As long as the space is not rebuilt and loses no column, no position is new twice. -/
theorem disjoint_newPositions {journal : Journal α} {i j : ℕ} (hij : i < j)
    (hgrows : ∀ k, i ≤ k → k < j →
      restartedAfter journal k = false ∧ spaceSize journal k ≤ spaceSize journal (k + 1)) :
    Disjoint (newPositions journal i) (newPositions journal j) := by
  obtain ⟨l, rfl⟩ : ∃ l, j = l + 1 := ⟨j - 1, by omega⟩
  have hle : ∀ k, i ≤ k → k ≤ l → spaceSize journal i ≤ spaceSize journal k := by
    intro k hik
    induction k, hik using Nat.le_induction with
    | base => exact fun _ => le_rfl
    | succ k hik ih =>
        intro hkl
        exact (ih (by omega)).trans (hgrows k hik (by omega)).2
  obtain ⟨hrestart, hsize⟩ := hgrows l (by omega) (by omega)
  have hnew : newColumns journal (l + 1) = spaceSize journal (l + 1) - spaceSize journal l :=
    if_neg (by simp [hrestart, hsize])
  have hbelow := hle l (by omega) le_rfl
  rw [Finset.disjoint_left]
  intro k hi hj
  simp only [newPositions, hnew, Finset.mem_Ico] at hi hj
  omega

end Journal

variable [Scalar α]

open SearchSpace

theorem Extraction.image_size_of_ofReduced {s : SearchSpace α n} {order : ℕ}
    {reduced : List (α × Vector α order)} {e : Extraction α n} (h : ofReduced s reduced = .ok e) :
    s.image.size = s.basis.size := by
  unfold ofReduced at h
  split at h
  · next hsizes => exact hsizes.2.symm.trans hsizes.1
  · cases h

namespace Problem

variable {p : Problem α n} {s : SearchSpace α n} {r : Round α n}

/-- Every extraction ends with a reduced problem that is lifted to the space. -/
theorem exists_reduced_of_extract {e : Extraction α n} {conjugates : ℕ}
    (h : p.extract s = .ok (e, conjugates)) :
    ∃ (order : ℕ) (reduced : List (α × Vector α order)),
      Extraction.ofReduced s reduced = .ok e := by
  unfold extract at h
  split at h
  · obtain ⟨metric, t, pairs, dropped, -, -, hreduced⟩ := ofReduced_of_harmonicRitz h
    exact ⟨_, _, hreduced⟩
  · split at h
    · next extraction hplain =>
      obtain ⟨rfl, -⟩ := Prod.mk.inj (Except.ok.inj h)
      simp only [plainRitz, bind, Except.bind] at hplain
      split at hplain
      · cases hplain
      split at hplain
      · cases hplain
      exact ⟨_, _, hplain⟩
    · cases h

/-- No Ritz pairs are drawn from a space whose images do not fit its basis. -/
theorem image_size_of_extract {e : Extraction α n} {conjugates : ℕ}
    (h : p.extract s = .ok (e, conjugates)) : s.image.size = s.basis.size := by
  obtain ⟨order, reduced, hreduced⟩ := exists_reduced_of_extract h
  exact Extraction.image_size_of_ofReduced hreduced

def isHarmonic (p : Problem α n) : Bool :=
  p.config.kind = .hamiltonian

theorem exists_update_of_roundAt {index : ℕ} (h : p.roundAt index s = .ok r) :
    ∃ updated : SearchSpace α n, (s.update p.operator).outcome = .ok updated ∧
      updated.image.size = updated.basis.size ∧
        r.space = { updated with flags := r.space.flags } := by
  cases h ▸ p.roundAt_ends index s with
  | examined hupdate hextract => exact ⟨_, hupdate, image_size_of_extract hextract, rfl⟩

theorem complete_of_roundAt {index : ℕ} (hs : Keeps p.isHarmonic s)
    (h : p.roundAt index s = .ok r) : Complete p.isHarmonic r.space := by
  obtain ⟨updated, hupdated, himage, hspace⟩ := exists_update_of_roundAt h
  have hcomplete := hs.update hupdated himage
  rw [hspace]
  exact ⟨hcomplete.computed_eq, hcomplete.image_eq, hcomplete.second_eq⟩

theorem keeps_enlarge (h : Complete p.isHarmonic r.space) : Keeps p.isHarmonic (p.enlarge r).1 := by
  simp only [enlarge]
  split
  · exact h.keeps
  · exact h.keeps.extend _ _ _

theorem keeps_advance (h : Complete p.isHarmonic r.space) : Keeps p.isHarmonic (p.advance r).1 := by
  by_cases hout : p.Outgrows r
  · rw [advance_of_outgrows hout]
    exact (keeps_enlarge h).restart _
  · rw [advance_of_not_outgrows hout]
    exact keeps_enlarge h

instance (p : Problem α n) (r : Round α n) : Decidable (p.Outgrows r) :=
  inferInstanceAs (Decidable (_ < _))

/-- The columns of the next space that wait for their images. -/
theorem pending_advance (h : Complete p.isHarmonic r.space) :
    (p.advance r).1.pending =
      if p.Outgrows r ∨ (p.advance r).1.size < r.space.size then (p.advance r).1.size
      else (p.advance r).1.size - r.space.size := by
  by_cases hout : p.Outgrows r
  · rw [if_pos (.inl hout), advance_of_outgrows hout]
    exact Nat.sub_zero _
  · simp only [hout, false_or, advance_of_not_outgrows hout, enlarge]
    split
    · rw [if_neg (lt_irrefl _), Nat.sub_self]
      exact h.pending_eq_zero
    · exact h.pending_extend _ _ _

def spaceAt (p : Problem α n) (i : ℕ) : SearchSpace α n :=
  p.spaceAfter p.firstSpace (p.rounds.take i)

theorem spaceAt_succ {i : ℕ} (hr : p.rounds[i]? = some r) :
    p.spaceAt (i + 1) = (p.advance r).1 := by
  obtain ⟨hi, rfl⟩ := List.getElem?_eq_some_iff.mp hr
  rw [spaceAt, spaceAfter, List.take_succ_eq_append_getElem hi, List.foldl_append]
  rfl

theorem roundAt_spaceAt {i : ℕ} (hr : p.rounds[i]? = some r) :
    p.roundAt i (p.spaceAt i) = .ok r := by
  obtain ⟨run, hrun, -⟩ := p.unfolds_run
  cases i with
  | zero =>
      change p.roundAt 0 p.firstSpace = .ok r
      generalize p.rounds = rounds at hr hrun
      cases hrun with
      | failed => cases hr
      | ended status applied hround =>
          obtain rfl := Option.some.inj hr
          exact hround
      | advanced applied hround hrest =>
          obtain rfl := Option.some.inj hr
          exact hround
  | succ i =>
      have hlt : i < p.rounds.length := by
        have hi := (List.getElem?_eq_some_iff.mp hr).1
        omega
      have hbefore : p.rounds[i]? = some p.rounds[i] := List.getElem?_eq_getElem hlt
      have hnext := hrun.roundAt_next hbefore hr
      rwa [index_of_getElem? hbefore, ← spaceAt_succ hbefore] at hnext

theorem keeps_spaceAt {i : ℕ} (hi : i ≤ p.rounds.length) : Keeps p.isHarmonic (p.spaceAt i) := by
  induction i with
  | zero => exact keeps_start _ _ _
  | succ i ih =>
      have hr : p.rounds[i]? = some p.rounds[i] := List.getElem?_eq_getElem hi
      rw [spaceAt_succ hr]
      exact keeps_advance (complete_of_roundAt (ih (by omega)) (roundAt_spaceAt hr))

theorem spaceSize_run {i : ℕ} (hr : p.rounds[i]? = some r) :
    Journal.spaceSize p.run.events i = r.space.size := by
  rw [Journal.spaceSize, p.measurements_run, List.map_map, List.getD_eq_getElem?_getD,
    List.getElem?_map, hr]
  rfl

theorem size_spaceAt {i : ℕ} (hr : p.rounds[i]? = some r) :
    (p.spaceAt i).size = Journal.spaceSize p.run.events i := by
  rw [spaceSize_run hr, (observes_of_roundAt (roundAt_spaceAt hr)).size_eq]

/-- The columns without images in a round are those that the journal counts as new. -/
theorem pending_spaceAt {i : ℕ} (hr : p.rounds[i]? = some r) :
    (p.spaceAt i).pending = Journal.newColumns p.run.events i := by
  cases i with
  | zero => exact size_spaceAt hr
  | succ i =>
      have hlt : i < p.rounds.length := by
        have hi := (List.getElem?_eq_some_iff.mp hr).1
        omega
      have hbefore : p.rounds[i]? = some p.rounds[i] := List.getElem?_eq_getElem hlt
      have hcomplete := complete_of_roundAt (keeps_spaceAt hlt.le) (roundAt_spaceAt hbefore)
      have hrestart : Journal.restartedAfter p.run.events i = true ↔ p.Outgrows p.rounds[i] := by
        rw [Journal.restartedAfter_iff, restart_mem_run_iff hbefore hr]
      have hsize := size_spaceAt hr
      rw [spaceAt_succ hbefore] at hsize ⊢
      simp only [pending_advance hcomplete, hsize, Journal.newColumns, hrestart,
        spaceSize_run hbefore]

def requestsAt (p : Problem α n) (i : ℕ) : List (Block α) :=
  (p.spaceAt i).requests p.operator

def passedAt (p : Problem α n) (i : ℕ) : ℕ :=
  ((p.requestsAt i).map Block.cols).sum

/-- The columns at the new positions of the basis on which the round `i` looks. -/
def newBlock (p : Problem α n) (i : ℕ) (r : Round α n) : Block α :=
  ⟨n, r.space.basis.extract
    (Journal.spaceSize p.run.events i - Journal.newColumns p.run.events i)
    (Journal.spaceSize p.run.events i)⟩

theorem fresh_spaceAt {i : ℕ} (hr : p.rounds[i]? = some r) :
    (p.spaceAt i).fresh = p.newBlock i r := by
  have hlt := (List.getElem?_eq_some_iff.mp hr).1
  have hbasis := (observes_of_roundAt (roundAt_spaceAt hr)).basis_eq
  have hcomputed : (p.spaceAt i).computed =
      (p.spaceAt i).basis.size - (p.spaceAt i).pending :=
    (Nat.sub_sub_self (keeps_spaceAt hlt.le).computed_le).symm
  have hsize : (p.spaceAt i).basis.size = Journal.spaceSize p.run.events i := size_spaceAt hr
  rw [fresh, newBlock, hcomputed, pending_spaceAt hr, hsize, hbasis]

theorem requestsAt_cases {i : ℕ} (hr : p.rounds[i]? = some r) :
    (Journal.newColumns p.run.events i = 0 ∧ p.requestsAt i = []) ∨
      0 < Journal.newColumns p.run.events i ∧
        ∃ image, p.operator.apply (p.newBlock i r) = .ok image ∧
          p.requestsAt i =
            p.newBlock i r :: if p.config.kind = .hamiltonian then [image] else [] := by
  have hlt := (List.getElem?_eq_some_iff.mp hr).1
  obtain ⟨updated, hupdated, himage, -⟩ := exists_update_of_roundAt (roundAt_spaceAt hr)
  have hcases := (keeps_spaceAt hlt.le).requests_eq hupdated himage
  rw [pending_spaceAt hr, fresh_spaceAt hr] at hcases
  simp only [isHarmonic, decide_eq_true_eq] at hcases
  rcases hcases with hnone | ⟨hpos, image, happly, -, hrequests⟩
  · exact .inl hnone
  · exact .inr ⟨hpos, image, happly, hrequests⟩

omit [Scalar α] in
theorem productsPerColumn_eq (p : Problem α n) :
    p.config.kind.productsPerColumn = if p.isHarmonic then 2 else 1 := by
  unfold isHarmonic
  cases p.config.kind <;> rfl

theorem passedAt_eq {i : ℕ} (hr : p.rounds[i]? = some r) :
    p.passedAt i = p.config.kind.productsPerColumn * Journal.newColumns p.run.events i := by
  have hlt := (List.getElem?_eq_some_iff.mp hr).1
  obtain ⟨updated, hupdated, himage, -⟩ := exists_update_of_roundAt (roundAt_spaceAt hr)
  rw [passedAt, requestsAt, ← passed_update, (keeps_spaceAt hlt.le).passed_eq hupdated himage,
    pending_spaceAt hr, productsPerColumn_eq]

/-- The number of columns that are passed to the operator after some of the given rounds, the first
of which begins with the space `s`. -/
def passedAfter (p : Problem α n) (s : SearchSpace α n) (rounds : List (Round α n)) (i : ℕ) : ℕ :=
  ((p.spaceAfter s (rounds.take i)).update p.operator).passed

theorem passedAfter_zero (p : Problem α n) (s : SearchSpace α n) (rounds : List (Round α n)) :
    p.passedAfter s rounds 0 = (s.update p.operator).passed :=
  rfl

theorem passedAfter_succ (p : Problem α n) (s : SearchSpace α n) (r : Round α n)
    (rounds : List (Round α n)) (i : ℕ) :
    p.passedAfter s (r :: rounds) (i + 1) = p.passedAfter (p.advance r).1 rounds i :=
  rfl

/-- What a run has passed to the operator is what the rounds it has begun have passed. -/
theorem applied_iterate (p : Problem α n) (remaining index : ℕ) (s : SearchSpace α n) :
    (p.iterate remaining index s).applied =
      ∑ i ∈ Finset.range (p.iterate remaining index s).roundsBegun,
        p.passedAfter s (p.roundsFrom remaining index s) i := by
  induction remaining generalizing index s with
  | zero =>
      rw [roundsFrom]
      cases hround : p.roundAt index s with
      | error e =>
          rw [iterate_of_error hround]
          exact (Finset.sum_range_one (p.passedAfter s [])).symm
      | ok r =>
          rw [iterate_of_ok hround]
          simp only [ite_self]
          split
          · rw [roundsBegun_finish, Finset.sum_range_one]
            rfl
          · rw [roundsBegun_finish, Finset.sum_range_one]
            rfl
  | succ remaining ih =>
      rw [roundsFrom]
      cases hround : p.roundAt index s with
      | error e =>
          rw [iterate_of_error hround]
          exact (Finset.sum_range_one (p.passedAfter s [])).symm
      | ok r =>
          rw [iterate_of_ok hround]
          simp only
          split
          · rw [roundsBegun_finish, Finset.sum_range_one]
            rfl
          · rw [roundsBegun_after, Finset.sum_range_succ', passedAfter_zero]
            simp only [passedAfter_succ, ← ih]
            exact Nat.add_comm _ _

/-- The journal of a run tells what the run has passed to the operator.

In the iteration `i` that is one block with the columns of the basis at the new positions, for a
paired operator followed by the image of that block, and nothing if no column is new; then the
operator is not consulted. -/
structure AccountsForProducts (p : Problem α n) : Prop where
  reported : Journal.measurements p.run.events = p.rounds.map (·.measurement p.measuresBasis)
  begins : ∀ {i r}, p.rounds[i]? = some r → p.roundAt i (p.spaceAt i) = .ok r
  applied_eq : p.run.applied = ∑ i ∈ Finset.range p.run.roundsBegun, p.passedAt i
  passed_eq : ∀ t < (Journal.measurements p.run.events).length,
    ∑ i ∈ Finset.range (t + 1), p.passedAt i =
      p.config.kind.productsPerColumn *
        ∑ i ∈ Finset.range (t + 1), Journal.newColumns p.run.events i
  sends : ∀ {i r}, p.rounds[i]? = some r → 0 < Journal.newColumns p.run.events i →
    ∃ image, p.operator.apply (p.newBlock i r) = .ok image ∧
      p.requestsAt i = p.newBlock i r :: if p.config.kind = .hamiltonian then [image] else []
  idle : ∀ {i r}, p.rounds[i]? = some r → Journal.newColumns p.run.events i = 0 →
    p.requestsAt i = [] ∧ ∀ op, (p.spaceAt i).update op = (p.spaceAt i).update p.operator
  once : ∀ {i j}, i < j → j < (Journal.measurements p.run.events).length →
    (∀ k, i ≤ k → k < j → Journal.restartedAfter p.run.events k = false ∧
      Journal.spaceSize p.run.events k ≤ Journal.spaceSize p.run.events (k + 1)) →
    Disjoint (Journal.newPositions p.run.events i) (Journal.newPositions p.run.events j)

theorem accountsForProducts (p : Problem α n) : p.AccountsForProducts := by
  have hpassed : ∀ i, p.passedAt i = p.passedAfter p.firstSpace p.rounds i :=
    fun i => (passed_update _ _).symm
  have hlength : (Journal.measurements p.run.events).length = p.rounds.length := by
    rw [p.measurements_run, List.length_map]
  refine ⟨p.measurements_run, roundAt_spaceAt, ?_, ?_, ?_, ?_,
    fun hij _ hgrows => Journal.disjoint_newPositions hij hgrows⟩
  · simp only [hpassed]
    exact (Nat.zero_add _).trans (p.applied_iterate _ _ _)
  · intro t ht
    rw [Finset.mul_sum]
    refine Finset.sum_congr rfl fun i hi => ?_
    have hlt : i < p.rounds.length := by
      rw [Finset.mem_range] at hi
      omega
    exact passedAt_eq (List.getElem?_eq_getElem hlt)
  · intro i r hr hnew
    rcases requestsAt_cases hr with ⟨hnone, -⟩ | ⟨-, hsends⟩
    · omega
    · exact hsends
  · intro i r hr hnone
    rcases requestsAt_cases hr with ⟨-, hrequests⟩ | ⟨hpos, -⟩
    · refine ⟨hrequests, fun op => update_congr fun x hx => ?_⟩
      rw [show (p.spaceAt i).requests p.operator = [] from hrequests] at hx
      cases hx
    · omega

end Problem

namespace Solver

variable {solver : Solver α} {op : LinearOperator α}

/-- The run of an admitted request accounts for its products with the operator. -/
theorem accountsForProducts_of_pose {draws : ℕ → α} {requested guess : ℕ} {p : Problem α op.rows}
    (h : solver.pose draws op requested guess = .ok p) :
    solver.solveWith draws op requested guess = p.run ∧ p.AccountsForProducts :=
  ⟨solveWith_of_pose h, p.accountsForProducts⟩

/-- On floating-point numbers, with the settings for a paired operator, where every new column
counts twice. -/
theorem accountsForProducts_hamiltonian :
    let solver : Solver Binary64 :=
      ⟨{ Config.standard with kind := .hamiltonian }, .standard, false, fun _ => 0⟩
    let op : LinearOperator Binary64 := .ofBlock ⟨2, (Square.identity 2).toArray⟩
    ∃ p : Problem Binary64 2, solver.pose (Noise.draw 0) op 1 0 = .ok p ∧
      p.config.kind.productsPerColumn = 2 ∧
        solver.solveWith (Noise.draw 0) op 1 0 = p.run ∧ p.AccountsForProducts := by
  intro solver op
  have hkind : ∀ c : Config Binary64,
      ({ c with kind := .hamiltonian } : Config Binary64).validate = c.validate := fun _ => rfl
  have hvalid : solver.config.validate = .ok () := (hkind _).trans Config.standard_validate
  obtain ⟨p, hp⟩ := exists_pose_ofBlock hvalid (Noise.draw 0) (Square.identity 2) 0 one_pos
    (show 1 ≤ 2 - 2 / 2 by norm_num)
  refine ⟨p, hp, ?_, accountsForProducts_of_pose hp⟩
  rw [(poses_of_pose hp).config_eq]
  rfl

end Solver

end SubspaceEigen
