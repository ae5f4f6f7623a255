import SubspaceEigen.Proofs.Ritz.Counts
import SubspaceEigen.Proofs.Solver.Coupled

/-!
# The size of the search space

In any arithmetic columns are dropped but never made up.  An extension adds at most one column for
each tracked root that has not converged, and no more than there is room for; a restart keeps at most
one Ritz vector for each guess vector, besides the columns just added.  Since there are no more Ritz
pairs than basis columns, neither way leads beyond the dimension of the operator.
-/

namespace SubspaceEigen

variable {α : Type} [Scalar α] {n : ℕ}

theorem GramSchmidt.size_insert_le (basis : Columns α n) (v : Vector α n) :
    (insert basis v).size ≤ basis.size + 1 := by
  unfold insert
  split
  · rw [Array.size_push]
  · exact Nat.le_succ _

theorem size_gramSchmidt_le (v : Columns α n) (start : ℕ) :
    (gramSchmidt v start).size ≤ v.size := by
  have hfold : ∀ (vs : List (Vector α n)) (basis : Columns α n),
      (vs.foldl GramSchmidt.insert basis).size ≤ basis.size + vs.length := by
    intro vs
    induction vs with
    | nil => exact fun basis => le_rfl
    | cons v vs ih =>
        intro basis
        have hinsert := GramSchmidt.size_insert_le basis v
        have hrest := ih (GramSchmidt.insert basis v)
        rw [List.foldl_cons, List.length_cons]
        omega
  have hsize := hfold (v.extract start v.size).toList (v.extract 0 start)
  rw [gramSchmidt, ← Array.foldl_toList]
  simp only [Array.length_toList, Array.size_extract] at hsize
  omega

namespace SearchSpace

variable {dense : Factorizations α}

theorem size_orthonormalize_le_of_order {v : Columns α n}
    (horder : (dense.triangular v).order ≤ v.size) (method : Orthogonalization) (start : ℕ) :
    (orthonormalize dense method v start).size ≤ v.size := by
  cases method with
  | gramSchmidt => exact size_gramSchmidt_le v start
  | qr => exact (size_qrOrthonormalize_le_order dense v).trans horder

/-- Neither method makes up columns. -/
theorem size_orthonormalize_le (hd : dense.Shaped) (method : Orthogonalization)
    (v : Columns α n) (start : ℕ) : (orthonormalize dense method v start).size ≤ v.size :=
  size_orthonormalize_le_of_order ((hd.order_le v).trans (min_le_right _ _)) method start

end SearchSpace

namespace Config

variable {dense : Factorizations α}

theorem size_guess_le_of_order (horder : ∀ v : Columns α n, (dense.triangular v).order ≤ v.size)
    (c : Config α) (draws : ℕ → α) (diagonal : Vector α n) (size : ℕ) :
    (c.guess dense draws diagonal size).size ≤ size := by
  have hunits : (unitGuess c.kind diagonal size).size ≤ size := by
    simp only [unitGuess, List.size_toArray, List.length_map, List.length_take]
    exact min_le_left _ _
  unfold guess
  split
  · have hsize := SearchSpace.size_orthonormalize_le_of_order
      (horder (Noise.perturb c.guessNoise draws (unitGuess c.kind diagonal size)))
      c.orthogonalization 0
    rw [Noise.perturb, Array.size_mapIdx] at hsize
    exact hsize.trans hunits
  · exact hunits

theorem size_guess_le (hd : dense.Shaped) (c : Config α) (draws : ℕ → α) (diagonal : Vector α n)
    (size : ℕ) : (c.guess dense draws diagonal size).size ≤ size :=
  c.size_guess_le_of_order (fun v => (hd.order_le v).trans (min_le_right _ _)) draws diagonal size

end Config

/-- The number of tracked roots with a Ritz pair that has not converged. -/
def Round.unconverged (r : Round α n) : ℕ :=
  (r.space.flags.take r.tracked).countP (! ·)

theorem Round.convergedRoots_add_unconverged (r : Round α n) (measures : Bool) :
    (r.measurement measures).convergedRoots + r.unconverged = r.tracked := by
  have hlength : (r.space.flags.take r.tracked).length = r.tracked :=
    List.length_take_of_le (min_le_left _ _)
  have hcount := List.length_eq_countP_add_countP (p := id) (l := r.space.flags.take r.tracked)
  rw [hlength] at hcount
  simpa [Round.measurement, Round.unconverged] using hcount.symm

namespace Problem

variable {p : Problem α n} {s : SearchSpace α n} {r : Round α n}

theorem Observes.length_pairs_le (h : p.Observes s r) (hd : p.dense.Shaped) :
    r.extraction.pairs.length ≤ s.size := by
  obtain ⟨updated, hbasis, hextract⟩ := h.extract_eq
  rw [SearchSpace.size, ← hbasis]
  unfold extract at hextract
  split at hextract
  · exact length_harmonicRitz_le hd hextract
  · split at hextract
    · next extraction hplain =>
      obtain ⟨rfl, -⟩ := Prod.mk.inj (Except.ok.inj hextract)
      exact length_plainRitz_le hd hplain
    · cases hextract

theorem Observes.tracked_le (h : p.Observes s r) (hd : p.dense.Shaped) :
    r.tracked ≤ s.tracked ∧ r.tracked ≤ s.size := by
  have hpairs := h.length_pairs_le hd
  rw [Round.tracked, h.tracked_eq]
  omega

/-- There is at most one new direction for each tracked root that has not converged, and no more of
them than there is room for. -/
theorem size_corrections_le (p : Problem α n) (r : Round α n) :
    (p.corrections r).size ≤ min (n - r.space.size) r.unconverged := by
  have hflags : ((r.extraction.pairs.zip r.space.flags).take r.tracked).map Prod.snd =
      r.space.flags.take r.tracked := by
    have hle : (r.space.flags.take r.tracked).length ≤
        (r.extraction.pairs.take r.tracked).length := by
      have htracked : r.tracked ≤ r.extraction.pairs.length := min_le_right _ _
      simp only [List.length_take]
      omega
    rw [List.zip, List.take_zipWith]
    exact List.map_snd_zip hle
  have hdirections : (((r.extraction.pairs.zip r.space.flags).take r.tracked).filterMap
      fun pc => if pc.2 then none else p.direction? pc.1).length ≤ r.unconverged := by
    rw [List.length_filterMap_eq_countP, Round.unconverged, ← hflags, List.countP_map]
    apply List.countP_mono_left
    rintro ⟨pair, converged⟩ - hdirection
    cases converged with
    | false => rfl
    | true => cases hdirection
  simp only [corrections, List.size_toArray, List.length_take]
  exact min_le_min_left _ hdirections

theorem size_enlarge_le (hd : p.dense.Shaped) (r : Round α n) :
    (p.enlarge r).1.size ≤ r.space.size + min (n - r.space.size) r.unconverged ∧
      (p.enlarge r).2 = (p.enlarge r).1.size - r.space.size := by
  have hblock := p.size_corrections_le r
  have hsize := SearchSpace.size_orthonormalize_le hd p.config.orthogonalization
    (r.space.basis ++ p.corrections r) r.space.basis.size
  rw [Array.size_append] at hsize
  simp only [enlarge]
  split
  · exact ⟨Nat.le_add_right _ _, (Nat.sub_self _).symm⟩
  · exact ⟨hsize.trans (Nat.add_le_add_left hblock _), rfl⟩

/-- A restart keeps leading Ritz vectors and fresh columns. -/
theorem size_restartBasis_le (hd : p.dense.Shaped) (r : Round α n) (s : SearchSpace α n)
    (fresh : ℕ) :
    (p.restartBasis r s fresh).size ≤
      min p.settings.initialGuess r.extraction.pairs.length + fresh := by
  refine (SearchSpace.size_orthonormalize_le hd _ _ _).trans ?_
  simp only [Array.size_append, List.size_toArray, List.length_map, List.length_take,
    Array.size_extract]
  omega

/-- The sizes on the way from a round to the next space: the extended one is reported by a restart if
it is larger than the limit, and is the next one otherwise. -/
structure Steps (p : Problem α n) (r : Round α n) : Prop where
  enlarged : (p.enlarge r).1.size ≤ r.space.size + min (n - r.space.size) r.unconverged
  stays : ¬ p.Outgrows r → (p.advance r).1.size = (p.enlarge r).1.size
  rebuilt : p.Outgrows r → (p.advance r).1.size ≤
    min p.settings.initialGuess r.extraction.pairs.length +
      ((p.enlarge r).1.size - r.space.size)

theorem steps (hd : p.dense.Shaped) (r : Round α n) : p.Steps r where
  enlarged := (size_enlarge_le hd r).1
  stays hstays := by rw [advance_of_not_outgrows hstays]
  rebuilt hout := by
    rw [advance_of_outgrows hout, ← (size_enlarge_le hd r).2]
    exact size_restartBasis_le hd r _ _

/-- The largest search space that a solve in dimension `n` may come to. -/
def bound (p : Problem α n) : ℕ :=
  min n (max p.settings.searchLimit (p.settings.initialGuess + p.settings.trackedRoots))

/-- The space is within the bound, and it tracks as many roots as were set. -/
structure Fits (p : Problem α n) (s : SearchSpace α n) : Prop where
  tracked_eq : s.tracked = p.settings.trackedRoots
  size_le : s.size ≤ p.bound

theorem fits_firstSpace (hd : p.dense.Shaped) (hguess : p.settings.initialGuess ≤ n) :
    p.Fits p.firstSpace where
  tracked_eq := p.firstSpace_tracked
  size_le := by
    have hsize : p.firstSpace.size ≤ p.settings.initialGuess :=
      p.config.size_guess_le hd p.draws p.diagonal p.settings.initialGuess
    unfold bound
    omega

theorem Observes.unconverged_le (h : p.Observes s r) (hd : p.dense.Shaped) (hs : p.Fits s) :
    r.unconverged ≤ p.settings.trackedRoots := by
  have hcount := r.convergedRoots_add_unconverged false
  have htracked := (h.tracked_le hd).1
  rw [hs.tracked_eq] at htracked
  omega

/-- The step: what fits before a round fits after it, with or without a restart. -/
theorem Observes.fits_advance (h : p.Observes s r) (hd : p.dense.Shaped) (hs : p.Fits s) :
    p.Fits (p.advance r).1 where
  tracked_eq := by rw [advance_tracked, h.tracked_eq, hs.tracked_eq]
  size_le := by
    have hsteps := steps hd r
    have henlarged := hsteps.enlarged
    have hbefore : r.space.size ≤ n := by
      rw [h.size_eq]
      exact hs.size_le.trans (min_le_left _ _)
    have hpairs : r.extraction.pairs.length ≤ r.space.size := by
      rw [h.size_eq]
      exact h.length_pairs_le hd
    have hunconverged := h.unconverged_le hd hs
    unfold bound
    by_cases hout : p.Outgrows r
    · have hrebuilt := hsteps.rebuilt hout
      omega
    · have hstays := hsteps.stays hout
      have hlimit : (p.enlarge r).1.size ≤ p.settings.searchLimit := not_lt.mp hout
      omega

/-- Every round of a solve observes a space that fits. -/
theorem exists_fits (hd : p.dense.Shaped) (hguess : p.settings.initialGuess ≤ n) :
    ∀ r ∈ p.rounds, ∃ s, p.Fits s ∧ p.Observes s r := by
  intro r hr
  obtain ⟨run, hrun, -⟩ := p.unfolds_run
  have hstep : ∀ {i s r}, p.Fits s → p.roundAt i s = .ok r → p.Fits (p.advance r).1 :=
    fun hs hround => (observes_of_roundAt hround).fits_advance hd hs
  obtain ⟨i, s, hs, hround⟩ := hrun.exists_space (fits_firstSpace hd hguess) hstep r hr
  exact ⟨s, hs, observes_of_roundAt hround⟩

/-- What a restart reports is what it did after some round. -/
theorem Unfolds.exists_restart {index : ℕ} {run : Run α n} {rounds : List (Round α n)}
    (h : p.Unfolds index s run rounds) {i before after : ℕ}
    (hmem : .restart i before after ∈ run.events) :
    ∃ r ∈ rounds, .restart i before after ∈ (p.advance r).2 := by
  induction h with
  | failed => cases hmem
  | ended status applied hround =>
      simp [Run.after, finish, restart_notMem_events] at hmem
  | @advanced _ _ head _ _ applied hround hrest ih =>
      rcases restart_mem_after.mp hmem with hmem | hmem
      · exact ⟨head, List.mem_cons_self .., hmem⟩
      · obtain ⟨r, hr, hrestart⟩ := ih hmem
        exact ⟨r, List.mem_cons_of_mem _ hr, hrestart⟩

/-- A restart comes after a round that has outgrown the limit. -/
theorem exists_outgrown {i before after : ℕ} (h : .restart i before after ∈ p.run.events) :
    ∃ r ∈ p.rounds, p.Outgrows r ∧ before = (p.enlarge r).1.size ∧
      after = (p.advance r).1.size := by
  obtain ⟨run, hrun, hprun⟩ := p.unfolds_run
  rw [hprun] at h
  obtain ⟨r, hr, hmem⟩ := hrun.exists_restart (by simpa [Run.after] using h)
  have hout := (restart_mem_advance hmem).2
  have hadvance := advance_of_outgrows hout
  rw [hadvance] at hmem
  obtain ⟨-, hbefore, hafter⟩ := Event.restart.inj (List.mem_singleton.mp hmem)
  exact ⟨r, hr, hout, hbefore, by rw [hadvance, hafter]⟩

theorem exists_restarted {i before after : ℕ} (h : .restart i before after ∈ p.run.events) :
    ∃ r ∈ p.rounds, before = (p.enlarge r).1.size ∧ after = (p.advance r).1.size := by
  obtain ⟨r, hr, -, hsizes⟩ := p.exists_outgrown h
  exact ⟨r, hr, hsizes⟩

/-- No round of a run, and no restart, has a search space larger than `size`; and the spaces are
those that the run reports. -/
structure StaysWithin (p : Problem α n) (size : ℕ) : Prop where
  reported : Journal.measurements p.run.events = p.rounds.map (·.measurement p.measuresBasis)
  first : p.firstSpace.size ≤ size
  rounds : ∀ r ∈ p.rounds, r.space.size ≤ size ∧ (p.advance r).1.size ≤ size
  measured : ∀ m ∈ Journal.measurements p.run.events, m.searchSpace ≤ size
  restarted : ∀ {i before after}, .restart i before after ∈ p.run.events → after ≤ size

end Problem

namespace Solver

variable {solver : Solver α} {op : LinearOperator α} {draws : ℕ → α} {requested guess : ℕ}

/-- In any arithmetic the search space stays within the dimension of the operator, and within the
limit or the number of guess vectors and tracked roots together. -/
theorem staysWithin_of_pose (hd : solver.dense.Shaped) {p : Problem α op.rows}
    (h : solver.pose draws op requested guess = .ok p) :
    solver.config.effectiveSettings op.rows requested guess = .ok p.settings ∧
      solver.solveWith draws op requested guess = p.run ∧
        p.StaysWithin (min op.rows
          (max p.settings.searchLimit (p.settings.initialGuess + p.settings.trackedRoots))) := by
  have hp := poses_of_pose h
  rw [← hp.dense_eq] at hd
  have hguess : p.settings.initialGuess ≤ op.rows :=
    (solver.config.initialGuess_bounds hp.settings).2.trans (OperatorKind.available_le _ _)
  have hfirst := Problem.fits_firstSpace hd hguess
  have hrounds : ∀ r ∈ p.rounds, r.space.size ≤ p.bound ∧ (p.advance r).1.size ≤ p.bound := by
    intro r hr
    obtain ⟨s, hs, hobserves⟩ := p.exists_fits hd hguess r hr
    exact ⟨hobserves.size_eq.trans_le hs.size_le, (hobserves.fits_advance hd hs).size_le⟩
  refine ⟨hp.settings, solveWith_of_pose h, p.measurements_run, hfirst.size_le, hrounds, ?_, ?_⟩
  · intro m hm
    rw [p.measurements_run] at hm
    obtain ⟨r, hr, rfl⟩ := List.mem_map.mp hm
    exact (hrounds r hr).1
  · intro i before after hrestart
    obtain ⟨r, hr, -, rfl⟩ := p.exists_restarted hrestart
    exact (hrounds r hr).2

/-- A run of two rounds.  The first one ends with a restart that leaves six columns, where the limit
is five. -/
theorem staysWithin_six_rows :
    let op : LinearOperator ℝ := .ofBlock ⟨6, (Square.coupled 6 5 1).toArray⟩
    exact.dense.Shaped ∧ ∃ p : Problem ℝ 6, exact.pose (fun _ => 0) op 1 5 = .ok p ∧
      (p.rounds.length = 2 ∧ .restart 0 6 6 ∈ p.run.events) ∧
        exact.config.effectiveSettings 6 1 5 = .ok p.settings ∧
          exact.solveWith (fun _ => 0) op 1 5 = p.run ∧
            p.StaysWithin (min 6
              (max p.settings.searchLimit (p.settings.initialGuess + p.settings.trackedRoots))) := by
  intro op
  have hd : exact.dense.Shaped := Factorizations.exact_shaped
  obtain ⟨p, hp, hrestart⟩ := exists_restart_six_rows
  exact ⟨hd, p, hp, hrestart, staysWithin_of_pose hd hp⟩

end Solver

end SubspaceEigen
