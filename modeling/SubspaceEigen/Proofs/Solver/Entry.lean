import SubspaceEigen.Proofs.Solver.Refusals
import SubspaceEigen.Solver.Entry

/-!
# Requests through the two entry points

Both entry points set the limit of the search space before the number of eigenpairs is checked, to
ten times that number in words of 64 bits.  The product is zero for no eigenpairs, and it wraps to
zero for `2⁶³` of them; these two requests are turned down for a limit that nobody has asked for.
Every other one is turned down for the number of eigenpairs if there are too many of them, and it is
never turned down for the settings.
-/

namespace SubspaceEigen

open Objection

variable {α : Type}

/-- The numbers of which ten times as many are none in words of 64 bits. -/
theorem limit_eq_zero_iff (requested : UInt64) :
    UInt64.ofNat (10 * requested.toNat) = 0 ↔
      requested = 0 ∨ requested = 0x8000000000000000 := by
  have hhalf : (0x8000000000000000 : UInt64).toNat = 2 ^ 63 := by simp
  have hbound : requested.toNat < 2 ^ 63 * 2 := requested.toNat_lt
  have hcoprime : Nat.Coprime (2 ^ 63) 5 := Nat.Coprime.pow_left 63 (by decide)
  simp only [← UInt64.toNat_inj, hhalf, UInt64.toNat_ofNat', UInt64.toNat_zero]
  generalize requested.toNat = r at hbound ⊢
  calc
    10 * r % 2 ^ 64 = 0 ↔ 2 ^ 63 * 2 ∣ 5 * r * 2 := by
      rw [← Nat.dvd_iff_mod_eq_zero, pow_succ, Nat.mul_right_comm]
    _ ↔ 2 ^ 63 ∣ 5 * r := Nat.mul_dvd_mul_iff_right two_pos
    _ ↔ 2 ^ 63 ∣ r := hcoprime.dvd_mul_left
    _ ↔ r = 0 ∨ r = 2 ^ 63 := by
      constructor
      · rintro ⟨q, rfl⟩
        have hq : q < 2 := Nat.lt_of_mul_lt_mul_left hbound
        interval_cases q
        · exact .inl rfl
        · exact .inr rfl
      · rintro (rfl | rfl)
        · exact dvd_zero _
        · exact dvd_rfl

def RefusesRequest {β : Type} (x : Except (Failure α) β) : Prop :=
  ∃ cause, x = .error (.error (.request cause))

def RefusesSettings {β : Type} (x : Except (Failure α) β) : Prop :=
  ∃ cause, x = .error (.error (.setting cause))

theorem map_eq_error_iff {β γ ε : Type} {f : β → γ} {x : Except ε β} {e : ε} :
    x.map f = .error e ↔ x = .error e := by
  cases x with
  | error e' => simp [Except.map]
  | ok b => simp [Except.map]

variable [Scalar α]

/-- The settings that an entry point takes over are valid. -/
structure Config.Serves (c : Config α) : Prop where
  maxIterations : c.maxIterations ≠ 0
  tolerance : Scalar.isFinite c.tolerance = true ∧ 0 < c.tolerance
  guessNoise : Scalar.isFinite c.guessNoise = true ∧ 0 ≤ c.guessNoise

theorem Config.standard_serves : (standard : Config Binary64).Serves := by
  obtain ⟨hrounds, htolerance, -, hnoise⟩ := validate_eq_ok_iff.mp standard_validate
  exact ⟨hrounds, htolerance, hnoise⟩

namespace Solver

theorem outcome_eq_error_iff (solver : Solver α) (draws : ℕ → α) (op : LinearOperator α)
    (requested guess : ℕ) {e : Error α} (he : ¬ e.IsHarmonic) :
    (solver.solveWith draws op requested guess).outcome = .error (.error e) ↔
      First (solver.objections op.rows op.cols op.diagonal requested) (.error e) := by
  rw [← solver.settles_pose draws op requested guess]
  unfold solveWith
  cases solver.pose draws op requested guess with
  | error f => simp
  | ok p => simpa using fun hp => he (p.isHarmonic_of_outcome hp)

/-- What is held against a request with valid settings on a square operator with its diagonal: a
limit of nothing, or else the number of eigenpairs. -/
theorem first_forRequest_iff {solver : Solver α} (h : solver.config.Serves) (kind : OperatorKind)
    (requested : UInt64) {n cols : ℕ} {diagonal : Except Fault (Array α)} {d : Array α}
    (hsquare : cols = n) (hdiagonal : diagonal = .ok d) (hsize : d.size = n) (e : Failure α) :
    First ({ solver with config := solver.config.forRequest kind requested.toNat }.objections
        n cols diagonal requested.toNat) e ↔
      (requested = 0 ∨ requested = 0x8000000000000000) ∧ .error (.setting .noSearchSpace) = e ∨
        ¬ (requested = 0 ∨ requested = 0x8000000000000000) ∧ kind.available n < requested.toNat ∧
          .error (.request (.tooMany requested.toNat (kind.available n) n
            (OperatorKind.vocabulary.label kind))) = e := by
  have hzero : requested.toNat = 0 → requested = 0 := fun h => UInt64.toNat_inj.mp h
  simp only [objections, Config.objections, Config.forRequest, shapeObjections,
    OperatorKind.objections, List.cons_append, List.nil_append, first_cons_iff, h.maxIterations,
    h.tolerance, h.guessNoise, not_true, false_and, false_or, not_false_iff, true_and, ne_eq,
    hsquare, hdiagonal, hsize, not_first_nil, and_false, or_false, Option.some_inj, limit_eq_zero_iff]
  tauto

end Solver

/-- How an entry point ends that has `available` eigenpairs to serve.  It turns down the two requests
whose limit comes out as nothing, for the settings, and the others exactly if they are too large. -/
structure Classifies {β : Type} (requested : UInt64) (available : ℕ)
    (x : Except (Failure α) β) : Prop where
  noSearchSpace : requested = 0 ∨ requested = 0x8000000000000000 →
    x = .error (.error (.setting .noSearchSpace))
  settings_iff : RefusesSettings x ↔ requested = 0 ∨ requested = 0x8000000000000000
  request_iff : RefusesRequest x ↔
    available < requested.toNat ∧ requested ≠ 0x8000000000000000

/-- An entry point whose errors are the objections to its request, but for those of the reduced
problems, classifies it. -/
theorem classifies_of_first {solver : Solver α} (h : solver.config.Serves) {kind : OperatorKind}
    {requested : UInt64} {n cols : ℕ} {diagonal : Except Fault (Array α)} {d : Array α}
    (hsquare : cols = n) (hdiagonal : diagonal = .ok d) (hsize : d.size = n) {β : Type}
    {x : Except (Failure α) β}
    (hx : ∀ e : Error α, ¬ e.IsHarmonic → (x = .error (.error e) ↔
      First ({ solver with config := solver.config.forRequest kind requested.toNat }.objections
        n cols diagonal requested.toNat) (.error e))) :
    Classifies requested (kind.available n) x := by
  have hsetting : ∀ cause, x = .error (.error (.setting cause)) ↔
      (requested = 0 ∨ requested = 0x8000000000000000) ∧ .noSearchSpace = cause := by
    intro cause
    rw [hx (.setting cause) nofun,
      Solver.first_forRequest_iff h kind requested hsquare hdiagonal hsize]
    simp
  have hrequest : ∀ cause, x = .error (.error (.request cause)) ↔
      ¬ (requested = 0 ∨ requested = 0x8000000000000000) ∧ kind.available n < requested.toNat ∧
        .tooMany requested.toNat (kind.available n) n (OperatorKind.vocabulary.label kind) =
          cause := by
    intro cause
    rw [hx (.request cause) nofun,
      Solver.first_forRequest_iff h kind requested hsquare hdiagonal hsize]
    simp
  exact {
    noSearchSpace := fun hnone => (hsetting _).mpr ⟨hnone, rfl⟩
    settings_iff := by
      simp only [RefusesSettings, hsetting, exists_and_left, exists_eq', and_true]
    request_iff := by
      have hpos : kind.available n < requested.toNat → requested ≠ 0 := by
        rintro hlt rfl
        exact Nat.not_lt_zero _ hlt
      simp only [RefusesRequest, hrequest, exists_and_left, exists_eq', and_true]
      tauto }

/-- The errors of a composed request are the objections to it, but for those of the pencils. -/
theorem solveComposed_eq_error_iff {solver : Solver α} {h : PairedOperator α} {requested : ℕ}
    {e : Error α} (he : ¬ e.IsHarmonic) :
    solveComposed solver h requested = .error (.error e) ↔
      First ({ solver with config := solver.config.forRequest .hamiltonian requested }.objections
        h.toOperator.rows h.toOperator.cols h.toOperator.diagonal requested) (.error e) := by
  let paired : Solver α := { solver with config := solver.config.forRequest .hamiltonian requested }
  rw [← paired.outcome_eq_error_iff (Noise.draw solver.config.seed) h.toOperator requested 0 he]
  unfold solveComposed
  simp only [Solver.solve, Config.forRequest, paired]
  split
  · next hsolve => rw [hsolve]; simp
  · next hsolve =>
    rw [hsolve]
    split
    · simp
    · simp

theorem size_pairedDiagonal {h : PairedOperator α} {d : Array α} (hd : h.first.diagonal = .ok d)
    (hsize : d.size = h.first.rows) :
    ∃ e, h.toOperator.diagonal = .ok e ∧ e.size = h.toOperator.rows := by
  refine ⟨d ++ d.map fun x => -x, ?_, ?_⟩
  · show h.diagonal = _
    rw [PairedOperator.diagonal, hd]
    rfl
  · show _ = h.first.rows + h.second.rows
    rw [Array.size_append, Array.size_map, hsize, h.same_size]

theorem solveSymmetric_classifies {solver : Solver α} (h : solver.config.Serves)
    (requested : UInt64) {op : LinearOperator α} {d : Array α} (hsquare : op.cols = op.rows)
    (hdiagonal : op.diagonal = .ok d) (hsize : d.size = op.rows) :
    Classifies requested op.rows (solveSymmetric solver op requested.toNat).outcome :=
  have hclassify : Classifies requested (OperatorKind.symmetric.available op.rows)
      (solveSymmetric solver op requested.toNat).outcome :=
    classifies_of_first h hsquare hdiagonal hsize
      fun _ he => Solver.outcome_eq_error_iff _ _ op requested.toNat 0 he
  hclassify

/-- A paired request is classified by the rows of either block: the composed operator has twice as
many, and half of its eigenpairs can be served. -/
theorem solvePaired_classifies {solver : Solver α} (h : solver.config.Serves) (requested : UInt64)
    {a b : LinearOperator α} {d : Array α} (ha : a.cols = a.rows) (hb : b.cols = b.rows)
    (hab : b.rows = a.rows) (hdiagonal : a.diagonal = .ok d) (hsize : d.size = a.rows) :
    Classifies requested a.rows (solvePaired solver a b requested.toNat) := by
  let composed : PairedOperator α := ⟨a, b, ha, hb, hab⟩
  have hcompose : PairedOperator.compose a b = .ok composed := by
    rw [PairedOperator.compose, dif_pos ha, dif_pos hb, dif_pos hab]
  obtain ⟨e, he, hpaired⟩ := size_pairedDiagonal (h := composed) hdiagonal hsize
  have havailable : OperatorKind.hamiltonian.available composed.toOperator.rows = a.rows := by
    show a.rows + b.rows - (a.rows + b.rows) / 2 = a.rows
    omega
  have hsquare : composed.toOperator.cols = composed.toOperator.rows := rfl
  rw [← havailable]
  refine classifies_of_first h hsquare he hpaired fun cause hcause => ?_
  rw [solvePaired, hcompose]
  exact Iff.trans map_eq_error_iff (solveComposed_eq_error_iff hcause)

/-- The entry points classify a request in one way, for an operator with as many eigenpairs to serve
as it has rows, and for two blocks with as many as either of them. -/
theorem entries_classify (solver : Solver α) (h : solver.config.Serves) (requested : UInt64) :
    (∀ (op : LinearOperator α) (d : Array α), op.cols = op.rows → op.diagonal = .ok d →
      d.size = op.rows →
        Classifies requested op.rows (solveSymmetric solver op requested.toNat).outcome) ∧
    ∀ (a b : LinearOperator α) (d : Array α), a.cols = a.rows → b.cols = b.rows →
      b.rows = a.rows → a.diagonal = .ok d → d.size = a.rows →
        Classifies requested a.rows (solvePaired solver a b requested.toNat) :=
  ⟨fun _ _ hsquare hdiagonal hsize => solveSymmetric_classifies h requested hsquare hdiagonal hsize,
    fun _ _ _ ha hb hab hdiagonal hsize =>
      solvePaired_classifies h requested ha hb hab hdiagonal hsize⟩

/-- On floating-point numbers with the standard settings: three eigenpairs of an identity with two
rows are too many, and so are three excitations of two such blocks. -/
theorem entries_classify_identity :
    let solver : Solver Binary64 := ⟨.standard, .standard, true, fun _ => 0⟩
    let a : Square Binary64 2 := Square.identity 2
    let op : LinearOperator Binary64 := .ofBlock ⟨2, a.toArray⟩
    solver.config.Serves ∧ op.cols = op.rows ∧
      (∃ d, op.diagonal = .ok d ∧ d.size = op.rows) ∧
        Classifies 3 2 (solveSymmetric solver op 3).outcome ∧
          Classifies 3 2 (solvePaired solver op op 3) := by
  intro solver a op
  have hserves : solver.config.Serves := Config.standard_serves
  obtain ⟨d, hd, hsize⟩ := LinearOperator.exists_diagonal_ofBlock a
  have hclassify := entries_classify solver hserves 3
  exact ⟨hserves, rfl, ⟨d, hd, hsize⟩, hclassify.1 op d rfl hd hsize,
    hclassify.2 op op d rfl rfl rfl hd hsize⟩

/-- No eigenpairs of an identity with two rows are not turned down as a request, with the standard
settings on floating-point numbers, but for a limit of the search space. -/
theorem not_refusesRequest_of_nothing :
    let solver : Solver Binary64 := ⟨.standard, .standard, true, fun _ => 0⟩
    let a : Square Binary64 2 := Square.identity 2
    let op : LinearOperator Binary64 := .ofBlock ⟨2, a.toArray⟩
    solver.config.Serves ∧ op.cols = op.rows ∧
      (∃ d, op.diagonal = .ok d ∧ d.size = op.rows) ∧
        (solveSymmetric solver op 0).outcome = .error (.error (.setting .noSearchSpace)) ∧
          ¬ (RefusesRequest (solveSymmetric solver op 0).outcome ↔ 0 = 0 ∨ op.rows < 0) := by
  intro solver a op
  obtain ⟨d, hd, hsize⟩ := LinearOperator.exists_diagonal_ofBlock a
  have hclassify : Classifies 0 2 (solveSymmetric solver op 0).outcome :=
    solveSymmetric_classifies Config.standard_serves 0 rfl hd hsize
  refine ⟨Config.standard_serves, rfl, ⟨d, hd, hsize⟩, hclassify.noSearchSpace (.inl rfl), ?_⟩
  intro hclaim
  obtain ⟨hmany, -⟩ := hclassify.request_iff.mp (hclaim.mpr (.inl rfl))
  exact Nat.not_lt_zero _ hmany

end SubspaceEigen
