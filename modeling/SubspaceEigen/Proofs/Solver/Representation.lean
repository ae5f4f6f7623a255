import SubspaceEigen.Proofs.Operator.Paired
import SubspaceEigen.Proofs.Operator.Sparse
import SubspaceEigen.Proofs.SearchSpace.Update
import SubspaceEigen.Proofs.Solver.Congruence
import SubspaceEigen.Proofs.Solver.Requests
import SubspaceEigen.Proofs.Solver.Restarts

/-!
# Representations of a matrix

A square matrix can be given as a dense matrix, as a sparse one, by its rows or, if it has the form
`[[A, B], [-B, -A]]`, by representations of `A` and `B`.  Each of these is built to an operator that
represents the matrix.

A solve asks an operator for its shape and its diagonal and, round by round, for its products with
blocks of the right height.  The answers are those of the matrix, so the run is that of the matrix,
whichever representation was built.
-/

namespace SubspaceEigen

variable {n : ℕ}

/-- The ways to give a square matrix, by its size. -/
inductive Representation : ℕ → Type where
  /-- All entries. -/
  | dense {n : ℕ} (a : Square ℝ n) : Representation n
  /-- A sparse matrix, of the diagonal and the entries whose magnitude exceeds a limit. -/
  | thinned {n : ℕ} (a : Square ℝ n) (limit : ℝ) : Representation n
  /-- A sparse matrix, of entries in any order and any number of them for each position. -/
  | triplets (n : ℕ) (entries : List (Triplet ℝ)) (inside : ∀ t ∈ entries, t.row < n ∧ t.col < n) :
      Representation n
  /-- A source of the rows. -/
  | rowwise {n : ℕ} (a : Square ℝ n) : Representation n
  /-- Two blocks, in any representation. -/
  | paired {n : ℕ} (first second : Representation n) : Representation (n + n)

namespace Representation

noncomputable def matrix {n : ℕ} : Representation n → Square ℝ n
  | dense a => a
  | thinned a limit => a.thinned limit
  | triplets n entries _ => .ofTriplets n entries
  | rowwise a => a
  | paired first second => first.matrix.paired second.matrix

noncomputable def build {n : ℕ} : Representation n → Except OperatorError (LinearOperator ℝ)
  | dense (n := n) a => .ok (.ofBlock ⟨n, a.toArray⟩)
  | thinned (n := n) a limit =>
    (SparseMatrix.ofBlock ⟨n, a.toArray⟩ limit).map SparseMatrix.toOperator
  | triplets n entries _ => (SparseMatrix.ofTriplets n entries).map SparseMatrix.toOperator
  | rowwise a => .ok (RowSource.ofSquare a).toOperator
  | paired first second => do
    let a ← first.build
    let b ← second.build
    return (← PairedOperator.compose a b).toOperator

theorem exists_build (r : Representation n) : ∃ op, r.build = .ok op ∧ op.Represents r.matrix := by
  induction r with
  | dense a => exact ⟨_, rfl, LinearOperator.ofBlock_represents a⟩
  | thinned a limit =>
      obtain ⟨m, hm, hrepresents⟩ := SparseMatrix.ofBlock_represents a limit
      exact ⟨m.toOperator, by rw [build, hm]; rfl, hrepresents⟩
  | triplets n entries inside =>
      obtain ⟨m, hm, hrepresents⟩ := SparseMatrix.ofTriplets_represents inside
      exact ⟨m.toOperator, by rw [build, hm]; rfl, hrepresents⟩
  | rowwise a => exact ⟨_, rfl, RowSource.ofSquare_represents a⟩
  | paired first second hfirst hsecond =>
      obtain ⟨a, ha, harepresents⟩ := hfirst
      obtain ⟨b, hb, hbrepresents⟩ := hsecond
      obtain ⟨h, hcompose, hrepresents⟩ :=
        PairedOperator.compose_represents harepresents hbrepresents
      have hbuild : (paired first second).build = .ok h.toOperator := by
        simp only [build, ha, hb, bind, Except.bind, hcompose]
        rfl
      exact ⟨h.toOperator, hbuild, hrepresents⟩

end Representation

namespace LinearOperator.Represents

variable {op op' : LinearOperator ℝ} {a : Square ℝ n}

/-- An update passes blocks of the height of the matrix only. -/
theorem rows_of_mem_requests (h : op.Represents a) {s : SearchSpace ℝ n} {x : Block ℝ}
    (hx : x ∈ s.requests op) : ∃ cs : Columns ℝ n, x = ⟨n, cs⟩ := by
  unfold SearchSpace.requests at hx
  split at hx
  · cases hx
  split at hx
  · next image _ himage =>
    rcases List.mem_cons.mp hx with rfl | hx
    · exact ⟨_, rfl⟩
    · rw [List.mem_singleton.mp hx]
      exact ⟨_, (Except.ok.inj ((h.apply_eq _).symm.trans himage)).symm⟩
  · rw [List.mem_singleton.mp hx]
    exact ⟨_, rfl⟩

/-- Operators that represent the same matrix update a space alike. -/
theorem update_eq (h : op.Represents a) (h' : op'.Represents a) (s : SearchSpace ℝ n) :
    s.update op' = s.update op := by
  refine SearchSpace.update_congr fun x hx => ?_
  obtain ⟨cs, rfl⟩ := h.rows_of_mem_requests hx
  rw [h.apply_eq, h'.apply_eq]

end LinearOperator.Represents

def Run.cast {α : Type} {m n : ℕ} (h : m = n) (run : Run α m) : Run α n :=
  h ▸ run

namespace Solver

theorem solveWith_cast {α : Type} [Scalar α] (solver : Solver α) (draws : ℕ → α)
    (op : LinearOperator α) (requested guess : ℕ) (h : op.rows = n) :
    (solver.solveWith draws op requested guess).cast h =
      match solver.check n op.cols op.diagonal requested guess with
      | .error e => ⟨.error e, [], 0⟩
      | .ok checked => (solver.problemOf draws op requested checked).run := by
  subst h
  rw [solveWith, pose_eq_check]
  cases solver.check op.rows op.cols op.diagonal requested guess <;> rfl

variable {op op' : LinearOperator ℝ} {a : Square ℝ n}

theorem alike_problemOf (h : op.Represents a) (h' : op'.Represents a) (solver : Solver ℝ)
    (draws : ℕ → ℝ) (requested : ℕ) (checked : Vector ℝ n × EffectiveSettings) :
    (solver.problemOf draws op requested checked).Alike
      (solver.problemOf draws op' requested checked) where
  firstSpace := rfl
  roundAt index s := by
    simp only [Problem.roundAt, problemOf, h.update_eq h']
    rfl
  passed s := by simp only [problemOf, h.update_eq h']
  requested := rfl
  measuresBasis := rfl
  enlarge _ := rfl
  restartBasis _ _ _ := rfl
  finish _ _ := rfl

theorem run_problemOf (h : op.Represents a) (h' : op'.Represents a) (solver : Solver ℝ)
    (draws : ℕ → ℝ) (requested : ℕ) (checked : Vector ℝ n × EffectiveSettings) :
    (solver.problemOf draws op' requested checked).run =
      (solver.problemOf draws op requested checked).run :=
  congrArg (Run.after [.started _] 0)
    ((alike_problemOf h h' solver draws requested checked).iterate le_rfl (.inl rfl))

/-- A solve sees of an operator the matrix that it represents. -/
theorem solveWith_represents (h : op.Represents a) (h' : op'.Represents a) (solver : Solver ℝ)
    (draws : ℕ → ℝ) (requested guess : ℕ) :
    (solver.solveWith draws op' requested guess).cast h'.rows_eq =
      (solver.solveWith draws op requested guess).cast h.rows_eq := by
  simp only [solveWith_cast, h.cols_eq, h.diagonal_eq, h'.cols_eq, h'.diagonal_eq,
    run_problemOf h h']

end Solver

/-- Every representation is built to an operator that represents its matrix, and representations of
one matrix have the same runs. -/
theorem Representation.agree (r s : Representation n) (h : s.matrix = r.matrix) :
    ∃ op op', r.build = .ok op ∧ s.build = .ok op' ∧
      op.Represents r.matrix ∧ op'.Represents r.matrix ∧
        ∃ (hrows : op.rows = n) (hrows' : op'.rows = n),
          ∀ (solver : Solver ℝ) (draws : ℕ → ℝ) (requested guess : ℕ),
            (solver.solveWith draws op' requested guess).cast hrows' =
              (solver.solveWith draws op requested guess).cast hrows := by
  obtain ⟨op, hop, hrepresents⟩ := r.exists_build
  obtain ⟨op', hop', hrepresents'⟩ := s.exists_build
  rw [h] at hrepresents'
  exact ⟨op, op', hop, hop', hrepresents, hrepresents', hrepresents.rows_eq,
    hrepresents'.rows_eq, Solver.solveWith_represents hrepresents hrepresents'⟩

/-- The matrix with rows `(2, 1)` and `(-1, -2)`, as a whole and as a pair of blocks. -/
theorem Representation.agree_pair :
    let r : Representation 2 := dense #v[#v[2, -1], #v[1, -2]]
    let s : Representation 2 :=
      paired (triplets 1 [⟨0, 0, 3⟩, ⟨0, 0, -1⟩] (by decide)) (rowwise #v[#v[1]])
    s.matrix = r.matrix ∧
      ∃ op op', r.build = .ok op ∧ s.build = .ok op' ∧
        op.Represents r.matrix ∧ op'.Represents r.matrix ∧
          ∃ (hrows : op.rows = 2) (hrows' : op'.rows = 2),
            ∀ (solver : Solver ℝ) (draws : ℕ → ℝ) (requested guess : ℕ),
              (solver.solveWith draws op' requested guess).cast hrows' =
                (solver.solveWith draws op requested guess).cast hrows := by
  intro r s
  have htriplets : Square.ofTriplets 1 [⟨0, 0, 3⟩, ⟨0, 0, -1⟩] = #v[#v[2]] := by
    ext j hj i hi
    obtain rfl := Nat.lt_one_iff.mp hj
    obtain rfl := Nat.lt_one_iff.mp hi
    simp [Square.ofTriplets]
    norm_num
  have hsame : s.matrix = r.matrix := by
    simp only [s, r, matrix, htriplets, Square.paired]
    simp [Column.negate]
  exact ⟨hsame, r.agree s hsame⟩

end SubspaceEigen
