import SubspaceEigen.Proofs.Dense.Supply
import SubspaceEigen.Proofs.Eigen.General
import SubspaceEigen.Proofs.Ritz.Certificate
import SubspaceEigen.Proofs.Ritz.Pairing

/-!
# What the harmonic extraction selects

The values of a pencil are real or come in conjugate pairs, whose members stand side by side.  The
extraction keeps the real values and one member of every pair, in descending order, and turns the
real part of each vector into a Ritz pair whose value is the quotient of the operator there.
-/

namespace SubspaceEigen

open scoped RealInnerProductSpace
open Column InverseIteration

namespace Conjugates

/-- Eigenpairs, numbered from `start` on, whose values are real or stand beside their conjugates.
Every real one is kept and the first member of every conjugate pair; the number of the second is
noted. -/
inductive Adjacent {m : ℕ} : ℕ → List (ComplexEigenpair ℝ m) → List (ComplexEigenpair ℝ m) →
    List ℕ → Prop where
  | nil (start : ℕ) : Adjacent start [] [] []
  | real {start p rest kept seconds} (hreal : p.value.im = 0)
      (hrest : Adjacent (start + 1) rest kept seconds) :
      Adjacent start (p :: rest) (p :: kept) seconds
  | conjugate {start p q rest kept seconds} (hcomplex : p.value.im ≠ 0)
      (hconj : q.value = p.value.conj) (hrest : Adjacent (start + 2) rest kept seconds) :
      Adjacent start (p :: q :: rest) (p :: kept) ((start + 1) :: seconds)

section Place

variable {α : Type} [Scalar α]

theorem place_append {closed : List (Entry α)} (hclosed : stillOpen closed = []) (index : ℕ)
    (value : ComplexNumber α) (rest : List (Entry α)) :
    place index value (closed ++ rest) = closed ++ place index value rest := by
  induction closed with
  | nil => rfl
  | cons entry closed ih =>
      obtain ⟨hentry, hlater⟩ := List.forall_mem_cons.mp (List.filter_eq_nil_iff.mp hclosed)
      rw [List.cons_append, place, Bool.eq_false_of_not_eq_true hentry, Bool.false_and,
        if_neg Bool.false_ne_true, ih (List.filter_eq_nil_iff.mpr hlater), List.cons_append]

end Place

variable {m start : ℕ} {pairs kept : List (ComplexEigenpair ℝ m)} {seconds : List ℕ}

theorem matching_conj (z : ComplexNumber ℝ) : matching z z.conj = true := by
  have htolerance : (0 : ℝ) < tolerance := by
    unfold tolerance
    norm_num
  rw [matching_iff]
  simp [ComplexNumber.conj, htolerance]

/-- A value and its conjugate beside it make a pair of their own. -/
theorem place_conj {closed : List (Entry ℝ)} (hclosed : stillOpen closed = []) (index : ℕ)
    (z : ComplexNumber ℝ) :
    place (index + 1) z.conj (place index z closed) =
      closed ++ [⟨index, z, some (index + 1)⟩] := by
  have hopened : place index z closed = closed ++ [⟨index, z, none⟩] := by
    simpa [place] using place_append hclosed index z []
  rw [hopened, place_append hclosed, place, matching_conj]
  rfl

namespace Adjacent

theorem lt_of_mem (h : Adjacent start pairs kept seconds) : ∀ k ∈ seconds, start < k := by
  induction h with
  | nil start => nofun
  | real hreal hrest ih => exact fun k hk => (Nat.lt_succ_self _).trans (ih k hk)
  | conjugate hcomplex hconj hrest ih =>
      intro k hk
      rcases List.mem_cons.mp hk with rfl | hk
      · exact Nat.lt_succ_self _
      · exact (Nat.lt_add_of_pos_right (by decide)).trans (ih k hk)

theorem length_eq (h : Adjacent start pairs kept seconds) :
    pairs.length = kept.length + seconds.length := by
  induction h with
  | nil start => rfl
  | real hreal hrest ih =>
      simp only [List.length_cons]
      omega
  | conjugate hcomplex hconj hrest ih =>
      simp only [List.length_cons]
      omega

theorem subset (h : Adjacent start pairs kept seconds) : ∀ p ∈ kept, p ∈ pairs := by
  induction h with
  | nil start => nofun
  | real hreal hrest ih =>
      exact fun p hp => List.mem_cons.mpr ((List.mem_cons.mp hp).imp_right (ih p))
  | conjugate hcomplex hconj hrest ih =>
      intro p hp
      rcases List.mem_cons.mp hp with rfl | hp
      · exact List.mem_cons_self ..
      · exact List.mem_cons_of_mem _ (List.mem_cons_of_mem _ (ih p hp))

/-- Every pair is closed as soon as its second member is taken in. -/
theorem foldl_place (h : Adjacent start pairs kept seconds) {entries : List (Entry ℝ)}
    (hclosed : stillOpen entries = []) :
    let later := ((pairs.map ComplexEigenpair.value).zipIdx start).foldl
      (fun entries (value, index) => if value.im == 0 then entries else place index value entries)
      entries
    stillOpen later = [] ∧
      (closed later).map Prod.snd = (closed entries).map Prod.snd ++ seconds := by
  induction h generalizing entries with
  | nil start => exact ⟨hclosed, (List.append_nil _).symm⟩
  | @real start p rest kept seconds hreal hrest ih =>
      have hp : (p.value.im == 0) = true := decide_eq_true hreal
      simp only [List.map_cons, List.zipIdx_cons, List.foldl_cons, if_pos hp]
      exact ih hclosed
  | @conjugate start p q rest kept seconds hcomplex hconj hrest ih =>
      have hp : ¬ (p.value.im == 0) = true := fun h => hcomplex (of_decide_eq_true h)
      have hq : ¬ (p.value.conj.im == 0) = true := fun h =>
        hcomplex (neg_eq_zero.mp (of_decide_eq_true h))
      simp only [List.map_cons, List.zipIdx_cons, List.foldl_cons, hconj, if_neg hp, if_neg hq,
        place_conj hclosed]
      have hlonger : stillOpen (entries ++ [⟨start, p.value, some (start + 1)⟩]) = [] := by
        rw [stillOpen, List.filter_append, ← stillOpen, hclosed]
        rfl
      obtain ⟨hnone, hseconds⟩ := ih hlonger
      refine ⟨hnone, hseconds.trans ?_⟩
      simp [closed]

theorem exists_pairConjugates (h : Adjacent 0 pairs kept seconds) :
    ∃ conjugates, pairConjugates (pairs.map ComplexEigenpair.value) = .ok conjugates ∧
      conjugates.map Prod.snd = seconds := by
  obtain ⟨hnone, hseconds⟩ := h.foldl_place (rfl : stillOpen ([] : List (Entry ℝ)) = [])
  refine ⟨closed (entries (pairs.map ComplexEigenpair.value)), ?_, hseconds⟩
  have hclosed : stillOpen (entries (pairs.map ComplexEigenpair.value)) = [] := hnone
  rw [pairConjugates_eq, hclosed]
  rfl

end Adjacent

end Conjugates

section Select

open Conjugates

variable {m start : ℕ} {pairs kept : List (ComplexEigenpair ℝ m)} {seconds : List ℕ}

/-- The real part of the vector with norm one. -/
noncomputable def ComplexEigenpair.direction (p : ComplexEigenpair ℝ m) : Vector ℝ m :=
  divide (p.vector.map ComplexNumber.re) (Column.norm (p.vector.map ComplexNumber.re))

theorem ComplexEigenpair.norm_direction {p : ComplexEigenpair ℝ m} (h : HasRealLead p.vector) :
    ‖point p.direction‖ = 1 :=
  norm_divide_norm h.norm_re_pos

/-- The pairs that are kept, in descending order of the real parts of their values. -/
noncomputable def descending (kept : List (ComplexEigenpair ℝ m)) : List (ComplexEigenpair ℝ m) :=
  (sortedBy (fun p => p.value.re) kept).reverse

theorem descending_perm (kept : List (ComplexEigenpair ℝ m)) : (descending kept).Perm kept :=
  (List.reverse_perm _).trans (sortedBy_perm _ _)

theorem descending_pairwise (kept : List (ComplexEigenpair ℝ m)) :
    (descending kept).Pairwise fun p q => q.value.re ≤ p.value.re := by
  rw [descending, List.pairwise_reverse]
  exact (sortedBy_pairwise (fun p : ComplexEigenpair ℝ m => p.value.re) kept).imp
    fun hranks => (Scalar.ranksBefore_real _ _).mp hranks

theorem Conjugates.Adjacent.filterMap_zipIdx (h : Adjacent start pairs kept seconds)
    {f : ComplexEigenpair ℝ m × ℕ → Option (ComplexEigenpair ℝ m)}
    (hdrop : ∀ p, ∀ k ∈ seconds, f (p, k) = none)
    (hkeep : ∀ p k, start ≤ k → k ∉ seconds → f (p, k) = some p) :
    (pairs.zipIdx start).filterMap f = kept := by
  induction h with
  | nil start => rfl
  | @real start p rest kept seconds hreal hrest ih =>
      have hp : f (p, start) = some p :=
        hkeep p start le_rfl fun hmem =>
          (hrest.lt_of_mem start hmem).not_ge (Nat.le_succ start)
      have hlater : (rest.zipIdx (start + 1)).filterMap f = kept :=
        ih hdrop fun q k hk => hkeep q k (Nat.le_of_succ_le hk)
      rw [List.zipIdx_cons, List.filterMap_cons_some hp, hlater]
  | @conjugate start p q rest kept seconds hcomplex hconj hrest ih =>
      have hp : f (p, start) = some p :=
        hkeep p start le_rfl fun hmem =>
          lt_irrefl start ((Adjacent.conjugate hcomplex hconj hrest).lt_of_mem start hmem)
      have hq : f (q, start + 1) = none := hdrop q (start + 1) (List.mem_cons_self ..)
      have hlater : (rest.zipIdx (start + 2)).filterMap f = kept := by
        refine ih (fun r k hk => hdrop r k (List.mem_cons_of_mem _ hk)) ?_
        intro r k hk hmem
        refine hkeep r k (by omega) ?_
        rw [List.mem_cons, not_or]
        exact ⟨by omega, hmem⟩
      rw [List.zipIdx_cons, List.filterMap_cons_some hp, List.zipIdx_cons,
        List.filterMap_cons_none hq, hlater]

def remaining (pairs : List (ComplexEigenpair ℝ m)) (dropped : List ℕ) :
    List (ComplexEigenpair ℝ m) :=
  pairs.zipIdx.filterMap fun (p, k) => if dropped.contains k then none else some p

theorem Conjugates.Adjacent.remaining_eq (h : Adjacent 0 pairs kept seconds) :
    remaining pairs seconds = kept := by
  refine h.filterMap_zipIdx ?_ ?_
  · exact fun p k hk => if_pos (List.contains_iff_mem.mpr hk)
  · exact fun p k _ hk => if_neg fun hmem => hk (List.contains_iff_mem.mp hmem)

/-- Every number that is listed belongs to one pair. -/
theorem length_remaining_add {dropped : List ℕ} (hnodup : dropped.Nodup)
    (hlt : ∀ k ∈ dropped, k < pairs.length) :
    (remaining pairs dropped).length + dropped.length = pairs.length := by
  have hlisted : ((List.range' 0 pairs.length).filter dropped.contains).Perm dropped := by
    rw [List.perm_ext_iff_of_nodup (List.Nodup.filter _ List.nodup_range') hnodup]
    intro k
    rw [List.mem_filter, List.contains_iff_mem, List.mem_range'_1, Nat.zero_add]
    exact ⟨And.right, fun hk => ⟨⟨k.zero_le, hlt k hk⟩, hk⟩⟩
  have hremaining : (remaining pairs dropped).length =
      (List.range' 0 pairs.length).countP fun k => ¬ dropped.contains k := by
    rw [remaining, List.length_filterMap_eq_countP, ← List.zipIdx_map_snd, List.countP_map]
    refine List.countP_congr fun v _ => ?_
    cases dropped.contains v.2 <;> simp
  have hall := List.length_eq_countP_add_countP dropped.contains (l := List.range' 0 pairs.length)
  rw [List.length_range', List.countP_eq_length_filter, hlisted.length_eq, ← hremaining] at hall
  rw [hall, add_comm]

/-- Of vectors with a real lead none is passed over. -/
theorem selectReal_eq (dropped : List ℕ) (hlead : ∀ p ∈ pairs, HasRealLead p.vector) :
    selectReal pairs dropped =
      (descending (remaining pairs dropped)).map ComplexEigenpair.direction := by
  let entry (p : ComplexEigenpair ℝ m) : ℝ × Vector ℝ m := (p.value.re, p.direction)
  have hranks : sortedBy Prod.fst ((remaining pairs dropped).map entry) =
      (sortedBy (fun p => p.value.re) (remaining pairs dropped)).map entry :=
    sortedBy_map _ _ (fun _ _ => rfl) _
  calc
    selectReal pairs dropped =
        (sortedBy Prod.fst ((remaining pairs dropped).map entry)).reverse.map Prod.snd := by
      refine congrArg (fun kept => (sortedBy Prod.fst kept).reverse.map Prod.snd) ?_
      rw [remaining, List.map_filterMap]
      refine List.filterMap_congr fun v hv => ?_
      have hsize := (hlead v.1 (List.fst_mem_of_mem_zipIdx hv)).norm_re_pos
      have hlarge : ¬ (Column.norm (v.1.vector.map ComplexNumber.re) ≤ 0 ∨
          Scalar.isFinite (Column.norm (v.1.vector.map ComplexNumber.re)) = false) := by
        rintro (hle | hinfinite)
        · exact hle.not_gt hsize
        · cases hinfinite
      simp only [if_neg hlarge]
      split <;> rfl
    _ = (descending (remaining pairs dropped)).map ComplexEigenpair.direction := by
      rw [hranks, descending, ← List.map_reverse, List.map_map]
      rfl

end Select

variable {n : ℕ} {f : Euclid n →ₗ[ℝ] Euclid n} {dense : Factorizations ℝ} {s : SearchSpace ℝ n}

/-- The pencil of a compression is solved as the eigenproblem of one matrix. -/
theorem generalizedEigen_compress (cs : Columns ℝ n) (f g : Euclid n →ₗ[ℝ] Euclid n) :
    generalizedEigen dense (cs.compress f) (cs.compress g) =
      (solveLinear? (cs.compression g) (cs.compression f)).bind (squareEigen dense) := by
  have hmetric : (cs.compress g).squareOf? (cs.compress f).rows = some (cs.compression g) :=
    cs.toSquare?_compress g
  simp only [generalizedEigen, Columns.toSquare?_compress, hmetric, Option.bind_eq_bind]
  rfl

/-- The Ritz pair in the direction of an eigenpair of the pencil. -/
noncomputable def ComplexEigenpair.lift (f : Euclid n →ₗ[ℝ] Euclid n) (cs : Columns ℝ n)
    (p : ComplexEigenpair ℝ cs.size) : RitzPair ℝ n cs.size :=
  RitzPair.lift f cs (dot p.direction ((cs.compression f).mulColumn p.direction)) p.direction

/-- The pencil of an updated space is that of the compressions of the map and of its square. -/
theorem pencil_refreshed (hsecond : s.second.isSome)
    {pairs : List (ComplexEigenpair ℝ s.basis.size)}
    (hpairs : generalizedEigen dense (s.basis.compress f) (s.basis.compress (f ∘ₗ f)) =
      some pairs) : Pencil dense (s.refreshed f) (s.basis.compression f) pairs := by
  obtain ⟨_, hkept⟩ := Option.isSome_iff_exists.mp hsecond
  have hmetric : (s.refreshed f).metric? = some (s.basis.compress (f ∘ₗ f)) := by
    have hmap : (s.refreshed f).second = some (s.basis.map (through (f ∘ₗ f))) :=
      congrArg (Option.map fun _ => s.basis.map (through (f ∘ₗ f))) hkept
    rw [SearchSpace.metric?, hmap, ← Columns.gram_map_through]
    rfl
  exact ⟨s.basis.toSquare?_compress f, _, hmetric, hpairs⟩

/-- With the images of the whole basis at hand, there is a Ritz pair for every eigenpair of the pencil
that is kept. -/
theorem Extraction.ofPencil_refreshed (s : SearchSpace ℝ n) (f : Euclid n →ₗ[ℝ] Euclid n)
    {pairs kept : List (ComplexEigenpair ℝ s.basis.size)} {seconds : List ℕ}
    (hlead : ∀ p ∈ pairs, HasRealLead p.vector)
    (hadjacent : Conjugates.Adjacent 0 pairs kept seconds) :
    ofPencil (s.refreshed f) (s.basis.compression f) pairs =
      .ok (⟨s.basis.size, (descending kept).map (ComplexEigenpair.lift f s.basis)⟩,
        seconds.length) := by
  obtain ⟨conjugates, hconjugates, hseconds⟩ := hadjacent.exists_pairConjugates
  have hselected : selectReal pairs seconds =
      (descending kept).map ComplexEigenpair.direction := by
    rw [← hadjacent.remaining_eq]
    exact selectReal_eq seconds hlead
  have hreduced : ofReduced (s.refreshed f)
      (quotients (s.basis.compression f) pairs conjugates) =
        .ok ⟨s.basis.size, (descending kept).map (ComplexEigenpair.lift f s.basis)⟩ := by
    rw [quotients, hseconds, hselected, ofReduced_refreshed, List.map_map, List.map_map]
    rfl
  rw [← hseconds, List.length_map]
  exact ofPencil_eq_ok hconjugates hreduced

theorem harmonicRitz_refreshed (hsecond : s.second.isSome)
    {pairs kept : List (ComplexEigenpair ℝ s.basis.size)} {seconds : List ℕ}
    (hpairs : generalizedEigen dense (s.basis.compress f) (s.basis.compress (f ∘ₗ f)) = some pairs)
    (hadjacent : Conjugates.Adjacent 0 pairs kept seconds) :
    harmonicRitz dense (s.refreshed f) =
      .ok (⟨s.basis.size, (descending kept).map (ComplexEigenpair.lift f s.basis)⟩,
        seconds.length) :=
  (pencil_refreshed hsecond hpairs).harmonicRitz_eq.trans
    (Extraction.ofPencil_refreshed s f (hasRealLead_of_generalizedEigen hpairs) hadjacent)

/-- A Ritz pair in the direction of the real part of an eigenvector of the pencil.  Its value is the
quotient of the map at its vector, and no other value would leave a smaller residual. -/
structure RitzPair.DrawnFrom (f : Euclid n →ₗ[ℝ] Euclid n) (cs : Columns ℝ n)
    (p : ComplexEigenpair ℝ cs.size) (pair : RitzPair ℝ n cs.size) : Prop
    extends pair.Certified f where
  coefficients : pair.coefficients = p.direction
  norm_coefficients : ‖point pair.coefficients‖ = 1
  vector : pair.vector = cs.combine pair.coefficients
  orthogonal : ⟪point pair.vector, point pair.residual⟫ = 0
  least : ∀ mu : ℝ, ‖point pair.residual‖ ≤ ‖f (point pair.vector) - mu • point pair.vector‖

theorem ComplexEigenpair.lift_drawnFrom {cs : Columns ℝ n} (h : cs.IsOrthonormal)
    {p : ComplexEigenpair ℝ cs.size} (hlead : HasRealLead p.vector) :
    (p.lift f cs).DrawnFrom f cs p := by
  have hunit := ComplexEigenpair.norm_direction hlead
  have hcertified : (p.lift f cs).Certified f :=
    RitzPair.lift_certified h hunit (by rw [dot_eq_inner, Square.point_mulColumn])
  exact ⟨hcertified, rfl, hunit, rfl, hcertified.inner_residual, hcertified.norm_residual_le⟩

/-- After an update the harmonic extraction keeps the real values of the pencil and one of every
conjugate pair, in descending order, and counts the pairs. -/
theorem selects_of_update {op : LinearOperator ℝ} (hop : op.ActsAs f) (h : s.Tracks f)
    (hsecond : s.second.isSome) {pairs kept : List (ComplexEigenpair ℝ s.basis.size)}
    {seconds : List ℕ}
    (hpairs : generalizedEigen dense (s.basis.compress f) (s.basis.compress (f ∘ₗ f)) = some pairs)
    (hlength : pairs.length = s.basis.size)
    (hadjacent : Conjugates.Adjacent 0 pairs kept seconds) :
    ∃ next order ritz, (s.update op).outcome = .ok next ∧ next.basis = s.basis ∧
      harmonicRitz dense next = .ok (⟨s.basis.size, ritz⟩, seconds.length) ∧
        ritz.length = s.basis.size - seconds.length ∧ order.Perm kept ∧
          order.Pairwise (fun p q => q.value.re ≤ p.value.re) ∧
            List.Forall₂ (RitzPair.DrawnFrom f s.basis) order ritz := by
  have hlead := hasRealLead_of_generalizedEigen hpairs
  refine ⟨s.refreshed f, descending kept, (descending kept).map (ComplexEigenpair.lift f s.basis),
    SearchSpace.update_eq h hop, rfl, harmonicRitz_refreshed hsecond hpairs hadjacent, ?_,
    descending_perm kept, descending_pairwise kept, ?_⟩
  · have hcount := hadjacent.length_eq
    rw [List.length_map, (descending_perm kept).length_eq]
    omega
  · rw [List.forall₂_map_right_iff, List.forall₂_same]
    intro p hp
    exact ComplexEigenpair.lift_drawnFrom h.orthonormal
      (hlead p (hadjacent.subset p ((descending_perm kept).mem_iff.mp hp)))

/-- A rotation about the third axis. -/
noncomputable def turned : Square ℝ 3 :=
  #v[#v[0, -1, 0], #v[1, 0, 0], #v[0, 0, 1]]

theorem isRegular_turned {sigma : ComplexNumber ℝ} (hplane : 1 + sigma * sigma ≠ 0)
    (hline : 1 - sigma ≠ 0) : IsRegular 3 (shiftedEntry turned sigma) := by
  rw [isRegular_shiftedEntry_iff]
  intro x hx
  have hone : ComplexNumber.ofReal (1 : ℝ) = 1 := rfl
  have hzero : ComplexNumber.ofReal (0 : ℝ) = 0 := rfl
  have hneg : ComplexNumber.ofReal (-1 : ℝ) = -1 := ComplexNumber.ext_parts rfl neg_zero.symm
  have hfirst : x.get 1 = sigma * x.get 0 := by
    simpa [Fin.sum_univ_three, turned, Square.entry, hone, hzero] using hx 0
  have hsecond : -x.get 0 = sigma * x.get 1 := by
    simpa [Fin.sum_univ_three, turned, Square.entry, hneg, hzero] using hx 1
  have hthird : x.get 2 = sigma * x.get 2 := by
    simpa [Fin.sum_univ_three, turned, Square.entry, hone, hzero] using hx 2
  have hx0 : x.get 0 = 0 := by
    refine (mul_eq_zero.mp ?_).resolve_left hplane
    linear_combination -hsecond - sigma * hfirst
  have hx2 : x.get 2 = 0 := by
    refine (mul_eq_zero.mp ?_).resolve_left hline
    linear_combination hthird
  intro z hz
  obtain ⟨i, hi, rfl⟩ := Vector.getElem_of_mem hz
  interval_cases i
  · exact hx0
  · exact hfirst.trans (by rw [hx0, mul_zero])
  · exact hx2

/-- A conjugate pair and a real value, for each of which a vector is found. -/
theorem exists_squareEigen_turned
    (hvalues : dense.eigenvalues turned = some [⟨0, 1⟩, ⟨0, -1⟩, ⟨1, 0⟩]) :
    ∃ p q r, squareEigen dense turned = some [p, q, r] ∧
      Conjugates.Adjacent 0 [p, q, r] [p, r] [1] := by
  have hpos := firstShift_pos turned
  have hregular : ∀ value ∈ ([⟨0, 1⟩, ⟨0, -1⟩, ⟨1, 0⟩] : List (ComplexNumber ℝ)),
      IsRegular 3 (shiftedEntry turned (value + ComplexNumber.ofReal (firstShift turned))) := by
    intro value hvalue
    fin_cases hvalue
    · refine isRegular_turned (fun h => ?_) fun h => ?_
      · exact hpos.ne' (by simpa using congrArg ComplexNumber.re h)
      · simpa using congrArg ComplexNumber.im h
    · refine isRegular_turned (fun h => ?_) fun h => ?_
      · exact hpos.ne' (by simpa using congrArg ComplexNumber.re h)
      · simpa using congrArg ComplexNumber.im h
    · refine isRegular_turned (fun h => ?_) fun h => ?_
      · have hre : 1 + (1 + firstShift turned) * (1 + firstShift turned) = 0 := by
          simpa using congrArg ComplexNumber.re h
        nlinarith
      · exact hpos.ne' (by simpa using congrArg ComplexNumber.re h)
  obtain ⟨pairs, hpairs⟩ := exists_squareEigen (by decide) hvalues hregular
  have hmap := map_value_of_squareEigen hvalues hpairs
  obtain ⟨p, q, r, rfl⟩ := List.length_eq_three.mp
    ((List.length_map ComplexEigenpair.value).symm.trans (congrArg List.length hmap))
  simp only [List.map_cons, List.map_nil, List.cons.injEq, and_true] at hmap
  obtain ⟨hp, hq, hr⟩ := hmap
  refine ⟨p, q, r, hpairs, .conjugate ?_ ?_ (.real ?_ (.nil 3))⟩
  · rw [hp]
    exact one_ne_zero
  · rw [hp, hq]
    rfl
  · rw [hr]

theorem exists_generalizedEigen_turned
    (hvalues : dense.eigenvalues turned = some [⟨0, 1⟩, ⟨0, -1⟩, ⟨1, 0⟩]) :
    let a : Square ℝ 4 := #v[#v[0, 1, 0, 0], #v[-1, 0, 0, 1], #v[0, 0, 1, 0], #v[0, 0, 0, 0]]
    let s := SearchSpace.start ([0, 1, 2].map (Column.unit 4)).toArray 2 true
    s.Tracks a.toLinearMap ∧ ∃ p q r : ComplexEigenpair ℝ s.basis.size,
      generalizedEigen dense (s.basis.compress a.toLinearMap)
          (s.basis.compress (a.toLinearMap ∘ₗ a.toLinearMap)) = some [p, q, r] ∧
        Conjugates.Adjacent 0 [p, q, r] [p, r] [1] := by
  intro a s
  have hlt : ∀ k ∈ [0, 1, 2], k < 4 := by decide
  have hmatrix : s.basis.compression a.toLinearMap =
      (#v[#v[0, 1, 0], #v[-1, 0, 0], #v[0, 0, 1]] : Square ℝ 3) := by
    refine Columns.compression_units a hlt _ fun i j hi hj => ?_
    change i < 3 at hi
    change j < 3 at hj
    interval_cases j <;> interval_cases i <;> rfl
  have hmetric : s.basis.compression (a.toLinearMap ∘ₗ a.toLinearMap) =
      (#v[#v[-1, 0, 0], #v[0, -1, 0], #v[0, 0, 1]] : Square ℝ 3) := by
    rw [Square.toLinearMap_comp]
    refine Columns.compression_units _ hlt _ fun i j hi hj => ?_
    change i < 3 at hi
    change j < 3 at hj
    interval_cases j <;> interval_cases i <;>
      norm_num [a, Square.mulColumn, sum_eq_sum, Fin.sum_univ_four, Square.entry]
  have hsolve : solveLinear? (s.basis.compression (a.toLinearMap ∘ₗ a.toLinearMap))
      (s.basis.compression a.toLinearMap) = some turned := by
    rw [hmatrix, hmetric]
    refine solveLinear?_eq_some (n := 3) (fun x hx z hz => ?_) ?_
    · obtain ⟨i, hi, rfl⟩ := Vector.getElem_of_mem hz
      have hrow := hx ⟨i, hi⟩
      interval_cases i <;> simpa [Fin.sum_univ_three, Square.entry, Vector.get] using hrow
    · ext j hj i hi
      interval_cases j <;> interval_cases i <;>
        simp [turned, Square.mulColumn, sum_eq_sum, Fin.sum_univ_three]
  obtain ⟨p, q, r, hpairs, hadjacent⟩ := exists_squareEigen_turned hvalues
  refine ⟨SearchSpace.tracks_start (Columns.isOrthonormal_units (by decide) hlt) 2 true, p, q, r,
    ?_, hadjacent⟩
  rw [generalizedEigen_compress, hsolve]
  exact hpairs

/-- A rotation that does not stay in its plane. -/
theorem selects_of_update_turned :
    let a : Square ℝ 4 := #v[#v[0, 1, 0, 0], #v[-1, 0, 0, 1], #v[0, 0, 1, 0], #v[0, 0, 0, 0]]
    let op : LinearOperator ℝ := .ofBlock ⟨4, a.toArray⟩
    let s := SearchSpace.start ([0, 1, 2].map (Column.unit 4)).toArray 2 true
    let dense : Factorizations ℝ :=
      { Factorizations.exact with eigenvalues := fun _ => some [⟨0, 1⟩, ⟨0, -1⟩, ⟨1, 0⟩] }
    ∃ pairs kept : List (ComplexEigenpair ℝ s.basis.size),
      op.ActsAs a.toLinearMap ∧ s.Tracks a.toLinearMap ∧ s.second.isSome ∧
        generalizedEigen dense (s.basis.compress a.toLinearMap)
          (s.basis.compress (a.toLinearMap ∘ₗ a.toLinearMap)) = some pairs ∧
        pairs.length = s.basis.size ∧ Conjugates.Adjacent 0 pairs kept [1] ∧
        ∃ next order ritz, (s.update op).outcome = .ok next ∧ next.basis = s.basis ∧
          harmonicRitz dense next = .ok (⟨s.basis.size, ritz⟩, [1].length) ∧
            ritz.length = s.basis.size - [1].length ∧ order.Perm kept ∧
              order.Pairwise (fun p q => q.value.re ≤ p.value.re) ∧
                List.Forall₂ (RitzPair.DrawnFrom a.toLinearMap s.basis) order ritz := by
  intro a op s dense
  have hop : op.ActsAs a.toLinearMap := LinearOperator.ofBlock_actsAs a
  obtain ⟨htracks, p, q, r, hpencil, hadjacent⟩ :=
    exists_generalizedEigen_turned (rfl : dense.eigenvalues turned = _)
  exact ⟨[p, q, r], [p, r], hop, htracks, rfl, hpencil, rfl, hadjacent,
    selects_of_update hop htracks rfl hpencil rfl hadjacent⟩

end SubspaceEigen
