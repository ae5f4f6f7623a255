import Mathlib.Algebra.BigOperators.Group.List.Basic
import Mathlib.Data.List.Forall2
import Mathlib.Tactic.FieldSimp
import Mathlib.Tactic.LinearCombination
import SubspaceEigen.Dense.Elimination
import SubspaceEigen.Proofs.Reals

/-!
# Elimination solves linear systems

Over a field every step of elimination replaces a system by an equivalent one with one row and one
unknown less.  So a factored matrix has exactly one solution for every right-hand side, which is the
one that is computed, and a matrix without a kernel is always factored.
-/

namespace SubspaceEigen.Elimination

section Exchange

variable {γ δ : Type}

theorem exchange_perm (index : ℕ) (items : List γ) : (exchange index items).Perm items := by
  unfold exchange
  split
  · next index first rest =>
    split
    · next item hitem =>
      obtain ⟨hindex, rfl⟩ := List.getElem?_eq_some_iff.mp hitem
      calc
        (rest[index] :: rest.set index first).Perm
            (rest[index] :: first :: rest.eraseIdx index) :=
          (List.set_perm_cons_eraseIdx hindex first).cons _
        _ |>.Perm (first :: rest[index] :: rest.eraseIdx index) := List.Perm.swap ..
        _ |>.Perm (first :: rest) := (List.getElem_cons_eraseIdx_perm hindex).cons _
    · exact .refl _
  · exact .refl _

theorem length_exchange (index : ℕ) (items : List γ) :
    (exchange index items).length = items.length :=
  (exchange_perm index items).length_eq

theorem exists_exchange_eq_cons {index : ℕ} {items : List γ} {item : γ}
    (h : items[index]? = some item) : ∃ others, exchange index items = item :: others := by
  rcases index with _ | index
  · obtain ⟨others, rfl⟩ := List.head?_eq_some_iff.mp (List.head?_eq_getElem?.trans h)
    exact ⟨others, rfl⟩
  · rcases items with _ | ⟨first, rest⟩
    · cases h
    · rw [List.getElem?_cons_succ] at h
      exact ⟨rest.set index first, by rw [exchange, h]⟩

theorem exchange_map (index : ℕ) (f : γ → δ) (items : List γ) :
    exchange index (items.map f) = (exchange index items).map f := by
  rcases index with _ | index
  · rfl
  rcases items with _ | ⟨first, rest⟩
  · rfl
  by_cases hindex : index < rest.length
  · simp [exchange, hindex, List.map_set]
  · simp [exchange, hindex]

theorem forall₂_exchange {R : γ → δ → Prop} (index : ℕ) {a : List γ} {b : List δ}
    (h : a.length = b.length) :
    List.Forall₂ R (exchange index a) (exchange index b) ↔ List.Forall₂ R a b := by
  have hitems : ∀ items : List (γ × δ),
      List.Forall₂ R (items.map Prod.fst) (items.map Prod.snd) ↔ ∀ p ∈ items, R p.1 p.2 := by
    intro items
    rw [List.forall₂_map_left_iff, List.forall₂_map_right_iff, List.forall₂_same]
  obtain ⟨items, rfl, rfl⟩ :
      ∃ items : List (γ × δ), a = items.map Prod.fst ∧ b = items.map Prod.snd :=
    ⟨a.zip b, (List.map_fst_zip h.le).symm, (List.map_snd_zip h.ge).symm⟩
  rw [exchange_map, exchange_map, hitems, hitems]
  constructor
  · intro hall p hp
    exact hall p ((exchange_perm index _).mem_iff.mpr hp)
  · intro hall p hp
    exact hall p ((exchange_perm index _).mem_iff.mp hp)

end Exchange

section Systems

variable {β : Type} [Field β]

def rowDot (row x : List β) : β :=
  (List.zipWith (· * ·) row x).sum

/-- The column `x` solves the system with the given rows and right-hand side. -/
def Solves (rows : List (List β)) (x rhs : List β) : Prop :=
  List.Forall₂ (fun row y => rowDot row x = y) rows rhs

structure IsSquare (count : ℕ) (rows : List (List β)) : Prop where
  height : rows.length = count
  width : ∀ row ∈ rows, row.length = count

omit [Field β] in
theorem IsSquare.perm {count : ℕ} {rows rows' : List (List β)} (h : IsSquare count rows)
    (hperm : rows'.Perm rows) : IsSquare count rows' where
  height := hperm.length_eq.trans h.height
  width row hrow := h.width row (hperm.mem_iff.mp hrow)

/-- The rows take no column but zero to zero. -/
def NoKernel (count : ℕ) (rows : List (List β)) : Prop :=
  ∀ x : List β, x.length = count → (∀ row ∈ rows, rowDot row x = 0) → ∀ z ∈ x, z = 0

@[simp] theorem rowDot_cons (lead : β) (row : List β) (first : β) (x : List β) :
    rowDot (lead :: row) (first :: x) = lead * first + rowDot row x := by
  simp [rowDot]

theorem rowDot_replicate_zero (row : List β) (count : ℕ) :
    rowDot row (List.replicate count 0) = 0 := by
  induction row generalizing count with
  | nil => rfl
  | cons lead row ih =>
      rcases count with _ | count
      · rfl
      · rw [List.replicate_succ, rowDot_cons, mul_zero, ih, add_zero]

theorem solves_replicate_zero {rows : List (List β)} {count : ℕ} (hheight : rows.length = count)
    (x : List β) : Solves rows x (List.replicate count 0) ↔ ∀ row ∈ rows, rowDot row x = 0 := by
  subst hheight
  rw [Solves, ← List.map_const', List.forall₂_map_right_iff, List.forall₂_same]

theorem rowDot_sub_mul (c : β) {row rest : List β} (h : row.length = rest.length) (x : List β) :
    rowDot (List.zipWith (fun a p => a - c * p) row rest) x = rowDot row x - c * rowDot rest x := by
  induction row generalizing rest x with
  | nil =>
      obtain rfl := List.length_eq_zero_iff.mp h.symm
      simp [rowDot]
  | cons a row ih =>
      obtain ⟨p, rest, rfl⟩ := List.exists_cons_of_length_eq_add_one h.symm
      rcases x with _ | ⟨first, x⟩
      · simp [rowDot]
      · rw [List.zipWith_cons_cons, rowDot_cons, rowDot_cons, rowDot_cons,
          ih (Nat.succ.inj h)]
        ring

theorem foldl_sub (items : List β) (first : β) :
    items.foldl (· - ·) first = first - items.sum := by
  induction items generalizing first with
  | nil => simp
  | cons item items ih => rw [List.foldl_cons, ih, List.sum_cons, sub_sub]

/-- The multiple of the pivot row that is taken from a row. -/
def multiple (pivot : β) (row : List β) : β :=
  match row with
  | lead :: _ => lead * (1 / pivot)
  | [] => 0

/-- A row with a multiple of the pivot row taken from it, without its leading entry. -/
def reduceRow (pivot : β) (rest row : List β) : List β :=
  List.zipWith (fun x p => x - multiple pivot row * p) row.tail rest

variable {pivot first : β} {rest : List β} {others : List (List β)} {rhs tail : List β}

def reduceRhs (pivot first : β) (others : List (List β)) (rhs : List β) : List β :=
  List.zipWith (fun y factor => y - factor * first) rhs (others.map (multiple pivot))

theorem length_reduceRhs (h : rhs.length = others.length) :
    (reduceRhs pivot first others rhs).length = rhs.length := by
  rw [reduceRhs, List.length_zipWith, List.length_map, h]
  exact Nat.min_self _

theorem isSquare_reduce {count : ℕ} (h : IsSquare (count + 1) ((pivot :: rest) :: others)) :
    IsSquare count (others.map (reduceRow pivot rest)) where
  height := by
    rw [List.length_map]
    exact Nat.succ.inj h.height
  width := by
    have hrest : rest.length = count := Nat.succ.inj (h.width _ (List.mem_cons_self ..))
    intro row hrow
    obtain ⟨other, hother, rfl⟩ := List.mem_map.mp hrow
    have hlength := h.width other (List.mem_cons_of_mem _ hother)
    rw [reduceRow, List.length_zipWith, List.length_tail, hlength, hrest]
    exact Nat.min_self _

/-- A row and the reduced one say the same, once the first unknown is known. -/
theorem rowDot_reduceRow (hpivot : pivot ≠ 0) {row : List β}
    (hrow : row.length = rest.length + 1) (y : β) :
    rowDot row ((first - rowDot rest tail) / pivot :: tail) = y ↔
      rowDot (reduceRow pivot rest row) tail = y - multiple pivot row * first := by
  obtain ⟨lead, row, rfl⟩ := List.exists_cons_of_length_eq_add_one hrow
  rw [reduceRow, List.tail_cons, rowDot_sub_mul _ (Nat.succ.inj hrow), rowDot_cons]
  have hlead : lead * ((first - rowDot rest tail) / pivot) =
      multiple pivot (lead :: row) * (first - rowDot rest tail) := by
    simp only [multiple]
    field_simp
  rw [hlead]
  constructor
  · intro h
    linear_combination h
  · intro h
    linear_combination h

theorem solves_reduce (hpivot : pivot ≠ 0) (hothers : ∀ row ∈ others, row.length = rest.length + 1)
    (hrhs : rhs.length = others.length) :
    Solves others ((first - rowDot rest tail) / pivot :: tail) rhs ↔
      Solves (others.map (reduceRow pivot rest)) tail (reduceRhs pivot first others rhs) := by
  induction others generalizing rhs with
  | nil =>
      obtain rfl := List.length_eq_zero_iff.mp hrhs
      exact ⟨fun _ => .nil, fun _ => .nil⟩
  | cons row others ih =>
      obtain ⟨y, rhs, rfl⟩ := List.exists_cons_of_length_eq_add_one hrhs
      obtain ⟨hrow, hothers⟩ := List.forall_mem_cons.mp hothers
      have hlater := ih hothers (Nat.succ.inj hrhs)
      simp only [Solves, reduceRhs, List.map_cons, List.zipWith_cons_cons, List.forall₂_cons]
        at hlater ⊢
      rw [rowDot_reduceRow hpivot hrow, hlater]

/-- One step of elimination: the first unknown comes from the pivot row, the others solve the
reduced system. -/
theorem solves_cons_iff (hpivot : pivot ≠ 0) {count : ℕ}
    (hsquare : IsSquare (count + 1) ((pivot :: rest) :: others)) (hrhs : rhs.length = count)
    (unknown : β) :
    Solves ((pivot :: rest) :: others) (unknown :: tail) (first :: rhs) ↔
      unknown = (first - rowDot rest tail) / pivot ∧
        Solves (others.map (reduceRow pivot rest)) tail (reduceRhs pivot first others rhs) := by
  have hrest : rest.length = count := Nat.succ.inj (hsquare.width _ (List.mem_cons_self ..))
  have hheight : others.length = count := Nat.succ.inj hsquare.height
  have hothers : ∀ row ∈ others, row.length = rest.length + 1 := by
    intro row hrow
    rw [hrest]
    exact hsquare.width row (List.mem_cons_of_mem _ hrow)
  have hunknown : pivot * unknown + rowDot rest tail = first ↔
      unknown = (first - rowDot rest tail) / pivot := by
    rw [eq_div_iff hpivot]
    constructor
    · intro h
      linear_combination h
    · intro h
      linear_combination h
  rw [← solves_reduce hpivot hothers (hrhs.trans hheight.symm), Solves, List.forall₂_cons,
    rowDot_cons, hunknown]
  constructor
  · rintro ⟨rfl, hlater⟩
    exact ⟨rfl, hlater⟩
  · rintro ⟨rfl, hlater⟩
    exact ⟨rfl, hlater⟩

/-- What the reduced rows take to zero is the rest of what the rows take to zero. -/
theorem NoKernel.reduce {count : ℕ}
    (h : NoKernel (count + 1) ((pivot :: rest) :: others)) (hpivot : pivot ≠ 0)
    (hsquare : IsSquare (count + 1) ((pivot :: rest) :: others)) :
    NoKernel count (others.map (reduceRow pivot rest)) := by
  intro tail htail hzero z hz
  refine h ((0 - rowDot rest tail) / pivot :: tail) (congrArg Nat.succ htail) ?_ z
    (List.mem_cons_of_mem _ hz)
  intro row hrow
  rcases List.mem_cons.mp hrow with rfl | hrow
  · rw [rowDot_cons]
    field_simp
    ring
  · have hrest : rest.length + 1 = count + 1 := hsquare.width _ (List.mem_cons_self ..)
    have hlength := hsquare.width row (List.mem_cons_of_mem _ hrow)
    rw [rowDot_reduceRow hpivot (hlength.trans hrest.symm), hzero _ (List.mem_map_of_mem hrow),
      mul_zero, sub_zero]

/-- Without a kernel some row has a leading entry that is not zero. -/
theorem NoKernel.exists_lead_ne_zero {count : ℕ} {rows : List (List β)}
    (h : NoKernel (count + 1) rows) (hsquare : IsSquare (count + 1) rows) :
    ∃ lead row, lead :: row ∈ rows ∧ lead ≠ 0 := by
  by_contra hall
  push Not at hall
  refine one_ne_zero (h (1 :: List.replicate count 0) (by simp) ?_ 1 (List.mem_cons_self ..))
  intro row hrow
  obtain ⟨lead, row, rfl⟩ := List.exists_cons_of_length_eq_add_one (hsquare.width row hrow)
  rw [rowDot_cons, hall lead row hrow, zero_mul, rowDot_replicate_zero, add_zero]

theorem solve_cons {index : ℕ} {steps : List (Step β)} (h : exchange index rhs = first :: tail) :
    solve (⟨index, pivot, rest, others.map (multiple pivot)⟩ :: steps) rhs =
      (first - rowDot rest (solve steps (reduceRhs pivot first others tail))) / pivot ::
        solve steps (reduceRhs pivot first others tail) := by
  rw [solve, h]
  simp only [foldl_sub]
  rfl

end Systems

section Factor

variable {α β : Type} [Scalar α] [Pivotal β α] [Field β] [BEq β] [LawfulBEq β]

/-- The index of the row that elimination exchanges with the first one. -/
def leadIndex (rows : List (List β)) : ℕ :=
  pivotIndex (rows.filterMap List.head?)

theorem factorRows?_cons {count : ℕ} {rows others : List (List β)} {pivot : β} {rest : List β}
    (h : exchange (leadIndex rows) rows = (pivot :: rest) :: others) (hpivot : pivot ≠ 0) :
    factorRows? (count + 1) rows = (factorRows? count (others.map (reduceRow pivot rest))).map
      (⟨leadIndex rows, pivot, rest, others.map (multiple pivot)⟩ :: ·) := by
  have hreduced : others.map (reduceRow pivot rest) =
      List.zipWith (fun factor row => List.zipWith (fun x p => x - factor * p) row.tail rest)
        (others.map (multiple pivot)) others := by
    rw [List.zipWith_map_left, List.zipWith_self]
    rfl
  have hne : ¬ (pivot == 0) = true := fun hzero => hpivot (eq_of_beq hzero)
  rw [leadIndex] at h
  simp only [factorRows?, h, if_neg hne, hreduced]
  rfl

theorem factorRows?_succ {count : ℕ} {rows : List (List β)} {steps : List (Step β)} :
    factorRows? (count + 1) rows = some steps ↔
      ∃ pivot rest others later, exchange (leadIndex rows) rows = (pivot :: rest) :: others ∧
        pivot ≠ 0 ∧ factorRows? count (others.map (reduceRow pivot rest)) = some later ∧
          steps = ⟨leadIndex rows, pivot, rest, others.map (multiple pivot)⟩ :: later := by
  rcases hrows : exchange (leadIndex rows) rows with _ | ⟨_ | ⟨pivot, rest⟩, others⟩
  · rw [leadIndex] at hrows
    simp [factorRows?, hrows]
  · rw [leadIndex] at hrows
    simp [factorRows?, hrows]
  · by_cases hpivot : pivot = 0
    · rw [leadIndex] at hrows
      simp [factorRows?, hrows, hpivot]
    · rw [factorRows?_cons hrows hpivot, Option.map_eq_some_iff]
      constructor
      · rintro ⟨later, hlater, rfl⟩
        exact ⟨pivot, rest, others, later, rfl, hpivot, hlater, rfl⟩
      · rintro ⟨pivot, rest, others, later, heq, -, hlater, rfl⟩
        cases heq
        exact ⟨later, hlater, rfl⟩

/-- A factored system has one solution, the one that is computed. -/
theorem solves_iff_eq_solve {count : ℕ} {rows : List (List β)} {steps : List (Step β)}
    (hfactor : factorRows? count rows = some steps) (hsquare : IsSquare count rows) {rhs : List β}
    (hrhs : rhs.length = count) (x : List β) :
    x.length = count ∧ Solves rows x rhs ↔ x = solve steps rhs := by
  induction count generalizing rows steps rhs x with
  | zero =>
      obtain rfl := List.length_eq_zero_iff.mp hsquare.height
      obtain rfl := List.length_eq_zero_iff.mp hrhs
      obtain rfl := Option.some.inj hfactor
      exact ⟨fun h => List.length_eq_zero_iff.mp h.1, fun h => ⟨h ▸ rfl, .nil⟩⟩
  | succ count ih =>
      obtain ⟨pivot, rest, others, later, hrows, hpivot, hlater, rfl⟩ := factorRows?_succ.mp hfactor
      have hexchanged : IsSquare (count + 1) ((pivot :: rest) :: others) :=
        hrows ▸ hsquare.perm (exchange_perm (leadIndex rows) rows)
      have hlength := (length_exchange (leadIndex rows) rhs).trans hrhs
      obtain ⟨first, tail, htail⟩ := List.exists_cons_of_length_eq_add_one hlength
      rw [htail] at hlength
      have hreduced : (reduceRhs pivot first others tail).length = count :=
        (length_reduceRhs (hlength.trans hexchanged.height.symm |> Nat.succ.inj)).trans
          (Nat.succ.inj hlength)
      rw [solve_cons htail]
      rcases x with _ | ⟨unknown, x⟩
      · simp
      have hlast := ih hlater (isSquare_reduce hexchanged) hreduced x
      calc
        (unknown :: x).length = count + 1 ∧ Solves rows (unknown :: x) rhs
          ↔ x.length = count ∧
              Solves ((pivot :: rest) :: others) (unknown :: x) (first :: tail) := by
            rw [← hrows, ← htail, Solves, Solves,
              forall₂_exchange _ (hsquare.height.trans hrhs.symm),
              List.length_cons, Nat.succ_inj]
        _ ↔ unknown = (first - rowDot rest x) / pivot ∧ x.length = count ∧
              Solves (others.map (reduceRow pivot rest)) x (reduceRhs pivot first others tail) := by
            rw [solves_cons_iff hpivot hexchanged (Nat.succ.inj hlength), and_left_comm]
        _ ↔ unknown :: x = _ := by
            rw [hlast, List.cons.injEq]
            constructor
            · rintro ⟨rfl, rfl⟩
              exact ⟨rfl, rfl⟩
            · rintro ⟨rfl, rfl⟩
              exact ⟨rfl, rfl⟩

/-- Only a matrix without a kernel is factored. -/
theorem noKernel_of_factorRows? {count : ℕ} {rows : List (List β)} {steps : List (Step β)}
    (hfactor : factorRows? count rows = some steps) (hsquare : IsSquare count rows) :
    NoKernel count rows := by
  intro x hx hzero z hz
  have hsolve := solves_iff_eq_solve hfactor hsquare (List.length_replicate : (List.replicate
    count (0 : β)).length = count)
  have hx' := (hsolve x).mp ⟨hx, (solves_replicate_zero hsquare.height x).mpr hzero⟩
  have hzeros := (hsolve (List.replicate count 0)).mp ⟨List.length_replicate,
    (solves_replicate_zero hsquare.height _).mpr fun row _ => rowDot_replicate_zero row count⟩
  rw [hx', ← hzeros] at hz
  exact List.eq_of_mem_replicate hz

end Factor

/-- Only zero has a weight as small as that of zero. -/
class Faithful (β : Type) [Zero β] [Pivotal β ℝ] : Prop where
  eq_zero_of_weight_le : ∀ z : β, Pivotal.weight z ≤ (Pivotal.weight (0 : β) : ℝ) → z = 0

section Success

variable {β : Type} [Pivotal β ℝ]

/-- The scan for the pivot: an index with the weight of its entry, which no other outweighs. -/
theorem foldl_weight (first : β) (rest : List β) :
    let best := rest.zipIdx.foldl (fun (best : ℕ × ℝ) (lead, i) =>
      if best.2 < Pivotal.weight lead then (i + 1, Pivotal.weight lead) else best)
      (0, Pivotal.weight first)
    ∃ lead, (first :: rest)[best.1]? = some lead ∧ best.2 = Pivotal.weight lead ∧
      ∀ z ∈ first :: rest, Pivotal.weight z ≤ best.2 := by
  induction rest using List.reverseRecOn with
  | nil =>
      refine ⟨first, rfl, rfl, fun z hz => ?_⟩
      obtain rfl := List.mem_singleton.mp hz
      exact le_rfl
  | append_singleton rest next ih =>
      obtain ⟨lead, hlead, hweight, hall⟩ := ih
      have hmem : ∀ z ∈ first :: (rest ++ [next]), z ∈ first :: rest ∨ z = next := by
        intro z hz
        rw [← List.cons_append, List.mem_append, List.mem_singleton] at hz
        exact hz
      simp only [List.zipIdx_append, List.foldl_append, List.zipIdx_singleton, List.foldl_cons,
        List.foldl_nil]
      split
      · next hmore =>
        refine ⟨next, by simp, rfl, fun z hz => ?_⟩
        rcases hmem z hz with hz | rfl
        · exact (hall z hz).trans hmore.le
        · exact le_rfl
      · next hless =>
        refine ⟨lead, ?_, hweight, fun z hz => ?_⟩
        · rw [← List.cons_append, List.getElem?_append_left (List.getElem?_eq_some_iff.mp hlead).1]
          exact hlead
        · rcases hmem z hz with hz | rfl
          · exact hall z hz
          · exact not_lt.mp hless

theorem exists_getElem?_pivotIndex {leads : List β} (h : leads ≠ []) :
    ∃ lead, leads[pivotIndex leads]? = some lead ∧
      ∀ z ∈ leads, Pivotal.weight z ≤ (Pivotal.weight lead : ℝ) := by
  obtain ⟨first, rest, rfl⟩ := List.exists_cons_of_ne_nil h
  obtain ⟨lead, hlead, hweight, hall⟩ := foldl_weight first rest
  exact ⟨lead, hlead, fun z hz => hweight ▸ hall z hz⟩

variable [Field β]

theorem exists_exchange_leadIndex {count : ℕ} {rows : List (List β)}
    (hsquare : IsSquare (count + 1) rows) :
    ∃ pivot rest others, exchange (leadIndex rows) rows = (pivot :: rest) :: others ∧
      ∀ lead row, lead :: row ∈ rows → Pivotal.weight lead ≤ (Pivotal.weight pivot : ℝ) := by
  obtain ⟨items, rfl⟩ : ∃ items : List (β × List β), rows = items.map fun p => p.1 :: p.2 := by
    refine ⟨rows.map fun row => (row.headD 0, row.tail), ?_⟩
    rw [List.map_map]
    refine (List.map_id rows).symm.trans (List.map_congr_left fun row hrow => ?_)
    obtain ⟨lead, row, rfl⟩ := List.exists_cons_of_length_eq_add_one (hsquare.width row hrow)
    rfl
  have hleads : (items.map fun p => p.1 :: p.2).filterMap List.head? = items.map Prod.fst := by
    rw [List.filterMap_map, ← List.filterMap_eq_map]
    rfl
  have hne : items.map Prod.fst ≠ [] := by
    rw [← List.length_pos_iff, List.length_map, ← List.length_map fun p => p.1 :: p.2,
      hsquare.height]
    exact Nat.succ_pos count
  obtain ⟨pivot, hpivot, hheaviest⟩ := exists_getElem?_pivotIndex hne
  rw [List.getElem?_map, Option.map_eq_some_iff] at hpivot
  obtain ⟨⟨pivot, rest⟩, hitem, rfl⟩ := hpivot
  obtain ⟨others, hothers⟩ := exists_exchange_eq_cons hitem
  refine ⟨pivot, rest, others.map fun p => p.1 :: p.2, ?_, fun lead row hrow => ?_⟩
  · rw [leadIndex, hleads, exchange_map, hothers, List.map_cons]
  · obtain ⟨⟨lead', row'⟩, hmem, heq⟩ := List.mem_map.mp hrow
    obtain ⟨rfl, rfl⟩ := List.cons.inj heq
    exact hheaviest _ (List.mem_map_of_mem hmem)

/-- A matrix without a kernel is factored. -/
theorem NoKernel.exists_factorRows? [BEq β] [LawfulBEq β] [Faithful β] {count : ℕ}
    {rows : List (List β)}
    (hsquare : IsSquare count rows) (hkernel : NoKernel count rows) :
    ∃ steps, factorRows? count rows = some steps := by
  induction count generalizing rows with
  | zero => exact ⟨[], rfl⟩
  | succ count ih =>
      obtain ⟨pivot, rest, others, hrows, hheaviest⟩ := exists_exchange_leadIndex hsquare
      have hperm : ((pivot :: rest) :: others).Perm rows := hrows ▸ exchange_perm _ rows
      have hpivot : pivot ≠ 0 := by
        rintro rfl
        obtain ⟨lead, row, hrow, hlead⟩ := hkernel.exists_lead_ne_zero hsquare
        exact hlead (Faithful.eq_zero_of_weight_le lead (hheaviest lead row hrow))
      have hexchanged : NoKernel (count + 1) ((pivot :: rest) :: others) :=
        fun x hx hzero => hkernel x hx fun row hrow => hzero row (hperm.mem_iff.mpr hrow)
      obtain ⟨later, hlater⟩ := ih (isSquare_reduce (hsquare.perm hperm))
        (hexchanged.reduce hpivot (hsquare.perm hperm))
      exact ⟨_, factorRows?_succ.mpr ⟨pivot, rest, others, later, hrows, hpivot, hlater, rfl⟩⟩

end Success

end SubspaceEigen.Elimination
