import Mathlib.Algebra.Ring.Nat
import Mathlib.Data.List.Basic
import SubspaceEigen.SearchSpace

/-!
# Updates in any arithmetic

An update leaves the basis and the flags alone.  It passes the basis columns without images to the
operator, all in one block, and where second images are kept it passes the images on as well.  This
module says which blocks these are and how many columns they have; without columns to pass, the
operator is not consulted at all.

Nothing is assumed of the operator.  That an image has as many columns as its block is seen
afterwards, when the images of the space fit its basis.
-/

namespace SubspaceEigen.SearchSpace

variable {α : Type} [Scalar α] {n : ℕ} {s updated : SearchSpace α n} {op : LinearOperator α}

def fresh (s : SearchSpace α n) : Block α :=
  ⟨n, s.basis.extract s.computed s.basis.size⟩

/-- The blocks that an update passes to the operator, in order. -/
def requests (s : SearchSpace α n) (op : LinearOperator α) : List (Block α) :=
  if s.basis.size ≤ s.computed then []
  else
    match s.second, op.apply s.fresh with
    | some _, .ok image => [s.fresh, image]
    | _, _ => [s.fresh]

omit [Scalar α] in
theorem cols_fresh (s : SearchSpace α n) : s.fresh.cols = s.pending := by
  simp [fresh, Block.cols, pending]

theorem update_of_computed (h : s.basis.size ≤ s.computed) :
    s.update op = ⟨0, .ok s.project⟩ :=
  if_pos h

theorem update_of_pending (h : ¬ s.basis.size ≤ s.computed) :
    s.update op =
      match op.apply s.fresh with
      | .error f => ⟨s.fresh.cols, .error f⟩
      | .ok image =>
        match s.second with
        | none => ⟨s.fresh.cols, s.store image none⟩
        | some _ =>
          match op.apply image with
          | .error f => ⟨s.fresh.cols + image.cols, .error f⟩
          | .ok second => ⟨s.fresh.cols + image.cols, s.store image (some second)⟩ :=
  if_neg h

theorem passed_update (s : SearchSpace α n) (op : LinearOperator α) :
    (s.update op).passed = ((s.requests op).map Block.cols).sum := by
  unfold requests
  split
  · next hnone => rw [update_of_computed hnone, List.map_nil, List.sum_nil]
  next hpending =>
  rw [update_of_pending hpending]
  cases op.apply s.fresh with
  | error f => cases s.second <;> simp
  | ok image =>
      cases s.second with
      | none => simp
      | some kept =>
          simp only
          cases op.apply image <;> simp

/-- An update knows the operator only by its products with the blocks passed to it. -/
theorem update_congr {op' : LinearOperator α}
    (h : ∀ x ∈ s.requests op, op'.apply x = op.apply x) : s.update op' = s.update op := by
  by_cases hnone : s.basis.size ≤ s.computed
  · rw [update_of_computed hnone, update_of_computed hnone]
  rw [requests, if_neg hnone] at h
  have hfresh : op'.apply s.fresh = op.apply s.fresh := by
    apply h
    split
    · exact List.mem_cons_self ..
    · exact List.mem_cons_self ..
  rw [update_of_pending hnone, update_of_pending hnone, hfresh]
  cases himage : op.apply s.fresh with
  | error f => rfl
  | ok image =>
      cases hsecond : s.second with
      | none => rfl
      | some kept =>
          have hnext : op'.apply image = op.apply image := h image (by simp [hsecond, himage])
          simp only [hnext]

omit [Scalar α] in
theorem size_columnsOf {m : Block α} {cs : Columns α n} (h : m.columnsOf n = .ok cs) :
    cs.size = m.cols := by
  unfold Block.columnsOf at h
  split at h
  · obtain rfl := Except.ok.inj h
    exact Array.size_map ..
  · cases h

/-- A store leaves the basis and the flags alone.  It puts the new images behind those of the
leading `computed` columns, and from then on there are images of all columns. -/
theorem store_effect {image : Block α} {second : Option (Block α)}
    (h : s.store image second = .ok updated) :
    (updated.basis = s.basis ∧ updated.flags = s.flags) ∧
      updated.image.size = min s.computed s.image.size + image.cols ∧
        updated.computed = s.basis.size ∧ updated.second.isSome = s.second.isSome := by
  unfold store at h
  simp only [bind, Except.bind, pure, Except.pure] at h
  split at h
  · cases h
  next columns hcolumns =>
  have hsize := size_columnsOf hcolumns
  split at h
  · next kept new hkept =>
    split at h
    · cases h
    · obtain rfl := Except.ok.inj h
      exact ⟨⟨rfl, rfl⟩, by simp [project, hsize], rfl, by rw [hkept]; rfl⟩
  · obtain rfl := Except.ok.inj h
    exact ⟨⟨rfl, rfl⟩, by simp [project, hsize], rfl, rfl⟩

/-- What an update does when it succeeds: nothing is pending and it forms the projected matrix
alone, or it stores the images of the pending columns. -/
theorem update_cases (h : (s.update op).outcome = .ok updated) :
    (s.basis.size ≤ s.computed ∧ updated = s.project ∧ s.requests op = []) ∨
      ¬ s.basis.size ≤ s.computed ∧
        ∃ image second, op.apply s.fresh = .ok image ∧ s.store image second = .ok updated ∧
          s.requests op = s.fresh :: if s.second.isSome then [image] else [] := by
  by_cases hnone : s.basis.size ≤ s.computed
  · rw [update_of_computed hnone] at h
    exact .inl ⟨hnone, (Except.ok.inj h).symm, if_pos hnone⟩
  rw [update_of_pending hnone] at h
  rw [requests, if_neg hnone]
  cases himage : op.apply s.fresh with
  | error f =>
      rw [himage] at h
      cases h
  | ok image =>
      rw [himage] at h
      cases hsecond : s.second with
      | none =>
          rw [hsecond] at h
          exact .inr ⟨hnone, image, none, rfl, h, rfl⟩
      | some kept =>
          simp only [hsecond] at h
          split at h
          · cases h
          · next second _ => exact .inr ⟨hnone, image, some second, rfl, h, rfl⟩

/-- An update concerns images only. -/
theorem update_preserves (h : (s.update op).outcome = .ok updated) :
    updated.basis = s.basis ∧ updated.flags = s.flags := by
  rcases update_cases h with ⟨-, rfl, -⟩ | ⟨-, image, second, -, hstore, -⟩
  · exact ⟨rfl, rfl⟩
  · exact (store_effect hstore).1

/-- Images are kept of the leading `computed` columns, and second ones if they are wanted. -/
structure Keeps (harmonic : Bool) (s : SearchSpace α n) : Prop where
  computed_le : s.computed ≤ s.basis.size
  computed_le_image : s.computed ≤ s.image.size
  second_eq : s.second.isSome = harmonic

/-- Images are kept of all columns, and of no others. -/
structure Complete (harmonic : Bool) (s : SearchSpace α n) : Prop where
  computed_eq : s.computed = s.basis.size
  image_eq : s.image.size = s.basis.size
  second_eq : s.second.isSome = harmonic

variable {harmonic : Bool}

omit [Scalar α] in
theorem keeps_start (basis : Columns α n) (tracked : ℕ) (harmonic : Bool) :
    Keeps harmonic (start basis tracked harmonic) where
  computed_le := Nat.zero_le _
  computed_le_image := Nat.zero_le _
  second_eq := by cases harmonic <;> rfl

omit [Scalar α] in
theorem Complete.keeps (h : Complete harmonic s) : Keeps harmonic s where
  computed_le := Nat.le_of_eq h.computed_eq
  computed_le_image := Nat.le_of_eq (h.computed_eq.trans h.image_eq.symm)
  second_eq := h.second_eq

omit [Scalar α] in
theorem Complete.pending_eq_zero (h : Complete harmonic s) : s.pending = 0 :=
  Nat.sub_eq_zero_of_le (Nat.le_of_eq h.computed_eq.symm)

omit [Scalar α] in
theorem Keeps.restart (h : Keeps harmonic s) (basis : Columns α n) :
    Keeps harmonic (s.restart basis) where
  computed_le := Nat.zero_le _
  computed_le_image := Nat.zero_le _
  second_eq := by rw [SearchSpace.restart, Option.isSome_map, h.second_eq]

theorem Keeps.extend (h : Keeps harmonic s) (dense : Factorizations α)
    (method : Orthogonalization) (block : Columns α n) :
    Keeps harmonic (s.extend dense method block).1 := by
  have hcomputed := h.computed_le
  have himage := h.computed_le_image
  refine ⟨?_, ?_, h.second_eq⟩
  · simp only [SearchSpace.extend]
    split
    · exact Nat.zero_le _
    · omega
  · simp only [SearchSpace.extend]
    split
    · exact Nat.zero_le _
    · exact himage

/-- After an extension the new columns are pending, or all of them if the basis has shrunk. -/
theorem Complete.pending_extend (h : Complete harmonic s) (dense : Factorizations α)
    (method : Orthogonalization) (block : Columns α n) :
    (s.extend dense method block).1.pending =
      if (s.extend dense method block).1.size < s.size then (s.extend dense method block).1.size
      else (s.extend dense method block).1.size - s.size := by
  simp only [SearchSpace.extend, pending, size, h.computed_eq]
  split
  · exact Nat.sub_zero _
  · rfl

section Update

variable (h : Keeps harmonic s) (hupdate : (s.update op).outcome = .ok updated)
  (himage : updated.image.size = updated.basis.size)

include h hupdate himage

/-- If the images fit the basis, they are complete. -/
theorem Keeps.update : Complete harmonic updated := by
  have hcomputed := h.computed_le
  rcases update_cases hupdate with ⟨hnone, rfl, -⟩ | ⟨-, image, second, -, hstore, -⟩
  · exact ⟨Nat.le_antisymm hcomputed hnone, himage, h.second_eq⟩
  · obtain ⟨⟨hbasis, -⟩, -, hall, hsecond⟩ := store_effect hstore
    exact ⟨by rw [hall, hbasis], himage, by rw [hsecond, h.second_eq]⟩

/-- If the images fit the basis, the pending columns were passed and no others, and for second
images as many columns again. -/
theorem Keeps.requests_eq :
    (s.pending = 0 ∧ s.requests op = []) ∨
      0 < s.pending ∧ ∃ image, op.apply s.fresh = .ok image ∧ image.cols = s.pending ∧
        s.requests op = s.fresh :: if harmonic then [image] else [] := by
  have hkept := h.computed_le_image
  rcases update_cases hupdate with
    ⟨hnone, -, hrequests⟩ | ⟨hpending, image, second, happly, hstore, hrequests⟩
  · exact .inl ⟨Nat.sub_eq_zero_of_le hnone, hrequests⟩
  · obtain ⟨⟨hbasis, -⟩, hsize, -⟩ := store_effect hstore
    rw [himage, hbasis] at hsize
    rw [h.second_eq] at hrequests
    refine .inr ⟨Nat.sub_pos_of_lt (Nat.not_le.mp hpending), image, happly, ?_, hrequests⟩
    unfold pending
    omega

/-- The number of columns an update passes: each pending one once, or twice for second images. -/
theorem Keeps.passed_eq : (s.update op).passed = (if harmonic then 2 else 1) * s.pending := by
  rw [passed_update]
  rcases h.requests_eq hupdate himage with ⟨hnone, hrequests⟩ | ⟨-, image, -, hcols, hrequests⟩
  · rw [hrequests, hnone, List.map_nil, List.sum_nil, Nat.mul_zero]
  · rw [hrequests]
    cases harmonic with
    | false => simp [cols_fresh]
    | true =>
        simp [cols_fresh, hcols]
        omega

end Update

end SubspaceEigen.SearchSpace
