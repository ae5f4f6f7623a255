import SubspaceEigen.Scalar

/-!
# Ranking

Sorting by the ranking of the scalars: ascending, with equal items in their given order.
-/

namespace SubspaceEigen

variable {α β : Type} [Scalar α]

/-- A list sorted ascending by a key. -/
def sortedBy (key : β → α) (items : List β) : List β :=
  items.mergeSort fun a b => Scalar.ranksBefore (key a) (key b)

/-- The indices that sort a list of values ascending. -/
def ranking (values : List α) : List Nat :=
  (sortedBy Prod.fst values.zipIdx).map Prod.snd

theorem sortedBy_perm (key : β → α) (items : List β) : (sortedBy key items).Perm items :=
  List.mergeSort_perm items _

theorem sortedBy_pairwise (key : β → α) (items : List β) :
    (sortedBy key items).Pairwise fun a b => Scalar.ranksBefore (key a) (key b) = true :=
  List.pairwise_mergeSort (fun a b c => Scalar.ranksBefore_trans (key a) (key b) (key c))
    (fun a b => Scalar.ranksBefore_total (key a) (key b)) items

/-- Sorting does not notice a change to the items that leaves their ranking as it is. -/
theorem sortedBy_map {γ : Type} (key : β → α) (key' : γ → α) {f : β → γ}
    (h : ∀ a b, Scalar.ranksBefore (key' (f a)) (key' (f b)) =
      Scalar.ranksBefore (key a) (key b)) (items : List β) :
    sortedBy key' (items.map f) = (sortedBy key items).map f := by
  have hranks : ∀ a ∈ items, ∀ b ∈ items, Scalar.ranksBefore (key a) (key b) =
      Scalar.ranksBefore (key' (f a)) (key' (f b)) := fun a _ b _ => (h a b).symm
  exact (List.map_mergeSort (s := fun a b => Scalar.ranksBefore (key' a) (key' b)) hranks).symm

end SubspaceEigen
