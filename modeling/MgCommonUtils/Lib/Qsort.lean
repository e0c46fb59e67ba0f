import Mathlib.Data.List.Sort
import Mathlib.Tactic

/-!
# The sort of C's library

`qsort` as the C standard describes it: it rearranges the elements, and the result is in order as
far as the comparator is consistent on them. Which rearrangement it makes of elements that compare
equal, or under an inconsistent comparator, is not said, so a `Qsort` is any function of this kind.
-/

namespace MgCommonUtils.Lib

variable {α : Type*}

/-- The comparator is consistent on the elements: swapping the arguments swaps the sign, and the
order it gives is transitive. -/
structure Consistent (cmp : α → α → ℤ) (l : List α) : Prop where
  /-- The sign is swapped with the arguments. -/
  swap : ∀ a ∈ l, ∀ b ∈ l, 0 < cmp a b ↔ cmp b a < 0
  /-- The order is transitive. -/
  trans : ∀ a ∈ l, ∀ b ∈ l, ∀ c ∈ l, cmp a b ≤ 0 → cmp b c ≤ 0 → cmp a c ≤ 0

/-- An implementation of `qsort`. -/
structure Qsort (α : Type*) where
  /-- The elements in their new order. -/
  sort : (α → α → ℤ) → List α → List α
  /-- The elements are rearranged. -/
  perm : ∀ cmp l, (sort cmp l).Perm l
  /-- The result is in order when the comparator is consistent on the elements. -/
  sorted : ∀ cmp l, Consistent cmp l → (sort cmp l).Pairwise fun a b => cmp a b ≤ 0

/-- Two elements compare one way or the other. -/
theorem Consistent.total {cmp : α → α → ℤ} {l : List α} (h : Consistent cmp l) {a b : α}
    (ha : a ∈ l) (hb : b ∈ l) : cmp a b ≤ 0 ∨ cmp b a ≤ 0 := by
  have := h.swap a ha b hb
  omega

/-- Consistency depends on which elements there are and not on their order. -/
theorem Consistent.perm {cmp : α → α → ℤ} {l l' : List α} (h : Consistent cmp l)
    (hl : l'.Perm l) : Consistent cmp l' where
  swap a ha b hb := h.swap a (hl.mem_iff.mp ha) b (hl.mem_iff.mp hb)
  trans a ha b hb c hc := h.trans a (hl.mem_iff.mp ha) b (hl.mem_iff.mp hb) c (hl.mem_iff.mp hc)

/-- Inserting into an ordered list keeps it ordered. -/
theorem pairwise_orderedInsert {cmp : α → α → ℤ} {a : α} {l : List α}
    (h : Consistent cmp (a :: l)) (hl : l.Pairwise fun a b => cmp a b ≤ 0) :
    (l.orderedInsert (fun a b => cmp a b ≤ 0) a).Pairwise fun a b => cmp a b ≤ 0 := by
  induction l with
  | nil => exact List.pairwise_singleton _ a
  | cons b l ih =>
    obtain ⟨hb, hrest⟩ := List.pairwise_cons.mp hl
    have hmem : ∀ x ∈ l, x ∈ a :: b :: l := fun x hx => by simp [hx]
    rw [List.orderedInsert_cons]
    split
    · rename_i hab
      refine List.pairwise_cons.mpr ⟨fun x hx => ?_, hl⟩
      rcases List.mem_cons.mp hx with rfl | hx
      · exact hab
      · exact h.trans a (by simp) b (by simp) x (hmem x hx) hab (hb x hx)
    · rename_i hab
      have hsub : Consistent cmp (a :: l) :=
        { swap := fun x hx y hy => h.swap x (by grind) y (by grind)
          trans := fun x hx y hy z hz => h.trans x (by grind) y (by grind) z (by grind) }
      refine List.pairwise_cons.mpr ⟨fun x hx => ?_, ih hsub hrest⟩
      rcases (List.mem_orderedInsert _).mp hx with rfl | hx
      · exact (h.total (by simp) (by simp)).resolve_left hab
      · exact hb x hx

/-- Insertion sort is an implementation of `qsort`. -/
def insertionSort : Qsort α where
  sort cmp l := l.insertionSort fun a b => cmp a b ≤ 0
  perm _ l := List.perm_insertionSort _ l
  sorted cmp l h := by
    induction l with
    | nil => exact .nil
    | cons a l ih =>
      have hl : Consistent cmp l :=
        { swap := fun x hx y hy => h.swap x (by simp [hx]) y (by simp [hy])
          trans := fun x hx y hy z hz =>
            h.trans x (by simp [hx]) y (by simp [hy]) z (by simp [hz]) }
      exact pairwise_orderedInsert (h.perm ((List.perm_insertionSort _ l).cons a)) (ih hl)

end MgCommonUtils.Lib
