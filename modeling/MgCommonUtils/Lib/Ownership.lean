import Mathlib.Data.Set.Basic
import Mathlib.Logic.Function.Basic

/-!
# Objects in a heap

A heap is a map from addresses to cells. A `Layout` says which cells an object with a key is made
of, and when a heap holds it. `Owned` is a heap that consists of the objects of a map and of nothing
else: every object is held, no two of them share a cell, and no cell belongs to none of them.

What is done to one object is a `Change`: the cells of the others stay, the cells it gives up are
free afterwards, and the cells it takes were free before. A change of one object keeps the heap
owned, by the map with the new object in it (`Owned.change`).
-/

namespace MgCommonUtils.Lib

/-- How objects are laid out in a heap. -/
structure Layout (κ ο α γ : Type*) where
  /-- The addresses of the cells of an object. -/
  cells : κ → ο → Set α
  /-- The heap holds the object. -/
  Holds : (α → Option γ) → κ → ο → Prop
  /-- The cells of an object that is held are there. -/
  alive : ∀ {h k x a}, Holds h k x → a ∈ cells k x → h a ≠ none
  /-- Whether an object is held depends on its cells only. -/
  congr : ∀ {h h' k x}, (∀ a ∈ cells k x, h' a = h a) → Holds h k x → Holds h' k x

namespace Layout

variable {κ ο α γ : Type*} (L : Layout κ ο α γ)

/-- The addresses of the cells of an object that there may be. -/
def cellsOf (k : κ) : Option ο → Set α
  | none => ∅
  | some x => L.cells k x

/-- The heap consists of the objects of the map. -/
structure Owned (h : α → Option γ) (A : κ → Option ο) : Prop where
  /-- It holds every object. -/
  holds : ∀ k x, A k = some x → L.Holds h k x
  /-- Two objects share no cell. -/
  disjoint : ∀ k k' x x' a, A k = some x → A k' = some x' → a ∈ L.cells k x → a ∈ L.cells k' x' →
    k = k'
  /-- Every cell belongs to an object. -/
  owner : ∀ a, h a ≠ none → ∃ k x, A k = some x ∧ a ∈ L.cells k x

/-- What happens to the heap when the object with a key is replaced by another. -/
structure Change (h h' : α → Option γ) (k : κ) (x x' : Option ο) : Prop where
  /-- The new object is held. -/
  holds : ∀ y, x' = some y → L.Holds h' k y
  /-- The cells of neither object stay. -/
  frame : ∀ a, a ∉ L.cellsOf k x → a ∉ L.cellsOf k x' → h' a = h a
  /-- The cells that are not used any more are free. -/
  freed : ∀ a, a ∈ L.cellsOf k x → a ∉ L.cellsOf k x' → h' a = none
  /-- The cells that are used from now on were free. -/
  fresh : ∀ a, a ∈ L.cellsOf k x' → a ∉ L.cellsOf k x → h a = none

variable {L} {h h' : α → Option γ} {A : κ → Option ο} {k : κ}

/-- The empty heap. -/
theorem owned_empty : L.Owned (fun _ => none) fun _ => none where
  holds _ _ hx := by cases hx
  disjoint _ _ _ _ _ hx := by cases hx
  owner _ ha := absurd rfl ha

/-- An object is held by the heap without what is free. -/
theorem Owned.ne_none (hA : L.Owned h A) {x : ο} (hx : A k = some x) {a : α}
    (ha : a ∈ L.cells k x) : h a ≠ none := L.alive (hA.holds k x hx) ha

variable [DecidableEq κ]

/-- A change of one object keeps the heap owned. -/
theorem Owned.change (hA : L.Owned h A) {x' : Option ο} (hc : L.Change h h' k (A k) x') :
    L.Owned h' (Function.update A k x') := by
  -- The cells of another object are neither those of the old nor those of the new one.
  have hother : ∀ k' x, k' ≠ k → A k' = some x → ∀ a ∈ L.cells k' x,
      a ∉ L.cellsOf k (A k) ∧ a ∉ L.cellsOf k x' := by
    intro k' x hne hx a ha
    have hold : a ∉ L.cellsOf k (A k) := by
      intro hmem
      cases hk : A k with
      | none =>
        rw [hk] at hmem
        exact hmem
      | some y =>
        rw [hk] at hmem
        exact hne (hA.disjoint k' k x y a hx hk ha hmem)
    exact ⟨hold, fun hmem => hA.ne_none hx ha (hc.fresh a hmem hold)⟩
  have hmap : ∀ k' x, Function.update A k x' k' = some x →
      (k' = k ∧ x' = some x) ∨ (k' ≠ k ∧ A k' = some x) := by
    intro k' x hx
    by_cases hk : k' = k
    · subst hk
      rw [Function.update_self] at hx
      exact .inl ⟨rfl, hx⟩
    · rw [Function.update_of_ne hk] at hx
      exact .inr ⟨hk, hx⟩
  refine ⟨fun k' x hx => ?_, fun k₁ k₂ x₁ x₂ a h₁ h₂ ha₁ ha₂ => ?_, fun a ha => ?_⟩
  · rcases hmap k' x hx with ⟨rfl, hy⟩ | ⟨hk, hy⟩
    · exact hc.holds x hy
    · refine L.congr (fun a ha => ?_) (hA.holds k' x hy)
      obtain ⟨hold, hnew⟩ := hother k' x hk hy a ha
      exact hc.frame a hold hnew
  · rcases hmap k₁ x₁ h₁ with ⟨rfl, hx₁⟩ | ⟨hk₁, hx₁⟩ <;>
      rcases hmap k₂ x₂ h₂ with ⟨rfl, hx₂⟩ | ⟨hk₂, hx₂⟩
    · rfl
    · have hnew := (hother k₂ x₂ hk₂ hx₂ a ha₂).2
      rw [hx₁] at hnew
      exact absurd ha₁ hnew
    · have hnew := (hother k₁ x₁ hk₁ hx₁ a ha₁).2
      rw [hx₂] at hnew
      exact absurd ha₂ hnew
    · exact hA.disjoint k₁ k₂ x₁ x₂ a hx₁ hx₂ ha₁ ha₂
  · by_cases hnew : a ∈ L.cellsOf k x'
    · cases x' with
      | none => exact hnew.elim
      | some y => exact ⟨k, y, Function.update_self .., hnew⟩
    · by_cases hold : a ∈ L.cellsOf k (A k)
      · exact absurd (hc.freed a hold hnew) ha
      · rw [hc.frame a hold hnew] at ha
        obtain ⟨k', x, hx, hmem⟩ := hA.owner a ha
        have hk : k' ≠ k := by
          rintro rfl
          rw [hx] at hold
          exact hold hmem
        exact ⟨k', x, by rw [Function.update_of_ne hk, hx], hmem⟩

end Layout

end MgCommonUtils.Lib
