import MgCommonUtils.Lib.Transition

/-!
# A lock that expires and has no owner

A lock that is an item in a store, as with memcached: adding the item takes the lock and fails while
the item is there, deleting the item releases the lock, and the item goes away by itself after a
time. The item does not say who has added it, and the store deletes it for everybody.

Such a lock is safe up to the first item that expires while its holder still counts on it. Until
then every holder has the item that is there (`Own`), so there is one holder at most, and who
deletes the item deletes their own. `Own.step` and `Own.run` say so from any state in which it
holds, so from any in which nobody holds the lock.
-/

namespace MgCommonUtils.Lib

/-- A lock without an owner, and who uses it. -/
structure Lease (C : Type*) where
  /-- Who has added the item, if it is there. The store does not keep it. -/
  item : Option C
  /-- Who has added an item and not deleted it yet. -/
  holds : C → Bool

namespace Lease

/-- A step of a client or the store. -/
inductive Act (C : Type*) where
  /-- A client adds the item. -/
  | add (c : C)
  /-- A holder deletes the item. -/
  | release (c : C)
  /-- A holder goes away and leaves the item. -/
  | abandon (c : C)
  /-- The item expires. -/
  | expire
  /-- Nothing that concerns the lock. -/
  | other

variable {C : Type*} [DecidableEq C]

/-- The state after a step. Adding the item while it is there is no step. -/
def step (s : Lease C) : Act C → Option (Lease C)
  | .add c =>
    match s.item with
    | some _ => none
    | none => some ⟨some c, Function.update s.holds c true⟩
  | .release c =>
    if s.holds c then some ⟨none, Function.update s.holds c false⟩ else none
  | .abandon c =>
    if s.holds c then some { s with holds := Function.update s.holds c false } else none
  | .expire => some { s with item := none }
  | .other => some s

variable (C) in
/-- The lock as a transition system. At the start nobody holds it. -/
def system : Lts (Lease C) (Act C) where
  init s := ∀ c, s.holds c = false
  step := step

omit [DecidableEq C] in
/-- The item expires while its holder counts on it. -/
def HeldExpiry (s : Lease C) (a : Act C) : Prop :=
  a = .expire ∧ ∃ c, s.item = some c ∧ s.holds c = true

omit [DecidableEq C] in
/-- Every holder has the item that is there. -/
def Own (s : Lease C) : Prop := ∀ c, s.holds c = true → s.item = some c

omit [DecidableEq C] in
/-- At the start there is no holder. -/
theorem own_of_init {s : Lease C} (h : ∀ c, s.holds c = false) : s.Own := by
  intro c hc
  rw [h c] at hc
  cases hc

omit [DecidableEq C] in
/-- There is one holder at most. -/
theorem Own.unique {s : Lease C} (hs : s.Own) {c d : C} (hc : s.holds c = true)
    (hd : s.holds d = true) : c = d :=
  Option.some.inj ((hs c hc).symm.trans (hs d hd))

/-- Every step keeps it, unless the item of a holder expires. -/
theorem Own.step {s t : Lease C} {a : Act C} (hs : s.Own) (ha : ¬ s.HeldExpiry a)
    (h : s.step a = some t) : t.Own := by
  cases a with
  | add c =>
    cases hitem : s.item with
    | some d => simp [Lease.step, hitem] at h
    | none =>
      -- The item was not there, so nobody held it.
      simp only [Lease.step, hitem, Option.some.injEq] at h
      subst h
      intro d hd
      by_cases hdc : d = c
      · rw [hdc]
      · have hd : s.holds d = true := (Function.update_of_ne hdc _ _).symm.trans hd
        rw [hs d hd] at hitem
        cases hitem
  | release c =>
    simp only [Lease.step, Option.ite_none_right_eq_some, Option.some.injEq] at h
    obtain ⟨hc, rfl⟩ := h
    intro d hd
    by_cases hdc : d = c
    · simp [hdc] at hd
    · -- the client was the only holder
      have hd : s.holds d = true := (Function.update_of_ne hdc _ _).symm.trans hd
      exact absurd (hs.unique hd hc) hdc
  | abandon c =>
    simp only [Lease.step, Option.ite_none_right_eq_some, Option.some.injEq] at h
    obtain ⟨hc, rfl⟩ := h
    intro d hd
    by_cases hdc : d = c
    · simp [hdc] at hd
    · exact hs d ((Function.update_of_ne hdc _ _).symm.trans hd)
  | expire =>
    obtain rfl := Option.some.inj h
    intro c hc
    exact absurd ⟨rfl, c, hs c hc, hc⟩ ha
  | other =>
    obtain rfl := Option.some.inj h
    exact hs

/-- A run keeps it in which no item of a holder expires. -/
theorem Own.run {s t : Lease C} {as : List (Act C)} (hs : s.Own)
    (hok : (system C).RunOk (fun s a => ¬ s.HeldExpiry a) s as)
    (h : (system C).run s as = some t) : t.Own :=
  hok.invariant h (fun _ _ _ hs ha h => hs.step ha h) hs

end Lease

end MgCommonUtils.Lib
