import Mathlib.Logic.Function.Basic
import Mathlib.Data.List.Count
import Mathlib.Tactic

/-!
# Items between a table and hands

Items are created with a key and sit in a table at their key, until they are checked out. An item
that is checked out is in somebody's hands, which only count it. It is checked in at its key again.
Only an item that sits in the table is destroyed. In every state that these operations lead to, an
item is either in the table at its key, or in the hands exactly once (`Custody.Inv`).

The last part counts how often an item is in a hand (`has`), in a list of hands (`held`) and in a
queue.
-/

namespace MgCommonUtils.Lib

/-- A table of items with keys, and hands that hold items. -/
@[ext]
structure Custody (α κ : Type*) where
  /-- The key of an item that exists. -/
  key : α → Option κ
  /-- The item that sits in the table at a key. -/
  slot : κ → Option α
  /-- How many times an item is in the hands. -/
  out : α → ℕ

namespace Custody

variable {α κ : Type*} {x : Custody α κ}

/-- Every item is in the table at its own key, or in the hands once. -/
structure Inv (x : Custody α κ) : Prop where
  /-- No item is in the hands twice. -/
  once : ∀ a, x.out a ≤ 1
  /-- An item in the hands exists, and its place in the table is empty. -/
  away : ∀ a, 0 < x.out a → ∃ k, x.key a = some k ∧ x.slot k = none
  /-- An item that is not in the hands sits at its key. -/
  home : ∀ a k, x.key a = some k → x.out a = 0 → x.slot k = some a
  /-- What sits in the table exists, with that key. -/
  slot : ∀ k a, x.slot k = some a → x.key a = some k
  /-- Two items have two keys. -/
  key : ∀ a b k, x.key a = some k → x.key b = some k → a = b

/-- An item in the table is not in the hands. -/
theorem Inv.out_eq_zero (hx : x.Inv) {a : α} {k : κ} (h : x.slot k = some a) : x.out a = 0 := by
  by_contra hne
  obtain ⟨k', hk', hnone⟩ := hx.away a (by omega)
  have hkk : k' = k := Option.some.inj (hk'.symm.trans (hx.slot k a h))
  rw [hkk, h] at hnone
  cases hnone

/-- An item in the hands exists. -/
theorem Inv.isSome_of_out (hx : x.Inv) {a : α} (h : 0 < x.out a) : (x.key a).isSome := by
  obtain ⟨k, hk, -⟩ := hx.away a h
  rw [hk, Option.isSome_some]

variable [DecidableEq α] [DecidableEq κ]

/-- A new item with an unused key, which sits in the table. -/
def create (x : Custody α κ) (a : α) (k : κ) : Custody α κ where
  key := Function.update x.key a (some k)
  slot := Function.update x.slot k (some a)
  out := x.out

/-- An item goes from the table into the hands. -/
def checkOut (x : Custody α κ) (a : α) (k : κ) : Custody α κ where
  key := x.key
  slot := Function.update x.slot k none
  out := Function.update x.out a (x.out a + 1)

/-- An item goes from the hands back into the table. -/
def checkIn (x : Custody α κ) (a : α) (k : κ) : Custody α κ where
  key := x.key
  slot := Function.update x.slot k (some a)
  out := Function.update x.out a (x.out a - 1)

/-- An item in the table is destroyed. -/
def destroy (x : Custody α κ) (a : α) (k : κ) : Custody α κ where
  key := Function.update x.key a none
  slot := Function.update x.slot k none
  out := x.out

/-- Creating an item that does not exist, with a key that is not used. -/
theorem Inv.create (hx : x.Inv) {a : α} {k : κ} (ha : x.key a = none)
    (hk : ∀ b, x.key b ≠ some k) : (x.create a k).Inv where
  once := hx.once
  away b hb := by
    obtain ⟨k', hk', hnone⟩ := hx.away b hb
    have hba : b ≠ a := by rintro rfl; rw [ha] at hk'; cases hk'
    have hkk : k' ≠ k := by rintro rfl; exact hk b hk'
    exact ⟨k', by simpa [Custody.create, hba] using hk', by simpa [Custody.create, hkk] using hnone⟩
  home b k' hb hout := by
    simp only [Custody.create] at hb ⊢
    by_cases hba : b = a
    · subst hba
      rw [Function.update_self] at hb
      obtain rfl := Option.some.inj hb
      rw [Function.update_self]
    · rw [Function.update_of_ne hba] at hb
      have hkk : k' ≠ k := by rintro rfl; exact hk b hb
      rw [Function.update_of_ne hkk]
      exact hx.home b k' hb hout
  slot k' b hb := by
    simp only [Custody.create] at hb ⊢
    by_cases hkk : k' = k
    · subst hkk
      rw [Function.update_self] at hb
      obtain rfl := Option.some.inj hb
      rw [Function.update_self]
    · rw [Function.update_of_ne hkk] at hb
      have hkey := hx.slot k' b hb
      have hba : b ≠ a := by rintro rfl; rw [ha] at hkey; cases hkey
      rw [Function.update_of_ne hba]
      exact hkey
  key b c k' hb hc := by
    simp only [Custody.create] at hb hc
    by_cases hba : b = a <;> by_cases hca : c = a
    · rw [hba, hca]
    · subst hba
      rw [Function.update_self] at hb
      rw [Function.update_of_ne hca] at hc
      exact absurd (hc.trans hb.symm) (hk c)
    · subst hca
      rw [Function.update_self] at hc
      rw [Function.update_of_ne hba] at hb
      exact absurd (hb.trans hc.symm) (hk b)
    · rw [Function.update_of_ne hba] at hb
      rw [Function.update_of_ne hca] at hc
      exact hx.key b c k' hb hc

/-- Checking out an item that sits in the table. -/
theorem Inv.checkOut (hx : x.Inv) {a : α} {k : κ} (ha : x.slot k = some a) :
    (x.checkOut a k).Inv where
  once b := by
    simp only [Custody.checkOut]
    by_cases hba : b = a
    · subst hba
      rw [Function.update_self, hx.out_eq_zero ha]
    · rw [Function.update_of_ne hba]
      exact hx.once b
  away b hb := by
    simp only [Custody.checkOut] at hb ⊢
    by_cases hba : b = a
    · subst hba
      exact ⟨k, hx.slot k b ha, Function.update_self ..⟩
    · rw [Function.update_of_ne hba] at hb
      obtain ⟨k', hk', hnone⟩ := hx.away b hb
      refine ⟨k', hk', ?_⟩
      by_cases hkk : k' = k
      · rw [hkk, Function.update_self]
      · rw [Function.update_of_ne hkk, hnone]
  home b k' hb hout := by
    simp only [Custody.checkOut] at hb hout ⊢
    by_cases hba : b = a
    · subst hba
      rw [Function.update_self] at hout
      omega
    · rw [Function.update_of_ne hba] at hout
      have hslot := hx.home b k' hb hout
      have hkk : k' ≠ k := by
        rintro rfl
        exact hba (Option.some.inj (hslot.symm.trans ha))
      rw [Function.update_of_ne hkk, hslot]
  slot k' b hb := by
    simp only [Custody.checkOut] at hb ⊢
    by_cases hkk : k' = k
    · rw [hkk, Function.update_self] at hb
      cases hb
    · rw [Function.update_of_ne hkk] at hb
      exact hx.slot k' b hb
  key := hx.key

/-- Checking in an item from the hands, at its key. -/
theorem Inv.checkIn (hx : x.Inv) {a : α} {k : κ} (ha : 0 < x.out a) (hk : x.key a = some k) :
    (x.checkIn a k).Inv where
  once b := by
    simp only [Custody.checkIn]
    have := hx.once b
    by_cases hba : b = a
    · subst hba
      rw [Function.update_self]
      omega
    · rwa [Function.update_of_ne hba]
  away b hb := by
    simp only [Custody.checkIn] at hb ⊢
    have hone := hx.once a
    have hba : b ≠ a := by
      rintro rfl
      rw [Function.update_self] at hb
      omega
    rw [Function.update_of_ne hba] at hb
    obtain ⟨k', hk', hnone⟩ := hx.away b hb
    have hkk : k' ≠ k := by
      rintro rfl
      exact hba (hx.key b a k' hk' hk)
    exact ⟨k', hk', by rw [Function.update_of_ne hkk, hnone]⟩
  home b k' hb hout := by
    simp only [Custody.checkIn] at hb hout ⊢
    by_cases hba : b = a
    · subst hba
      obtain rfl := Option.some.inj (hk.symm.trans hb)
      rw [Function.update_self]
    · rw [Function.update_of_ne hba] at hout
      have hkk : k' ≠ k := by
        rintro rfl
        exact hba (hx.key b a k' hb hk)
      rw [Function.update_of_ne hkk]
      exact hx.home b k' hb hout
  slot k' b hb := by
    simp only [Custody.checkIn] at hb ⊢
    by_cases hkk : k' = k
    · subst hkk
      rw [Function.update_self] at hb
      obtain rfl := Option.some.inj hb
      exact hk
    · rw [Function.update_of_ne hkk] at hb
      exact hx.slot k' b hb
  key := hx.key

/-- Destroying an item that sits in the table. -/
theorem Inv.destroy (hx : x.Inv) {a : α} {k : κ} (ha : x.slot k = some a) :
    (x.destroy a k).Inv where
  once := hx.once
  away b hb := by
    simp only [Custody.destroy] at hb ⊢
    obtain ⟨k', hk', hnone⟩ := hx.away b hb
    have hba : b ≠ a := by
      rintro rfl
      rw [hx.out_eq_zero ha] at hb
      omega
    have hkk : k' ≠ k := by
      rintro rfl
      rw [ha] at hnone
      cases hnone
    exact ⟨k', by rw [Function.update_of_ne hba, hk'], by rw [Function.update_of_ne hkk, hnone]⟩
  home b k' hb hout := by
    simp only [Custody.destroy] at hb hout ⊢
    have hba : b ≠ a := by
      rintro rfl
      rw [Function.update_self] at hb
      cases hb
    rw [Function.update_of_ne hba] at hb
    have hslot := hx.home b k' hb hout
    have hkk : k' ≠ k := by
      rintro rfl
      exact hba (Option.some.inj (hslot.symm.trans ha))
    rw [Function.update_of_ne hkk, hslot]
  slot k' b hb := by
    simp only [Custody.destroy] at hb ⊢
    have hkk : k' ≠ k := by
      rintro rfl
      rw [Function.update_self] at hb
      cases hb
    rw [Function.update_of_ne hkk] at hb
    have hba : b ≠ a := by
      rintro rfl
      exact hkk (Option.some.inj ((hx.slot k' b hb).symm.trans (hx.slot k b ha)))
    rw [Function.update_of_ne hba]
    exact hx.slot k' b hb
  key b c k' hb hc := by
    simp only [Custody.destroy] at hb hc
    have hne : ∀ d, Function.update x.key a none d = some k' → x.key d = some k' := by
      intro d hd
      by_cases hda : d = a
      · rw [hda, Function.update_self] at hd
        cases hd
      · rwa [Function.update_of_ne hda] at hd
    exact hx.key b c k' (hne b hb) (hne c hc)

end Custody

/-! ## What hands and queues hold -/

section Hands

variable {α β : Type*} [DecidableEq α]

/-- How many times an item is in one hand. -/
def has (hand : Option α) (a : α) : ℕ := if hand = some a then 1 else 0

/-- How many of the hands of a list hold an item. -/
def held (hand : β → Option α) (l : List β) (a : α) : ℕ := l.countP fun b => hand b = some a

/-- An empty hand. -/
@[simp]
theorem has_none (a : α) : has none a = 0 := rfl

/-- A hand with the item. -/
@[simp]
theorem has_self (a : α) : has (some a) a = 1 := if_pos rfl

/-- A hand with another item. -/
theorem has_of_ne {hand : Option α} {a : α} (h : hand ≠ some a) : has hand a = 0 := if_neg h

/-- The first of a queue. -/
theorem count_cons_has (b : α) (l : List α) (a : α) :
    (b :: l).count a = has (some b) a + l.count a := by
  simp only [List.count_cons, has, beq_iff_eq, Option.some.injEq]
  omega

/-- The last of a queue. -/
theorem count_append_has (l : List α) (b a : α) :
    (l ++ [b]).count a = l.count a + has (some b) a := by
  rw [List.count_append, count_cons_has, List.count_nil]
  omega

/-- An element of a list is replaced by another. -/
theorem countP_set_add (p : β → Bool) {l : List β} {i : ℕ} {b : β} (h : l[i]? = some b) (b' : β) :
    (l.set i b').countP p + (p b).toNat = l.countP p + (p b').toNat := by
  obtain ⟨hi, rfl⟩ := List.getElem?_eq_some_iff.mp h
  have hpos : p l[i] = true → 0 < l.countP p := fun hp =>
    List.countP_pos_iff.mpr ⟨_, List.getElem_mem hi, hp⟩
  rw [List.countP_set hi]
  cases hp : p l[i] with
  | false =>
    rw [if_neg Bool.false_ne_true]
    cases p b' <;> rfl
  | true =>
    have := hpos hp
    rw [if_pos rfl]
    cases p b' <;>
      simp only [Bool.false_eq_true, if_false, if_true, Bool.toNat_true, Bool.toNat_false] <;>
      omega

/-- A hand of a list is replaced by another. -/
theorem held_set (hand : β → Option α) {l : List β} {i : ℕ} {b : β} (h : l[i]? = some b)
    (b' : β) (a : α) :
    held hand (l.set i b') a + has (hand b) a = held hand l a + has (hand b') a := by
  have hhas : ∀ b, (decide (hand b = some a)).toNat = has (hand b) a := fun b => by
    rw [has]
    split_ifs with hb <;> simp [hb]
  have := countP_set_add (fun b => decide (hand b = some a)) h b'
  rw [hhas, hhas] at this
  exact this

/-- A hand is added to a list. -/
theorem held_append (hand : β → Option α) (l : List β) (b : β) (a : α) :
    held hand (l ++ [b]) a = held hand l a + has (hand b) a := by
  simp [held, has, List.countP_append, List.countP_cons]

/-- A hand of the list holds the item. -/
theorem held_pos_iff (hand : β → Option α) (l : List β) (a : α) :
    0 < held hand l a ↔ ∃ i : ℕ, ∃ b : β, l[i]? = some b ∧ hand b = some a := by
  rw [held, List.countP_pos_iff]
  constructor
  · rintro ⟨b, hb, ha⟩
    obtain ⟨i, hi⟩ := List.getElem?_of_mem hb
    exact ⟨i, b, hi, of_decide_eq_true ha⟩
  · rintro ⟨i, b, hi, ha⟩
    exact ⟨b, List.mem_of_getElem? hi, decide_eq_true ha⟩

/-- An item that is held once at most is in one hand. -/
theorem held_index_unique {hand : β → Option α} {l : List β} {a : α} (hl : held hand l a ≤ 1)
    {i j : ℕ} {b c : β} (hb : l[i]? = some b) (hc : l[j]? = some c) (hba : hand b = some a)
    (hca : hand c = some a) : i = j := by
  induction l generalizing i j with
  | nil => simp at hb
  | cons d l ih =>
    rw [held, List.countP_cons] at hl
    cases i <;> cases j
    · rfl
    · have hd : d = b := by simpa using hb
      have := (held_pos_iff hand l a).mpr ⟨_, c, by simpa using hc, hca⟩
      rw [hd, if_pos (decide_eq_true hba)] at hl
      rw [held] at this
      omega
    · have hd : d = c := by simpa using hc
      have := (held_pos_iff hand l a).mpr ⟨_, b, by simpa using hb, hba⟩
      rw [hd, if_pos (decide_eq_true hca)] at hl
      rw [held] at this
      omega
    · exact congrArg (· + 1) (ih (by rw [held]; omega) (by simpa using hb) (by simpa using hc))

/-- Hands that hold nothing. -/
theorem held_replicate (hand : β → Option α) {b : β} (h : hand b = none) (n : ℕ) (a : α) :
    held hand (List.replicate n b) a = 0 := by
  simp [held, List.countP_replicate, h]

end Hands

end MgCommonUtils.Lib
