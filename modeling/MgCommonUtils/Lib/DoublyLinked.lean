import Mathlib.Data.List.Basic
import Mathlib.Logic.Function.Basic
import Mathlib.Tactic

/-!
# Doubly linked lists in a heap

A heap of cells with two links each. `Linked h pre l post` says that the heap holds the list `l` of
addresses and values: each cell has the address of the one before it and of the one behind it, where
`pre` is in front of the first and `post` behind the last. `linked_append` cuts such a list in two,
so that a change of a link is a change at the end of one part: `Linked.setNext` and
`Linked.setPrev`. From these follow the insertion at either end (`Linked.concat`, `Linked.cons`) and
the removal of a cell in the middle (`Linked.remove`).
-/

namespace MgCommonUtils.Lib

/-- A cell with two links. -/
structure Link (α β : Type*) where
  /-- The cell before it. -/
  prev : Option α
  /-- The cell behind it. -/
  next : Option α
  /-- What it holds. -/
  value : β
  deriving DecidableEq, Repr

variable {α β : Type*}

/-- The first address of a list, or the one that is behind it. -/
def headOr : List (α × β) → Option α → Option α
  | [], post => post
  | (a, _) :: _, _ => some a

/-- The last address of a list, or the one that is in front of it. -/
def lastOr (pre : Option α) : List (α × β) → Option α
  | [] => pre
  | (a, _) :: l => lastOr (some a) l

/-- The heap holds the list, between `pre` and `post`. -/
def Linked (h : α → Option (Link α β)) (pre : Option α) : List (α × β) → Option α → Prop
  | [], _ => True
  | (a, x) :: l, post => h a = some ⟨pre, headOr l post, x⟩ ∧ Linked h (some a) l post

/-! ## Ends -/

@[simp]
theorem headOr_nil (post : Option α) : headOr ([] : List (α × β)) post = post := rfl

@[simp]
theorem headOr_cons (c : α × β) (l : List (α × β)) (post : Option α) :
    headOr (c :: l) post = some c.1 := rfl

@[simp]
theorem lastOr_nil (pre : Option α) : lastOr pre ([] : List (α × β)) = pre := rfl

@[simp]
theorem lastOr_cons (pre : Option α) (c : α × β) (l : List (α × β)) :
    lastOr pre (c :: l) = lastOr (some c.1) l := rfl

@[simp]
theorem headOr_append (l l' : List (α × β)) (post : Option α) :
    headOr (l ++ l') post = headOr l (headOr l' post) := by
  cases l <;> rfl

@[simp]
theorem lastOr_append (pre : Option α) (l l' : List (α × β)) :
    lastOr pre (l ++ l') = lastOr (lastOr pre l) l' := by
  induction l generalizing pre with
  | nil => rfl
  | cons c l ih => exact ih _

/-- The reversed list begins where the list ends. -/
theorem headOr_reverse (l : List (α × β)) (post : Option α) :
    headOr l.reverse post = lastOr post l := by
  induction l generalizing post with
  | nil => rfl
  | cons c l ih => rw [List.reverse_cons, headOr_append, ih, headOr_cons, lastOr_cons]

/-- The reversed list ends where the list begins. -/
theorem lastOr_reverse (l : List (α × β)) (pre : Option α) :
    lastOr pre l.reverse = headOr l pre := by
  rw [← headOr_reverse, List.reverse_reverse]

/-- Where a list that is not empty begins does not depend on what is behind it. -/
theorem headOr_of_ne_nil {l : List (α × β)} (h : l ≠ []) (post post' : Option α) :
    headOr l post = headOr l post' := by
  cases l with
  | nil => exact absurd rfl h
  | cons c l => rfl

/-- Where it ends does not depend on what is in front of it. -/
theorem lastOr_of_ne_nil {l : List (α × β)} (h : l ≠ []) (pre pre' : Option α) :
    lastOr pre l = lastOr pre' l := by
  rw [← headOr_reverse, ← headOr_reverse]
  exact headOr_of_ne_nil (mt List.reverse_eq_nil_iff.mp h) ..

/-- A list without a first address is empty. -/
theorem eq_nil_of_headOr {l : List (α × β)} (h : headOr l none = none) : l = [] := by
  cases l with
  | nil => rfl
  | cons c l => cases h

/-- So is one without a last address. -/
theorem eq_nil_of_lastOr {l : List (α × β)} (h : lastOr none l = none) : l = [] := by
  rw [← headOr_reverse] at h
  exact List.reverse_eq_nil_iff.mp (eq_nil_of_headOr h)

/-- The first address of a list is one of its addresses. -/
theorem mem_of_headOr {l : List (α × β)} {a : α} (h : headOr l none = some a) :
    a ∈ l.map Prod.fst := by
  cases l with
  | nil => cases h
  | cons c l =>
    obtain rfl := Option.some.inj h
    exact List.mem_cons_self

/-- So is the last one. -/
theorem mem_of_lastOr {l : List (α × β)} {a : α} (h : lastOr none l = some a) :
    a ∈ l.map Prod.fst := by
  rw [← headOr_reverse] at h
  simpa using mem_of_headOr h

/-! ## Lists in a heap -/

variable {h h' : α → Option (Link α β)} {pre post : Option α} {l l' : List (α × β)}

/-- A list is held if its two parts are. -/
theorem linked_append : Linked h pre (l ++ l') post ↔
    Linked h pre l (headOr l' post) ∧ Linked h (lastOr pre l) l' post := by
  induction l generalizing pre with
  | nil => exact (and_iff_right trivial).symm
  | cons c l ih =>
    rw [List.cons_append, Linked, ih, headOr_append, lastOr_cons, Linked, and_assoc]

/-- Whether a list is held depends on its own cells. -/
theorem Linked.congr (hl : Linked h pre l post) (heq : ∀ a ∈ l.map Prod.fst, h' a = h a) :
    Linked h' pre l post := by
  induction l generalizing pre with
  | nil => trivial
  | cons c l ih =>
    obtain ⟨hc, hl⟩ := hl
    exact ⟨(heq _ List.mem_cons_self).trans hc,
      ih hl fun a ha => heq a (List.mem_cons_of_mem _ ha)⟩

/-- The cell between two parts of a list. -/
theorem Linked.cell {a : α} {x : β} (hl : Linked h pre (l ++ (a, x) :: l') post) :
    h a = some ⟨lastOr pre l, headOr l' post, x⟩ := (linked_append.mp hl).2.1

/-- The cells of a list that is held are there. -/
theorem Linked.ne_none (hl : Linked h pre l post) {a : α} (ha : a ∈ l.map Prod.fst) :
    h a ≠ none := by
  obtain ⟨⟨b, x⟩, hmem, rfl⟩ := List.mem_map.mp ha
  obtain ⟨l₁, l₂, rfl⟩ := List.append_of_mem hmem
  rw [hl.cell]
  exact Option.some_ne_none _

/-- A list that ends nowhere is told by its first address. -/
theorem Linked.unique (hl : Linked h pre l none) (hl' : Linked h pre l' none)
    (heq : headOr l none = headOr l' none) : l = l' := by
  induction l generalizing pre l' with
  | nil =>
    cases l' with
    | nil => rfl
    | cons c l' => cases heq
  | cons c l ih =>
    cases l' with
    | nil => cases heq
    | cons c' l' =>
      obtain ⟨hc, hl⟩ := hl
      obtain ⟨hc', hl'⟩ := hl'
      obtain heq : c.1 = c'.1 := Option.some.inj heq
      rw [heq] at hc hl
      obtain ⟨-, hnext, hvalue⟩ := Link.mk.inj (Option.some.inj (hc.symm.trans hc'))
      rw [ih hl hl' hnext, Prod.ext heq hvalue]

/-- No cell of a list that ends nowhere is in it twice. -/
theorem Linked.nodup (hl : Linked h pre l none) : (l.map Prod.fst).Nodup := by
  induction l generalizing pre with
  | nil => exact List.nodup_nil
  | cons c l ih =>
    obtain ⟨hc, hl⟩ := hl
    refine List.nodup_cons.mpr ⟨fun hmem => ?_, ih hl⟩
    -- What is behind its second place is behind its first one.
    obtain ⟨⟨a, y⟩, hmem, rfl⟩ := List.mem_map.mp hmem
    obtain ⟨l₁, l₂, rfl⟩ := List.append_of_mem hmem
    have hc' := hl.cell
    rw [hc'] at hc
    obtain ⟨-, hnext, -⟩ := Link.mk.inj (Option.some.inj hc)
    have heq := Linked.unique hl (linked_append.mp hl).2.2 hnext.symm
    have hlen := congrArg List.length heq
    rw [List.length_append, List.length_cons] at hlen
    omega

/-! ## Changes of links -/

variable [DecidableEq α]

/-- The link of a cell to the one behind it is set. -/
def setNext (h : α → Option (Link α β)) (a : α) (next : Option α) : α → Option (Link α β) :=
  Function.update h a ((h a).map fun c => { c with next })

/-- The link of a cell to the one before it is set. -/
def setPrev (h : α → Option (Link α β)) (a : α) (prev : Option α) : α → Option (Link α β) :=
  Function.update h a ((h a).map fun c => { c with prev })

/-- Another cell stays. -/
@[simp]
theorem setNext_of_ne {a b : α} (hne : b ≠ a) (next : Option α) : setNext h a next b = h b :=
  Function.update_of_ne hne ..

/-- Another cell stays. -/
@[simp]
theorem setPrev_of_ne {a b : α} (hne : b ≠ a) (prev : Option α) : setPrev h a prev b = h b :=
  Function.update_of_ne hne ..

/-- A list that is held, with another cell behind its last one. -/
theorem Linked.setNext {a : α} {x : β} (hl : Linked h pre (l ++ [(a, x)]) post)
    (ha : a ∉ l.map Prod.fst) (post' : Option α) :
    Linked (setNext h a post') pre (l ++ [(a, x)]) post' := by
  obtain ⟨hl, hc, -⟩ := linked_append.mp hl
  refine linked_append.mpr ⟨hl.congr fun b hb => setNext_of_ne ?_ _, ?_, trivial⟩
  · rintro rfl
    exact ha hb
  · rw [Lib.setNext, Function.update_self, hc]
    rfl

/-- A list that is held, with another cell in front of its first one. -/
theorem Linked.setPrev {a : α} {x : β} (hl : Linked h pre ((a, x) :: l) post)
    (ha : a ∉ l.map Prod.fst) (pre' : Option α) :
    Linked (setPrev h a pre') pre' ((a, x) :: l) post := by
  obtain ⟨hc, hl⟩ := hl
  refine ⟨?_, hl.congr fun b hb => setPrev_of_ne ?_ _⟩
  · rw [Lib.setPrev, Function.update_self, hc]
    rfl
  · rintro rfl
    exact ha hb

/-! ## Insertion and removal -/

/-- A cell that is linked in behind a list. -/
theorem Linked.concat {a : α} {x : β} (hl : Linked h pre l none)
    (ha : h' a = some ⟨lastOr pre l, post, x⟩)
    (hlast : ∀ b, lastOr none l = some b → h' b = Lib.setNext h b (some a) b)
    (hother : ∀ b ∈ l.map Prod.fst, lastOr none l ≠ some b → h' b = h b) :
    Linked h' pre (l ++ [(a, x)]) post := by
  have hnodup := hl.nodup
  refine linked_append.mpr ⟨?_, ha, trivial⟩
  rcases List.eq_nil_or_concat' l with rfl | ⟨l, ⟨b, y⟩, rfl⟩
  · trivial
  · rw [List.map_append, List.nodup_append] at hnodup
    have hb : b ∉ l.map Prod.fst := fun hmem => hnodup.2.2 b hmem b List.mem_cons_self rfl
    have hlast' : lastOr none (l ++ [(b, y)]) = some b := by rw [lastOr_append]; rfl
    refine (hl.setNext hb (some a)).congr fun d hd => ?_
    by_cases hdb : d = b
    · subst hdb
      exact hlast d hlast'
    · rw [setNext_of_ne hdb]
      refine hother d hd fun h => hdb ?_
      exact (Option.some.inj (hlast'.symm.trans h)).symm

/-- A cell that is linked in before a list. -/
theorem Linked.cons {a : α} {x : β} (hl : Linked h none l none)
    (ha : h' a = some ⟨pre, headOr l none, x⟩)
    (hhead : ∀ b, headOr l none = some b → h' b = Lib.setPrev h b (some a) b)
    (hother : ∀ b ∈ l.map Prod.fst, headOr l none ≠ some b → h' b = h b) :
    Linked h' pre ((a, x) :: l) none := by
  have hnodup := hl.nodup
  refine ⟨ha, ?_⟩
  cases l with
  | nil => trivial
  | cons c l =>
    obtain ⟨b, y⟩ := c
    have hb : b ∉ l.map Prod.fst := (List.nodup_cons.mp hnodup).1
    refine (hl.setPrev hb (some a)).congr fun d hd => ?_
    by_cases hdb : d = b
    · subst hdb
      exact hhead d rfl
    · rw [setPrev_of_ne hdb]
      exact hother d hd fun h => hdb (Option.some.inj h).symm

/-- A cell that is linked out of a list: the cell before it and the one behind it are linked. -/
theorem Linked.remove {a : α} {x : β} (hl : Linked h none (l ++ (a, x) :: l') none)
    (hprev : ∀ b, lastOr none l = some b → h' b = Lib.setNext h b (headOr l' none) b)
    (hnext : ∀ b, headOr l' none = some b → h' b = Lib.setPrev h b (lastOr none l) b)
    (hother : ∀ b ∈ (l ++ l').map Prod.fst, lastOr none l ≠ some b → headOr l' none ≠ some b →
      h' b = h b) : Linked h' none (l ++ l') none := by
  have hnodup := hl.nodup
  obtain ⟨hfront, -, hback⟩ := linked_append.mp hl
  rw [List.map_append, List.map_cons, List.nodup_append, List.nodup_cons] at hnodup
  obtain ⟨hnodup, ⟨-, hnodup'⟩, hsep⟩ := hnodup
  -- No cell is in both parts.
  have hne : ∀ b ∈ l.map Prod.fst, ∀ d ∈ l'.map Prod.fst, b ≠ d := fun b hb d hd =>
    hsep b hb d (List.mem_cons_of_mem _ hd)
  refine linked_append.mpr ⟨?_, ?_⟩
  · rcases List.eq_nil_or_concat' l with rfl | ⟨l, ⟨b, y⟩, rfl⟩
    · trivial
    · rw [List.map_append, List.nodup_append] at hnodup
      have hb : b ∉ l.map Prod.fst := fun hmem => hnodup.2.2 b hmem b List.mem_cons_self rfl
      have hlast : lastOr none (l ++ [(b, y)]) = some b := by rw [lastOr_append]; rfl
      refine (hfront.setNext hb (headOr l' none)).congr fun d hd => ?_
      by_cases hdb : d = b
      · subst hdb
        exact hprev d hlast
      · rw [setNext_of_ne hdb]
        refine hother d (by rw [List.map_append]; exact List.mem_append_left _ hd) ?_ ?_
        · rw [hlast]
          exact fun h => hdb (Option.some.inj h).symm
        · exact fun h => hne d hd d (mem_of_headOr h) rfl
  · cases l' with
    | nil => trivial
    | cons c l' =>
      obtain ⟨b, y⟩ := c
      have hb : b ∉ l'.map Prod.fst := (List.nodup_cons.mp hnodup').1
      refine (hback.setPrev hb (lastOr none l)).congr fun d hd => ?_
      by_cases hdb : d = b
      · subst hdb
        exact hnext d rfl
      · rw [setPrev_of_ne hdb]
        refine hother d (by rw [List.map_append]; exact List.mem_append_right _ hd) ?_ ?_
        · exact fun h => hne d (mem_of_lastOr h) d hd rfl
        · exact fun h => hdb (Option.some.inj h).symm

end MgCommonUtils.Lib
