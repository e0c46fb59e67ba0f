import MgCommonUtils.Adlist.List
import MgCommonUtils.Lib.Ownership

/-!
# What the lists of `adlist.c` are

A memory holds a list if its header and its nodes are there, and the nodes are linked in order. The
objects of a memory are its lists and its iterators (`layout`).
-/

namespace MgCommonUtils.Adlist

open MgCommonUtils.Lib

variable {α : Type}

/-- A list: its nodes with their values in order, and its methods. -/
structure Contents (α : Type) where
  /-- The addresses of the nodes with their values. -/
  items : List (Addr × α)
  /-- The method that copies a value. -/
  dup : Option (α → Option α)
  /-- Whether there is a method that frees a value. -/
  free : Bool
  /-- The method that compares a value with a key. -/
  match' : Option (α → α → Bool)

/-- The header of a list. -/
def Contents.header (c : Contents α) : AdList α :=
  ⟨headOr c.items none, lastOr none c.items, c.dup, c.free, c.match', c.items.length⟩

/-- What the memory is used for: a list, or an iterator. -/
inductive Obj (α : Type) where
  | list (c : Contents α)
  | iter (i : ListIter)

/-- The addresses of an object. -/
def Obj.addrs (k : Addr) : Obj α → Set Addr
  | .list c => {a | a = k ∨ a ∈ c.items.map Prod.fst}
  | .iter _ => {k}

/-- The memory holds a list. -/
structure HoldsList (cells : Addr → Option (Cell α)) (k : Addr) (c : Contents α) : Prop where
  /-- Its header. -/
  header : cells k = some (.list c.header)
  /-- Its nodes. -/
  nodes : Linked (nodeAt cells) none c.items none
  /-- Their number is one that the header can count. -/
  length : c.items.length < 2 ^ 32

/-- The memory holds an object. -/
def Obj.Holds (cells : Addr → Option (Cell α)) (k : Addr) : Obj α → Prop
  | .list c => HoldsList cells k c
  | .iter i => cells k = some (.iter i)

/-! ## Objects in memory -/

/-- A node that is there is an object. -/
theorem nodeAt_eq_some {cells : Addr → Option (Cell α)} {a : Addr} {n : ListNode α} :
    nodeAt cells a = some n ↔ cells a = some (.node n) := by
  unfold nodeAt
  split
  · rename_i h
    rw [h]
    simp
  · rename_i h
    simp only [reduceCtorEq, false_iff]
    exact fun h' => h n h'

/-- Whether a node is there depends on the object at its address. -/
theorem nodeAt_congr {cells cells' : Addr → Option (Cell α)} {a : Addr} (h : cells' a = cells a) :
    nodeAt cells' a = nodeAt cells a := by rw [nodeAt, nodeAt, h]

/-- A node of a list that is held is there. -/
theorem HoldsList.ne_none {cells : Addr → Option (Cell α)} {k : Addr} {c : Contents α}
    (hl : HoldsList cells k c) {a : Addr} (ha : a ∈ c.items.map Prod.fst) :
    ∃ n, cells a = some (.node n) := by
  obtain ⟨n, hn⟩ := Option.ne_none_iff_exists'.mp (hl.nodes.ne_none ha)
  exact ⟨n, nodeAt_eq_some.mp hn⟩

/-- A node of a list is not its header. -/
theorem HoldsList.ne_header {cells : Addr → Option (Cell α)} {k : Addr} {c : Contents α}
    (hl : HoldsList cells k c) {a : Addr} (ha : a ∈ c.items.map Prod.fst) : a ≠ k := by
  obtain ⟨n, hn⟩ := hl.ne_none ha
  rintro rfl
  rw [hl.header] at hn
  cases hn

/-- Lists and iterators in memory. -/
def layout : Layout Addr (Obj α) Addr (Cell α) where
  cells := Obj.addrs
  Holds := Obj.Holds
  alive := by
    intro cells k x a hx ha
    cases x with
    | list c =>
      rcases ha with rfl | ha
      · rw [HoldsList.header hx]
        exact Option.some_ne_none _
      · obtain ⟨n, hn⟩ := HoldsList.ne_none hx ha
        rw [hn]
        exact Option.some_ne_none _
    | iter i =>
      obtain rfl : a = k := ha
      rw [show cells a = some (.iter i) from hx]
      exact Option.some_ne_none _
  congr := by
    intro cells cells' k x heq hx
    cases x with
    | list c =>
      exact ⟨(heq k (.inl rfl)).trans hx.header,
        hx.nodes.congr fun a ha => nodeAt_congr (heq a (.inr ha)), hx.length⟩
    | iter i => exact (heq k rfl).trans hx

/-! ## Accesses -/

namespace Mem

variable {m : Mem α} {a : Addr}

/-- A list that is there is read. -/
theorem list_some {l : AdList α} (h : m.cells a = some (.list l)) : m.list (some a) = .ok l := by
  simp [Mem.list, deref, listAt, h]

/-- A node that is there is read. -/
theorem node_some {n : ListNode α} (h : m.cells a = some (.node n)) :
    m.node (some a) = .ok n := by
  simp [Mem.node, deref, nodeAt, h]

/-- An iterator that is there is read. -/
theorem iter_some {i : ListIter} (h : m.cells a = some (.iter i)) : m.iter (some a) = .ok i := by
  simp [Mem.iter, deref, iterAt, h]

/-- A list that is there is changed. -/
theorem onList_some {l : AdList α} (h : m.cells a = some (.list l)) (f : AdList α → AdList α) :
    m.onList (some a) f = .ok (m.store a (.list (f l))) := by
  rw [onList, list_some h]
  rfl

/-- A node that is there is changed. -/
theorem onNode_some {n : ListNode α} (h : m.cells a = some (.node n))
    (f : ListNode α → ListNode α) : m.onNode (some a) f = .ok (m.store a (.node (f n))) := by
  rw [onNode, node_some h]
  rfl

/-- An iterator that is there is changed. -/
theorem onIter_some {i : ListIter} (h : m.cells a = some (.iter i)) (f : ListIter → ListIter) :
    m.onIter (some a) f = .ok (m.store a (.iter (f i))) := by
  rw [onIter, iter_some h]
  rfl

/-- Memory that is in use is given back. -/
theorem free_some {c : Cell α} (h : m.cells a = some c) : m.free (some a) = .ok (m.erase a) := by
  rw [free, h]

@[simp]
theorem store_self (c : Cell α) : (m.store a c).cells a = some c := Function.update_self ..

@[simp]
theorem store_of_ne {b : Addr} (h : b ≠ a) (c : Cell α) : (m.store a c).cells b = m.cells b :=
  Function.update_of_ne h ..

@[simp]
theorem erase_self : (m.erase a).cells a = none := Function.update_self ..

@[simp]
theorem erase_of_ne {b : Addr} (h : b ≠ a) : (m.erase a).cells b = m.cells b :=
  Function.update_of_ne h ..

@[simp]
theorem freed_store (c : Cell α) : (m.store a c).freed = m.freed := rfl

@[simp]
theorem freed_erase : (m.erase a).freed = m.freed := rfl

@[simp]
theorem cells_freeValue (l : AdList α) (x : α) : (m.freeValue l x).cells = m.cells := by
  unfold freeValue
  split <;> rfl


@[simp]
theorem store_store (c c' : Cell α) : (m.store a c).store a c' = m.store a c' := by
  simp [store]

end Mem

@[simp]
theorem ok_bind {β γ : Type} (x : β) (f : β → Except Fault γ) : (Except.ok x >>= f) = f x := rfl

@[simp]
theorem map_ok {β γ : Type} (x : β) (f : β → γ) :
    f <$> (Except.ok x : Except Fault β) = .ok (f x) := rfl

end MgCommonUtils.Adlist
