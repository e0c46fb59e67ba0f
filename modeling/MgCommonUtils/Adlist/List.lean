import MgCommonUtils.Lib.DoublyLinked

/-!
# The doubly linked lists of `adlist.c`

The functions of the list library of the servers, over a memory of list headers, nodes and
iterators. A pointer is an address or `NULL`, and what `malloc` returns is an argument. An access
through `NULL`, to memory that is not there or to an object of another type is a fault.
-/

namespace MgCommonUtils.Adlist

open MgCommonUtils.Lib

/-- An address. -/
abbrev Addr := ℕ

/-- A pointer, where `NULL` is `none`. -/
abbrev Ptr := Option Addr

/-- What goes wrong. -/
inductive Fault where
  /-- A pointer that is not to an object of the type it is used at. -/
  | badPointer
  /-- A signed integer out of its range. -/
  | overflow
  /-- A loop that does not end. -/
  | forever
  deriving DecidableEq, Repr

/-- `struct list`, where the method that frees a value is only there or not. -/
structure AdList (α : Type) where
  /-- The first node. -/
  head : Ptr
  /-- The last node. -/
  tail : Ptr
  /-- The method that copies a value. -/
  dup : Option (α → Option α)
  /-- Whether there is a method that frees a value. -/
  free : Bool
  /-- The method that compares a value with a key. -/
  match' : Option (α → α → Bool)
  /-- The number of nodes. -/
  len : ℕ

/-- `struct listNode`. -/
abbrev ListNode (α : Type) := Link Addr α

/-- `AL_START_HEAD` and `AL_START_TAIL`. -/
inductive Direction where
  | head
  | tail
  deriving DecidableEq, Repr

/-- `struct listIter`. -/
structure ListIter where
  /-- The node that is returned next. -/
  next : Ptr
  /-- The direction it goes in. -/
  direction : Direction
  deriving DecidableEq, Repr

/-- An object in memory. -/
inductive Cell (α : Type) where
  | list (l : AdList α)
  | node (n : ListNode α)
  | iter (i : ListIter)

/-- The memory, and the values that were given to the method that frees them. -/
structure Mem (α : Type) where
  /-- The object at an address. -/
  cells : Addr → Option (Cell α)
  /-- The values that were freed, in order. -/
  freed : List α

variable {α : Type}

/-- The list at an address. -/
def listAt (cells : Addr → Option (Cell α)) (a : Addr) : Option (AdList α) :=
  match cells a with
  | some (.list l) => some l
  | _ => none

/-- The node at an address. -/
def nodeAt (cells : Addr → Option (Cell α)) (a : Addr) : Option (ListNode α) :=
  match cells a with
  | some (.node n) => some n
  | _ => none

/-- The iterator at an address. -/
def iterAt (cells : Addr → Option (Cell α)) (a : Addr) : Option ListIter :=
  match cells a with
  | some (.iter i) => some i
  | _ => none

/-- An access to the object that `at` finds at a pointer. -/
def deref {γ : Type} (objectAt : Addr → Option γ) : Ptr → Except Fault γ
  | none => .error .badPointer
  | some a =>
    match objectAt a with
    | none => .error .badPointer
    | some x => .ok x

namespace Mem

/-- The memory in the beginning. -/
def empty : Mem α := ⟨fun _ => none, []⟩

/-- The list that a pointer is to. -/
def list (m : Mem α) (p : Ptr) : Except Fault (AdList α) := deref (listAt m.cells) p

/-- The node that a pointer is to. -/
def node (m : Mem α) (p : Ptr) : Except Fault (ListNode α) := deref (nodeAt m.cells) p

/-- The iterator that a pointer is to. -/
def iter (m : Mem α) (p : Ptr) : Except Fault ListIter := deref (iterAt m.cells) p

/-- An object is stored at an address. -/
def store (m : Mem α) (a : Addr) (c : Cell α) : Mem α :=
  { m with cells := Function.update m.cells a (some c) }

/-- The memory at an address is not used any more. -/
def erase (m : Mem α) (a : Addr) : Mem α :=
  { m with cells := Function.update m.cells a none }

/-- Fields of the list that a pointer is to are set. -/
def onList (m : Mem α) (p : Ptr) (f : AdList α → AdList α) : Except Fault (Mem α) := do
  let l ← m.list p
  return m.store (p.getD 0) (.list (f l))

/-- Fields of the node that a pointer is to are set. -/
def onNode (m : Mem α) (p : Ptr) (f : ListNode α → ListNode α) : Except Fault (Mem α) := do
  let n ← m.node p
  return m.store (p.getD 0) (.node (f n))

/-- Fields of the iterator that a pointer is to are set. -/
def onIter (m : Mem α) (p : Ptr) (f : ListIter → ListIter) : Except Fault (Mem α) := do
  let i ← m.iter p
  return m.store (p.getD 0) (.iter (f i))

/-- `free`, which does nothing with `NULL`. -/
def free (m : Mem α) : Ptr → Except Fault (Mem α)
  | none => .ok m
  | some a =>
    match m.cells a with
    | none => .error .badPointer
    | some _ => .ok (m.erase a)

/-- The method of the list that frees a value, if there is one. -/
def freeValue (m : Mem α) (l : AdList α) (x : α) : Mem α :=
  if l.free then { m with freed := m.freed ++ [x] } else m

end Mem

/-- `listCreate`. -/
def listCreate (m : Mem α) (malloc : Ptr) : Ptr × Mem α :=
  match malloc with
  | none => (none, m)
  | some list => (some list, m.store list (.list ⟨none, none, none, false, none, 0⟩))

/-- `listSetDupMethod`, `listSetFreeMethod` and `listSetMatchMethod`. -/
def listSetMethods (m : Mem α) (list : Ptr) (dup : Option (α → Option α)) (free : Bool)
    (match' : Option (α → α → Bool)) : Except Fault (Mem α) := do
  let m ← m.onList list fun l => { l with dup }
  let m ← m.onList list fun l => { l with free }
  m.onList list fun l => { l with match' }

/-- The loop of `listRelease`. -/
def releaseNodes (list : Ptr) (m : Mem α) (current : Ptr) : ℕ → Except Fault (Mem α)
  | 0 => .ok m
  | len + 1 => do
    let n ← m.node current
    let l ← m.list list
    let m ← (m.freeValue l n.value).free current
    releaseNodes list m n.next len

/-- `listRelease`. -/
def listRelease (m : Mem α) (list : Ptr) : Except Fault (Mem α) := do
  let l ← m.list list
  let m ← releaseNodes list m l.head l.len
  m.free list

/-- `listAddNodeHead`. -/
def listAddNodeHead (m : Mem α) (list : Ptr) (value : α) (malloc : Ptr) :
    Except Fault (Ptr × Mem α) := do
  match malloc with
  | none => return (none, m)
  | some node =>
    -- The links are set below.
    let m := m.store node (.node ⟨none, none, value⟩)
    let l ← m.list list
    let m ←
      if l.len = 0 then
        m.onList list fun l => { l with head := some node, tail := some node }
      else do
        let m ← m.onNode (some node) fun n => { n with next := l.head }
        let m ← m.onNode l.head fun n => { n with prev := some node }
        m.onList list fun l => { l with head := some node }
    let m ← m.onList list fun l => { l with len := (l.len + 1) % 2 ^ 32 }
    return (list, m)

/-- `listAddNodeTail`. -/
def listAddNodeTail (m : Mem α) (list : Ptr) (value : α) (malloc : Ptr) :
    Except Fault (Ptr × Mem α) := do
  match malloc with
  | none => return (none, m)
  | some node =>
    -- The links are set below.
    let m := m.store node (.node ⟨none, none, value⟩)
    let l ← m.list list
    let m ←
      if l.len = 0 then
        m.onList list fun l => { l with head := some node, tail := some node }
      else do
        let m ← m.onNode (some node) fun n => { n with prev := l.tail }
        let m ← m.onNode l.tail fun n => { n with next := some node }
        m.onList list fun l => { l with tail := some node }
    let m ← m.onList list fun l => { l with len := (l.len + 1) % 2 ^ 32 }
    return (list, m)

/-- The first branch of `listDelNode`: the node before it is linked to the one behind it. -/
def linkNext (m : Mem α) (list : Ptr) (n : ListNode α) : Except Fault (Mem α) :=
  if n.prev.isSome then m.onNode n.prev fun p => { p with next := n.next }
  else m.onList list fun l => { l with head := n.next }

/-- Its second branch: the node behind it is linked to the one before it. -/
def linkPrev (m : Mem α) (list : Ptr) (n : ListNode α) : Except Fault (Mem α) :=
  if n.next.isSome then m.onNode n.next fun q => { q with prev := n.prev }
  else m.onList list fun l => { l with tail := n.prev }

/-- `listDelNode`. -/
def listDelNode (m : Mem α) (list node : Ptr) : Except Fault (Mem α) := do
  let n ← m.node node
  let m ← linkNext m list n
  let n ← m.node node
  let m ← linkPrev m list n
  let l ← m.list list
  let n ← m.node node
  let m ← (m.freeValue l n.value).free node
  m.onList list fun l => { l with len := (l.len + (2 ^ 32 - 1)) % 2 ^ 32 }

/-- The node at the end of a list where an iterator begins. -/
def AdList.start (l : AdList α) : Direction → Ptr
  | .head => l.head
  | .tail => l.tail

/-- The node behind another one in the direction of an iterator. -/
def ahead (n : ListNode α) : Direction → Ptr
  | .head => n.next
  | .tail => n.prev

/-- `listGetIterator`. -/
def listGetIterator (m : Mem α) (list : Ptr) (direction : Direction) (malloc : Ptr) :
    Except Fault (Ptr × Mem α) := do
  match malloc with
  | none => return (none, m)
  | some iter =>
    let l ← m.list list
    return (some iter, m.store iter (.iter ⟨l.start direction, direction⟩))

/-- `listReleaseIterator`. -/
def listReleaseIterator (m : Mem α) (iter : Ptr) : Except Fault (Mem α) := m.free iter

/-- `listRewind` and `listRewindTail`. -/
def listRewind (m : Mem α) (list iter : Ptr) (direction : Direction) : Except Fault (Mem α) := do
  let l ← m.list list
  m.onIter iter fun _ => ⟨l.start direction, direction⟩

/-- `listNext`. -/
def listNext (m : Mem α) (iter : Ptr) : Except Fault (Ptr × Mem α) := do
  let i ← m.iter iter
  match i.next with
  | none => return (none, m)
  | some current =>
    let n ← m.node (some current)
    let m ← m.onIter iter fun i => { i with next := ahead n i.direction }
    return (some current, m)

/-- The copy of a value by the method of the list, or the value itself without one. -/
def dupValue (dup : Option (α → Option α)) (x : α) : Option α :=
  match dup with
  | none => some x
  | some dup => dup x

/-- What the loop of `listDup` does when memory is short. -/
def dropCopy (m : Mem α) (copy iter : Ptr) : Except Fault (Ptr × Mem α) := do
  let m ← listRelease m copy
  let m ← listReleaseIterator m iter
  return (none, m)

/-- The loop of `listDup`, where the results of `malloc` are in order. -/
def dupNodes (copy iter : Ptr) (malloc : ℕ → Ptr) : ℕ → ℕ → Mem α → Except Fault (Ptr × Mem α)
  | _, 0, _ => .error .forever
  | k, turns + 1, m => do
    let (node, m) ← listNext m iter
    match node with
    | none =>
      let m ← listReleaseIterator m iter
      return (copy, m)
    | some _ =>
      let n ← m.node node
      let c ← m.list copy
      match dupValue c.dup n.value with
      | none => dropCopy m copy iter
      | some value =>
        let (r, m) ← listAddNodeTail m copy value (malloc k)
        match r with
        | none => dropCopy m copy iter
        | some _ => dupNodes copy iter malloc (k + 1) turns m

/-- `listDup`, where the results of `malloc` are in order. -/
def listDup (turns : ℕ) (m : Mem α) (orig : Ptr) (malloc : ℕ → Ptr) :
    Except Fault (Ptr × Mem α) := do
  let (copy, m) := listCreate m (malloc 0)
  match copy with
  | none => return (none, m)
  | some _ =>
    let o ← m.list orig
    let m ← listSetMethods m copy o.dup o.free o.match'
    let (iter, m) ← listGetIterator m orig .head (malloc 1)
    dupNodes copy iter malloc 2 turns m

/-- Whether a value is the one that a key is for. -/
def AdList.matches' [DecidableEq α] (l : AdList α) (value key : α) : Bool :=
  match l.match' with
  | none => key = value
  | some f => f value key

/-- The loop of `listSearchKey`. -/
def searchNodes [DecidableEq α] (list iter : Ptr) (key : α) :
    ℕ → Mem α → Except Fault (Ptr × Mem α)
  | 0, _ => .error .forever
  | turns + 1, m => do
    let (node, m) ← listNext m iter
    match node with
    | none =>
      let m ← listReleaseIterator m iter
      return (none, m)
    | some _ =>
      let n ← m.node node
      let l ← m.list list
      if l.matches' n.value key then
        let m ← listReleaseIterator m iter
        return (node, m)
      else searchNodes list iter key turns m

/-- `listSearchKey`. -/
def listSearchKey [DecidableEq α] (turns : ℕ) (m : Mem α) (list : Ptr) (key : α) (malloc : Ptr) :
    Except Fault (Ptr × Mem α) := do
  let (iter, m) ← listGetIterator m list .head malloc
  searchNodes list iter key turns m

/-- The loops of `listIndex`. -/
def walk (m : Mem α) (direction : Direction) : ℕ → Ptr → Except Fault Ptr
  | 0, n => .ok n
  | _ + 1, none => .ok none
  | index + 1, some a => do
    let n ← m.node (some a)
    walk m direction index (ahead n direction)

/-- `listIndex`. -/
def listIndex (m : Mem α) (list : Ptr) (index : ℤ) : Except Fault Ptr := do
  if index < 0 then
    if 2 ^ 31 - 1 < -index then .error .overflow
    else
      let l ← m.list list
      walk m .tail (-index - 1).toNat l.tail
  else
    let l ← m.list list
    walk m .head index.toNat l.head

end MgCommonUtils.Adlist
