import MgCommonUtils.Adlist.Steps

/-!
# Runs of calls of `adlist.c`

What the calls of the library do to lists and iterators is told without pointers between nodes
(`Does`). A program that keeps to it calls the library on lists it has, removes nodes that are in
their list, and goes on with an iterator only while the node it is at is in a list. In every such
run no call faults, every call returns what it should, and the memory consists of the lists and
iterators in use (`run_spec`).
-/

namespace MgCommonUtils.Adlist

open MgCommonUtils.Lib

variable {α : Type}

/-- A call, with the result of `malloc` for one that allocates. -/
inductive Call (α : Type) where
  | listCreate (malloc : Ptr)
  | listRelease (list : Addr)
  | listAddNodeHead (list : Addr) (value : α) (malloc : Ptr)
  | listAddNodeTail (list : Addr) (value : α) (malloc : Ptr)
  | listDelNode (list node : Addr)
  | listSetMethods (list : Addr) (dup : Option (α → Option α)) (free : Bool)
      (match' : Option (α → α → Bool))
  | listGetIterator (list : Addr) (direction : Direction) (malloc : Ptr)
  | listReleaseIterator (iter : Addr)
  | listRewind (list iter : Addr) (direction : Direction)
  | listNext (iter : Addr)

/-- What a call returns, where a function without a result returns `NULL`. -/
def exec (m : Mem α) : Call α → Except Fault (Ptr × Mem α)
  | .listCreate malloc => .ok (listCreate m malloc)
  | .listRelease list => do
    let m ← listRelease m list
    return (none, m)
  | .listAddNodeHead list value malloc => listAddNodeHead m list value malloc
  | .listAddNodeTail list value malloc => listAddNodeTail m list value malloc
  | .listDelNode list node => do
    let m ← listDelNode m list node
    return (none, m)
  | .listSetMethods list dup free match' => do
    let m ← listSetMethods m list dup free match'
    return (none, m)
  | .listGetIterator list direction malloc => listGetIterator m list direction malloc
  | .listReleaseIterator iter => do
    let m ← listReleaseIterator m iter
    return (none, m)
  | .listRewind list iter direction => do
    let m ← listRewind m list iter direction
    return (none, m)
  | .listNext iter => listNext m iter

/-- A sequence of calls. -/
def execAll (m : Mem α) : List (Call α) → Except Fault (List Ptr × Mem α)
  | [] => .ok ([], m)
  | call :: calls => do
    let (r, m) ← exec m call
    let (rs, m) ← execAll m calls
    return (r :: rs, m)

/-- The objects of a program. -/
abbrev Objs (α : Type) := Addr → Option (Obj α)

/-- No object is at an address. -/
def Objs.Unused (A : Objs α) (a : Addr) : Prop := ∀ k x, A k = some x → a ∉ x.addrs k

/-- What a call does to the objects: what it returns, the objects afterwards and the values that are
given to the method that frees them. -/
inductive Does (A : Objs α) : Call α → Ptr → Objs α → List α → Prop
  | noMemory {call : Call α}
      (hcall : call = .listCreate none ∨
        (∃ k c x, A k = some (.list c) ∧ call = .listAddNodeHead k x none) ∨
        (∃ k c x, A k = some (.list c) ∧ call = .listAddNodeTail k x none) ∨
        ∃ k c d, A k = some (.list c) ∧ call = .listGetIterator k d none) :
      Does A call none A []
  | listCreate {a : Addr} (ha : A.Unused a) :
      Does A (.listCreate (some a)) (some a)
        (Function.update A a (some (.list ⟨[], none, false, none⟩))) []
  | listRelease {k : Addr} {c : Contents α} (hk : A k = some (.list c)) :
      Does A (.listRelease k) none (Function.update A k none) (c.frees (c.items.map Prod.snd))
  | listAddNodeHead {k a : Addr} {c : Contents α} {x : α} (hk : A k = some (.list c))
      (ha : A.Unused a) (hlen : c.items.length + 1 < 2 ^ 32) :
      Does A (.listAddNodeHead k x (some a)) (some k)
        (Function.update A k (some (.list { c with items := (a, x) :: c.items }))) []
  | listAddNodeTail {k a : Addr} {c : Contents α} {x : α} (hk : A k = some (.list c))
      (ha : A.Unused a) (hlen : c.items.length + 1 < 2 ^ 32) :
      Does A (.listAddNodeTail k x (some a)) (some k)
        (Function.update A k (some (.list { c with items := c.items ++ [(a, x)] }))) []
  | listDelNode {k a : Addr} {c : Contents α} {x : α} {l l' : List (Addr × α)}
      (hk : A k = some (.list c)) (hitems : c.items = l ++ (a, x) :: l') :
      Does A (.listDelNode k a) none
        (Function.update A k (some (.list { c with items := l ++ l' }))) (c.frees [x])
  | listSetMethods {k : Addr} {c : Contents α} {dup : Option (α → Option α)} {free : Bool}
      {match' : Option (α → α → Bool)} (hk : A k = some (.list c)) :
      Does A (.listSetMethods k dup free match') none
        (Function.update A k (some (.list { c with dup, free, match' }))) []
  | listGetIterator {k a : Addr} {c : Contents α} {d : Direction} (hk : A k = some (.list c))
      (ha : A.Unused a) :
      Does A (.listGetIterator k d (some a)) (some a)
        (Function.update A a (some (.iter ⟨c.start d, d⟩))) []
  | listReleaseIterator {a : Addr} {i : ListIter} (ha : A a = some (.iter i)) :
      Does A (.listReleaseIterator a) none (Function.update A a none) []
  | listRewind {k a : Addr} {c : Contents α} {i : ListIter} {d : Direction}
      (hk : A k = some (.list c)) (ha : A a = some (.iter i)) :
      Does A (.listRewind k a d) none (Function.update A a (some (.iter ⟨c.start d, d⟩))) []
  | listNext {k a b : Addr} {c : Contents α} {x : α} {l l' : List (Addr × α)} {d : Direction}
      (ha : A a = some (.iter ⟨some b, d⟩)) (hk : A k = some (.list c))
      (hitems : c.items = l ++ (b, x) :: l') :
      Does A (.listNext a) (some b)
        (Function.update A a (some (.iter ⟨aheadIn l l' d, d⟩))) []
  | listNextEnd {a : Addr} {d : Direction} (ha : A a = some (.iter ⟨none, d⟩)) :
      Does A (.listNext a) none A []

/-- A run of calls: what they return, the objects afterwards and the values that are freed. -/
inductive Run : Objs α → List (Call α) → List Ptr → Objs α → List α → Prop
  | nil {A : Objs α} : Run A [] [] A []
  | cons {A A' A'' : Objs α} {call : Call α} {calls : List (Call α)} {r : Ptr} {rs : List Ptr}
      {freed freed' : List α} (hcall : Does A call r A' freed) (hrun : Run A' calls rs A'' freed') :
      Run A (call :: calls) (r :: rs) A'' (freed ++ freed')

/-! ## Calls -/

variable {m : Mem α} {A A' : Objs α}

/-- A list in use is held. -/
theorem holdsList (hA : layout.Owned m.cells A) {k : Addr} {c : Contents α}
    (hk : A k = some (.list c)) : HoldsList m.cells k c := hA.holds k _ hk

/-- An iterator in use is there. -/
theorem holdsIter (hA : layout.Owned m.cells A) {a : Addr} {i : ListIter}
    (ha : A a = some (.iter i)) : m.cells a = some (.iter i) := hA.holds a _ ha

/-- Memory that no object is in is free. -/
theorem Objs.Unused.free (hA : layout.Owned m.cells A) {a : Addr} (ha : A.Unused a) :
    m.cells a = none ∧ A a = none := by
  refine ⟨?_, ?_⟩
  · by_contra hne
    obtain ⟨k, x, hk, hmem⟩ := hA.owner a hne
    exact ha k x hk hmem
  · cases hx : A a with
    | none => rfl
    | some x =>
      refine absurd ?_ (ha a x hx)
      cases x with
      | list c => exact .inl rfl
      | iter i => rfl

/-- An address stays unused if the object that is stored is not at it. -/
theorem Objs.Unused.update {A : Objs α} {a k : Addr} {x : Option (Obj α)} (ha : A.Unused a)
    (hx : ∀ y, x = some y → a ∉ y.addrs k) : Objs.Unused (Function.update A k x) a := by
  intro k' y hy
  by_cases hk : k' = k
  · subst hk
    rw [Function.update_self] at hy
    exact hx y hy
  · rw [Function.update_of_ne hk] at hy
    exact ha k' y hy

/-- A step on an object in use keeps the memory that of the objects. -/
theorem Step.owned {m' : Mem α} {k : Addr} {x x' : Option (Obj α)} {freed : List α}
    (hA : layout.Owned m.cells A) (hk : A k = x) (hs : Step m m' k x x' freed) :
    layout.Owned m'.cells (Function.update A k x') ∧ m'.freed = m.freed ++ freed := by
  subst hk
  exact ⟨hA.change hs.change, hs.freed⟩

/-- A call does what it should. -/
theorem exec_spec {call : Call α} {r : Ptr} {freed : List α} (hA : layout.Owned m.cells A)
    (hcall : Does A call r A' freed) :
    ∃ m', exec m call = .ok (r, m') ∧ layout.Owned m'.cells A' ∧ m'.freed = m.freed ++ freed := by
  cases hcall with
  | noMemory hcall =>
    refine ⟨m, ?_, hA, (List.append_nil _).symm⟩
    rcases hcall with rfl | ⟨k, c, x, -, rfl⟩ | ⟨k, c, x, -, rfl⟩ | ⟨k, c, d, -, rfl⟩ <;> rfl
  | listCreate ha =>
    obtain ⟨hfree, hnone⟩ := ha.free hA
    obtain ⟨m', hrun, hs⟩ := listCreate_spec hfree
    exact ⟨m', congrArg _ hrun, hs.owned hA hnone⟩
  | listRelease hk =>
    obtain ⟨m', hrun, hs⟩ := listRelease_spec (holdsList hA hk)
    exact ⟨m', congrArg (· >>= _) hrun, hs.owned hA hk⟩
  | listAddNodeHead hk ha hlen =>
    obtain ⟨m', hrun, hs⟩ := listAddNodeHead_spec (holdsList hA hk) (ha.free hA).1 hlen _
    exact ⟨m', hrun, hs.owned hA hk⟩
  | listAddNodeTail hk ha hlen =>
    obtain ⟨m', hrun, hs⟩ := listAddNodeTail_spec (holdsList hA hk) (ha.free hA).1 hlen _
    exact ⟨m', hrun, hs.owned hA hk⟩
  | listDelNode hk hitems =>
    obtain ⟨m', hrun, hs⟩ := listDelNode_spec (holdsList hA hk) hitems
    exact ⟨m', congrArg (· >>= _) hrun, hs.owned hA hk⟩
  | listSetMethods hk =>
    obtain ⟨m', hrun, hs⟩ := listSetMethods_spec (holdsList hA hk) _ _ _
    exact ⟨m', congrArg (· >>= _) hrun, hs.owned hA hk⟩
  | listGetIterator hk ha =>
    obtain ⟨hfree, hnone⟩ := ha.free hA
    obtain ⟨m', hrun, hs⟩ := listGetIterator_spec (holdsList hA hk) hfree _
    exact ⟨m', hrun, hs.owned hA hnone⟩
  | listReleaseIterator ha =>
    obtain ⟨m', hrun, hs⟩ := listReleaseIterator_spec (holdsIter hA ha)
    exact ⟨m', congrArg (· >>= _) hrun, hs.owned hA ha⟩
  | listRewind hk ha =>
    obtain ⟨m', hrun, hs⟩ := listRewind_spec (holdsList hA hk) (holdsIter hA ha) _
    exact ⟨m', congrArg (· >>= _) hrun, hs.owned hA ha⟩
  | listNext ha hk hitems =>
    obtain ⟨m', hrun, hs⟩ := listNext_spec (holdsIter hA ha) (holdsList hA hk) hitems
    exact ⟨m', hrun, hs.owned hA ha⟩
  | listNextEnd ha =>
    exact ⟨m, listNext_end (holdsIter hA ha), hA, (List.append_nil _).symm⟩

/-- A run of calls does what it should. -/
theorem execAll_spec {calls : List (Call α)} {rs : List Ptr} {freed : List α}
    (hrun : Run A calls rs A' freed) (hA : layout.Owned m.cells A) :
    ∃ m', execAll m calls = .ok (rs, m') ∧ layout.Owned m'.cells A' ∧
      m'.freed = m.freed ++ freed := by
  induction hrun generalizing m with
  | nil => exact ⟨m, rfl, hA, (List.append_nil _).symm⟩
  | cons hcall _ ih =>
    obtain ⟨m₁, hexec, hA₁, hfreed₁⟩ := exec_spec hA hcall
    obtain ⟨m₂, hexecAll, hA₂, hfreed₂⟩ := ih hA₁
    refine ⟨m₂, ?_, hA₂, by rw [hfreed₂, hfreed₁, List.append_assoc]⟩
    rw [execAll, hexec, ok_bind]
    exact congrArg (· >>= _) hexecAll

/-- In a run from the empty memory no call faults, every call returns what it should, exactly the
values of removed nodes are freed, and the memory consists of the lists and iterators in use: when
the program has none left, it is empty. -/
theorem run_spec {calls : List (Call α)} {rs : List Ptr} {freed : List α}
    (hrun : Run (fun _ => none) calls rs A freed) :
    ∃ m, execAll .empty calls = .ok (rs, m) ∧ layout.Owned m.cells A ∧ m.freed = freed ∧
      ((∀ k, A k = none) → ∀ a, m.cells a = none) := by
  obtain ⟨m, hexec, hA, hfreed⟩ := execAll_spec (m := .empty) hrun Layout.owned_empty
  refine ⟨m, hexec, hA, hfreed, fun hnone a => ?_⟩
  by_contra hne
  obtain ⟨k, x, hk, -⟩ := hA.owner a hne
  rw [hnone k] at hk
  cases hk

/-! ## A run -/

/-- The objects of a program with one list of numbers, which are freed by its method. -/
def oneList (items : List (Addr × ℕ)) : Objs ℕ :=
  Function.update (fun _ => none) 1 (some (.list ⟨items, none, true, none⟩))

/-- Other addresses are not used. -/
theorem unused_oneList {items : List (Addr × ℕ)} {a : Addr} (ha : a ≠ 1)
    (hitems : a ∉ items.map Prod.fst) : (oneList items).Unused a := by
  refine Objs.Unused.update (fun _ _ h => by cases h) ?_
  rintro _ ⟨⟩ (h | h)
  · exact ha h
  · exact hitems h

/-- The calls that make a list of two numbers. -/
theorem run_oneList : Run (fun _ => none) [.listCreate (some 1),
    .listSetMethods 1 none true none, .listAddNodeTail 1 6 (some 3), .listAddNodeHead 1 5 (some 2)]
    [some 1, none, some 1, some 1] (oneList [(2, 5), (3, 6)]) [] := by
  have hset : Does (Function.update (fun _ => none) 1
      (some (.list (⟨[], none, false, none⟩ : Contents ℕ)))) (.listSetMethods 1 none true none) none
      _ [] := .listSetMethods rfl
  have htail := Does.listAddNodeTail (A := oneList []) (k := 1) (a := 3) (x := 6) rfl
    (unused_oneList (by decide) (by decide)) (by decide)
  have hhead := Does.listAddNodeHead (A := oneList [(3, 6)]) (k := 1) (a := 2) (x := 5) rfl
    (unused_oneList (by decide) (by decide)) (by decide)
  rw [Function.update_idem] at hset
  rw [oneList, Function.update_idem] at htail hhead
  have hcreate := Does.listCreate (α := ℕ) (A := fun _ => none) (a := 1) fun _ _ h => by cases h
  exact .cons hcreate (.cons hset (.cons htail (.cons hhead .nil)))

/-- A list of two numbers of which one is removed, and the rest is released. -/
theorem run_release : ∃ m : Mem ℕ, execAll .empty [.listCreate (some 1),
    .listSetMethods 1 none true none, .listAddNodeTail 1 6 (some 3), .listDelNode 1 3,
    .listAddNodeHead 1 5 (some 3), .listRelease 1] =
      .ok ([some 1, none, some 1, none, some 1, none], m) ∧
    m.freed = [6, 5] ∧ ∀ a, m.cells a = none := by
  have hcreate := Does.listCreate (α := ℕ) (A := fun _ => none) (a := 1) fun _ _ h => by cases h
  have hset : Does (Function.update (fun _ => none) 1
      (some (.list (⟨[], none, false, none⟩ : Contents ℕ)))) (.listSetMethods 1 none true none) none
      _ [] := .listSetMethods rfl
  have htail := Does.listAddNodeTail (A := oneList []) (k := 1) (a := 3) (x := 6) rfl
    (unused_oneList (by decide) (by decide)) (by decide)
  have hdel : Does (oneList [(3, 6)]) (.listDelNode 1 3) none _ [6] :=
    .listDelNode (c := ⟨[(3, 6)], none, true, none⟩) (l := []) rfl rfl
  have hhead := Does.listAddNodeHead (A := oneList []) (k := 1) (a := 3) (x := 5) rfl
    (unused_oneList (by decide) (by decide)) (by decide)
  have hrelease := Does.listRelease (A := oneList [(3, 5)]) (k := 1) rfl
  rw [Function.update_idem] at hset
  rw [oneList, Function.update_idem] at htail hdel hhead hrelease
  obtain ⟨m, hexec, -, hfreed, hempty⟩ := run_spec
    (.cons hcreate (.cons hset (.cons htail (.cons hdel (.cons hhead (.cons hrelease .nil))))))
  exact ⟨m, hexec, hfreed, hempty fun k => by simp [Function.update_apply]⟩

end MgCommonUtils.Adlist
