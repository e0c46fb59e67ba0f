import MgCommonUtils.Adlist.Iterate

/-!
# Copies of the lists of `adlist.c`

`listDup` copies a list node by node. The copy is a list of its own, and the original is as it was.
Where the copy cannot be made, the nodes that there are of it are freed with their values, but a
value that has been copied and for which there is no node is not (`listDup_spec`).
-/

namespace MgCommonUtils.Adlist

open MgCommonUtils.Lib

variable {α : Type}

/-- The nodes that `listDup` makes for some values, and whether it makes all of them. -/
def copied (dup : Option (α → Option α)) (malloc : ℕ → Ptr) : ℕ → List α → List (Addr × α) × Bool
  | _, [] => ([], true)
  | i, x :: xs =>
    match dupValue dup x, malloc i with
    | some y, some a =>
      ((a, y) :: (copied dup malloc (i + 1) xs).1, (copied dup malloc (i + 1) xs).2)
    | _, _ => ([], false)

/-- The values that `listDup` gets for these nodes, also where there is no memory for the node. -/
def obtained (dup : Option (α → Option α)) (malloc : ℕ → Ptr) : ℕ → List α → List α
  | _, [] => []
  | i, x :: xs =>
    match dupValue dup x, malloc i with
    | some y, some _ => y :: obtained dup malloc (i + 1) xs
    | some y, none => [y]
    | none, _ => []

/-- The value for which there is no memory. -/
def leaked (dup : Option (α → Option α)) (malloc : ℕ → Ptr) : ℕ → List α → Option α
  | _, [] => none
  | i, x :: xs =>
    match dupValue dup x, malloc i with
    | some _, some _ => leaked dup malloc (i + 1) xs
    | some y, none => some y
    | none, _ => none

/-- Every value that `listDup` gets is in a node, or is the one that leaks. -/
theorem obtained_eq (dup : Option (α → Option α)) (malloc : ℕ → Ptr) (i : ℕ) (xs : List α) :
    obtained dup malloc i xs =
      (copied dup malloc i xs).1.map Prod.snd ++ (leaked dup malloc i xs).toList := by
  induction xs generalizing i with
  | nil => rfl
  | cons x xs ih =>
    rw [obtained, copied, leaked]
    cases dupValue dup x with
    | none => rfl
    | some y =>
      cases malloc i with
      | none => rfl
      | some a =>
        dsimp only
        rw [ih, List.map_cons, List.cons_append]

/-- The list and the iterator of a copy that fails are freed. -/
theorem dropCopy_spec {m : Mem α} {A : Objs α} {copy it : Addr} {c : Contents α} {i : ListIter}
    (hA : layout.Owned m.cells A) (hcopy : A copy = some (.list c))
    (hit : A it = some (.iter i)) :
    ∃ m', dropCopy m (some copy) (some it) = .ok (none, m') ∧
      layout.Owned m'.cells (Function.update (Function.update A copy none) it none) ∧
      m'.freed = m.freed ++ c.frees (c.items.map Prod.snd) := by
  have hne : it ≠ copy := by
    rintro rfl
    rw [hit] at hcopy
    cases hcopy
  obtain ⟨m₁, hrun₁, hs⟩ := listRelease_spec (holdsList hA hcopy)
  obtain ⟨hA₁, hfreed₁⟩ := hs.owned hA hcopy
  have hit₁ := (Function.update_of_ne hne none A).trans hit
  obtain ⟨m₂, hrun₂, hs⟩ := listReleaseIterator_spec (holdsIter hA₁ hit₁)
  obtain ⟨hA₂, hfreed₂⟩ := hs.owned hA₁ hit₁
  refine ⟨m₂, ?_, hA₂, by rw [hfreed₂, hfreed₁, List.append_nil]⟩
  rw [dropCopy, hrun₁, ok_bind, hrun₂]
  rfl

/-- How the loop of `listDup` ends: with the nodes that are still copied in the copy, or without the
copy. -/
structure DupEnds (A : Objs α) (copy it : Addr) (c : Contents α) (got : List (Addr × α))
    (more : List (Addr × α) × Bool) (m : Mem α) (r : Ptr) (m' : Mem α) (A' : Objs α) : Prop where
  /-- The memory is that of the objects. -/
  owned : layout.Owned m'.cells A'
  /-- The iterator is freed. -/
  iter : A' it = none
  /-- Other objects stay. -/
  frame : ∀ o, o ≠ copy → o ≠ it → A' o = A o
  /-- The copy, if it is made. -/
  made : more.2 = true → r = some copy ∧ m'.freed = m.freed ∧
    A' copy = some (.list { c with items := got ++ more.1 })
  /-- What is done to it otherwise. -/
  dropped : more.2 = false → r = none ∧ A' copy = none ∧
    m'.freed = m.freed ++ c.frees ((got ++ more.1).map Prod.snd)

/-- The loop of `listDup` ends where it cannot copy a node. -/
theorem DupEnds.short {m : Mem α} {A : Objs α} {copy it : Addr} {c : Contents α} {i : ListIter}
    {got : List (Addr × α)} (hA : layout.Owned m.cells A)
    (hcopy : A copy = some (.list { c with items := got })) (hit : A it = some (.iter i)) :
    ∃ m' A', dropCopy m (some copy) (some it) = .ok (none, m') ∧
      DupEnds A copy it c got ([], false) m none m' A' := by
  obtain ⟨m', hrun, hA', hfreed⟩ := dropCopy_spec hA hcopy hit
  have hne : copy ≠ it := by
    rintro rfl
    rw [hit] at hcopy
    cases hcopy
  refine ⟨m', _, hrun, hA', Function.update_self .., fun o hoc hoit => ?_, fun h => ?_, fun _ => ?_⟩
  · rw [Function.update_of_ne hoit, Function.update_of_ne hoc]
  · cases h
  · rw [Function.update_of_ne hne, Function.update_self, List.append_nil]
    exact ⟨rfl, rfl, hfreed⟩

/-- The rest of the loop of `listDup`. -/
theorem dupNodes_spec {m : Mem α} {A : Objs α} {k copy it : Addr} {c : Contents α}
    {malloc : ℕ → Ptr} (hinj : ∀ i j a, malloc i = some a → malloc j = some a → i = j)
    (met : List (Addr × α)) {rest got : List (Addr × α)} {n : ℕ} (hA : layout.Owned m.cells A)
    (hk : A k = some (.list { c with items := met ++ rest }))
    (hcopy : A copy = some (.list { c with items := got })) (hkc : k ≠ copy)
    (hit : A it = some (.iter ⟨headOr rest none, .head⟩))
    (hfresh : ∀ j, n ≤ j → ∀ a, malloc j = some a → A.Unused a)
    (hlen : got.length + rest.length < 2 ^ 32) {turns : ℕ} (hturns : rest.length < turns) :
    ∃ r m' A', dupNodes (some copy) (some it) malloc n turns m = .ok (r, m') ∧
      DupEnds A copy it c got (copied c.dup malloc n (rest.map Prod.snd)) m r m' A' := by
  have hkit : k ≠ it := by
    rintro rfl
    rw [hk] at hit
    cases hit
  have hcit : copy ≠ it := by
    rintro rfl
    rw [hcopy] at hit
    cases hit
  induction rest generalizing m A met got n turns with
  | nil =>
    obtain ⟨turns, rfl⟩ := Nat.exists_eq_succ_of_ne_zero (Nat.ne_zero_of_lt hturns)
    obtain ⟨m₁, hrun, hs⟩ := listReleaseIterator_spec (holdsIter hA hit)
    obtain ⟨hA₁, hfreed⟩ := hs.owned hA hit
    refine ⟨some copy, m₁, _, ?_, hA₁, Function.update_self .., fun o _ hoit => ?_, fun _ => ?_,
      fun h => ?_⟩
    · simp only [dupNodes, listNext_end (holdsIter hA hit), ok_bind, hrun]
      rfl
    · exact Function.update_of_ne hoit ..
    · rw [List.map_nil, copied, List.append_nil, Function.update_of_ne hcit]
      exact ⟨rfl, hfreed.trans (List.append_nil _), hcopy⟩
    · cases h
  | cons e rest ih =>
    obtain ⟨b, x⟩ := e
    obtain ⟨turns, rfl⟩ := Nat.exists_eq_succ_of_ne_zero (Nat.ne_zero_of_lt hturns)
    obtain ⟨m₁, A₁, hnext, hA₁, hit₁, hother₁, hunused₁, hfreed₁⟩ := listNext_owned hA hit hk rfl
    have hk₁ := (hother₁ k hkit).trans hk
    have hcopy₁ := (hother₁ copy hcit).trans hcopy
    have hnode := Mem.node_some (nodeAt_eq_some.mp (holdsList hA₁ hk₁).nodes.cell)
    have hlist := Mem.list_some (holdsList hA₁ hcopy₁).header
    obtain ⟨m₂, A₂, hdrop, hends⟩ := DupEnds.short hA₁ hcopy₁ hit₁
    have hends : DupEnds A copy it c got ([], false) m none m₂ A₂ :=
      ⟨hends.owned, hends.iter, fun o hoc hoit => (hends.frame o hoc hoit).trans (hother₁ o hoit),
        fun h => (by cases h), fun h => hfreed₁ ▸ hends.dropped h⟩
    rw [List.map_cons]
    cases hvalue : dupValue c.dup x with
    | none =>
      refine ⟨none, m₂, A₂, ?_, by rw [copied, hvalue]; exact hends⟩
      simp only [dupNodes, hnext, ok_bind, hnode, hlist, Contents.header, hvalue]
      exact hdrop
    | some y =>
      cases hmalloc : malloc n with
      | none =>
        refine ⟨none, m₂, A₂, ?_, by rw [copied, hvalue, hmalloc]; exact hends⟩
        simp only [dupNodes, hnext, ok_bind, hnode, hlist, Contents.header, hvalue]
        rw [hmalloc, show listAddNodeTail m₁ (some copy) y none = .ok (none, m₁) from rfl]
        exact hdrop
      | some a =>
        rw [List.length_cons] at hlen hturns
        have hunused := hunused₁ a (hfresh n le_rfl a hmalloc)
        obtain ⟨m₃, hadd, hs⟩ := listAddNodeTail_spec (holdsList hA₁ hcopy₁) (hunused.free hA₁).1
          (show got.length + 1 < 2 ^ 32 by omega) y
        obtain ⟨hA₃, hfreed₃⟩ := hs.owned hA₁ hcopy₁
        have hlen' : (got ++ [(a, y)]).length + rest.length < 2 ^ 32 := by
          rw [List.length_append, List.length_singleton]
          omega
        have hk₃ := (Function.update_of_ne hkc (some (Obj.list { c with
          items := got ++ [(a, y)] })) A₁).trans hk₁
        rw [show met ++ (b, x) :: rest = met ++ [(b, x)] ++ rest by simp] at hk₃
        -- The next results of `malloc` are other addresses.
        have hfresh' : ∀ j, n + 1 ≤ j → ∀ a', malloc j = some a' → Objs.Unused
            (Function.update A₁ copy (some (.list { c with items := got ++ [(a, y)] }))) a' := by
          intro j hj a' ha'
          have hunused' := hunused₁ a' (hfresh j (by omega) a' ha')
          refine hunused'.update fun z hz => ?_
          obtain rfl := Option.some.inj hz
          have hnot := hunused' copy _ hcopy₁
          rintro (rfl | hmem)
          · exact hnot (.inl rfl)
          · rw [List.map_append, List.mem_append] at hmem
            rcases hmem with hmem | hmem
            · exact hnot (.inr hmem)
            · obtain rfl : a' = a := List.mem_singleton.mp hmem
              have heq := hinj j n a' ha' hmalloc
              omega
        obtain ⟨r, m', A', hrun, hends⟩ := ih (n := n + 1) _ hA₃ hk₃
          (Function.update_self ..) ((Function.update_of_ne hcit.symm ..).trans hit₁) hfresh' hlen'
          (show rest.length < turns by omega)
        have hcopied : copied c.dup malloc n (x :: rest.map Prod.snd) =
            ((a, y) :: (copied c.dup malloc (n + 1) (rest.map Prod.snd)).1,
              (copied c.dup malloc (n + 1) (rest.map Prod.snd)).2) := by
          rw [copied, hvalue, hmalloc]
        refine ⟨r, m', A', ?_, hends.owned, hends.iter, fun o hoc hoit => ?_, fun h => ?_,
          fun h => ?_⟩
        · simp only [dupNodes, hnext, ok_bind, hnode, hlist, Contents.header, hvalue]
          rw [hmalloc, hadd]
          exact hrun
        · rw [hends.frame o hoc hoit, Function.update_of_ne hoc, hother₁ o hoit]
        · rw [hcopied] at h ⊢
          obtain ⟨hr, hfreed, hmade⟩ := hends.made h
          refine ⟨hr, by rw [hfreed, hfreed₃, hfreed₁, List.append_nil], ?_⟩
          rw [hmade, List.append_assoc]
          rfl
        · rw [hcopied] at h ⊢
          obtain ⟨hr, hnone, hfreed⟩ := hends.dropped h
          refine ⟨hr, hnone, ?_⟩
          rw [hfreed, hfreed₃, hfreed₁, List.append_nil, List.append_assoc]
          rfl

/-- The copy that `listDup` begins with. -/
theorem emptyCopy_spec {m : Mem α} {A : Objs α} {k copy : Addr} {c : Contents α}
    (hA : layout.Owned m.cells A) (hk : A k = some (.list c)) (hcopy : A.Unused copy) :
    ∃ m₁ m₂, listCreate m (some copy) = (some copy, m₁) ∧ m₁.list (some k) = .ok c.header ∧
      listSetMethods m₁ (some copy) c.dup c.free c.match' = .ok m₂ ∧
      layout.Owned m₂.cells (Function.update A copy (some (.list { c with items := [] }))) ∧
      m₂.freed = m.freed := by
  obtain ⟨hfree, hnone⟩ := hcopy.free hA
  have hkc : k ≠ copy := by
    rintro rfl
    rw [hk] at hnone
    cases hnone
  obtain ⟨m₁, hcreate, hs⟩ := listCreate_spec hfree
  obtain ⟨hA₁, hfreed₁⟩ := hs.owned hA hnone
  have hcopy₁ :=
    Function.update_self copy (some (Obj.list (⟨[], none, false, none⟩ : Contents α))) A
  obtain ⟨m₂, hset, hs⟩ := listSetMethods_spec (holdsList hA₁ hcopy₁) c.dup c.free c.match'
  obtain ⟨hA₂, hfreed₂⟩ := hs.owned hA₁ hcopy₁
  rw [Function.update_idem] at hA₂
  refine ⟨m₁, m₂, hcreate, ?_, hset, hA₂, ?_⟩
  · exact Mem.list_some (holdsList hA₁ ((Function.update_of_ne hkc ..).trans hk)).header
  · rw [hfreed₂, hfreed₁, List.append_nil, List.append_nil]

/-- `listDup` makes a list with copies of the values, which shares nothing with the original: the
memory is that of the objects with the copy added. Where memory is short, or the method does not
copy a value, it returns `NULL` and the objects are as they were. The copies in the nodes made so
far are freed, and the one for which there was no memory leaks. It faults exactly where there is
memory for the copy, but not for its iterator. -/
theorem listDup_spec {m : Mem α} {A : Objs α} {k : Addr} {c : Contents α} {malloc : ℕ → Ptr}
    (hA : layout.Owned m.cells A) (hk : A k = some (.list c))
    (hinj : ∀ i j a, malloc i = some a → malloc j = some a → i = j)
    (hfresh : ∀ j a, malloc j = some a → A.Unused a) {turns : ℕ} (hturns : c.items.length < turns) :
    (malloc 0 = none → listDup turns m (some k) malloc = .ok (none, m)) ∧
    (malloc 0 ≠ none → malloc 1 = none → listDup turns m (some k) malloc = .error .badPointer) ∧
    ∀ copy, malloc 0 = some copy → malloc 1 ≠ none →
      let made := copied c.dup malloc 2 (c.items.map Prod.snd)
      ∃ r m' A', listDup turns m (some k) malloc = .ok (r, m') ∧ layout.Owned m'.cells A' ∧
        (made.2 = true → r = some copy ∧ m'.freed = m.freed ∧
          A' = Function.update A copy (some (.list { c with items := made.1 }))) ∧
        (made.2 = false → r = none ∧ A' = A ∧
          m'.freed = m.freed ++ c.frees (made.1.map Prod.snd) ∧
          obtained c.dup malloc 2 (c.items.map Prod.snd) = made.1.map Prod.snd ++
            (leaked c.dup malloc 2 (c.items.map Prod.snd)).toList) := by
  refine ⟨fun h0 => ?_, fun h0 h1 => ?_, fun copy h0 h1 => ?_⟩
  · simp only [listDup, listCreate, h0]
    rfl
  · obtain ⟨copy, h0⟩ := Option.ne_none_iff_exists'.mp h0
    obtain ⟨m₁, m₂, hcreate, hlist, hset, -⟩ := emptyCopy_spec hA hk (hfresh 0 copy h0)
    obtain ⟨turns, rfl⟩ := Nat.exists_eq_succ_of_ne_zero (Nat.ne_zero_of_lt hturns)
    have hset : listSetMethods m₁ (some copy) c.header.dup c.header.free c.header.match' = .ok m₂ :=
      hset
    simp only [listDup, h0, hcreate, hlist, ok_bind, hset, h1]
    rfl
  · obtain ⟨m₁, m₂, hcreate, hlist, hset, hA₂, hfreed₂⟩ := emptyCopy_spec hA hk (hfresh 0 copy h0)
    have hset : listSetMethods m₁ (some copy) c.header.dup c.header.free c.header.match' = .ok m₂ :=
      hset
    obtain ⟨it, h1⟩ := Option.ne_none_iff_exists'.mp h1
    have hcopyNone := ((hfresh 0 copy h0).free hA).2
    have hitNone := ((hfresh 1 it h1).free hA).2
    have hkc : k ≠ copy := by
      rintro rfl
      rw [hk] at hcopyNone
      cases hcopyNone
    -- What `malloc` returns later is not at the copy, nor at the iterator.
    have hunused₂ : ∀ j, 1 ≤ j → ∀ a, malloc j = some a → Objs.Unused (Function.update A copy
        (some (.list { c with items := [] }))) a := by
      intro j hj a ha
      refine (hfresh j a ha).update fun y hy => ?_
      obtain rfl := Option.some.inj hy
      rintro (rfl | hmem)
      · have := hinj j 0 a ha h0
        omega
      · cases hmem
    have hk₂ := (Function.update_of_ne hkc (some (Obj.list { c with items := [] })) A).trans hk
    obtain ⟨hfree, hnone⟩ := (hunused₂ 1 le_rfl it h1).free hA₂
    obtain ⟨m₃, hiter, hs⟩ := listGetIterator_spec (holdsList hA₂ hk₂) hfree .head
    obtain ⟨hA₃, hfreed₃⟩ := hs.owned hA₂ hnone
    have hcit : copy ≠ it := by
      rintro rfl
      rw [Function.update_self] at hnone
      cases hnone
    have hkit : k ≠ it := by
      rintro rfl
      rw [hk₂] at hnone
      cases hnone
    have hunused₃ : ∀ j, 2 ≤ j → ∀ a, malloc j = some a → Objs.Unused (Function.update
        (Function.update A copy (some (.list { c with items := [] }))) it
        (some (.iter ⟨c.start .head, .head⟩))) a := by
      intro j hj a ha
      refine (hunused₂ j (by omega) a ha).update fun y hy => ?_
      obtain rfl := Option.some.inj hy
      rintro rfl
      have := hinj j 1 a ha h1
      omega
    obtain ⟨r, m', A', hrun, hends⟩ := dupNodes_spec (c := c) hinj [] hA₃
      ((Function.update_of_ne hkit ..).trans hk₂)
      ((Function.update_of_ne hcit ..).trans (Function.update_self ..)) hkc
      (Function.update_self ..) hunused₃
      (by rw [List.length_nil, Nat.zero_add]; exact (holdsList hA hk).length) hturns
    have hsame : ∀ o, o ≠ copy → A' o = A o := by
      intro o ho
      by_cases hoit : o = it
      · rw [hoit, hends.iter, hitNone]
      · rw [hends.frame o ho hoit, Function.update_of_ne hoit, Function.update_of_ne ho]
    refine ⟨r, m', A', ?_, hends.owned, fun h => ?_, fun h => ?_⟩
    · simp only [listDup, h0, hcreate, hlist, ok_bind, hset, h1, hiter]
      exact hrun
    · obtain ⟨hr, hfreed, hmade⟩ := hends.made h
      refine ⟨hr, by rw [hfreed, hfreed₃, List.append_nil, hfreed₂], funext fun o => ?_⟩
      by_cases ho : o = copy
      · rw [ho, hmade, Function.update_self, List.nil_append]
      · rw [hsame o ho, Function.update_of_ne ho]
    · obtain ⟨hr, hnone, hfreed⟩ := hends.dropped h
      refine ⟨hr, funext fun o => ?_, by rw [hfreed, hfreed₃, List.append_nil, hfreed₂]; rfl,
        obtained_eq ..⟩
      by_cases ho : o = copy
      · rw [ho, hnone, hcopyNone]
      · exact hsame o ho

/-- A copy of two values. -/
theorem listDup_two : ∃ (m : Mem ℕ) (A : Objs ℕ), layout.Owned m.cells A ∧
    ∃ m', listDup 3 m (some 1) (fun i => some (10 + i)) = .ok (some 10, m') ∧
      layout.Owned m'.cells (Function.update A 10
        (some (.list ⟨[(12, 5), (13, 6)], none, true, none⟩))) := by
  obtain ⟨m, -, hA, -⟩ := execAll_spec (m := .empty) run_oneList Layout.owned_empty
  have hinj : ∀ i j a, some (10 + i) = some a → some (10 + j) = some a → i = j := by
    rintro i j a hi hj
    obtain rfl := Option.some.inj hi
    exact (Nat.add_left_cancel (Option.some.inj hj)).symm
  have hfresh : ∀ (j : ℕ) a, some (10 + j) = some a → (oneList [(2, 5), (3, 6)]).Unused a := by
    rintro j a ⟨⟩
    have hne : ∀ n : ℕ, n < 10 → 10 + j ≠ n := fun n hn => by omega
    exact unused_oneList (hne 1 (by decide)) (by simp [hne])
  obtain ⟨-, -, hdup⟩ := listDup_spec (k := 1) (c := ⟨[(2, 5), (3, 6)], none, true, none⟩)
    hA rfl hinj hfresh (show 2 < 3 by decide)
  obtain ⟨r, m', A', hrun, hA', hmade, -⟩ := hdup 10 rfl (Option.some_ne_none _)
  obtain ⟨rfl, -, rfl⟩ := hmade rfl
  exact ⟨m, _, hA, m', hrun, hA'⟩

end MgCommonUtils.Adlist
