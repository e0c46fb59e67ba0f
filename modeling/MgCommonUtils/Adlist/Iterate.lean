import MgCommonUtils.Adlist.Run

/-!
# Loops over the lists of `adlist.c`

An iterator meets every node of its list once, in its direction, also if the loop removes any of the
nodes that it was given (`sweep_spec`). `listSearchKey` finds the first value that a key is for, and
`listIndex` counts from either end (`lookup_spec`).
-/

namespace MgCommonUtils.Adlist

open MgCommonUtils.Lib

variable {α : Type}

/-- A list in the order in which an iterator meets it. -/
def orient {β : Type} (d : Direction) (l : List β) : List β :=
  match d with
  | .head => l
  | .tail => l.reverse

@[simp]
theorem orient_orient {β : Type} (d : Direction) (l : List β) : orient d (orient d l) = l := by
  cases d
  · rfl
  · exact List.reverse_reverse l

/-- An iterator begins at the first node that it meets. -/
theorem start_eq (c : Contents α) (d : Direction) :
    c.start d = headOr (orient d c.items) none := by
  cases d
  · rfl
  · exact (headOr_reverse ..).symm

/-- The list around a node that an iterator meets. -/
theorem exists_around (d : Direction) (met rest : List (Addr × α)) (b : Addr) (x : α) :
    ∃ l l', orient d (met ++ (b, x) :: rest) = l ++ (b, x) :: l' ∧
      aheadIn l l' d = headOr rest none ∧ l ++ l' = orient d (met ++ rest) := by
  cases d with
  | head => exact ⟨met, rest, rfl, rfl, rfl⟩
  | tail =>
    refine ⟨rest.reverse, met.reverse, ?_, lastOr_reverse .., ?_⟩
    · simp [orient]
    · simp [orient]

/-! ## Steps of a loop -/

/-- `listNext` changes the iterator only. -/
theorem listNext_owned {m : Mem α} {A : Objs α} {k it b : Addr} {c : Contents α} {x : α}
    {l l' : List (Addr × α)} {d : Direction} (hA : layout.Owned m.cells A)
    (hit : A it = some (.iter ⟨some b, d⟩)) (hk : A k = some (.list c))
    (hitems : c.items = l ++ (b, x) :: l') :
    ∃ (m' : Mem α) (A' : Objs α), listNext m (some it) = .ok (some b, m') ∧
      layout.Owned m'.cells A' ∧ A' it = some (.iter ⟨aheadIn l l' d, d⟩) ∧
      (∀ o, o ≠ it → A' o = A o) ∧ (∀ a, A.Unused a → A'.Unused a) ∧ m'.freed = m.freed := by
  obtain ⟨m', hrun, hs⟩ := listNext_spec (holdsIter hA hit) (holdsList hA hk) hitems
  obtain ⟨hA', hfreed⟩ := hs.owned hA hit
  refine ⟨m', _, hrun, hA', Function.update_self .., fun o ho => Function.update_of_ne ho ..,
    fun a ha => ha.update fun y hy => ?_, by rw [hfreed, List.append_nil]⟩
  obtain rfl := Option.some.inj hy
  have hne := ha it _ hit
  exact hne

/-! ## Removal in a loop -/

/-- The loop in the comment of `listNext`, where the body removes some of the nodes it is given.
Which ones can depend on the node as well as on its value. -/
def sweep (list iter : Ptr) (drop : Addr × α → Bool) : ℕ → Mem α → Except Fault (List α × Mem α)
  | 0, _ => .error .forever
  | turns + 1, m => do
    let (node, m) ← listNext m iter
    match node with
    | none => return ([], m)
    | some a =>
      let n ← m.node node
      let m ← if drop (a, n.value) then listDelNode m list node else pure m
      let (xs, m) ← sweep list iter drop turns m
      return (n.value :: xs, m)

/-- The rest of the loop. -/
theorem sweep_rest {m : Mem α} {A : Objs α} {k it : Addr} {c : Contents α} {d : Direction}
    (drop : Addr × α → Bool) (met : List (Addr × α)) {rest : List (Addr × α)}
    (hA : layout.Owned m.cells A)
    (hk : A k = some (.list { c with items := orient d (met ++ rest) }))
    (hit : A it = some (.iter ⟨headOr rest none, d⟩)) {turns : ℕ} (hturns : rest.length < turns) :
    ∃ m' A', sweep (some k) (some it) drop turns m = .ok (rest.map Prod.snd, m') ∧
      layout.Owned m'.cells A' ∧
      A' k = some (.list { c with items := orient d (met ++ rest.filter (!drop ·)) }) ∧
      A' it = some (.iter ⟨none, d⟩) ∧ (∀ o, o ≠ k → o ≠ it → A' o = A o) ∧
      m'.freed = m.freed ++ c.frees ((rest.filter drop).map Prod.snd) := by
  have hne : k ≠ it := by
    rintro rfl
    rw [hk] at hit
    cases hit
  induction rest generalizing m A met turns with
  | nil =>
    obtain ⟨turns, rfl⟩ := Nat.exists_eq_succ_of_ne_zero (Nat.ne_zero_of_lt hturns)
    refine ⟨m, A, ?_, hA, hk, hit, fun _ _ _ => rfl, ?_⟩
    · rw [sweep, listNext_end (holdsIter hA hit)]
      rfl
    · cases hfree : c.free <;> simp [Contents.frees, hfree]
  | cons e rest ih =>
    obtain ⟨b, x⟩ := e
    obtain ⟨turns, rfl⟩ := Nat.exists_eq_succ_of_ne_zero (Nat.ne_zero_of_lt hturns)
    obtain ⟨l, l', hitems, hahead, hremove⟩ := exists_around d met rest b x
    obtain ⟨m₁, A₁, hnext, hA₁, hit₁, hother₁, -, hfreed₁⟩ := listNext_owned hA hit hk hitems
    rw [hahead] at hit₁
    have hk₁ := (hother₁ k hne).trans hk
    have hcells := (holdsList hA₁ hk₁).nodes
    simp only [hitems] at hcells
    have hnode := Mem.node_some (nodeAt_eq_some.mp hcells.cell)
    cases hdrop : drop (b, x) with
    | true =>
      obtain ⟨m₂, hdel, hs⟩ := listDelNode_spec (holdsList hA₁ hk₁) hitems
      obtain ⟨hA₂, hfreed₂⟩ := hs.owned hA₁ hk₁
      rw [hremove] at hA₂
      obtain ⟨m', A', hrun, hA', hk', hit', hother, hfreed⟩ := ih _ hA₂ (Function.update_self ..)
        ((Function.update_of_ne hne.symm ..).trans hit₁) (Nat.lt_of_succ_lt_succ hturns)
      refine ⟨m', A', ?_, hA', ?_, hit', fun o hok hoit => ?_, ?_⟩
      · simp only [sweep, hnext, ok_bind, hnode, hdrop, if_true, hdel, hrun]
        rfl
      · simpa [hdrop] using hk'
      · rw [hother o hok hoit, Function.update_of_ne hok, hother₁ o hoit]
      · rw [hfreed, hfreed₂, hfreed₁]
        cases hfree : c.free <;> simp [Contents.frees, hfree, hdrop]
    | false =>
      rw [show met ++ (b, x) :: rest = met ++ [(b, x)] ++ rest by simp] at hk₁
      obtain ⟨m', A', hrun, hA', hk', hit', hother, hfreed⟩ := ih _ hA₁ hk₁ hit₁
        (Nat.lt_of_succ_lt_succ hturns)
      refine ⟨m', A', ?_, hA', ?_, hit', fun o hok hoit => ?_, ?_⟩
      · simp only [sweep, hnext, ok_bind, hnode, hdrop, Bool.false_eq_true, if_false, pure_bind,
          hrun]
        rfl
      · simpa [hdrop] using hk'
      · rw [hother o hok hoit, hother₁ o hoit]
      · rw [hfreed, hfreed₁]
        cases hfree : c.free <;> simp [Contents.frees, hfree, hdrop]

/-- A loop over a list, in either direction, is given every value once, in order. The list keeps
what the body does not remove, what it removes is freed, and nothing else changes. -/
theorem sweep_spec {m : Mem α} {A : Objs α} {k it : Addr} {c : Contents α} {d : Direction}
    (drop : Addr × α → Bool) (hA : layout.Owned m.cells A) (hk : A k = some (.list c))
    (hit : A it = some (.iter ⟨c.start d, d⟩)) {turns : ℕ} (hturns : c.items.length < turns) :
    ∃ m' A', sweep (some k) (some it) drop turns m = .ok (orient d (c.items.map Prod.snd), m') ∧
      layout.Owned m'.cells A' ∧
      A' k = some (.list { c with items := c.items.filter (!drop ·) }) ∧
      A' it = some (.iter ⟨none, d⟩) ∧ (∀ o, o ≠ k → o ≠ it → A' o = A o) ∧
      m'.freed = m.freed ++ c.frees (((orient d c.items).filter drop).map Prod.snd) := by
  have hmap : (orient d c.items).map Prod.snd = orient d (c.items.map Prod.snd) := by
    cases d
    · rfl
    · exact List.map_reverse
  have hfilter : orient d ((orient d c.items).filter (!drop ·)) = c.items.filter (!drop ·) := by
    cases d
    · rfl
    · rw [orient, orient, ← List.filter_reverse, List.reverse_reverse]
  have hlen : (orient d c.items).length = c.items.length := by
    cases d
    · rfl
    · exact List.length_reverse
  rw [start_eq] at hit
  obtain ⟨m', A', hrun, hA', hk', hrest⟩ := sweep_rest (c := c) drop [] hA
    (by rw [List.nil_append, orient_orient]; exact hk) hit (hlen.symm ▸ hturns)
  rw [List.nil_append, hfilter] at hk'
  rw [hmap] at hrun
  exact ⟨m', A', hrun, hA', hk', hrest⟩

/-- A loop from the tail over two nodes that removes the second one. -/
theorem sweep_two : ∃ (m : Mem ℕ) (A : Objs ℕ), layout.Owned m.cells A ∧
    ∃ m' A', sweep (some 1) (some 4) (·.1 = 3) 3 m = .ok ([6, 5], m') ∧ layout.Owned m'.cells A' ∧
      A' 1 = some (.list ⟨[(2, 5)], none, true, none⟩) := by
  have hiter := Does.listGetIterator (A := oneList [(2, 5), (3, 6)]) (k := 1) (a := 4) (d := .tail)
    rfl (unused_oneList (by decide) (by decide))
  obtain ⟨m, -, hA, -⟩ := execAll_spec (m := .empty) run_oneList Layout.owned_empty
  obtain ⟨m₁, -, hA₁, -⟩ := exec_spec hA hiter
  obtain ⟨m', A', hrun, hA', hk, -⟩ := @sweep_spec ℕ m₁ _ 1 4
    ⟨[(2, 5), (3, 6)], none, true, none⟩ .tail (·.1 = 3) hA₁ rfl rfl 3
    (by decide)
  exact ⟨m₁, _, hA₁, m', A', hrun, hA', hk⟩

/-! ## Searches -/

/-- Which values a key is for does not depend on the nodes. -/
theorem matches'_items [DecidableEq α] (c : Contents α) (items : List (Addr × α)) (x key : α) :
    AdList.matches' (Contents.header { c with items }) x key = c.header.matches' x key := rfl

/-- The rest of the loop of `listSearchKey`. -/
theorem searchNodes_spec [DecidableEq α] {m : Mem α} {A : Objs α} {k it : Addr} {c : Contents α}
    (key : α) (met : List (Addr × α)) {rest : List (Addr × α)} (hA : layout.Owned m.cells A)
    (hk : A k = some (.list { c with items := met ++ rest }))
    (hit : A it = some (.iter ⟨headOr rest none, .head⟩)) {turns : ℕ}
    (hturns : rest.length < turns) :
    ∃ m', searchNodes (some k) (some it) key turns m =
        .ok ((rest.find? (c.header.matches' ·.2 key)).map Prod.fst, m') ∧
      layout.Owned m'.cells (Function.update A it none) ∧ m'.freed = m.freed := by
  have hne : k ≠ it := by
    rintro rfl
    rw [hk] at hit
    cases hit
  induction rest generalizing m A met turns with
  | nil =>
    obtain ⟨turns, rfl⟩ := Nat.exists_eq_succ_of_ne_zero (Nat.ne_zero_of_lt hturns)
    obtain ⟨m₁, hrun, hs⟩ := listReleaseIterator_spec (holdsIter hA hit)
    obtain ⟨hA₁, hfreed⟩ := hs.owned hA hit
    refine ⟨m₁, ?_, hA₁, hfreed.trans (List.append_nil _)⟩
    simp only [searchNodes, listNext_end (holdsIter hA hit), ok_bind, hrun]
    rfl
  | cons e rest ih =>
    obtain ⟨b, x⟩ := e
    obtain ⟨turns, rfl⟩ := Nat.exists_eq_succ_of_ne_zero (Nat.ne_zero_of_lt hturns)
    obtain ⟨m₁, A₁, hnext, hA₁, hit₁, hother₁, -, hfreed₁⟩ := listNext_owned hA hit hk rfl
    have hk₁ := (hother₁ k hne).trans hk
    have hnode := Mem.node_some (nodeAt_eq_some.mp (holdsList hA₁ hk₁).nodes.cell)
    have hlist := Mem.list_some (holdsList hA₁ hk₁).header
    have hsame : Function.update A₁ it none = Function.update A it none := by
      funext o
      by_cases ho : o = it
      · rw [ho, Function.update_self, Function.update_self]
      · rw [Function.update_of_ne ho, Function.update_of_ne ho, hother₁ o ho]
    cases hmatch : c.header.matches' x key with
    | true =>
      obtain ⟨m₂, hrun, hs⟩ := listReleaseIterator_spec (holdsIter hA₁ hit₁)
      obtain ⟨hA₂, hfreed₂⟩ := hs.owned hA₁ hit₁
      refine ⟨m₂, ?_, hsame ▸ hA₂, by rw [hfreed₂, List.append_nil, hfreed₁]⟩
      simp only [searchNodes, hnext, ok_bind, hnode, hlist, matches'_items, hmatch, if_true, hrun,
        List.find?_cons]
      rfl
    | false =>
      rw [show met ++ (b, x) :: rest = met ++ [(b, x)] ++ rest by simp] at hk₁
      obtain ⟨m₂, hrun, hA₂, hfreed₂⟩ := ih _ hA₁ hk₁ hit₁ (Nat.lt_of_succ_lt_succ hturns)
      refine ⟨m₂, ?_, hsame ▸ hA₂, by rw [hfreed₂, hfreed₁]⟩
      simp only [searchNodes, hnext, ok_bind, hnode, hlist, matches'_items, hmatch,
        Bool.false_eq_true, if_false, hrun, List.find?_cons]

/-- The loops of `listIndex`. -/
theorem walk_spec {m : Mem α} {k : Addr} {c : Contents α} (hl : HoldsList m.cells k c)
    (d : Direction) (met : List (Addr × α)) {rest : List (Addr × α)}
    (hitems : orient d c.items = met ++ rest) (index : ℕ) :
    walk m d index (headOr rest none) = .ok (rest[index]?.map Prod.fst) := by
  induction index generalizing met rest with
  | zero => cases rest <;> rfl
  | succ index ih =>
    cases rest with
    | nil => rfl
    | cons e rest =>
      obtain ⟨b, x⟩ := e
      obtain ⟨l, l', haround, hahead, -⟩ := exists_around d met rest b x
      rw [← hitems, orient_orient] at haround
      have hnodes := hl.nodes
      rw [haround] at hnodes
      rw [headOr_cons, walk, Mem.node_some (nodeAt_eq_some.mp hnodes.cell), ok_bind,
        List.getElem?_cons_succ, ← ih (met ++ [(b, x)]) (by simp [hitems]), ← hahead]
      cases d <;> rfl

/-- `listSearchKey` returns the first node with a value that the key is for, and leaves the memory
as it was; it faults where there is no memory for its iterator. `listIndex` returns the node at an
index, from the head for one that is not negative and from the tail for a negative one, or `NULL`;
the one index without a node is the least `int`, whose negation overflows. -/
theorem lookup_spec [DecidableEq α] {m : Mem α} {A : Objs α} {k : Addr} {c : Contents α}
    (hA : layout.Owned m.cells A) (hk : A k = some (.list c)) (key : α) {turns : ℕ}
    (hturns : c.items.length < turns) :
    (∀ it, A.Unused it → ∃ m', listSearchKey turns m (some k) key (some it) =
        .ok ((c.items.find? (c.header.matches' ·.2 key)).map Prod.fst, m') ∧
      layout.Owned m'.cells A ∧ m'.freed = m.freed) ∧
    listSearchKey turns m (some k) key none = .error .badPointer ∧
    (∀ i : ℕ, listIndex m (some k) i = .ok (c.items[i]?.map Prod.fst)) ∧
    (∀ i : ℕ, i + 1 < 2 ^ 31 →
      listIndex m (some k) (-(i + 1)) = .ok (c.items.reverse[i]?.map Prod.fst)) ∧
    listIndex m (some k) (-2 ^ 31) = .error .overflow := by
  have hl := holdsList hA hk
  refine ⟨fun it hunused => ?_, ?_, fun i => ?_, fun i hi => ?_, ?_⟩
  · obtain ⟨hfree, hnone⟩ := hunused.free hA
    obtain ⟨m₁, hiter, hs⟩ := listGetIterator_spec hl hfree .head
    obtain ⟨hA₁, hfreed₁⟩ := hs.owned hA hnone
    have hne : k ≠ it := by
      rintro rfl
      rw [hk] at hnone
      cases hnone
    obtain ⟨m₂, hrun, hA₂, hfreed₂⟩ := searchNodes_spec (c := c) key []
      hA₁ ((Function.update_of_ne hne ..).trans hk) (Function.update_self ..) hturns
    rw [Function.update_idem, ← hnone, Function.update_eq_self] at hA₂
    refine ⟨m₂, ?_, hA₂, by rw [hfreed₂, hfreed₁, List.append_nil]⟩
    rw [listSearchKey, hiter, ok_bind]
    exact hrun
  · obtain ⟨turns, rfl⟩ := Nat.exists_eq_succ_of_ne_zero (Nat.ne_zero_of_lt hturns)
    rfl
  · rw [listIndex, if_neg (by omega), Mem.list_some hl.header, ok_bind, Int.toNat_natCast]
    exact walk_spec hl .head [] rfl i
  · rw [listIndex, if_pos (by omega), if_neg (by omega), Mem.list_some hl.header, ok_bind,
      show (-(-((i : ℤ) + 1)) - 1).toNat = i by omega]
    have hwalk : walk m .tail i (headOr c.items.reverse none) =
        .ok (c.items.reverse[i]?.map Prod.fst) := walk_spec hl .tail [] rfl i
    rwa [headOr_reverse] at hwalk
  · rw [listIndex, if_pos (by norm_num), if_pos (by norm_num)]

/-- A search for the second of two values, and the last of them. -/
theorem lookup_two : ∃ (m : Mem ℕ) (A : Objs ℕ), layout.Owned m.cells A ∧
    (∃ m', listSearchKey 3 m (some 1) 6 (some 7) = .ok (some 3, m')) ∧
    listIndex m (some 1) (-1) = .ok (some 3) := by
  obtain ⟨m, -, hA, -⟩ := execAll_spec (m := .empty) run_oneList Layout.owned_empty
  obtain ⟨hsearch, -, -, hindex, -⟩ := lookup_spec (k := 1)
    (c := ⟨[(2, 5), (3, 6)], none, true, none⟩) hA rfl 6 (show 2 < 3 by decide)
  obtain ⟨m', hrun, -⟩ := hsearch 7 (unused_oneList (by decide) (by decide))
  exact ⟨m, _, hA, ⟨m', hrun⟩, hindex 0 (by norm_num)⟩

end MgCommonUtils.Adlist
