import MgCommonUtils.Adlist.Heap

/-!
# The functions of `adlist.c` on a list

Every function replaces one object: a list by the list that its comment says, or an iterator
(`Step`). A function that links nodes is described in two lemmas: what it stores (`_cells`), and
that this is the list it should be (`_spec`).
-/

namespace MgCommonUtils.Adlist

open MgCommonUtils.Lib

variable {α : Type}

/-- A step replaces the object at an address, and frees some values. -/
structure Step (m m' : Mem α) (k : Addr) (x x' : Option (Obj α)) (freed : List α) : Prop where
  /-- What it does to the memory. -/
  change : layout.Change m.cells m'.cells k x x'
  /-- The values it frees. -/
  freed : m'.freed = m.freed ++ freed

variable {m : Mem α} {k a b : Addr} {c : Contents α}

/-- The last node of a list is there. -/
theorem HoldsList.last (hl : HoldsList m.cells k c) (hb : lastOr none c.items = some b) :
    ∃ n, m.cells b = some (.node n) ∧ b ≠ k := by
  have hmem := mem_of_lastOr hb
  obtain ⟨n, hn⟩ := hl.ne_none hmem
  exact ⟨n, hn, hl.ne_header hmem⟩

/-- The first node of a list is there. -/
theorem HoldsList.first (hl : HoldsList m.cells k c) (hb : headOr c.items none = some b) :
    ∃ n, m.cells b = some (.node n) ∧ b ≠ k := by
  have hmem := mem_of_headOr hb
  obtain ⟨n, hn⟩ := hl.ne_none hmem
  exact ⟨n, hn, hl.ne_header hmem⟩

/-- Memory that is free is not that of a list. -/
theorem HoldsList.ne_free (hl : HoldsList m.cells k c) (ha : m.cells a = none) :
    k ≠ a ∧ ∀ b ∈ c.items.map Prod.fst, b ≠ a := by
  refine ⟨?_, fun b hb => ?_⟩
  · rintro rfl
    rw [hl.header] at ha
    cases ha
  · rintro rfl
    obtain ⟨n, hn⟩ := hl.ne_none hb
    rw [hn] at ha
    cases ha

/-- A step on the nodes of a list. -/
theorem Step.nodes {m' : Mem α} {items : List (Addr × α)} {freed : List α}
    (hnew : HoldsList m'.cells k { c with items })
    (hframe : ∀ b, b ≠ k → b ∉ c.items.map Prod.fst → b ∉ items.map Prod.fst →
      m'.cells b = m.cells b)
    (hfree : ∀ b, b ∈ c.items.map Prod.fst → b ∉ items.map Prod.fst → m'.cells b = none)
    (hfresh : ∀ b, b ∈ items.map Prod.fst → b ∉ c.items.map Prod.fst → m.cells b = none)
    (hfreed : m'.freed = m.freed ++ freed) :
    Step m m' k (some (.list c)) (some (.list { c with items })) freed := by
  refine ⟨⟨fun y hy => ?_, fun b hb hb' => ?_, fun b hb hb' => ?_, fun b hb hb' => ?_⟩, hfreed⟩
  · obtain rfl := Option.some.inj hy
    exact hnew
  · exact hframe b (fun h => hb (.inl h)) (fun h => hb (.inr h)) fun h => hb' (.inr h)
  · exact hfree b (hb.resolve_left fun h => hb' (.inl h)) fun h => hb' (.inr h)
  · exact hfresh b (hb.resolve_left fun h => hb' (.inl h)) fun h => hb' (.inr h)

/-- A step that adds a node to a list. -/
theorem Step.add {m' : Mem α} {items : List (Addr × α)} (ha : m.cells a = none)
    (hnew : HoldsList m'.cells k { c with items })
    (hitems : ∀ b, b ∈ items.map Prod.fst ↔ b = a ∨ b ∈ c.items.map Prod.fst)
    (hframe : ∀ b, b ≠ k → b ≠ a → b ∉ c.items.map Prod.fst → m'.cells b = m.cells b)
    (hfreed : m'.freed = m.freed) :
    Step m m' k (some (.list c)) (some (.list { c with items })) [] := by
  refine Step.nodes hnew (fun b hbk hb hb' => ?_) (fun b hb hb' => ?_) (fun b hb hb' => ?_) ?_
  · exact hframe b hbk (fun h => hb' ((hitems b).mpr (.inl h))) hb
  · exact absurd ((hitems b).mpr (.inr hb)) hb'
  · rcases (hitems b).mp hb with rfl | hb
    · exact ha
    · exact absurd hb hb'
  · rw [hfreed, List.append_nil]

/-! ## Lists -/

/-- What `listAddNodeTail` stores. -/
theorem listAddNodeTail_cells (hl : HoldsList m.cells k c) (ha : m.cells a = none)
    (hlen : c.items.length + 1 < 2 ^ 32) (x : α) :
    ∃ m', listAddNodeTail m (some k) x (some a) = .ok (some k, m') ∧ m'.freed = m.freed ∧
      m'.cells k = some (.list { c with items := c.items ++ [(a, x)] : Contents α}.header) ∧
      m'.cells a = some (.node ⟨lastOr none c.items, none, x⟩) ∧
      (∀ b, lastOr none c.items = some b →
        nodeAt m'.cells b = setNext (nodeAt m.cells) b (some a) b) ∧
      ∀ b, b ≠ k → b ≠ a → lastOr none c.items ≠ some b → m'.cells b = m.cells b := by
  obtain ⟨hka, hitems⟩ := hl.ne_free ha
  have hk := hl.header
  cases hlast : lastOr none c.items with
  | none =>
    have hnil := eq_nil_of_lastOr hlast
    refine ⟨(m.store a (.node ⟨none, none, x⟩)).store k
      (.list { c with items := c.items ++ [(a, x)] : Contents α}.header), ?_, rfl, ?_, ?_, ?_, ?_⟩
    · simp [listAddNodeTail, Mem.list, deref, listAt, Mem.onList, hk, hka, Contents.header, hnil]
    · simp
    · simp [hka.symm]
    · simp
    · intro b hbk hba _
      simp [hbk, hba]
  | some b =>
    obtain ⟨n, hb, hbk⟩ := hl.last hlast
    have hba := hitems b (mem_of_lastOr hlast)
    have hne : c.items ≠ [] := by
      intro h
      rw [h] at hlast
      cases hlast
    have hmod : (c.items.length + 1) % 4294967296 = c.items.length + 1 := Nat.mod_eq_of_lt hlen
    refine ⟨((m.store a (.node ⟨some b, none, x⟩)).store b (.node { n with next := some a })).store
      k (.list { c with items := c.items ++ [(a, x)] : Contents α}.header), ?_, rfl, ?_, ?_, ?_, ?_⟩
    · simp [listAddNodeTail, Mem.list, Mem.node, deref, listAt, nodeAt, Mem.onList, Mem.onNode, hk,
        hka, Contents.header, hne, hb, hbk.symm, hba, hlast, hmod,
        headOr_of_ne_nil hne (some a) none]
    · simp
    · simp [hka.symm, hba.symm]
    · rintro _ ⟨⟩
      simp [nodeAt, hbk, setNext, hb]
    · intro d hdk hda hdb
      have hdb : d ≠ b := fun h => hdb (congrArg some h.symm)
      simp [hdk, hda, hdb]

/-- `listAddNodeTail` links a node in behind the last one. -/
theorem listAddNodeTail_spec (hl : HoldsList m.cells k c) (ha : m.cells a = none)
    (hlen : c.items.length + 1 < 2 ^ 32) (x : α) :
    ∃ m', listAddNodeTail m (some k) x (some a) = .ok (some k, m') ∧
      Step m m' k (some (.list c)) (some (.list { c with items := c.items ++ [(a, x)] })) [] := by
  obtain ⟨hka, hitems⟩ := hl.ne_free ha
  obtain ⟨m', hrun, hfreed, hk, hnode, hlast, hother⟩ := listAddNodeTail_cells hl ha hlen x
  refine ⟨m', hrun, Step.add ha ⟨hk, ?_, ?_⟩ (fun b => ?_) (fun b hbk hba hb => ?_) hfreed⟩
  · refine hl.nodes.concat (nodeAt_eq_some.mpr hnode) hlast fun b hb hne => ?_
    exact nodeAt_congr (hother b (hl.ne_header hb) (hitems b hb) hne)
  · simpa using hlen
  · simp [or_comm]
  · exact hother b hbk hba fun h => hb (mem_of_lastOr h)

/-- What `listAddNodeHead` stores. -/
theorem listAddNodeHead_cells (hl : HoldsList m.cells k c) (ha : m.cells a = none)
    (hlen : c.items.length + 1 < 2 ^ 32) (x : α) :
    ∃ m', listAddNodeHead m (some k) x (some a) = .ok (some k, m') ∧ m'.freed = m.freed ∧
      m'.cells k = some (.list { c with items := (a, x) :: c.items : Contents α}.header) ∧
      m'.cells a = some (.node ⟨none, headOr c.items none, x⟩) ∧
      (∀ b, headOr c.items none = some b →
        nodeAt m'.cells b = setPrev (nodeAt m.cells) b (some a) b) ∧
      ∀ b, b ≠ k → b ≠ a → headOr c.items none ≠ some b → m'.cells b = m.cells b := by
  obtain ⟨hka, hitems⟩ := hl.ne_free ha
  have hk := hl.header
  cases hhead : headOr c.items none with
  | none =>
    have hnil := eq_nil_of_headOr hhead
    refine ⟨(m.store a (.node ⟨none, none, x⟩)).store k
      (.list { c with items := (a, x) :: c.items : Contents α}.header), ?_, rfl, ?_, ?_, ?_, ?_⟩
    · simp [listAddNodeHead, Mem.list, deref, listAt, Mem.onList, hk, hka, Contents.header, hnil]
    · simp
    · simp [hka.symm]
    · simp
    · intro b hbk hba _
      simp [hbk, hba]
  | some b =>
    obtain ⟨n, hb, hbk⟩ := hl.first hhead
    have hba := hitems b (mem_of_headOr hhead)
    have hne : c.items ≠ [] := by
      intro h
      rw [h] at hhead
      cases hhead
    have hmod : (c.items.length + 1) % 4294967296 = c.items.length + 1 := Nat.mod_eq_of_lt hlen
    refine ⟨((m.store a (.node ⟨none, some b, x⟩)).store b (.node { n with prev := some a })).store
      k (.list { c with items := (a, x) :: c.items : Contents α}.header), ?_, rfl, ?_, ?_, ?_, ?_⟩
    · simp [listAddNodeHead, Mem.list, Mem.node, deref, listAt, nodeAt, Mem.onList, Mem.onNode, hk,
        hka, Contents.header, hne, hb, hbk.symm, hba, hhead, hmod,
        lastOr_of_ne_nil hne (some a) none]
    · simp
    · simp [hka.symm, hba.symm]
    · rintro _ ⟨⟩
      simp [nodeAt, hbk, setPrev, hb]
    · intro d hdk hda hdb
      have hdb : d ≠ b := fun h => hdb (congrArg some h.symm)
      simp [hdk, hda, hdb]

/-- `listAddNodeHead` links a node in before the first one. -/
theorem listAddNodeHead_spec (hl : HoldsList m.cells k c) (ha : m.cells a = none)
    (hlen : c.items.length + 1 < 2 ^ 32) (x : α) :
    ∃ m', listAddNodeHead m (some k) x (some a) = .ok (some k, m') ∧
      Step m m' k (some (.list c)) (some (.list { c with items := (a, x) :: c.items })) [] := by
  obtain ⟨hka, hitems⟩ := hl.ne_free ha
  obtain ⟨m', hrun, hfreed, hk, hnode, hhead, hother⟩ := listAddNodeHead_cells hl ha hlen x
  refine ⟨m', hrun, Step.add ha ⟨hk, ?_, hlen⟩ (fun b => ?_) (fun b hbk hba hb => ?_) hfreed⟩
  · refine hl.nodes.cons (nodeAt_eq_some.mpr hnode) hhead fun b hb hne => ?_
    exact nodeAt_congr (hother b (hl.ne_header hb) (hitems b hb) hne)
  · simp
  · exact hother b hbk hba fun h => hb (mem_of_headOr h)

/-- What `linkNext` stores: the node before the one it takes out is linked on, or the header. -/
theorem linkNext_cells {l : AdList α} {p q : Ptr} (hk : m.cells k = some (.list l))
    (hp : ∀ b, p = some b → b ≠ k ∧ ∃ n, m.cells b = some (.node n)) (x : α) :
    ∃ m', linkNext m (some k) ⟨p, q, x⟩ = .ok m' ∧ m'.freed = m.freed ∧
      m'.cells k = some (.list { l with head := if p.isSome then l.head else q }) ∧
      (∀ b, p = some b → nodeAt m'.cells b = setNext (nodeAt m.cells) b q b) ∧
      ∀ b, b ≠ k → p ≠ some b → m'.cells b = m.cells b := by
  cases p with
  | none =>
    refine ⟨_, Mem.onList_some hk _, rfl, Mem.store_self _, (by rintro _ ⟨⟩), ?_⟩
    exact fun b hbk _ => Mem.store_of_ne hbk _
  | some b =>
    obtain ⟨hbk, n, hb⟩ := hp b rfl
    refine ⟨_, Mem.onNode_some hb _, rfl, (Mem.store_of_ne hbk.symm _).trans hk, ?_, ?_⟩
    · rintro _ ⟨⟩
      simp [nodeAt, setNext, hb]
    · exact fun d _ hd => Mem.store_of_ne (fun h => hd (congrArg some h.symm)) _

/-- What `linkPrev` stores: the node behind it is linked back, or the header. -/
theorem linkPrev_cells {l : AdList α} {p q : Ptr} (hk : m.cells k = some (.list l))
    (hq : ∀ b, q = some b → b ≠ k ∧ ∃ n, m.cells b = some (.node n)) (x : α) :
    ∃ m', linkPrev m (some k) ⟨p, q, x⟩ = .ok m' ∧ m'.freed = m.freed ∧
      m'.cells k = some (.list { l with tail := if q.isSome then l.tail else p }) ∧
      (∀ b, q = some b → nodeAt m'.cells b = setPrev (nodeAt m.cells) b p b) ∧
      ∀ b, b ≠ k → q ≠ some b → m'.cells b = m.cells b := by
  cases q with
  | none =>
    refine ⟨_, Mem.onList_some hk _, rfl, Mem.store_self _, (by rintro _ ⟨⟩), ?_⟩
    exact fun b hbk _ => Mem.store_of_ne hbk _
  | some b =>
    obtain ⟨hbk, n, hb⟩ := hq b rfl
    refine ⟨_, Mem.onNode_some hb _, rfl, (Mem.store_of_ne hbk.symm _).trans hk, ?_, ?_⟩
    · rintro _ ⟨⟩
      simp [nodeAt, setPrev, hb]
    · exact fun d _ hd => Mem.store_of_ne (fun h => hd (congrArg some h.symm)) _

/-- The values that a list frees when a value is dropped. -/
def Contents.frees (c : Contents α) (xs : List α) : List α := if c.free then xs else []

/-- `freeValue` keeps to the method of the list. -/
theorem freed_freeValue (m : Mem α) (c : Contents α) (x : α) :
    (m.freeValue c.header x).freed = m.freed ++ c.frees [x] := by
  unfold Mem.freeValue Contents.frees Contents.header
  cases c.free
  · exact (List.append_nil _).symm
  · rfl

/-- The header of a list with a node less. -/
theorem HoldsList.header_remove {x : α} {l l' : List (Addr × α)} (hl : HoldsList m.cells k c)
    (hitems : c.items = l ++ (a, x) :: l') :
    { c with items := l ++ l' : Contents α}.header =
      { c.header with
        head := if (lastOr none l).isSome then c.header.head else headOr l' none
        tail := if (headOr l' none).isSome then c.header.tail else lastOr none l
        len := (c.items.length + (2 ^ 32 - 1)) % 2 ^ 32 } := by
  have hlen := hl.length
  have hhead : headOr (l ++ l') none =
      if (lastOr none l).isSome then headOr c.items none else headOr l' none := by
    cases hp : lastOr none l with
    | none =>
      obtain rfl := eq_nil_of_lastOr hp
      rfl
    | some b =>
      rw [hitems, headOr_append, headOr_append]
      refine headOr_of_ne_nil ?_ ..
      rintro rfl
      cases hp
  have htail : lastOr none (l ++ l') =
      if (headOr l' none).isSome then lastOr none c.items else lastOr none l := by
    cases hq : headOr l' none with
    | none =>
      obtain rfl := eq_nil_of_headOr hq
      rw [List.append_nil]
      rfl
    | some b =>
      rw [hitems, lastOr_append, lastOr_append, lastOr_cons]
      refine lastOr_of_ne_nil ?_ ..
      rintro rfl
      cases hq
  rw [hitems, List.length_append, List.length_cons] at hlen ⊢
  rw [Contents.header, Contents.header, hhead, htail, List.length_append,
    show l.length + (l'.length + 1) + (2 ^ 32 - 1) = l.length + l'.length + 2 ^ 32 by omega,
    Nat.add_mod_right, Nat.mod_eq_of_lt (by omega), hitems]

/-- What `listDelNode` stores. -/
theorem listDelNode_cells {x : α} {l l' : List (Addr × α)} (hl : HoldsList m.cells k c)
    (hitems : c.items = l ++ (a, x) :: l') :
    ∃ m', listDelNode m (some k) (some a) = .ok m' ∧ m'.freed = m.freed ++ c.frees [x] ∧
      m'.cells k = some (.list { c with items := l ++ l' : Contents α}.header) ∧
      m'.cells a = none ∧
      (∀ b, lastOr none l = some b →
        nodeAt m'.cells b = setNext (nodeAt m.cells) b (headOr l' none) b) ∧
      (∀ b, headOr l' none = some b →
        nodeAt m'.cells b = setPrev (nodeAt m.cells) b (lastOr none l) b) ∧
      ∀ b, b ≠ k → b ≠ a → lastOr none l ≠ some b → headOr l' none ≠ some b →
        m'.cells b = m.cells b := by
  have hnodes := hl.nodes
  rw [hitems] at hnodes
  have hmem : ∀ b, b ∈ c.items.map Prod.fst ↔ b ∈ l.map Prod.fst ∨ b = a ∨ b ∈ l'.map Prod.fst := by
    simp [hitems]
  have hnodup := hnodes.nodup
  rw [List.map_append, List.map_cons, List.nodup_append, List.nodup_cons] at hnodup
  obtain ⟨-, ⟨ha', -⟩, hsep⟩ := hnodup
  have ha : m.cells a = some (.node ⟨lastOr none l, headOr l' none, x⟩) :=
    nodeAt_eq_some.mp hnodes.cell
  have hak : a ≠ k := hl.ne_header ((hmem a).mpr (.inr (.inl rfl)))
  -- The nodes next to it are other nodes of the list.
  have hprev : ∀ b, lastOr none l = some b → (b ≠ k ∧ ∃ n, m.cells b = some (.node n)) ∧ b ≠ a ∧
      headOr l' none ≠ some b := by
    intro b hb
    have hb := mem_of_lastOr hb
    have hb' := (hmem b).mpr (.inl hb)
    refine ⟨⟨hl.ne_header hb', hl.ne_none hb'⟩, hsep b hb a List.mem_cons_self, fun h => ?_⟩
    exact hsep b hb b (List.mem_cons_of_mem _ (mem_of_headOr h)) rfl
  have hnext : ∀ b, headOr l' none = some b → (b ≠ k ∧ ∃ n, m.cells b = some (.node n)) ∧ b ≠ a ∧
      lastOr none l ≠ some b := by
    intro b hb
    have hb' := (hmem b).mpr (.inr (.inr (mem_of_headOr hb)))
    refine ⟨⟨hl.ne_header hb', hl.ne_none hb'⟩, ?_, fun h => (hprev b h).2.2 hb⟩
    rintro rfl
    exact ha' (mem_of_headOr hb)
  obtain ⟨m₁, hrun₁, hfreed₁, hk₁, hset₁, hother₁⟩ := linkNext_cells (p := lastOr none l)
    (q := headOr l' none) hl.header (fun b hb => (hprev b hb).1) x
  have ha₁ : m₁.cells a = m.cells a := hother₁ a hak fun h => (hprev a h).2.1 rfl
  have hnext₁ : ∀ b, headOr l' none = some b → m₁.cells b = m.cells b := fun b hb =>
    hother₁ b (hnext b hb).1.1 (hnext b hb).2.2
  obtain ⟨m₂, hrun₂, hfreed₂, hk₂, hset₂, hother₂⟩ := linkPrev_cells (p := lastOr none l)
    (q := headOr l' none) hk₁ (fun b hb => by
      rw [hnext₁ b hb]
      exact (hnext b hb).1) x
  have ha₂ : m₂.cells a = m.cells a := (hother₂ a hak fun h => (hnext a h).2.1 rfl).trans ha₁
  -- The value and the node are given back, and the length is set.
  have hfree : ∀ b, (m₂.freeValue c.header x).cells b = m₂.cells b := fun b =>
    congrFun (Mem.cells_freeValue ..) b
  have hk₃ := (Mem.erase_of_ne hak.symm).trans ((hfree k).trans hk₂)
  have hrun : listDelNode m (some k) (some a) = .ok (((m₂.freeValue c.header x).erase a).store k
      (.list { c with items := l ++ l' : Contents α}.header)) := by
    rw [listDelNode, Mem.node_some ha, ok_bind, hrun₁, ok_bind, Mem.node_some (ha₁.trans ha),
      ok_bind, hrun₂, ok_bind, Mem.list_some hk₂, ok_bind, Mem.node_some (ha₂.trans ha), ok_bind,
      hl.header_remove hitems]
    have hfree_a := Mem.free_some ((hfree a).trans (ha₂.trans ha))
    refine (congrArg (· >>= _) hfree_a).trans ?_
    exact Mem.onList_some hk₃ _
  have hcells : ∀ b, b ≠ k → b ≠ a → (((m₂.freeValue c.header x).erase a).store k
      (.list { c with items := l ++ l' : Contents α}.header)).cells b = m₂.cells b := by
    intro b hbk hba
    exact (Mem.store_of_ne hbk _).trans ((Mem.erase_of_ne hba).trans (hfree b))
  refine ⟨_, hrun, ?_, Mem.store_self _, ?_, fun b hb => ?_, fun b hb => ?_, ?_⟩
  · rw [Mem.freed_store, Mem.freed_erase, freed_freeValue, hfreed₂, hfreed₁]
  · rw [Mem.store_of_ne hak, Mem.erase_self]
  · obtain ⟨⟨hbk, -⟩, hba, hb'⟩ := hprev b hb
    rw [nodeAt_congr (hcells b hbk hba), nodeAt_congr (hother₂ b hbk hb')]
    exact hset₁ b hb
  · obtain ⟨⟨hbk, -⟩, hba, hb'⟩ := hnext b hb
    rw [nodeAt_congr (hcells b hbk hba), hset₂ b hb, setPrev, setPrev, Function.update_self,
      Function.update_self, nodeAt_congr (hnext₁ b hb)]
  · intro b hbk hba hb hb'
    rw [hcells b hbk hba, hother₂ b hbk hb', hother₁ b hbk hb]

/-- `listDelNode` takes a node out, gives its value to the list's method, and frees the node. -/
theorem listDelNode_spec {x : α} {l l' : List (Addr × α)} (hl : HoldsList m.cells k c)
    (hitems : c.items = l ++ (a, x) :: l') :
    ∃ m', listDelNode m (some k) (some a) = .ok m' ∧
      Step m m' k (some (.list c)) (some (.list { c with items := l ++ l' })) (c.frees [x]) := by
  obtain ⟨m', hrun, hfreed, hk, ha, hprev, hnext, hother⟩ := listDelNode_cells hl hitems
  have hnodes := hl.nodes
  have hlen := hl.length
  rw [hitems] at hnodes
  rw [hitems, List.length_append, List.length_cons] at hlen
  have hmem : ∀ b, b ∈ c.items.map Prod.fst ↔ b ∈ (l ++ l').map Prod.fst ∨ b = a := by
    intro b
    simp only [hitems, List.map_append, List.map_cons, List.mem_append, List.mem_cons]
    tauto
  have hnodup := hnodes.nodup
  rw [List.map_append, List.map_cons, List.nodup_middle, ← List.map_append,
    List.nodup_cons] at hnodup
  refine ⟨m', hrun, Step.nodes ⟨hk, ?_, ?_⟩ (fun b hbk hb hb' => ?_) (fun b hb hb' => ?_)
    (fun b hb hb' => ?_) hfreed⟩
  · refine hnodes.remove hprev hnext fun b hb hp hq => nodeAt_congr ?_
    refine hother b (hl.ne_header ((hmem b).mpr (.inl hb))) ?_ hp hq
    rintro rfl
    exact hnodup.1 hb
  · rw [List.length_append]
    omega
  · rw [List.map_append, List.mem_append, not_or] at hb'
    exact hother b hbk (fun h => hb ((hmem b).mpr (.inr h))) (fun h => hb'.1 (mem_of_lastOr h))
      fun h => hb'.2 (mem_of_headOr h)
  · obtain rfl := ((hmem b).mp hb).resolve_left hb'
    exact ha
  · exact absurd ((hmem b).mpr (.inl hb)) hb'

/-- `listCreate` makes an empty list without methods. -/
theorem listCreate_spec (ha : m.cells a = none) :
    ∃ m', listCreate m (some a) = (some a, m') ∧
      Step m m' a none (some (.list ⟨[], none, false, none⟩)) [] := by
  refine ⟨_, rfl, ⟨fun y hy => ?_, fun b _ hb => ?_, fun _ hb => hb.elim, fun b hb _ => ?_⟩,
    (List.append_nil _).symm⟩
  · obtain rfl := Option.some.inj hy
    exact ⟨Mem.store_self _, trivial, Nat.two_pow_pos 32⟩
  · exact Mem.store_of_ne (fun h => hb (.inl h)) _
  · obtain rfl : b = a := hb.resolve_right List.not_mem_nil
    exact ha

/-- The loop of `listRelease` gives the values to the method of the list, and frees the nodes. -/
theorem releaseNodes_spec {items : List (Addr × α)} {pre : Ptr} {m : Mem α}
    (hk : m.cells k = some (.list c.header)) (hl : Linked (nodeAt m.cells) pre items none) :
    ∃ m', releaseNodes (some k) m (headOr items none) items.length = .ok m' ∧
      (∀ b ∈ items.map Prod.fst, m'.cells b = none) ∧
      (∀ b, b ∉ items.map Prod.fst → m'.cells b = m.cells b) ∧
      m'.freed = m.freed ++ c.frees (items.map Prod.snd) := by
  induction items generalizing pre m with
  | nil =>
    refine ⟨m, rfl, fun b hb => absurd hb List.not_mem_nil, fun _ _ => rfl, ?_⟩
    cases hfree : c.free <;> simp [Contents.frees, hfree]
  | cons d items ih =>
    obtain ⟨a, x⟩ := d
    have hnodup := (List.nodup_cons.mp hl.nodup).1
    obtain ⟨ha, hl⟩ := hl
    replace ha := nodeAt_eq_some.mp ha
    have hka : k ≠ a := by
      rintro rfl
      rw [hk] at ha
      cases ha
    have hfree : ∀ b, (m.freeValue c.header x).cells b = m.cells b := fun b =>
      congrFun (Mem.cells_freeValue ..) b
    have hcells : ∀ b, b ≠ a → ((m.freeValue c.header x).erase a).cells b = m.cells b := fun b hb =>
      (Mem.erase_of_ne hb).trans (hfree b)
    obtain ⟨m', hrun, hnone, hother, hfreed⟩ := ih ((hcells k hka).trans hk)
      (hl.congr fun b hb => nodeAt_congr (hcells b fun h => hnodup (h ▸ hb)))
    refine ⟨m', ?_, fun b hb => ?_, fun b hb => ?_, ?_⟩
    · rw [headOr_cons, List.length_cons, releaseNodes, Mem.node_some ha, ok_bind, Mem.list_some hk,
        ok_bind, Mem.free_some ((hfree a).trans ha), ok_bind]
      exact hrun
    · by_cases hmem : b ∈ items.map Prod.fst
      · exact hnone b hmem
      · obtain rfl : b = a := (List.mem_cons.mp hb).resolve_right hmem
        rw [hother b hmem, Mem.erase_self]
    · obtain ⟨hba, hb⟩ := not_or.mp (mt List.mem_cons.mpr hb)
      exact (hother b hb).trans (hcells b hba)
    · rw [hfreed, Mem.freed_erase, freed_freeValue, List.append_assoc]
      cases hfree : c.free <;> simp [Contents.frees, hfree]

/-- `listRelease` frees a list with all its nodes. -/
theorem listRelease_spec (hl : HoldsList m.cells k c) :
    ∃ m', listRelease m (some k) = .ok m' ∧
      Step m m' k (some (.list c)) none (c.frees (c.items.map Prod.snd)) := by
  obtain ⟨m', hrun, hnone, hother, hfreed⟩ := releaseNodes_spec hl.header hl.nodes
  have hk : m'.cells k = some (.list c.header) :=
    (hother k fun h => hl.ne_header h rfl).trans hl.header
  refine ⟨m'.erase k, ?_, ⟨fun y hy => ?_, fun b hb _ => ?_, fun b hb _ => ?_, fun _ hb => hb.elim⟩,
    hfreed⟩
  · rw [listRelease, Mem.list_some hl.header, ok_bind]
    refine (congrArg (· >>= _) hrun).trans ?_
    exact Mem.free_some hk
  · cases hy
  · rw [Mem.erase_of_ne fun h => hb (.inl h), hother b fun h => hb (.inr h)]
  · by_cases hbk : b = k
    · rw [hbk, Mem.erase_self]
    · rw [Mem.erase_of_ne hbk, hnone b (hb.resolve_left hbk)]

/-- The methods of a list are set. -/
theorem listSetMethods_spec (hl : HoldsList m.cells k c) (dup : Option (α → Option α)) (free : Bool)
    (match' : Option (α → α → Bool)) :
    ∃ m', listSetMethods m (some k) dup free match' = .ok m' ∧
      Step m m' k (some (.list c)) (some (.list { c with dup, free, match' })) [] := by
  refine ⟨m.store k (.list { c with dup, free, match' : Contents α}.header), ?_,
    ⟨fun y hy => ?_, fun b hb _ => Mem.store_of_ne (fun h => hb (.inl h)) _,
      fun b hb hb' => absurd hb hb', fun b hb hb' => absurd hb hb'⟩, (List.append_nil _).symm⟩
  · rw [listSetMethods, Mem.onList_some hl.header, ok_bind, Mem.onList_some (Mem.store_self _),
      ok_bind, Mem.onList_some (Mem.store_self _), Mem.store_store, Mem.store_store]
    rfl
  · obtain rfl := Option.some.inj hy
    refine ⟨Mem.store_self _, hl.nodes.congr fun b hb => nodeAt_congr ?_, hl.length⟩
    exact Mem.store_of_ne (hl.ne_header hb) _

/-! ## Iterators -/

/-- Where an iterator over a list begins. -/
def Contents.start (c : Contents α) : Direction → Ptr
  | .head => headOr c.items none
  | .tail => lastOr none c.items

/-- The header says where an iterator begins. -/
theorem start_header (c : Contents α) (direction : Direction) :
    c.header.start direction = c.start direction := by
  cases direction <;> rfl

/-- A step that stores an iterator where there was one, or where memory was free. -/
theorem Step.iter {i : Option (Obj α)} (i' : ListIter)
    (hi : i = none ∧ m.cells a = none ∨ ∃ i₀, i = some (.iter i₀)) :
    Step m (m.store a (.iter i')) a i (some (.iter i')) [] := by
  refine ⟨⟨fun y hy => ?_, fun b _ hb => Mem.store_of_ne hb _, fun b hb hb' => ?_,
    fun b hb hb' => ?_⟩, (List.append_nil _).symm⟩
  · obtain rfl := Option.some.inj hy
    exact Mem.store_self _
  · rcases hi with ⟨rfl, -⟩ | ⟨i₀, rfl⟩
    · exact hb.elim
    · exact absurd hb hb'
  · obtain rfl : b = a := hb
    rcases hi with ⟨-, ha⟩ | ⟨i₀, rfl⟩
    · exact ha
    · exact absurd rfl hb'

/-- `listGetIterator` makes an iterator that begins at an end of the list. -/
theorem listGetIterator_spec (hl : HoldsList m.cells k c) (ha : m.cells a = none)
    (direction : Direction) :
    ∃ m', listGetIterator m (some k) direction (some a) = .ok (some a, m') ∧
      Step m m' a none (some (.iter ⟨c.start direction, direction⟩)) [] := by
  refine ⟨_, ?_, Step.iter _ (.inl ⟨rfl, ha⟩)⟩
  simp only [listGetIterator, Mem.list_some hl.header, ok_bind, start_header]
  rfl

/-- `listReleaseIterator` frees an iterator. -/
theorem listReleaseIterator_spec {i : ListIter} (ha : m.cells a = some (.iter i)) :
    ∃ m', listReleaseIterator m (some a) = .ok m' ∧
      Step m m' a (some (.iter i)) none [] := by
  refine ⟨_, Mem.free_some ha, ⟨fun y hy => ?_, fun b hb _ => Mem.erase_of_ne hb,
    fun b hb _ => ?_, fun _ hb => hb.elim⟩, (List.append_nil _).symm⟩
  · cases hy
  · obtain rfl : b = a := hb
    exact Mem.erase_self

/-- `listRewind` and `listRewindTail` set an iterator to an end of the list. -/
theorem listRewind_spec {i : ListIter} (hl : HoldsList m.cells k c)
    (ha : m.cells a = some (.iter i)) (direction : Direction) :
    ∃ m', listRewind m (some k) (some a) direction = .ok m' ∧
      Step m m' a (some (.iter i)) (some (.iter ⟨c.start direction, direction⟩)) [] := by
  refine ⟨_, ?_, Step.iter _ (.inr ⟨i, rfl⟩)⟩
  rw [listRewind, Mem.list_some hl.header, ok_bind, Mem.onIter_some ha, start_header]

/-- The node behind a cell of a list in a direction, where the list is cut at the cell. -/
def aheadIn (l l' : List (Addr × α)) : Direction → Ptr
  | .head => headOr l' none
  | .tail => lastOr none l

/-- `listNext` returns the node that is next, and goes on to the one behind it. -/
theorem listNext_spec {x : α} {l l' : List (Addr × α)} {direction : Direction}
    (ha : m.cells a = some (.iter ⟨some b, direction⟩)) (hl : HoldsList m.cells k c)
    (hitems : c.items = l ++ (b, x) :: l') :
    ∃ m', listNext m (some a) = .ok (some b, m') ∧
      Step m m' a (some (.iter ⟨some b, direction⟩))
        (some (.iter ⟨aheadIn l l' direction, direction⟩)) [] := by
  refine ⟨_, ?_, Step.iter _ (.inr ⟨_, rfl⟩)⟩
  have hnodes := hl.nodes
  rw [hitems] at hnodes
  have hb := nodeAt_eq_some.mp hnodes.cell
  simp only [listNext, Mem.iter_some ha, ok_bind, Mem.node_some hb, Mem.onIter_some ha]
  cases direction <;> rfl

/-- `listNext` returns `NULL` at the end. -/
theorem listNext_end {direction : Direction} (ha : m.cells a = some (.iter ⟨none, direction⟩)) :
    listNext m (some a) = .ok (none, m) := by
  simp only [listNext, Mem.iter_some ha, ok_bind]
  rfl

end MgCommonUtils.Adlist
