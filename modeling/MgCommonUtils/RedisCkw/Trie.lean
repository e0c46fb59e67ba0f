import MgCommonUtils.Lib.CString

/-!
# The keyword table

`set_nodes` of `redis-ckw/ckwlib.c` puts a keyword into a table of nodes, each of which has a cell
for every byte. A cell points to the node for the next byte, and says whether a keyword ends there.

The nodes are to be numbered by a counter that the caller keeps, `*used`. But `*used++` increments
the pointer, not the counter. So a new node gets the number that happens to stand behind the counter
in memory, the next one the number behind that, and so on, and the next call starts again at the
same place (`setNodes_allocs`). The counter stays zero, and a number that is not zero is above it.
`insertAll_trieOk_iff` says that the table comes out right if and only if no node was needed, that
is if every keyword is a single byte.
-/

namespace MgCommonUtils.RedisCkw

open MgCommonUtils.Lib

/-! ## The model -/

/-- `MAX_NODE`. -/
def MAX_NODE : ℤ := 2 * 1024 * 1024

/-- `cell`. -/
structure Cell where
  /-- The node for the next byte, or 0. -/
  point : ℕ := 0
  /-- Whether a keyword ends here. -/
  isEnd : Bool := false
  deriving DecidableEq, Repr

/-- The table: the cell of a node for a byte. -/
abbrev Nodes := ℕ → UInt8 → Cell

/-- The value of a bit field of 31 bits that an `int` is assigned to. -/
def point31 (n : ℤ) : ℕ := (n % 2^31).toNat

/-- A change of one cell. -/
def Nodes.set (nodes : Nodes) (p : ℕ) (c : UInt8) (cell : Cell) : Nodes :=
  Function.update nodes p (Function.update (nodes p) c cell)

/-- `nodes[p].cell[c].point=n`. -/
def Nodes.setPoint (nodes : Nodes) (p : ℕ) (c : UInt8) (n : ℤ) : Nodes :=
  nodes.set p c { nodes p c with point := point31 n }

/-- `nodes[p].cell[c].end=1`. -/
def Nodes.setEnd (nodes : Nodes) (p : ℕ) (c : UInt8) : Nodes :=
  nodes.set p c { nodes p c with isEnd := true }

/-- What a call of `set_nodes` leaves. -/
structure Call where
  /-- What it returns. -/
  ret : ℤ
  /-- The table. -/
  nodes : Nodes
  /-- The values of `point` in the cells that got a new node, in order. -/
  allocs : List ℕ := []

/-- The loop of `set_nodes`, when `used` has been incremented `used` times. `words` are the words of
memory from `*used` on. A step that would leave the table, whose last node is `top`, is none. -/
def setNodesLoop (top : ℕ) (words : ℕ → ℤ) (nodes : Nodes) (used : ℕ) (p : ℤ) (rp : ℕ)
    (last : UInt8) : Bytes → Option Call
  | [] => some { ret := 0, nodes := nodes.setEnd rp last }
  | c :: s =>
    if p < 0 ∨ top < p then none
    else
      let rp := p.toNat
      if (nodes rp c).point = 0 ∧ s ≠ [] then
        if words used + 1 > MAX_NODE then some { ret := -1, nodes }
        else
          -- `*used++` increments the pointer.
          let used := used + 1
          let nodes := nodes.setPoint rp c (words used)
          (setNodesLoop top words nodes used (words used) rp c s).map fun call =>
            { call with allocs := (nodes rp c).point :: call.allocs }
      else setNodesLoop top words nodes used (nodes rp c).point rp c s

/-- `set_nodes`. It would read the byte before the keyword if that were empty. -/
def setNodes (top : ℕ) (words : ℕ → ℤ) (nodes : Nodes) (s : Bytes) : Option Call :=
  if cstr s = [] then none else setNodesLoop top words nodes 0 0 0 0 (cstr s)

/-- Calls of `set_nodes` that all return 0: the table, and the new nodes of all calls. -/
def insertAll (top : ℕ) (words : ℕ → ℤ) (nodes : Nodes) : List Bytes → Option (Nodes × List ℕ)
  | [] => some (nodes, [])
  | k :: ks =>
    match setNodes top words nodes k with
    | none => none
    | some call =>
      if call.ret = 0 then
        (insertAll top words call.nodes ks).map fun r => (r.1, call.allocs ++ r.2)
      else none

/-! ## What the table should be -/

/-- A word is spelled by a path from a node to a cell where a keyword ends. -/
def Nodes.Spells (nodes : Nodes) (p : ℕ) : Bytes → Prop
  | [] => False
  | [c] => (nodes p c).isEnd = true
  | c :: d :: s => (nodes p c).point ≠ 0 ∧ nodes.Spells (nodes p c).point (d :: s)

/-- The table is right for the keywords. -/
structure TrieOk (words : ℕ → ℤ) (ks : List Bytes) (nodes : Nodes) (allocs : List ℕ) : Prop where
  /-- No node is new twice. -/
  fresh : allocs.Nodup
  /-- The root is not new. -/
  nonzero : 0 ∉ allocs
  /-- The counter is not below a new node. -/
  le_used : ∀ a ∈ allocs, (a : ℤ) ≤ words 0
  /-- A node has one parent. -/
  parent : ∀ p c q d, (nodes p c).point ≠ 0 → (nodes p c).point = (nodes q d).point → p = q ∧ c = d
  /-- The words spelled are the keywords. -/
  spells : ∀ w, nodes.Spells 0 w ↔ w ∈ ks

/-! ## The new nodes -/

variable {top : ℕ} {words : ℕ → ℤ}

/-- A cell that has just been written. -/
@[simp]
theorem Nodes.set_self (nodes : Nodes) (p : ℕ) (c : UInt8) (cell : Cell) :
    nodes.set p c cell p c = cell := by
  simp [Nodes.set]

/-- The new nodes are the words behind those that have been used. -/
theorem setNodesLoop_allocs {nodes : Nodes} {used : ℕ} {p : ℤ} {rp : ℕ} {last : UInt8} {s : Bytes}
    {call : Call} (h : setNodesLoop top words nodes used p rp last s = some call) :
    call.allocs = (List.range' (used + 1) call.allocs.length).map fun i => point31 (words i) := by
  induction s generalizing nodes used p rp last call with
  | nil =>
    obtain rfl := Option.some.inj h
    rfl
  | cons c s ih =>
    simp only [setNodesLoop] at h
    split_ifs at h with hp hnew hfull
    · obtain rfl := Option.some.inj h
      rfl
    · obtain ⟨call', h', rfl⟩ := Option.map_eq_some_iff.mp h
      have hpoint : (nodes.setPoint p.toNat c (words (used + 1)) p.toNat c).point =
          point31 (words (used + 1)) := by
        rw [Nodes.setPoint, Nodes.set_self]
      simp only [hpoint, List.length_cons, List.range'_succ, List.map_cons]
      exact congrArg _ (ih h')
    · exact ih h

/-- The new nodes of a call are the words behind the counter: every call takes the same. -/
theorem setNodes_allocs {nodes : Nodes} {s : Bytes} {call : Call}
    (h : setNodes top words nodes s = some call) :
    call.allocs = (List.range' 1 call.allocs.length).map fun i => point31 (words i) := by
  unfold setNodes at h
  split_ifs at h
  exact setNodesLoop_allocs h

/-! ## When no node is needed -/

/-- No cell points to a node. -/
def Nodes.NoChild (nodes : Nodes) : Prop := ∀ p c, (nodes p c).point = 0

/-- A keyword that is a single byte needs no node. -/
theorem setNodes_singleton (nodes : Nodes) {c : UInt8} (hc : c ≠ 0) :
    setNodes top words nodes [c] = some { ret := 0, nodes := nodes.setEnd 0 c } := by
  have hcstr : cstr [c] = [c] := by simp [cstr, hc]
  rw [setNodes, hcstr, if_neg (by simp), setNodesLoop, if_neg (by omega)]
  simp [setNodesLoop]

/-- A longer one needs one for its first byte, if there is none yet. -/
theorem setNodes_allocs_ne_nil {nodes : Nodes} (hnodes : nodes.NoChild) (h0 : words 0 = 0)
    {s : Bytes} (hs : 2 ≤ (cstr s).length) {call : Call}
    (h : setNodes top words nodes s = some call) : call.allocs ≠ [] := by
  obtain ⟨c, d, t, hcstr⟩ : ∃ c d t, cstr s = c :: d :: t := by
    match cstr s, hs with
    | c :: d :: t, _ => exact ⟨c, d, t, rfl⟩
  rw [setNodes, hcstr, if_neg (by simp)] at h
  simp only [setNodesLoop] at h
  have hnew : (nodes (0 : ℤ).toNat c).point = 0 ∧ d :: t ≠ [] := ⟨hnodes _ _, by simp⟩
  have hroom : ¬ words 0 + 1 > MAX_NODE := by
    rw [h0, MAX_NODE]
    omega
  rw [if_pos hnew, if_neg hroom] at h
  split_ifs at h
  all_goals
    obtain ⟨call', -, rfl⟩ := Option.map_eq_some_iff.mp h
    simp

/-- A cell where a keyword ends points where it pointed. -/
theorem Nodes.NoChild.setEnd {nodes : Nodes} (h : nodes.NoChild) (p : ℕ) (c : UInt8) :
    (nodes.setEnd p c).NoChild := by
  intro q d
  simp only [Nodes.setEnd, Nodes.set]
  by_cases hq : q = p
  · subst hq
    rw [Function.update_self]
    by_cases hd : d = c
    · subst hd
      rw [Function.update_self]
      exact h q d
    · rw [Function.update_of_ne hd]
      exact h q d
  · rw [Function.update_of_ne hq]
    exact h q d

/-- A keyword that is a single byte ends in the root's cell for it. -/
theorem isEnd_setEnd (nodes : Nodes) (c d : UInt8) :
    (nodes.setEnd 0 c 0 d).isEnd = true ↔ d = c ∨ (nodes 0 d).isEnd = true := by
  simp only [Nodes.setEnd, Nodes.set, Function.update_self, Function.update_apply]
  by_cases hd : d = c
  · simp [hd]
  · simp [hd]

/-- Keywords that are single bytes need no node, and each ends in the root's cell for it. -/
theorem insertAll_singletons {ks : List Bytes}
    (hks : ∀ k ∈ ks, 0 ∉ k ∧ k.length = 1) {nodes nodes' : Nodes} {allocs : List ℕ}
    (hnodes : nodes.NoChild) (h : insertAll top words nodes ks = some (nodes', allocs)) :
    allocs = [] ∧ nodes'.NoChild ∧
      ∀ d, (nodes' 0 d).isEnd = true ↔ [d] ∈ ks ∨ (nodes 0 d).isEnd = true := by
  induction ks generalizing nodes allocs with
  | nil =>
    obtain ⟨rfl, rfl⟩ := Prod.mk.inj (Option.some.inj h)
    exact ⟨rfl, hnodes, fun d => by simp⟩
  | cons k ks ih =>
    obtain ⟨hnul, hlen⟩ := hks k List.mem_cons_self
    obtain ⟨c, rfl⟩ := List.length_eq_one_iff.mp hlen
    have hc : c ≠ 0 := fun h0 => hnul (by simp [h0])
    simp only [insertAll, setNodes_singleton nodes hc, if_true] at h
    obtain ⟨⟨nodes'', allocs'⟩, h', heq⟩ := Option.map_eq_some_iff.mp h
    obtain ⟨rfl, rfl⟩ := Prod.mk.inj heq
    obtain ⟨hallocs, hno, hend⟩ :=
      ih (fun k hk => hks k (List.mem_cons_of_mem _ hk)) (hnodes.setEnd 0 c) h'
    refine ⟨by rw [hallocs]; rfl, hno, fun d => ?_⟩
    rw [hend, isEnd_setEnd, List.mem_cons, List.singleton_inj]
    tauto

/-- Where no cell points to a node, the words are single bytes. -/
theorem Nodes.NoChild.spells_iff {nodes : Nodes} (h : nodes.NoChild) (w : Bytes) :
    nodes.Spells 0 w ↔ ∃ c, w = [c] ∧ (nodes 0 c).isEnd = true := by
  match w with
  | [] => simp [Nodes.Spells]
  | [c] => simp [Nodes.Spells]
  | c :: d :: s => simp [Nodes.Spells, h 0 c]

/-- A keyword of two bytes or more needs a node. -/
theorem insertAll_allocs_ne_nil (h0 : words 0 = 0) {ks : List Bytes}
    (hks : ∀ k ∈ ks, k ≠ [] ∧ 0 ∉ k) {k : Bytes} (hk : k ∈ ks) (hlen : k.length ≠ 1)
    {nodes nodes' : Nodes} {allocs : List ℕ} (hnodes : nodes.NoChild)
    (h : insertAll top words nodes ks = some (nodes', allocs)) : allocs ≠ [] := by
  induction ks generalizing nodes allocs with
  | nil => cases hk
  | cons k' ks ih =>
    obtain ⟨hne, hnul⟩ := hks k' List.mem_cons_self
    have hcstr : cstr k' = k' :=
      List.takeWhile_eq_self_iff.mpr fun b hb => by
        simpa using fun hb0 : b = 0 => hnul (hb0 ▸ hb)
    by_cases hlen' : k'.length = 1
    · -- The first keyword needs none, so it is one of the others.
      obtain ⟨c, rfl⟩ := List.length_eq_one_iff.mp hlen'
      have hc : c ≠ 0 := fun hc0 => hnul (by simp [hc0])
      have hk' : k ∈ ks := (List.mem_cons.mp hk).resolve_left (by rintro rfl; exact hlen hlen')
      simp only [insertAll, setNodes_singleton nodes hc, if_true] at h
      obtain ⟨⟨nodes'', allocs'⟩, h', heq⟩ := Option.map_eq_some_iff.mp h
      obtain ⟨rfl, rfl⟩ := Prod.mk.inj heq
      exact ih (fun k hk => hks k (List.mem_cons_of_mem _ hk)) hk' (hnodes.setEnd 0 c) h'
    · have hpos := List.length_pos_iff.mpr hne
      rw [insertAll] at h
      split at h
      case h_1 => cases h
      case h_2 call hcall =>
        have hcallne := setNodes_allocs_ne_nil hnodes h0 (by rw [hcstr]; omega) hcall
        split_ifs at h
        obtain ⟨⟨nodes'', allocs'⟩, -, heq⟩ := Option.map_eq_some_iff.mp h
        obtain ⟨-, rfl⟩ := Prod.mk.inj heq
        exact List.append_ne_nil_of_left_ne_nil hcallne _

/-- Keywords are put into an empty table, with a counter of zero. The table is right for them if and
only if every keyword is a single byte. -/
theorem insertAll_trieOk_iff (top : ℕ) (words : ℕ → ℤ) (h0 : words 0 = 0)
    (ks : List Bytes) (hks : ∀ k ∈ ks, k ≠ [] ∧ 0 ∉ k) (nodes : Nodes) (allocs : List ℕ)
    (h : insertAll top words (fun _ _ => {}) ks = some (nodes, allocs)) :
    TrieOk words ks nodes allocs ↔ ∀ k ∈ ks, k.length = 1 := by
  have hempty : Nodes.NoChild fun _ _ => {} := fun _ _ => rfl
  constructor
  · intro hok
    by_contra hnot
    obtain ⟨k, hk, hlen⟩ : ∃ k ∈ ks, k.length ≠ 1 := by simpa using hnot
    -- A new node is above the counter, which is still zero.
    obtain ⟨a, ha⟩ :=
      List.exists_mem_of_ne_nil _ (insertAll_allocs_ne_nil h0 hks hk hlen hempty h)
    have hle := hok.le_used a ha
    have hne : a ≠ 0 := fun h => hok.nonzero (h ▸ ha)
    omega
  · intro hlen
    obtain ⟨rfl, hno, hend⟩ :=
      insertAll_singletons (fun k hk => ⟨(hks k hk).2, hlen k hk⟩) hempty h
    refine ⟨List.nodup_nil, by simp, by simp, fun p c q d hne _ => absurd (hno p c) hne,
      fun w => ?_⟩
    rw [hno.spells_iff]
    constructor
    · rintro ⟨c, rfl, hc⟩
      simpa using (hend c).mp hc
    · intro hw
      obtain ⟨c, rfl⟩ := List.length_eq_one_iff.mp (hlen w hw)
      exact ⟨c, rfl, (hend c).mpr (.inl hw)⟩

/-- The keywords `"a"` and `"b"` come out right. -/
theorem insertAll_trieOk_iff_ab : ∃ nodes allocs,
    insertAll 2097152 (fun _ => 0) (fun _ _ => {}) [[97], [98]] = some (nodes, allocs) ∧
      TrieOk (fun _ => 0) [[97], [98]] nodes allocs := by
  exact ⟨_, _, rfl, (insertAll_trieOk_iff 2097152 (fun _ => 0) rfl [[97], [98]] (by decide) _ _
    rfl).mpr (by decide)⟩

/-- The keyword `"ab"` does not, when there are zeros behind the counter: the table spells `"b"`
instead. -/
theorem not_trieOk_ab : ∃ nodes allocs,
    insertAll 2097152 (fun _ => 0) (fun _ _ => {}) [[97, 98]] = some (nodes, allocs) ∧
      nodes.Spells 0 [98] ∧ ¬ nodes.Spells 0 [97, 98] ∧
        ¬ TrieOk (fun _ => 0) [[97, 98]] nodes allocs := by
  refine ⟨_, _, rfl, rfl, fun h => absurd rfl h.1, fun h => ?_⟩
  exact h.nonzero (by decide)

end MgCommonUtils.RedisCkw
