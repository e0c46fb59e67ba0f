import Mathlib.Logic.Relation
import Mathlib.Order.Bounds.Defs
import MgCommonUtils.RedisCkw.Trie

/-!
# The keyword search

`check_keywords` of `redis-ckw/ckwlib.c` scans the text from every offset (`get_nodes`) and returns
the first offset whose scan comes to a cell where a keyword ends. A scan that has no cell to go on
with does not end. It drops the byte and goes on behind it from node 0. So a scan succeeds if and
only if it is at node 0 at some offset where a keyword begins (`getNodes_eq_one_iff`), which may be
behind the offset where the scan began.

A text that a keyword occurs in is detected (`checkKeywords_nonneg_iff`), as long as the offset fits
into the `int` that is returned. The offset is that of the first keyword if and only if no scan from
an offset before it is at node 0 where a keyword begins (`checkKeywords_eq_iff`).
-/

namespace MgCommonUtils.RedisCkw

open MgCommonUtils.Lib

/-! ## The model -/

/-- The loop of `get_nodes`, at the node `p`. -/
def getNodesLoop (nodes : Nodes) (p : ℕ) : Bytes → ℤ
  | [] => 0
  | c :: s => if (nodes p c).isEnd then 1 else getNodesLoop nodes (nodes p c).point s

/-- `get_nodes`. -/
def getNodes (nodes : Nodes) (s : Bytes) : ℤ := getNodesLoop nodes 0 (cstr s)

/-- The loop of `check_keywords`, at the offset `o`. The result is an `int`. -/
def checkKeywordsLoop (nodes : Nodes) (o : ℕ) : Bytes → ℤ
  | [] => -1
  | c :: s => if getNodes nodes (c :: s) = 1 then toInt32 o else checkKeywordsLoop nodes (o + 1) s

/-- `check_keywords`. -/
def checkKeywords (nodes : Nodes) (s : Bytes) : ℤ := checkKeywordsLoop nodes 0 (cstr s)

/-! ## What is searched for -/

/-- The keywords of a table. -/
def Nodes.keywords (nodes : Nodes) : Set Bytes := {w | nodes.Spells 0 w}

/-- The table is a trie. Nothing below rests on it. -/
structure Nodes.WellFormed (nodes : Nodes) : Prop where
  /-- A node has one parent. -/
  parent : ∀ p c q d, (nodes p c).point ≠ 0 → (nodes p c).point = (nodes q d).point → p = q ∧ c = d
  /-- Every node in use is reachable from node 0. -/
  reachable : ∀ p c, nodes p c ≠ {} →
    Relation.ReflTransGen (fun p q => ∃ c, (nodes p c).point = q ∧ q ≠ 0) 0 p

/-- A keyword begins at an offset of the text. -/
def Nodes.BeginsAt (nodes : Nodes) (s : Bytes) (i : ℕ) : Prop :=
  ∃ w ∈ nodes.keywords, w <+: s.drop i

/-- The node that the bytes lead to. A byte that has no cell leads back to node 0. -/
def Nodes.walk (nodes : Nodes) (p : ℕ) (s : Bytes) : ℕ :=
  s.foldl (fun p c => (nodes p c).point) p

/-- The bytes from offset `i` of the text on lead to node 0 at offset `j`. -/
def Nodes.AtRoot (nodes : Nodes) (s : Bytes) (i j : ℕ) : Prop :=
  i ≤ j ∧ nodes.walk 0 ((s.drop i).take (j - i)) = 0

/-! ## A scan -/

theorem getNodesLoop_cons (nodes : Nodes) (p : ℕ) (c : UInt8) (s : Bytes) :
    getNodesLoop nodes p (c :: s) = 1 ↔
      (nodes p c).isEnd = true ∨ getNodesLoop nodes (nodes p c).point s = 1 := by
  rw [getNodesLoop]
  split_ifs with hend
  · simp [hend]
  · simp [hend]

/-- A word is not empty. -/
theorem Nodes.Spells.ne_nil {nodes : Nodes} {p : ℕ} {w : Bytes} (h : nodes.Spells p w) :
    w ≠ [] := by
  rintro rfl
  exact h

/-- A word that is not a single byte goes on from a child. -/
theorem Nodes.spells_cons {nodes : Nodes} {p : ℕ} {c : UInt8} {w : Bytes} (hw : w ≠ []) :
    nodes.Spells p (c :: w) ↔
      (nodes p c).point ≠ 0 ∧ nodes.Spells (nodes p c).point w := by
  obtain ⟨d, t, rfl⟩ := List.exists_cons_of_ne_nil hw
  exact Iff.rfl

/-- A scan that comes to a word succeeds. -/
theorem getNodesLoop_of_spells {nodes : Nodes} {p : ℕ} {w s : Bytes} (hw : nodes.Spells p w)
    (hs : w <+: s) : getNodesLoop nodes p s = 1 := by
  induction w generalizing p s with
  | nil => exact absurd rfl hw.ne_nil
  | cons c w ih =>
    obtain ⟨t, rfl⟩ := hs
    rw [List.cons_append, getNodesLoop_cons]
    by_cases hnil : w = []
    · subst hnil
      exact .inl hw
    · exact .inr (ih ((Nodes.spells_cons hnil).mp hw).2 (List.prefix_append _ _))

/-- A scan succeeds if and only if a word from its node comes next, or a keyword comes at an offset
where the scan is at node 0. -/
theorem getNodesLoop_eq_one_iff (nodes : Nodes) (p : ℕ) (s : Bytes) :
    getNodesLoop nodes p s = 1 ↔
      (∃ w, nodes.Spells p w ∧ w <+: s) ∨
        ∃ j, nodes.walk p (s.take j) = 0 ∧ nodes.BeginsAt s j := by
  constructor
  · intro h
    induction s generalizing p with
    | nil => cases h
    | cons c s ih =>
      rcases (getNodesLoop_cons nodes p c s).mp h with hend | h
      · exact .inl ⟨[c], hend, by simp⟩
      -- The scan goes on at the child of the byte, or at node 0.
      rcases ih _ h with ⟨w, hw, hpre⟩ | ⟨j, hwalk, hbegin⟩
      · by_cases hpoint : (nodes p c).point = 0
        · rw [hpoint] at hw
          exact .inr ⟨1, by simpa [Nodes.walk] using hpoint, w, hw, hpre⟩
        · exact .inl ⟨c :: w, (Nodes.spells_cons hw.ne_nil).mpr ⟨hpoint, hw⟩,
            (List.prefix_cons_inj c).mpr hpre⟩
      · exact .inr ⟨j + 1, hwalk, hbegin⟩
  · rintro (⟨w, hw, hpre⟩ | ⟨j, hwalk, w, hw, hpre⟩)
    · exact getNodesLoop_of_spells hw hpre
    · -- behind the bytes that lead to node 0 the scan is one from there
      induction s generalizing p j with
      | nil =>
        rw [List.drop_nil, List.prefix_nil] at hpre
        exact absurd hpre (Nodes.Spells.ne_nil hw)
      | cons c s ih =>
        cases j with
        | zero =>
          have hp : p = 0 := hwalk
          rw [hp]
          exact getNodesLoop_of_spells hw hpre
        | succ j => exact (getNodesLoop_cons nodes p c s).mpr (.inr (ih _ j hwalk hpre))

/-- A scan from an offset of the text succeeds if and only if it is at node 0 at an offset where a
keyword begins. -/
theorem getNodes_eq_one_iff (nodes : Nodes) {s : Bytes} (hs : (0 : UInt8) ∉ s) (i : ℕ) :
    getNodes nodes (s.drop i) = 1 ↔ ∃ j, nodes.AtRoot s i j ∧ nodes.BeginsAt s j := by
  have hcstr : cstr (s.drop i) = s.drop i := cstr_eq_self fun h => hs (List.mem_of_mem_drop h)
  rw [getNodes, hcstr, getNodesLoop_eq_one_iff]
  constructor
  · rintro (⟨w, hw, hpre⟩ | ⟨j, hwalk, w, hw, hpre⟩)
    · exact ⟨i, ⟨le_rfl, by simp [Nodes.walk]⟩, w, hw, hpre⟩
    · refine ⟨i + j, ⟨by omega, ?_⟩, w, hw, ?_⟩
      · rwa [Nat.add_sub_cancel_left]
      · rwa [List.drop_drop] at hpre
  · rintro ⟨j, ⟨hij, hwalk⟩, w, hw, hpre⟩
    refine .inr ⟨j - i, hwalk, w, hw, ?_⟩
    rwa [List.drop_drop, Nat.add_sub_cancel' hij]

/-- The scan from an offset where a keyword begins succeeds. -/
theorem getNodes_of_beginsAt {nodes : Nodes} {s : Bytes} (hs : (0 : UInt8) ∉ s) {i : ℕ}
    (h : nodes.BeginsAt s i) : getNodes nodes (s.drop i) = 1 :=
  (getNodes_eq_one_iff nodes hs i).mpr ⟨i, ⟨le_rfl, by simp [Nodes.walk]⟩, h⟩

/-! ## The search -/

/-- The search returns the first offset whose scan succeeds. -/
theorem checkKeywordsLoop_eq_toInt32 {nodes : Nodes} {s : Bytes} {i : ℕ} (o : ℕ)
    (hi : getNodes nodes (s.drop i) = 1) (hlt : i < s.length)
    (hmin : ∀ j < i, getNodes nodes (s.drop j) ≠ 1) :
    checkKeywordsLoop nodes o s = toInt32 (o + i) := by
  induction s generalizing i o with
  | nil => simp at hlt
  | cons c s ih =>
    cases i with
    | zero =>
      rw [List.drop_zero] at hi
      rw [checkKeywordsLoop, if_pos hi, Nat.cast_zero, add_zero]
    | succ i =>
      have hfirst : getNodes nodes (c :: s) ≠ 1 := hmin 0 (Nat.succ_pos i)
      rw [checkKeywordsLoop, if_neg hfirst,
        ih (o + 1) hi (by simpa using hlt) fun j hj => hmin (j + 1) (by omega)]
      congr 1
      push_cast
      ring

/-- It returns -1 when no scan succeeds. -/
theorem checkKeywordsLoop_eq_neg_one {nodes : Nodes} {s : Bytes} (o : ℕ)
    (h : ∀ i < s.length, getNodes nodes (s.drop i) ≠ 1) : checkKeywordsLoop nodes o s = -1 := by
  induction s generalizing o with
  | nil => rfl
  | cons c s ih =>
    have hfirst : getNodes nodes (c :: s) ≠ 1 := h 0 (Nat.succ_pos _)
    rw [checkKeywordsLoop, if_neg hfirst]
    exact ih _ fun i hi => h (i + 1) (by simpa using hi)

/-- A C string has no NUL. -/
theorem zero_notMem_cstr (s : Bytes) : (0 : UInt8) ∉ cstr s := fun h => by
  simpa using List.mem_takeWhile_imp h

/-- What begins at an offset is in the text. -/
theorem Nodes.BeginsAt.lt {nodes : Nodes} {s : Bytes} {i : ℕ} (h : nodes.BeginsAt s i) :
    i < s.length := by
  obtain ⟨w, hw, hpre⟩ := h
  by_contra hle
  rw [List.drop_of_length_le (by omega), List.prefix_nil] at hpre
  exact Nodes.Spells.ne_nil hw hpre

/-- A keyword occurs in the text if and only if it begins at some offset. -/
theorem exists_infix_iff (nodes : Nodes) (s : Bytes) :
    (∃ w ∈ nodes.keywords, w <:+: s) ↔ ∃ i, nodes.BeginsAt s i := by
  constructor
  · rintro ⟨w, hw, a, b, rfl⟩
    refine ⟨a.length, w, hw, ?_⟩
    rw [List.append_assoc, List.drop_left]
    exact List.prefix_append _ _
  · rintro ⟨i, w, hw, hpre⟩
    exact ⟨w, hw, hpre.isInfix.trans (List.drop_suffix i s).isInfix⟩

/-- The first offset whose scan succeeds. -/
theorem exists_first {nodes : Nodes} {s : Bytes} (h : ∃ i, getNodes nodes (s.drop i) = 1) :
    ∃ i, getNodes nodes (s.drop i) = 1 ∧ ∀ j < i, getNodes nodes (s.drop j) ≠ 1 := by
  classical
  exact ⟨Nat.find h, Nat.find_spec h, fun j hj => Nat.find_min h hj⟩

/-- A scan that succeeds starts in the text. -/
theorem lt_of_getNodes {nodes : Nodes} {s : Bytes} {i : ℕ}
    (h : getNodes nodes (s.drop i) = 1) : i < s.length := by
  by_contra hle
  rw [List.drop_of_length_le (by omega)] at h
  cases h

/-- The value of an `int` is not above the number it is made of. -/
theorem toInt32_natCast_le (n : ℕ) : toInt32 n ≤ n := by
  rw [toInt32, Int.bmod_def]
  split_ifs
  · omega
  · omega

/-- In a text of at most `2 ^ 31` bytes, the search returns no negative value if and only if a
keyword occurs in the text. -/
theorem checkKeywords_nonneg_iff (nodes : Nodes) (s : Bytes) (hlen : (cstr s).length ≤ 2^31) :
    0 ≤ checkKeywords nodes s ↔ ∃ w ∈ nodes.keywords, w <:+: cstr s := by
  have hnul := zero_notMem_cstr s
  rw [exists_infix_iff, checkKeywords]
  by_cases hsome : ∃ i, getNodes nodes ((cstr s).drop i) = 1
  · obtain ⟨i, hi, hmin⟩ := exists_first hsome
    have hlt := lt_of_getNodes hi
    obtain ⟨j, -, hbegin⟩ := (getNodes_eq_one_iff nodes hnul i).mp hi
    -- The offset is below `2 ^ 31`, so the `int` is the offset.
    rw [checkKeywordsLoop_eq_toInt32 0 hi hlt hmin,
      toInt32_of_range (by push_cast; omega) (by push_cast; omega)]
    exact iff_of_true (by positivity) ⟨j, hbegin⟩
  · have hnone : ∀ i, ¬nodes.BeginsAt (cstr s) i := fun i h =>
      hsome ⟨i, getNodes_of_beginsAt hnul h⟩
    rw [checkKeywordsLoop_eq_neg_one 0 fun i _ h => hsome ⟨i, h⟩]
    exact iff_of_false (by decide) fun ⟨i, h⟩ => hnone i h

/-- The table of the keyword `"ab"`. -/
def abNodes : Nodes := fun p c =>
  if p = 0 ∧ c = 97 then { point := 1 } else if p = 1 ∧ c = 98 then { isEnd := true } else {}

/-- It is a trie. -/
theorem wellFormed_abNodes : abNodes.WellFormed where
  parent p c q d hne heq := by
    simp only [abNodes] at hne heq
    split_ifs at hne heq <;> simp_all
  reachable p c hne := by
    simp only [abNodes] at hne
    split_ifs at hne with h0 h1
    · exact h0.1 ▸ .refl
    · exact h1.1 ▸ .single ⟨97, rfl, by decide⟩
    · exact absurd rfl hne

/-- It is the keyword of its table. -/
theorem mem_keywords_abNodes : [97, 98] ∈ abNodes.keywords := ⟨by decide, rfl⟩

/-- It is found in `"cab"`. -/
theorem checkKeywords_nonneg_cab :
    0 ≤ checkKeywords abNodes [99, 97, 98] ↔ ∃ w ∈ abNodes.keywords, w <:+: cstr [99, 97, 98] :=
  checkKeywords_nonneg_iff abNodes [99, 97, 98] (by decide)

/-- The table of the keywords `"a"` and `"bad"`. -/
def badNodes : Nodes := fun p c =>
  if p = 0 ∧ c = 97 then { isEnd := true }
  else if p = 0 ∧ c = 98 then { point := 1 }
  else if p = 1 ∧ c = 97 then { point := 2 }
  else if p = 2 ∧ c = 100 then { isEnd := true }
  else {}

/-- It is a trie. -/
theorem wellFormed_badNodes : badNodes.WellFormed where
  parent p c q d hne heq := by
    simp only [badNodes] at hne heq
    split_ifs at hne heq <;> simp_all
  reachable p c hne := by
    have hone : Relation.ReflTransGen
        (fun p q => ∃ c, (badNodes p c).point = q ∧ q ≠ 0) 0 1 := .single ⟨98, rfl, by decide⟩
    simp only [badNodes] at hne
    split_ifs at hne with h0 h1 h2 h3
    · exact h0.1 ▸ .refl
    · exact h1.1 ▸ .refl
    · exact h2.1 ▸ hone
    · exact h3.1 ▸ hone.tail ⟨97, rfl, by decide⟩
    · exact absurd rfl hne

/-- `n` bytes `'x'`, and `"ba"`. -/
def xText (n : ℕ) : Bytes := List.replicate n 120 ++ [98, 97]

/-- The bytes `'x'` lead to node 0. -/
theorem getNodesLoop_replicate (n : ℕ) (s : Bytes) :
    getNodesLoop badNodes 0 (List.replicate n 120 ++ s) = getNodesLoop badNodes 0 s := by
  induction n with
  | zero => rfl
  | succ n ih => exact ih

/-- The text is a C string. -/
theorem zero_notMem_xText (n : ℕ) : (0 : UInt8) ∉ xText n := by
  intro h
  rcases List.mem_append.mp h with h | h
  · exact absurd (List.eq_of_mem_replicate h) (by decide)
  · exact absurd h (by decide)

/-- Its last byte is the keyword `"a"`. -/
theorem drop_xText (n : ℕ) : (xText n).drop (n + 1) = [97] := by
  rw [xText, List.drop_append, List.length_replicate, Nat.add_sub_cancel_left,
    List.drop_of_length_le (by rw [List.length_replicate]; exact n.le_succ)]
  rfl

/-- A scan that begins before goes past it on the way to `"bad"`. -/
theorem checkKeywords_xText (n : ℕ) : checkKeywords badNodes (xText n) = toInt32 (n + 1) := by
  have hnul := zero_notMem_xText n
  have hscan : ∀ i, getNodes badNodes ((xText n).drop i) =
      getNodesLoop badNodes 0 ((xText n).drop i) := fun i => by
    rw [getNodes, cstr_eq_self fun h => hnul (List.mem_of_mem_drop h)]
  have hlast : getNodes badNodes ((xText n).drop (n + 1)) = 1 := by
    rw [hscan, drop_xText]
    rfl
  have hmiss : ∀ j < n + 1, getNodes badNodes ((xText n).drop j) ≠ 1 := by
    intro j hj
    have hdrop : (xText n).drop j = List.replicate (n - j) 120 ++ [98, 97] := by
      rw [xText, List.drop_append_of_le_length (by rw [List.length_replicate]; omega),
        List.drop_replicate]
    rw [hscan, hdrop, getNodesLoop_replicate]
    decide
  rw [checkKeywords, cstr_eq_self hnul,
    checkKeywordsLoop_eq_toInt32 0 hlast (lt_of_getNodes hlast) hmiss]
  congr 1
  push_cast
  ring

/-- The keyword `"a"` is found at the offset `2 ^ 31`, which is negative as an `int`. -/
theorem not_checkKeywords_nonneg : badNodes.WellFormed ∧
    (∃ w ∈ badNodes.keywords, w <:+: cstr (xText 2147483647)) ∧
      ¬0 ≤ checkKeywords badNodes (xText 2147483647) := by
  refine ⟨wellFormed_badNodes, ⟨[97], rfl, ?_⟩, ?_⟩
  · rw [cstr_eq_self (zero_notMem_xText _), ← drop_xText 2147483647]
    exact (List.drop_suffix _ _).isInfix
  · rw [checkKeywords_xText]
    decide

/-- Where a keyword begins first at the offset `m`, the search returns `m` if and only if no scan
from an offset before is at node 0 where a keyword begins, and `m` is in the range of `int`. -/
theorem checkKeywords_eq_iff (nodes : Nodes) (s : Bytes) {m : ℕ}
    (hm : IsLeast {i | nodes.BeginsAt (cstr s) i} m) :
    checkKeywords nodes s = m ↔
      (∀ i j, i < m → nodes.AtRoot (cstr s) i j → ¬nodes.BeginsAt (cstr s) j) ∧ m < 2^31 := by
  have hnul := zero_notMem_cstr s
  obtain ⟨i, hi, hmin⟩ := exists_first ⟨m, getNodes_of_beginsAt hnul hm.1⟩
  have hle : i ≤ m := by
    by_contra hlt
    exact hmin m (not_le.mp hlt) (getNodes_of_beginsAt hnul hm.1)
  have heq : checkKeywords nodes s = toInt32 i := by
    have := checkKeywordsLoop_eq_toInt32 0 hi (lt_of_getNodes hi) hmin
    rwa [Nat.cast_zero, zero_add] at this
  -- No scan from an offset before succeeds if and only if the first one that does is that from `m`.
  have hfirst : (∀ i j, i < m → nodes.AtRoot (cstr s) i j → ¬nodes.BeginsAt (cstr s) j) ↔
      i = m := by
    constructor
    · intro h
      by_contra hne
      obtain ⟨j, hroot, hbegin⟩ := (getNodes_eq_one_iff nodes hnul i).mp hi
      exact h i j (by omega) hroot hbegin
    · rintro rfl k j hk hroot hbegin
      exact hmin k hk ((getNodes_eq_one_iff nodes hnul k).mpr ⟨j, hroot, hbegin⟩)
  rw [heq, hfirst]
  constructor
  · intro h
    have hlow := toInt32_natCast_le i
    have hup : toInt32 i < 2^31 := Int.bmod_lt (by norm_num)
    omega
  · rintro ⟨rfl, hlt⟩
    exact toInt32_of_range (by omega) (by omega)

/-- A keyword that begins nowhere before. -/
theorem isLeast_beginsAt {nodes : Nodes} {s : Bytes} {m : ℕ} (hs : (0 : UInt8) ∉ s)
    (hm : nodes.BeginsAt s m) (hmin : ∀ i < m, getNodes nodes (s.drop i) ≠ 1) :
    IsLeast {i | nodes.BeginsAt s i} m :=
  ⟨hm, fun i hi => not_lt.mp fun hlt => hmin i hlt (getNodes_of_beginsAt hs hi)⟩

/-- In `"aab"` the keyword `"ab"` is found where it begins. -/
theorem checkKeywords_eq_iff_aab : checkKeywords abNodes [97, 97, 98] = (1 : ℕ) ↔
    (∀ i j, i < 1 → abNodes.AtRoot (cstr [97, 97, 98]) i j →
      ¬abNodes.BeginsAt (cstr [97, 97, 98]) j) ∧ 1 < 2^31 :=
  checkKeywords_eq_iff abNodes [97, 97, 98]
    (isLeast_beginsAt (by decide) ⟨[97, 98], mem_keywords_abNodes, by decide⟩ (by decide))

/-- In `"cab"` it is found at the offset 0, and begins at the offset 1. -/
theorem checkKeywords_cab : abNodes.WellFormed ∧
    IsLeast {i | abNodes.BeginsAt (cstr [99, 97, 98]) i} 1 ∧
      checkKeywords abNodes [99, 97, 98] = 0 := by
  refine ⟨wellFormed_abNodes, ⟨⟨[97, 98], mem_keywords_abNodes, by decide⟩, fun i hi => ?_⟩,
    by decide⟩
  -- A keyword that began at the offset 0 would begin with `'c'`.
  refine Nat.one_le_iff_ne_zero.mpr ?_
  rintro rfl
  obtain ⟨w, hw, hpre⟩ := hi
  obtain ⟨c, t, rfl⟩ := List.exists_cons_of_ne_nil (Nodes.Spells.ne_nil hw)
  obtain ⟨rfl, -⟩ := List.cons_prefix_cons.mp hpre
  cases t with
  | nil =>
    have hend : (abNodes 0 99).isEnd = true := hw
    exact absurd hend (by decide)
  | cons d t => exact absurd hw.1 (by decide)

end MgCommonUtils.RedisCkw
