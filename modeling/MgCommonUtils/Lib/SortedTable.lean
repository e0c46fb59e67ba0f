import Mathlib.Data.List.TakeWhile
import Mathlib.Order.Lattice
import Mathlib.Tactic

/-!
# Tables ordered by their key

A table with one row for a key, in the order of the keys, and a cursor that is moved over it: to the
first row from a key on (`seekGe`), and to the next row. A cursor is the rows from where it stands.

`isSucc_iff` answers when the row behind the first row from a key on is the first row behind the
key: if the key has a row, or there is no row behind it.
-/

namespace MgCommonUtils.Lib

/-- A table ordered by its key. -/
structure SortedTable (κ ν : Type*) [LinearOrder κ] where
  /-- The rows. -/
  rows : List (κ × ν)
  /-- They are in the order of their keys, and no two have the same key. -/
  sorted : rows.Pairwise fun r r' => r.1 < r'.1

namespace SortedTable

variable {κ ν : Type*} [LinearOrder κ]

/-- A table without rows. -/
def empty : SortedTable κ ν := ⟨[], .nil⟩

/-- The cursor at the first row from a key on. -/
def seekGe (t : SortedTable κ ν) (k : κ) : List (κ × ν) := t.rows.dropWhile fun r => r.1 < k

/-- The key has a row. -/
def HasKey (t : SortedTable κ ν) (k : κ) : Prop := ∃ r ∈ t.rows, r.1 = k

/-- The first row behind a key, or none if there is no such row. -/
def IsSucc (t : SortedTable κ ν) (k : κ) : Option (κ × ν) → Prop
  | none => ∀ r ∈ t.rows, r.1 ≤ k
  | some r => r ∈ t.rows ∧ k < r.1 ∧ ∀ r' ∈ t.rows, k < r'.1 → r.1 ≤ r'.1

/-- The rows before the cursor, and the rows from it on. -/
theorem takeWhile_append_seekGe (t : SortedTable κ ν) (k : κ) :
    (t.rows.takeWhile fun r => r.1 < k) ++ t.seekGe k = t.rows := List.takeWhile_append_dropWhile

/-- The cursor stands on the rows from the key on. -/
theorem mem_seekGe {t : SortedTable κ ν} {k : κ} {r : κ × ν} :
    r ∈ t.seekGe k ↔ r ∈ t.rows ∧ k ≤ r.1 := by
  have hsplit := t.takeWhile_append_seekGe k
  constructor
  · intro hr
    refine ⟨hsplit ▸ List.mem_append_right _ hr, ?_⟩
    -- The first row of the cursor is not before the key, and the others are behind it.
    cases hseek : t.seekGe k with
    | nil => simp [hseek] at hr
    | cons first rest =>
      have hfirst : k ≤ first.1 := by
        have hhead := List.head?_dropWhile_not (fun r : κ × ν => decide (r.1 < k)) t.rows
        rw [show t.rows.dropWhile (fun r => decide (r.1 < k)) = first :: rest from hseek] at hhead
        exact not_lt.mp (of_decide_eq_false hhead)
      have hsorted : (first :: rest).Pairwise fun r r' => r.1 < r'.1 := by
        rw [← hseek]
        exact t.sorted.sublist (List.dropWhile_sublist _)
      rw [hseek] at hr
      rcases List.mem_cons.mp hr with rfl | hr
      · exact hfirst
      · exact hfirst.trans (List.rel_of_pairwise_cons hsorted hr).le
  · rintro ⟨hr, hk⟩
    rw [← hsplit, List.mem_append] at hr
    refine hr.resolve_left fun hr => ?_
    have hlt := List.mem_takeWhile_imp hr
    exact absurd (of_decide_eq_true hlt) (not_lt.mpr hk)

/-- The rows from the cursor on are in order. -/
theorem pairwise_seekGe (t : SortedTable κ ν) (k : κ) :
    (t.seekGe k).Pairwise fun r r' => r.1 < r'.1 := t.sorted.sublist (List.dropWhile_sublist _)

/-- A row is inserted in its place, unless its key has one. -/
def insert (t : SortedTable κ ν) (k : κ) (v : ν) : Option (SortedTable κ ν) :=
  if h : ∃ r ∈ t.rows, r.1 = k then none
  else some
    { rows := (t.rows.takeWhile fun r => r.1 < k) ++ (k, v) :: t.seekGe k
      sorted := by
        refine List.pairwise_append.mpr ⟨t.sorted.sublist (List.takeWhile_sublist _), ?_, ?_⟩
        · refine List.pairwise_cons.mpr ⟨fun r hr => ?_, t.pairwise_seekGe k⟩
          obtain ⟨hr, hk⟩ := mem_seekGe.mp hr
          exact lt_of_le_of_ne hk fun heq => h ⟨r, hr, heq.symm⟩
        · intro r hr r' hr'
          have htrue := List.mem_takeWhile_imp hr
          have hlt : r.1 < k := of_decide_eq_true htrue
          rcases List.mem_cons.mp hr' with rfl | hr'
          · exact hlt
          · exact lt_of_lt_of_le hlt (mem_seekGe.mp hr').2 }

/-- A row is not inserted if and only if its key has one. -/
theorem insert_eq_none {t : SortedTable κ ν} {k : κ} {v : ν} :
    t.insert k v = none ↔ t.HasKey k := by
  rw [insert]
  split_ifs with h
  · exact iff_of_true rfl h
  · exact iff_of_false not_false h

/-- The rows after an insertion. -/
theorem mem_insert {t t' : SortedTable κ ν} {k : κ} {v : ν} (h : t.insert k v = some t')
    {r : κ × ν} : r ∈ t'.rows ↔ r = (k, v) ∨ r ∈ t.rows := by
  rw [insert] at h
  split_ifs at h with hk
  obtain rfl := Option.some.inj h
  have hold : r ∈ t.rows ↔ r ∈ (t.rows.takeWhile fun r => r.1 < k) ∨ r ∈ t.seekGe k := by
    rw [← List.mem_append, t.takeWhile_append_seekGe]
  rw [hold]
  simp only [List.mem_append, List.mem_cons]
  tauto

/-- The cursor from a key on stands on the row of the key if there is one, and the row behind it is
the first row behind the key. -/
theorem isSucc_of_hasKey {t : SortedTable κ ν} {k : κ} (h : t.HasKey k) :
    t.IsSucc k (t.seekGe k).tail.head? := by
  obtain ⟨r, hr, hrk⟩ := h
  have hmem : r ∈ t.seekGe k := mem_seekGe.mpr ⟨hr, hrk.ge⟩
  have hsorted := t.pairwise_seekGe k
  cases hseek : t.seekGe k with
  | nil => simp [hseek] at hmem
  | cons first rest =>
    rw [hseek] at hmem hsorted
    have hbehind (r' : κ × ν) (hr' : r' ∈ rest) : first.1 < r'.1 :=
      List.rel_of_pairwise_cons hsorted hr'
    have hfirst : first.1 = k := by
      have hle : k ≤ first.1 := (mem_seekGe.mp (hseek ▸ List.mem_cons_self)).2
      rcases List.mem_cons.mp hmem with rfl | hin
      · exact hrk
      · exact absurd (hbehind r hin) (not_lt.mpr (hrk.trans_le hle))
    -- What is behind the key is in the rest.
    have hrest (r' : κ × ν) (hr' : r' ∈ t.rows) (hlt : k < r'.1) : r' ∈ rest := by
      have hin : r' ∈ first :: rest := hseek ▸ mem_seekGe.mpr ⟨hr', hlt.le⟩
      rcases List.mem_cons.mp hin with rfl | hin
      · exact absurd hfirst hlt.ne'
      · exact hin
    cases rest with
    | nil =>
      intro r' hr'
      exact not_lt.mp fun hlt => List.not_mem_nil (hrest r' hr' hlt)
    | cons next rest =>
      refine ⟨?_, hfirst ▸ hbehind next List.mem_cons_self, fun r' hr' hlt => ?_⟩
      · exact (mem_seekGe.mp (hseek ▸ List.mem_cons_of_mem _ List.mem_cons_self)).1
      · rcases List.mem_cons.mp (hrest r' hr' hlt) with rfl | hin
        · exact le_rfl
        · exact (List.rel_of_pairwise_cons hsorted.of_cons hin).le

/-- The row behind the cursor from a key on is the first row behind the key, if and only if the key
has a row or there is no row behind it. -/
theorem isSucc_iff (t : SortedTable κ ν) (k : κ) :
    t.IsSucc k (t.seekGe k).tail.head? ↔ t.HasKey k ∨ ∀ r ∈ t.rows, r.1 ≤ k := by
  by_cases hkey : t.HasKey k
  · exact iff_of_true (isSucc_of_hasKey hkey) (Or.inl hkey)
  cases hseek : t.seekGe k with
  | nil =>
    have hnone : ∀ r ∈ t.rows, r.1 ≤ k := by
      intro r hr
      refine not_lt.mp fun hlt => ?_
      have hmem : r ∈ t.seekGe k := mem_seekGe.mpr ⟨hr, hlt.le⟩
      simp [hseek] at hmem
    exact iff_of_true hnone (Or.inr hnone)
  | cons first rest =>
    -- The cursor stands on the first row behind the key already, and leaves it.
    obtain ⟨hfirst, hle⟩ := mem_seekGe.mp (hseek ▸ List.mem_cons_self : first ∈ t.seekGe k)
    have hlt : k < first.1 := lt_of_le_of_ne hle fun heq => hkey ⟨first, hfirst, heq.symm⟩
    refine iff_of_false ?_ ?_
    · intro hsucc
      cases rest with
      | nil => exact absurd (hsucc first hfirst) (not_le.mpr hlt)
      | cons next rest =>
        have hsorted := t.pairwise_seekGe k
        rw [hseek] at hsorted
        have hnext : first.1 < next.1 := List.rel_of_pairwise_cons hsorted List.mem_cons_self
        exact absurd (hsucc.2.2 first hfirst hlt) (not_le.mpr hnext)
    · rintro (h | h)
      · exact hkey h
      · exact absurd (h first hfirst) (not_le.mpr hlt)

end SortedTable

end MgCommonUtils.Lib
