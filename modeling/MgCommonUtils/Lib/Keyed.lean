import Mathlib.Data.List.Basic
import Mathlib.Data.List.Perm.Basic
import Mathlib.Logic.Function.Basic

/-!
# Keyed lists

A list whose elements carry a key, read as the finite map from the keys to the elements. Storing an
element overwrites the one with its key where it stands, or appends it (`put`), and removal keeps
the order (`erase`). With distinct keys the map does not depend on the order (`find_perm`).
-/

namespace MgCommonUtils.Lib.Keyed

variable {E K : Type*} [DecidableEq K] (key : E → K)

/-- The keys are distinct. -/
def Distinct (l : List E) : Prop := (l.map key).Nodup

/-- The element with the given key. -/
def find (l : List E) (k : K) : Option E := l.find? fun e => key e = k

/-- The element is stored in the place of those with its key. -/
def overwrite (l : List E) (e : E) : List E := l.map fun x => if key x = key e then e else x

/-- The element is stored: in the place of the one with its key, or else at the end. -/
def put (l : List E) (e : E) : List E :=
  if key e ∈ l.map key then overwrite key l e else l ++ [e]

/-- The elements with another key. -/
def erase (l : List E) (k : K) : List E := l.filter fun e => key e ≠ k

variable {key}

/-! ## What is found -/

/-- What is found is in the list and has the key. -/
theorem of_find {l : List E} {k : K} {e : E} (h : find key l k = some e) : e ∈ l ∧ key e = k := by
  have hkey := List.find?_some h
  exact ⟨List.mem_of_find?_eq_some h, of_decide_eq_true hkey⟩

/-- Nothing is found if and only if the key is not there. -/
theorem find_eq_none {l : List E} {k : K} : find key l k = none ↔ k ∉ l.map key := by
  unfold find
  rw [List.find?_eq_none, List.mem_map]
  constructor
  · rintro h ⟨e, he, hk⟩
    exact h e he (decide_eq_true hk)
  · intro h e he hk
    exact h ⟨e, he, of_decide_eq_true hk⟩

theorem find_cons (x : E) (l : List E) (k : K) :
    find key (x :: l) k = if key x = k then some x else find key l k := by
  unfold find
  rw [List.find?_cons]
  by_cases hk : key x = k
  · simp [hk]
  · simp [hk]

/-- With distinct keys every element is found under its key. -/
theorem find_of_mem {l : List E} (hl : Distinct key l) {e : E} (h : e ∈ l) :
    find key l (key e) = some e := by
  induction l with
  | nil => exact absurd h List.not_mem_nil
  | cons x l ih =>
    obtain ⟨hx, hrest⟩ := List.nodup_cons.mp hl
    rw [find_cons]
    rcases List.mem_cons.mp h with rfl | h
    · exact if_pos rfl
    · have hne : key x ≠ key e := fun heq => hx (heq ▸ List.mem_map_of_mem h)
      rw [if_neg hne]
      exact ih hrest h

/-- With distinct keys the map does not depend on the order. -/
theorem find_perm {l l' : List E} (hl : Distinct key l) (h : l.Perm l') :
    find key l = find key l' := by
  have hl' : Distinct key l' := (h.map key).nodup_iff.mp hl
  funext k
  cases hk : find key l k with
  | some e =>
    obtain ⟨he, rfl⟩ := of_find hk
    exact (find_of_mem hl' (h.mem_iff.mp he)).symm
  | none =>
    rw [find_eq_none, (h.map key).mem_iff] at hk
    exact (find_eq_none.mpr hk).symm

/-! ## Storing -/

/-- Overwriting keeps the keys and their order. -/
@[simp]
theorem map_key_overwrite (l : List E) (e : E) : (overwrite key l e).map key = l.map key := by
  unfold overwrite
  rw [List.map_map]
  refine List.map_congr_left fun x _ => ?_
  dsimp only [Function.comp]
  split
  · rename_i h
    exact h.symm
  · rfl

@[simp]
theorem length_overwrite (l : List E) (e : E) : (overwrite key l e).length = l.length :=
  List.length_map _

/-- The keys after storing: a new one comes to the end. -/
theorem map_key_put (l : List E) (e : E) :
    (put key l e).map key = if key e ∈ l.map key then l.map key else l.map key ++ [key e] := by
  unfold put
  split
  · rw [map_key_overwrite]
  · rw [List.map_append, List.map_singleton]

theorem put_of_mem {l : List E} {e : E} (h : key e ∈ l.map key) :
    put key l e = overwrite key l e := if_pos h

theorem put_of_notMem {l : List E} {e : E} (h : key e ∉ l.map key) :
    put key l e = l ++ [e] := if_neg h

/-- Elements with distinct new keys are stored one after another. -/
theorem foldl_put {l es : List E} (h : Distinct key (l ++ es)) :
    es.foldl (put key) l = l ++ es := by
  induction es generalizing l with
  | nil => exact (List.append_nil l).symm
  | cons e es ih =>
    have hnew : key e ∉ l.map key := by
      rw [Distinct, List.map_append, List.map_cons] at h
      exact fun hmem => (List.nodup_append.mp h).2.2 _ hmem _ List.mem_cons_self rfl
    rw [List.foldl_cons, put_of_notMem hnew, ih (by rwa [List.append_assoc]), List.append_assoc]
    rfl

/-- Storing keeps the keys distinct. -/
theorem Distinct.put {l : List E} (hl : Distinct key l) (e : E) :
    Distinct key (Keyed.put key l e) := by
  unfold Distinct
  rw [map_key_put]
  split
  · exact hl
  · rename_i h
    refine List.nodup_append.mpr ⟨hl, by simp, fun a ha b hb => ?_⟩
    rintro rfl
    exact h (List.mem_singleton.mp hb ▸ ha)

/-- An element whose key is not there overwrites nothing. -/
theorem overwrite_of_notMem {l : List E} {e : E} (h : key e ∉ l.map key) :
    overwrite key l e = l := by
  refine (List.map_congr_left fun x hx => ?_).trans (List.map_id l)
  have hne : key x ≠ key e := fun heq => h (heq ▸ List.mem_map_of_mem hx)
  exact if_neg hne

/-- Overwriting changes what is found under the key and nothing else. -/
theorem find_overwrite {l : List E} {e : E} (h : key e ∈ l.map key) :
    find key (overwrite key l e) = Function.update (find key l) (key e) (some e) := by
  induction l with
  | nil => exact absurd h List.not_mem_nil
  | cons x l ih =>
    have hcons : overwrite key (x :: l) e =
        (if key x = key e then e else x) :: overwrite key l e := rfl
    funext k
    rw [hcons, find_cons]
    by_cases hk : k = key e
    · subst hk
      rw [Function.update_self]
      by_cases hx : key x = key e
      · rw [if_pos hx, if_pos rfl]
      · have hmem := (List.mem_cons.mp h).resolve_left (Ne.symm hx)
        rw [if_neg hx, if_neg hx, ih hmem, Function.update_self]
    · rw [Function.update_of_ne hk, find_cons]
      have hrest : find key (overwrite key l e) k = find key l k := by
        by_cases hmem : key e ∈ l.map key
        · rw [ih hmem, Function.update_of_ne hk]
        · rw [overwrite_of_notMem hmem]
      rw [hrest]
      by_cases hx : key x = key e
      · rw [if_pos hx, if_neg (Ne.symm hk), if_neg (hx ▸ Ne.symm hk)]
      · rw [if_neg hx]

/-- Storing changes what is found under the key and nothing else. -/
theorem find_put (l : List E) (e : E) :
    find key (put key l e) = Function.update (find key l) (key e) (some e) := by
  unfold put
  split
  · rename_i h
    exact find_overwrite h
  · rename_i h
    funext k
    have happ : find key (l ++ [e]) k = (find key l k).or (find key [e] k) :=
      List.find?_append
    rw [happ, find_cons]
    by_cases hk : k = key e
    · subst hk
      rw [Function.update_self, find_eq_none.mpr h, Option.none_or, if_pos rfl]
    · rw [Function.update_of_ne hk, if_neg (Ne.symm hk)]
      exact Option.or_none

/-! ## Removal -/

/-- Removal keeps the keys distinct. -/
theorem Distinct.erase {l : List E} (hl : Distinct key l) (k : K) :
    Distinct key (Keyed.erase key l k) :=
  hl.sublist (List.filter_sublist.map key)

/-- Removal of a key that is not there. -/
theorem erase_of_notMem {l : List E} {k : K} (h : k ∉ l.map key) : erase key l k = l := by
  refine List.filter_eq_self.mpr fun e he => decide_eq_true ?_
  rintro rfl
  exact h (List.mem_map_of_mem he)

/-- Removal of a key that is there. -/
theorem length_erase_lt {l : List E} {k : K} (h : k ∈ l.map key) :
    (erase key l k).length < l.length := by
  obtain ⟨e, he, hk⟩ := List.mem_map.mp h
  exact List.length_filter_lt_length_iff_exists.mpr ⟨e, he, by simpa using hk⟩

end MgCommonUtils.Lib.Keyed
