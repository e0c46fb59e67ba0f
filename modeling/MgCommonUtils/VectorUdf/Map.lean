import MgCommonUtils.VectorUdf.Vector

/-!
# Vectors as finite maps

A vector stands for a finite map from members to scores (`bindings`), and `zadd` for storing in it,
as long as there is room (`vector_refines_map`). `zrem` stands for removal, and keeps the order of
the objects, unless the vector is full and holds the member (`zrem_removes_iff`): it asks for room
for one more object, as `zadd` does, and a full vector has none.
-/

namespace MgCommonUtils.VectorUdf

open MgCommonUtils.Lib

/-- The members of a vector, in its order. -/
def members (data : Bytes) : List UInt32 := (objects data).map Object.member

/-- The finite map that a vector stands for: the score of a member. -/
def bindings (data : Bytes) (m : UInt32) : Option UInt32 :=
  (Keyed.find Object.member (objects data) m).map Object.score

/-- The conversion of an argument that `zadd_init` or `zrem_init` accepts. -/
@[simp]
theorem ofInt_toNat (x : UInt32) : UInt32.ofInt x.toNat = x := by
  have hx := x.toNat_lt
  have hmod : ((x.toNat : ℤ) % 2^32).toNat = x.toNat := by omega
  rw [UInt32.ofInt, hmod, UInt32.ofNat_toNat]

/-- `zadd` stores the score of the member, or drops it when the vector is full. -/
theorem IsVector.bindings_zadd {data : Bytes} (h : IsVector data) (qsort : Qsort Object)
    (m s : UInt32) : bindings (VectorUdf.zadd qsort data m.toNat s.toNat) =
      if m ∈ members data ∨ (members data).length < 2048 then
        Function.update (bindings data) m (some s) else bindings data := by
  have hdistinct := distinct_stored h.distinct ⟨m, s⟩
  have hfind : Keyed.find Object.member
      (objects (VectorUdf.zadd qsort data m.toNat s.toNat)) =
        Keyed.find Object.member (stored (objects data) ⟨m, s⟩) := by
    rw [h.zadd_eq, objects_bytesOf, ofInt_toNat, ofInt_toNat]
    exact (Keyed.find_perm hdistinct (qsort.perm _ _).symm).symm
  funext k
  unfold bindings members
  rw [hfind, List.length_map]
  unfold stored
  dsimp only
  split
  · rw [Keyed.find_put]
    by_cases hk : k = m
    · rw [hk, Function.update_self, Function.update_self]
      rfl
    · rw [Function.update_of_ne hk, Function.update_of_ne hk]
  · rfl

/-- Every vector reached is well formed and `zcard` counts its members, and `zadd` stores the score
of a member: all other bindings stay, and a new member is dropped when there are 2048. -/
theorem vector_refines_map (qsort : Qsort Object) {data : Bytes}
    (h : (vector qsort).Reachable data) :
    (data.length % 8 = 0 ∧ data.length ≤ 16384 ∧ (members data).Nodup ∧
      zcard data = (members data).length) ∧
    ∀ m s : UInt32, bindings (zadd qsort data m.toNat s.toNat) =
      if m ∈ members data ∨ (members data).length < 2048 then
        Function.update (bindings data) m (some s) else bindings data := by
  have hdata := isVector_of_reach h
  refine ⟨⟨hdata.whole, hdata.fits, hdata.distinct, ?_⟩, hdata.bindings_zadd qsort⟩
  rw [hdata.zcard_eq, members, List.length_map]

/-- An accepted call is a step. -/
theorem reachable_zadd {qsort : Qsort Object} {data : Bytes} (h : (vector qsort).Reachable data)
    (m s : UInt32) : (vector qsort).Reachable (zadd qsort data m.toNat s.toNat) := by
  have hm := m.toNat_lt
  have hs := s.toNat_lt
  have hinit : zaddInit [.string data, .int m.toNat, .int s.toNat] = .ok () := by
    rw [zaddInit, if_neg (by omega)]
  refine h.step trivial (a := .zadd m.toNat s.toNat) ?_
  simp only [vector, select, hinit]
  rfl

/-- After one call of `zadd` on the empty blob. -/
theorem vector_refines_map_singleton :
    ((zadd insertionSort [] 7 5).length % 8 = 0 ∧ (zadd insertionSort [] 7 5).length ≤ 16384 ∧
      (members (zadd insertionSort [] 7 5)).Nodup ∧
      zcard (zadd insertionSort [] 7 5) = (members (zadd insertionSort [] 7 5)).length) ∧
    ∀ m s : UInt32, bindings (zadd insertionSort (zadd insertionSort [] 7 5) m.toNat s.toNat) =
      if m ∈ members (zadd insertionSort [] 7 5) ∨
          (members (zadd insertionSort [] 7 5)).length < 2048 then
        Function.update (bindings (zadd insertionSort [] 7 5)) m (some s)
      else bindings (zadd insertionSort [] 7 5) :=
  vector_refines_map insertionSort (reachable_zadd (.init rfl) 7 5)

/-! ## Removal -/

/-- `zrem` on a vector that is not full, or that does not hold the member. -/
theorem IsVector.zrem_removes {data : Bytes} (h : IsVector data) {m : UInt32}
    (hm : data.length < maxVectorLen ∨ m ∉ members data) :
    VectorUdf.zrem data m.toNat = bytesOf ((objects data).filter fun o => o.member ≠ m) := by
  rw [h.zrem_eq, ofInt_toNat]
  split
  · rfl
  · rename_i hfull
    have hout : m ∉ (objects data).map Object.member := hm.resolve_left hfull
    have herase : ((objects data).filter fun o => o.member ≠ m) = objects data :=
      Keyed.erase_of_notMem hout
    rw [herase, bytesOf_objects h.whole]

/-- `zrem` on a full vector that holds the member returns the vector. -/
theorem IsVector.zrem_full {data : Bytes} (h : IsVector data) {m : UInt32}
    (hfull : ¬data.length < maxVectorLen) (hm : m ∈ members data) :
    VectorUdf.zrem data m.toNat = data ∧
      VectorUdf.zrem data m.toNat ≠ bytesOf ((objects data).filter fun o => o.member ≠ m) := by
  have hsame : VectorUdf.zrem data m.toNat = data := by
    rw [h.zrem_eq, if_neg hfull]
  refine ⟨hsame, ?_⟩
  rw [hsame]
  intro heq
  have hlt : ((objects data).filter fun o => o.member ≠ m).length < (objects data).length :=
    Keyed.length_erase_lt hm
  have hlen := congrArg List.length heq
  rw [length_bytesOf, h.length_eq] at hlen
  omega

/-- `zrem` returns the objects with another member, in their order, if and only if the vector is not
full or does not hold the member. -/
theorem zrem_removes_iff (qsort : Qsort Object) {data : Bytes} (h : (vector qsort).Reachable data)
    (m : UInt32) :
    zrem data m.toNat = bytesOf ((objects data).filter fun o => o.member ≠ m) ↔
      data.length < maxVectorLen ∨ m ∉ members data := by
  have hdata := isVector_of_reach h
  constructor
  · intro hzrem
    by_contra hor
    rw [not_or, not_not] at hor
    exact (hdata.zrem_full hor.1 hor.2).2 hzrem
  · exact hdata.zrem_removes

/-- Removal of the only member. -/
theorem zrem_removes_singleton :
    zrem (zadd insertionSort [] 7 5) 7 = bytesOf ((objects (zadd insertionSort [] 7 5)).filter
      fun o => o.member ≠ 7) ↔ (zadd insertionSort [] 7 5).length < maxVectorLen ∨
        7 ∉ members (zadd insertionSort [] 7 5) :=
  zrem_removes_iff insertionSort (reachable_zadd (.init rfl) 7 5) 7

/-- The vector of the first `n` members, each with the score 0. -/
def fill (qsort : Qsort Object) : ℕ → Bytes
  | 0 => []
  | n + 1 => zadd qsort (fill qsort n) (UInt32.ofNat n).toNat (0 : UInt32).toNat

/-- It is reached, and holds those members, as long as there is room. -/
theorem fill_spec (qsort : Qsort Object) {n : ℕ} (hn : n ≤ 2048) :
    (vector qsort).Reachable (fill qsort n) ∧ (members (fill qsort n)).length = n ∧
      ∀ m : UInt32, m ∈ members (fill qsort n) ↔ m.toNat < n := by
  induction n with
  | zero => exact ⟨.init rfl, rfl, fun m => by simp [fill, members, objects]⟩
  | succ n ih =>
    obtain ⟨hreach, hlen, hmem⟩ := ih (by omega)
    have hdata := isVector_of_reach hreach
    have hn32 : (UInt32.ofNat n).toNat = n := by
      rw [UInt32.toNat_ofNat', Nat.mod_eq_of_lt (by omega)]
    have hnew : UInt32.ofNat n ∉ (objects (fill qsort n)).map Object.member := by
      intro h
      have := (hmem _).mp h
      omega
    have hperm :
        (members (fill qsort (n + 1))).Perm (members (fill qsort n) ++ [UInt32.ofNat n]) := by
      have hroom : (objects (fill qsort n)).length < 2048 := by
        have := hlen
        rw [members, List.length_map] at this
        omega
      unfold members
      rw [fill, hdata.zadd_eq, objects_bytesOf, ofInt_toNat, ofInt_toNat, stored,
        if_pos (.inr hroom), Keyed.put_of_notMem hnew]
      refine ((qsort.perm _ _).map _).trans ?_
      rw [List.map_append]
      exact .refl _
    refine ⟨reachable_zadd hreach _ _, ?_, fun m => ?_⟩
    · rw [hperm.length_eq, List.length_append, hlen, List.length_singleton]
    · rw [hperm.mem_iff, List.mem_append, hmem, List.mem_singleton, ← UInt32.toNat_inj, hn32]
      omega

/-- A full vector is reached from which `zrem` does not remove a member. -/
theorem zrem_full_keeps_member :
    ∃ data, (vector insertionSort).Reachable data ∧ 7 ∈ members data ∧
      zrem data (7 : UInt32).toNat = data ∧
      zrem data (7 : UInt32).toNat ≠ bytesOf ((objects data).filter fun o => o.member ≠ 7) := by
  obtain ⟨hreach, hlen, hmem⟩ := fill_spec insertionSort (n := 2048) le_rfl
  have hdata := isVector_of_reach hreach
  have hfull : ¬(fill insertionSort 2048).length < maxVectorLen := by
    have := hdata.length_eq
    rw [members, List.length_map] at hlen
    rw [maxVectorLen]
    omega
  have h7 : 7 ∈ members (fill insertionSort 2048) := (hmem 7).mpr (by decide)
  exact ⟨_, hreach, h7, hdata.zrem_full hfull h7⟩

end MgCommonUtils.VectorUdf
