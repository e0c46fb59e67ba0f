import MgCommonUtils.VectorUdf.Map

/-!
# The order of a vector

`zadd` sorts with `object_cmp`, which returns the difference of two unsigned scores as an `int`. It
agrees with the order of the scores if and only if they are less than `2 ^ 31` apart
(`objectCmp_agrees_iff`). So the vector stays in the order of its scores, and `zrange` returns the
ranks that it is asked for, in every run in which the scores of the vector are that close to each
other whenever `zadd` sorts (`ordered_of_close`).
-/

namespace MgCommonUtils.VectorUdf

open MgCommonUtils.Lib

/-! ## `zrange` -/

/-- `zrange_init`, with its message for arguments that it does not accept. -/
def zrangeInit : List Arg → Except String Unit
  | [.string _, .int start, .int stop] =>
    if start < 0 ∨ start > 2000 ∨ stop < 0 ∨ stop > 2000 then
      .error "Usage: member and score must a number between 0 and 2000"
    else .ok ()
  | [_, _, _] => .error "Usage: select zrange(string,int,int)."
  | _ => .error "Usage: select zrange(data,start,stop)."

/-- `"[%u,%u]"`. -/
def Object.text (o : Object) : Bytes :=
  [91] ++ decimal o.member.toNat ++ [44] ++ decimal o.score.toNat ++ [93]

/-- The loop of `zrange`. The array has `stop` objects at least. -/
def rangeLoop (objs : List Object) (i stop : ℕ) : Bytes :=
  if i < stop then
    ((objs[i]?).map Object.text).getD [] ++ (if stop - i ≠ 1 then [44] else []) ++
      rangeLoop objs (i + 1) stop
  else []
termination_by stop - i

/-- `zrange`, or none for `NULL`. -/
def zrange (data : Bytes) (start stop : ℤ) : Option Bytes :=
  let len := data.length
  if len > maxVectorLen then none
  else if len % sizeofObject ≠ 0 then none
  else
    let nobj := len / sizeofObject
    let start := (start % 4294967296).toNat
    let stop := (stop % 4294967296).toNat
    let stop := if stop > nobj then nobj else stop
    some ([91] ++ rangeLoop (objects data) start stop ++ [93])

/-- The text of an array of objects. -/
def rangeText (objs : List Object) : Bytes :=
  [91] ++ [44].intercalate (objs.map Object.text) ++ [93]

/-- The loop prints the objects from `i` on, with commas between them. -/
theorem rangeLoop_eq {objs : List Object} {i stop : ℕ} (hstop : stop ≤ objs.length) :
    rangeLoop objs i stop = [44].intercalate (((objs.take stop).drop i).map Object.text) := by
  induction i using rangeLoop.induct stop with
  | case2 i hi =>
    rw [rangeLoop, if_neg hi, List.drop_of_length_le (by rw [List.length_take]; omega)]
    rfl
  | case1 i hi ih =>
    have hlen : i < objs.length := by omega
    have hdrop : (objs.take stop).drop i = objs[i] :: (objs.take stop).drop (i + 1) := by
      rw [List.drop_eq_getElem_cons (by rw [List.length_take]; omega), List.getElem_take]
    rw [rangeLoop, if_pos hi, ih, hdrop, List.getElem?_eq_getElem hlen, List.map_cons]
    by_cases hlast : stop - i = 1
    · have hnil : (objs.take stop).drop (i + 1) = [] :=
        List.drop_of_length_le (by rw [List.length_take]; omega)
      rw [if_neg (not_not.mpr hlast), hnil]
      simp [List.intercalate]
    · obtain ⟨o, rest, hrest⟩ : ∃ o rest, (objs.take stop).drop (i + 1) = o :: rest := by
        refine List.exists_cons_of_ne_nil ?_
        rw [← List.length_pos_iff, List.length_drop, List.length_take]
        omega
      rw [if_pos hlast, hrest]
      simp [List.intercalate]

/-- `zrange` prints the objects at the positions it is asked for. -/
theorem zrange_eq {data : Bytes} (hfits : data.length ≤ maxVectorLen)
    (hwhole : data.length % 8 = 0) {start stop : ℕ} (hstart : start ≤ 2000) (hstop : stop ≤ 2000) :
    zrange data start stop = some (rangeText (((objects data).take stop).drop start)) := by
  have hlen := length_objects hwhole
  have hmod : ∀ n : ℕ, n ≤ 2000 → ((n : ℤ) % 4294967296).toNat = n := by
    intro n hn
    omega
  have hnobj : data.length / sizeofObject = (objects data).length := by
    rw [hlen, sizeofObject, Nat.mul_div_cancel_left _ (by omega)]
  unfold zrange rangeText
  dsimp only
  rw [if_neg (not_lt.mpr hfits), if_neg (by rw [sizeofObject]; exact not_not.mpr hwhole),
    hmod start hstart, hmod stop hstop, hnobj]
  split
  · rename_i hgt
    rw [rangeLoop_eq le_rfl, List.take_length, List.take_of_length_le hgt.le]
  · rename_i hle
    rw [rangeLoop_eq (not_lt.mp hle)]

/-- On a vector these are in the vector's order. -/
theorem IsVector.zrange_eq {data : Bytes} (h : IsVector data) {start stop : ℕ}
    (hstart : start ≤ 2000) (hstop : stop ≤ 2000) :
    zrange data start stop = some (rangeText (((objects data).take stop).drop start)) :=
  VectorUdf.zrange_eq h.fits h.whole hstart hstop

/-! ## The comparator -/

/-- The scores are less than `2 ^ 31` apart. -/
def Close (objs : List Object) : Prop :=
  ∀ x ∈ objs, ∀ y ∈ objs, x.score.toNat < y.score.toNat + 2147483648

instance (objs : List Object) : Decidable (Close objs) :=
  inferInstanceAs (Decidable (∀ x ∈ objs, ∀ y ∈ objs, _))

/-- The comparator takes the difference modulo `2 ^ 32`. -/
theorem objectCmp_eq (x y : Object) :
    objectCmp x y = ((x.score.toNat : ℤ) - y.score.toNat).bmod 4294967296 := by
  have hy := y.score.toNat_lt
  have hsub : (((x.score - y.score).toNat : ℕ) : ℤ) =
      ((x.score.toNat : ℤ) - y.score.toNat) % 4294967296 := by
    rw [UInt32.toNat_sub]
    omega
  unfold objectCmp toInt32
  rw [hsub]
  exact Int.emod_bmod _ 4294967296

/-- Scores that are close are compared by their difference. -/
theorem objectCmp_of_close {x y : Object} (hxy : x.score.toNat < y.score.toNat + 2147483648)
    (hyx : y.score.toNat < x.score.toNat + 2147483648) :
    objectCmp x y = (x.score.toNat : ℤ) - y.score.toNat := by
  rw [objectCmp_eq]
  exact Int.bmod_eq_of_le (by omega) (by omega)

/-- The comparator agrees with the order of two scores, both ways, if and only if they are close. -/
theorem objectCmp_agrees_iff (x y : Object) :
    ((objectCmp x y ≤ 0 ↔ x.score.toNat ≤ y.score.toNat) ∧
      (objectCmp y x ≤ 0 ↔ y.score.toNat ≤ x.score.toNat)) ↔
    x.score.toNat < y.score.toNat + 2147483648 ∧ y.score.toNat < x.score.toNat + 2147483648 := by
  constructor
  · intro h
    have hx := x.score.toNat_lt
    have hy := y.score.toNat_lt
    rw [objectCmp_eq, objectCmp_eq] at h
    by_contra hfar
    rw [Int.bmod_def, Int.bmod_def] at h
    split_ifs at h <;> omega
  · rintro ⟨hxy, hyx⟩
    rw [objectCmp_of_close hxy hyx, objectCmp_of_close hyx hxy]
    omega

/-- The comparator is consistent on scores that are close. -/
theorem consistent_of_close {objs : List Object} (h : Close objs) : Consistent objectCmp objs where
  swap x hx y hy := by
    rw [objectCmp_of_close (h x hx y hy) (h y hy x hx),
      objectCmp_of_close (h y hy x hx) (h x hx y hy)]
    omega
  trans x hx y hy z hz := by
    rw [objectCmp_of_close (h x hx y hy) (h y hy x hx),
      objectCmp_of_close (h y hy z hz) (h z hz y hy),
      objectCmp_of_close (h x hx z hz) (h z hz x hx)]
    omega

/-! ## The order -/

/-- The objects are in non-decreasing order of their scores. -/
def Ordered (data : Bytes) : Prop := (objects data).Pairwise fun x y => x.score ≤ y.score

/-- A call of `zadd` sorts scores that are close. -/
def SortsClose (data : Bytes) : Call → Prop
  | .zadd member score =>
    Close (stored (objects data) ⟨UInt32.ofInt member, UInt32.ofInt score⟩)
  | .zrem _ => True

instance : ∀ data call, Decidable (SortsClose data call)
  | data, .zadd member score => inferInstanceAs (Decidable (Close (stored (objects data)
      ⟨UInt32.ofInt member, UInt32.ofInt score⟩)))
  | _, .zrem _ => inferInstanceAs (Decidable True)

/-- `zadd` orders scores that are close. -/
theorem IsVector.ordered_zadd {data : Bytes} (h : IsVector data) (qsort : Qsort Object)
    {member score : ℤ} (hclose : SortsClose data (.zadd member score)) :
    Ordered (VectorUdf.zadd qsort data member score) := by
  unfold Ordered
  rw [h.zadd_eq, objects_bytesOf]
  refine (qsort.sorted _ _ (consistent_of_close hclose)).imp_of_mem ?_
  intro x y hx hy hxy
  have hx := (qsort.perm _ _).mem_iff.mp hx
  have hy := (qsort.perm _ _).mem_iff.mp hy
  rw [objectCmp_of_close (hclose x hx y hy) (hclose y hy x hx)] at hxy
  rw [UInt32.le_iff_toNat_le]
  omega

/-- `zrem` keeps the order. -/
theorem IsVector.ordered_zrem {data : Bytes} (h : IsVector data) (ho : Ordered data)
    (member : ℤ) : Ordered (VectorUdf.zrem data member) := by
  rw [h.zrem_eq]
  split
  · unfold Ordered
    rw [objects_bytesOf]
    exact ho.sublist List.filter_sublist
  · exact ho

/-- In every run in which `zadd` sorts scores that are close, the vector is in the order of its
scores, and `zrange` returns the ranks that it is asked for. -/
theorem ordered_of_close (qsort : Qsort Object) {data : Bytes}
    (h : (vector qsort).Reach SortsClose data) :
    Ordered data ∧ ∀ start stop : ℕ, start ≤ 2000 → stop ≤ 2000 →
      zrange data start stop = some (rangeText (((objects data).take stop).drop start)) := by
  have hdata := isVector_of_reach h
  refine ⟨?_, fun start stop hstart hstop => hdata.zrange_eq hstart hstop⟩
  refine (h.invariant (I := fun data => IsVector data ∧ Ordered data) ?_ ?_).2
  · rintro data rfl
    exact ⟨isVector_nil, .nil⟩
  · rintro data call t ⟨hvec, hord⟩ hclose hstep
    obtain ⟨member, score, rfl, rfl⟩ | ⟨member, -, rfl⟩ := select_eq_ok hstep
    · exact ⟨hvec.zadd qsort member score, hvec.ordered_zadd qsort hclose⟩
    · exact ⟨hvec.zrem member, hvec.ordered_zrem hord member⟩

/-- Two members with the scores 5 and 3. -/
theorem ordered_of_close_pair :
    Ordered (zadd insertionSort (zadd insertionSort [] 1 5) 2 3) ∧
      ∀ start stop : ℕ, start ≤ 2000 → stop ≤ 2000 →
        zrange (zadd insertionSort (zadd insertionSort [] 1 5) 2 3) start stop = some (rangeText
          (((objects (zadd insertionSort (zadd insertionSort [] 1 5) 2 3)).take stop).drop
            start)) :=
  ordered_of_close insertionSort
    (.step (a := .zadd 2 3) (.step (a := .zadd 1 5) (.init rfl) (by decide +kernel) rfl)
      (by decide +kernel) rfl)

/-- A vector is reached in which the score 3000000000 stands before the score 0. -/
theorem unordered_of_far : ∃ data, (vector insertionSort).Reachable data ∧
    objects data = [⟨2, 3000000000⟩, ⟨1, 0⟩] ∧ ¬Ordered data := by
  have hobjs : objects (zadd insertionSort (zadd insertionSort [] (1 : UInt32).toNat
      (0 : UInt32).toNat) (2 : UInt32).toNat (3000000000 : UInt32).toNat) =
      [⟨2, 3000000000⟩, ⟨1, 0⟩] := by decide +kernel
  refine ⟨_, reachable_zadd (reachable_zadd (.init rfl) 1 0) 2 3000000000, hobjs, ?_⟩
  unfold Ordered
  rw [hobjs]
  decide

end MgCommonUtils.VectorUdf
