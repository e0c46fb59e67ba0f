import MgCommonUtils.Lib.Keyed
import MgCommonUtils.Lib.LittleEndian
import MgCommonUtils.Lib.Qsort
import MgCommonUtils.Lib.Transition

/-!
# The vector functions

The user defined functions of `vector_udf/vector.c`: `zadd`, `zrem` and `zcard` on a blob that holds
an array of `object`, a member and its score, which `zadd` sorts by score. A function is called on
the blob that an earlier call has returned, so the blobs are the states of a system whose steps are
the calls that `zadd_init` and `zrem_init` accept (`vector`).

Every blob reached holds at most 2048 objects with distinct members (`IsVector`), and stands for a
finite map from members to scores (`bindings`). On a full blob `zadd` drops a new member, and `zrem`
returns the blob as it is.
-/

namespace MgCommonUtils.VectorUdf

open MgCommonUtils.Lib

/-! ## The model -/

/-- `struct object`. -/
structure Object where
  /-- The member. -/
  member : UInt32
  /-- Its score. -/
  score : UInt32
  deriving DecidableEq, Repr

/-- `sizeof(object)`. -/
def sizeofObject : ℕ := 8

/-- `MAX_VECTOR_LEN`. -/
def maxVectorLen : ℕ := 16384

/-- The array of `object` that bytes hold. Bytes that do not fill an object are not in it. -/
def objects : Bytes → List Object
  | m₀ :: m₁ :: m₂ :: m₃ :: s₀ :: s₁ :: s₂ :: s₃ :: rest =>
    { member := UInt32.ofNat (leNat [m₀, m₁, m₂, m₃])
      score := UInt32.ofNat (leNat [s₀, s₁, s₂, s₃]) } :: objects rest
  | _ => []

/-- The bytes of an `object`. -/
def Object.bytes (o : Object) : Bytes := leBytes 4 o.member.toNat ++ leBytes 4 o.score.toNat

/-- The bytes of an array of `object`. -/
def bytesOf (objs : List Object) : Bytes := objs.flatMap Object.bytes

/-- `object_cmp`. The difference is one of `unsigned int`, and is returned as an `int`. -/
def objectCmp (p1 p2 : Object) : ℤ := toInt32 (p1.score - p2.score).toNat

/-- An argument of a call, with the type that `arg_type` says. -/
inductive Arg
  /-- `STRING_RESULT`. -/
  | string (value : Bytes)
  /-- `INT_RESULT`, a `long long`. -/
  | int (value : ℤ)
  /-- Another type. -/
  | other

/-- `zadd_init`, with its message for arguments that it does not accept. -/
def zaddInit : List Arg → Except String Unit
  | [.string _, .int member, .int score] =>
    if member < 0 ∨ member > 4294967295 ∨ score < 0 ∨ score > 4294967295 then
      .error "Usage: member and score must be a number bewteen 0 and 4294967295."
    else .ok ()
  | [_, _, _] => .error "Usage: select zadd(string,int,int)."
  | _ => .error "Usage: select zadd(old_data,new_member,new_score)."

/-- The loop of `zadd` that overwrites the score of the member, and whether it was `found`. -/
def overwriteLoop (obj : Object) : List Object → List Object × Bool
  | [] => ([], false)
  | o :: rest =>
    let (rest, found) := overwriteLoop obj rest
    if o.member = obj.member then ({ o with score := obj.score } :: rest, true)
    else (o :: rest, found)

/-- `zadd`. Its `int len` is the length of the data, since a string is shorter than `2 ^ 31`. -/
def zadd (qsort : Qsort Object) (old_data : Bytes) (member score : ℤ) : Bytes :=
  let len := old_data.length
  if len > maxVectorLen then old_data.take maxVectorLen
  else if len % sizeofObject ≠ 0 then old_data
  else
    let obj : Object := { member := UInt32.ofInt member, score := UInt32.ofInt score }
    let (new_data, found) := overwriteLoop obj (objects old_data)
    let new_data :=
      if found = false ∧ len + sizeofObject ≤ maxVectorLen then new_data ++ [obj] else new_data
    bytesOf (qsort.sort objectCmp new_data)

/-- `zcard`. -/
def zcard (data : Bytes) : ℤ :=
  if data.length > maxVectorLen then -1
  else if data.length % sizeofObject ≠ 0 then -1
  else (data.length / sizeofObject : ℕ)

/-- `zrem_init`, with its message for arguments that it does not accept. -/
def zremInit : List Arg → Except String Unit
  | [.string _, .int member] =>
    if member < 0 ∨ member > 4294967295 then
      .error "Usage: member must be a number between 0 and 4294967295."
    else .ok ()
  | [_, _] => .error "Usage: select zadd(string,int,int)."
  | _ => .error "Usage: select zrem(data,member)."

/-- `zrem`. -/
def zrem (old_data : Bytes) (member : ℤ) : Bytes :=
  let len := old_data.length
  if len + sizeofObject > maxVectorLen ∨ len % sizeofObject ≠ 0 then old_data.take maxVectorLen
  else bytesOf ((objects old_data).filter fun o => o.member ≠ UInt32.ofInt member)

/-- A call that returns a new blob. -/
inductive Call
  /-- `select zadd(old_data,new_member,new_score)`. -/
  | zadd (member score : ℤ)
  /-- `select zrem(data,member)`. -/
  | zrem (member : ℤ)

/-- The blob that a call returns, or the message of the function's `_init`. -/
def select (qsort : Qsort Object) (data : Bytes) : Call → Except String Bytes
  | .zadd member score => do
    zaddInit [.string data, .int member, .int score]
    return VectorUdf.zadd qsort data member score
  | .zrem member => do
    zremInit [.string data, .int member]
    return VectorUdf.zrem data member

/-- The blobs as the states of a system: it starts with the empty blob, and every step is a call
that is accepted. -/
def vector (qsort : Qsort Object) : Lts Bytes Call where
  init data := data = []
  step data call := (select qsort data call).toOption

/-! ## Bytes and objects -/

@[simp]
theorem Object.length_bytes (o : Object) : o.bytes.length = 8 := by
  simp [Object.bytes]

@[simp]
theorem bytesOf_nil : bytesOf [] = [] := rfl

@[simp]
theorem length_bytesOf (objs : List Object) : (bytesOf objs).length = 8 * objs.length := by
  induction objs with
  | nil => rfl
  | cons o objs ih =>
    rw [bytesOf, List.flatMap_cons, List.length_append, Object.length_bytes, List.length_cons]
    rw [bytesOf] at ih
    omega

/-- A word is read back from its bytes. -/
theorem ofNat_leNat_leBytes (x : UInt32) : UInt32.ofNat (leNat (leBytes 4 x.toNat)) = x := by
  rw [leNat_leBytes x.toNat_lt, UInt32.ofNat_toNat]

/-- The bytes of a word are written back. -/
theorem leBytes_leNat (a b c d : UInt8) :
    leBytes 4 (UInt32.ofNat (leNat [a, b, c, d])).toNat = [a, b, c, d] := by
  have ha := a.toNat_lt
  have hb := b.toNat_lt
  have hc := c.toNat_lt
  have hd := d.toNat_lt
  have hlt : leNat [a, b, c, d] < 2^32 := (leNat_lt [a, b, c, d]).trans_eq (by norm_num)
  rw [UInt32.toNat_ofNat', Nat.mod_eq_of_lt hlt]
  simp only [leNat, leBytes, List.cons.injEq, and_true, ← UInt8.toNat_inj, UInt8.toNat_ofNat']
  omega

/-- Objects are read back from their bytes. -/
@[simp]
theorem objects_bytesOf (objs : List Object) : objects (bytesOf objs) = objs := by
  induction objs with
  | nil => rfl
  | cons o objs ih =>
    have hm := ofNat_leNat_leBytes o.member
    have hs := ofNat_leNat_leBytes o.score
    simp only [leBytes] at hm hs
    rw [bytesOf, List.flatMap_cons, ← bytesOf]
    simp only [Object.bytes, leBytes, List.cons_append, List.nil_append, objects, ih, hm, hs]

/-- The bytes of whole objects are written back. -/
theorem bytesOf_objects {data : Bytes} (h : data.length % 8 = 0) :
    bytesOf (objects data) = data := by
  induction data using objects.induct with
  | case1 m₀ m₁ m₂ m₃ s₀ s₁ s₂ s₃ rest ih =>
    simp only [List.length_cons] at h
    rw [objects, bytesOf, List.flatMap_cons, ← bytesOf, ih (by omega), Object.bytes, leBytes_leNat,
      leBytes_leNat]
    rfl
  | case2 data hdata =>
    -- Fewer than eight bytes, and so none.
    match data, hdata with
    | [], _ => rfl
    | [_], _ | [_, _], _ | [_, _, _], _ | [_, _, _, _], _ | [_, _, _, _, _], _
    | [_, _, _, _, _, _], _ | [_, _, _, _, _, _, _], _ => simp at h
    | m₀ :: m₁ :: m₂ :: m₃ :: s₀ :: s₁ :: s₂ :: s₃ :: rest, hdata =>
      exact absurd rfl (hdata m₀ m₁ m₂ m₃ s₀ s₁ s₂ s₃ rest)

/-- How many objects there are. -/
theorem length_objects {data : Bytes} (h : data.length % 8 = 0) :
    data.length = 8 * (objects data).length := by
  conv_lhs => rw [← bytesOf_objects h]
  exact length_bytesOf _

/-! ## The invariant -/

/-- A blob holds whole objects, no more than there is room for, and their members are distinct. -/
structure IsVector (data : Bytes) : Prop where
  /-- The objects are whole. -/
  whole : data.length % 8 = 0
  /-- There is room for them. -/
  fits : data.length ≤ maxVectorLen
  /-- Their members are distinct. -/
  distinct : Keyed.Distinct Object.member (objects data)

/-- The empty blob. -/
theorem isVector_nil : IsVector [] := ⟨rfl, by decide, List.nodup_nil⟩

/-- The blob of an array of objects. -/
theorem isVector_bytesOf {objs : List Object} (hlen : objs.length ≤ 2048)
    (hobjs : Keyed.Distinct Object.member objs) : IsVector (bytesOf objs) where
  whole := by
    rw [length_bytesOf]
    omega
  fits := by
    rw [length_bytesOf, maxVectorLen]
    omega
  distinct := by rwa [objects_bytesOf]

/-- How many objects there are in a blob. -/
theorem IsVector.length_eq {data : Bytes} (h : IsVector data) :
    data.length = 8 * (objects data).length := length_objects h.whole

/-- There is room for 2048 objects. -/
theorem IsVector.length_objects_le {data : Bytes} (h : IsVector data) :
    (objects data).length ≤ 2048 := by
  have hfits := h.fits
  rw [h.length_eq, maxVectorLen] at hfits
  omega

/-! ## What the calls compute -/

/-- The loop stores the object in the place of the one with its member. -/
theorem overwriteLoop_eq (obj : Object) (objs : List Object) :
    overwriteLoop obj objs = (Keyed.overwrite Object.member objs obj,
      decide (obj.member ∈ objs.map Object.member)) := by
  induction objs with
  | nil => rfl
  | cons o rest ih =>
    have hcons : Keyed.overwrite Object.member (o :: rest) obj =
        (if o.member = obj.member then obj else o) :: Keyed.overwrite Object.member rest obj := rfl
    rw [overwriteLoop, ih, hcons]
    by_cases ho : o.member = obj.member
    · simp [ho]
    · simp [ho, Ne.symm ho]

/-- The objects that `zadd` sorts. -/
def stored (objs : List Object) (obj : Object) : List Object :=
  if obj.member ∈ objs.map Object.member ∨ objs.length < 2048 then Keyed.put Object.member objs obj
  else objs

/-- `zadd` on a vector. -/
theorem IsVector.zadd_eq {data : Bytes} (h : IsVector data) (qsort : Qsort Object)
    (member score : ℤ) : zadd qsort data member score =
      bytesOf (qsort.sort objectCmp
        (stored (objects data) ⟨UInt32.ofInt member, UInt32.ofInt score⟩)) := by
  have hfits := h.fits
  have hlen := h.length_eq
  unfold zadd
  dsimp only
  rw [if_neg (not_lt.mpr hfits), if_neg (by rw [sizeofObject]; exact not_not.mpr h.whole),
    overwriteLoop_eq]
  dsimp only
  have hroom : data.length + sizeofObject ≤ maxVectorLen ↔ (objects data).length < 2048 := by
    rw [hlen, sizeofObject, maxVectorLen]
    omega
  refine congrArg (fun objs => bytesOf (qsort.sort objectCmp objs)) ?_
  unfold stored
  by_cases hmem : UInt32.ofInt member ∈ (objects data).map Object.member
  · have hfound : ¬(decide (UInt32.ofInt member ∈ (objects data).map Object.member) = false ∧
        data.length + sizeofObject ≤ maxVectorLen) := by simp [hmem]
    rw [if_neg hfound, if_pos (.inl hmem), Keyed.put_of_mem hmem]
  · rw [Keyed.overwrite_of_notMem hmem]
    by_cases hfull : (objects data).length < 2048
    · rw [if_pos ⟨decide_eq_false hmem, hroom.mpr hfull⟩, if_pos (.inr hfull),
        Keyed.put_of_notMem hmem]
    · have hkept : ¬(UInt32.ofInt member ∈ (objects data).map Object.member ∨
          (objects data).length < 2048) := fun hor => hor.elim hmem hfull
      rw [if_neg fun hand => hfull (hroom.mp hand.2), if_neg hkept]

/-- `zrem` on a vector. -/
theorem IsVector.zrem_eq {data : Bytes} (h : IsVector data) (member : ℤ) :
    zrem data member = if data.length < maxVectorLen then
      bytesOf (Keyed.erase Object.member (objects data) (UInt32.ofInt member)) else data := by
  have hfits := h.fits
  have hwhole := h.whole
  unfold zrem
  dsimp only
  by_cases hfull : data.length < maxVectorLen
  · -- a length that is a multiple of 8 leaves room for an object when it leaves any
    rw [if_pos hfull, if_neg (by rw [sizeofObject]; unfold maxVectorLen at *; omega)]
    rfl
  · rw [if_neg hfull, if_pos (by rw [sizeofObject]; omega), List.take_of_length_le hfits]

/-- `zcard` on a vector. -/
theorem IsVector.zcard_eq {data : Bytes} (h : IsVector data) :
    zcard data = (objects data).length := by
  unfold zcard
  rw [if_neg (not_lt.mpr h.fits), if_neg (by rw [sizeofObject]; exact not_not.mpr h.whole),
    h.length_eq, sizeofObject, Nat.mul_div_cancel_left _ (by omega)]

/-! ## The calls keep the invariant -/

/-- What `zadd` sorts is in the room there is. -/
theorem length_stored_le {objs : List Object} (h : objs.length ≤ 2048) (obj : Object) :
    (stored objs obj).length ≤ 2048 := by
  unfold stored
  split
  · rename_i hroom
    rw [← List.length_map Object.member, Keyed.map_key_put]
    split
    · rwa [List.length_map]
    · rename_i hmem
      have := hroom.resolve_left hmem
      rw [List.length_append, List.length_map, List.length_singleton]
      omega
  · exact h

/-- What `zadd` sorts has distinct members. -/
theorem distinct_stored {objs : List Object} (h : Keyed.Distinct Object.member objs)
    (obj : Object) : Keyed.Distinct Object.member (stored objs obj) := by
  unfold stored
  split
  · exact h.put obj
  · exact h

/-- `zadd` keeps the invariant. -/
theorem IsVector.zadd {data : Bytes} (h : IsVector data) (qsort : Qsort Object)
    (member score : ℤ) : IsVector (VectorUdf.zadd qsort data member score) := by
  rw [h.zadd_eq]
  refine isVector_bytesOf ?_ ?_
  · rw [(qsort.perm _ _).length_eq]
    exact length_stored_le h.length_objects_le _
  · exact ((qsort.perm _ _).map _).nodup_iff.mpr (distinct_stored h.distinct _)

/-- `zrem` keeps the invariant. -/
theorem IsVector.zrem {data : Bytes} (h : IsVector data) (member : ℤ) :
    IsVector (VectorUdf.zrem data member) := by
  rw [h.zrem_eq]
  split
  · refine isVector_bytesOf ?_ (h.distinct.erase _)
    exact (List.length_filter_le _ _).trans h.length_objects_le
  · exact h

/-- The blob that a call returns. -/
theorem select_eq_ok {qsort : Qsort Object} {data t : Bytes} {call : Call}
    (h : (select qsort data call).toOption = some t) :
    (∃ member score, call = .zadd member score ∧ t = zadd qsort data member score) ∨
      ∃ member, call = .zrem member ∧ t = zrem data member := by
  cases call with
  | zadd member score =>
    refine .inl ⟨member, score, rfl, ?_⟩
    cases hinit : zaddInit [.string data, .int member, .int score] with
    | error e =>
      simp only [select, hinit] at h
      cases h
    | ok =>
      simp only [select, hinit] at h
      exact (Option.some.inj h).symm
  | zrem member =>
    refine .inr ⟨member, rfl, ?_⟩
    cases hinit : zremInit [.string data, .int member] with
    | error e =>
      simp only [select, hinit] at h
      cases h
    | ok =>
      simp only [select, hinit] at h
      exact (Option.some.inj h).symm

/-- Every blob reached is a vector. -/
theorem isVector_of_reach {qsort : Qsort Object} {ok : Bytes → Call → Prop} {data : Bytes}
    (h : (vector qsort).Reach ok data) : IsVector data := by
  refine h.invariant ?_ ?_
  · rintro data rfl
    exact isVector_nil
  · intro data call t hdata _ hstep
    obtain ⟨member, score, -, rfl⟩ | ⟨member, -, rfl⟩ := select_eq_ok hstep
    · exact hdata.zadd qsort member score
    · exact hdata.zrem member

end MgCommonUtils.VectorUdf
