import MgCommonUtils.Lib.Buffer
import MgCommonUtils.Lib.Json
import MgCommonUtils.VectorUdf.Order

/-!
# The buffer and the text of `zrange`

`zrange` on the buffer that `zrange_init` allocates, with the arithmetic of its `unsigned int`s. An
object takes at most 24 bytes there, with the comma or the NUL that follows it, so the range of at
most 2000 objects that `zrange_init` allows fits (`zrange_fits`), and the buffer gets the text of
`zrange`. The text is that of a JSON array of pairs, and parsing it gives the members and the scores
back (`parse_zrange`).
-/

namespace MgCommonUtils.VectorUdf

open MgCommonUtils.Lib

/-! ## The model -/

/-- `initid->max_length`, as `zrange_init` sets it: the size of the buffer `initid->ptr`. -/
def maxLength : ℕ := maxVectorLen * 3

/-- The loop of `zrange`. Its test compares the `int` `i` as an `unsigned int`. -/
def zrangeLoop (objs : List Object) (stop i : UInt32) (pos : Cursor) : Except Stop Cursor :=
  if i < stop then
    match objs[i.toNat]? with
    | none => .error .outOfBounds
    | some obj => do
      let pos ← pos.sprintf obj.text
      let pos ← if stop - i ≠ 1 then pos.putc 44 else pure pos
      zrangeLoop objs stop (i + 1) pos
  else pure pos
termination_by stop.toNat - i.toNat
decreasing_by
  have hi : i < stop := by assumption
  rw [UInt32.lt_iff_toNat_lt] at hi
  have hlt := stop.toNat_lt
  rw [UInt32.toNat_add, UInt32.toNat_one]
  omega

/-- `zrange` on the buffer `ptr`: the `res_length` bytes of it, or none for `NULL`. Its `int len` is
the length of the data, since a string is shorter than `2 ^ 31`. -/
def zrangePtr (ptr data : Bytes) (start stop : ℤ) : Except Stop (Option Bytes) :=
  let len := data.length
  if len > maxVectorLen then .ok none
  else if len % sizeofObject ≠ 0 then .ok none
  else do
    let nobj := UInt32.ofNat (len / sizeofObject)
    let start := UInt32.ofInt start
    let stop := UInt32.ofInt stop
    let stop := if stop > nobj then nobj else stop
    -- After `memset`.
    let pos : Cursor := ⟨List.replicate ptr.length 0, 0⟩
    let pos ← pos.putc 91
    let pos ← zrangeLoop (objects data) stop start pos
    let pos ← pos.putc 93
    return some pos.text

/-! ## What is written -/

/-- A word's numeral has at most 10 digits. -/
theorem length_decimal_word (x : UInt32) : (decimal x.toNat).length ≤ 10 :=
  length_decimal_le (by omega) (x.toNat_lt.trans (by norm_num))

/-- What is written for an object has at most 23 bytes. -/
theorem Object.length_text_le (o : Object) : o.text.length ≤ 23 := by
  have hmember := length_decimal_word o.member
  have hscore := length_decimal_word o.score
  rw [Object.text]
  simp only [List.length_append, List.length_singleton]
  omega

/-- A turn of the loop writes the object and, where another one follows, a comma. -/
theorem zrangeLoop_turn {objs : List Object} {stop i : UInt32} {obj : Object} (pos : Cursor)
    (hi : i < stop) (hobj : objs[i.toNat]? = some obj) (hroom : pos.pos + 24 < pos.ptr.length) :
    ∃ pos' : Cursor, zrangeLoop objs stop i pos = zrangeLoop objs stop (i + 1) pos' ∧
      pos'.ptr.length = pos.ptr.length ∧ pos'.pos ≤ pos.pos + 24 ∧
      pos'.text = pos.text ++ (obj.text ++ if stop - i ≠ 1 then [44] else []) := by
  have htext := obj.length_text_le
  obtain ⟨pos₁, hprintf, hptr₁, hpos₁, htext₁⟩ := Cursor.sprintf_ok (c := pos) (s := obj.text)
    (by omega)
  rw [zrangeLoop, if_pos hi, hobj]
  dsimp only [bind, Except.bind]
  rw [hprintf]
  dsimp only
  by_cases hlast : stop - i ≠ 1
  · obtain ⟨pos₂, hputc, hptr₂, hpos₂, htext₂⟩ := Cursor.putc_ok (c := pos₁) (by omega) 44
    refine ⟨pos₂, ?_, by rw [hptr₂, hptr₁], by omega, ?_⟩
    · rw [if_pos hlast, hputc]
    · rw [htext₂, htext₁, if_pos hlast, List.append_assoc]
  · refine ⟨pos₁, ?_, hptr₁, by omega, ?_⟩
    · rw [if_neg hlast]
      rfl
    · rw [htext₁, if_neg hlast, List.append_nil]

/-- With room for 24 bytes for each object, and one more, the loop writes what `rangeLoop` says. -/
theorem zrangeLoop_spec {objs : List Object} {stop : UInt32} (hstop : stop.toNat ≤ objs.length)
    (i : UInt32) (pos : Cursor)
    (hroom : pos.pos + 24 * (stop.toNat - i.toNat) < pos.ptr.length) :
    ∃ pos' : Cursor, zrangeLoop objs stop i pos = .ok pos' ∧ pos'.ptr.length = pos.ptr.length ∧
      pos'.pos ≤ pos.pos + 24 * (stop.toNat - i.toNat) ∧
      pos'.text = pos.text ++ rangeLoop objs i.toNat stop.toNat := by
  induction hn : stop.toNat - i.toNat generalizing i pos with
  | zero =>
    have hi : ¬i < stop := by
      rw [UInt32.lt_iff_toNat_lt]
      omega
    refine ⟨pos, ?_, rfl, by omega, ?_⟩
    · rw [zrangeLoop, if_neg hi]
      rfl
    · rw [rangeLoop, if_neg (show ¬i.toNat < stop.toNat by omega), List.append_nil]
  | succ n ih =>
    have hlt := stop.toNat_lt
    have hi : i < stop := by
      rw [UInt32.lt_iff_toNat_lt]
      omega
    have hsucc : (i + 1).toNat = i.toNat + 1 := by
      rw [UInt32.toNat_add, UInt32.toNat_one]
      omega
    -- The difference of the words is that of the numbers.
    have hlast : stop - i ≠ 1 ↔ stop.toNat - i.toNat ≠ 1 := by
      rw [ne_eq, ← UInt32.toNat_inj, UInt32.toNat_sub_of_le _ _ (UInt32.le_of_lt hi),
        UInt32.toNat_one]
    have hobj : objs[i.toNat]? = some objs[i.toNat] := List.getElem?_eq_getElem (by omega)
    obtain ⟨pos₁, hturn, hptr₁, hpos₁, htext₁⟩ := zrangeLoop_turn pos hi hobj (by omega)
    obtain ⟨pos', hloop, hptr', hpos', htext'⟩ := ih (i + 1) pos₁ (by omega) (by omega)
    refine ⟨pos', by rw [hturn, hloop], by rw [hptr', hptr₁], by omega, ?_⟩
    rw [htext', htext₁, List.append_assoc, rangeLoop.eq_def objs i.toNat,
      if_pos (show i.toNat < stop.toNat by omega), hobj, hsucc, Option.map_some, Option.getD_some]
    simp only [hlast]

/-- A number of the range as a word. -/
theorem toNat_ofInt {z : ℤ} (h : 0 ≤ z ∧ z ≤ 2000) : (UInt32.ofInt z).toNat = z.toNat := by
  rw [UInt32.ofInt, UInt32.toNat_ofNat', Int.emod_eq_of_lt h.1 (by omega)]
  exact Nat.mod_eq_of_lt (by omega)

/-- What `zrange_init` accepts. -/
theorem zrangeInit_eq_ok {data : Bytes} {start stop : ℤ}
    (h : zrangeInit [.string data, .int start, .int stop] = .ok ()) :
    (0 ≤ start ∧ start ≤ 2000) ∧ (0 ≤ stop ∧ stop ≤ 2000) := by
  rw [zrangeInit] at h
  by_cases hrange : start < 0 ∨ start > 2000 ∨ stop < 0 ∨ stop > 2000
  · rw [if_pos hrange] at h
    cases h
  · exact ⟨by omega, by omega⟩

/-- The buffer gets the text of `zrange`, the arguments being such as `zrange_init` accepts. -/
theorem zrangePtr_eq {ptr data : Bytes} {start stop : ℤ}
    (hinit : zrangeInit [.string data, .int start, .int stop] = .ok ())
    (hptr : ptr.length = maxLength) :
    zrangePtr ptr data start stop = .ok (zrange data start stop) := by
  obtain ⟨hstart, hstop⟩ := zrangeInit_eq_ok hinit
  unfold zrangePtr zrange
  dsimp only
  split
  · rfl
  rename_i hfits
  split
  · rfl
  rename_i hwhole
  have hobjs := length_objects (not_not.mp hwhole)
  have hdiv : data.length / sizeofObject = (objects data).length := by
    rw [hobjs, sizeofObject, Nat.mul_div_cancel_left _ (by omega)]
  rw [maxVectorLen] at hfits
  have hnobj : (UInt32.ofNat (objects data).length).toNat = (objects data).length := by
    rw [UInt32.toNat_ofNat']
    exact Nat.mod_eq_of_lt (by omega)
  rw [hdiv, Int.emod_eq_of_lt hstart.1 (by omega), Int.emod_eq_of_lt hstop.1 (by omega)]
  -- The clamped `stop`.
  obtain ⟨stop', hstop'⟩ : ∃ stop' : UInt32,
      (if UInt32.ofInt stop > UInt32.ofNat (objects data).length then
        UInt32.ofNat (objects data).length else UInt32.ofInt stop) = stop' := ⟨_, rfl⟩
  have hclamp : (if stop.toNat > (objects data).length then (objects data).length
      else stop.toNat) = stop'.toNat := by
    rw [← hstop', apply_ite UInt32.toNat, hnobj, toNat_ofInt hstop]
    simp only [gt_iff_lt, UInt32.lt_iff_toNat_lt, hnobj, toNat_ofInt hstop]
  have hle : stop'.toNat ≤ (objects data).length ∧ stop'.toNat ≤ 2000 := by
    rw [← hclamp]
    split <;> omega
  rw [hstop', hclamp, ← toNat_ofInt hstart]
  -- The brackets take two bytes, and the objects at most 24 bytes each.
  rw [maxLength, maxVectorLen] at hptr
  obtain ⟨pos₁, hopen, hptr₁, hpos₁, htext₁⟩ := Cursor.putc_ok
    (c := ⟨List.replicate ptr.length 0, 0⟩) (by rw [List.length_replicate]; dsimp only; omega) 91
  rw [List.length_replicate] at hptr₁
  dsimp only at hpos₁
  obtain ⟨pos₂, hloop, hptr₂, hpos₂, htext₂⟩ := zrangeLoop_spec hle.1 (UInt32.ofInt start) pos₁
    (by omega)
  obtain ⟨pos₃, hclose, -, -, htext₃⟩ := Cursor.putc_ok (c := pos₂) (by omega) 93
  simp only [hopen, hloop, hclose, htext₃, htext₂, htext₁, bind, Except.bind]
  rfl

/-! ## JSON -/

/-- The pair of an object. -/
def Object.json (o : Object) : Json := .arr [.num o.member.toNat, .num o.score.toNat]

/-- What is written for an object is the text of its pair. -/
theorem Object.render_json (o : Object) : o.json.render = o.text := by
  simp only [Object.json, Object.text, Json.render, Json.renderAll, Json.renderRest,
    List.append_assoc, List.cons_append, List.nil_append]

/-- The elements behind the first one are those with a comma in front of each. -/
theorem renderRest_json (o : Object) (objs : List Object) :
    o.text ++ Json.renderRest (objs.map Object.json) =
      [44].intercalate ((o :: objs).map Object.text) ++ [93] := by
  induction objs generalizing o with
  | nil => rw [List.map_nil, Json.renderRest, List.map_singleton, List.intercalate_singleton]
  | cons o' objs ih =>
    rw [List.map_cons, Json.renderRest, Object.render_json, ih, List.map_cons, List.map_cons,
      List.map_cons, List.intercalate_cons_cons, List.append_assoc, List.append_assoc]
    rfl

/-- The text of an array of objects is that of the array of their pairs. -/
theorem render_json (objs : List Object) :
    Json.render (.arr (objs.map Object.json)) = rangeText objs := by
  rw [Json.render, rangeText, List.append_assoc]
  cases objs with
  | nil => rfl
  | cons o objs =>
    rw [List.map_cons, Json.renderAll, Object.render_json, renderRest_json]
    rfl

/-! ## The results -/

/-- With the arguments that `zrange_init` accepts, `zrange` returns: it writes no byte, NULs
included, outside of the `3 * 16384` bytes that `zrange_init` allocated. -/
theorem zrange_fits {ptr data : Bytes} {start stop : ℤ}
    (hinit : zrangeInit [.string data, .int start, .int stop] = .ok ())
    (hptr : ptr.length = 3 * 16384) : ∃ result, zrangePtr ptr data start stop = .ok result :=
  ⟨_, zrangePtr_eq hinit hptr⟩

/-- All of a blob of two objects. -/
theorem zrange_fits_two : ∃ result, zrangePtr (List.replicate 49152 0)
    (bytesOf [⟨4294967295, 4294967295⟩, ⟨1, 2⟩]) 0 2000 = .ok result := by
  have hinit : zrangeInit [.string (bytesOf [⟨4294967295, 4294967295⟩, ⟨1, 2⟩]), .int 0,
    .int 2000] = .ok () := rfl
  exact zrange_fits hinit List.length_replicate

/-- The text that `zrange` returns is that of a JSON array of arrays of two numbers, which are the
members and scores of the objects from `start` on and before `stop`, in their order. -/
theorem parse_zrange {ptr data : Bytes} {start stop : ℤ}
    (hinit : zrangeInit [.string data, .int start, .int stop] = .ok ())
    (hptr : ptr.length = 3 * 16384) (hlen : data.length ≤ 16384) (hwhole : data.length % 8 = 0) :
    ∃ result, zrangePtr ptr data start stop = .ok (some result) ∧ Json.parse result =
      some (.arr ((((objects data).take stop.toNat).drop start.toNat).map fun o =>
        .arr [.num o.member.toNat, .num o.score.toNat])) := by
  obtain ⟨hstart, hstop⟩ := zrangeInit_eq_ok hinit
  refine ⟨_, ?_, Json.parse_render _⟩
  change _ = Except.ok (some (Json.render (.arr (List.map Object.json _))))
  have hrange := zrange_eq hlen hwhole (show start.toNat ≤ 2000 by omega)
    (show stop.toNat ≤ 2000 by omega)
  rw [Int.toNat_of_nonneg hstart.1, Int.toNat_of_nonneg hstop.1] at hrange
  rw [zrangePtr_eq hinit hptr, hrange, render_json]

/-- The second of three objects, and what is behind the last one. -/
theorem parse_zrange_three : ∃ result result',
    zrangePtr (List.replicate 49152 0) (bytesOf [⟨10, 1⟩, ⟨20, 4294967295⟩, ⟨30, 3⟩]) 1 2 =
        .ok (some result) ∧
      Json.parse result = some (.arr [.arr [.num 20, .num 4294967295]]) ∧
      zrangePtr (List.replicate 49152 0) (bytesOf [⟨10, 1⟩, ⟨20, 4294967295⟩, ⟨30, 3⟩]) 3 2000 =
        .ok (some result') ∧
      Json.parse result' = some (.arr []) := by
  have hinit : zrangeInit [.string (bytesOf [⟨10, 1⟩, ⟨20, 4294967295⟩, ⟨30, 3⟩]), .int 1,
    .int 2] = .ok () := rfl
  have hinit' : zrangeInit [.string (bytesOf [⟨10, 1⟩, ⟨20, 4294967295⟩, ⟨30, 3⟩]), .int 3,
    .int 2000] = .ok () := rfl
  have hptr : (List.replicate 49152 (0 : UInt8)).length = 49152 := List.length_replicate
  obtain ⟨result, hresult, hparse⟩ := parse_zrange hinit hptr (by decide) (by decide)
  obtain ⟨result', hresult', hparse'⟩ := parse_zrange hinit' hptr (by decide) (by decide)
  rw [objects_bytesOf] at hparse hparse'
  exact ⟨result, result', hresult, hparse, hresult', hparse'⟩

end MgCommonUtils.VectorUdf
