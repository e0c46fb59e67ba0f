import MgCommonUtils.Lib.CString

/-!
# The two codecs

`simpleEncode` and `simpleDecode` of `sock4a`, in C++ (`lib.cpp`) and in Python (`sock4a.py`). The
first add three to a `char` and subtract it again, and a `char` wraps around. The second compute
with integers, and bring what is out of range back into it before `chr`.

The comparison in the encoder is `x > 256`, so 256 itself is not brought back, and `chr` raises an
error. `codec_iff` says that the Python encoder works on a string, and works as the C++ one does, if
and only if the string has no byte 253. The decoders agree on every string.
-/

namespace MgCommonUtils.Sock4a

open MgCommonUtils.Lib

/-! ## The model -/

/-- `simpleEncode` of `lib.cpp`. -/
def simpleEncode (str : Bytes) : Bytes := str.map fun c => c + 3

/-- `simpleDecode` of `lib.cpp`. -/
def simpleDecode (str : Bytes) : Bytes := str.map fun c => c - 3

/-- `ord`. -/
def ord (c : UInt8) : ℤ := c.toNat

/-- `chr`, or none where it raises an error. -/
def chr (x : ℤ) : Option UInt8 := if 0 ≤ x ∧ x < 256 then some (UInt8.ofNat x.toNat) else none

/-- The body of the loop in `simpleEncode` of `sock4a.py`. -/
def pyEncodeByte (c : UInt8) : Option UInt8 :=
  let x := ord c + 3
  let x := if x > 256 then x - 256 else x
  chr x

/-- The body of the loop in `simpleDecode` of `sock4a.py`. -/
def pyDecodeByte (c : UInt8) : Option UInt8 :=
  let x := ord c - 3
  let x := if x < 0 then x + 256 else x
  chr x

/-- The loop of both, with the result so far. -/
def pyLoop (body : UInt8 → Option UInt8) (ret : Bytes) : Bytes → Option Bytes
  | [] => some ret
  | c :: data =>
    match body c with
    | none => none
    | some b => pyLoop body (ret ++ [b]) data

/-- `simpleEncode` of `sock4a.py`. -/
def pySimpleEncode (data : Bytes) : Option Bytes := pyLoop pyEncodeByte [] data

/-- `simpleDecode` of `sock4a.py`. -/
def pySimpleDecode (data : Bytes) : Option Bytes := pyLoop pyDecodeByte [] data

/-- The codecs agree on a string, and decoding what either of them has encoded gives it back. -/
structure CodecOk (s : Bytes) : Prop where
  /-- The encoders agree. -/
  encode : pySimpleEncode s = some (simpleEncode s)
  /-- The decoders agree. -/
  decode : pySimpleDecode s = some (simpleDecode s)
  /-- C++ decodes what C++ has encoded. -/
  roundTrip : simpleDecode (simpleEncode s) = s
  /-- Python decodes what C++ has encoded. -/
  toPython : pySimpleDecode (simpleEncode s) = some s
  /-- C++ decodes what Python has encoded. -/
  fromPython : (pySimpleEncode s).map simpleDecode = some s
  /-- Python decodes what Python has encoded. -/
  pyRoundTrip : (pySimpleEncode s).bind pySimpleDecode = some s

/-! ## One byte -/

/-- `chr` of a number that is a byte. -/
theorem chr_eq {x : ℤ} {b : UInt8} (h : x = b.toNat) : chr x = some b := by
  have hlt := b.toNat_lt
  rw [chr, if_pos (by omega), h, Int.toNat_natCast, UInt8.ofNat_toNat]

/-- Every byte but 253 is encoded, and as in C++. -/
theorem pyEncodeByte_eq {c : UInt8} (hc : c ≠ 253) : pyEncodeByte c = some (c + 3) := by
  have hne : c.toNat ≠ 253 := fun h => hc (UInt8.toNat_inj.mp h)
  have hlt := c.toNat_lt
  have hadd : (c + 3).toNat = (c.toNat + 3) % 256 := UInt8.toNat_add c 3
  refine chr_eq ?_
  simp only [ord]
  split_ifs <;> omega

/-- The byte 253 is not. -/
theorem pyEncodeByte_253 : pyEncodeByte 253 = none := by decide

/-- Every byte is decoded, and as in C++. -/
theorem pyDecodeByte_eq (c : UInt8) : pyDecodeByte c = some (c - 3) := by
  have hlt := c.toNat_lt
  have hsub : (c - 3).toNat = (256 - 3 + c.toNat) % 256 := UInt8.toNat_sub c 3
  refine chr_eq ?_
  simp only [ord]
  split_ifs <;> omega

/-! ## Strings -/

/-- A loop whose body works on every byte. -/
theorem pyLoop_eq_some {body : UInt8 → Option UInt8} {f : UInt8 → UInt8} {data : Bytes}
    (h : ∀ c ∈ data, body c = some (f c)) (ret : Bytes) :
    pyLoop body ret data = some (ret ++ data.map f) := by
  induction data generalizing ret with
  | nil => simp [pyLoop]
  | cons c data ih =>
    have ih := ih (fun c hc => h c (List.mem_cons_of_mem _ hc)) (ret ++ [f c])
    simp only [pyLoop, h c List.mem_cons_self, ih, List.map_cons, List.append_assoc,
      List.singleton_append]

/-- A loop whose body fails on a byte. -/
theorem pyLoop_eq_none {body : UInt8 → Option UInt8} {data : Bytes} {c : UInt8} (hc : c ∈ data)
    (h : body c = none) (ret : Bytes) : pyLoop body ret data = none := by
  induction data generalizing ret with
  | nil => cases hc
  | cons d data ih =>
    rw [pyLoop]
    rcases List.mem_cons.mp hc with rfl | hc
    · rw [h]
    · cases body d with
      | none => rfl
      | some b => exact ih hc _

/-- The decoders agree on every string. -/
theorem pySimpleDecode_eq (s : Bytes) : pySimpleDecode s = some (simpleDecode s) :=
  pyLoop_eq_some (fun c _ => pyDecodeByte_eq c) []

/-- What C++ has encoded is decoded by C++. -/
theorem simpleDecode_simpleEncode (s : Bytes) : simpleDecode (simpleEncode s) = s :=
  map_sub_map_add 3 s

/-- The Python encoder works, and works as the C++ encoder does, if there is no byte 253. -/
theorem pySimpleEncode_eq {s : Bytes} (hs : 253 ∉ s) : pySimpleEncode s = some (simpleEncode s) :=
  pyLoop_eq_some (fun _ hc => pyEncodeByte_eq fun h => hs (h ▸ hc)) []

/-- The Python encoder raises an error if there is one. -/
theorem pySimpleEncode_eq_none {s : Bytes} (hs : 253 ∈ s) : pySimpleEncode s = none :=
  pyLoop_eq_none hs pyEncodeByte_253 []

/-- The codecs agree on a string, and decoding what either of them has encoded gives it back, if and
only if the string has no byte 253. -/
theorem codec_iff (s : Bytes) : CodecOk s ↔ 253 ∉ s := by
  constructor
  · intro h hs
    have hencode := h.encode
    rw [pySimpleEncode_eq_none hs] at hencode
    cases hencode
  · intro hs
    have hencode := pySimpleEncode_eq hs
    have hround := simpleDecode_simpleEncode s
    refine ⟨hencode, pySimpleDecode_eq s, hround, ?_, ?_, ?_⟩
    · rw [pySimpleDecode_eq, hround]
    · rw [hencode, Option.map_some, hround]
    · rw [hencode, Option.bind_some, pySimpleDecode_eq, hround]

/-- The string of the byte 253. -/
theorem not_codecOk_253 : pySimpleEncode [253] = none ∧ simpleEncode [253] = [0] ∧
    ¬ CodecOk [253] := by
  refine ⟨by decide, by decide, fun h => ?_⟩
  have hencode : pySimpleEncode [253] = none := by decide
  rw [h.encode] at hencode
  cases hencode

end MgCommonUtils.Sock4a
