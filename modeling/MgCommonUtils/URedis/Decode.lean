import MgCommonUtils.Lib.Php
import MgCommonUtils.URedis.Server

/-!
# The replies of the UDP server, decoded

`response_decode` of `uRedis.php`, and the round trip of a request for the values of some keys. The
decoder reads every complete reply (`responseDecode_multiBulk`). The server sends a complete reply
or an error, but for one case (`appendBulks_full`, `appendBulks_of_not_full`): where the reply uses
the buffer up and ends with an absent key, the NUL of `snprintf` takes the place of the last line
feed, and the decoder refuses the reply (`mget_roundTrip_iff`).
-/

namespace MgCommonUtils.URedis

open MgCommonUtils.Lib

/-! ## The model -/

/-- An element of the array that `response_decode` returns. -/
inductive PhpValue
  /-- `NULL`. -/
  | null
  /-- A string. -/
  | string (s : Bytes)
  /-- `false`, where `substr` starts at the end of the string. -/
  | boolFalse
  deriving DecidableEq, Repr

/-- The result of `substr` as an element. -/
def PhpValue.ofSubstr : Option Bytes → PhpValue
  | some s => .string s
  | none => .boolFalse

/-- The loop over the bulks. -/
def decodeLoop (reps : Bytes) : ℕ → ℤ → Except String (List PhpValue)
  | 0, _ => .ok []
  | n + 1, start =>
    match strpos reps crlf start with
    | none => .error "response too short 1."
    | some fin =>
      let vlen := intval ((substr reps (start + 1) (fin - start)).getD [])
      if vlen = -1 then do
        let ret ← decodeLoop reps n (fin + 2)
        return .null :: ret
      else do
        let start : ℤ := fin + 2
        let ret ← decodeLoop reps n (start + (vlen + 2))
        return .ofSubstr (substr reps start vlen) :: ret

/-- `response_decode`: the array, or `$err`. -/
def responseDecode (reps : Bytes) : Except String (List PhpValue) :=
  if reps.head? ≠ some 42 then .error "invalid response protocol."
  else if reps.drop (reps.length - 2) ≠ crlf then .error "incompletely response."
  else
    let fin : ℤ := (strpos reps crlf 1).getD 0
    let nval := intval ((substr reps 1 (fin - 1)).getD [])
    if nval < 1 then .error "invalid multibulk header."
    else
      let start := fin + 2
      if start ≥ reps.length then .error "response too short 0."
      else decodeLoop reps nval.toNat start

/-! ## The decoder -/

/-- The bulk of a value, or of an absent key. -/
def bulkText : Option Bytes → Bytes
  | none => text "$-1" ++ crlf
  | some v => text "$" ++ decimal v.length ++ crlf ++ (v ++ crlf)

/-- The reply with the values. -/
def multiBulk (values : List (Option Bytes)) : Bytes :=
  text "*" ++ decimal values.length ++ crlf ++ values.flatMap bulkText

/-- A value as an element of a PHP array, with `NULL` for an absent key. -/
def PhpValue.ofOption : Option Bytes → PhpValue
  | none => .null
  | some v => .string v

/-- A carriage return is not in a numeral. -/
theorem cr_not_mem_decimal (n : ℕ) : (13 : UInt8) ∉ decimal n := by
  intro h
  exact absurd (isdigit_of_mem_decimal h) (by decide)

/-- The number in the first line of a bulk, behind bytes `pre`. -/
theorem strpos_bulkLine (pre : Bytes) {num : Bytes} (hnum : (13 : UInt8) ∉ num) (t : Bytes) :
    strpos (pre ++ (text "$" ++ num ++ crlf ++ t)) crlf pre.length =
      some (pre.length + (num.length + 1)) := by
  have hmem : (13 : UInt8) ∉ text "$" ++ num := by
    rw [List.mem_append, not_or]
    exact ⟨by decide, hnum⟩
  have h := strpos_append pre (n := [10]) hmem t
  rw [List.length_append] at h
  rwa [Nat.add_comm num.length 1]

/-- What `response_decode` converts to the length of a bulk: the number, with the carriage return
behind it. -/
theorem substr_bulkLine (pre num t : Bytes) :
    substr (pre ++ (text "$" ++ num ++ crlf ++ t)) ((pre.length : ℤ) + 1)
      (((pre.length + (num.length + 1) : ℕ) : ℤ) - pre.length) = some (num ++ [13]) := by
  have hsplit : pre ++ (text "$" ++ num ++ crlf ++ t) =
      (pre ++ text "$") ++ ((num ++ [13]) ++ (10 :: t)) := by
    simp only [crlf, List.append_assoc, List.cons_append, List.nil_append]
  have h := substr_append (pre ++ text "$") (num ++ [13]) (t := 10 :: t) (by simp)
  rw [hsplit, ← h]
  congr 1
  · rw [List.length_append]
    rfl
  · rw [List.length_append, List.length_singleton]
    omega

/-- The loop reads the bulk of a value and goes on behind it. -/
theorem decodeLoop_bulk (pre : Bytes) (o : Option Bytes)
    (hval : ∀ v, o = some v → v.length < 2^63) (n : ℕ) (rest : Bytes) :
    decodeLoop (pre ++ (bulkText o ++ rest)) (n + 1) pre.length =
      (decodeLoop (pre ++ bulkText o ++ rest) n (pre ++ bulkText o).length).map
        (PhpValue.ofOption o :: ·) := by
  rw [decodeLoop]
  cases o with
  | none =>
    have hsplit : bulkText none ++ rest = text "$" ++ [45, 49] ++ crlf ++ rest := rfl
    have hnext : ((pre.length + (([45, 49] : Bytes).length + 1) : ℕ) : ℤ) + 2 =
        ((pre ++ bulkText none).length : ℤ) := by
      rw [List.length_append]
      rfl
    rw [List.append_assoc, hsplit, strpos_bulkLine pre (by decide)]
    dsimp only
    rw [substr_bulkLine, Option.getD_some, if_pos (by decide), hnext]
    rfl
  | some v =>
    have hsplit : bulkText (some v) ++ rest =
        text "$" ++ decimal v.length ++ crlf ++ (v ++ crlf ++ rest) := by
      simp only [bulkText, List.append_assoc]
    have hcr : ∀ b ∈ ([13] : Bytes).head?, ¬isdigit b := by
      intro b hb
      rw [← Option.some.inj hb]
      decide
    have hintval : intval (decimal v.length ++ [13]) = v.length :=
      intval_decimal_append (hval v rfl) hcr
    have hstart : ((pre.length + ((decimal v.length).length + 1) : ℕ) : ℤ) + 2 =
        ((pre ++ (text "$" ++ decimal v.length ++ crlf)).length : ℤ) := by
      simp only [List.length_append, length_crlf]
      push_cast
      simp [text]
      omega
    have hnext : ((pre ++ (text "$" ++ decimal v.length ++ crlf)).length : ℤ) + (v.length + 2) =
        ((pre ++ bulkText (some v)).length : ℤ) := by
      simp only [bulkText, List.length_append, length_crlf]
      omega
    have hcut : substr (pre ++ (text "$" ++ decimal v.length ++ crlf ++ (v ++ crlf ++ rest)))
        ((pre ++ (text "$" ++ decimal v.length ++ crlf)).length : ℤ) v.length = some v := by
      have h := substr_append (pre ++ (text "$" ++ decimal v.length ++ crlf)) v
        (t := crlf ++ rest) (by simp [crlf])
      simpa only [List.append_assoc] using h
    rw [List.append_assoc, hsplit, strpos_bulkLine pre (cr_not_mem_decimal _)]
    dsimp only
    rw [substr_bulkLine, Option.getD_some, hintval, if_neg (by omega), hstart, hcut, hnext]
    rfl

/-- The loop reads the bulks of the values. -/
theorem decodeLoop_bulks (pre : Bytes) {values : List (Option Bytes)}
    (hval : ∀ v, some v ∈ values → v.length < 2^63) :
    decodeLoop (pre ++ values.flatMap bulkText) values.length pre.length =
      .ok (values.map .ofOption) := by
  induction values generalizing pre with
  | nil => rfl
  | cons o values ih =>
    rw [List.length_cons, List.flatMap_cons,
      decodeLoop_bulk pre o (fun v h => hval v (h ▸ List.mem_cons_self)),
      ih (pre ++ bulkText o) fun v h => hval v (List.mem_cons_of_mem o h)]
    rfl

/-- A complete reply ends with a line's end. -/
theorem exists_multiBulk_eq {values : List (Option Bytes)} (hpos : values ≠ []) :
    ∃ front, multiBulk values = front ++ crlf := by
  have hbulk : ∀ o, ∃ front, bulkText o = front ++ crlf := by
    intro o
    cases o with
    | none => exact ⟨_, rfl⟩
    | some v => exact ⟨text "$" ++ decimal v.length ++ crlf ++ v, by
        simp only [bulkText, List.append_assoc]⟩
  obtain ⟨init, last, rfl⟩ := (List.eq_nil_or_concat' values).resolve_left hpos
  obtain ⟨front, hfront⟩ := hbulk last
  refine ⟨text "*" ++ decimal (init ++ [last]).length ++ crlf ++ init.flatMap bulkText ++ front, ?_⟩
  rw [multiBulk, List.flatMap_append, List.flatMap_singleton, hfront]
  simp only [List.append_assoc]

/-- `response_decode` reads a complete reply. -/
theorem responseDecode_multiBulk {values : List (Option Bytes)} (hpos : values ≠ [])
    (hmax : values.length < 2^63) (hval : ∀ v, some v ∈ values → v.length < 2^63) :
    responseDecode (multiBulk values) = .ok (values.map .ofOption) := by
  have hn : 0 < values.length := List.length_pos_of_ne_nil hpos
  have hend : (multiBulk values).drop ((multiBulk values).length - 2) = crlf := by
    obtain ⟨front, hfront⟩ := exists_multiBulk_eq hpos
    rw [hfront]
    refine List.drop_left' ?_
    rw [List.length_append, length_crlf, Nat.add_sub_cancel]
  have hsplit : multiBulk values =
      text "*" ++ (decimal values.length ++ crlf ++ values.flatMap bulkText) := by
    simp only [multiBulk, List.append_assoc]
  have hpos1 : strpos (multiBulk values) crlf 1 = some (1 + (decimal values.length).length) := by
    rw [hsplit]
    exact strpos_append (text "*") (cr_not_mem_decimal _) _
  have hnum : substr (multiBulk values) 1 (((1 + (decimal values.length).length : ℕ) : ℤ) - 1) =
      some (decimal values.length) := by
    have hlen : ((1 + (decimal values.length).length : ℕ) : ℤ) - 1 =
        (decimal values.length).length := by omega
    rw [hsplit, hlen, List.append_assoc]
    exact substr_append (text "*") (decimal values.length) (by simp [crlf])
  have hstart : ((1 + (decimal values.length).length : ℕ) : ℤ) + 2 =
      ((text "*" ++ decimal values.length ++ crlf).length : ℤ) := by
    simp only [List.length_append, length_crlf]
    rfl
  have hshort : ¬((text "*" ++ decimal values.length ++ crlf).length : ℤ) ≥
      ((multiBulk values).length : ℤ) := by
    obtain ⟨o, values, rfl⟩ := List.exists_cons_of_ne_nil hpos
    have hbulk : 0 < (bulkText o).length := by
      cases o with
      | none => decide
      | some v => simp [bulkText, crlf]
    have hlen : (multiBulk (o :: values)).length =
        (text "*" ++ decimal (o :: values).length ++ crlf).length +
          ((bulkText o).length + (values.flatMap bulkText).length) := by
      rw [multiBulk, List.flatMap_cons]
      exact List.length_append.trans (congrArg _ List.length_append)
    omega
  unfold responseDecode
  rw [if_neg (not_not.mpr (by rw [hsplit]; rfl)), if_neg (not_not.mpr hend)]
  dsimp only
  rw [hpos1, Option.getD_some, hnum, Option.getD_some, intval_decimal hmax, if_neg (by omega),
    hstart, if_neg hshort, Int.toNat_natCast]
  exact decodeLoop_bulks _ hval

/-! ## The server -/

/-- The value of an object that is a string. -/
def Robj.value : Robj → Option Bytes
  | .raw ptr => some ptr
  | .int ptr => some (decimalInt ptr.toInt)
  | .other => none

/-- The value that is stored for a key. -/
def stored (db : Bytes → Option Robj) (key : Bytes) : Option Bytes := (db key).bind Robj.value

/-- The result of `getCommandforUdp` for a value. -/
def lookup : Option Bytes → ℤ × Bytes
  | none => (-1, [])
  | some v => (v.length, v)

/-- The numeral of a 64-bit integer is short. -/
theorem length_decimalInt_le (x : Int64) : (decimalInt x.toInt).length ≤ 20 := by
  have hlo := x.le_toInt
  have hhi := x.toInt_lt
  have habs : x.toInt.natAbs < 10^19 := by omega
  have hdec := length_decimal_le (by decide) habs
  rw [decimalInt, List.length_append]
  split
  · rw [List.length_singleton]
    omega
  · rw [List.length_nil]
    omega

/-- A value that fits into `val` is looked up. -/
theorem getCommandforUdp_eq {db : Bytes → Option Robj} {key : Bytes} (hline : IsLine key)
    (hval : ∀ v, stored db key = some v → v.length ≤ valLen) :
    getCommandforUdp db key valLen = lookup (stored db key) := by
  rw [getCommandforUdp, cstr_of_isLine hline]
  unfold stored at hval ⊢
  cases hdb : db key with
  | none => rfl
  | some o =>
    rw [hdb] at hval
    cases o with
    | raw ptr =>
      have hlen : ptr.length ≤ valLen := hval ptr rfl
      exact congrArg _ (List.take_of_length_le hlen)
    | int ptr =>
      have hlen := length_decimalInt_le ptr
      exact congrArg _ (List.take_of_length_le (hlen.trans (by decide)))
    | other => rfl

/-- `snprintf` has room for the text and the NUL. -/
theorem snprintf_of_room {wbuf s : Bytes} (h : wbuf.length + s.length < wbufLen) :
    snprintf wbuf s = wbuf ++ s := by
  have hroom : s.length ≤ wbufLen - wbuf.length - 1 := by omega
  unfold snprintf
  dsimp only
  rw [List.take_of_length_le hroom, Nat.sub_eq_zero_of_le hroom, List.replicate_zero,
    List.append_nil]

/-- The first line of a bulk is short. -/
theorem length_bulkLine_le {n : ℕ} (h : n ≤ valLen) :
    (text "$" ++ decimal n ++ crlf).length ≤ 8 := by
  have hdec : (decimal n).length ≤ 5 := length_decimal_le (by decide) (h.trans_lt (by decide))
  simp only [List.length_append, length_crlf]
  have : (text "$").length = 1 := rfl
  omega

/-- The bytes that the test for a bulk asks for. -/
def bulkRoom : Option Bytes → ℕ
  | none => 5
  | some v => v.length + 10

/-- A bulk needs at least five bytes, and the test asks for at most four more than it needs. -/
theorem bulkRoom_le (o : Option Bytes) :
    5 ≤ (bulkText o).length ∧ bulkRoom o ≤ (bulkText o).length + 4 := by
  cases o with
  | none => decide
  | some v =>
    have hdec : 0 < (decimal v.length).length := List.length_pos_of_ne_nil (decimal_ne_nil _)
    have hlen : (bulkText (some v)).length = (decimal v.length).length + v.length + 5 := by
      simp only [bulkText, List.length_append, length_crlf]
      have : (text "$").length = 1 := rfl
      omega
    have hroom : bulkRoom (some v) = v.length + 10 := rfl
    omega

/-- A bulk that the test finds no room for is not appended. -/
theorem appendBulk_of_no_room {wbuf : Bytes} {o : Option Bytes}
    (h : wbufLen < wbuf.length + bulkRoom o) :
    appendBulk wbuf (lookup o).1 (lookup o).2 = .ok none := by
  cases o with
  | none =>
    have hroom : wbuf.length + 5 > wbufLen := h
    change appendBulk wbuf (-1) [] = _
    rw [appendBulk, if_pos (by decide), if_pos hroom]
  | some v =>
    have hroom : wbuf.length + (v.length : ℤ).toNat + 10 > wbufLen := h
    change appendBulk wbuf v.length v = _
    rw [appendBulk, if_neg (by omega), if_pos hroom]

/-- A bulk is appended when the test finds room for it and, if its key is absent, for the NUL of
`snprintf`. -/
theorem appendBulk_of_room {wbuf : Bytes} {o : Option Bytes}
    (hval : ∀ v, o = some v → v.length ≤ valLen) (h : wbuf.length + bulkRoom o ≤ wbufLen)
    (hnul : o = none → wbuf.length + 5 ≠ wbufLen) :
    appendBulk wbuf (lookup o).1 (lookup o).2 = .ok (some (wbuf ++ bulkText o)) := by
  cases o with
  | none =>
    have hne := hnul rfl
    have htest : wbuf.length + 5 ≤ wbufLen := h
    have hroom : wbuf.length + (text "$-1\r\n").length < wbufLen := by
      have : (text "$-1\r\n").length = 5 := rfl
      omega
    change appendBulk wbuf (-1) [] = _
    rw [appendBulk, if_pos (by decide), if_neg (not_lt.mpr htest), snprintf_of_room hroom]
    rfl
  | some v =>
    have hv := hval v rfl
    have hline := length_bulkLine_le hv
    have htest : wbuf.length + v.length + 10 ≤ wbufLen := h
    change appendBulk wbuf v.length v = _
    rw [appendBulk, if_neg (by omega), Int.toNat_natCast, if_neg (not_lt.mpr htest),
      if_neg (not_lt.mpr hv)]
    dsimp only
    rw [snprintf_of_room (by omega), bulkText]
    simp only [List.append_assoc]

/-- The bulk of an absent key that uses the buffer up is appended with a NUL in place of the line
feed. -/
theorem appendBulk_full {wbuf : Bytes} (h : wbuf.length + 5 = wbufLen) :
    appendBulk wbuf (lookup none).1 (lookup none).2 =
      .ok (some ((wbuf ++ bulkText none).dropLast ++ [0])) := by
  have hroom : wbufLen - wbuf.length - 1 = 4 := by omega
  change appendBulk wbuf (-1) [] = _
  rw [appendBulk, if_pos (by decide), if_neg (by omega), snprintf, hroom,
    List.dropLast_append_of_ne_nil (by decide), List.append_assoc,
    List.append_assoc]
  rfl

/-- The reply uses the buffer up and ends with an absent key. -/
def Full (reply : Bytes) (values : List (Option Bytes)) : Prop :=
  reply.length = wbufLen ∧ values.getLast? = some none

/-- The reply that uses the buffer up and ends with an absent key has a NUL in place of the last
line feed. -/
theorem appendBulks_full {wbuf : Bytes} {values : List (Option Bytes)}
    (hval : ∀ v, some v ∈ values → v.length ≤ valLen)
    (hfull : Full (wbuf ++ values.flatMap bulkText) values) :
    appendBulks wbuf (values.map lookup) =
      .ok ((wbuf ++ values.flatMap bulkText).dropLast ++ [0]) := by
  induction values generalizing wbuf with
  | nil => exact absurd hfull.2 (by decide)
  | cons o values ih =>
    obtain ⟨hlen, hlast⟩ := hfull
    have hval' : ∀ v, o = some v → v.length ≤ valLen := fun v h => hval v (h ▸ List.mem_cons_self)
    rw [List.flatMap_cons] at hlen
    rw [List.map_cons, appendBulks, List.flatMap_cons]
    by_cases hnil : values = []
    · -- The absent key that uses the buffer up.
      subst hnil
      obtain rfl : o = none := Option.some.inj hlast
      have hlen5 : wbuf.length + 5 = wbufLen := by
        rw [← hlen, List.length_append]
        rfl
      rw [appendBulk_full hlen5, List.flatMap_nil, List.append_nil]
      rfl
    · -- Behind this bulk comes another one, for whose sake there is room enough.
      have hlast' : values.getLast? = some none := by
        rwa [List.getLast?_cons_of_ne_nil hnil] at hlast
      obtain ⟨next, values, rfl⟩ := List.exists_cons_of_ne_nil hnil
      have hnext := (bulkRoom_le next).1
      have hroom := (bulkRoom_le o).2
      have htotal : wbuf.length + (bulkText o).length + (bulkText next).length ≤ wbufLen := by
        rw [← hlen, List.flatMap_cons, List.length_append, List.length_append, List.length_append]
        omega
      have hnul : o = none → wbuf.length + 5 ≠ wbufLen := by
        rintro rfl
        have : (bulkText none).length = 5 := rfl
        omega
      rw [appendBulk_of_room hval' (by omega) hnul, ← List.append_assoc]
      refine ih (fun v h => hval v (List.mem_cons_of_mem o h)) ⟨?_, hlast'⟩
      rwa [List.append_assoc]

/-- Where the reply does not use the buffer up and end with an absent key, it is complete, or the
error. -/
theorem appendBulks_of_not_full {wbuf : Bytes} {values : List (Option Bytes)}
    (hval : ∀ v, some v ∈ values → v.length ≤ valLen)
    (hfull : ¬Full (wbuf ++ values.flatMap bulkText) values) :
    appendBulks wbuf (values.map lookup) = .ok (wbuf ++ values.flatMap bulkText) ∨
      appendBulks wbuf (values.map lookup) = .ok tooBig := by
  induction values generalizing wbuf with
  | nil => exact .inl (by rw [List.flatMap_nil, List.append_nil]; rfl)
  | cons o values ih =>
    have hval' : ∀ v, o = some v → v.length ≤ valLen := fun v h => hval v (h ▸ List.mem_cons_self)
    rw [List.map_cons, appendBulks, List.flatMap_cons]
    by_cases hroom : wbuf.length + bulkRoom o ≤ wbufLen
    · by_cases hnul : o = none ∧ wbuf.length + 5 = wbufLen
      · -- The buffer is used up: there is a bulk that comes next, and no room for it.
        obtain ⟨rfl, hlen5⟩ := hnul
        have hlen : (wbuf ++ bulkText none).length = wbufLen := by
          rw [List.length_append, ← hlen5]
          rfl
        have hnil : values ≠ [] := by
          rintro rfl
          refine hfull ⟨?_, rfl⟩
          rwa [List.flatMap_cons, List.flatMap_nil, List.append_nil]
        obtain ⟨next, values, rfl⟩ := List.exists_cons_of_ne_nil hnil
        have hnext :
            wbufLen < ((wbuf ++ bulkText none).dropLast ++ [0]).length + bulkRoom next := by
          have hpos : 0 < bulkRoom next := by
            cases next with
            | none => decide
            | some v => exact Nat.succ_pos _
          rw [List.length_append, List.length_dropLast, List.length_singleton, hlen]
          omega
        rw [appendBulk_full hlen5]
        simp only [bind, Except.bind, List.map_cons, appendBulks, appendBulk_of_no_room hnext]
        exact .inr rfl
      · rw [appendBulk_of_room hval' hroom fun h h5 => hnul ⟨h, h5⟩, ← List.append_assoc]
        refine ih (fun v h => hval v (List.mem_cons_of_mem o h)) fun hfull' => hfull ?_
        have hnil : values ≠ [] := by
          rintro rfl
          exact absurd hfull'.2 (by decide)
        rw [Full, List.flatMap_cons, ← List.append_assoc, List.getLast?_cons_of_ne_nil hnil]
        exact hfull'
    · rw [appendBulk_of_no_room (by omega)]
      exact .inr rfl

/-! ## The round trip -/

/-- The concatenation of the payloads of datagrams, in the order in which they are sent. -/
def payloads (ds : List Bytes) : Bytes := (ds.map (List.drop 8)).flatten

/-- A valid request for the values of keys: a header and the command in one datagram. The server
finds the end of a key by its CR LF, in a C string. -/
structure MgetRequest (db : Bytes → Option Robj) (hdr : Bytes) (keys : List Bytes) : Prop where
  /-- The header has 8 bytes. -/
  header : hdr.length = 8
  /-- There is a key. -/
  pos : keys ≠ []
  /-- There are at most 100 keys. -/
  max : keys.length ≤ 100
  /-- A key is a line. -/
  line : ∀ key ∈ keys, IsLine key
  /-- The request fits into the buffer. -/
  size : (hdr ++ mgetCommand keys).length ≤ psize
  /-- The values fit into the buffer. -/
  val : ∀ key ∈ keys, ∀ v, stored db key = some v → v.length ≤ valLen

/-- A key in a request of one datagram is shorter than the buffer. -/
theorem length_key_lt {hdr : Bytes} {keys : List Bytes} (hhdr : hdr.length = 8)
    (hsize : (hdr ++ mgetCommand keys).length ≤ psize) : ∀ key ∈ keys, key.length < psize := by
  intro key hkey
  obtain ⟨before, after, hkeys⟩ := List.append_of_mem hkey
  simp only [hkeys, mgetCommand, keyLines, List.flatMap_append, List.flatMap_cons,
    List.length_append] at hsize
  omega

/-- The values that are stored for the keys fit into `val`. -/
theorem MgetRequest.length_value {db : Bytes → Option Robj} {hdr : Bytes} {keys : List Bytes}
    (h : MgetRequest db hdr keys) : ∀ v, some v ∈ keys.map (stored db) → v.length ≤ valLen := by
  intro v hv
  obtain ⟨key, hkey, hstored⟩ := List.mem_map.mp hv
  exact h.val key hkey v hstored

/-- The complete reply with the values of the keys. -/
theorem multiBulk_map (value : Bytes → Option Bytes) (keys : List Bytes) :
    multiBulk (keys.map value) =
      text "*" ++ decimal keys.length ++ crlf ++ (keys.map value).flatMap bulkText := by
  rw [multiBulk, List.length_map]

/-- A header is decoded from the first eight bytes. -/
theorem exists_headerDecode {s : Bytes} (h : 8 ≤ s.length) : ∃ hdr, headerDecode s = some hdr := by
  match s, h with
  | _ :: _ :: _ :: _ :: _ :: _ :: _ :: _ :: _, _ => exact ⟨_, rfl⟩

/-- The server takes a datagram with the command for a request. -/
theorem accepts_mgetCommand {hdr : Bytes} (hhdr : hdr.length = 8) (keys : List Bytes) :
    8 < (hdr ++ mgetCommand keys).length ∧ ∀ rest : Bytes,
      (hdr ++ mgetCommand keys ++ rest)[8]? = some 42 := by
  have hcommand : (mgetCommand keys)[0]? = some 42 := rfl
  have hpos := (List.getElem?_eq_some_iff.mp hcommand).1
  refine ⟨by rw [List.length_append, hhdr]; omega, fun rest => ?_⟩
  rw [List.append_assoc, List.getElem?_append_right hhdr.le, hhdr]
  rfl

/-- The first line of the reply. -/
theorem snprintf_front {n : ℕ} (hn : n ≤ 100) :
    snprintf [] (text "*" ++ decimal n ++ crlf) = text "*" ++ decimal n ++ crlf := by
  have hdec : (decimal n).length ≤ 3 := length_decimal_le (by decide) (by omega)
  refine snprintf_of_room ?_
  simp only [List.length_append, length_crlf, List.length_nil]
  have : (text "*").length = 1 := rfl
  unfold wbufLen
  omega

/-- The server answers the command with what the loop over the keys puts together. -/
theorem process_mgetCommand (db : Bytes → Option Robj) {keys : List Bytes} (hpos : keys ≠ [])
    (hmax : keys.length ≤ 100) (hline : ∀ key ∈ keys, IsLine key) {hdr : Bytes}
    (hhdr : hdr.length = 8) (hsize : (hdr ++ mgetCommand keys).length ≤ psize) : ∃ req,
    processCommandFromUdpClient db (hdr ++ mgetCommand keys) =
      (appendBulks (text "*" ++ decimal keys.length ++ crlf)
        (keys.map fun key => getCommandforUdp db key valLen)).map (sendLoop req) := by
  obtain ⟨hlong, hstar⟩ := accepts_mgetCommand hhdr keys
  obtain ⟨fields, hfields⟩ := exists_headerDecode (s := hdr ++ mgetCommand keys ++
    List.replicate (psize - (hdr ++ mgetCommand keys).length) 0) (by
      rw [List.length_append]
      omega)
  refine ⟨fields.req, ?_⟩
  unfold processCommandFromUdpClient
  rw [List.take_of_length_le hsize, min_eq_left hsize]
  dsimp only
  rw [hfields, if_neg (not_or.mpr ⟨by omega, not_not.mpr (hstar _)⟩),
    replyText_mgetCommand db hpos hmax hline (length_key_lt hhdr hsize) hhdr, snprintf_front hmax]
  rfl

/-- The server answers a valid request with what the loop over the keys puts together. -/
theorem MgetRequest.process_eq {db : Bytes → Option Robj} {hdr : Bytes} {keys : List Bytes}
    (h : MgetRequest db hdr keys) : ∃ req,
    processCommandFromUdpClient db (hdr ++ mgetCommand keys) =
      (appendBulks (text "*" ++ decimal keys.length ++ crlf)
        ((keys.map (stored db)).map lookup)).map (sendLoop req) := by
  have hlookup : (keys.map fun key => getCommandforUdp db key valLen) =
      (keys.map (stored db)).map lookup := by
    rw [List.map_map]
    exact List.map_congr_left fun key hkey =>
      getCommandforUdp_eq (h.line key hkey) (h.val key hkey)
  rw [← hlookup]
  exact process_mgetCommand db h.pos h.max h.line h.header h.size

/-- The decoder refuses a reply with a NUL at its end. -/
theorem responseDecode_nul (s : Bytes) :
    responseDecode (42 :: (s ++ [0])) = .error "incompletely response." := by
  have hlen : (42 :: (s ++ [0])).length - 2 = s.length := by
    rw [List.length_cons, List.length_append, List.length_singleton]
    omega
  have hhead : ¬(42 :: (s ++ [0])).head? ≠ some 42 := not_not.mpr rfl
  have hend : (42 :: (s ++ [0])).drop ((42 :: (s ++ [0])).length - 2) ≠ crlf := by
    rw [hlen]
    intro h
    have hlast := congrArg List.getLast? h
    rw [List.getLast?_drop, if_neg (by simp), List.getLast?_cons_of_ne_nil (by simp),
      List.getLast?_concat] at hlast
    exact absurd hlast (by decide)
  unfold responseDecode
  rw [if_neg hhead, if_pos hend]

/-- What starts with a star is not an error. -/
theorem not_err_prefix (s : Bytes) : ¬text "-Err" <+: 42 :: s := by
  intro h
  exact absurd (List.cons_prefix_cons.mp h).1 (by decide)

/-- The reply that uses the buffer up and ends with an absent key is not an error, and the decoder
refuses it. -/
theorem MgetRequest.mget_full {db : Bytes → Option Robj} {hdr : Bytes} {keys : List Bytes}
    (h : MgetRequest db hdr keys)
    (hfull : Full (multiBulk (keys.map (stored db))) (keys.map (stored db))) :
    ∃ ds, processCommandFromUdpClient db (hdr ++ mgetCommand keys) = .ok ds ∧
      ¬text "-Err" <+: payloads ds ∧
      responseDecode (payloads ds) = .error "incompletely response." := by
  obtain ⟨req, hprocess⟩ := h.process_eq
  have hsplit := multiBulk_map (stored db) keys
  obtain ⟨t, ht, htail⟩ : ∃ t, multiBulk (keys.map (stored db)) = 42 :: t ∧ t ≠ [] :=
    ⟨_, rfl, by simp [crlf]⟩
  rw [hsplit] at hfull
  rw [appendBulks_full h.length_value hfull, ← hsplit, ht, List.dropLast_cons_of_ne_nil htail]
    at hprocess
  refine ⟨_, hprocess, ?_, ?_⟩
  · rw [payloads, payloads_sendLoop]
    exact not_err_prefix _
  · rw [payloads, payloads_sendLoop]
    exact responseDecode_nul _

/-- The reply to a valid request that is not an error is decoded to the values of the keys, in
their order, if and only if the reply does not use the buffer up and end with an absent key. -/
theorem mget_roundTrip_iff {db : Bytes → Option Robj} {hdr : Bytes} {keys : List Bytes}
    (h : MgetRequest db hdr keys) :
    ∃ ds, processCommandFromUdpClient db (hdr ++ mgetCommand keys) = .ok ds ∧
      ((¬text "-Err" <+: payloads ds →
          responseDecode (payloads ds) = .ok ((keys.map (stored db)).map .ofOption)) ↔
        ¬((multiBulk (keys.map (stored db))).length = wbufLen ∧
          (keys.map (stored db)).getLast? = some none)) := by
  by_cases hfull : Full (multiBulk (keys.map (stored db))) (keys.map (stored db))
  · obtain ⟨ds, hprocess, herr, hdecode⟩ := h.mget_full hfull
    refine ⟨ds, hprocess, iff_of_false (fun hok => ?_) (not_not.mpr hfull)⟩
    rw [hdecode] at hok
    cases hok herr
  · obtain ⟨req, hprocess⟩ := h.process_eq
    have hpos : keys.map (stored db) ≠ [] := mt List.map_eq_nil_iff.mp h.pos
    have hmax : (keys.map (stored db)).length < 2^63 := by
      have := h.max
      rw [List.length_map]
      omega
    have hsplit := multiBulk_map (stored db) keys
    rcases appendBulks_of_not_full h.length_value (hsplit ▸ hfull) with hok | hbig
    · rw [hok, ← hsplit] at hprocess
      refine ⟨_, hprocess, iff_of_true (fun _ => ?_) hfull⟩
      rw [payloads, payloads_sendLoop]
      exact responseDecode_multiBulk hpos hmax fun v hv =>
        (h.length_value v hv).trans_lt (by decide)
    · rw [hbig] at hprocess
      refine ⟨_, hprocess, iff_of_true (fun herr => absurd ?_ herr) hfull⟩
      rw [payloads, payloads_sendLoop]
      exact List.isPrefixOf_iff_prefix.mp (by decide)

/-- The objects of the keys `"a"` to `"d"`, which together fill the buffer up to its last five
bytes. -/
def fullDb (key : Bytes) : Option Robj :=
  if key = text "a" ∨ key = text "b" ∨ key = text "c" then some (.raw (List.replicate 16384 120))
  else if key = text "d" then some (.raw (List.replicate 16335 120))
  else none

/-- The header of the request 7. -/
def hdr7 : Bytes := [0, 7, 0, 0, 0, 1, 0, 0]

/-- The values of these objects fit into `val`. -/
theorem length_fullDb_le {key v : Bytes} (h : stored fullDb key = some v) : v.length ≤ valLen := by
  unfold stored fullDb at h
  split at h
  · obtain rfl := Option.some.inj h
    rw [List.length_replicate]
    decide
  · split at h
    · obtain rfl := Option.some.inj h
      rw [List.length_replicate]
      decide
    · cases h

/-- The request for the key `"e"` is valid. -/
theorem mgetRequest_absent : MgetRequest fullDb hdr7 [text "e"] where
  header := rfl
  pos := by decide
  max := by decide
  line := by
    intro key hkey
    obtain rfl := List.mem_singleton.mp hkey
    exact ⟨by decide, by decide⟩
  size := by decide +kernel
  val _ _ _ := length_fullDb_le

/-- Its reply is decoded to the array with `NULL`, if it is not an error. -/
theorem mget_roundTrip_absent :
    ∃ ds, processCommandFromUdpClient fullDb (hdr7 ++ mgetCommand [text "e"]) = .ok ds ∧
      (¬text "-Err" <+: payloads ds → responseDecode (payloads ds) = .ok [.null]) := by
  obtain ⟨ds, hprocess, hiff⟩ := mget_roundTrip_iff mgetRequest_absent
  refine ⟨ds, hprocess, hiff.mpr ?_⟩
  decide +kernel

/-- The keys `"a"` to `"e"`, of which the last one is absent. -/
def fullKeys : List Bytes := [text "a", text "b", text "c", text "d", text "e"]

/-- The request for these keys is valid. -/
theorem mgetRequest_full : MgetRequest fullDb hdr7 fullKeys where
  header := rfl
  pos := by decide
  max := by decide
  line := by
    intro key hkey
    have hmem : ∀ key ∈ fullKeys, ¬crlf <:+: key ∧ (0 : UInt8) ∉ key := by decide
    exact ⟨(hmem key hkey).1, (hmem key hkey).2⟩
  size := by decide +kernel
  val _ _ _ := length_fullDb_le

/-- The reply for these keys uses the buffer up. -/
theorem full_fullKeys :
    Full (multiBulk (fullKeys.map (stored fullDb))) (fullKeys.map (stored fullDb)) := by
  have hvalues : fullKeys.map (stored fullDb) =
      [some (List.replicate 16384 120), some (List.replicate 16384 120),
        some (List.replicate 16384 120), some (List.replicate 16335 120), none] := rfl
  have hdec : (decimal 16384).length = 5 ∧ (decimal 16335).length = 5 := by decide +kernel
  refine ⟨?_, by rw [hvalues]; rfl⟩
  rw [hvalues]
  simp only [multiBulk, bulkText, List.flatMap_cons, List.flatMap_nil, List.length_append,
    List.length_replicate, hdec.1, hdec.2]
  rfl

/-- The reply for these keys is not an error, and the decoder refuses it. -/
theorem mget_roundTrip_full :
    MgetRequest fullDb hdr7 fullKeys ∧
    ∃ ds, processCommandFromUdpClient fullDb (hdr7 ++ mgetCommand fullKeys) = .ok ds ∧
      ¬text "-Err" <+: payloads ds ∧
      responseDecode (payloads ds) = .error "incompletely response." :=
  ⟨mgetRequest_full, mgetRequest_full.mget_full full_fullKeys⟩

end MgCommonUtils.URedis
