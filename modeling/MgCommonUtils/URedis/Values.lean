import MgCommonUtils.URedis.Decode

/-!
# What a reply shows of the values

`getCommandforUdp` copies at most `val_len` bytes of a value into `val`, but returns the length of
the value, and `processCommandFromUdpClient` then copies as many bytes from `val` as it is told, if
the reply has room for them. So the bulks of the reply are the values that are stored, or the reply
is an error, if and only if the reply has no room for any value that is longer than `val`
(`valuesOnly_iff`). Where there is room, the server reads the bytes behind `val`.
-/

namespace MgCommonUtils.URedis

open MgCommonUtils.Lib

/-! ## Replies -/

/-- The bulk of a value that is stored, or of none. The bulk of none has a NUL in place of its line
feed where it uses the buffer up. -/
def IsBulkOf : Option Bytes → Bytes → Prop
  | none, bulk => bulk = text "$-1\r\n" ∨ bulk = text "$-1\r" ++ [0]
  | some v, bulk => bulk = text "$" ++ decimal v.length ++ crlf ++ v ++ crlf

/-- The reply is the error, or its bulks behind the given bytes are the values. -/
def ValuesOnly (front : Bytes) (values : List (Option Bytes)) (reply : Bytes) : Prop :=
  reply = tooBig ∨
    ∃ bulks, List.Forall₂ IsBulkOf values bulks ∧ reply = front ++ bulks.flatten

/-- The reply has room for a value that is longer than `val`, behind the given bytes and the bulks
of the values in front of it. -/
def Overreads (wlen : ℕ) (values : List (Option Bytes)) : Prop :=
  ∃ before v after, values = before ++ some v :: after ∧ valLen < v.length ∧
    wlen + (before.flatMap bulkText).length + v.length + 10 ≤ wbufLen

/-! ## The bulks -/

/-- The result of `getCommandforUdp` for a value of any length. -/
def clamped : Option Bytes → ℤ × Bytes
  | none => (-1, [])
  | some v => (v.length, v.take valLen)

/-- A value is looked up, as far as there is room for it. -/
theorem getCommandforUdp_clamped (db : Bytes → Option Robj) {key : Bytes} (hline : IsLine key) :
    getCommandforUdp db key valLen = clamped (stored db key) := by
  rw [getCommandforUdp, cstr_of_isLine hline, stored]
  cases db key with
  | none => rfl
  | some o =>
    cases o with
    | raw ptr => rfl
    | int ptr =>
      have hlen := length_decimalInt_le ptr
      have htake : (decimalInt ptr.toInt).take (valLen - 1) =
          (decimalInt ptr.toInt).take valLen := by
        rw [List.take_of_length_le (hlen.trans (by decide)),
          List.take_of_length_le (hlen.trans (by decide))]
      exact congrArg _ htake
    | other => rfl

/-- What is appended for an absent key. -/
theorem appendBulk_absent (wbuf : Bytes) : appendBulk wbuf (clamped none).1 (clamped none).2 =
    if wbuf.length + 5 > wbufLen then .ok none
    else .ok (some (wbuf ++
      if wbuf.length + 5 = wbufLen then text "$-1\r" ++ [0] else text "$-1\r\n")) := by
  split_ifs with hroom hfull
  · exact appendBulk_of_no_room (o := none) hroom
  · rw [show clamped none = lookup none from rfl, appendBulk_full hfull,
      List.dropLast_append_of_ne_nil (by decide), List.append_assoc]
    rfl
  · exact appendBulk_of_room (o := none) (fun v h => by cases h) (not_lt.mp hroom) fun _ => hfull

/-- What is appended for a value: it is copied from `val`, or from `val` and the bytes behind it. -/
theorem appendBulk_value (wbuf v : Bytes) :
    appendBulk wbuf (clamped (some v)).1 (clamped (some v)).2 =
      if wbuf.length + v.length + 10 > wbufLen then .ok none
      else if valLen < v.length then .error .outOfBounds
      else .ok (some (wbuf ++ bulkText (some v))) := by
  split_ifs with hroom hlong
  · change appendBulk wbuf v.length _ = _
    rw [appendBulk, if_neg (by omega), Int.toNat_natCast, if_pos hroom]
  · change appendBulk wbuf v.length _ = _
    rw [appendBulk, if_neg (by omega), Int.toNat_natCast, if_neg hroom, if_pos hlong]
  · have hval : clamped (some v) = lookup (some v) := by
      rw [clamped, List.take_of_length_le (not_lt.mp hlong)]
      rfl
    rw [hval]
    refine appendBulk_of_room ?_ (not_lt.mp hroom) fun h => by cases h
    intro u hu
    obtain rfl := Option.some.inj hu
    exact not_lt.mp hlong

/-- Where there is room for a value that is longer than `val`, bytes behind `val` are read. -/
theorem appendBulks_overread {wbuf : Bytes} {values : List (Option Bytes)}
    (h : Overreads wbuf.length values) :
    appendBulks wbuf (values.map clamped) = .error .outOfBounds := by
  obtain ⟨before, v, after, rfl, hlong, hroom⟩ := h
  induction before generalizing wbuf with
  | nil =>
    have hfit : ¬wbuf.length + v.length + 10 > wbufLen := not_lt.mpr hroom
    rw [List.nil_append, List.map_cons, appendBulks, appendBulk_value, if_neg hfit, if_pos hlong]
    rfl
  | cons o before ih =>
    rw [List.flatMap_cons, List.length_append] at hroom
    rw [List.cons_append, List.map_cons, appendBulks]
    cases o with
    | none =>
      have hfit : wbuf.length + 5 < wbufLen := by
        have : (bulkText none).length = 5 := rfl
        omega
      rw [appendBulk_absent, if_neg (by omega), if_neg (by omega)]
      refine ih ?_
      rw [List.length_append]
      exact (Nat.add_assoc wbuf.length 5 _ ▸ hroom : _)
    | some u =>
      have hlen : (bulkText (some u)).length ≥ u.length := by
        simp only [bulkText, List.length_append]
        omega
      rw [appendBulk_value, if_neg (by omega)]
      by_cases hu : valLen < u.length
      · rw [if_pos hu]
        rfl
      · rw [if_neg hu]
        refine ih ?_
        rw [List.length_append]
        omega

/-- Where there is not, the bulks are the values, or the reply is the error. -/
theorem appendBulks_valuesOnly {wbuf : Bytes} {values : List (Option Bytes)}
    (h : ¬Overreads wbuf.length values) :
    ∃ reply, appendBulks wbuf (values.map clamped) = .ok reply ∧
      ValuesOnly wbuf values reply := by
  induction values generalizing wbuf with
  | nil => exact ⟨wbuf, rfl, .inr ⟨[], .nil, by simp⟩⟩
  | cons o values ih =>
    -- What holds of the longer reply holds of this one.
    have hstep : ∀ bulk : Bytes, IsBulkOf o bulk → bulk.length = (bulkText o).length →
        ∃ reply, appendBulks (wbuf ++ bulk) (values.map clamped) = .ok reply ∧
          ValuesOnly wbuf (o :: values) reply := by
      intro bulk hbulk hlen
      have hnot : ¬Overreads (wbuf ++ bulk).length values := by
        rintro ⟨before, v, after, rfl, hlong, hroom⟩
        refine h ⟨o :: before, v, after, rfl, hlong, ?_⟩
        rw [List.flatMap_cons, List.length_append]
        rw [List.length_append] at hroom
        omega
      obtain ⟨reply, hreply, htooBig | ⟨bulks, hbulks, rfl⟩⟩ := ih hnot
      · exact ⟨reply, hreply, .inl htooBig⟩
      · refine ⟨_, hreply, .inr ⟨bulk :: bulks, .cons hbulk hbulks, ?_⟩⟩
        rw [List.flatten_cons, List.append_assoc]
    rw [List.map_cons, appendBulks]
    cases o with
    | none =>
      rw [appendBulk_absent]
      split_ifs with hroom hfull
      · exact ⟨tooBig, rfl, .inl rfl⟩
      · exact hstep _ (.inr rfl) rfl
      · exact hstep _ (.inl rfl) rfl
    | some v =>
      rw [appendBulk_value]
      split_ifs with hroom hlong
      · exact ⟨tooBig, rfl, .inl rfl⟩
      · refine absurd ⟨[], v, values, rfl, hlong, ?_⟩ h
        rw [List.flatMap_nil, List.length_nil]
        omega
      · refine hstep _ ?_ rfl
        rw [IsBulkOf, bulkText]
        simp only [List.append_assoc]

/-! ## The reply to a request -/

/-- A request of a client for the values of keys: a header and the command in one datagram. -/
structure KeysRequest (hdr : Bytes) (keys : List Bytes) : Prop where
  /-- The header has 8 bytes. -/
  header : hdr.length = 8
  /-- There is a key. -/
  pos : keys ≠ []
  /-- There are at most 100 keys. -/
  max : keys.length ≤ 100
  /-- A key is a line. -/
  line : ∀ key ∈ keys, IsLine key
  /-- The request fits into the buffer. -/
  size : (hdr ++ mgetCommand keys).length ≤ psize

/-- The first line of the reply. -/
def replyFront (keys : List Bytes) : Bytes := text "*" ++ decimal keys.length ++ crlf

/-- The reply to a request is made of the values that are stored for its keys, or an error, if and
only if it has no room for any of them that is longer than `val`. -/
theorem valuesOnly_iff (db : Bytes → Option Robj) {hdr : Bytes} {keys : List Bytes}
    (h : KeysRequest hdr keys) :
    (∃ ds, processCommandFromUdpClient db (hdr ++ mgetCommand keys) = .ok ds ∧
      ValuesOnly (replyFront keys) (keys.map (stored db)) (payloads ds)) ↔
      ¬Overreads (replyFront keys).length (keys.map (stored db)) := by
  obtain ⟨req, hprocess⟩ := process_mgetCommand db h.pos h.max h.line h.header h.size
  have hlookup : (keys.map fun key => getCommandforUdp db key valLen) =
      (keys.map (stored db)).map clamped := by
    rw [List.map_map]
    exact List.map_congr_left fun key hkey => getCommandforUdp_clamped db (h.line key hkey)
  rw [hlookup, ← replyFront] at hprocess
  rw [hprocess]
  constructor
  · rintro ⟨ds, hds, -⟩ hover
    rw [appendBulks_overread hover] at hds
    cases hds
  · intro hnot
    obtain ⟨reply, hreply, hvalues⟩ := appendBulks_valuesOnly hnot
    refine ⟨sendLoop req reply, by rw [hreply]; rfl, ?_⟩
    rwa [payloads, payloads_sendLoop]

/-- The request 7 for the key `"a"`. -/
theorem keysRequest_a : KeysRequest hdr7 [text "a"] where
  header := rfl
  pos := by decide
  max := by decide
  line := by
    intro key hkey
    obtain rfl := List.mem_singleton.mp hkey
    exact ⟨by decide, by decide⟩
  size := by decide +kernel

/-- A store in which every key has a value of two bytes. -/
def shortDb (_ : Bytes) : Option Robj := some (.raw [120, 121])

/-- The reply is the value. -/
theorem valuesOnly_iff_short :
    ∃ ds, processCommandFromUdpClient shortDb (hdr7 ++ mgetCommand [text "a"]) = .ok ds ∧
      ValuesOnly (replyFront [text "a"]) [some [120, 121]] (payloads ds) := by
  refine (valuesOnly_iff shortDb keysRequest_a).mpr ?_
  rintro ⟨before, v, after, hvalues, hlong, -⟩
  have hmem : some v ∈ [text "a"].map (stored shortDb) := hvalues ▸ by simp
  obtain rfl : v = [120, 121] := Option.some.inj (List.mem_singleton.mp hmem)
  exact absurd hlong (by decide)

/-- A store in which every key has a value of 16385 bytes. -/
def longDb (_ : Bytes) : Option Robj := some (.raw (List.replicate 16385 120))

/-- The server reads behind `val` for the reply. -/
theorem not_valuesOnly_long : KeysRequest hdr7 [text "a"] ∧
    processCommandFromUdpClient longDb (hdr7 ++ mgetCommand [text "a"]) = .error .outOfBounds ∧
    ¬∃ ds, processCommandFromUdpClient longDb (hdr7 ++ mgetCommand [text "a"]) = .ok ds ∧
      ValuesOnly (replyFront [text "a"]) ([text "a"].map (stored longDb)) (payloads ds) := by
  have hover : Overreads (replyFront [text "a"]).length ([text "a"].map (stored longDb)) := by
    refine ⟨[], List.replicate 16385 120, [], rfl, ?_, ?_⟩
    · rw [List.length_replicate]
      decide
    · rw [List.length_replicate]
      decide
  obtain ⟨req, hprocess⟩ := process_mgetCommand longDb keysRequest_a.pos keysRequest_a.max
    keysRequest_a.line keysRequest_a.header keysRequest_a.size
  have hlookup : ([text "a"].map fun key => getCommandforUdp longDb key valLen) =
      ([text "a"].map (stored longDb)).map clamped := rfl
  rw [hlookup, ← replyFront, appendBulks_overread hover] at hprocess
  refine ⟨keysRequest_a, hprocess, ?_⟩
  rintro ⟨ds, hds, -⟩
  rw [hprocess] at hds
  cases hds

end MgCommonUtils.URedis
