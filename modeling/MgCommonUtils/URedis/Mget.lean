import MgCommonUtils.URedis.Client
import MgCommonUtils.URedis.Request

/-!
# A call of the UDP client

`uRedis_mget` of `uRedis.php` from its arguments to its result: the request goes to
`processCommandFromUdpClient`, the datagrams of the reply arrive as the network pleases, and
`response_decode` reads what `implode` makes of them. What the call returns is decided by the values
of its keys alone (`answer`), when all datagrams arrive, for the first time in the order of their
numbers. Where any of them does not arrive, the call fails, in whatever order the others come, and
returns no part of the values (`mget_spec`).
-/

namespace MgCommonUtils.URedis

open MgCommonUtils.Lib

/-! ## The model -/

/-- A fixed text in `$err`. -/
def errText (message : String) : PhpValue := .string (text message)

/-- What `uRedis_mget` makes of `$rstr`: the array, or `$err`. -/
def readReply (rstr : Bytes) : Except PhpValue (List PhpValue) :=
  if rstr.head? = some 45 then .error (.ofSubstr (substr rstr 6 rstr.length))
  else if rstr.head? = some 42 then (responseDecode rstr).mapError errText
  else .error (errText "unknown response string.")

/-- `uRedis_mget`, where the datagrams `ds` arrive: the array, or `$err`. -/
def uRedisMgetCall (host : Bytes) (numericPort : Bool) (req : ℕ) (keys : List Bytes)
    (ds : List Bytes) : Except PhpValue (List PhpValue) := do
  let _ ← (uRedisMget host numericPort req keys).mapError errText
  let rstr ← (uRedisReceive req ds).mapError errText
  readReply rstr

/-! ## What the call should return -/

/-- The server finds room for the bulks of the values, one behind the other. -/
def Room (wlen : ℕ) : List (Option Bytes) → Prop
  | [] => True
  | o :: values => wlen + bulkRoom o ≤ wbufLen ∧ Room (wlen + (bulkText o).length) values

/-- The length of the first line of a reply. -/
def countLength (values : List (Option Bytes)) : ℕ :=
  (text "*" ++ decimal values.length ++ crlf).length

instance decidableRoom : ∀ (wlen : ℕ) (values : List (Option Bytes)), Decidable (Room wlen values)
  | _, [] => .isTrue trivial
  | wlen, o :: values =>
    have := decidableRoom (wlen + (bulkText o).length) values
    inferInstanceAs (Decidable (_ ∧ _))

instance (reply : Bytes) (values : List (Option Bytes)) : Decidable (Full reply values) :=
  inferInstanceAs (Decidable (_ ∧ _))

/-- The result for the values of the keys. A reply that uses the buffer up and ends with an absent
key has lost its line feed. -/
def answer (values : List (Option Bytes)) : Except PhpValue (List PhpValue) :=
  if Full (multiBulk values) values then .error (errText "incompletely response.")
  else if Room (countLength values) values then .ok (values.map .ofOption)
  else .error (errText "response is too big.")

/-- What arrives of a reply of `n` datagrams to the request `req`: some of its datagrams, in any
order and any of them more than once, and datagrams of other requests. -/
structure Arrives (req n : ℕ) (as : List Arrival) : Prop where
  /-- The datagrams of the reply. -/
  own : ∀ i, .own i ∈ as → i < n
  /-- The others. -/
  other : ∀ d, .other d ∈ as → ∃ hdr, headerDecode (d.take 1024) = some hdr ∧ hdr.req ≠ req

/-! ## The server -/

/-- A bulk is as long as it should be, also where it uses the buffer up. -/
theorem appendBulk_length {wbuf : Bytes} {o : Option Bytes}
    (hval : ∀ v, o = some v → v.length ≤ valLen) (h : wbuf.length + bulkRoom o ≤ wbufLen) :
    ∃ w, appendBulk wbuf (lookup o).1 (lookup o).2 = .ok (some w) ∧
      w.length = wbuf.length + (bulkText o).length := by
  by_cases hnul : o = none ∧ wbuf.length + 5 = wbufLen
  · obtain ⟨rfl, hlen5⟩ := hnul
    refine ⟨_, appendBulk_full hlen5, ?_⟩
    have hbulk : (bulkText none).length = 5 := rfl
    rw [List.length_append, List.length_dropLast, List.length_append, List.length_singleton, hbulk]
    omega
  · exact ⟨_, appendBulk_of_room hval h fun ho h5 => hnul ⟨ho, h5⟩, List.length_append⟩

/-- Without room for all bulks, the reply is the error. -/
theorem appendBulks_of_not_room {wbuf : Bytes} {values : List (Option Bytes)}
    (hval : ∀ v, some v ∈ values → v.length ≤ valLen) (h : ¬Room wbuf.length values) :
    appendBulks wbuf (values.map lookup) = .ok tooBig := by
  induction values generalizing wbuf with
  | nil => exact absurd trivial h
  | cons o values ih =>
    rw [List.map_cons, appendBulks]
    by_cases hroom : wbuf.length + bulkRoom o ≤ wbufLen
    · have hval' : ∀ v, o = some v → v.length ≤ valLen := fun v h => hval v (h ▸ List.mem_cons_self)
      obtain ⟨w, hw, hlen⟩ := appendBulk_length hval' hroom
      simp only [bind, Except.bind, hw]
      refine ih (fun v h => hval v (List.mem_cons_of_mem o h)) fun hrest => h ⟨hroom, ?_⟩
      rwa [← hlen]
    · rw [appendBulk_of_no_room (by omega)]
      rfl

/-- With room for all bulks, the reply is complete, unless it uses the buffer up. -/
theorem appendBulks_of_room {wbuf : Bytes} {values : List (Option Bytes)}
    (hval : ∀ v, some v ∈ values → v.length ≤ valLen) (h : Room wbuf.length values)
    (hfull : ¬Full (wbuf ++ values.flatMap bulkText) values) :
    appendBulks wbuf (values.map lookup) = .ok (wbuf ++ values.flatMap bulkText) := by
  induction values generalizing wbuf with
  | nil =>
    rw [List.flatMap_nil, List.append_nil]
    rfl
  | cons o values ih =>
    obtain ⟨hroom, hrest⟩ := h
    have hval' : ∀ v, o = some v → v.length ≤ valLen := fun v h => hval v (h ▸ List.mem_cons_self)
    have hnul : o = none → wbuf.length + 5 ≠ wbufLen := by
      rintro rfl h5
      cases values with
      | nil =>
        refine hfull ⟨?_, rfl⟩
        rw [List.flatMap_cons, List.flatMap_nil, List.append_nil, List.length_append]
        exact h5
      | cons next values =>
        -- The bulk behind it would find no room.
        have hnext : wbuf.length + 5 + bulkRoom next ≤ wbufLen := hrest.1
        have : 0 < bulkRoom next := by
          cases next with
          | none => decide
          | some v => exact Nat.succ_pos _
        omega
    rw [List.map_cons, appendBulks, appendBulk_of_room hval' hroom hnul, List.flatMap_cons,
      ← List.append_assoc]
    refine ih (fun v h => hval v (List.mem_cons_of_mem o h)) ?_ fun hfull' => hfull ?_
    · rwa [List.length_append]
    · have hnil : values ≠ [] := by
        rintro rfl
        exact absurd hfull'.2 (by decide)
      rw [Full, List.flatMap_cons, ← List.append_assoc, List.getLast?_cons_of_ne_nil hnil]
      exact hfull'

/-- With room for all bulks, the reply fits into the buffer. -/
theorem Room.length_le {wlen : ℕ} {values : List (Option Bytes)}
    (hval : ∀ v, some v ∈ values → v.length ≤ valLen) (hwlen : wlen ≤ wbufLen)
    (h : Room wlen values) : wlen + (values.flatMap bulkText).length ≤ wbufLen := by
  induction values generalizing wlen with
  | nil => exact hwlen
  | cons o values ih =>
    obtain ⟨hroom, hrest⟩ := h
    have hbulk : (bulkText o).length ≤ bulkRoom o := by
      cases o with
      | none => exact le_rfl
      | some v =>
        have hline := length_bulkLine_le (hval v List.mem_cons_self)
        have hlen : (bulkText (some v)).length =
            (text "$" ++ decimal v.length ++ crlf).length + (v.length + 2) := by
          rw [bulkText, List.length_append, @List.length_append _ v crlf, length_crlf]
        have hroom : bulkRoom (some v) = v.length + 10 := rfl
        omega
    have hrec := ih (fun v h => hval v (List.mem_cons_of_mem o h)) (by omega) hrest
    rw [List.flatMap_cons, List.length_append]
    omega

/-- A reply that starts with a star is decoded. -/
theorem readReply_star (s : Bytes) :
    readReply (42 :: s) = (responseDecode (42 :: s)).mapError errText :=
  (if_neg (show (42 :: s).head? ≠ some 45 by simp)).trans (if_pos rfl)

/-- The error. -/
theorem readReply_tooBig : readReply tooBig = .error (errText "response is too big.") := by
  decide +kernel

/-- The loop over the keys puts together a reply that fits into the buffer, and that the client
reads as it should. -/
theorem appendBulks_ok {values : List (Option Bytes)} (hpos : values ≠ [])
    (hmax : values.length ≤ 100) (hval : ∀ v, some v ∈ values → v.length ≤ valLen) :
    ∃ reply, appendBulks (text "*" ++ decimal values.length ++ crlf) (values.map lookup) =
      .ok reply ∧ reply.length ≤ wbufLen ∧ readReply reply = answer values := by
  have hfront : (text "*" ++ decimal values.length ++ crlf).length ≤ wbufLen := by
    have hdec : (decimal values.length).length ≤ 3 := length_decimal_le (by decide) (by omega)
    have hstar : (text "*").length = 1 := rfl
    rw [List.length_append, List.length_append, length_crlf, hstar]
    unfold wbufLen
    omega
  obtain ⟨t, ht, hnil⟩ : ∃ t, multiBulk values = 42 :: t ∧ t ≠ [] := ⟨_, rfl, by simp [crlf]⟩
  unfold answer
  by_cases hfull : Full (multiBulk values) values
  · -- The line feed at the end is lost.
    refine ⟨_, appendBulks_full hval hfull, ?_, ?_⟩
    · have hlen : (multiBulk values).length = wbufLen := hfull.1
      change ((multiBulk values).dropLast ++ [0]).length ≤ wbufLen
      rw [List.length_append, List.length_dropLast, hlen]
      decide
    · change readReply ((multiBulk values).dropLast ++ [0]) = _
      rw [if_pos hfull, ht, List.dropLast_cons_of_ne_nil hnil, List.cons_append, readReply_star,
        responseDecode_nul]
      rfl
  rw [if_neg hfull]
  by_cases hroom : Room (countLength values) values
  · refine ⟨_, appendBulks_of_room hval hroom hfull, ?_, ?_⟩
    · rw [List.length_append]
      exact hroom.length_le hval hfront
    · have hdecode := responseDecode_multiBulk hpos (by omega) fun v hv =>
        (hval v hv).trans_lt (by decide)
      change readReply (multiBulk values) = _
      rw [if_pos hroom]
      rw [ht] at hdecode ⊢
      rw [readReply_star, hdecode]
      rfl
  · rw [if_neg hroom]
    exact ⟨_, appendBulks_of_not_room hval hroom, by decide, readReply_tooBig⟩

/-! ## The datagrams -/

/-- The reply in datagrams. -/
def replyOf (req : ℕ) (wbuf : Bytes) : Reply req (wbuf.length / payloadLen + 1) where
  payload i := (wbuf.drop (i * payloadLen)).take payloadLen

/-- The server sends them in the order of their numbers. -/
theorem sendLoop_eq {req : ℕ} {wbuf : Bytes} (hreq : req ≤ 65535) (hlen : wbuf.length ≤ wbufLen) :
    sendLoop req wbuf =
      (List.range (wbuf.length / payloadLen + 1)).map (replyOf req wbuf).datagram := by
  have hn : wbuf.length / payloadLen + 1 ≤ 65 := by
    unfold wbufLen payloadLen at *
    omega
  refine List.map_congr_left fun i hi => ?_
  have hi : i < wbuf.length / payloadLen + 1 := List.mem_range.mp hi
  rw [headerEncode_of_le hreq (by omega) (by omega)]
  rfl

/-- They fit into the client's buffer. -/
theorem replyOf_fits (req : ℕ) (wbuf : Bytes) : (replyOf req wbuf).Fits 1024 := by
  intro i _
  have hle := List.length_take_le payloadLen (wbuf.drop (i * payloadLen))
  change (word req ++ word i ++ word _ ++ [0, 0] ++
    (wbuf.drop (i * payloadLen)).take payloadLen).length ≤ 1024
  rw [List.length_append]
  change 8 + _ ≤ 1024
  unfold payloadLen at *
  omega

/-- Together they are the reply. -/
theorem replyOf_text {req : ℕ} {wbuf : Bytes} (hreq : req ≤ 65535) (hlen : wbuf.length ≤ wbufLen) :
    (replyOf req wbuf).text = wbuf := by
  have hpayloads := payloads_sendLoop req wbuf
  have hn : wbuf.length / payloadLen + 1 ≤ 65 := by
    unfold wbufLen payloadLen at *
    omega
  rw [sendLoop_eq hreq hlen, List.map_map] at hpayloads
  refine (congrArg List.flatten (List.map_congr_left fun i hi => ?_)).trans hpayloads
  have hi : i < wbuf.length / payloadLen + 1 := List.mem_range.mp hi
  exact ((replyOf req wbuf).datagram_spec hreq hi (by omega)).2.symm

/-! ## The client -/

/-- A client that does not see all datagrams runs into the timeout of its socket. -/
theorem receiveLoop_short {req n : ℕ} (r : Reply req n) (hfits : r.Fits 1024) (hreq : req ≤ 65535)
    (hn : n ≤ 65535) {as : List Arrival} {seen : List ℕ} (hlt : ∀ i ∈ firstSeen seen as, i < n)
    (hother : ∀ d, .other d ∈ as → ∃ hdr, headerDecode (d.take 1024) = some hdr ∧ hdr.req ≠ req)
    (hshort : (firstSeen seen as).length < n) :
    receiveLoop req 1024 (r.stored seen) (as.map (Arrival.bytes r)) =
      .error "recvfrom failed." := by
  induction as generalizing seen with
  | nil => rfl
  | cons a as ih =>
    have hother' := fun d hd => hother d (List.mem_cons_of_mem _ hd)
    rw [List.map_cons, receiveLoop]
    cases a with
    | other d =>
      obtain ⟨hdr, hdec, hne⟩ := hother d List.mem_cons_self
      simp only [Arrival.bytes, hdec]
      rw [if_pos (Ne.symm hne)]
      exact ih hlt hother' hshort
    | own i =>
      have hi : i < n := hlt i (mem_firstSeen.mpr (.inr List.mem_cons_self))
      obtain ⟨hdec, hdrop⟩ := r.datagram_spec hreq hi hn
      have hwhole : (r.datagram i).take 1024 = r.datagram i := List.take_of_length_le (hfits i hi)
      simp only [Arrival.bytes, hwhole, hdec, hdrop]
      rw [if_neg (by simp), r.put_stored]
      rw [firstSeen] at hlt hshort
      generalize hnext : (if i ∈ seen then seen else seen ++ [i]) = next at hlt hshort ⊢
      obtain ⟨later, hlater⟩ := exists_firstSeen_eq next as
      have hlen : (r.stored next).length = next.length := List.length_map _
      rw [hlater, List.length_append] at hshort
      rw [hlen, if_neg (by omega)]
      exact ih hlt hother' (by rw [hlater, List.length_append]; exact hshort)

/-- What the client has seen is of the reply. -/
theorem Arrives.lt {req n : ℕ} {as : List Arrival} (h : Arrives req n as) :
    ∀ i ∈ firstSeen [] as, i < n := by
  intro i hi
  obtain hnil | hown := mem_firstSeen.mp hi
  · exact absurd hnil List.not_mem_nil
  · exact h.own i hown

/-- A client that misses one of the datagrams has seen less than `n`. -/
theorem Arrives.length_lt {req n : ℕ} {as : List Arrival} (h : Arrives req n as) {i : ℕ}
    (hi : i < n) (hlost : .own i ∉ as) : (firstSeen [] as).length < n := by
  have hnew : i ∉ firstSeen [] as := fun hmem =>
    (mem_firstSeen.mp hmem).elim List.not_mem_nil hlost
  have hnodup : (i :: firstSeen [] as).Nodup :=
    List.nodup_cons.mpr ⟨hnew, nodup_firstSeen List.nodup_nil as⟩
  have hsub : i :: firstSeen [] as ⊆ List.range n := by
    intro k hk
    rw [List.mem_range]
    obtain rfl | hk := List.mem_cons.mp hk
    · exact hi
    · exact h.lt k hk
  -- With the one that is lost they are still among `n` numbers.
  calc (firstSeen [] as).length < (i :: firstSeen [] as).length := Nat.lt_succ_self _
    _ ≤ (List.range n).length := (hnodup.subperm hsub).length_le
    _ = n := List.length_range

/-- The client fails where one of the datagrams does not arrive. -/
theorem Arrives.receive_lost {req n : ℕ} {as : List Arrival} (h : Arrives req n as)
    (r : Reply req n) (hfits : r.Fits 1024) (hreq : req ≤ 65535) (hn : n ≤ 65535) {i : ℕ}
    (hi : i < n) (hlost : .own i ∉ as) :
    uRedisReceive req (as.map (Arrival.bytes r)) = .error "recvfrom failed." :=
  receiveLoop_short r hfits hreq hn h.lt h.other (h.length_lt hi hlost)

/-- The client has the reply where all datagrams arrive, for the first time in their order. -/
theorem Arrives.receive_all {req n : ℕ} {as : List Arrival} (h : Arrives req n as)
    (r : Reply req n) (hfits : r.Fits 1024) (hreq : req ≤ 65535) (hpos : 0 < n) (hn : n ≤ 65535)
    (hall : firstSeen [] as = List.range n) :
    uRedisReceive req (as.map (Arrival.bytes r)) = .ok r.text := by
  have hlen : (firstSeen [] as).length = n := by rw [hall, List.length_range]
  have hreceive := receiveLoop_eq r hfits hreq hn
    (fun i hi => h.lt i (mem_firstSeen.mpr (.inr hi))) h.other
    (show ([] : List ℕ).length < n from hpos) hlen
  rw [hall] at hreceive
  exact hreceive

/-! ## The call -/

/-- The header of a request has its id. -/
theorem header_uRedisMget {host : Bytes} {numericPort : Bool} {req : ℕ} {keys : List Bytes}
    {d : Bytes} (hreq : req ≤ 65535) (hd : uRedisMget host numericPort req keys = .ok d)
    (rest : Bytes) : headerDecode (d ++ rest) = some ⟨req, 0, 1⟩ := by
  have henc := headerEncode_of_le hreq (Nat.zero_le 65535) (show 1 ≤ 65535 by decide)
  have hhdr := length_of_headerEncode henc
  unfold uRedisMget at hd
  rw [henc, Option.getD_some] at hd
  dsimp only at hd
  split_ifs at hd
  obtain rfl := Except.ok.inj hd
  rw [List.take_of_length_le (by rw [List.length_append, hhdr, Nat.add_comm]), List.append_assoc]
  exact headerDecode_headerEncode henc _

/-- The server answers a request of the client with what the loop over the keys puts together, under
the id of the request. -/
theorem process_uRedisMget (db : Bytes → Option Robj) {host : Bytes} {numericPort : Bool} {req : ℕ}
    {keys : List Bytes} {d : Bytes} (hreq : req ≤ 65535)
    (hd : uRedisMget host numericPort req keys = .ok d) (hline : ∀ key ∈ keys, IsLine key) :
    processCommandFromUdpClient db d =
      (appendBulks (text "*" ++ decimal keys.length ++ crlf)
        (keys.map fun key => getCommandforUdp db key valLen)).map (sendLoop req) := by
  have hdecode := header_uRedisMget hreq hd
  obtain ⟨hpos, hmax, hsize, hdr, hhdr, rfl⟩ := uRedisMget_eq_ok hreq hd
  obtain ⟨hlong, hstar⟩ := accepts_mgetCommand hhdr keys
  unfold processCommandFromUdpClient
  rw [List.take_of_length_le hsize, min_eq_left hsize]
  dsimp only
  rw [hdecode, if_neg (not_or.mpr ⟨by omega, not_not.mpr (hstar _)⟩),
    replyText_mgetCommand db hpos hmax hline (length_key_lt hhdr hsize) hhdr, snprintf_front hmax]
  rfl

/-- A call of `uRedis_mget` for keys that are lines, with values that fit into the server's buffer
for one: when a datagram of the reply does not arrive, it fails, and when all of them do, for the
first time in the order of their numbers, it returns what the values say. -/
theorem mget_spec {db : Bytes → Option Robj} {host : Bytes} {numericPort : Bool} {req : ℕ}
    {keys : List Bytes} {d : Bytes} (hreq : req ≤ 65535)
    (hd : uRedisMget host numericPort req keys = .ok d) (hline : ∀ key ∈ keys, IsLine key)
    (hval : ∀ key ∈ keys, ∀ v, stored db key = some v → v.length ≤ valLen) :
    ∃ n, ∃ r : Reply req n,
      processCommandFromUdpClient db d = .ok ((List.range n).map r.datagram) ∧
      ∀ as, Arrives req n as →
        ((∃ i < n, .own i ∉ as) →
          uRedisMgetCall host numericPort req keys (as.map (Arrival.bytes r)) =
            .error (errText "recvfrom failed.")) ∧
        (firstSeen [] as = List.range n →
          uRedisMgetCall host numericPort req keys (as.map (Arrival.bytes r)) =
            answer (keys.map (stored db))) := by
  obtain ⟨hpos, hmax, -⟩ := uRedisMget_eq_ok hreq hd
  have hlookup : (keys.map fun key => getCommandforUdp db key valLen) =
      (keys.map (stored db)).map lookup := by
    rw [List.map_map]
    exact List.map_congr_left fun key hkey => getCommandforUdp_eq (hline key hkey) (hval key hkey)
  have hne : keys.map (stored db) ≠ [] := mt List.map_eq_nil_iff.mp hpos
  obtain ⟨reply, hreply, hlen, hread⟩ := appendBulks_ok hne (by rwa [List.length_map])
    fun v hv => by
      obtain ⟨key, hkey, hstored⟩ := List.mem_map.mp hv
      exact hval key hkey v hstored
  rw [List.length_map] at hreply
  have hprocess := process_uRedisMget db hreq hd hline
  rw [hlookup, hreply] at hprocess
  have hn : reply.length / payloadLen + 1 ≤ 65535 := by
    unfold wbufLen payloadLen at *
    omega
  have hfits := replyOf_fits req reply
  refine ⟨_, replyOf req reply, hprocess.trans (congrArg _ (sendLoop_eq hreq hlen)),
    fun as has => ⟨?_, fun hall => ?_⟩⟩
  · -- The socket times out before the reply is whole.
    rintro ⟨i, hi, hlost⟩
    unfold uRedisMgetCall
    rw [hd, has.receive_lost _ hfits hreq hn hi hlost]
    rfl
  · -- What `implode` makes of the datagrams is the reply.
    unfold uRedisMgetCall
    rw [hd, has.receive_all _ hfits hreq (Nat.succ_pos _) hn hall, replyOf_text hreq hlen]
    exact hread

/-! ## Two keys -/

/-- The datagrams of a reply as they are sent. -/
theorem firstSeen_own {seen l : List ℕ} (h : (seen ++ l).Nodup) :
    firstSeen seen (l.map .own) = seen ++ l := by
  induction l generalizing seen with
  | nil => exact (List.append_nil seen).symm
  | cons i l ih =>
    have hi : i ∉ seen := fun hmem =>
      (List.nodup_append.mp h).2.2 i hmem i List.mem_cons_self rfl
    rw [List.map_cons, firstSeen, if_neg hi, ih, List.append_assoc, List.singleton_append]
    rwa [List.append_assoc, List.singleton_append]

/-- A database with one key. -/
def sevenDb (key : Bytes) : Option Robj := if key = text "a" then some (.int 7) else none

/-- A call for this key and an absent one returns 7 and `NULL`, when the datagrams of the reply
arrive in their order, and fails when none of them arrives. -/
theorem mget_spec_seven : ∃ n, ∃ r : Reply 9 n,
    uRedisMgetCall (text "h") true 9 [text "a", text "b"]
      (((List.range n).map Arrival.own).map (Arrival.bytes r)) =
        .ok [.string (text "7"), .null] ∧
    uRedisMgetCall (text "h") true 9 [text "a", text "b"] [] =
        .error (errText "recvfrom failed.") := by
  have hsent : uRedisMget (text "h") true 9 [text "a", text "b"] = .ok _ := rfl
  have hline : ∀ key ∈ [text "a", text "b"], IsLine key := by
    have hmem : ∀ key ∈ [text "a", text "b"], ¬crlf <:+: key ∧ (0 : UInt8) ∉ key := by decide
    exact fun key hkey => ⟨(hmem key hkey).1, (hmem key hkey).2⟩
  have hval : ∀ key ∈ [text "a", text "b"], ∀ v, stored sevenDb key = some v →
      v.length ≤ valLen := by
    intro key _ v hv
    unfold stored sevenDb at hv
    split at hv
    · obtain rfl := Option.some.inj hv
      exact (length_decimalInt_le 7).trans (by decide)
    · cases hv
  obtain ⟨n, r, hreply, hcall⟩ := mget_spec (by decide) hsent hline hval
  have hpos : 0 < n := by
    rw [Nat.pos_iff_ne_zero]
    rintro rfl
    rw [List.range_zero, List.map_nil] at hreply
    exact absurd hreply (by decide +kernel)
  have hseen : firstSeen [] ((List.range n).map .own) = List.range n :=
    firstSeen_own List.nodup_range
  have hown : Arrives 9 n ((List.range n).map .own) :=
    ⟨fun i hi => by simpa using hi, fun d hd => by simp at hd⟩
  refine ⟨n, r, ((hcall _ hown).2 hseen).trans ?_, ?_⟩
  · decide +kernel
  · have hnone : Arrives 9 n [] := ⟨fun i hi => absurd hi List.not_mem_nil,
      fun d hd => absurd hd List.not_mem_nil⟩
    exact (hcall [] hnone).1 ⟨0, hpos, List.not_mem_nil⟩

end MgCommonUtils.URedis
