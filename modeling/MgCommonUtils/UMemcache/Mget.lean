import MgCommonUtils.UMemcache.Decode
import MgCommonUtils.URedis.Client

/-!
# The client of memcached

`uMemcache_mget` of `uMemcache.php`: the request, the reply, and the tests that tell what kind of
reply it is. A memcached answers with the hits or with the line of an error (`Answer`). The first
test asks for `"END\r\n"` at the end, which the lines of errors do not have, and the branch for hits
asks for `"VALUE"` at the front, which a reply without hits does not have. So the client tells the
caller what was answered exactly where there is a hit, or where the text of an error happens to end
with `"END"` (`mget_classifies_iff`).
-/

namespace MgCommonUtils.UMemcache

open MgCommonUtils.Lib MgCommonUtils.URedis

/-! ## The model -/

/-- `UDP_MAX_PAYLOAD_SIZE`. -/
def udpMaxPayloadSize : ℕ := 1400

/-- `implode(" ",$keys)`. -/
def implodeKeys (keys : List Bytes) : Bytes := [32].intercalate keys

/-- `$cmd`. -/
def getCommand (keys : List Bytes) : Bytes := text "get " ++ implodeKeys keys ++ crlf

/-- `uMemcache_mget` up to `socket_sendto`, with `$req` from `rand` and with the result of
`is_numeric` on the port: the datagram that is sent, or `$err`. -/
def mgetRequest (host : Bytes) (numericPort : Bool) (req : ℕ) (keys : List Bytes) :
    Except Failure Bytes :=
  if keys.length = 0 ∨ keys.length > 100 then
    .error (.ofText "keys must be an non empty array and contains at most 100 keys.")
  else if host.length < 1 ∨ numericPort = false then
    .error (.ofText "host must be a string and port must be a number.")
  else
    let header := (headerEncode req 0 1).getD []
    let cmd := getCommand keys
    if cmd.length > udpMaxPayloadSize - 8 then .error (.ofText "request is too big.")
    else .ok ((header ++ cmd).take (cmd.length + 8))

section

-- `gzuncompress`, with none for `false`
variable (gzuncompress : Bytes → Option Bytes)

/-- What `uMemcache_mget` makes of `$rstr`. -/
def classify (rstr : Bytes) : Except Failure PhpMap :=
  if substr rstr (-5) rstr.length ≠ some (text "END\r\n") then
    .error (.ofText "incompletely response.")
  else if substr rstr 0 7 = some (text "ERROR\r\n") ∨
      substr rstr 0 12 = some (text "CLIENT_ERROR") ∨
      substr rstr 0 12 = some (text "SERVER_ERROR") then
    .error (.err (trim rstr))
  else if substr rstr 0 5 = some (text "VALUE") then responseDecode gzuncompress rstr
  else .error (.ofText "unknown response string.")

/-- `uMemcache_mget`, where the datagrams `ds` arrive: the array, or `$err`. -/
def uMemcacheMget (host : Bytes) (numericPort : Bool) (req : ℕ) (keys : List Bytes)
    (ds : List Bytes) : Except Failure PhpMap := do
  let _ ← mgetRequest host numericPort req keys
  let rstr ← (uMemcacheReceive req ds).mapError Failure.ofText
  classify gzuncompress rstr

end

/-! ## Answers -/

/-- What a memcached answers to a `get`. -/
inductive Answer
  /-- The hits, of which there may be none. -/
  | values (hits : List Hit)
  /-- An unknown command. -/
  | error
  /-- An error of the client, with a text of one line. -/
  | clientError (message : {s : Bytes // ¬crlf <:+: s})
  /-- An error of the server, with a text of one line. -/
  | serverError (message : {s : Bytes // ¬crlf <:+: s})

namespace Answer

/-- The line of an error, without its end. -/
def line : Answer → Bytes
  | values _ => []
  | error => text "ERROR"
  | clientError message => text "CLIENT_ERROR " ++ message
  | serverError message => text "SERVER_ERROR " ++ message

/-- The bytes of the answer. -/
def bytes : Answer → Bytes
  | values hits => hitsText hits
  | a => a.line ++ crlf

/-- What the caller is to get: the array of the hits, or the line of the error. -/
def result (gzuncompress : Bytes → Option Bytes) : Answer → Except Failure PhpMap
  | values hits => .ok (hitsMap gzuncompress hits)
  | a => .error (.err (trim a.line))

/-- There is a hit, or the text of the error ends with `"END"`. -/
def Recognised : Answer → Prop
  | values hits => hits ≠ []
  | error => False
  | clientError message | serverError message => text "END" <:+ message

end Answer

/-! ## The tests -/

/-- A suffix that does not have a byte in it is behind that byte. -/
theorem suffix_append_cons_iff {n p m : Bytes} {a : UInt8} (h : a ∉ n) :
    n <:+ p ++ a :: m ↔ n <:+ m := by
  constructor
  · intro hn
    -- Of two suffixes one is a suffix of the other.
    rcases List.suffix_or_suffix_of_suffix hn (List.suffix_append p (a :: m)) with hin | hout
    · rcases List.suffix_cons_iff.mp hin with rfl | hin
      · exact absurd List.mem_cons_self h
      · exact hin
    · exact absurd (hout.subset List.mem_cons_self) h
  · intro hn
    exact (hn.trans (List.suffix_cons a m)).trans (List.suffix_append p (a :: m))

/-- The text of an error ends with `"END"` if and only if the reply passes the first test. -/
theorem suffix_line_iff (s : Bytes) :
    text "END\r\n" <:+ s ++ crlf ↔ text "END" <:+ s := by
  have hsplit : text "END\r\n" = text "END" ++ crlf := by decide
  rw [hsplit]
  constructor
  · rintro ⟨p, hp⟩
    rw [← List.append_assoc] at hp
    exact ⟨p, List.append_cancel_right hp⟩
  · rintro ⟨p, rfl⟩
    exact ⟨p, (List.append_assoc _ _ _).symm⟩

/-- What is in front of a byte is cut out. -/
theorem substr_front {s m t : Bytes} {a : UInt8} {n : ℕ} (h : s = m ++ a :: t)
    (hn : m.length = n) : substr s 0 n = some m := by
  rw [h, ← hn]
  exact substr_append [] m (List.append_ne_nil_of_right_ne_nil m (List.cons_ne_nil a t))

namespace Answer

/-- The line of an error has bytes in front that are not trimmed. -/
theorem exists_line_cons {a : Answer} (h : ∀ hits, a ≠ .values hits) :
    ∃ b s, a.line = b :: s ∧ ¬isTrimmed b ∧ b ≠ 105 := by
  cases a with
  | values hits => exact absurd rfl (h hits)
  | error => exact ⟨69, text "RROR", by decide, by decide, by decide⟩
  | clientError message =>
    exact ⟨67, text "LIENT_ERROR " ++ message, rfl, by decide, by decide⟩
  | serverError message =>
    exact ⟨83, text "ERVER_ERROR " ++ message, rfl, by decide, by decide⟩

/-- An error ends with `"END"` if and only if its text does. -/
theorem suffix_line {a : Answer} (h : ∀ hits, a ≠ .values hits) :
    text "END" <:+ a.line ↔ a.Recognised := by
  cases a with
  | values hits => exact absurd rfl (h hits)
  | error => exact iff_of_false (by decide) id
  | clientError message =>
    have hword : text "CLIENT_ERROR " = text "CLIENT_ERROR" ++ [32] := by decide
    rw [line, hword, List.append_assoc]
    exact suffix_append_cons_iff (by decide)
  | serverError message =>
    have hword : text "SERVER_ERROR " = text "SERVER_ERROR" ++ [32] := by decide
    rw [line, hword, List.append_assoc]
    exact suffix_append_cons_iff (by decide)

/-- The bytes of an error are its line. -/
theorem bytes_of_error {a : Answer} (h : ∀ hits, a ≠ .values hits) : a.bytes = a.line ++ crlf := by
  cases a with
  | values hits => exact absurd rfl (h hits)
  | error | clientError _ | serverError _ => rfl

/-- The caller is to get the line of an error. -/
theorem result_of_error (gzuncompress : Bytes → Option Bytes) {a : Answer}
    (h : ∀ hits, a ≠ .values hits) : a.result gzuncompress = .error (.err (trim a.line)) := by
  cases a with
  | values hits => exact absurd rfl (h hits)
  | error | clientError _ | serverError _ => rfl

/-- An error whose text ends with `"END"` is told to be one. -/
theorem errorTest {a : Answer} (h : ∀ hits, a ≠ .values hits) (hrec : a.Recognised) :
    substr a.bytes 0 7 = some (text "ERROR\r\n") ∨
      substr a.bytes 0 12 = some (text "CLIENT_ERROR") ∨
      substr a.bytes 0 12 = some (text "SERVER_ERROR") := by
  cases a with
  | values hits => exact absurd rfl (h hits)
  | error => exact absurd hrec id
  | clientError message =>
    have hbytes : (clientError message).bytes =
        text "CLIENT_ERROR" ++ 32 :: (message.1 ++ crlf) := rfl
    exact .inr (.inl (substr_front (n := 12) hbytes rfl))
  | serverError message =>
    have hbytes : (serverError message).bytes =
        text "SERVER_ERROR" ++ 32 :: (message.1 ++ crlf) := rfl
    exact .inr (.inr (substr_front (n := 12) hbytes rfl))

end Answer

/-! ## The classification -/

variable (gzuncompress : Bytes → Option Bytes)

/-- A reply with a hit is decoded. -/
theorem classify_hits {hits : List Hit} (hpos : hits ≠ []) :
    classify gzuncompress (hitsText hits) = .ok (hitsMap gzuncompress hits) := by
  have hlast : substr (hitsText hits) (-5) (hitsText hits).length = some (text "END\r\n") :=
    (substr_neg_iff (m := text "END\r\n") (by decide)).mpr (List.suffix_append _ _)
  obtain ⟨rest, hrest⟩ := exists_hitsText_eq hpos
  have hvalue : substr (hitsText hits) 0 5 = some (text "VALUE") := by
    rw [hrest]
    exact substr_append [] (text "VALUE") (by simp [text])
  -- No reply starts with two different bytes.
  have hother : ∀ {k : ℕ} {m : Bytes}, ¬m.take 1 <+: [86] →
      substr (hitsText hits) 0 k ≠ some m := by
    intro k m hb hcut
    have hpre := prefix_of_substr hcut
    rw [hrest] at hpre
    exact hb (hpre.take 1)
  have herror : ¬(substr (hitsText hits) 0 7 = some (text "ERROR\r\n") ∨
      substr (hitsText hits) 0 12 = some (text "CLIENT_ERROR") ∨
      substr (hitsText hits) 0 12 = some (text "SERVER_ERROR")) := by
    rintro (h | h | h)
    · exact hother (by decide) h
    · exact hother (by decide) h
    · exact hother (by decide) h
  rw [classify, if_neg (not_not.mpr hlast), if_neg herror, if_pos hvalue,
    responseDecode_hitsText gzuncompress hpos]

/-- A reply without hits is not known. -/
theorem classify_nil : classify gzuncompress (hitsText []) =
    .error (.ofText "unknown response string.") := by
  have hlast : substr (hitsText []) (-5) (hitsText []).length = some (text "END\r\n") := by decide
  rw [classify, if_neg (not_not.mpr hlast), if_neg (by decide), if_neg (by decide)]

/-- An error is told if its text ends with `"END"`, and taken for an incomplete reply otherwise. -/
theorem classify_error {a : Answer} (h : ∀ hits, a ≠ .values hits) :
    (a.Recognised → classify gzuncompress a.bytes = .error (.err (trim a.line))) ∧
      (¬a.Recognised →
        classify gzuncompress a.bytes = .error (.ofText "incompletely response.")) := by
  have hlast : substr a.bytes (-5) a.bytes.length = some (text "END\r\n") ↔ a.Recognised := by
    rw [a.bytes_of_error h]
    exact (substr_neg_iff (m := text "END\r\n") (by decide)).trans
      ((suffix_line_iff a.line).trans (Answer.suffix_line h))
  constructor
  · intro hrec
    rw [classify, if_neg (not_not.mpr (hlast.mpr hrec)), if_pos (Answer.errorTest h hrec),
      a.bytes_of_error h, trim_append_crlf]
  · intro hrec
    rw [classify, if_pos (mt hlast.mp hrec)]

/-- The caller is told what was answered exactly where there is a hit, or where the text of an error
ends with `"END"`. -/
theorem classify_iff (a : Answer) :
    classify gzuncompress a.bytes = a.result gzuncompress ↔ a.Recognised := by
  by_cases hvalues : ∃ hits, a = .values hits
  · obtain ⟨hits, rfl⟩ := hvalues
    by_cases hpos : hits = []
    · refine iff_of_false ?_ (not_not.mpr hpos)
      rw [hpos]
      intro heq
      cases (classify_nil gzuncompress).symm.trans heq
    · exact iff_of_true (classify_hits gzuncompress hpos) hpos
  · have herror : ∀ hits, a ≠ .values hits := fun hits heq => hvalues ⟨hits, heq⟩
    obtain ⟨htold, hlost⟩ := classify_error gzuncompress herror
    rw [a.result_of_error gzuncompress herror]
    by_cases hrec : a.Recognised
    · exact iff_of_true (htold hrec) hrec
    · refine iff_of_false ?_ hrec
      rw [hlost hrec]
      intro heq
      -- The two messages start with different bytes.
      obtain ⟨b, s, hline, htrim, hne⟩ := Answer.exists_line_cons herror
      obtain ⟨t, ht⟩ := exists_trim_cons htrim s
      rw [hline, ht] at heq
      exact hne (List.cons.inj (Failure.err.inj (Except.error.inj heq))).1.symm

/-! ## The client -/

/-- For every request that is sent and every answer, split into datagrams that arrive for the first
time in their order, the client returns the array of the hits, or the line of the error, exactly
where there is a hit or the text of the error ends with `"END"`. -/
theorem mget_classifies_iff {host : Bytes} {numericPort : Bool} {req n : ℕ} {keys : List Bytes}
    {request : Bytes} (hsent : mgetRequest host numericPort req keys = .ok request)
    {as : List Arrival} (hdelivery : Delivery req n 1400 as)
    (horder : firstSeen [] as = List.range n) (r : Reply req n) (hfits : r.Fits 1400) (a : Answer)
    (hreply : r.text = a.bytes) :
    uMemcacheMget gzuncompress host numericPort req keys (as.map (Arrival.bytes r)) =
      a.result gzuncompress ↔ a.Recognised := by
  have hreceive : uMemcacheReceive req (as.map (Arrival.bytes r)) = .ok a.bytes := by
    rw [uMemcacheReceive, hdelivery.receiveLoop_eq r hfits, horder, ← hreply]
    rfl
  rw [uMemcacheMget, hsent, hreceive]
  exact classify_iff gzuncompress a

/-- The reply with the hits of `markerHits`, in two datagrams. -/
def hitReply : Reply 7 2 where
  payload i := if i = 0 then text "VALUE a 0 5\r\nEND\r\n" else
    text "\r\nVALUE b 32 0\r\n\r\nEND\r\n"

/-- Its datagrams fit the buffer. -/
theorem hitReply_fits : hitReply.Fits 1400 := by
  unfold Reply.Fits
  decide

/-- Their array is returned. -/
theorem mget_classifies_iff_hit :
    uMemcacheMget (fun _ => none) (text "localhost") true 7 [text "a", text "b"]
      (inOrder.map (Arrival.bytes hitReply)) =
      .ok [(text "a", .string (text "END\r\n")), (text "b", .string [])] :=
  (@mget_classifies_iff _ _ _ 7 2 _ (word 7 ++ word 0 ++ word 1 ++ [0, 0] ++ text "get a b\r\n")
    (by decide) _ (delivery_inOrder (by decide)) (by decide) hitReply hitReply_fits
    (.values markerHits) (by decide)).mpr (List.cons_ne_nil _ _)

/-- The reply without hits, in one datagram. -/
def missReply : Reply 7 1 where
  payload _ := text "END\r\n"

/-- The datagram is a delivery. -/
theorem delivery_missReply : Delivery 7 1 1400 [.own 0] where
  pos := by decide
  le := by decide
  req_le := by decide
  lt := by
    intro i hi
    obtain rfl : i = 0 := Arrival.own.inj (List.mem_singleton.mp hi)
    exact Nat.zero_lt_one
  all := by
    intro i hi
    obtain rfl : i = 0 := Nat.lt_one_iff.mp hi
    exact List.mem_singleton_self _
  other := by
    intro d hd
    cases List.mem_singleton.mp hd

/-- Where no key was found, the client returns an error in place of the empty array. -/
theorem mget_misses : Delivery 7 1 1400 [.own 0] ∧ missReply.text = (Answer.values []).bytes ∧
    (Answer.values []).result (fun _ => none) = .ok [] ∧
    uMemcacheMget (fun _ => none) (text "localhost") true 7 [text "a"]
      ([.own 0].map (Arrival.bytes missReply)) = .error (.ofText "unknown response string.") :=
  ⟨delivery_missReply, by decide, rfl, by decide⟩

end MgCommonUtils.UMemcache
