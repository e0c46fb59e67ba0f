import MgCommonUtils.Lib.Reader
import MgCommonUtils.URedis.Request

/-!
# The reads of the UDP server

Which datagrams `processCommandFromUdpClient` reads without leaving its buffer and without computing
with the result of a `strstr` that found nothing. The receive buffer is cleared, so a datagram that
does not fill it is followed by NULs, at which each search and each comparison stops. The server
takes the number of keys from the first line and then looks for two line ends for each of them, and
computes with what `strstr` returns whether it has found one or not. So a datagram is safe, whatever
the values of its keys, if and only if it is refused in front of the keys or there are that many
line ends (`requestSafe_iff`).
-/

namespace MgCommonUtils.URedis

open MgCommonUtils.Lib

/-! ## Line ends -/

/-- The number of CR LF in front of the first NUL. -/
def crlfCount : Bytes → ℕ
  | [] => 0
  | [_] => 0
  | a :: b :: t =>
    if a = 13 ∧ b = 10 then crlfCount t + 1
    else if a = 0 then 0
    else crlfCount (b :: t)

/-- Where no line end is found, there is none. -/
theorem crlfCount_of_none {s : Bytes} (h : strstrCrlf s = none) : crlfCount s = 0 := by
  induction s using strstrCrlf.induct with
  | case1 => rfl
  | case2 => rfl
  | case3 a b t hab => simp [strstrCrlf, hab] at h
  | case4 b t hab => rw [crlfCount, if_neg hab, if_pos rfl]
  | case5 a b t hab h0 ih =>
    rw [strstrCrlf, if_neg hab, if_neg h0, Option.map_eq_none_iff] at h
    rw [crlfCount, if_neg hab, if_neg h0, ih h]

/-- Where one is found, the others are behind it. -/
theorem crlfCount_of_some {s : Bytes} {n : ℕ} (h : strstrCrlf s = some n) :
    crlfCount s = crlfCount (s.drop (n + 2)) + 1 := by
  induction s using strstrCrlf.induct generalizing n with
  | case1 => cases h
  | case2 => cases h
  | case3 a b t hab =>
    rw [strstrCrlf, if_pos hab] at h
    obtain rfl := Option.some.inj h
    rw [crlfCount, if_pos hab]
    rfl
  | case4 b t hab => simp [strstrCrlf] at h
  | case5 a b t hab h0 ih =>
    rw [strstrCrlf, if_neg hab, if_neg h0] at h
    obtain ⟨k, hk, rfl⟩ := Option.map_eq_some_iff.mp h
    rw [crlfCount, if_neg hab, if_neg h0, ih hk]
    rfl

/-- There is a line end to be found. -/
theorem exists_strstrCrlf {s : Bytes} (h : 0 < crlfCount s) : ∃ n, strstrCrlf s = some n := by
  cases hn : strstrCrlf s with
  | none =>
    rw [crlfCount_of_none hn] at h
    exact absurd h (lt_irrefl 0)
  | some n => exact ⟨n, rfl⟩

/-! ## Safe requests -/

/-- The receive buffer: the datagram, as far as it fits, and zeros. -/
def receiveBuffer (d : Bytes) : Bytes := d.take psize ++ List.replicate (psize - d.length) 0

/-- The bytes behind the blanks, the sign and the digits that `atoi` reads. -/
def behindNumber (s : Bytes) : Bytes :=
  let digits :=
    match s.dropWhile isspace with
    | [] => []
    | b :: t => if b = 45 ∨ b = 43 then t else b :: t
  digits.dropWhile isdigit

/-- The text of the method. -/
def method : Bytes := text "$4\r\nmget\r\n"

/-- The bytes behind the first line, with `nkeys` keys declared in it: the buffer does not end
within the text of the method, and two line ends for each key follow it. -/
def SafeKeys (nkeys : ℕ) (s : Bytes) : Prop :=
  ¬(s.length < method.length ∧ s <+: method) ∧
    (method <+: s → 2 * nkeys ≤ crlfCount (s.drop method.length))

/-- The bytes behind the asterisk: the first line, or what is left of the buffer, ends, the number
in front is followed by something, and if it is in the range, the line ends and its keys
are safe. -/
def SafeRequest (s : Bytes) : Prop :=
  (0 < crlfCount s ∨ 0 ∈ s) ∧ behindNumber s ≠ [] ∧
    (2 ≤ atoi s ∧ atoi s ≤ 101 →
      ∃ len, strstrCrlf s = some len ∧ SafeKeys (atoi s - 1).toNat (s.drop (len + 2)))

/-- The datagram is too short, or has no asterisk, or its request is safe. -/
def SafeDatagram (d : Bytes) : Prop :=
  d.length ≤ 8 ∨ d[8]? ≠ some 42 ∨ SafeRequest ((receiveBuffer d).drop 9)

/-- The server reads the request without a fault, and does not compute with what was not found. -/
def RequestSafe (db : Bytes → Option Robj) (d : Bytes) : Prop :=
  (∃ called, datagramCalls db d = .ok called) ∧
    processCommandFromUdpClient db d ≠ .error .nullResult

/-! ## The loop over the keys -/

/-- A line end that is found is computed with. -/
theorem found_strstr {s : Bytes} {n : ℕ} :
    (strstr s >>= found) = .ok n ↔ strstrCrlf s = some n := by
  unfold strstr
  cases strstrCrlf s with
  | some k =>
    exact ⟨fun h => congrArg some (Except.ok.inj h),
      fun h => congrArg Except.ok (Option.some.inj h)⟩
  | none =>
    refine iff_of_false (fun h => ?_) (fun h => by cases h)
    dsimp only at h
    split at h <;> cases h

/-- A turn of the loop finds two line ends. -/
theorem keyLoop_succ {db : Bytes → Option Robj} {n wlen : ℕ} {start : Bytes}
    {r : List Bytes × Bool} : keyLoop db (n + 1) start wlen = .ok r ↔
      ∃ len fin, strstrCrlf start = some len ∧ strstrCrlf (start.drop (len + 2)) = some fin ∧
        (if fin ≥ psize then .ok ([], true)
        else
          match bulkSize wlen
            (getCommandforUdp db ((start.drop (len + 2)).take fin) valLen).1 with
          | none => .ok ([cstr ((start.drop (len + 2)).take fin)], false)
          | some k => do
            let (keys, tooLong) ← keyLoop db n ((start.drop (len + 2)).drop (fin + 2)) (wlen + k)
            return (cstr ((start.drop (len + 2)).take fin) :: keys, tooLong)) =
          (.ok r : Except Fault (List Bytes × Bool)) := by
  rw [keyLoop]
  constructor
  · intro h
    obtain ⟨o, ho, h⟩ := except_bind_eq_ok.mp h
    obtain ⟨len, hlen, h⟩ := except_bind_eq_ok.mp h
    obtain ⟨o', ho', h⟩ := except_bind_eq_ok.mp h
    obtain ⟨fin, hfin, h⟩ := except_bind_eq_ok.mp h
    exact ⟨len, fin, found_strstr.mp (except_bind_eq_ok.mpr ⟨o, ho, hlen⟩),
      found_strstr.mp (except_bind_eq_ok.mpr ⟨o', ho', hfin⟩), h⟩
  · rintro ⟨len, fin, hlen, hfin, h⟩
    obtain ⟨o, ho, hlen⟩ := except_bind_eq_ok.mp (found_strstr.mpr hlen)
    obtain ⟨o', ho', hfin⟩ := except_bind_eq_ok.mp (found_strstr.mpr hfin)
    refine except_bind_eq_ok.mpr ⟨o, ho, except_bind_eq_ok.mpr ⟨len, hlen, ?_⟩⟩
    exact except_bind_eq_ok.mpr ⟨o', ho', except_bind_eq_ok.mpr ⟨fin, hfin, h⟩⟩

/-- With two line ends for each key, the loop finds what it looks for. -/
theorem exists_keyLoop (db : Bytes → Option Robj) {n : ℕ} {start : Bytes} (wlen : ℕ)
    (h : 2 * n ≤ crlfCount start) : ∃ r, keyLoop db n start wlen = .ok r := by
  induction n generalizing start wlen with
  | zero => exact ⟨_, rfl⟩
  | succ n ih =>
    -- One line end is behind the length of the key, and one behind the key.
    obtain ⟨len, hlen⟩ := exists_strstrCrlf (s := start) (by omega)
    have hcount := crlfCount_of_some hlen
    obtain ⟨fin, hfin⟩ := exists_strstrCrlf (s := start.drop (len + 2)) (by omega)
    have hcount' := crlfCount_of_some hfin
    have hturn := fun r => @keyLoop_succ db n wlen start r
    by_cases hlong : fin ≥ psize
    · exact ⟨([], true), (hturn _).mpr ⟨len, fin, hlen, hfin, if_pos hlong⟩⟩
    cases hbulk : bulkSize wlen
        (getCommandforUdp db ((start.drop (len + 2)).take fin) valLen).1 with
    | none =>
      refine ⟨([cstr ((start.drop (len + 2)).take fin)], false),
        (hturn _).mpr ⟨len, fin, hlen, hfin, ?_⟩⟩
      rw [if_neg hlong, hbulk]
    | some k =>
      obtain ⟨⟨keys, tooLong⟩, hr⟩ := @ih ((start.drop (len + 2)).drop (fin + 2)) (wlen + k)
        (by omega)
      refine ⟨(cstr ((start.drop (len + 2)).take fin) :: keys, tooLong),
        (hturn _).mpr ⟨len, fin, hlen, hfin, ?_⟩⟩
      rw [if_neg hlong, hbulk]
      dsimp only
      rw [hr]
      rfl

/-- Where no key has a value, the loop ends only with two line ends for each key: the reply has room
for all of them, and no key is too long. -/
theorem le_crlfCount_of_keyLoop {n wlen : ℕ} {start : Bytes} {r : List Bytes × Bool}
    (hroom : wlen + 5 * n ≤ wbufLen) (hlen : start.length ≤ psize)
    (h : keyLoop (fun _ => none) n start wlen = .ok r) : 2 * n ≤ crlfCount start := by
  induction n generalizing start wlen r with
  | zero => exact Nat.zero_le _
  | succ n ih =>
    obtain ⟨len, fin, hfirst, hsecond, h⟩ := keyLoop_succ.mp h
    have hcount := crlfCount_of_some hfirst
    have hcount' := crlfCount_of_some hsecond
    have hin := strstrCrlf_le hsecond
    rw [List.length_drop] at hin
    -- An absent key takes 5 bytes, so the reply does not become too big.
    have hbulk : bulkSize wlen (getCommandforUdp (fun _ => none)
        ((start.drop (len + 2)).take fin) valLen).1 = some 5 := by
      change bulkSize wlen (-1) = some 5
      rw [bulkSize, if_pos (by decide), if_neg (by omega)]
    rw [if_neg (by omega), hbulk] at h
    obtain ⟨r', hr', -⟩ := except_bind_eq_ok.mp h
    have hrest := ih (by omega) (by simp only [List.length_drop]; omega) hr'
    omega

/-! ## The first line and the method -/

/-- The search stays in the buffer if and only if a line end or a NUL stops it. -/
theorem exists_strstr_iff {s : Bytes} : (∃ o, strstr s = .ok o) ↔ 0 < crlfCount s ∨ 0 ∈ s := by
  unfold strstr
  cases hn : strstrCrlf s with
  | some n =>
    refine iff_of_true ⟨_, rfl⟩ (.inl ?_)
    rw [crlfCount_of_some hn]
    exact Nat.succ_pos _
  | none =>
    rw [crlfCount_of_none hn]
    dsimp only
    split
    · rename_i hnul
      exact iff_of_true ⟨_, rfl⟩ (.inr hnul)
    · rename_i hnul
      refine iff_of_false ?_ (not_or.mpr ⟨lt_irrefl 0, hnul⟩)
      rintro ⟨o, ho⟩
      cases ho

/-- `atoi` stays in the buffer if and only if something follows the number. -/
theorem atoiAt_eq_ok {s : Bytes} {z : ℤ} :
    atoiAt s = .ok z ↔ behindNumber s ≠ [] ∧ z = atoi s := by
  have hunfold : atoiAt s =
      if behindNumber s = [] then .error .outOfBounds else .ok (atoi s) := rfl
  rw [hunfold]
  split
  · rename_i hnil
    exact iff_of_false (fun h => by cases h) (fun h => h.1 hnil)
  · rename_i hne
    exact ⟨fun h => ⟨hne, (Except.ok.inj h).symm⟩, fun h => congrArg Except.ok h.2.symm⟩

/-- The comparison stays in the buffer unless this ends within the text. -/
theorem strncmpEq_eq_ok {s t : Bytes} {b : Bool} :
    strncmpEq s t = .ok b ↔ ¬(s.length < t.length ∧ s <+: t) ∧ b = t.isPrefixOf s := by
  unfold strncmpEq
  split
  · rename_i hshort
    exact iff_of_false (fun h => by cases h)
      (fun h => h.1 ⟨hshort.1, List.isPrefixOf_iff_prefix.mp hshort.2⟩)
  · rename_i hlong
    have hlong' : ¬(s.length < t.length ∧ s <+: t) := fun h =>
      hlong ⟨h.1, List.isPrefixOf_iff_prefix.mpr h.2⟩
    exact ⟨fun h => ⟨hlong', (Except.ok.inj h).symm⟩, fun h => congrArg Except.ok h.2.symm⟩

/-- A safe request is read. -/
theorem exists_keyCalls (db : Bytes → Option Robj) {rbuf : Bytes} (h : SafeRequest (rbuf.drop 9)) :
    ∃ called, keyCalls db rbuf = .ok called := by
  obtain ⟨hline, hnumber, hkeys⟩ := h
  obtain ⟨o, ho⟩ := exists_strstr_iff.mpr hline
  have hatoi := atoiAt_eq_ok.mpr ⟨hnumber, rfl⟩
  unfold keyCalls
  dsimp only
  rw [ho]
  simp only [bind, Except.bind, hatoi]
  by_cases hrange : atoi (rbuf.drop 9) < 2 ∨ atoi (rbuf.drop 9) > 101
  · rw [if_pos hrange]
    exact ⟨_, rfl⟩
  rw [if_neg hrange]
  obtain ⟨len, hlen, hmethod, hcount⟩ := hkeys (by omega)
  have hfound : found o = .ok len := by
    obtain ⟨o', ho', hfound⟩ := except_bind_eq_ok.mp (found_strstr.mpr hlen)
    rwa [Except.ok.inj (ho.symm.trans ho')]
  have hcompare := strncmpEq_eq_ok.mpr ⟨hmethod, rfl⟩
  rw [hfound]
  dsimp only
  change strncmpEq _ (text "$4\r\nmget\r\n") = _ at hcompare
  rw [hcompare]
  dsimp only
  cases hmget : method.isPrefixOf ((rbuf.drop 9).drop (len + 2)) with
  | false => exact ⟨_, rfl⟩
  | true =>
    obtain ⟨⟨called, tooLong⟩, hloop⟩ := exists_keyLoop db
      (snprintf [] (text "*" ++ decimalInt (atoi (rbuf.drop 9) - 1) ++ crlf)).length
      (hcount (List.isPrefixOf_iff_prefix.mp hmget))
    refine ⟨called, ?_⟩
    rw [if_neg (by decide)]
    change keyLoop db _ (((rbuf.drop 9).drop (len + 2)).drop 10) _ = _ at hloop
    rw [hloop]
    rfl

/-- Where no key has a value, only a safe request is read. -/
theorem safeRequest_of_keyCalls {rbuf : Bytes} {called : List Bytes} (hlen : rbuf.length ≤ psize)
    (h : keyCalls (fun _ => none) rbuf = .ok called) : SafeRequest (rbuf.drop 9) := by
  unfold keyCalls at h
  dsimp only at h
  obtain ⟨o, ho, h⟩ := except_bind_eq_ok.mp h
  obtain ⟨nkeys, hatoi, h⟩ := except_bind_eq_ok.mp h
  obtain ⟨hnumber, rfl⟩ := atoiAt_eq_ok.mp hatoi
  refine ⟨exists_strstr_iff.mp ⟨o, ho⟩, hnumber, fun hrange => ?_⟩
  rw [if_neg (by omega)] at h
  obtain ⟨len, hfound, h⟩ := except_bind_eq_ok.mp h
  obtain ⟨same, hcompare, h⟩ := except_bind_eq_ok.mp h
  obtain ⟨hmethod, rfl⟩ := strncmpEq_eq_ok.mp hcompare
  refine ⟨len, found_strstr.mp (except_bind_eq_ok.mpr ⟨o, ho, hfound⟩), hmethod, fun hmget => ?_⟩
  have hsame : (text "$4\r\nmget\r\n").isPrefixOf ((rbuf.drop 9).drop (len + 2)) = true :=
    List.isPrefixOf_iff_prefix.mpr hmget
  rw [hsame, if_neg (by decide)] at h
  obtain ⟨⟨keys, tooLong⟩, hloop, -⟩ := except_bind_eq_ok.mp h
  refine le_crlfCount_of_keyLoop ?_ ?_ hloop
  · -- the first line of the reply, and 5 bytes for each of at most 100 keys
    have habs : (atoi (rbuf.drop 9) - 1).natAbs ≤ 100 := by omega
    have hdec : (decimal (atoi (rbuf.drop 9) - 1).natAbs).length ≤ 3 :=
      length_decimal_le (by decide) (habs.trans_lt (by decide))
    have hstar : (text "*").length = 1 := rfl
    have hwbuf : wbufLen = 65536 := rfl
    rw [length_snprintf, decimalInt, if_neg (by omega)]
    simp only [List.length_append, List.length_nil, length_crlf]
    omega
  · simp only [List.length_drop]
    omega

/-! ## The datagram -/

theorem length_receiveBuffer (d : Bytes) : (receiveBuffer d).length = psize := by
  rw [receiveBuffer, List.length_append, List.length_take, List.length_replicate]
  omega

/-- The bytes of a datagram that is not too short are at the front of the buffer. -/
theorem receiveBuffer_star {d : Bytes} (h : 8 < d.length) : (receiveBuffer d)[8]? = d[8]? := by
  have hpsize : psize = 1024 := rfl
  have htake : 8 < (d.take psize).length := by
    rw [List.length_take]
    omega
  rw [receiveBuffer, List.getElem?_append_left htake, List.getElem?_take_of_lt (by omega)]

/-- The bulks are put together without a `strstr`. -/
theorem appendBulks_ne_nullResult (wbuf : Bytes) (results : List (ℤ × Bytes)) :
    appendBulks wbuf results ≠ .error .nullResult := by
  induction results generalizing wbuf with
  | nil => intro h; cases h
  | cons result results ih =>
    obtain ⟨vlen, val⟩ := result
    have hbulk : appendBulk wbuf vlen val ≠ .error .nullResult := by
      unfold appendBulk
      split_ifs <;> intro h <;> cases h
    rw [appendBulks]
    simp only [bind, Except.bind]
    split
    · rename_i e he
      intro h
      exact hbulk (he.trans (congrArg Except.error (Except.error.inj h)))
    · rename_i o ho
      cases o with
      | none => intro h; cases h
      | some w => exact ih w

/-- What reads the request without a fault answers it without computing with what was not found. -/
theorem replyText_ne_nullResult {db : Bytes → Option Robj} {rbuf : Bytes} {called : List Bytes}
    (h : keyCalls db rbuf = .ok called) : replyText db rbuf ≠ .error .nullResult := by
  unfold keyCalls at h
  dsimp only at h
  obtain ⟨o, ho, h⟩ := except_bind_eq_ok.mp h
  obtain ⟨nkeys, hatoi, h⟩ := except_bind_eq_ok.mp h
  -- The reply reads the request as `keyCalls` does, up to the bulks.
  unfold replyText
  dsimp only
  rw [ho]
  simp only [bind, Except.bind, hatoi]
  by_cases hrange : nkeys < 2 ∨ nkeys > 101
  · rw [if_pos hrange]
    intro h
    cases h
  rw [if_neg hrange] at h ⊢
  obtain ⟨len, hfound, h⟩ := except_bind_eq_ok.mp h
  obtain ⟨same, hcompare, h⟩ := except_bind_eq_ok.mp h
  rw [hfound]
  dsimp only
  rw [hcompare]
  dsimp only
  cases same with
  | false => intro h; cases h
  | true =>
    rw [if_neg (by decide)] at h ⊢
    obtain ⟨⟨keys, tooLong⟩, hloop, -⟩ := except_bind_eq_ok.mp h
    rw [replyLoop_eq hloop]
    intro hfault
    refine appendBulks_ne_nullResult (snprintf [] (text "*" ++ decimalInt (nkeys - 1) ++ crlf))
      (keys.map fun key => getCommandforUdp db key valLen) ?_
    cases happend : appendBulks (snprintf [] (text "*" ++ decimalInt (nkeys - 1) ++ crlf))
        (keys.map fun key => getCommandforUdp db key valLen) with
    | error e =>
      rw [happend] at hfault
      exact congrArg Except.error (Except.error.inj hfault)
    | ok w =>
      rw [happend] at hfault
      cases hfault

/-- The reply to a datagram that is not refused is sent. -/
theorem process_of_accepted (db : Bytes → Option Robj) {d : Bytes}
    (h : ¬(min d.length psize ≤ 8 ∨ (receiveBuffer d)[8]? ≠ some 42)) :
    ∃ req, processCommandFromUdpClient db d =
      (replyText db (receiveBuffer d)).map (sendLoop req) := by
  obtain ⟨hdr, hhdr⟩ := exists_headerDecode (s := receiveBuffer d)
    (by rw [length_receiveBuffer]; decide)
  refine ⟨hdr.req, (if_neg h).trans ?_⟩
  unfold receiveBuffer at hhdr ⊢
  rw [hhdr]
  rfl

/-- A datagram is read without a fault, whatever values its keys have, if and only if it is too
short or has no asterisk, or its first line has no number of keys in the range, or its method is
another one, or two line ends for each key follow. -/
theorem requestSafe_iff (d : Bytes) : (∀ db, RequestSafe db d) ↔ SafeDatagram d := by
  have hpsize : psize = 1024 := rfl
  by_cases hrefused : min d.length psize ≤ 8 ∨ (receiveBuffer d)[8]? ≠ some 42
  · have hsafe : SafeDatagram d := by
      by_cases hshort : d.length ≤ 8
      · exact .inl hshort
      · have hstar := hrefused.resolve_left (by omega)
        rw [receiveBuffer_star (by omega)] at hstar
        exact .inr (.inl hstar)
    refine iff_of_true (fun db => ⟨⟨[], if_pos hrefused⟩, fun h => ?_⟩) hsafe
    have hnothing : processCommandFromUdpClient db d = .ok [] := if_pos hrefused
    rw [hnothing] at h
    cases h
  · have hcalls : ∀ db, datagramCalls db d = keyCalls db (receiveBuffer d) := fun db =>
      if_neg hrefused
    obtain ⟨hlong, hstar⟩ := not_or.mp hrefused
    have hrequest : SafeDatagram d ↔ SafeRequest ((receiveBuffer d).drop 9) := by
      rw [receiveBuffer_star (by omega)] at hstar
      refine ⟨fun h => ?_, fun h => .inr (.inr h)⟩
      exact (h.resolve_left (by omega)).resolve_left hstar
    rw [hrequest]
    constructor
    · -- with an empty database the loop goes on to the last key
      intro h
      obtain ⟨⟨called, hcalled⟩, -⟩ := h fun _ => none
      rw [hcalls] at hcalled
      exact safeRequest_of_keyCalls (length_receiveBuffer d).le hcalled
    · intro h db
      obtain ⟨called, hcalled⟩ := exists_keyCalls db h
      refine ⟨⟨called, (hcalls db).trans hcalled⟩, ?_⟩
      obtain ⟨req, hprocess⟩ := process_of_accepted db hrefused
      rw [hprocess]
      intro hfault
      cases hreply : replyText db (receiveBuffer d) with
      | error e =>
        rw [hreply] at hfault
        exact replyText_ne_nullResult hcalled
          (hreply.trans (congrArg Except.error (Except.error.inj hfault)))
      | ok w =>
        rw [hreply] at hfault
        cases hfault

/-- The request 7 for four keys, with the line ends of one. -/
def fourKeys : Bytes := hdr7 ++ text "*5\r\n$4\r\nmget\r\n$1\r\na\r\n"

/-- The server computes with the result of a `strstr` that has found nothing. -/
theorem not_requestSafe_fourKeys :
    processCommandFromUdpClient (fun _ => none) fourKeys = .error .nullResult ∧
      ¬RequestSafe (fun _ => none) fourKeys := by
  have hfault : processCommandFromUdpClient (fun _ => none) fourKeys = .error .nullResult := by
    decide +kernel
  exact ⟨hfault, fun h => h.2 hfault⟩

end MgCommonUtils.URedis
