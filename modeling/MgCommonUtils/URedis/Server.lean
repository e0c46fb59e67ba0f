import MgCommonUtils.URedis.Frame

/-!
# The UDP server

`processCommandFromUdpClient` of `udp.c`: it parses a request for the values of some keys, puts the
reply together in a buffer of 64 KiB, and sends it in datagrams of 1016 bytes and a header. A
request whose keys are lines is parsed into its keys (`replyText_mgetCommand`), and the payloads of
the datagrams are the reply (`payloads_sendLoop`).

The buffer takes what is appended as long as there is room. The test for `"$-1\r\n"` lets it use the
buffer up, and `snprintf` needs one byte more for its NUL, which then takes the place of the line
feed.
-/

namespace MgCommonUtils.URedis

open MgCommonUtils.Lib

/-! ## The model -/

/-- What C does not define. -/
inductive Fault
  /-- The result of a `strstr` that has found nothing is computed with. -/
  | nullResult
  /-- A read outside an array. -/
  | outOfBounds
  deriving DecidableEq, Repr

/-- `strstr(s,"\r\n")` in the array that `s` is the rest of. -/
def strstr (s : Bytes) : Except Fault (Option ℕ) :=
  match strstrCrlf s with
  | some n => .ok (some n)
  | none => if 0 ∈ s then .ok none else .error .outOfBounds

/-- A result of `strstr` that is computed with. -/
def found : Option ℕ → Except Fault ℕ
  | some n => .ok n
  | none => .error .nullResult

/-- `atoi(s)` in the array that `s` is the rest of: it reads one byte after the digits. -/
def atoiAt (s : Bytes) : Except Fault ℤ :=
  let digits :=
    match s.dropWhile isspace with
    | [] => []
    | b :: t => if b = 45 ∨ b = 43 then t else b :: t
  if digits.dropWhile isdigit = [] then .error .outOfBounds else .ok (atoi s)

/-- `strncmp(s,t,strlen(t)) == 0` in the array that `s` is the rest of. -/
def strncmpEq (s t : Bytes) : Except Fault Bool :=
  if s.length < t.length ∧ s.isPrefixOf t then .error .outOfBounds else .ok (t.isPrefixOf s)

/-- `rbuf_len`, `psize` and `key_len`. -/
def psize : ℕ := 1024

/-- `wbuf_len`. -/
def wbufLen : ℕ := 65536

/-- `val_len`. -/
def valLen : ℕ := 16384

/-- `psize - hdr_len`. -/
def payloadLen : ℕ := 1016

/-- An object of the database. -/
inductive Robj
  /-- A string with the encoding `REDIS_ENCODING_RAW`. -/
  | raw (ptr : Bytes)
  /-- A string with the encoding `REDIS_ENCODING_INT`. -/
  | int (ptr : Int64)
  /-- Another type or encoding. -/
  | other

/-- `getCommandforUdp`: its result, and what it copies into `value`. -/
def getCommandforUdp (db : Bytes → Option Robj) (key : Bytes) (vlen : ℕ) : ℤ × Bytes :=
  match db (cstr key) with
  | none => (-1, [])
  | some (.raw ptr) => (ptr.length, ptr.take vlen)
  | some (.int ptr) =>
    ((decimalInt ptr.toInt).length, (decimalInt ptr.toInt).take (vlen - 1))
  | some .other => (-1, [])

/-- `wlen+=snprintf(wbuf+wlen,wbuf_len-wlen,s)`, where `wbuf` are the first `wlen` bytes: the
characters that there is room for, with the NUL after them, and zeros where there is not. -/
def snprintf (wbuf s : Bytes) : Bytes :=
  let room := wbufLen - wbuf.length - 1
  wbuf ++ s.take room ++ List.replicate (s.length - room) 0

/-- `"-Err: response is too big."`. -/
def tooBig : Bytes := text "-Err: response is too big."

/-- `wlen +=sprintf(wbuf,s)`: the text overwrites the front, and the length is added to. -/
def sprintfFront (wbuf s : Bytes) : Bytes :=
  s ++ [0] ++ (wbuf ++ List.replicate s.length 0).drop (s.length + 1)

/-- What the loop over the keys appends for the result `vlen` of `getCommandforUdp` and the bytes
`val`, or none where it goes to `uend` with the error. -/
def appendBulk (wbuf : Bytes) (vlen : ℤ) (val : Bytes) : Except Fault (Option Bytes) :=
  if vlen < 0 then
    if wbuf.length + 5 > wbufLen then .ok none else .ok (some (snprintf wbuf (text "$-1\r\n")))
  else if wbuf.length + vlen.toNat + 10 > wbufLen then .ok none
  else if vlen.toNat > valLen then .error .outOfBounds
  else
    let wbuf := snprintf wbuf (text "$" ++ decimal vlen.toNat ++ crlf)
    .ok (some (wbuf ++ val ++ crlf))

/-- The loop over the keys, with `start` the rest of `rbuf`. -/
def replyLoop (db : Bytes → Option Robj) (nkeys : ℕ) (start wbuf : Bytes) : Except Fault Bytes :=
  match nkeys with
  | 0 => .ok wbuf
  | nkeys + 1 => do
    let fin ← found (← strstr start)
    let start := start.drop (fin + 2)
    let fin ← found (← strstr start)
    if fin ≥ psize then return sprintfFront wbuf (text "-Err: one of the keys is too long.")
    let key := start.take fin
    let start := start.drop (fin + 2)
    let (vlen, val) := getCommandforUdp db key valLen
    match ← appendBulk wbuf vlen val with
    | none => return tooBig
    | some wbuf => replyLoop db nkeys start wbuf

/-- What is in `wbuf` at `uend`. -/
def replyText (db : Bytes → Option Robj) (rbuf : Bytes) : Except Fault Bytes := do
  let start := rbuf.drop 9
  let fin ← strstr start
  let nkeys ← atoiAt start
  if nkeys < 2 ∨ nkeys > 101 then return text "-Err: Invalid keys number."
  let fin ← found fin
  let start := start.drop (fin + 2)
  if !(← strncmpEq start (text "$4\r\nmget\r\n")) then return text "-Err: Invalid request method."
  let start := start.drop 10
  let nkeys := nkeys - 1
  replyLoop db nkeys.toNat start (snprintf [] (text "*" ++ decimalInt nkeys ++ crlf))

/-- The loop that sends the datagrams, as long as `anetUdpSendTo` succeeds. -/
def sendLoop (req : ℕ) (wbuf : Bytes) : List Bytes :=
  let ngram := wbuf.length / payloadLen + 1
  (List.range ngram).map fun seq =>
    let wpos := seq * payloadLen
    (headerEncode req seq ngram).getD (List.replicate 8 0) ++ (wbuf.drop wpos).take payloadLen

/-- `processCommandFromUdpClient`: the datagrams that it sends when the datagram `d` arrives. -/
def processCommandFromUdpClient (db : Bytes → Option Robj) (d : Bytes) :
    Except Fault (List Bytes) := do
  let rbuf := d.take psize ++ List.replicate (psize - d.length) 0
  let nread := min d.length psize
  if nread ≤ 8 ∨ rbuf[8]? ≠ some 42 then return []
  match headerDecode rbuf with
  | none => return []
  | some hdr =>
    let wbuf ← replyText db rbuf
    return sendLoop hdr.req wbuf

/-! ## Sending -/

/-- The payloads of the datagrams, one after the other, are the reply. -/
theorem payloads_sendLoop (req : ℕ) (wbuf : Bytes) :
    ((sendLoop req wbuf).map (List.drop 8)).flatten = wbuf := by
  have hchunks : ∀ n, ((List.range n).map fun seq =>
      (wbuf.drop (seq * payloadLen)).take payloadLen).flatten = wbuf.take (n * payloadLen) := by
    intro n
    induction n with
    | zero => simp
    | succ n ih =>
      rw [List.range_succ, List.map_append, List.flatten_append, ih, List.map_singleton,
        List.flatten_singleton, Nat.succ_mul, List.take_add]
  have hpayload : ∀ n, ((sendLoop req wbuf).map (List.drop 8)) = (List.range n).map (fun seq =>
      (wbuf.drop (seq * payloadLen)).take payloadLen) ∨ n ≠ wbuf.length / payloadLen + 1 := by
    intro n
    by_cases hn : n = wbuf.length / payloadLen + 1
    · refine .inl ?_
      rw [sendLoop, hn, List.map_map]
      refine List.map_congr_left fun seq _ => ?_
      dsimp only [Function.comp]
      refine List.drop_left' ?_
      cases henc : headerEncode req seq (wbuf.length / payloadLen + 1) with
      | none => rfl
      | some h => exact length_of_headerEncode henc
    · exact .inr hn
  rw [(hpayload _).resolve_right (not_not.mpr rfl), hchunks]
  refine List.take_of_length_le ?_
  unfold payloadLen
  omega

/-! ## Parsing -/

/-- The lines of the keys in the command of `uRedis_mget`. -/
def keyLines (keys : List Bytes) : Bytes :=
  keys.flatMap fun key => text "$" ++ decimal key.length ++ crlf ++ key ++ crlf

/-- The command that `uRedis_mget` sends for the keys. -/
def mgetCommand (keys : List Bytes) : Bytes :=
  text "*" ++ decimal (keys.length + 1) ++ text "\r\n$4\r\nmget\r\n" ++ keyLines keys

/-- `strstr` finds the end of a line. -/
theorem strstr_line {s : Bytes} (h : IsLine s) (t : Bytes) :
    strstr (s ++ crlf ++ t) = .ok (some s.length) := by
  have hfound : strstrCrlf (s ++ crlf ++ t) = some s.length := by
    rw [List.append_assoc]
    exact strstrCrlf_line s t h
  rw [strstr, hfound]

/-- What comes behind a line is found by the length of the line. -/
theorem drop_line (s t : Bytes) : (s ++ crlf ++ t).drop (s.length + 2) = t :=
  List.drop_left' (by rw [List.length_append, length_crlf])

/-- The lines of the first key stand in front: its length, then the key. -/
theorem keyLines_cons_append (key : Bytes) (keys : List Bytes) (rest : Bytes) :
    keyLines (key :: keys) ++ rest = (text "$" ++ decimal key.length) ++ crlf ++
      (key ++ crlf ++ (keyLines keys ++ rest)) := by
  simp only [keyLines, List.flatMap_cons, List.append_assoc]

/-- The length of a key is a line. -/
theorem isLine_dollar (n : ℕ) : IsLine (text "$" ++ decimal n) where
  noCrlf h := by
    have hmem : (10 : UInt8) ∈ text "$" ++ decimal n := h.subset (by simp [crlf])
    rcases List.mem_append.mp hmem with h | h
    · exact absurd h (by decide)
    · exact absurd (isdigit_of_mem_decimal h) (by decide)
  noNul h := by
    rcases List.mem_append.mp h with h | h
    · exact absurd h (by decide)
    · exact absurd (isdigit_of_mem_decimal h) (by decide)

/-- What the loop over the keys appends for the results of the lookups. -/
def appendBulks (wbuf : Bytes) : List (ℤ × Bytes) → Except Fault Bytes
  | [] => .ok wbuf
  | (vlen, val) :: rest => do
    match ← appendBulk wbuf vlen val with
    | none => return tooBig
    | some wbuf => appendBulks wbuf rest

/-- A NUL-free string is the C string at its front. -/
theorem cstr_of_isLine {s : Bytes} (h : IsLine s) : cstr s = s := by
  refine List.takeWhile_eq_self_iff.mpr fun b hb => ?_
  have : b ≠ 0 := fun h0 => h.noNul (h0 ▸ hb)
  simpa using this

/-- The loop over the keys looks up the keys of the command, in their order. -/
theorem replyLoop_keyLines (db : Bytes → Option Robj) {keys : List Bytes}
    (hline : ∀ key ∈ keys, IsLine key) (hlen : ∀ key ∈ keys, key.length < psize)
    (rest wbuf : Bytes) : replyLoop db keys.length (keyLines keys ++ rest) wbuf =
      appendBulks wbuf (keys.map fun key => getCommandforUdp db key valLen) := by
  induction keys generalizing wbuf with
  | nil => rfl
  | cons key keys ih =>
    have hkey := hline key List.mem_cons_self
    have hk := hlen key List.mem_cons_self
    rw [List.length_cons, replyLoop, keyLines_cons_append, strstr_line (isLine_dollar _)]
    simp only [bind, Except.bind, found]
    -- The length is skipped, and the key is what the next line says.
    rw [drop_line, strstr_line hkey]
    dsimp only
    rw [if_neg (not_le.mpr hk), drop_line, List.append_assoc, List.take_left, List.map_cons,
      appendBulks]
    simp only [bind, Except.bind]
    cases appendBulk wbuf (getCommandforUdp db key valLen).1 (getCommandforUdp db key valLen).2 with
    | error e => rfl
    | ok w =>
      cases w with
      | none => rfl
      | some w =>
        exact ih (fun k h => hline k (List.mem_cons_of_mem _ h))
          (fun k h => hlen k (List.mem_cons_of_mem _ h)) w

/-- `atoi` reads a numeral that something else follows, and stays in the array. -/
theorem atoiAt_decimal {n : ℕ} (hn : n < 2^31) {b : UInt8} (hb : ¬isdigit b) (t : Bytes) :
    atoiAt (decimal n ++ b :: t) = .ok n := by
  have hhead : ∀ c ∈ (b :: t).head?, ¬isdigit c := by
    intro c hc
    rwa [← Option.some.inj hc]
  have hend : (decimal n ++ b :: t).dropWhile isdigit = b :: t :=
    dropWhile_append_of_head (fun c hc => isdigit_of_mem_decimal hc) hhead
  rw [atoiAt, atoi_decimal_append hn hhead]
  obtain ⟨c, u, hcu, hsp, h45, h43⟩ := exists_decimal_eq_cons n
  rw [hcu, List.cons_append] at hend ⊢
  rw [List.dropWhile_cons_of_neg (by simp [hsp])]
  dsimp only
  have hsign : ¬(c = 45 ∨ c = 43) := fun h => h.elim h45 h43
  simp only [if_neg hsign, hend, if_neg (List.cons_ne_nil b t)]

/-- What the server finds in the request in front of the keys: the number of arguments in a line,
and the method in the next two. -/
theorem mgetCommand_front {keys : List Bytes} (hmax : keys.length ≤ 100) {hdr : Bytes}
    (hhdr : hdr.length = 8) (rest : Bytes) :
    ∃ start len, (hdr ++ mgetCommand keys ++ rest).drop 9 = start ∧
      strstr start = .ok (some len) ∧ atoiAt start = .ok ((keys.length + 1 : ℕ) : ℤ) ∧
      strncmpEq (start.drop (len + 2)) (text "$4\r\nmget\r\n") = .ok true ∧
      (start.drop (len + 2)).drop 10 = keyLines keys ++ rest := by
  have hstart : (hdr ++ mgetCommand keys ++ rest).drop 9 = decimal (keys.length + 1) ++ crlf ++
      (text "$4\r\nmget\r\n" ++ (keyLines keys ++ rest)) := by
    have hsplit : hdr ++ mgetCommand keys ++ rest = (hdr ++ text "*") ++
        (decimal (keys.length + 1) ++ crlf ++
          (text "$4\r\nmget\r\n" ++ (keyLines keys ++ rest))) := by
      simp only [mgetCommand, List.append_assoc]
      rfl
    rw [hsplit]
    exact List.drop_left' (by rw [List.length_append, hhdr]; rfl)
  have hmethod : strncmpEq (text "$4\r\nmget\r\n" ++ (keyLines keys ++ rest))
      (text "$4\r\nmget\r\n") = .ok true := by
    have hshort : ¬((text "$4\r\nmget\r\n" ++ (keyLines keys ++ rest)).length <
        (text "$4\r\nmget\r\n").length ∧
          (text "$4\r\nmget\r\n" ++ (keyLines keys ++ rest)).isPrefixOf
            (text "$4\r\nmget\r\n") = true) := by
      rw [List.length_append]
      omega
    rw [strncmpEq, if_neg hshort]
    exact congrArg Except.ok (List.isPrefixOf_iff_prefix.mpr (List.prefix_append _ _))
  refine ⟨_, (decimal (keys.length + 1)).length, hstart, strstr_line (isLine_decimal _) _,
    ?_, ?_, ?_⟩
  · rw [List.append_assoc]
    exact atoiAt_decimal (by omega) (by decide) _
  · rw [drop_line]
    exact hmethod
  · rw [drop_line]
    exact List.drop_left' rfl

/-- The number of keys, which is by one less than that of the arguments. -/
theorem decimalInt_sub_one (n : ℕ) : decimalInt (((n + 1 : ℕ) : ℤ) - 1) = decimal n := by
  have habs : (((n + 1 : ℕ) : ℤ) - 1).natAbs = n := by omega
  rw [decimalInt, if_neg (by omega), habs, List.nil_append]

/-- The request for keys that are lines is parsed into them. -/
theorem replyText_mgetCommand (db : Bytes → Option Robj) {keys : List Bytes} (hpos : keys ≠ [])
    (hmax : keys.length ≤ 100) (hline : ∀ key ∈ keys, IsLine key)
    (hlen : ∀ key ∈ keys, key.length < psize) {hdr : Bytes} (hhdr : hdr.length = 8)
    (rest : Bytes) : replyText db (hdr ++ mgetCommand keys ++ rest) =
      appendBulks (snprintf [] (text "*" ++ decimal keys.length ++ crlf))
        (keys.map fun key => getCommandforUdp db key valLen) := by
  have hn : 0 < keys.length := List.length_pos_of_ne_nil hpos
  have hcount : (((keys.length + 1 : ℕ) : ℤ) - 1).toNat = keys.length := by omega
  obtain ⟨start, len, hstart, hstrstr, hatoi, hmethod, hkeys⟩ := mgetCommand_front hmax hhdr rest
  unfold replyText
  rw [hstart]
  dsimp only
  rw [hstrstr]
  simp only [bind, Except.bind, hatoi, found]
  rw [if_neg (by omega), hmethod]
  dsimp only
  rw [if_neg (by simp), hkeys, hcount, decimalInt_sub_one]
  exact replyLoop_keyLines db hline hlen rest _

end MgCommonUtils.URedis
