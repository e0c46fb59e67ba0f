import MgCommonUtils.URedis.Decode

/-!
# The request of the UDP client

What `uRedis_mget` sends, and which keys `processCommandFromUdpClient` looks up when it arrives. The
client declares the length of a key, and the server looks for the CR LF behind it. `keyCalls` is the
part of the server that reads the request. It depends on the values of the keys only through their
lengths, by which the loop stops when the reply becomes too big, so that it says which keys are
looked up also where the server then copies bytes from behind `val` (`replyLoop_eq`).

For keys with no CR LF and no NUL in them, the server looks up the keys of the client in their order
(`request_agreement`). It reads no byte behind the request, so that a request may fill the buffer.
-/

namespace MgCommonUtils.URedis

open MgCommonUtils.Lib

/-! ## The model -/

/-- `uRedis_mget` up to `socket_sendto`, with `$req` from `rand` and with the result of `is_numeric`
on the port: the datagram that is sent, or `$err`. -/
def uRedisMget (host : Bytes) (numericPort : Bool) (req : ℕ) (keys : List Bytes) :
    Except String Bytes :=
  if keys.length = 0 ∨ keys.length > 100 then
    .error "keys must be an non empty array and contains at most 100 keys."
  else if host.length < 1 ∨ numericPort = false then
    .error "host must be a string and port must be a number."
  else
    let header := (headerEncode req 0 1).getD []
    let cmd := mgetCommand keys
    if cmd.length > 1024 - 8 then .error "request is too big."
    else .ok ((header ++ cmd).take (cmd.length + 8))

/-- By how much a turn of the loop over the keys moves `wlen`, for the result `vlen` of
`getCommandforUdp`, or none where it goes to `uend` with the error. -/
def bulkSize (wlen : ℕ) (vlen : ℤ) : Option ℕ :=
  if vlen < 0 then
    if wlen + 5 > wbufLen then none else some 5
  else if wlen + vlen.toNat + 10 > wbufLen then none
  else some ((text "$" ++ decimal vlen.toNat ++ crlf).length + vlen.toNat + 2)

/-- The loop over the keys, with `start` the rest of `rbuf`: the strings that `getCommandforUdp` is
called with, and whether the loop ends with a key that is too long. -/
def keyLoop (db : Bytes → Option Robj) (nkeys : ℕ) (start : Bytes) (wlen : ℕ) :
    Except Fault (List Bytes × Bool) :=
  match nkeys with
  | 0 => .ok ([], false)
  | nkeys + 1 => do
    let fin ← found (← strstr start)
    let start := start.drop (fin + 2)
    let fin ← found (← strstr start)
    if fin ≥ psize then return ([], true)
    let key := start.take fin
    let start := start.drop (fin + 2)
    match bulkSize wlen (getCommandforUdp db key valLen).1 with
    | none => return ([cstr key], false)
    | some k =>
      let (keys, tooLong) ← keyLoop db nkeys start (wlen + k)
      return (cstr key :: keys, tooLong)

/-- The part of `processCommandFromUdpClient` that reads the request: the strings that
`getCommandforUdp` is called with. -/
def keyCalls (db : Bytes → Option Robj) (rbuf : Bytes) : Except Fault (List Bytes) := do
  let start := rbuf.drop 9
  let fin ← strstr start
  let nkeys ← atoiAt start
  if nkeys < 2 ∨ nkeys > 101 then return []
  let fin ← found fin
  let start := start.drop (fin + 2)
  if !(← strncmpEq start (text "$4\r\nmget\r\n")) then return []
  let start := start.drop 10
  let nkeys := nkeys - 1
  let (keys, _) ← keyLoop db nkeys.toNat start
    (snprintf [] (text "*" ++ decimalInt nkeys ++ crlf)).length
  return keys

/-- The strings that `getCommandforUdp` is called with when the datagram `d` arrives. -/
def datagramCalls (db : Bytes → Option Robj) (d : Bytes) : Except Fault (List Bytes) :=
  let rbuf := d.take psize ++ List.replicate (psize - d.length) 0
  let nread := min d.length psize
  if nread ≤ 8 ∨ rbuf[8]? ≠ some 42 then .ok [] else keyCalls db rbuf

/-! ## The loop and its reply -/

/-- `getCommandforUdp` takes its key for a C string. -/
theorem getCommandforUdp_cstr (db : Bytes → Option Robj) (key : Bytes) (vlen : ℕ) :
    getCommandforUdp db (cstr key) vlen = getCommandforUdp db key vlen := by
  have hnul : (0 : UInt8) ∉ cstr key := fun h => by
    simpa using List.mem_takeWhile_imp h
  rw [getCommandforUdp, getCommandforUdp, cstr_eq_self hnul]

/-- `snprintf` moves `wlen` by the length of the text. -/
theorem length_snprintf (wbuf s : Bytes) : (snprintf wbuf s).length = wbuf.length + s.length := by
  unfold snprintf
  dsimp only
  rw [List.length_append, List.length_append, List.length_take, List.length_replicate]
  omega

/-- `getCommandforUdp` copies as many bytes as it says, if there is room for them. -/
theorem length_getCommandforUdp {db : Bytes → Option Robj} {key : Bytes}
    (hlo : 0 ≤ (getCommandforUdp db key valLen).1)
    (hhi : (getCommandforUdp db key valLen).1.toNat ≤ valLen) :
    (getCommandforUdp db key valLen).2.length = (getCommandforUdp db key valLen).1.toNat := by
  unfold getCommandforUdp at hlo hhi ⊢
  split
  case h_1 hdb => simp [hdb] at hlo
  case h_2 ptr hdb =>
    simp only [hdb, Int.toNat_natCast] at hhi
    dsimp only
    rw [Int.toNat_natCast, List.length_take, min_eq_right hhi]
  case h_3 ptr hdb =>
    have hlen : (decimalInt ptr.toInt).length ≤ valLen - 1 :=
      (length_decimalInt_le ptr).trans (by decide)
    dsimp only
    rw [Int.toNat_natCast, List.length_take, min_eq_right hlen]
  case h_4 hdb => simp [hdb] at hlo

/-- The length of the reply decides about the next bulk, and `bulkSize` is by how much it grows. -/
theorem appendBulk_spec (db : Bytes → Option Robj) (key wbuf : Bytes) :
    match bulkSize wbuf.length (getCommandforUdp db key valLen).1 with
    | none => appendBulk wbuf (getCommandforUdp db key valLen).1
        (getCommandforUdp db key valLen).2 = .ok none
    | some k => ∀ w, appendBulk wbuf (getCommandforUdp db key valLen).1
        (getCommandforUdp db key valLen).2 = .ok w → ∃ w', w = some w' ∧
          w'.length = wbuf.length + k := by
  have hlen := @length_getCommandforUdp db key
  generalize getCommandforUdp db key valLen = result at hlen
  obtain ⟨vlen, val⟩ := result
  unfold bulkSize appendBulk
  by_cases hneg : vlen < 0
  · rw [if_pos hneg]
    by_cases hroom : wbuf.length + 5 > wbufLen
    · rw [if_pos hroom, if_pos hneg, if_pos hroom]
    · rw [if_neg hroom, if_pos hneg, if_neg hroom]
      intro w hw
      exact ⟨_, (Except.ok.inj hw).symm, length_snprintf _ _⟩
  · rw [if_neg hneg]
    by_cases hroom : wbuf.length + vlen.toNat + 10 > wbufLen
    · rw [if_pos hroom, if_neg hneg, if_pos hroom]
    · rw [if_neg hroom, if_neg hneg, if_neg hroom]
      intro w hw
      split at hw
      · cases hw
      · rename_i hfit
        have hval : val.length = vlen.toNat := hlen (not_lt.mp hneg) (not_lt.mp hfit)
        refine ⟨_, (Except.ok.inj hw).symm, ?_⟩
        rw [List.length_append, List.length_append, length_snprintf, hval, length_crlf]
        omega

/-- The reply is put together from the values of the keys that are looked up. -/
theorem replyLoop_eq {db : Bytes → Option Robj} {n : ℕ} {start wbuf : Bytes} {called : List Bytes}
    {tooLong : Bool} (h : keyLoop db n start wbuf.length = .ok (called, tooLong)) :
    replyLoop db n start wbuf =
      (appendBulks wbuf (called.map fun key => getCommandforUdp db key valLen)).map fun w =>
        if tooLong then sprintfFront w (text "-Err: one of the keys is too long.") else w := by
  induction n generalizing start wbuf called with
  | zero =>
    obtain ⟨rfl, rfl⟩ := Prod.mk.inj (Except.ok.inj h)
    rfl
  | succ n ih =>
    rw [keyLoop] at h
    rw [replyLoop]
    simp only [bind, Except.bind] at h ⊢
    cases hfirst : strstr start with
    | error e => simp [hfirst] at h
    | ok first =>
    cases hlen : found first with
    | error e => simp [hfirst, hlen] at h
    | ok len =>
    cases hsecond : strstr (start.drop (len + 2)) with
    | error e => simp [hfirst, hlen, hsecond] at h
    | ok second =>
    cases hfin : found second with
    | error e => simp [hfirst, hlen, hsecond, hfin] at h
    | ok fin =>
    simp only [hfirst, hlen, hsecond, hfin] at h ⊢
    by_cases hlong : fin ≥ psize
    · rw [if_pos hlong] at h ⊢
      obtain ⟨rfl, rfl⟩ := Prod.mk.inj (Except.ok.inj h)
      rfl
    rw [if_neg hlong] at h ⊢
    have hspec := appendBulk_spec db ((start.drop (len + 2)).take fin) wbuf
    split at h
    · -- the reply becomes too big
      rename_i hnone
      rw [hnone] at hspec
      obtain ⟨rfl, rfl⟩ := Prod.mk.inj (Except.ok.inj h)
      rw [List.map_singleton, getCommandforUdp_cstr, appendBulks]
      simp only [bind, Except.bind, hspec]
      rfl
    · rename_i k hk
      rw [hk] at hspec
      split at h
      · cases h
      rename_i rest hrest
      obtain ⟨rfl, rfl⟩ := Prod.mk.inj (Except.ok.inj h)
      rw [List.map_cons, getCommandforUdp_cstr, appendBulks]
      simp only [bind, Except.bind]
      split
      · rfl
      · rename_i w hw
        obtain ⟨w', rfl, hlength⟩ := hspec w hw
        refine ih ?_
        rw [hlength]
        exact hrest

/-! ## The keys of the client -/

/-- The keys that are looked up until the reply is too big. -/
def lookedUp (db : Bytes → Option Robj) (wlen : ℕ) : List Bytes → List Bytes
  | [] => []
  | key :: keys =>
    match bulkSize wlen (getCommandforUdp db key valLen).1 with
    | none => [key]
    | some k => key :: lookedUp db (wlen + k) keys

/-- `wlen` after the bulks of some keys. -/
def wlenAfter (db : Bytes → Option Robj) (wlen : ℕ) (keys : List Bytes) : ℕ :=
  keys.foldl (fun wlen key =>
    wlen + (bulkSize wlen (getCommandforUdp db key valLen).1).getD 0) wlen

/-- All keys are looked up, or those up to one whose bulk makes the reply too big. -/
theorem lookedUp_cases (db : Bytes → Option Robj) (wlen : ℕ) (keys : List Bytes) :
    lookedUp db wlen keys = keys ∨ ∃ before key after, keys = before ++ key :: after ∧
      lookedUp db wlen keys = before ++ [key] ∧
      bulkSize (wlenAfter db wlen before) (getCommandforUdp db key valLen).1 = none := by
  induction keys generalizing wlen with
  | nil => exact .inl rfl
  | cons key keys ih =>
    rw [lookedUp]
    cases hk : bulkSize wlen (getCommandforUdp db key valLen).1 with
    | none => exact .inr ⟨[], key, keys, rfl, rfl, hk⟩
    | some k =>
      dsimp only
      rcases ih (wlen + k) with hall | ⟨before, last, after, rfl, hlast, hnone⟩
      · exact .inl (by rw [hall])
      · refine .inr ⟨key :: before, last, after, rfl, by rw [hlast]; rfl, ?_⟩
        rw [wlenAfter, List.foldl_cons, hk]
        exact hnone

/-- The loop looks up the keys of the command, and reads nothing behind it. -/
theorem keyLoop_keyLines (db : Bytes → Option Robj) {keys : List Bytes}
    (hline : ∀ key ∈ keys, IsLine key) (hlen : ∀ key ∈ keys, key.length < psize) (rest : Bytes)
    (wlen : ℕ) : keyLoop db keys.length (keyLines keys ++ rest) wlen =
      .ok (lookedUp db wlen keys, false) := by
  induction keys generalizing wlen with
  | nil => rfl
  | cons key keys ih =>
    have hkey := hline key List.mem_cons_self
    have hk := hlen key List.mem_cons_self
    rw [List.length_cons, keyLoop, keyLines_cons_append, strstr_line (isLine_dollar _)]
    simp only [bind, Except.bind, found]
    rw [drop_line, strstr_line hkey]
    dsimp only
    rw [if_neg (not_le.mpr hk), drop_line, List.append_assoc, List.take_left, lookedUp,
      cstr_of_isLine hkey]
    cases bulkSize wlen (getCommandforUdp db key valLen).1 with
    | none => rfl
    | some k =>
      dsimp only
      rw [ih (fun k h => hline k (List.mem_cons_of_mem _ h))
        (fun k h => hlen k (List.mem_cons_of_mem _ h))]
      rfl

/-- What the server reads of the request, whatever comes behind it. -/
theorem keyCalls_mgetCommand (db : Bytes → Option Robj) {keys : List Bytes} (hpos : keys ≠ [])
    (hmax : keys.length ≤ 100) (hline : ∀ key ∈ keys, IsLine key)
    (hlen : ∀ key ∈ keys, key.length < psize) {hdr : Bytes} (hhdr : hdr.length = 8)
    (rest : Bytes) : keyCalls db (hdr ++ mgetCommand keys ++ rest) =
      .ok (lookedUp db (text "*" ++ decimal keys.length ++ crlf).length keys) := by
  have hn : 0 < keys.length := List.length_pos_of_ne_nil hpos
  have hcount : (((keys.length + 1 : ℕ) : ℤ) - 1).toNat = keys.length := by omega
  obtain ⟨start, len, hstart, hstrstr, hatoi, hmethod, hkeys⟩ := mgetCommand_front hmax hhdr rest
  unfold keyCalls
  rw [hstart]
  dsimp only
  rw [hstrstr]
  simp only [bind, Except.bind, hatoi, found]
  rw [if_neg (by omega), hmethod]
  dsimp only
  rw [if_neg (by simp), hkeys, hcount, decimalInt_sub_one, length_snprintf, List.length_nil,
    Nat.zero_add, keyLoop_keyLines db hline hlen]
  rfl

/-- What the client sends: a header and the command, which fit into a datagram together. -/
theorem uRedisMget_eq_ok {host : Bytes} {numericPort : Bool} {req : ℕ} {keys : List Bytes}
    {d : Bytes} (hreq : req ≤ 65535) (h : uRedisMget host numericPort req keys = .ok d) :
    keys ≠ [] ∧ keys.length ≤ 100 ∧ d.length ≤ psize ∧
      ∃ hdr, hdr.length = 8 ∧ d = hdr ++ mgetCommand keys := by
  have henc := headerEncode_of_le hreq (Nat.zero_le 65535) (show 1 ≤ 65535 by decide)
  have hhdr := length_of_headerEncode henc
  unfold uRedisMget at h
  rw [henc, Option.getD_some] at h
  dsimp only at h
  split_ifs at h with hcount hhost hsize
  obtain rfl := Except.ok.inj h
  rw [not_or, not_lt] at hcount
  have hall : (word req ++ word 0 ++ word 1 ++ [0, 0] ++ mgetCommand keys).length =
      (mgetCommand keys).length + 8 := by
    rw [List.length_append, hhdr, Nat.add_comm]
  rw [List.take_of_length_le hall.le, hall]
  refine ⟨fun hnil => hcount.1 (by rw [hnil]; rfl), hcount.2, ?_, _, hhdr, rfl⟩
  unfold psize
  omega

/-- The keys of a request are looked up one after the other, unless the reply becomes too big: all
of them, or those up to one whose bulk has no room. What comes behind the request does not matter,
so the server does not read it. -/
theorem request_agreement (db : Bytes → Option Robj) {host : Bytes} {numericPort : Bool} {req : ℕ}
    {keys : List Bytes} {d : Bytes} (hreq : req ≤ 65535)
    (hd : uRedisMget host numericPort req keys = .ok d) (hline : ∀ key ∈ keys, IsLine key) :
    ∃ called, datagramCalls db d = .ok called ∧ (∀ rest, keyCalls db (d ++ rest) = .ok called) ∧
      (called = keys ∨ ∃ before key after, keys = before ++ key :: after ∧
        called = before ++ [key] ∧
        bulkSize (wlenAfter db (text "*" ++ decimal keys.length ++ crlf).length before)
          (getCommandforUdp db key valLen).1 = none) := by
  obtain ⟨hpos, hmax, hsize, hdr, hhdr, rfl⟩ := uRedisMget_eq_ok hreq hd
  have hcalls := keyCalls_mgetCommand db hpos hmax hline (length_key_lt hhdr hsize) hhdr
  refine ⟨_, ?_, hcalls, lookedUp_cases db _ keys⟩
  obtain ⟨hlong, hstar⟩ := accepts_mgetCommand hhdr keys
  unfold datagramCalls
  rw [List.take_of_length_le hsize, min_eq_left hsize]
  dsimp only
  rw [if_neg (not_or.mpr ⟨by omega, not_not.mpr (hstar _)⟩)]
  exact hcalls _

/-- The request 7 for an empty key and one that ends with CR. -/
def twoKeys : Bytes := [0, 7, 0, 0, 0, 1, 0, 0] ++ mgetCommand [[], [97, 13]]

/-- Both keys are looked up, and nothing behind the request is read. -/
theorem request_agreement_twoKeys :
    datagramCalls (fun _ => none) twoKeys = .ok [[], [97, 13]] ∧
      keyCalls (fun _ => none) twoKeys = .ok [[], [97, 13]] := by
  have hline : ∀ key ∈ ([[], [97, 13]] : List Bytes), IsLine key := by
    have hmem : ∀ key ∈ ([[], [97, 13]] : List Bytes), ¬crlf <:+: key ∧ (0 : UInt8) ∉ key := by
      decide
    exact fun key hkey => ⟨(hmem key hkey).1, (hmem key hkey).2⟩
  have hsent : uRedisMget [120] true 7 [[], [97, 13]] = .ok twoKeys := by rfl
  obtain ⟨called, hcalled, hrest, -⟩ := request_agreement (fun _ => none) (by decide) hsent hline
  have hboth : datagramCalls (fun _ => none) twoKeys = .ok [[], [97, 13]] := by decide +kernel
  obtain rfl := Except.ok.inj (hcalled.symm.trans hboth)
  have hnone := hrest []
  rw [List.append_nil] at hnone
  exact ⟨hboth, hnone⟩

end MgCommonUtils.URedis
