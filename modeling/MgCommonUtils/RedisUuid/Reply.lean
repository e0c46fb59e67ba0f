import MgCommonUtils.RedisUuid.Connections

/-!
# The framing of the replies

The three id servers answer `get` with a memcached reply whose byte count is a constant of the
format: 16 in `redis-uuid/redis.c`, and 19 in `redis-uuid/redis-realloc.c` and `redis-ckw/redis.c`,
which put their ids together in another way (`get_uuid`). `reply_framed` says that the constants are
right from 2001 to 2038: the ids of the first have 16 digits and those of the others have 19. It
also says that `snprintf` has room for the replies.
-/

namespace MgCommonUtils.RedisUuid

open MgCommonUtils.Lib

/-! ## The model of the other two servers -/

/-- The globals that an id depends on. -/
structure Globals where
  /-- `mid`. -/
  mid : UInt64
  /-- `sid`. -/
  sid : UInt64
  deriving DecidableEq, Repr

/-- The loop of `main` over the options, where a `mid` is between 1 and 255. -/
def options255 (mid : UInt64) : List Opt → Option UInt64
  | [] => some mid
  | .other :: rest => options255 mid rest
  | .u optarg :: rest =>
    let mid := UInt64.ofInt (atoi optarg)
    if mid < 1 ∨ mid > 255 then none else options255 mid rest
  | .exit :: _ => none

/-- `main` of `redis-realloc.c` and `redis-ckw/redis.c` up to its event loop. -/
def main255 (opts : List Opt) : Option Globals := do
  let mid ← options255 0 opts
  if mid < 1 ∨ mid > 255 then none else some { mid, sid := 0 }

/-- `get_uuid`, when `time` returns `now`. -/
def getUuid (g : Globals) (now : ℕ) : UInt64 × Globals :=
  let uuid := UInt64.ofNat now
  let uuid := uuid <<< 32
  let uuid := uuid + (g.mid <<< 24)
  let g := { g with sid := g.sid + 1 }
  let uuid := uuid + g.sid % 16777216
  (uuid, g)

/-- `snprintf(wbuf,size,s)`, without the NUL. -/
def snprintf (size : ℕ) (s : Bytes) : Bytes := s.take (size - 1)

/-- `ProcessRequestBuffer` on the bytes that the client has sent, where `snprintf` is given `size`:
what it returns and what it writes into `wbuf`. -/
def processGet (size : ℕ) (g : Globals) (now : ℕ) (rbuf : Bytes) : (ℤ × Bytes) × Globals :=
  match strstrCrlf rbuf with
  | none => ((0, []), g)
  | some p =>
    if p + 2 ≠ rbuf.length then ((-1, []), g)
    else if strcasecmpEq rbuf (text "quit\r\n") then ((-2, []), g)
    else if strncasecmpEq rbuf (text "get ") 4 then
      let (uuid, g) := getUuid g now
      let wbuf := snprintf size
        (text "VALUE uuid 0 19\r\n" ++ decimal uuid.toNat ++ text "\r\nEND\r\n")
      ((1, wbuf), g)
    else ((-1, []), g)

/-- `ProcessRequestBuffer` of `redis-realloc.c`, which allocates 128 bytes for the reply. -/
def reallocProcessRequestBuffer (g : Globals) (now : ℕ) (rbuf : Bytes) : (ℤ × Bytes) × Globals :=
  processGet 127 g now rbuf

/-- `ProcessRequestBuffer` of `redis-ckw/redis.c`, which has `WRITE_BUF_LEN` bytes for the reply. -/
def ckwProcessRequestBuffer (g : Globals) (now : ℕ) (rbuf : Bytes) : (ℤ × Bytes) × Globals :=
  processGet 127 g now rbuf

/-! ## Requests and replies -/

/-- A line that starts with `get` and a blank. -/
structure IsGet (rbuf : Bytes) : Prop where
  /-- It is a line. -/
  line : ∃ s, IsLine s ∧ rbuf = s ++ crlf
  /-- It starts with the command. -/
  get : strncasecmpEq rbuf (text "get ") 4 = true

/-- A memcached reply of one value, which is the numeral of the id, and whose byte count is that of
the numeral. -/
structure ValueReply (count : ℕ) (uuid : UInt64) (reply : Bytes) : Prop where
  /-- The block of the value, and the end. -/
  text_eq : reply = text "VALUE uuid 0 " ++ decimal count ++ crlf ++ decimal uuid.toNat ++ crlf ++
    text "END" ++ crlf
  /-- The count is right. -/
  count_eq : (decimal uuid.toNat).length = count

/-- A numeral has `k + 1` digits from `10 ^ k` up to `10 ^ (k + 1)`. -/
theorem length_decimal_eq {n k : ℕ} (hk : 0 < k) (h0 : 10^k ≤ n) (h1 : n < 10^(k + 1)) :
    (decimal n).length = k + 1 := by
  have hlow := lt_length_decimal hk h0
  have hup := length_decimal_le (Nat.succ_pos k) h1
  omega

/-- The only line end of a request is at its end. -/
theorem IsGet.strstrCrlf {rbuf : Bytes} (h : IsGet rbuf) :
    ∃ p, strstrCrlf rbuf = some p ∧ p + 2 = rbuf.length := by
  obtain ⟨s, hs, rfl⟩ := h.line
  exact ⟨s.length, strstrCrlf_line s [] hs, by rw [List.length_append, length_crlf]⟩

/-- It does not ask to quit. -/
theorem IsGet.not_quit {rbuf : Bytes} (h : IsGet rbuf) :
    strcasecmpEq rbuf (text "quit\r\n") = false := by
  by_contra hquit
  rw [Bool.not_eq_false, strcasecmpEq, beq_iff_eq] at hquit
  have hget := h.get
  rw [strncasecmpEq, beq_iff_eq, List.map_take, List.map_take, hquit] at hget
  exact absurd hget (by decide)

/-! ## The digits of the ids -/

/-- The ids of `redis.c` have 16 digits from 2001 to 2038. -/
theorem length_decimal_uuid52bit {mid : UInt64} {now : ℕ} (sid : UInt64) (hmid : mid.toNat ≤ 15)
    (h0 : 10^9 ≤ now) (h1 : now < 2^31) : (decimal (uuid52bit mid now sid).toNat).length = 16 := by
  have hsid : sid.toNat % 262144 < 262144 := Nat.mod_lt _ (by norm_num)
  have hnat := toNat_uuid52bit sid hmid (by omega) (show now < 2^41 by omega)
  refine length_decimal_eq (k := 15) (by norm_num) ?_ ?_
  · omega
  · omega

/-- The three fields of an id of `get_uuid` do not overlap. -/
theorem toNat_getUuid {g : Globals} {now : ℕ} (hmid : g.mid.toNat ≤ 255) (h1 : now < 2^31) :
    (getUuid g now).1.toNat =
      now * 4294967296 + g.mid.toNat * 16777216 + (g.sid + 1).toNat % 16777216 := by
  have hofNat : (UInt64.ofNat now).toNat = now := by
    rw [UInt64.toNat_ofNat']
    exact Nat.mod_eq_of_lt (by omega)
  -- Neither field is shifted out of the 64 bits.
  have hnow : (UInt64.ofNat now <<< 32).toNat = now * 4294967296 := by
    rw [UInt64.toNat_shiftLeft, hofNat, Nat.shiftLeft_eq]
    exact Nat.mod_eq_of_lt (by simp; omega)
  have hmid' : (g.mid <<< 24).toNat = g.mid.toNat * 16777216 := by
    rw [UInt64.toNat_shiftLeft, Nat.shiftLeft_eq]
    exact Nat.mod_eq_of_lt (by simp; omega)
  have hsid : ((g.sid + 1) % 16777216).toNat = (g.sid + 1).toNat % 16777216 :=
    UInt64.toNat_mod _ _
  have hlt : (g.sid + 1).toNat % 16777216 < 16777216 := Nat.mod_lt _ (by norm_num)
  change (UInt64.ofNat now <<< 32 + g.mid <<< 24 + (g.sid + 1) % 16777216).toNat = _
  rw [UInt64.toNat_add, UInt64.toNat_add, hnow, hmid', hsid]
  omega

/-- The ids of the other servers have 19 digits from 2001 to 2038. -/
theorem length_decimal_getUuid {g : Globals} {now : ℕ} (hmid : g.mid.toNat ≤ 255)
    (h0 : 10^9 ≤ now) (h1 : now < 2^31) :
    (decimal (getUuid g now).1.toNat).length = 19 := by
  have hnat := toNat_getUuid hmid h1
  have hlt : (g.sid + 1).toNat % 16777216 < 16777216 := Nat.mod_lt _ (by norm_num)
  refine length_decimal_eq (k := 18) (by norm_num) ?_ ?_
  · omega
  · omega

/-- `main` accepts the ids from 1 to 255, and starts the counter at 0. -/
theorem main255_spec {opts : List Opt} {g : Globals} (h : main255 opts = some g) :
    1 ≤ g.mid.toNat ∧ g.mid.toNat ≤ 255 ∧ g.sid = 0 := by
  obtain ⟨mid, -, h⟩ := Option.bind_eq_some_iff.mp h
  split_ifs at h with hmid
  obtain rfl := Option.some.inj h
  obtain ⟨h1, h255⟩ := not_or.mp hmid
  exact ⟨UInt64.le_iff_toNat_le.mp (UInt64.not_lt.mp h1),
    UInt64.le_iff_toNat_le.mp (UInt64.not_lt.mp h255), rfl⟩

/-! ## The replies -/

/-- A reply that fits is not cut. -/
theorem valueReply_take {count limit : ℕ} {uuid : UInt64} {front : Bytes}
    (hfront : front = text "VALUE uuid 0 " ++ decimal count ++ crlf) (hlen : front.length = 17)
    (hcount : (decimal uuid.toNat).length = count) (hfit : 24 + count ≤ limit) :
    ValueReply count uuid
      ((front ++ decimal uuid.toNat ++ text "\r\nEND\r\n").take limit) := by
  refine ⟨?_, hcount⟩
  rw [List.take_of_length_le, hfront]
  · simp only [List.append_assoc]
    rfl
  · -- 17 bytes in front of the numeral, and 7 behind it
    have hend : (text "\r\nEND\r\n").length = 7 := rfl
    rw [List.length_append, List.length_append, hlen, hcount, hend]
    omega

/-- What `redis.c` replies to a `get`. -/
theorem processRequestBuffer_get {s : Server} {now : ℕ} {rbuf : Bytes} (hget : IsGet rbuf)
    (hmid : s.mid.toNat ≤ 15) (h0 : 10^9 ≤ now) (h1 : now < 2^31) :
    ∃ uuid, (processRequestBuffer s now rbuf).1 = .value uuid ∧
      ValueReply 16 uuid (Answer.value uuid).reply := by
  obtain ⟨p, hp, hend⟩ := hget.strstrCrlf
  refine ⟨uuid52bit s.mid now (s.sid + 1), ?_, ?_⟩
  · rw [processRequestBuffer, hp]
    dsimp only
    rw [if_neg (not_not.mpr hend), hget.not_quit, if_neg Bool.false_ne_true, if_pos hget.get]
    rfl
  · exact valueReply_take rfl rfl (length_decimal_uuid52bit _ hmid h0 h1) (by decide)

/-- What the other servers reply to a `get`. -/
theorem processGet_get {size : ℕ} {g : Globals} {now : ℕ} {rbuf : Bytes} (hget : IsGet rbuf)
    (hsize : 44 ≤ size) (hmid : g.mid.toNat ≤ 255) (h0 : 10^9 ≤ now) (h1 : now < 2^31) :
    ∃ uuid wbuf, (processGet size g now rbuf).1 = (1, wbuf) ∧ ValueReply 19 uuid wbuf := by
  obtain ⟨p, hp, hend⟩ := hget.strstrCrlf
  refine ⟨(getUuid g now).1, snprintf size (text "VALUE uuid 0 19\r\n" ++
    decimal (getUuid g now).1.toNat ++ text "\r\nEND\r\n"), ?_, ?_⟩
  · rw [processGet, hp]
    dsimp only
    rw [if_neg (not_not.mpr hend), hget.not_quit, if_neg Bool.false_ne_true, if_pos hget.get]
  · exact valueReply_take rfl rfl (length_decimal_getUuid hmid h0 h1) (by omega)

/-- For every clock reading from `10 ^ 9` up to `2 ^ 31`, every `mid` that `main` accepts and every
counter, each of the servers replies to a `get` with a whole memcached reply, whose byte count is
that of the numeral in it. -/
theorem reply_framed {now : ℕ} (h0 : 10^9 ≤ now) (h1 : now < 2^31) {rbuf : Bytes}
    (hget : IsGet rbuf) :
    (∀ (opts : List Opt) (s₀ s : Server), main opts = some s₀ → s.mid = s₀.mid →
      ∃ uuid, (processRequestBuffer s now rbuf).1 = .value uuid ∧
        ValueReply 16 uuid (Answer.value uuid).reply) ∧
    ∀ (opts : List Opt) (g₀ g : Globals), main255 opts = some g₀ → g.mid = g₀.mid →
      (∃ uuid wbuf, (reallocProcessRequestBuffer g now rbuf).1 = (1, wbuf) ∧
        ValueReply 19 uuid wbuf) ∧
      ∃ uuid wbuf, (ckwProcessRequestBuffer g now rbuf).1 = (1, wbuf) ∧
        ValueReply 19 uuid wbuf := by
  constructor
  · intro opts s₀ s hmain hmid
    obtain ⟨hle, -⟩ := main_spec hmain
    exact processRequestBuffer_get hget (hmid ▸ hle) h0 h1
  · intro opts g₀ g hmain hmid
    obtain ⟨-, hle, -⟩ := main255_spec hmain
    have hle' : g.mid.toNat ≤ 255 := hmid ▸ hle
    exact ⟨processGet_get hget (by norm_num) hle' h0 h1,
      processGet_get hget (by norm_num) hle' h0 h1⟩

/-- The reply of process 15 at the end of 2023, with its counter at `2 ^ 64 - 2`. -/
theorem reply_framed_15 : ∃ uuid,
    (processRequestBuffer ⟨15, 18446744073709551614, 0, 0, 0⟩ 1704067199
      (text "get uuid\r\n")).1 = .value uuid ∧ ValueReply 16 uuid (Answer.value uuid).reply := by
  have hline : IsGet (text "get uuid\r\n") :=
    ⟨⟨text "get uuid", ⟨by decide, by decide⟩, by decide⟩, by decide⟩
  exact (reply_framed (by norm_num) (by norm_num) hline).1 [.u (decimal 15)] _ _
    (main_u (by norm_num)) rfl

end MgCommonUtils.RedisUuid
