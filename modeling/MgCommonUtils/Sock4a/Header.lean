import MgCommonUtils.Lib.Reader
import MgCommonUtils.Sock4a.Codec

/-!
# The request header

What `sock4aWorker` of `sock4a/server.cpp` does up to `anetTcpConnect`. It takes one `read` for the
whole request, and looks for the end of the user id and for that of the host name in `buffer` with
no regard to where the bytes received end. A request names its host where the address is 0.0.0.x,
but the test reads the first byte twice and never the second, so that it takes 0.b.0.d for one.

The memory is what may be read from `buffer` on. On the received bytes alone a scan that leaves them
stops, and `headerInBounds_iff` says when none does. On all of `buffer`, whose tail holds anything,
`connectsRight_iff` says which requests are connected to what they ask for.
-/

namespace MgCommonUtils.Sock4a

open MgCommonUtils.Lib
open MgCommonUtils.Lib.Reader

/-! ## The model -/

/-- `BUF_SIZE`. -/
def BUF_SIZE : ℕ := 65536

/-- What `sock4aWorker` does with a request. -/
inductive Outcome where
  /-- It closes the connection. -/
  | closed
  /-- It calls `anetTcpConnect` with these arguments. -/
  | connect (peerIp : Bytes) (peerPort : ℕ)
  deriving DecidableEq, Repr

/-- The text of `sprintf(peer_ip,"%u.%u.%u.%u",...)`. -/
def dotted (a b c d : ℕ) : Bytes :=
  decimal a ++ text "." ++ decimal b ++ text "." ++ decimal c ++ text "." ++ decimal d

/-- The branch of a request with a host name: `strchr(buffer+8,0)`, which is never null, and
`strcpy(peer_ip,p+1)` into 128 bytes. -/
def domainName : Reader Bytes := do
  let p := 8 + (← cstrAt 8).length
  let s ← cstrAt (p + 1)
  if s.length < 128 then return s else stop .outOfBounds

/-- What is done with a header that is decoded. -/
def header : Reader Outcome := do
  let version ← byteAt 0
  let command ← byteAt 1
  if version ≠ 4 ∨ command ≠ 1 then return .closed
  else
    let peerPort := (← byteAt 2) * 2^8 + (← byteAt 3)
    let b4 ← byteAt 4
    let b6 ← byteAt 6
    -- The test reads `buffer[4]` in the place of `buffer[5]`.
    if b4 = 0 ∧ b4 = 0 ∧ b6 = 0 then
      return .connect (← domainName) peerPort
    else
      return .connect (dotted b4 (← byteAt 5) b6 (← byteAt 7)) peerPort

/-- `sock4aWorker` up to `anetTcpConnect`: `nr` is what `read` returns, and `buffer` is what may be
read from the array on. -/
def sock4aWorker (nr : ℤ) (buffer : Bytes) : Except Stop Outcome :=
  if nr < 0 then .ok .closed
  else if nr = 0 then .ok .closed
  else if nr ≤ 8 then .ok .closed
  else header (simpleDecode (buffer.take nr.toNat) ++ buffer.drop nr.toNat)

/-! ## Requests -/

/-- What a request asks for. -/
inductive Dest where
  /-- An address that is not of the form 0.0.0.x. -/
  | addr (a b c d : UInt8) (h : ¬(a = 0 ∧ b = 0 ∧ c = 0))
  /-- A host name, with an address 0.0.0.x. -/
  | name (x : {x : UInt8 // x ≠ 0}) (host : {s : Bytes // (0 : UInt8) ∉ s})

/-- The four bytes of the address. -/
def Dest.ip : Dest → Bytes
  | addr a b c d _ => [a, b, c, d]
  | name x _ => [0, 0, 0, x.val]

/-- What follows the user id. -/
def Dest.tail : Dest → Bytes
  | addr .. => []
  | name _ host => host.val ++ [0]

/-- The host as `anetTcpConnect` takes it. -/
def Dest.host : Dest → Bytes
  | addr a b c d _ => dotted a.toNat b.toNat c.toNat d.toNat
  | name _ host => host.val

/-- A CONNECT request. -/
structure Request where
  /-- The port. -/
  port : UInt16
  /-- The address or the host name. -/
  dest : Dest
  /-- The user id. -/
  userId : {s : Bytes // (0 : UInt8) ∉ s}

/-- The bytes of a request. -/
def Request.bytes (r : Request) : Bytes :=
  [4, 1, UInt8.ofNat (r.port.toNat / 2^8), UInt8.ofNat r.port.toNat] ++ r.dest.ip ++
    (r.userId.val ++ 0 :: r.dest.tail)

/-- A request whose first `read` returns these bytes is connected to what it asks for, whatever the
tail of `buffer` holds. -/
def Request.ConnectsRight (r : Request) (first : Bytes) : Prop :=
  ∀ tail : Bytes, first.length + tail.length = BUF_SIZE →
    sock4aWorker first.length (first ++ tail) = .ok (.connect r.dest.host r.port.toNat)

/-- An address is read from nine bytes, and has a first or a third byte that is not zero. A host
name is read with the whole request, and fits `peer_ip`. -/
def Request.Taken (r : Request) (first : Bytes) : Prop :=
  match r.dest with
  | .addr a _ c _ _ => 9 ≤ first.length ∧ ¬(a = 0 ∧ c = 0)
  | .name _ host => first.length = r.bytes.length ∧ host.val.length ≤ 127

/-- No scan leaves the bytes received, and no copy leaves `peer_ip`. -/
def HeaderInBounds (first : Bytes) : Prop := ∃ o, sock4aWorker first.length first = .ok o

/-- A user id and a host name of at most 127 bytes are there, each with its NUL. -/
def HasName (m : Bytes) : Prop :=
  ∃ userId host rest : Bytes, m.drop 8 = userId ++ 0 :: (host ++ 0 :: rest) ∧
    0 ∉ userId ∧ 0 ∉ host ∧ host.length ≤ 127

/-- The bytes are too few, or no CONNECT request, or one that is not taken for one with a host name,
or the name is there. -/
def SafeHeader (first : Bytes) : Prop :=
  let m := simpleDecode first
  first.length ≤ 8 ∨ m.take 2 ≠ [4, 1] ∨ ¬(m[4]? = some 0 ∧ m[6]? = some 0) ∨ HasName m

/-! ## The branches -/

/-- The branch of a host name reads two strings, one behind the other. -/
theorem domainName_eq_ok {m s : Bytes} : domainName m = .ok s ↔
    ∃ userId rest : Bytes, m.drop 8 = userId ++ 0 :: (s ++ 0 :: rest) ∧ 0 ∉ userId ∧ 0 ∉ s ∧
      s.length < 128 := by
  unfold domainName
  constructor
  · intro h
    obtain ⟨userId, huser, h⟩ := bind_eq_ok.mp h
    obtain ⟨host, hhost, h⟩ := bind_eq_ok.mp h
    obtain ⟨hnul, rest, hdrop⟩ := cstrAt_eq_ok.mp huser
    obtain ⟨hnul', rest', hdrop'⟩ := cstrAt_eq_ok.mp hhost
    -- The host name is read from behind the NUL of the user id.
    have hrest : m.drop (8 + userId.length + 1) = rest := by
      have hlen : 8 + userId.length + 1 = 8 + (userId ++ [0]).length := by
        rw [List.length_append, List.length_singleton, Nat.add_assoc]
      rw [hlen]
      exact drop_add_of_drop (by rw [hdrop, List.append_assoc, List.singleton_append])
    split at h
    · obtain rfl := Except.ok.inj h
      exact ⟨userId, rest', by rw [hdrop, ← hrest, hdrop'], hnul, hnul', ‹_›⟩
    · cases h
  · rintro ⟨userId, rest, hdrop, hnul, hnul', hlen⟩
    refine bind_eq_ok.mpr ⟨userId, cstrAt_eq_ok.mpr ⟨hnul, _, hdrop⟩, ?_⟩
    refine bind_eq_ok.mpr ⟨s, cstrAt_eq_ok.mpr ⟨hnul', rest, ?_⟩, ?_⟩
    · have hlen : 8 + userId.length + 1 = 8 + (userId ++ [0]).length := by
        rw [List.length_append, List.length_singleton, Nat.add_assoc]
      rw [hlen]
      exact drop_add_of_drop (by rw [hdrop, List.append_assoc, List.singleton_append])
    · rw [if_pos hlen]
      rfl

/-- The branch of a host name goes through where the name is there. -/
theorem exists_domainName_iff {m : Bytes} : (∃ s, domainName m = .ok s) ↔ HasName m := by
  constructor
  · rintro ⟨s, hs⟩
    obtain ⟨userId, rest, hdrop, hnul, hnul', hlen⟩ := domainName_eq_ok.mp hs
    exact ⟨userId, s, rest, hdrop, hnul, hnul', Nat.le_of_lt_succ hlen⟩
  · rintro ⟨userId, s, rest, hdrop, hnul, hnul', hlen⟩
    exact ⟨s, domainName_eq_ok.mpr ⟨userId, rest, hdrop, hnul, hnul', Nat.lt_succ_of_le hlen⟩⟩

/-- The number of a byte is that of another one only for this. -/
theorem toNat_eq_iff (a b : UInt8) : a.toNat = b.toNat ↔ a = b := UInt8.toNat_inj

/-- The header from eight bytes on. -/
theorem header_cons (b0 b1 b2 b3 b4 b5 b6 b7 : UInt8) (t : Bytes) :
    header (b0 :: b1 :: b2 :: b3 :: b4 :: b5 :: b6 :: b7 :: t) =
      if b0 = 4 ∧ b1 = 1 then
        if b4 = 0 ∧ b6 = 0 then
          (domainName (b0 :: b1 :: b2 :: b3 :: b4 :: b5 :: b6 :: b7 :: t)).map fun s =>
            .connect s (b2.toNat * 2^8 + b3.toNat)
        else .ok (.connect (dotted b4.toNat b5.toNat b6.toNat b7.toNat)
          (b2.toNat * 2^8 + b3.toNat))
      else .ok .closed := by
  have hversion : (b0.toNat ≠ 4 ∨ b1.toNat ≠ 1) ↔ ¬(b0 = 4 ∧ b1 = 1) := by
    rw [not_and_or]
    exact or_congr (not_congr (toNat_eq_iff b0 4)) (not_congr (toNat_eq_iff b1 1))
  have hname : (b4.toNat = 0 ∧ b4.toNat = 0 ∧ b6.toNat = 0) ↔ b4 = 0 ∧ b6 = 0 := by
    rw [and_self_left]
    exact and_congr (toNat_eq_iff b4 0) (toNat_eq_iff b6 0)
  unfold header
  rw [bind_ok (a := b0.toNat) rfl, bind_ok (a := b1.toNat) rfl]
  by_cases hconnect : b0 = 4 ∧ b1 = 1
  · rw [if_neg fun h => hversion.mp h hconnect, if_pos hconnect, bind_ok (a := b2.toNat) rfl,
      bind_ok (a := b3.toNat) rfl, bind_ok (a := b4.toNat) rfl, bind_ok (a := b6.toNat) rfl]
    by_cases hzero : b4 = 0 ∧ b6 = 0
    · rw [if_pos (hname.mpr hzero), if_pos hzero]
      cases hcopy : domainName (b0 :: b1 :: b2 :: b3 :: b4 :: b5 :: b6 :: b7 :: t) with
      | ok s => exact bind_ok hcopy
      | error e => exact bind_error hcopy
    · rw [if_neg fun h => hzero (hname.mp h), if_neg hzero, bind_ok (a := b5.toNat) rfl,
        bind_ok (a := b7.toNat) rfl]
      rfl
  · rw [if_pos (hversion.mpr hconnect), if_neg hconnect]
    rfl

/-- Eight bytes are there. -/
theorem exists_eq_cons {m : Bytes} (h : 8 ≤ m.length) : ∃ b0 b1 b2 b3 b4 b5 b6 b7 t,
    m = b0 :: b1 :: b2 :: b3 :: b4 :: b5 :: b6 :: b7 :: t := by
  match m, h with
  | b0 :: b1 :: b2 :: b3 :: b4 :: b5 :: b6 :: b7 :: t, _ =>
    exact ⟨b0, b1, b2, b3, b4, b5, b6, b7, t, rfl⟩

/-- At most eight bytes are no header. -/
theorem sock4aWorker_short {first : Bytes} (h : first.length ≤ 8) (buffer : Bytes) :
    sock4aWorker first.length buffer = .ok .closed := by
  unfold sock4aWorker
  rw [if_neg (by omega)]
  split_ifs
  · rfl
  · rfl
  · omega

/-- More are decoded, in front of what else is in `buffer`. -/
theorem sock4aWorker_long {first : Bytes} (h : 8 < first.length) (tail : Bytes) :
    sock4aWorker first.length (first ++ tail) = header (simpleDecode first ++ tail) := by
  unfold sock4aWorker
  rw [if_neg (by omega), if_neg (by omega), if_neg (by omega), Int.toNat_natCast, List.take_left,
    List.drop_left]

/-! ## The bounds -/

/-- The scans stay in the bytes received, and the copy in `peer_ip`, exactly on the safe headers. -/
theorem headerInBounds_iff (first : Bytes) : HeaderInBounds first ↔ SafeHeader first := by
  unfold HeaderInBounds SafeHeader
  by_cases hshort : first.length ≤ 8
  · exact iff_of_true ⟨_, sock4aWorker_short hshort first⟩ (.inl hshort)
  have hworker := sock4aWorker_long (not_le.mp hshort) []
  rw [List.append_nil, List.append_nil] at hworker
  have hlen : 8 ≤ (simpleDecode first).length := by
    rw [simpleDecode, List.length_map]
    omega
  obtain ⟨b0, b1, b2, b3, b4, b5, b6, b7, t, hm⟩ := exists_eq_cons hlen
  have hversion : (b0 :: b1 :: b2 :: b3 :: b4 :: b5 :: b6 :: b7 :: t).take 2 ≠ [4, 1] ↔
      ¬(b0 = 4 ∧ b1 = 1) := by simp
  have hname : ((b0 :: b1 :: b2 :: b3 :: b4 :: b5 :: b6 :: b7 :: t)[4]? = some 0 ∧
      (b0 :: b1 :: b2 :: b3 :: b4 :: b5 :: b6 :: b7 :: t)[6]? = some 0) ↔ b4 = 0 ∧ b6 = 0 := by
    simp
  rw [hworker, hm, header_cons]
  dsimp only
  rw [hversion, hname]
  by_cases hconnect : b0 = 4 ∧ b1 = 1
  swap
  · -- The worker closes the connection without a scan.
    rw [if_neg hconnect]
    exact iff_of_true ⟨_, rfl⟩ (.inr (.inl hconnect))
  by_cases hzero : b4 = 0 ∧ b6 = 0
  swap
  · rw [if_pos hconnect, if_neg hzero]
    exact iff_of_true ⟨_, rfl⟩ (.inr (.inr (.inl hzero)))
  -- What is left is the branch of a host name, and it scans.
  rw [if_pos hconnect, if_pos hzero, or_iff_right hshort, or_iff_right (not_not.mpr hconnect),
    or_iff_right (not_not.mpr hzero), ← exists_domainName_iff]
  constructor
  · rintro ⟨o, ho⟩
    obtain ⟨s, hs, -⟩ := except_map_eq_ok.mp ho
    exact ⟨s, hs⟩
  · rintro ⟨s, hs⟩
    exact ⟨_, except_map_eq_ok.mpr ⟨s, hs, rfl⟩⟩

/-- A user id without its NUL, and nothing behind it. -/
theorem not_headerInBounds_open :
    sock4aWorker 9 (simpleEncode [4, 1, 0, 80, 0, 0, 0, 1, 97]) = .error .outOfBounds ∧
      ¬HeaderInBounds (simpleEncode [4, 1, 0, 80, 0, 0, 0, 1, 97]) := by
  have hfault : sock4aWorker 9 (simpleEncode [4, 1, 0, 80, 0, 0, 0, 1, 97]) =
      .error .outOfBounds := by decide +kernel
  refine ⟨hfault, ?_⟩
  rintro ⟨o, ho⟩
  cases hfault.symm.trans ho

/-! ## The target -/

/-- The port is put together again. -/
theorem port_eq (port : UInt16) :
    (UInt8.ofNat (port.toNat / 2^8)).toNat * 2^8 + (UInt8.ofNat port.toNat).toNat = port.toNat := by
  have hlt := port.toNat_lt
  simp only [UInt8.toNat_ofNat']
  omega

namespace Request

variable {r : Request} {first : Bytes}

/-- The length of a request. -/
theorem length_bytes (r : Request) :
    r.bytes.length = 8 + (r.userId.val ++ 0 :: r.dest.tail).length := by
  have hip : r.dest.ip.length = 4 := by cases r.dest <;> rfl
  rw [bytes, List.length_append, List.length_append, hip]
  rfl

/-- What is decoded of a request is a front of its bytes. -/
theorem simpleDecode_first (hpre : first <+: simpleEncode r.bytes) :
    simpleDecode first = r.bytes.take first.length := by
  have hdecode := simpleDecode_simpleEncode r.bytes
  have htake := List.prefix_iff_eq_take.mp hpre
  calc simpleDecode first
      = simpleDecode ((simpleEncode r.bytes).take first.length) := by rw [← htake]
    _ = (simpleDecode (simpleEncode r.bytes)).take first.length := List.map_take
    _ = r.bytes.take first.length := by rw [hdecode]

/-- What the worker does with a request of which it has read more than eight bytes. -/
theorem exists_memory (hpre : first <+: simpleEncode r.bytes) (hlong : 8 < first.length)
    (tail : Bytes) {a b c d : UInt8} (hip : r.dest.ip = [a, b, c, d]) : ∃ m : Bytes,
      m.drop 8 = (r.userId.val ++ 0 :: r.dest.tail).take (first.length - 8) ++ tail ∧
      sock4aWorker first.length (first ++ tail) =
        if a = 0 ∧ c = 0 then (domainName m).map fun s => .connect s r.port.toNat
        else .ok (.connect (dotted a.toNat b.toNat c.toNat d.toNat) r.port.toNat) := by
  have hbytes : simpleDecode first = 4 :: 1 :: UInt8.ofNat (r.port.toNat / 2^8) ::
      UInt8.ofNat r.port.toNat :: a :: b :: c :: d ::
        (r.userId.val ++ 0 :: r.dest.tail).take (first.length - 8) := by
    have hfront : ([4, 1, UInt8.ofNat (r.port.toNat / 2^8), UInt8.ofNat r.port.toNat] ++
        [a, b, c, d]).length ≤ first.length := hlong.le
    rw [simpleDecode_first hpre, bytes, hip, List.take_append, List.take_of_length_le hfront]
    rfl
  refine ⟨simpleDecode first ++ tail, ?_, ?_⟩
  · rw [hbytes]
    rfl
  · rw [sock4aWorker_long hlong, hbytes]
    simp only [List.cons_append]
    rw [header_cons, if_pos ⟨rfl, rfl⟩, port_eq]

/-- Two NULs are behind the address where the branch of a host name goes through. -/
theorem two_le_count_of_domainName {m s : Bytes} (h : domainName m = .ok s) :
    2 ≤ (m.drop 8).count 0 := by
  obtain ⟨userId, rest, hdrop, -, -, -⟩ := domainName_eq_ok.mp h
  rw [hdrop, List.count_append, List.count_cons_self, List.count_append, List.count_cons_self]
  omega

/-- A tail without a NUL stops the scans of a request with one NUL at most behind its address. -/
theorem not_connectsRight_of_count (hlen : first.length ≤ BUF_SIZE)
    (hpre : first <+: simpleEncode r.bytes) (hlong : 8 < first.length) {a b c d : UInt8}
    (hip : r.dest.ip = [a, b, c, d]) (hzero : a = 0 ∧ c = 0)
    (hcount : ((r.userId.val ++ 0 :: r.dest.tail).take (first.length - 8)).count 0 ≤ 1) :
    ¬r.ConnectsRight first := by
  intro h
  -- The rest of `buffer` may be full of ones.
  have hright := h (List.replicate (BUF_SIZE - first.length) 1)
    (by rw [List.length_replicate]; omega)
  obtain ⟨m, hdrop, hworker⟩ := exists_memory hpre hlong
    (List.replicate (BUF_SIZE - first.length) 1) hip
  rw [hworker, if_pos hzero] at hright
  obtain ⟨s, hs, -⟩ := except_map_eq_ok.mp hright
  have htwo := two_le_count_of_domainName hs
  have hones : (List.replicate (BUF_SIZE - first.length) (1 : UInt8)).count 0 = 0 :=
    List.count_eq_zero.mpr fun hmem => by cases List.eq_of_mem_replicate hmem
  rw [hdrop, List.count_append, hones] at htwo
  omega

end Request

/-- A request for an address. -/
theorem Request.connectsRight_addr {r : Request} {first : Bytes} (hlen : first.length ≤ BUF_SIZE)
    (hpre : first <+: simpleEncode r.bytes) (hlong : 8 < first.length) {a b c d : UInt8}
    {h : ¬(a = 0 ∧ b = 0 ∧ c = 0)} (hdest : r.dest = .addr a b c d h) :
    r.ConnectsRight first ↔ ¬(a = 0 ∧ c = 0) := by
  have hip : r.dest.ip = [a, b, c, d] := by rw [hdest]; rfl
  constructor
  · intro hright hzero
    refine not_connectsRight_of_count hlen hpre hlong hip hzero ?_ hright
    -- The only NUL is that of the user id.
    have hcount : (r.userId.val ++ 0 :: r.dest.tail).count 0 = 1 := by
      rw [hdest, List.count_append, List.count_eq_zero.mpr r.userId.property]
      rfl
    exact ((List.take_sublist _ _).count_le 0).trans hcount.le
  · intro hzero tail _
    obtain ⟨m, -, hworker⟩ := exists_memory hpre hlong tail hip
    rw [hworker, if_neg hzero, hdest]
    rfl

/-- A request for a host name. -/
theorem Request.connectsRight_name {r : Request} {first : Bytes} (hlen : first.length ≤ BUF_SIZE)
    (hpre : first <+: simpleEncode r.bytes) (hlong : 8 < first.length) {x : {x : UInt8 // x ≠ 0}}
    {host : {s : Bytes // (0 : UInt8) ∉ s}} (hdest : r.dest = .name x host) :
    r.ConnectsRight first ↔ first.length = r.bytes.length ∧ host.val.length ≤ 127 := by
  have hip : r.dest.ip = [0, 0, 0, x.val] := by rw [hdest]; rfl
  have htail : r.userId.val ++ 0 :: r.dest.tail = (r.userId.val ++ 0 :: host.val) ++ [0] := by
    rw [hdest, List.append_assoc]
    rfl
  have hbytes := r.length_bytes
  rw [htail, List.length_append, List.length_singleton] at hbytes
  by_cases hall : first.length = r.bytes.length
  · -- both strings are in the memory
    have hmemory : ∀ tail m : Bytes,
        m.drop 8 = (r.userId.val ++ 0 :: r.dest.tail).take (first.length - 8) ++ tail →
          m.drop 8 = r.userId.val ++ 0 :: (host.val ++ 0 :: tail) := by
      intro tail m hdrop
      have hfit : ((r.userId.val ++ 0 :: host.val) ++ [0]).length ≤ first.length - 8 := by
        rw [List.length_append, List.length_singleton]
        omega
      rw [hdrop, htail, List.take_of_length_le hfit]
      simp only [List.append_assoc, List.cons_append, List.nil_append]
    rw [and_iff_right hall]
    constructor
    · intro hright
      obtain ⟨tail, hspace⟩ : ∃ tail : Bytes, first.length + tail.length = BUF_SIZE :=
        ⟨List.replicate (BUF_SIZE - first.length) 1, by rw [List.length_replicate]; omega⟩
      obtain ⟨m, -, hworker⟩ := exists_memory hpre hlong tail hip
      have hconnect := hright tail hspace
      rw [hworker, if_pos ⟨rfl, rfl⟩, hdest] at hconnect
      obtain ⟨s, hs, heq⟩ := except_map_eq_ok.mp hconnect
      obtain ⟨-, -, -, -, -, hshort⟩ := domainName_eq_ok.mp hs
      rw [(Outcome.connect.inj heq).1] at hshort
      exact Nat.le_of_lt_succ hshort
    · intro hshort tail _
      obtain ⟨m, hdrop, hworker⟩ := exists_memory hpre hlong tail hip
      have hname : domainName m = .ok host.val := domainName_eq_ok.mpr
        ⟨r.userId.val, tail, hmemory tail m hdrop, r.userId.property, host.property,
          Nat.lt_succ_of_le hshort⟩
      rw [hworker, if_pos ⟨rfl, rfl⟩, hname, hdest]
      rfl
  · refine iff_of_false ?_ fun h => hall h.1
    refine not_connectsRight_of_count hlen hpre hlong hip ⟨rfl, rfl⟩ ?_
    -- What is missing has the NUL of the host name.
    have hle : first.length - 8 ≤ (r.userId.val ++ 0 :: host.val).length := by
      have := hpre.length_le
      rw [simpleEncode, List.length_map] at this
      omega
    have hcount : (r.userId.val ++ 0 :: host.val).count 0 = 1 := by
      rw [List.count_append, List.count_cons_self, List.count_eq_zero.mpr r.userId.property,
        List.count_eq_zero.mpr host.property]
    rw [htail, List.take_append_of_le_length hle]
    exact ((List.take_sublist _ _).count_le 0).trans hcount.le

/-- A request of at most 65536 bytes is connected to what it asks for, however it is split into
reads, if and only if its first read takes it. -/
theorem connectsRight_iff (r : Request) (hlen : r.bytes.length ≤ BUF_SIZE) {pieces : List Bytes}
    (hcut : pieces.flatten = simpleEncode r.bytes) :
    r.ConnectsRight (pieces.headD []) ↔ r.Taken (pieces.headD []) := by
  obtain ⟨first, hfirst⟩ : ∃ first, first = pieces.headD [] := ⟨_, rfl⟩
  have hpre : first <+: simpleEncode r.bytes := by
    rw [hfirst, ← hcut]
    cases pieces with
    | nil => exact List.nil_prefix
    | cons p pieces => exact List.prefix_append p _
  rw [← hfirst]
  have hle : first.length ≤ r.bytes.length := by
    have := hpre.length_le
    rwa [simpleEncode, List.length_map] at this
  have hbytes := r.length_bytes
  by_cases hshort : first.length ≤ 8
  · -- The connection is closed, and the first read is not the whole request.
    refine iff_of_false (fun hright => ?_) fun htaken => ?_
    · have hclosed := sock4aWorker_short hshort
        (first ++ List.replicate (BUF_SIZE - first.length) 1)
      have hconnect := hright (List.replicate (BUF_SIZE - first.length) 1)
        (by rw [List.length_replicate]; omega)
      cases hclosed.symm.trans hconnect
    · unfold Request.Taken at htaken
      split at htaken
      · omega
      · rw [List.length_append, List.length_cons] at hbytes
        omega
  have hlong := not_le.mp hshort
  unfold Request.Taken
  split
  · rename_i hdest
    rw [Request.connectsRight_addr (hle.trans hlen) hpre hlong hdest]
    exact (and_iff_right hlong).symm
  · rename_i hdest
    exact Request.connectsRight_name (hle.trans hlen) hpre hlong hdest

/-- The request for port 80 of 10.0.0.1, with an empty user id. -/
def tenRequest : Request := ⟨80, .addr 10 0 0 1 (by decide), ⟨[], List.not_mem_nil⟩⟩

/-- In one read it is connected. -/
theorem connectsRight_iff_ten : tenRequest.ConnectsRight (simpleEncode tenRequest.bytes) :=
  (@connectsRight_iff tenRequest (by decide) [simpleEncode tenRequest.bytes]
    (List.append_nil _)).mpr ⟨by decide, by decide⟩

/-- In two, of which the first has eight bytes, it is not. -/
theorem not_connectsRight : ¬∀ (r : Request) (pieces : List Bytes), r.bytes.length ≤ BUF_SIZE →
    [] ∉ pieces → pieces.flatten = simpleEncode r.bytes → r.ConnectsRight (pieces.headD []) := by
  intro h
  have hconnect := h tenRequest [[7, 4, 3, 83, 13, 3, 3, 4], [3]] (by decide) (by decide)
    (by decide) (List.replicate 65528 0) (by rw [List.length_replicate]; decide)
  have hclosed := @sock4aWorker_short [7, 4, 3, 83, 13, 3, 3, 4] (by decide)
    ([7, 4, 3, 83, 13, 3, 3, 4] ++ List.replicate 65528 0)
  cases hclosed.symm.trans hconnect

end MgCommonUtils.Sock4a
