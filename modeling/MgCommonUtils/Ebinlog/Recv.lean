import MgCommonUtils.Ebinlog.Packets
import MgCommonUtils.Lib.Buffer

/-!
# The receive buffer

`wrap_Recv` of `ebinlog/BinlogProcessor.cpp` reads a packet's header into the four bytes of `szHead`
and its body into the 16 MiB of `szBody`, which every call uses again. `recv` is the function with
its two arrays, where a call of `read` that may write behind an array stops. `recv_eq_wrapRecv` says
that it never does, whatever `read` returns, and that it returns what `wrapRecv` of `Packets.lean`
does: a length of three bytes is below the size of `szBody`. So successive calls return the bodies
of the packets on the stream (`recvs_packets`).
-/

namespace MgCommonUtils.Ebinlog

open MgCommonUtils.Lib

/-! ## The model -/

/-- `MAX_BUF_SIZE`, the size of `szBody`. -/
def maxBufSize : ℕ := 16777216

/-- `read(nSockFD,buf+off,n)`: how many bytes it returns, the array and the connection. It stops
when the `n` bytes are not all in the array. -/
def Connection.readInto (k : Connection) (buf : Bytes) (off n : ℕ) :
    Except Stop (Option ℕ × Bytes × Connection) :=
  if buf.length < off + n then .error .outOfBounds
  else
    match k.read n with
    | (none, k) => .ok (none, buf, k)
    | (some bytes, k) => .ok (some bytes.length, memcpy buf off bytes, k)

/-- The loop `while (total - got)`. The first component is what `wrap_Recv` returns in the loop, if
it does. -/
def recvLoop (err : ℤ) (total got : ℕ) (buf : Bytes) (k : Connection) :
    Except Stop (Option ℤ × Bytes × Connection) :=
  if total - got = 0 then .ok (none, buf, k)
  else
    match k.readInto buf got (total - got) with
    | .error e => .error e
    | .ok (none, buf, k) => .ok (some err, buf, k)
    | .ok (some 0, buf, k) => .ok (some 0, buf, k)
    | .ok (some (n + 1), buf, k) => recvLoop err total (got + (n + 1)) buf k
termination_by total - got

/-- `wrap_Recv` with its arrays: what it returns, `szBody` and the connection. -/
def recv (szBody : Bytes) (k : Connection) : Except Stop (PyItem × Bytes × Connection) := do
  let szHead : Bytes := [0, 0, 0, 0]
  let (nRecvHeadLen, szHead, k) ← k.readInto szHead 0 4
  match nRecvHeadLen with
  | none => return (.int (-2), szBody, k)
  | some nRecvHeadLen =>
    let (ret, szHead, k) ← recvLoop (-3) 4 nRecvHeadLen szHead k
    match ret with
    | some e => return (.int e, szBody, k)
    | none =>
      let nBodyLen := leNat (szHead.take 3)
      let (ret, szBody, k) ← recvLoop (-4) nBodyLen 0 szBody k
      match ret with
      | some e => return (.int e, szBody, k)
      | none => return (.str (szBody.take nBodyLen), szBody, k)

/-- The next `n` calls of `wrap_Recv`. -/
def recvs : ℕ → Bytes → Connection → Except Stop (List PyItem × Bytes × Connection)
  | 0, szBody, k => return ([], szBody, k)
  | n + 1, szBody, k => do
    let (x, szBody, k) ← recv szBody k
    let (xs, szBody, k) ← recvs n szBody k
    return (x :: xs, szBody, k)

/-! ## The loops -/

/-- `read` returns no more bytes than it is asked for. -/
theorem Connection.length_read {k k' : Connection} {n : ℕ} {bytes : Bytes}
    (h : k.read n = (some bytes, k')) : bytes.length ≤ n := by
  unfold Connection.read at h
  split at h
  case h_1 =>
    obtain ⟨hbytes, -⟩ := Prod.mk.inj h
    rw [← Option.some.inj hbytes, List.length_take]
    omega
  case h_2 => cases (Prod.mk.inj h).1
  case h_3 =>
    obtain ⟨hbytes, -⟩ := Prod.mk.inj h
    rw [← Option.some.inj hbytes, List.length_take]
    omega

/-- A `read` that fits, and returns an error. -/
theorem Connection.readInto_none {k k' : Connection} {buf : Bytes} {off n : ℕ}
    (hfit : off + n ≤ buf.length) (h : k.read n = (none, k')) :
    k.readInto buf off n = .ok (none, buf, k') := by
  rw [Connection.readInto, if_neg (not_lt.mpr hfit), h]

/-- A `read` that fits, and returns bytes. -/
theorem Connection.readInto_some {k k' : Connection} {buf : Bytes} {off n : ℕ} {bytes : Bytes}
    (hfit : off + n ≤ buf.length) (h : k.read n = (some bytes, k')) :
    k.readInto buf off n = .ok (some bytes.length, memcpy buf off bytes, k') := by
  rw [Connection.readInto, if_neg (not_lt.mpr hfit), h]

/-- The loop reads into the array what `readLoop` reads, and stays in it. -/
theorem recvLoop_eq (err : ℤ) {total got : ℕ} {buf : Bytes} (k : Connection)
    (hgot : got ≤ total) (hlen : total ≤ buf.length) : ∃ k',
      (∃ bytes, readLoop err (total - got) k = (.ok bytes, k') ∧ got + bytes.length = total ∧
        recvLoop err total got buf k = .ok (none, memcpy buf got bytes, k')) ∨
      ∃ e buf', readLoop err (total - got) k = (.error e, k') ∧ buf'.length = buf.length ∧
        recvLoop err total got buf k = .ok (some e, buf', k') := by
  -- By the bytes that are missing, of which each `read` brings at least one.
  induction hneed : total - got using Nat.strong_induction_on generalizing got buf k with
  | _ need ih =>
    subst hneed
    rw [recvLoop, readLoop]
    by_cases hzero : total - got = 0
    · rw [if_pos hzero, if_pos hzero]
      refine ⟨k, .inl ⟨[], rfl, ?_, ?_⟩⟩
      · rw [List.length_nil]
        omega
      · rw [memcpy, List.append_nil, List.length_nil, Nat.add_zero, List.take_append_drop]
    rw [if_neg hzero, if_neg hzero]
    have hfit : got + (total - got) ≤ buf.length := by omega
    obtain ⟨result, k₁, hread⟩ : ∃ result k₁, k.read (total - got) = (result, k₁) :=
      ⟨_, _, rfl⟩
    rw [hread]
    cases result with
    | none =>
      rw [Connection.readInto_none hfit hread]
      exact ⟨k₁, .inr ⟨err, buf, rfl, rfl, rfl⟩⟩
    | some bytes =>
      rw [Connection.readInto_some hfit hread]
      have hle := Connection.length_read hread
      cases bytes with
      | nil =>
        refine ⟨k₁, .inr ⟨0, memcpy buf got [], rfl, length_memcpy ?_, rfl⟩⟩
        rw [List.length_nil]
        omega
      | cons b bytes =>
        -- The loop goes on behind the bytes that have come.
        rw [List.length_cons] at hle
        have hnext : total - got - (bytes.length + 1) = total - (got + (bytes.length + 1)) := by
          omega
        have hbuf : (memcpy buf got (b :: bytes)).length = buf.length :=
          length_memcpy (by rw [List.length_cons]; omega)
        obtain ⟨k', h⟩ := ih (total - (got + (bytes.length + 1))) (by omega) k₁
          (show got + (bytes.length + 1) ≤ total by omega) (hbuf.symm ▸ hlen) rfl
        dsimp only [List.length_cons]
        rw [hnext]
        refine ⟨k', ?_⟩
        rcases h with ⟨rest, hloop, hsum, heq⟩ | ⟨e, buf', hloop, hlen', heq⟩
        · refine .inl ⟨b :: bytes ++ rest, by rw [hloop], ?_, ?_⟩
          · rw [List.length_append, List.length_cons]
            omega
          · rw [heq, ← memcpy_memcpy (by rw [List.length_cons]; omega), List.length_cons]
        · exact .inr ⟨e, buf', by rw [hloop], hlen'.trans hbuf, heq⟩

/-! ## The calls -/

/-- The length of a body fits `szBody`. -/
theorem nBodyLen_lt (szHead : Bytes) : leNat (szHead.take 3) < maxBufSize := by
  have hlen : (szHead.take 3).length ≤ 3 := by
    rw [List.length_take]
    omega
  calc leNat (szHead.take 3)
      < 256 ^ (szHead.take 3).length := leNat_lt _
    _ ≤ 256 ^ 3 := Nat.pow_le_pow_right (by norm_num) hlen
    _ = maxBufSize := rfl

/-- `wrap_Recv` does not leave its arrays, whatever `read` returns, and returns what `wrapRecv`
does. -/
theorem recv_eq_wrapRecv {szBody : Bytes} (hbody : szBody.length = maxBufSize) (k : Connection) :
    ∃ szBody', szBody'.length = maxBufSize ∧
      recv szBody k = .ok ((wrapRecv k).1, szBody', (wrapRecv k).2) := by
  unfold recv wrapRecv
  obtain ⟨result, k₁, hread⟩ : ∃ result k₁, k.read 4 = (result, k₁) := ⟨_, _, rfl⟩
  have hfit : 0 + 4 ≤ ([0, 0, 0, 0] : Bytes).length := by decide
  dsimp only
  rw [hread]
  cases result with
  | none =>
    rw [Connection.readInto_none hfit hread]
    exact ⟨szBody, hbody, rfl⟩
  | some bytes =>
    rw [Connection.readInto_some hfit hread]
    have hle := Connection.length_read hread
    have hhead : (memcpy [0, 0, 0, 0] 0 bytes).length = 4 := length_memcpy (by simpa using hle)
    obtain ⟨k₂, h⟩ := @recvLoop_eq (-3) 4 _ (memcpy [0, 0, 0, 0] 0 bytes) k₁ hle hhead.ge
    simp only [bind, Except.bind]
    rcases h with ⟨more, hloop, hsum, heq⟩ | ⟨e, buf', hloop, -, heq⟩
    · rw [hloop, heq]
      have hszHead : memcpy (memcpy [0, 0, 0, 0] 0 bytes) bytes.length more = bytes ++ more :=
        memcpy_memcpy_full hsum
      dsimp only
      rw [hszHead]
      have hlt := nBodyLen_lt (bytes ++ more)
      obtain ⟨k₃, h⟩ := @recvLoop_eq (-4) _ 0 szBody k₂ (Nat.zero_le _)
        (hlt.le.trans hbody.ge)
      rw [Nat.sub_zero] at h
      rcases h with ⟨body, hloop, hsum, heq⟩ | ⟨e, buf', hloop, hlen, heq⟩
      · rw [hloop, heq]
        refine ⟨memcpy szBody 0 body, (length_memcpy (by omega)).trans hbody, ?_⟩
        have htake := take_memcpy [] szBody body
        rw [List.nil_append, List.length_nil, List.nil_append, hsum] at htake
        dsimp only
        rw [htake]
        rfl
      · rw [hloop, heq]
        exact ⟨buf', hlen.trans hbody, rfl⟩
    · rw [hloop, heq]
      exact ⟨szBody, hbody, rfl⟩

/-- Successive calls of `wrap_Recv` return the bodies of the packets on the stream, in their order,
whatever `read` returns at a time, and after each of them the stream is at the next packet. None of
them leaves its arrays. -/
theorem recvs_packets {szBody : Bytes} (hbody : szBody.length = maxBufSize)
    (ps : List (UInt8 × Bytes)) (hps : ∀ p ∈ ps, p.2.length < 2^24) (rest : Bytes)
    (k : Connection) (hk : k.Alive)
    (hs : k.stream = (ps.flatMap fun p => packet p.1 p.2) ++ rest) (n : ℕ) (hn : n ≤ ps.length) :
    ∃ szBody' k', recvs n szBody k = .ok ((ps.take n).map fun p => .str p.2, szBody', k') ∧
      k'.stream = ((ps.drop n).flatMap fun p => packet p.1 p.2) ++ rest := by
  induction n generalizing szBody k ps with
  | zero => exact ⟨szBody, k, rfl, hs⟩
  | succ n ih =>
    obtain ⟨p, ps, rfl⟩ := List.exists_cons_of_length_pos (Nat.zero_lt_of_lt hn)
    rw [List.flatMap_cons, List.append_assoc] at hs
    obtain ⟨k₁, hrecv, hk₁, hlive⟩ := wrapRecv_packet hk hs (hps p List.mem_cons_self)
    obtain ⟨szBody₁, hlen, heq⟩ := recv_eq_wrapRecv hbody k
    obtain ⟨szBody', k', hrest, hk'⟩ := ih hlen ps (fun q hq => hps q (List.mem_cons_of_mem _ hq))
      k₁ hlive hk₁ (Nat.le_of_succ_le_succ hn)
    refine ⟨szBody', k', ?_, hk'⟩
    rw [recvs, heq, hrecv]
    simp only [bind, Except.bind]
    rw [hrest]
    rfl

/-- Two packets, the second of them empty, that come in pieces of one to three bytes. -/
theorem recvs_packets_two : ∃ szBody' k',
    recvs 2 (List.replicate maxBufSize 0)
        ⟨packet 0 [7, 8, 9] ++ packet 1 [], [some 1, some 3, some 2, some 1, some 1, some 2]⟩ =
      .ok ([.str [7, 8, 9], .str []], szBody', k') ∧ k'.stream = [] := by
  refine recvs_packets List.length_replicate [(0, [7, 8, 9]), (1, [])] (by decide) [] _ ?_ rfl 2
    (by decide)
  intro r hr
  simp only [List.mem_cons, List.not_mem_nil, or_false] at hr
  rcases hr with rfl | rfl | rfl | rfl | rfl | rfl
  all_goals exact ⟨_, rfl, by decide⟩

end MgCommonUtils.Ebinlog
