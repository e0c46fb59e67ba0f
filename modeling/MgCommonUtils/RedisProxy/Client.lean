import MgCommonUtils.EventLoop
import MgCommonUtils.RedisProxy.Request

/-!
# One client of the proxy

The client record of `redis-proxy/redis.h` and what the main thread's two handlers do to it: a
read (`readQueryFromClient` with `processInputBuffer`) and a write (`sendReplyToClient` with
`resetClient`) of `redis-proxy/redis.c`. What a handler does beyond the record, to the event loop,
the queue and the heap, is its answer (`ReadAction`, `WriteAction`), which the server carries out.
The validator that the extension supplies is a parameter.

The read buffer grows by `realloc(c->rbuf, c->rlen + READ_BUF_LEN)`, and the sum is an `int`.
`readAll_eq` says what a whole sequence of reads of one request does: it queues the client once,
at the last read, exactly when no read starts so late that this sum overflows.
-/

namespace MgCommonUtils.RedisProxy

open MgCommonUtils.Lib MgCommonUtils.EventLoop

/-- `READ_BUF_LEN` of `redis.h`. -/
def READ_BUF_LEN : ℕ := 1024

/-- `WRITE_BUF_LEN` of `redis.h`. -/
def WRITE_BUF_LEN : ℕ := 1024

/-- `struct RedisClient`, with `rlen` and `wlen` as the lengths of the two buffers. -/
structure RedisClient where
  /-- The connection's file descriptor. -/
  fd : ℕ
  /-- The request bytes read so far. -/
  rbuf : Bytes := []
  /-- The reply. -/
  wbuf : Bytes := []
  /-- The number of reply bytes written. -/
  wpos : ℕ := 0
  deriving DecidableEq, Repr

/-- The validator of the extension, `extProcessRequestBuffer`. -/
abbrev Validator := Bytes → Except Abort ℤ

/-- The size `len + add` given to `realloc`, an `int`. On overflow it is negative, which as a
`size_t` is more than `realloc` grants, so the caller ends the process. -/
def reallocSize (len add : ℕ) : Except Abort ℕ :=
  if len + add < 2^31 then .ok (len + add) else .error .intOverflow

/-- A size in the range of `int`. -/
theorem reallocSize_ok {len add : ℕ} (h : len + add < 2^31) :
    reallocSize len add = .ok (len + add) := if_pos h

/-- A size that overflows. -/
theorem reallocSize_overflow {len add : ℕ} (h : ¬ len + add < 2^31) :
    reallocSize len add = .error .intOverflow := if_neg h

/-- What the handler of a readable client does with it. -/
inductive ReadAction where
  /-- Nothing: the client stays registered for reading. -/
  | wait
  /-- `aeDeleteFileEvent` for reading, then `queueIOJob`. -/
  | queue
  /-- `freeClient`. -/
  | free
  deriving DecidableEq, Repr

/-- `processInputBuffer`. -/
def processInputBuffer (ext : Validator) (c : RedisClient) : Except Abort ReadAction := do
  let v ← ext c.rbuf
  if v = -1 then return .free
  if v = -2 then return .free
  if v = 0 then return .wait
  if v = 1 then return .queue
  return .wait

/-- `readQueryFromClient`. -/
def readQueryFromClient (ext : Validator) (c : RedisClient) (r : ReadResult) :
    Except Abort (RedisClient × ReadAction) := do
  let _ ← reallocSize c.rbuf.length READ_BUF_LEN
  match r with
  | .error => return (c, .free)
  | .eof => return (c, .free)
  | .eagain => return (c, .wait)
  | .data bytes =>
    let c := { c with rbuf := c.rbuf ++ bytes }
    return (c, ← processInputBuffer ext c)

/-- What the handler of a writable client does with it. -/
inductive WriteAction where
  /-- Nothing: the client stays registered for writing. -/
  | wait
  /-- `resetClient`: the client is registered for reading again. -/
  | reset
  /-- `freeClient`. -/
  | free
  deriving DecidableEq, Repr

/-- The record part of `resetClient`. -/
def resetClient (c : RedisClient) : RedisClient := { c with rbuf := [], wbuf := [], wpos := 0 }

/-- `sendReplyToClient`. -/
def sendReplyToClient (c : RedisClient) (r : WriteResult) : RedisClient × WriteAction :=
  match r with
  | .error => (c, .free)
  | .eagain => if c.wpos = c.wbuf.length then (resetClient c, .reset) else (c, .wait)
  | .wrote n =>
    let c := { c with wpos := c.wpos + n }
    if c.wpos = c.wbuf.length then (resetClient c, .reset) else (c, .wait)

/-- A client whose request is not full waits. -/
theorem processInputBuffer_zero {ext : Validator} {c : RedisClient} (h : ext c.rbuf = .ok 0) :
    processInputBuffer ext c = .ok .wait := by
  simp [processInputBuffer, h, bind, Except.bind, pure, Except.pure]

/-- A client whose request is full is queued. -/
theorem processInputBuffer_one {ext : Validator} {c : RedisClient} (h : ext c.rbuf = .ok 1) :
    processInputBuffer ext c = .ok .queue := by
  simp [processInputBuffer, h, bind, Except.bind, pure, Except.pure]

/-- A read of data appends it and validates the buffer. -/
theorem readQueryFromClient_data {ext : Validator} {c : RedisClient} {bytes : Bytes}
    {a : ReadAction} (hgrow : c.rbuf.length + READ_BUF_LEN < 2^31)
    (h : processInputBuffer ext { c with rbuf := c.rbuf ++ bytes } = .ok a) :
    readQueryFromClient ext c (.data bytes) = .ok ({ c with rbuf := c.rbuf ++ bytes }, a) := by
  simp only [readQueryFromClient, reallocSize_ok hgrow, h, bind, Except.bind, pure, Except.pure]

/-- No read is made when the size of the buffer overflows. -/
theorem readQueryFromClient_overflow {ext : Validator} {c : RedisClient} {r : ReadResult}
    (hgrow : ¬ c.rbuf.length + READ_BUF_LEN < 2^31) :
    readQueryFromClient ext c r = .error .intOverflow := by
  simp only [readQueryFromClient, reallocSize_overflow hgrow, bind, Except.bind]

/-- A read keeps the client's descriptor. -/
theorem readQueryFromClient_fd {ext : Validator} {c c' : RedisClient} {r : ReadResult}
    {a : ReadAction} (h : readQueryFromClient ext c r = .ok (c', a)) : c'.fd = c.fd := by
  unfold readQueryFromClient reallocSize at h
  split_ifs at h
  · cases r with
    | data bytes =>
      simp only [bind, Except.bind, pure, Except.pure] at h
      split at h
      · cases h
      · injection h with h; rw [← (Prod.mk.inj h).1]
    | _ => injection h with h; rw [← (Prod.mk.inj h).1]
  · cases h

/-- A write keeps the client's descriptor. -/
theorem sendReplyToClient_fd (c : RedisClient) (r : WriteResult) :
    (sendReplyToClient c r).1.fd = c.fd := by
  unfold sendReplyToClient resetClient
  cases r <;> simp only <;> split_ifs <;> rfl

/-! ## A request in pieces -/

/-- The reads of a client that gets the pieces one after the other, as long as it stays registered
for reading: what each of them does. -/
def readAll (ext : Validator) (c : RedisClient) : List Bytes → Except Abort (List ReadAction)
  | [] => .ok []
  | bytes :: rest => do
    let (c, a) ← readQueryFromClient ext c (.data bytes)
    if a = .wait then return a :: (← readAll ext c rest)
    return [a]

/-- The pieces of a byte string that reads of at most `n` bytes return. -/
structure IsSplit (n : ℕ) (pieces : List Bytes) (s : Bytes) : Prop where
  /-- The pieces make up the byte string. -/
  flatten : pieces.flatten = s
  /-- Each is the result of one read. -/
  valid : ∀ p ∈ pieces, ReadResult.Valid n (.data p)

/-- The number of bytes read before each piece, after `n` bytes. -/
def readStarts (n : ℕ) : List Bytes → List ℕ
  | [] => []
  | p :: rest => n :: readStarts (n + p.length) rest

/-- The reads of the pieces queue a client whose buffer is empty exactly once, when the last
piece is read. -/
def QueuedOnLastRead (ext : Validator) (pieces : List Bytes) : Prop :=
  ∀ c : RedisClient, c.rbuf = [] → readAll ext c pieces =
    .ok (List.replicate (pieces.length - 1) .wait ++ [.queue])

/-- Reading a request in pieces, for a validator that answers 1 on the request and 0 on its
proper cuts: every piece but the last waits and the last queues the client, unless a read starts
so late that the new size of the buffer overflows. -/
theorem readAll_eq {ext : Validator} {s : Bytes}
    (hext : ∀ q, q <+: s → q ≠ [] → ext q = .ok (if q = s then 1 else 0))
    (c : RedisClient) (pieces : List Bytes) (hne : pieces ≠ [])
    (hs : c.rbuf ++ pieces.flatten = s) (hp : ∀ p ∈ pieces, p ≠ []) :
    readAll ext c pieces =
      if ∀ n ∈ readStarts c.rbuf.length pieces, n + READ_BUF_LEN < 2^31 then
        .ok (List.replicate (pieces.length - 1) .wait ++ [.queue])
      else .error .intOverflow := by
  induction pieces generalizing c with
  | nil => exact absurd rfl hne
  | cons p rest ih =>
    by_cases hgrow : c.rbuf.length + READ_BUF_LEN < 2^31
    case neg =>
      rw [if_neg (fun h => hgrow (h _ (by simp [readStarts])))]
      simp only [readAll, readQueryFromClient_overflow hgrow, bind, Except.bind]
    have hpne : p ≠ [] := hp p (by simp)
    have hcut : c.rbuf ++ p <+: s := ⟨rest.flatten, by simpa using hs⟩
    have hv := hext _ hcut (by simp [hpne])
    cases rest with
    | nil =>
      -- The last piece completes the request.
      have hall : c.rbuf ++ p = s := by simpa using hs
      rw [if_pos hall] at hv
      have hread := readQueryFromClient_data hgrow
        (processInputBuffer_one (c := { c with rbuf := c.rbuf ++ p }) hv)
      rw [if_pos (by simpa [readStarts] using hgrow)]
      simp [readAll, hread, bind, Except.bind, pure, Except.pure]
    | cons p' rest =>
      have hproper : c.rbuf ++ p ≠ s := by
        rw [← hs]
        simp [hp p' (by simp)]
      rw [if_neg hproper] at hv
      have hread := readQueryFromClient_data hgrow
        (processInputBuffer_zero (c := { c with rbuf := c.rbuf ++ p }) hv)
      have hrec := ih { c with rbuf := c.rbuf ++ p } (by simp) (by simpa using hs)
        (fun x hx => hp x (by simp [hx]))
      rw [List.length_append] at hrec
      have hiff : (∀ n ∈ readStarts c.rbuf.length (p :: p' :: rest), n + READ_BUF_LEN < 2^31) ↔
          ∀ n ∈ readStarts (c.rbuf.length + p.length) (p' :: rest), n + READ_BUF_LEN < 2^31 := by
        rw [readStarts, List.forall_mem_cons]
        exact and_iff_right hgrow
      simp only [hiff, readAll, hread, bind, Except.bind, pure, Except.pure, if_true] at hrec ⊢
      rw [hrec]
      split_ifs
      · simp [List.replicate_succ]
      · rfl

/-- A client is queued on its last read exactly when every read starts early enough. -/
theorem queuedOnLastRead_iff {ext : Validator} {s : Bytes}
    (hext : ∀ q, q <+: s → q ≠ [] → ext q = .ok (if q = s then 1 else 0)) (hsne : s ≠ [])
    {pieces : List Bytes} (hp : IsSplit READ_BUF_LEN pieces s) :
    QueuedOnLastRead ext pieces ↔ ∀ n ∈ readStarts 0 pieces, n + READ_BUF_LEN < 2^31 := by
  have hne : pieces ≠ [] := by
    rintro rfl
    exact hsne hp.flatten.symm
  have h : ∀ c : RedisClient, c.rbuf = [] → _ := fun c hc =>
    readAll_eq hext c pieces hne (by simpa [hc] using hp.flatten) (fun p hm => (hp.valid p hm).1)
  constructor
  · intro hq
    by_contra hn
    have h0 := h { fd := 0 } rfl
    rw [if_neg (by simpa using hn), hq { fd := 0 } rfl] at h0
    cases h0
  · intro hn c hc
    rw [h c hc, if_pos (by simpa [hc] using hn)]

/-- The bytes before a piece and the piece itself are part of the whole. -/
theorem add_le_of_mem_readStarts {n m : ℕ} {pieces : List Bytes} (hm : m ∈ readStarts n pieces)
    (hp : ∀ p ∈ pieces, p ≠ []) : m + 1 ≤ n + pieces.flatten.length := by
  induction pieces generalizing n with
  | nil => simp [readStarts] at hm
  | cons p rest ih =>
    have hpos := List.length_pos_iff.mpr (hp p (by simp))
    simp only [List.flatten_cons, List.length_append]
    rcases List.mem_cons.mp hm with rfl | hm
    · omega
    · have := ih hm (fun x hx => hp x (by simp [hx]))
      omega

/-- Reads start where a number of pieces ends. -/
theorem mem_readStarts {n m : ℕ} {pieces : List Bytes} :
    m ∈ readStarts n pieces ↔ ∃ k < pieces.length, m = n + (pieces.take k).flatten.length := by
  induction pieces generalizing n with
  | nil => simp [readStarts]
  | cons p rest ih =>
    rw [readStarts, List.mem_cons, ih]
    constructor
    · rintro (rfl | ⟨k, hk, rfl⟩)
      · exact ⟨0, by simp, by simp⟩
      · exact ⟨k + 1, by simpa using hk, by simp [add_assoc]⟩
    · rintro ⟨k, hk, rfl⟩
      cases k with
      | zero => exact .inl (by simp)
      | succ k => exact .inr ⟨k, by simpa using hk, by simp [add_assoc]⟩

/-- Reading byte by byte starts a read at every offset. -/
theorem readStarts_singletons (n : ℕ) (s : Bytes) :
    readStarts n (s.map fun b => [b]) = List.range' n s.length := by
  induction s generalizing n with
  | nil => simp [readStarts]
  | cons b s ih => simp [readStarts, ih, List.range'_succ]

/-- The pieces of a byte string that is read byte by byte. -/
theorem isSplit_singletons {n : ℕ} (hn : 1 ≤ n) (s : Bytes) :
    IsSplit n (s.map fun b => [b]) s where
  flatten := by
    induction s with
    | nil => rfl
    | cons b s ih => rw [List.map_cons, List.flatten_cons, ih, List.singleton_append]
  valid p hp := by
    obtain ⟨b, -, rfl⟩ := List.mem_map.mp hp
    exact ⟨List.cons_ne_nil _ _, hn⟩

/-- A client that sends a very long request byte by byte is not queued: a read starts where the
size of the buffer overflows. -/
theorem not_queuedOnLastRead_singletons {ext : Validator} {s : Bytes}
    (hext : ∀ q, q <+: s → q ≠ [] → ext q = .ok (if q = s then 1 else 0))
    (hs : 2^31 - READ_BUF_LEN < s.length) : ¬ QueuedOnLastRead ext (s.map fun b => [b]) := by
  have hne : s ≠ [] := List.length_pos_iff.mp (by omega)
  rw [queuedOnLastRead_iff hext hne (isSplit_singletons (by decide) s), readStarts_singletons]
  intro h
  have hlate := h (2^31 - READ_BUF_LEN) (List.mem_range'_1.mpr ⟨by omega, by omega⟩)
  rw [Nat.sub_add_cancel (by decide)] at hlate
  omega

/-- A request that leaves room for one more read buffer is queued on its last read, however it is
split. -/
theorem queuedOnLastRead_of_length_le {ext : Validator} {s : Bytes}
    (hext : ∀ q, q <+: s → q ≠ [] → ext q = .ok (if q = s then 1 else 0)) (hsne : s ≠ [])
    (hs : s.length ≤ 2^31 - READ_BUF_LEN) {pieces : List Bytes}
    (hp : IsSplit READ_BUF_LEN pieces s) : QueuedOnLastRead ext pieces := by
  refine (queuedOnLastRead_iff hext hsne hp).mpr fun n hn => ?_
  have h := add_le_of_mem_readStarts hn fun p hm => (hp.valid p hm).1
  rw [hp.flatten] at h
  have : READ_BUF_LEN ≤ 2^31 := by decide
  omega

/-! ## The request validator's framing -/

/-- The request validator on a cut of a request of 1 to 1024 arguments that fit. -/
theorem processRequestBuffer_cut {args : List Bytes} (h₁ : 1 ≤ args.length)
    (h₂ : args.length ≤ 1024) (h₃ : ∀ a ∈ args, a.length ≤ 2^31 - 3) {q : Bytes}
    (hq : q <+: encodeRequest args) :
    processRequestBuffer q = .ok (if q = encodeRequest args then 1 else 0) := by
  refine processRequestBuffer_prefix h₁ h₂ (fun a ha => ?_) hq
  have := h₃ a ha
  omega

/-- The multi-bulk encoding of 1 to 1024 arguments: the validator answers 1 on it and 0 on every
proper cut of one byte or more, without leaving its defined behaviour. A client that sends it in
pieces is queued exactly once, at the last piece, if and only if no read starts at offset
`2^31 - 1024` or later, where the `int` size of the read buffer overflows. -/
theorem request_queued_once_iff (args : List Bytes) (h₁ : 1 ≤ args.length)
    (h₂ : args.length ≤ 1024) (h₃ : ∀ a ∈ args, a.length ≤ 2^31 - 3) (pieces : List Bytes)
    (hp : IsSplit READ_BUF_LEN pieces (encodeRequest args)) :
    processRequestBuffer (encodeRequest args) = .ok 1 ∧
      (∀ q, q <+: encodeRequest args → q ≠ [] → q ≠ encodeRequest args →
        processRequestBuffer q = .ok 0) ∧
      (QueuedOnLastRead processRequestBuffer pieces ↔
        ∀ n ∈ readStarts 0 pieces, n + READ_BUF_LEN < 2^31) := by
  refine ⟨?_, fun q hq _ hne => ?_, ?_⟩
  · simpa using processRequestBuffer_cut h₁ h₂ h₃ List.prefix_rfl
  · simpa [hne] using processRequestBuffer_cut h₁ h₂ h₃ hq
  · exact queuedOnLastRead_iff (fun q hq _ => processRequestBuffer_cut h₁ h₂ h₃ hq)
      (by simp [encodeRequest, encodeMultiBulk]) hp

/-- `PING` in two pieces, the first of which ends inside the length of its argument. -/
theorem request_queued_once_iff_ping :
    processRequestBuffer (encodeRequest [[80, 73, 78, 71]]) = .ok 1 ∧
      QueuedOnLastRead processRequestBuffer
        [[42, 49, 13, 10, 36], [52, 13, 10, 80, 73, 78, 71, 13, 10]] := by
  have h := request_queued_once_iff [[80, 73, 78, 71]] (by decide) (by decide) (by decide)
    [[42, 49, 13, 10, 36], [52, 13, 10, 80, 73, 78, 71, 13, 10]]
    ⟨by decide, by decide⟩
  exact ⟨h.1, h.2.2.mpr (by decide)⟩

/-- The length of the request of one argument. -/
theorem length_encodeRequest_singleton (a : Bytes) :
    (encodeRequest [a]).length = (decimal a.length).length + a.length + 9 := by
  have h1 : (decimal 1).length = 1 := by decide
  simp only [encodeRequest, encodeMultiBulk, encodeBulk, List.map_cons, List.map_nil,
    List.flatMap_cons, List.flatMap_nil, List.append_nil, List.length_cons, List.length_append,
    List.length_nil, length_crlf, h1]
  omega

/-- A request of one argument with a total length of `2^31 - 1` is not queued when it arrives
byte by byte. -/
theorem long_request_not_queued (a : Bytes) (ha : a.length = 2147483628) :
    (encodeRequest [a]).length = 2147483647 ∧
      ¬ QueuedOnLastRead processRequestBuffer ((encodeRequest [a]).map fun b => [b]) := by
  have hd : (decimal a.length).length = 10 := by
    rw [ha]
    exact le_antisymm (length_decimal_le (by norm_num) (by norm_num))
      (lt_length_decimal (by norm_num) (by norm_num))
  have hlen : (encodeRequest [a]).length = 2147483647 := by
    rw [length_encodeRequest_singleton, hd, ha]
  refine ⟨hlen, not_queuedOnLastRead_singletons (fun q hq _ => processRequestBuffer_cut (by simp)
    (by simp) (fun b hb => ?_) hq) ?_⟩
  · rw [List.mem_singleton.mp hb, ha]
    norm_num
  · rw [hlen]
    norm_num [READ_BUF_LEN]

/-- There is a request within the bounds and a way of splitting it into reads such that the
client is not queued on the last read. -/
theorem request_not_queued : ∃ (args : List Bytes) (pieces : List Bytes),
    args = [List.replicate 2147483628 65] ∧
      pieces = (encodeRequest args).map (fun b => [b]) ∧ 1 ≤ args.length ∧ args.length ≤ 1024 ∧
      (∀ a ∈ args, a.length ≤ 2^31 - 3) ∧ (encodeRequest args).length < 2^31 ∧
      IsSplit READ_BUF_LEN pieces (encodeRequest args) ∧
      ¬ QueuedOnLastRead processRequestBuffer pieces := by
  obtain ⟨hlen, hnot⟩ := long_request_not_queued (List.replicate 2147483628 65)
    List.length_replicate
  refine ⟨_, _, rfl, rfl, ?_, ?_, fun a ha => ?_, ?_, isSplit_singletons (by decide) _, hnot⟩
  · exact le_refl 1
  · exact Nat.le_of_ble_eq_true rfl
  · rw [List.mem_singleton.mp ha, List.length_replicate]
    exact Nat.le_of_ble_eq_true rfl
  · rw [hlen]
    exact Nat.le_of_ble_eq_true rfl

end MgCommonUtils.RedisProxy
