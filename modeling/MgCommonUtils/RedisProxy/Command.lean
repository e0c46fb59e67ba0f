import MgCommonUtils.Lib.Transition
import MgCommonUtils.RedisProxy.Client
import MgCommonUtils.RedisProxy.Response

/-!
# The command procedure of a worker

`_redisCommandProc` of `redis-proxy/echo.c`, which a worker runs on a client's request: connect to
the upstream unless the worker still has a connection, write the request, and read until the
response validator answers. A connection that fails is closed, and a first failure is retried from
the label `again`.

The procedure is a step function of its local state (`Proc`) and of what the system calls of one
turn of a loop return (`Sys`). `stopsAtEnd_iff` says what the reading loop does with a reply that
arrives in pieces: it stops at the end of the reply and not before, exactly when no read starts
so late that the `int` size of the write buffer overflows.
-/

namespace MgCommonUtils.RedisProxy

open MgCommonUtils.Lib MgCommonUtils.EventLoop

/-- `CONN_ERR`, `"-ERR: Connection error\r\n"`. -/
def CONN_ERR : Bytes :=
  [45, 69, 82, 82, 58, 32, 67, 111, 110, 110, 101, 99, 116, 105, 111, 110, 32, 101, 114, 114, 111,
    114, 13, 10]

/-- Where the procedure is. -/
inductive Phase where
  /-- After `again`, with no connection: about to call `connectRedis`. -/
  | connecting
  /-- In the writing loop, with `nwrite` bytes written. -/
  | writing (nwrite : ℕ)
  /-- In the reading loop. -/
  | reading
  /-- Returned. -/
  | returned
  /-- The process has ended. -/
  | aborted (why : Abort)
  deriving DecidableEq, Repr

/-- The local state of the procedure, with the worker's connection. -/
structure Proc where
  /-- The client `c`. -/
  client : RedisClient
  /-- `*fd`, where none is `-1`. -/
  fd : Option ℕ
  /-- `ntry`. -/
  ntry : ℕ := 0
  /-- Where the procedure is. -/
  phase : Phase := .connecting
  deriving DecidableEq, Repr

/-- What the system calls of one turn return. -/
inductive Sys where
  /-- `connectRedis` returns a descriptor, or `-1`. -/
  | connect (fd : Option ℕ)
  /-- `poll` returns 0 or -1. -/
  | pollEnd
  /-- `poll` succeeds, `write` returns, and the clock is past the time-out or not. -/
  | write (r : WriteResult) (late : Bool)
  /-- `poll` succeeds in the reading loop, and the clock is past the time-out. -/
  | late
  /-- `poll` succeeds in the reading loop, the clock is in time, and `read` returns. -/
  | read (r : ReadResult)
  deriving DecidableEq, Repr

/-- `setClientError`. -/
def setClientError (c : RedisClient) : RedisClient := { c with wbuf := CONN_ERR }

/-- The label `again`, up to the next system call. -/
def again (p : Proc) : Proc :=
  { p with
    ntry := p.ntry + 1
    phase := match p.fd with
      | none => .connecting
      | some _ => .writing 0 }

/-- The call of the procedure. -/
def redisCommandProc (c : RedisClient) (fd : Option ℕ) : Proc := again { client := c, fd := fd }

/-- The exits with the error text: the connection is closed, if there is one. -/
def giveUp (p : Proc) : Proc :=
  { p with client := setClientError p.client, fd := none, phase := .returned }

/-- One turn of the writing loop after `poll`. -/
def writeTurn (p : Proc) (nwrite : ℕ) (r : WriteResult) (late : Bool) : Proc :=
  if late then giveUp p
  else
    match r with
    | .wrote rc =>
      if rc > 0 then
        if nwrite + rc = p.client.rbuf.length then { p with phase := .reading }
        else { p with phase := .writing (nwrite + rc) }
      else p
    | .eagain => p
    | .error => if p.ntry < 2 then again { p with fd := none } else giveUp p

/-- One turn of the reading loop after `poll` and the clock. -/
def readTurn (p : Proc) (r : ReadResult) : Proc :=
  match reallocSize p.client.wbuf.length WRITE_BUF_LEN with
  | .error _ => { p with phase := .aborted .exit }
  | .ok _ =>
    match r with
    | .eagain => p
    | .error | .eof =>
      if p.ntry < 2 then again { p with fd := none, client := { p.client with wbuf := [] } }
      else giveUp p
    | .data bytes =>
      let p := { p with client := { p.client with wbuf := p.client.wbuf ++ bytes } }
      match processResponseBuffer p.client.wbuf with
      | .error why => { p with phase := .aborted why }
      | .ok v =>
        if v = 1 then { p with phase := .returned }
        else if v = 0 then p
        else if v = -1 then giveUp p
        else p

/-- One turn of `_redisCommandProc`. -/
def procStep (p : Proc) (s : Sys) : Option Proc :=
  match p.phase, s with
  | .connecting, .connect none => some (giveUp p)
  | .connecting, .connect (some fd) => some { p with fd := some fd, phase := .writing 0 }
  | .writing _, .pollEnd => some (giveUp p)
  | .writing nwrite, .write r late => some (writeTurn p nwrite r late)
  | .reading, .pollEnd => some (giveUp p)
  | .reading, .late => some (giveUp p)
  | .reading, .read r => some (readTurn p r)
  | _, _ => none

/-- `nwrite`, in the writing loop. -/
def Proc.nwrite (p : Proc) : ℕ :=
  match p.phase with
  | .writing nwrite => nwrite
  | _ => 0

/-- What the system calls of a turn can return. -/
def Sys.Valid (p : Proc) : Sys → Prop
  | .write r _ => r.Valid (p.client.rbuf.length - p.nwrite)
  | .read r => r.Valid WRITE_BUF_LEN
  | _ => True

/-- Whether the system calls of a turn can return this can be computed. -/
instance (p : Proc) (s : Sys) : Decidable (s.Valid p) := by
  cases s <;> unfold Sys.Valid <;> infer_instance

/-- The turns of the procedure: everything that one turn can do. -/
inductive Turn (p : Proc) : Sys → Proc → Prop
  /-- A connection is made. -/
  | connect (fd : ℕ) (h : p.phase = .connecting) :
      Turn p (.connect (some fd)) { p with fd := some fd, phase := .writing 0 }
  /-- A part of the request is written, perhaps its last. -/
  | wrote (nwrite rc : ℕ) (h : p.phase = .writing nwrite) (hrc : 0 < rc) :
      Turn p (.write (.wrote rc) false)
        { p with
          phase := if nwrite + rc = p.client.rbuf.length then .reading
            else .writing (nwrite + rc) }
  /-- Nothing is written, and the loop goes on. -/
  | wroteNothing (nwrite : ℕ) (r : WriteResult) (h : p.phase = .writing nwrite)
      (hr : r = .eagain ∨ r = .wrote 0) : Turn p (.write r false) p
  /-- Nothing is read, and the loop goes on. -/
  | readNothing (h : p.phase = .reading) : Turn p (.read .eagain) p
  /-- The first attempt fails to write. -/
  | retryWrite (nwrite : ℕ) (h : p.phase = .writing nwrite) (htry : p.ntry < 2) :
      Turn p (.write .error false) (again { p with fd := none })
  /-- The first attempt fails to read. -/
  | retryRead (r : ReadResult) (h : p.phase = .reading) (hr : r = .eof ∨ r = .error)
      (htry : p.ntry < 2) :
      Turn p (.read r) (again { p with fd := none, client := { p.client with wbuf := [] } })
  /-- The procedure returns with the error text. -/
  | giveUp (s : Sys) (h : p.phase ≠ .returned) (hs : ∀ fd, s ≠ .connect (some fd)) :
      Turn p s (giveUp p)
  /-- The process ends. -/
  | abort (r : ReadResult) (wbuf : Bytes) (why : Abort) (h : p.phase = .reading) :
      Turn p (.read r) { p with client := { p.client with wbuf := wbuf }, phase := .aborted why }
  /-- A part of the reply is read, perhaps its last. -/
  | data (bytes : Bytes) (v : ℤ) (h : p.phase = .reading)
      (hv : processResponseBuffer (p.client.wbuf ++ bytes) = .ok v) :
      Turn p (.read (.data bytes))
        { p with
          client := { p.client with wbuf := p.client.wbuf ++ bytes }
          phase := if v = 1 then .returned else .reading }

/-- Every turn is one of these. -/
theorem turn_of_procStep {p p' : Proc} {s : Sys} (h : procStep p s = some p') : Turn p s p' := by
  unfold procStep at h
  split at h
  case h_1 hph => cases h; exact .giveUp _ (by simp [hph]) (by simp)
  case h_2 hph => cases h; exact .connect _ hph
  case h_3 hph => cases h; exact .giveUp _ (by simp [hph]) (by simp)
  case h_4 nwrite r late hph =>
    obtain rfl := Option.some.inj h
    unfold writeTurn
    cases late with
    | true => exact .giveUp _ (by simp [hph]) (by simp)
    | false =>
      cases r with
      | wrote rc =>
        rcases Nat.eq_zero_or_pos rc with rfl | hrc
        · exact .wroteNothing nwrite _ hph (.inr rfl)
        · have hturn := Turn.wrote (p := p) nwrite rc hph hrc
          simp only [Bool.false_eq_true, if_false, gt_iff_lt, hrc, if_true]
          split_ifs at hturn ⊢ <;> exact hturn
      | eagain => exact .wroteNothing nwrite _ hph (.inl rfl)
      | error =>
        simp only [Bool.false_eq_true, if_false]
        split_ifs with htry
        · exact .retryWrite nwrite hph htry
        · exact .giveUp _ (by simp [hph]) (by simp)
  case h_5 hph => cases h; exact .giveUp _ (by simp [hph]) (by simp)
  case h_6 hph => cases h; exact .giveUp _ (by simp [hph]) (by simp)
  case h_7 r hph =>
    obtain rfl := Option.some.inj h
    have hact : p.phase ≠ .returned := by simp [hph]
    unfold readTurn
    split
    · exact .abort r p.client.wbuf _ hph
    split
    · exact .readNothing hph
    · split_ifs with htry
      · exact .retryRead _ hph (.inr rfl) htry
      · exact .giveUp _ hact (by simp)
    · split_ifs with htry
      · exact .retryRead _ hph (.inl rfl) htry
      · exact .giveUp _ hact (by simp)
    · rename_i bytes
      dsimp only
      split
      · exact .abort _ _ _ hph
      · rename_i v hv
        have hturn := Turn.data (p := p) bytes v hph hv
        split_ifs at hturn ⊢ with h1 h0 hm
        · exact hturn
        · simpa [hph] using hturn
        · exact .giveUp _ hact (by simp)
        · simpa [hph] using hturn
  case h_8 => cases h

/-! ## The reading loop -/

/-- A read of data that the validator accepts as far as it goes. -/
theorem readTurn_data {p : Proc} {bytes : Bytes} {v : ℤ}
    (hgrow : p.client.wbuf.length + WRITE_BUF_LEN < 2^31)
    (hv : processResponseBuffer (p.client.wbuf ++ bytes) = .ok v) (h01 : v = 0 ∨ v = 1) :
    readTurn p (.data bytes) =
      { p with
        client := { p.client with wbuf := p.client.wbuf ++ bytes }
        phase := if v = 1 then .returned else p.phase } := by
  unfold readTurn
  rw [reallocSize_ok hgrow]
  simp only [hv]
  rcases h01 with rfl | rfl <;> simp

/-- No read is made when the size of the buffer overflows. -/
theorem readTurn_overflow {p : Proc} {r : ReadResult}
    (hgrow : ¬ p.client.wbuf.length + WRITE_BUF_LEN < 2^31) :
    readTurn p r = { p with phase := .aborted .exit } := by
  unfold readTurn
  rw [reallocSize_overflow hgrow]

/-- The turn of the reading loop in which the size of the buffer overflows ends the process. -/
theorem procStep_overflow {p : Proc} {r : ReadResult} (hph : p.phase = .reading)
    (hgrow : ¬ p.client.wbuf.length + WRITE_BUF_LEN < 2^31) :
    procStep p (.read r) = some { p with phase := .aborted .exit } := by
  simp only [procStep, hph, readTurn_overflow hgrow]

/-- The reading loop on the pieces, as long as it goes on. -/
def readPieces (p : Proc) : List Bytes → Option Proc
  | [] => some p
  | bytes :: rest => (procStep p (.read (.data bytes))).bind fun p => readPieces p rest

/-- The reading loop that starts with no reply takes the pieces one after the other, still reading
before the last of them and returned after it with all of them as the reply. -/
def StopsAtEnd (pieces : List Bytes) : Prop :=
  ∀ p : Proc, p.phase = .reading → p.client.wbuf = [] → ∀ k ≤ pieces.length,
    readPieces p (pieces.take k) = some
      { p with
        client := { p.client with wbuf := (pieces.take k).flatten }
        phase := if k = pieces.length then .returned else .reading }

/-- A read of a cut of a reply, for a reply that the validator supports. -/
theorem readTurn_cut {p : Proc} {bytes s : Bytes} (hph : p.phase = .reading)
    (hgrow : p.client.wbuf.length + WRITE_BUF_LEN < 2^31)
    (hv : processResponseBuffer (p.client.wbuf ++ bytes) =
      .ok (if p.client.wbuf ++ bytes = s then 1 else 0)) :
    procStep p (.read (.data bytes)) = some
      { p with
        client := { p.client with wbuf := p.client.wbuf ++ bytes }
        phase := if p.client.wbuf ++ bytes = s then .returned else .reading } := by
  have hturn := readTurn_data hgrow hv (by split_ifs <;> simp)
  simp only [procStep, hph, hturn]
  split_ifs <;> simp_all

/-- The reading loop on the first pieces of a reply, before the rest `t` of it, where every read
starts early enough: it takes them all and returns when nothing is left. -/
theorem readPieces_cut {s : Bytes}
    (hv : ∀ q, q <+: s → q ≠ [] → processResponseBuffer q = .ok (if q = s then 1 else 0))
    (p : Proc) (hph : p.phase = .reading) (pieces : List Bytes) (hp : ∀ x ∈ pieces, x ≠ [])
    (t : Bytes) (hs : p.client.wbuf ++ pieces.flatten ++ t = s) (ht : pieces = [] → t ≠ [])
    (hgrow : ∀ n ∈ readStarts p.client.wbuf.length pieces, n + WRITE_BUF_LEN < 2^31) :
    readPieces p pieces = some
      { p with
        client := { p.client with wbuf := p.client.wbuf ++ pieces.flatten }
        phase := if t = [] then .returned else .reading } := by
  induction pieces generalizing p with
  | nil => simp [readPieces, ht, ← hph]
  | cons x rest ih =>
    have hx : x ≠ [] := hp x (by simp)
    have hcut : p.client.wbuf ++ x <+: s := ⟨rest.flatten ++ t, by simpa using hs⟩
    have hturn := readTurn_cut hph (hgrow _ (by simp [readStarts])) (hv _ hcut (by simp [hx]))
    rw [readPieces, hturn, Option.bind_some]
    by_cases hall : p.client.wbuf ++ x = s
    · -- The piece completes the reply, so it is the last one.
      have hrest : rest.flatten = [] ∧ t = [] := by
        rw [← hall] at hs
        simpa using hs
      have hnil : rest = [] := by
        by_contra hne
        obtain ⟨y, rest', rfl⟩ := List.exists_cons_of_ne_nil hne
        exact hp y (by simp) (by simpa using (List.append_eq_nil_iff.mp hrest.1).1)
      simp [hnil, hall, hrest.2, readPieces]
    · have hmore : rest = [] → t ≠ [] := by
        rintro rfl rfl
        exact hall (by simpa using hs)
      have hlen : (p.client.wbuf ++ x).length = p.client.wbuf.length + x.length :=
        List.length_append
      rw [if_neg hall, ih _ rfl (fun y hy => hp y (by simp [hy])) (by simpa using hs) hmore
        (fun n hn => hgrow n (by rw [hlen] at hn; simp [readStarts, hn]))]
      simp

/-- The reading loop over two lists of pieces. -/
theorem readPieces_append (p : Proc) (xs ys : List Bytes) :
    readPieces p (xs ++ ys) = (readPieces p xs).bind fun p => readPieces p ys := by
  induction xs generalizing p with
  | nil => rfl
  | cons x xs ih => simp [readPieces, ih, Option.bind_assoc]

/-- The reading loop stops at the end of a reply that arrives in pieces, and not before, exactly
when every read starts early enough. -/
theorem stopsAtEnd_iff {s : Bytes}
    (hv : ∀ q, q <+: s → q ≠ [] → processResponseBuffer q = .ok (if q = s then 1 else 0))
    (hs : s ≠ []) {pieces : List Bytes} (hp : IsSplit WRITE_BUF_LEN pieces s) :
    StopsAtEnd pieces ↔ ∀ n ∈ readStarts 0 pieces, n + WRITE_BUF_LEN < 2^31 := by
  have hne : ∀ x ∈ pieces, x ≠ [] := fun x hx => (hp.valid x hx).1
  constructor
  · intro hstop n hn
    obtain ⟨k, hk, rfl⟩ := mem_readStarts.mp hn
    by_contra hgrow
    rw [zero_add] at hgrow
    -- The loop that has read `k` pieces ends the process in its next turn.
    have h := hstop { client := { fd := 0 }, fd := none, phase := .reading } rfl rfl
    have h₁ := h (k + 1) hk
    rw [List.take_add_one, List.getElem?_eq_getElem hk, Option.toList_some, readPieces_append,
      h k hk.le, if_neg hk.ne, Option.bind_some, readPieces, procStep_overflow rfl hgrow] at h₁
    have hphase := congrArg Proc.phase (Option.some.inj h₁)
    simp only at hphase
    split_ifs at hphase
  · intro hgrow p hph hw k hk
    have hsplit := List.take_append_drop k pieces
    have hflat : (pieces.take k).flatten ++ (pieces.drop k).flatten = s := by
      rw [← List.flatten_append, hsplit, hp.flatten]
    have hdrop : (pieces.drop k).flatten = [] ↔ k = pieces.length := by
      constructor
      · intro h
        by_contra hlt
        have hmem := List.getElem_mem (show k < pieces.length by omega)
        rw [List.drop_eq_getElem_cons (by omega), List.flatten_cons] at h
        exact hne _ hmem (List.append_eq_nil_iff.mp h).1
      · rintro rfl
        simp
    have hcut := readPieces_cut hv p hph (pieces.take k)
      (fun x hx => hne x (List.mem_of_mem_take hx)) (pieces.drop k).flatten
      (by simpa [hw] using hflat) (fun h0 h1 => hs (by rw [← hflat, h0, h1]; rfl))
      (fun n hn => hgrow n ?_)
    · simpa only [hw, hdrop, List.nil_append] using hcut
    · rw [hw, List.length_nil] at hn
      obtain ⟨j, hj, rfl⟩ := mem_readStarts.mp hn
      rw [List.length_take] at hj
      exact mem_readStarts.mpr ⟨j, by omega, by rw [List.take_take, min_eq_left (by omega)]⟩

/-! ## The response validator's framing -/

/-- A reply of the supported kinds: the validator answers 1 on it and 0 on every proper cut of one
byte or more. The reading loop stops at the end of it, and not before, if and only if no read
starts at offset `2^31 - 1024` or later, where the `int` size of the write buffer overflows. -/
theorem reply_read_to_end_iff (r : Reply) (hr : r.Valid) (hs : r.Supported) (pieces : List Bytes)
    (hp : IsSplit WRITE_BUF_LEN pieces r.encode) :
    processResponseBuffer r.encode = .ok 1 ∧
      (∀ q, q <+: r.encode → q ≠ [] → q ≠ r.encode → processResponseBuffer q = .ok 0) ∧
      (StopsAtEnd pieces ↔ ∀ n ∈ readStarts 0 pieces, n + WRITE_BUF_LEN < 2^31) := by
  have hne : r.encode ≠ [] := r.encode_ne_nil
  refine ⟨?_, fun q hq hq0 hcut => ?_, ?_⟩
  · simpa using processResponseBuffer_on_cut hr hs List.prefix_rfl hne
  · simpa [hcut] using processResponseBuffer_on_cut hr hs hq hq0
  · exact stopsAtEnd_iff (fun q => processResponseBuffer_on_cut hr hs) hne hp

/-- `+OK` in two pieces. -/
theorem reply_read_to_end_iff_ok :
    processResponseBuffer [43, 79, 75, 13, 10] = .ok 1 ∧
      StopsAtEnd [[43, 79, 75, 13], [10]] := by
  have h := reply_read_to_end_iff (.line .status [79, 75])
    ⟨fun kind s h => by injection h with _ h; subst h; exact ⟨by decide, by decide⟩, by decide⟩
    trivial [[43, 79, 75, 13], [10]] ⟨by decide, by decide⟩
  exact ⟨h.1, h.2.2.mpr (by decide)⟩

/-- A bulk with a total length of `2^31 - 1` is not read to its end when it arrives byte by
byte. -/
theorem long_reply_not_read (a : Bytes) (ha : a.length = 2147483632) :
    (encodeBulk (some a)).length = 2147483647 ∧
      ¬ StopsAtEnd ((encodeBulk (some a)).map fun b => [b]) := by
  have hd : (decimal a.length).length = 10 := by
    rw [ha]
    exact le_antisymm (length_decimal_le (by norm_num) (by norm_num))
      (lt_length_decimal (by norm_num) (by norm_num))
  have hlen : (encodeBulk (some a)).length = 2147483647 := by
    simp only [encodeBulk, List.length_cons, List.length_append, length_crlf, hd]
    rw [ha]
  have hfit : BulkFits (some a) := bulkFits_of_length (by rw [hlen]; norm_num)
  have hv : ∀ q, q <+: encodeBulk (some a) → q ≠ [] → processResponseBuffer q =
      .ok (if q = encodeBulk (some a) then 1 else 0) := fun q hq hne =>
    processResponseBuffer_on_cut (r := .bulk (some a))
      ⟨fun _ _ h => by injection h, by rw [Reply.encode, hlen]; norm_num⟩ trivial hq hne
  refine ⟨hlen, ?_⟩
  rw [stopsAtEnd_iff hv (List.ne_nil_of_length_pos (by omega)) (isSplit_singletons (by decide) _),
    readStarts_singletons, hlen]
  intro h
  have hlate := h (2^31 - WRITE_BUF_LEN) (List.mem_range'_1.mpr ⟨by omega, by decide⟩)
  rw [Nat.sub_add_cancel (by decide)] at hlate
  omega

/-- There is a supported reply and a way of splitting it into reads such that the proxy does not
read to the end of it. -/
theorem reply_not_read_to_end : ∃ (r : Reply) (pieces : List Bytes),
    r = .bulk (some (List.replicate 2147483632 65)) ∧
      pieces = r.encode.map (fun b => [b]) ∧ r.Valid ∧ r.Supported ∧
      IsSplit WRITE_BUF_LEN pieces r.encode ∧ ¬ StopsAtEnd pieces := by
  obtain ⟨hlen, hnot⟩ := long_reply_not_read (List.replicate 2147483632 65) List.length_replicate
  refine ⟨_, _, rfl, rfl, ⟨fun _ _ h => ?_, ?_⟩, trivial, isSplit_singletons (by decide) _, hnot⟩
  · injection h
  · rw [Reply.encode, hlen]
    exact Nat.le_of_ble_eq_true rfl

end MgCommonUtils.RedisProxy
