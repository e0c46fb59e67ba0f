import MgCommonUtils.RedisProxy.Call

/-!
# What a call returns with

A call of `_redisCommandProc` together with everything that it has written and read on each
connection. Whatever the system calls return, a call that returns has either done one whole
exchange on an open connection, written the request and then read the reply until the validator
has answered 1, or it has closed its connection and returns the error text. In both cases it has
used two connections at most, and what was read on the first one is not in the reply of the second
(`returned_cases`).
-/

namespace MgCommonUtils.RedisProxy

open MgCommonUtils.Lib MgCommonUtils.EventLoop

/-! ## The values of the validator -/

/-- A result of a validator: 1, 0 or -1. -/
def IsVerdict (x : Except Abort ℤ) : Prop := ∀ v, x = .ok v → v = 1 ∨ v = 0 ∨ v = -1

/-- A constant. -/
theorem isVerdict_ok {v : ℤ} (h : v = 1 ∨ v = 0 ∨ v = -1) : IsVerdict (.ok v) := by
  rintro w ⟨⟩
  exact h

/-- An error. -/
theorem isVerdict_error (e : Abort) : IsVerdict (.error e) := by
  rintro v ⟨⟩

/-- Both branches. -/
theorem IsVerdict.ite {c : Prop} [Decidable c] {x y : Except Abort ℤ} (hx : IsVerdict x)
    (hy : IsVerdict y) : IsVerdict (if c then x else y) := by
  split_ifs
  · exact hx
  · exact hy

/-- What comes first does not matter. -/
theorem IsVerdict.bind {α : Type} (x : Except Abort α) {f : α → Except Abort ℤ}
    (h : ∀ a, IsVerdict (f a)) : IsVerdict (x >>= f) := by
  cases x with
  | error e => exact isVerdict_error e
  | ok a => exact h a

/-- The loop over the bulks. -/
theorem isVerdict_bulkLoop (buf : Bytes) (argc : ℕ) (pos : ℤ) :
    IsVerdict (bulkLoop buf argc pos) := by
  induction argc generalizing pos with
  | zero =>
    refine isVerdict_ok ?_
    split
    · exact .inr (.inr rfl)
    · exact .inl rfl
  | succ argc ih =>
    refine .bind _ fun b => .ite (isVerdict_ok (.inr (.inr rfl))) (.bind _ fun line => ?_)
    refine .bind _ fun pos' => .ite (isVerdict_ok (.inr (.inl rfl))) ?_
    exact .ite (isVerdict_ok (.inr (.inl rfl))) (ih pos')

/-- A one-line reply. -/
theorem isVerdict_validLineResponseBuffer (ty : UInt8) (rbuf : Bytes) :
    IsVerdict (validLineResponseBuffer ty rbuf) := by
  refine .ite (isVerdict_ok (.inr (.inr rfl))) (.ite (isVerdict_ok (.inr (.inl rfl))) ?_)
  split
  · exact isVerdict_error _
  · refine isVerdict_ok ?_
    split
    · exact .inr (.inr rfl)
    · exact .inl rfl

/-- A bulk. -/
theorem isVerdict_validBulkReplyResponseBuffer (rbuf : Bytes) :
    IsVerdict (validBulkReplyResponseBuffer rbuf) := by
  refine .ite (isVerdict_ok (.inr (.inr rfl))) (.ite (isVerdict_ok (.inr (.inl rfl))) ?_)
  refine .bind _ fun line => .bind _ fun pos => .ite (isVerdict_ok (.inr (.inl rfl))) ?_
  exact .ite (isVerdict_ok (.inl rfl)) (isVerdict_ok (.inr (.inr rfl)))

/-- A multi-bulk. -/
theorem isVerdict_validMultiBuckResponseBuffer (rbuf : Bytes) :
    IsVerdict (validMultiBuckResponseBuffer rbuf) := by
  refine .ite (isVerdict_ok (.inr (.inr rfl))) (.ite (isVerdict_ok (.inr (.inl rfl))) ?_)
  refine .bind _ fun line => .ite (isVerdict_ok (.inr (.inr rfl))) ?_
  refine .ite (isVerdict_ok (.inl rfl)) (.ite (isVerdict_ok (.inr (.inl rfl))) ?_)
  exact isVerdict_bulkLoop _ _ _

/-- The validator answers 1, 0 or -1. -/
theorem isVerdict_processResponseBuffer (rbuf : Bytes) :
    IsVerdict (processResponseBuffer rbuf) := by
  cases rbuf with
  | nil => exact isVerdict_error _
  | cons b rbuf =>
    refine .ite (isVerdict_validLineResponseBuffer _ _) ?_
    refine .ite (isVerdict_validLineResponseBuffer _ _) ?_
    refine .ite (isVerdict_validLineResponseBuffer _ _) ?_
    refine .ite (isVerdict_validBulkReplyResponseBuffer _) ?_
    exact .ite (isVerdict_validMultiBuckResponseBuffer _) (isVerdict_ok (.inr (.inr rfl)))

/-! ## The model -/

/-- Bytes on a connection, as `write` and `read` return them. -/
inductive Traffic where
  /-- Bytes written. -/
  | wrote (bytes : Bytes)
  /-- Bytes read. -/
  | read (bytes : Bytes)
  deriving DecidableEq, Repr

/-- A connection that the call has used. -/
structure Dialog where
  /-- Its descriptor. -/
  fd : ℕ
  /-- What the call has written and read, in order. -/
  traffic : List Traffic := []
  /-- It was closed. -/
  closed : Bool := false
  deriving DecidableEq, Repr

/-- A call and what it has done on each connection. -/
structure Exchange where
  /-- The procedure. -/
  proc : Proc
  /-- The connections, the last one first. -/
  dialogs : List Dialog
  deriving DecidableEq, Repr

/-- What a turn writes or reads. -/
def trafficOf (p : Proc) (s : Sys) : List Traffic :=
  match s with
  | .write (.wrote _) _ => [.wrote (writtenBy p s)]
  | .read (.data bytes) => [.read bytes]
  | _ => []

/-- The connections after a turn from `p` to `p'`. A connection is closed where `*fd` becomes
-1. -/
def dialogsAfter (p p' : Proc) (s : Sys) (dialogs : List Dialog) : List Dialog :=
  match s, dialogs with
  | .connect (some fd), dialogs => { fd := fd } :: dialogs
  | _, [] => []
  | s, d :: rest =>
    { d with traffic := d.traffic ++ trafficOf p s, closed := d.closed || p'.fd.isNone } :: rest

/-- A call on a client's request, on the worker's connection if it has one. -/
def Exchange.start (c : RedisClient) (fd : Option ℕ) : Exchange where
  proc := redisCommandProc c fd
  dialogs := fd.toList.map fun fd => { fd := fd }

/-- The calls on jobs without a reply. Nothing is asked of what the system calls return. -/
def exchangeSystem : Lts Exchange Sys where
  init w := ∃ c fd, c.wbuf = [] ∧ w = Exchange.start c fd
  step w s := (procStep w.proc s).map fun p => ⟨p, dialogsAfter w.proc p s w.dialogs⟩

/-- The request was written, and then the chunks were read. -/
def Carries (traffic : List Traffic) (request : Bytes) (chunks : List Bytes) : Prop :=
  ∃ written : List Bytes, traffic = written.map .wrote ++ chunks.map .read ∧
    written.flatten = request

/-- The validator answers 0 after each of the chunks. -/
def Unfinished (chunks : List Bytes) : Prop :=
  ∀ k, 0 < k → k ≤ chunks.length → processResponseBuffer (chunks.take k).flatten = .ok 0

/-- The connection of the call is open, and `request` was written and the chunks were read on it. -/
def Exchange.Talks (w : Exchange) (request : Bytes) (chunks : List Bytes) : Prop :=
  ∃ d rest, w.dialogs = d :: rest ∧ d.closed = false ∧ w.proc.fd = some d.fd ∧
    Carries d.traffic request chunks

/-- The call has read a reply to the whole request on its connection, which is open. -/
def Exchange.Success (w : Exchange) : Prop :=
  ∃ chunks last, w.Talks w.proc.client.rbuf (chunks ++ [last]) ∧
    w.proc.client.wbuf = (chunks ++ [last]).flatten ∧
    processResponseBuffer w.proc.client.wbuf = .ok 1 ∧ Unfinished chunks

/-- The call has no connection, and the reply is the error text. -/
def Exchange.Failure (w : Exchange) : Prop :=
  w.proc.fd = none ∧ w.proc.client.wbuf = CONN_ERR

/-! ## The turns -/

/-- A turn that does not connect adds its traffic to the last connection. -/
theorem dialogsAfter_cons {p p' : Proc} {s : Sys} (hs : ∀ fd, s ≠ .connect (some fd)) (d : Dialog)
    (rest : List Dialog) : dialogsAfter p p' s (d :: rest) =
      { d with traffic := d.traffic ++ trafficOf p s, closed := d.closed || p'.fd.isNone } ::
        rest := by
  cases s with
  | connect fd =>
    cases fd with
    | none => rfl
    | some fd => exact absurd rfl (hs fd)
  | pollEnd | write | late | read => rfl

/-- A turn that does not connect leaves the number of connections as it is. -/
theorem length_dialogsAfter {p p' : Proc} {s : Sys} (hs : ∀ fd, s ≠ .connect (some fd))
    (dialogs : List Dialog) : (dialogsAfter p p' s dialogs).length = dialogs.length := by
  cases dialogs with
  | nil =>
    cases s with
    | connect fd =>
      cases fd with
      | none => rfl
      | some fd => exact absurd rfl (hs fd)
    | pollEnd | write | late | read => rfl
  | cons d rest =>
    rw [dialogsAfter_cons hs]
    rfl

/-- A turn that keeps the connection adds to what the connection carries. -/
theorem Exchange.Talks.after {w : Exchange} {request request' : Bytes} {chunks chunks' : List Bytes}
    (h : w.Talks request chunks) (p' : Proc) {s : Sys} (hs : ∀ fd, s ≠ .connect (some fd))
    (hfd : p'.fd = w.proc.fd)
    (hcarry : ∀ traffic, Carries traffic request chunks →
      Carries (traffic ++ trafficOf w.proc s) request' chunks') :
    Exchange.Talks ⟨p', dialogsAfter w.proc p' s w.dialogs⟩ request' chunks' := by
  obtain ⟨d, rest, hdialogs, hopen, hd, hcarries⟩ := h
  refine ⟨{ d with traffic := d.traffic ++ trafficOf w.proc s, closed := d.closed || p'.fd.isNone },
    rest, ?_, ?_, hfd.trans hd, hcarry _ hcarries⟩
  · rw [hdialogs]
    exact dialogsAfter_cons hs d rest
  · rw [hfd, hd, hopen]
    rfl

/-- More of the request is written. -/
theorem Carries.write {traffic : List Traffic} {request : Bytes} (h : Carries traffic request [])
    (bytes : Bytes) : Carries (traffic ++ [.wrote bytes]) (request ++ bytes) [] := by
  obtain ⟨written, rfl, rfl⟩ := h
  refine ⟨written ++ [bytes], ?_, ?_⟩
  · rw [List.map_append, List.map_nil, List.append_nil, List.append_nil]
    rfl
  · rw [List.flatten_append, List.flatten_singleton]

/-- One more chunk is read. -/
theorem Carries.read {traffic : List Traffic} {request : Bytes} {chunks : List Bytes}
    (h : Carries traffic request chunks) (bytes : Bytes) :
    Carries (traffic ++ [.read bytes]) request (chunks ++ [bytes]) := by
  obtain ⟨written, rfl, rfl⟩ := h
  refine ⟨written, ?_, rfl⟩
  rw [List.map_append, List.append_assoc]
  rfl

/-- A turn without traffic. -/
theorem Exchange.Talks.quiet {w : Exchange} {request : Bytes} {chunks : List Bytes}
    (h : w.Talks request chunks) (p' : Proc) {s : Sys} (hs : ∀ fd, s ≠ .connect (some fd))
    (hfd : p'.fd = w.proc.fd) (hquiet : trafficOf w.proc s = []) :
    Exchange.Talks ⟨p', dialogsAfter w.proc p' s w.dialogs⟩ request chunks := by
  refine h.after p' hs hfd fun traffic hcarries => ?_
  rw [hquiet, List.append_nil]
  exact hcarries

/-- A turn that writes. -/
theorem Exchange.Talks.wrote {w : Exchange} {nwrite : ℕ}
    (h : w.Talks (w.proc.client.rbuf.take nwrite) []) (hph : w.proc.phase = .writing nwrite)
    (p' : Proc) (hfd : p'.fd = w.proc.fd)
    (rc : ℕ) (late : Bool) :
    Exchange.Talks ⟨p', dialogsAfter w.proc p' (.write (.wrote rc) late) w.dialogs⟩
      (w.proc.client.rbuf.take (nwrite + rc)) [] := by
  refine h.after p' (fun _ => Sys.noConfusion) hfd fun traffic hcarries => ?_
  have hmore := hcarries.write ((w.proc.client.rbuf.drop nwrite).take rc)
  have hwritten : writtenBy w.proc (.write (.wrote rc) late) =
      (w.proc.client.rbuf.drop nwrite).take rc := by
    simp only [writtenBy, hph]
  rw [← List.take_add] at hmore
  rw [trafficOf, hwritten]
  exact hmore

/-- A turn that reads. -/
theorem Exchange.Talks.read {w : Exchange} {request : Bytes} {chunks : List Bytes}
    (h : w.Talks request chunks) (p' : Proc) (hfd : p'.fd = w.proc.fd) (bytes : Bytes) :
    Exchange.Talks ⟨p', dialogsAfter w.proc p' (.read (.data bytes)) w.dialogs⟩ request
      (chunks ++ [bytes]) :=
  h.after p' (fun _ => Sys.noConfusion) hfd fun _ hcarries => hcarries.read bytes

/-- One more chunk after which the validator answers 0. -/
theorem Unfinished.append {chunks : List Bytes} (h : Unfinished chunks) {bytes : Bytes}
    (hv : processResponseBuffer (chunks ++ [bytes]).flatten = .ok 0) :
    Unfinished (chunks ++ [bytes]) := by
  intro k hpos hk
  rw [List.length_append, List.length_singleton] at hk
  obtain hlt | rfl : k ≤ chunks.length ∨ k = chunks.length + 1 := by omega
  · rw [List.take_append_of_le_length hlt]
    exact h k hpos hlt
  · rw [List.take_of_length_le (by rw [List.length_append, List.length_singleton])]
    exact hv

/-- A turn that reads a part of the reply: the validator answers 1 or 0. -/
theorem verdict_of_procStep {p : Proc} {bytes : Bytes} {v : ℤ} (hph : p.phase = .reading)
    (hv : processResponseBuffer (p.client.wbuf ++ bytes) = .ok v)
    (h : procStep p (.read (.data bytes)) = some
      { p with
        client := { p.client with wbuf := p.client.wbuf ++ bytes }
        phase := if v = 1 then .returned else .reading }) : v = 1 ∨ v = 0 := by
  obtain hone | hzero | rfl := isVerdict_processResponseBuffer _ v hv
  · exact .inl hone
  · exact .inr hzero
  · -- the turn would have given up
    unfold procStep at h
    rw [hph] at h
    have hphase := congrArg Proc.phase (Option.some.inj h)
    unfold readTurn at hphase
    split at hphase
    · rw [if_neg (by decide)] at hphase
      cases hphase
    · dsimp only at hphase
      rw [hv] at hphase
      cases hphase

/-! ## The invariant -/

/-- What the call has done, where it is. -/
def Exchange.At (w : Exchange) : Phase → Prop
  | .connecting => w.proc.client.wbuf = [] ∧ w.dialogs.length + 1 ≤ w.proc.ntry
  | .writing n => w.proc.client.wbuf = [] ∧ w.dialogs.length ≤ w.proc.ntry ∧
      w.Talks (w.proc.client.rbuf.take n) []
  | .reading => w.dialogs.length ≤ w.proc.ntry ∧ ∃ chunks, w.Talks w.proc.client.rbuf chunks ∧
      w.proc.client.wbuf = chunks.flatten ∧ Unfinished chunks
  | .returned => w.dialogs.length ≤ w.proc.ntry ∧ (w.Success ∨ w.Failure)
  | .aborted _ => True

/-- What holds of a call at all times. -/
structure Exchange.Inv (w : Exchange) : Prop where
  /-- There are at most two attempts. -/
  ntry : w.proc.ntry ≤ 2
  /-- What it has done so far. -/
  at_phase : w.At w.proc.phase

/-- The invariant at the start of a call. -/
theorem Exchange.inv_start {c : RedisClient} (hc : c.wbuf = []) (fd : Option ℕ) :
    (Exchange.start c fd).Inv where
  ntry := by
    change 0 + 1 ≤ 2
    omega
  at_phase := by
    cases fd with
    | none => exact ⟨hc, le_rfl⟩
    | some fd =>
      refine ⟨hc, le_rfl, { fd := fd }, [], rfl, rfl, rfl, [], rfl, ?_⟩
      exact List.take_zero.symm

/-- There are at most as many connections as attempts. -/
theorem Exchange.Inv.length_le {w : Exchange} (h : w.Inv)
    (hph : ∀ why, w.proc.phase ≠ .aborted why) : w.dialogs.length ≤ w.proc.ntry := by
  have hat := h.at_phase
  cases hphase : w.proc.phase with
  | connecting =>
    rw [hphase] at hat
    exact (Nat.le_succ _).trans hat.2
  | writing n =>
    rw [hphase] at hat
    exact hat.2.1
  | reading =>
    rw [hphase] at hat
    exact hat.1
  | returned =>
    rw [hphase] at hat
    exact hat.1
  | aborted why => exact absurd hphase (hph why)

/-- The invariant is kept by every turn. -/
theorem Exchange.Inv.turn {w : Exchange} {s : Sys} {p' : Proc} (h : w.Inv)
    (hstep : procStep w.proc s = some p') :
    Exchange.Inv ⟨p', dialogsAfter w.proc p' s w.dialogs⟩ := by
  have hat := h.at_phase
  have hlen : ∀ q, (∀ fd, s ≠ .connect (some fd)) →
      (dialogsAfter w.proc q s w.dialogs).length = w.dialogs.length := fun q hs =>
    length_dialogsAfter hs w.dialogs
  cases turn_of_procStep hstep with
  | connect fd hph =>
    rw [hph] at hat
    refine ⟨h.ntry, hat.1, hat.2, { fd := fd }, w.dialogs, rfl, rfl, rfl, [], rfl, ?_⟩
    exact List.take_zero.symm
  | wrote nwrite rc hph hrc =>
    rw [hph] at hat
    have hlen := (hlen · (fun _ => Sys.noConfusion))
    by_cases hall : nwrite + rc = w.proc.client.rbuf.length
    · rw [if_pos hall]
      have htalks := hat.2.2.wrote hph { w.proc with phase := .reading } rfl rc false
      rw [hall, List.take_length] at htalks
      refine ⟨h.ntry, (hlen _).trans_le hat.2.1, [], htalks, hat.1, ?_⟩
      intro k hpos hk
      exact absurd hpos (Nat.not_lt.mpr hk)
    · rw [if_neg hall]
      have htalks := hat.2.2.wrote hph { w.proc with phase := .writing (nwrite + rc) } rfl rc false
      exact ⟨h.ntry, hat.1, (hlen _).trans_le hat.2.1, htalks⟩
  | wroteNothing nwrite r hph hr =>
    have hwritten : w.proc.client.rbuf.take (nwrite + 0) = w.proc.client.rbuf.take nwrite := rfl
    refine ⟨h.ntry, ?_⟩
    dsimp only
    rw [hph] at hat ⊢
    refine ⟨hat.1, (hlen _ (fun _ => Sys.noConfusion)).trans_le hat.2.1, ?_⟩
    obtain rfl | rfl := hr
    · exact hat.2.2.quiet _ (fun _ => Sys.noConfusion) rfl rfl
    · exact hwritten ▸ hat.2.2.wrote hph _ rfl 0 false
  | readNothing hph =>
    refine ⟨h.ntry, ?_⟩
    dsimp only
    rw [hph] at hat ⊢
    obtain ⟨hle, chunks, htalks, hwbuf, hunfinished⟩ := hat
    exact ⟨(hlen _ (fun _ => Sys.noConfusion)).trans_le hle, chunks,
      htalks.quiet _ (fun _ => Sys.noConfusion) rfl rfl, hwbuf, hunfinished⟩
  | retryWrite nwrite hph htry =>
    rw [hph] at hat
    refine ⟨htry, hat.1, ?_⟩
    change (dialogsAfter _ _ _ _).length + 1 ≤ w.proc.ntry + 1
    rw [hlen _ (fun _ => Sys.noConfusion)]
    exact Nat.succ_le_succ hat.2.1
  | retryRead r hph hr htry =>
    rw [hph] at hat
    refine ⟨htry, rfl, ?_⟩
    change (dialogsAfter _ _ _ _).length + 1 ≤ w.proc.ntry + 1
    rw [hlen _ (fun _ => Sys.noConfusion)]
    exact Nat.succ_le_succ hat.1
  | giveUp _ hph hs =>
    have hle := h.length_le (by
      intro why haborted
      unfold procStep at hstep
      rw [haborted] at hstep
      cases hstep)
    exact ⟨h.ntry, (hlen _ hs).trans_le hle, .inr ⟨rfl, rfl⟩⟩
  | abort r wbuf why hph => exact ⟨h.ntry, trivial⟩
  | data bytes v hph hv =>
    rw [hph] at hat
    obtain ⟨hle, chunks, htalks, hwbuf, hunfinished⟩ := hat
    have hflatten : w.proc.client.wbuf ++ bytes = (chunks ++ [bytes]).flatten := by
      rw [hwbuf, List.flatten_append, List.flatten_singleton]
    have hlen := (hlen · (fun _ => Sys.noConfusion))
    obtain rfl | rfl := verdict_of_procStep hph hv hstep
    · rw [if_pos rfl]
      refine ⟨h.ntry, (hlen _).trans_le hle, .inl ⟨chunks, bytes, ?_, hflatten, hv, hunfinished⟩⟩
      exact htalks.read _ rfl bytes
    · rw [if_neg (by decide)]
      refine ⟨h.ntry, (hlen _).trans_le hle, chunks ++ [bytes], htalks.read _ rfl bytes,
        hflatten, ?_⟩
      exact hunfinished.append (hflatten ▸ hv)

/-- Whenever a call returns, it has used two connections at most, and it is in exactly one of two
states: it has written the whole request on its connection, which is open, and the reply is what it
has then read on it, for which the validator answers 1 at the end and 0 before; or it has no
connection, and the reply is the error text. -/
theorem returned_cases (w : Exchange) (hw : exchangeSystem.Reachable w)
    (hret : w.proc.phase = .returned) :
    w.dialogs.length ≤ 2 ∧ (w.Success ∨ w.Failure) ∧ ¬(w.Success ∧ w.Failure) := by
  have hinv : w.Inv := by
    refine Lts.Reach.invariant hw ?_ ?_
    · rintro w ⟨c, fd, hc, rfl⟩
      exact Exchange.inv_start hc fd
    · intro w s w' hinv _ hstep
      obtain ⟨p', hp', rfl⟩ := Option.map_eq_some_iff.mp hstep
      exact hinv.turn hp'
  have hat := hinv.at_phase
  rw [hret] at hat
  refine ⟨hat.1.trans hinv.ntry, hat.2, ?_⟩
  rintro ⟨⟨chunks, last, ⟨d, rest, -, -, hfd, -⟩, -⟩, hnone, -⟩
  rw [hnone] at hfd
  cases hfd

/-- A call whose first connection ends after a part of the reply, and which reads the reply in two
pieces on a second one. -/
def twoConnections : List Sys :=
  [.write (.wrote 8) false, .read (.data [43, 79]), .read .eof, .connect (some 8),
    .write (.wrote 3) false, .write (.wrote 5) false, .read (.data [43, 79, 75]),
    .read (.data [13, 10])]

/-- The reply is what was read on the second connection. -/
theorem returned_cases_two : ∃ w, exchangeSystem.run (Exchange.start incrClient (some 7))
      twoConnections = some w ∧ w.proc.client.wbuf = [43, 79, 75, 13, 10] ∧
    w.dialogs.length ≤ 2 ∧ (w.Success ∨ w.Failure) ∧ ¬(w.Success ∧ w.Failure) := by
  have hinit : exchangeSystem.init (Exchange.start incrClient (some 7)) :=
    ⟨incrClient, some 7, rfl, rfl⟩
  have hrun : (exchangeSystem.run (Exchange.start incrClient (some 7)) twoConnections).map
      (fun w => (w.proc.phase, w.proc.client.wbuf)) = some (.returned, [43, 79, 75, 13, 10]) := by
    decide +kernel
  obtain ⟨w, hw, h⟩ := Option.map_eq_some_iff.mp hrun
  obtain ⟨hph, hwbuf⟩ := Prod.mk.inj h
  have hreach : exchangeSystem.Reachable w :=
    .run (.init hinit) (Lts.runOk_of_forall (fun _ _ _ => trivial) _) hw
  exact ⟨w, hw, hwbuf, returned_cases w hreach hph⟩

end MgCommonUtils.RedisProxy
