import MgCommonUtils.RedisProxy.Command

/-!
# One call and the connections it writes on

A call of `_redisCommandProc` together with the connections that it has written on. The upstream
receives what was written on a connection with any delay, also after the procedure has closed it,
and executes the request as soon as it has received all of it. So a call has as many executions
as there are connections on which the whole request has arrived (`Call.executed`).

The procedure retries once, from the writing loop or from the reading loop. A retry from the
writing loop leaves a connection on which a proper part of the request was written, which is never
executed. A retry from the reading loop leaves one on which all of it was written. It may have been
executed, and the retry executes it again (`executed_twice`). The procedure does not look at the
request before it retries, so this is the price of the retry after a lost reply. `executed_le`
states what is left of at-most-once.
-/

namespace MgCommonUtils.RedisProxy

open MgCommonUtils.Lib MgCommonUtils.EventLoop

/-- A connection to the upstream, as far as a call has used it. -/
structure Conn where
  /-- The bytes that the call has written on it. -/
  sent : Bytes := []
  /-- The number of these that the upstream has received. -/
  received : ℕ := 0
  deriving DecidableEq, Repr

/-- A call and its connections. -/
structure Call where
  /-- The procedure. -/
  proc : Proc
  /-- The connections, the last one first. -/
  conns : List Conn
  /-- The reading loop of the first attempt has ended with EOF or an error. -/
  replyLost : Bool := false
  deriving DecidableEq, Repr

/-- The steps of a call and its connections. -/
inductive CallLabel where
  /-- A turn of the procedure. -/
  | turn (s : Sys)
  /-- The upstream receives `n` more bytes on the `i`th connection. -/
  | receive (i n : ℕ)
  deriving DecidableEq, Repr

/-- The bytes that a turn writes. -/
def writtenBy (p : Proc) (s : Sys) : Bytes :=
  match p.phase, s with
  | .writing nwrite, .write (.wrote rc) _ => (p.client.rbuf.drop nwrite).take rc
  | _, _ => []

/-- The connections after a turn. -/
def connsAfter (p : Proc) (s : Sys) (conns : List Conn) : List Conn :=
  match s, conns with
  | .connect (some _), conns => {} :: conns
  | _, [] => []
  | s, k :: rest => { k with sent := k.sent ++ writtenBy p s } :: rest

/-- The turn ends the reading loop of the first attempt with EOF or an error. -/
def losesReply (p : Proc) (s : Sys) : Bool :=
  p.phase == .reading && p.ntry == 1 && (s == .read .eof || s == .read .error)

/-- One step of a call and its connections. -/
def callStep (w : Call) : CallLabel → Option Call
  | .turn s => (procStep w.proc s).map fun p =>
      { proc := p
        conns := connsAfter w.proc s w.conns
        replyLost := w.replyLost || losesReply w.proc s }
  | .receive i n =>
    match w.conns[i]? with
    | none => none
    | some k =>
      if k.received + n ≤ k.sent.length then
        some { w with conns := w.conns.set i { k with received := k.received + n } }
      else none

/-- A call on a client's request, on the worker's connection if it has one. -/
def Call.start (c : RedisClient) (fd : Option ℕ) : Call where
  proc := redisCommandProc c fd
  conns := if fd.isSome then [{}] else []

/-- The calls on requests that the proxy accepts. -/
def callSystem : Lts Call CallLabel where
  init w := ∃ c fd, processRequestBuffer c.rbuf = .ok 1 ∧ w = Call.start c fd
  step := callStep

/-- The results of system calls are ones that they can return. -/
def Call.ValidStep (w : Call) : CallLabel → Prop
  | .turn s => s.Valid w.proc
  | .receive _ _ => True

/-- Whether a step is a valid one can be computed. -/
instance (w : Call) (l : CallLabel) : Decidable (w.ValidStep l) := by
  cases l <;> unfold Call.ValidStep <;> infer_instance

/-- The upstream has received the whole request on a connection. -/
def Conn.Whole (request : Bytes) (k : Conn) : Prop := k.sent.take k.received = request

/-- Whether the whole request has arrived can be computed. -/
instance (request : Bytes) : DecidablePred (Conn.Whole request) := fun k =>
  inferInstanceAs (Decidable (k.sent.take k.received = request))

/-- How many times the upstream has executed the request. -/
def Call.executed (w : Call) : ℕ := w.conns.countP (Conn.Whole w.proc.client.rbuf)

/-! ## What is written on the connections -/

/-- What the call has written on each connection. -/
def Call.sents (w : Call) : List Bytes := w.conns.map Conn.sent

/-- What the call has written on the connections that it has left behind. -/
def Call.old (w : Call) : List Bytes :=
  if w.proc.phase = .connecting then w.sents else w.sents.tail

/-- What holds of a call at all times. -/
structure Call.Inv (w : Call) : Prop where
  /-- The request is not empty. -/
  pos : 0 < w.proc.client.rbuf.length
  /-- There are one or two attempts, and less connections left behind than attempts. -/
  ntry : w.old.length + 1 ≤ w.proc.ntry ∧ w.proc.ntry ≤ 2
  /-- No connection left behind has the whole request, unless the reply was lost. -/
  old : w.replyLost = false → ∀ s ∈ w.old, s.length < w.proc.client.rbuf.length
  /-- In the writing loop, a proper part of the request is written on the connection. -/
  writing : ∀ n, w.proc.phase = .writing n → n < w.proc.client.rbuf.length ∧
    w.sents.head? = some (w.proc.client.rbuf.take n)

/-- Receiving changes nothing of what is written. -/
theorem sents_receive {w w' : Call} {i n : ℕ} (h : callStep w (.receive i n) = some w') :
    w'.sents = w.sents ∧ w'.proc = w.proc ∧ w'.replyLost = w.replyLost := by
  simp only [callStep] at h
  split at h
  · cases h
  · rename_i k hk
    split_ifs at h
    obtain rfl := Option.some.inj h
    refine ⟨?_, rfl, rfl⟩
    obtain ⟨hlt, rfl⟩ := List.getElem?_eq_some_iff.mp hk
    simp only [Call.sents, List.map_set]
    exact List.ext_getElem (by simp) fun j hj hj' => by
      rw [List.getElem_set]
      split_ifs with hij
      · subst hij; simp
      · rfl

/-- A turn that does not connect writes on the last connection. -/
theorem map_sent_connsAfter {p : Proc} {s : Sys} (hs : ∀ fd, s ≠ .connect (some fd))
    (conns : List Conn) :
    (connsAfter p s conns).map Conn.sent = match conns.map Conn.sent with
      | [] => []
      | b :: rest => (b ++ writtenBy p s) :: rest := by
  cases conns with
  | nil => cases s with
    | connect fd => cases fd with
      | none => rfl
      | some fd => exact absurd rfl (hs fd)
    | _ => rfl
  | cons k rest => cases s with
    | connect fd => cases fd with
      | none => rfl
      | some fd => exact absurd rfl (hs fd)
    | _ => rfl

/-- A turn that writes nothing and does not connect leaves the connections as they are. -/
theorem map_sent_of_writtenBy {p : Proc} {s : Sys} (hs : ∀ fd, s ≠ .connect (some fd))
    (hw : writtenBy p s = []) (conns : List Conn) :
    (connsAfter p s conns).map Conn.sent = conns.map Conn.sent := by
  rw [map_sent_connsAfter hs, hw]
  cases conns <;> simp

/-- A turn outside the writing loop writes nothing. -/
theorem writtenBy_of_phase {p : Proc} {s : Sys} (h : ∀ n, p.phase ≠ .writing n) :
    writtenBy p s = [] := by
  unfold writtenBy
  split
  case h_1 nwrite _ _ hph => exact absurd hph (h nwrite)
  case h_2 => rfl

/-- The invariant at the start of a call. -/
theorem Call.inv_start {c : RedisClient} (hc : c.rbuf ≠ []) (fd : Option ℕ) :
    (Call.start c fd).Inv := by
  have hpos := List.length_pos_iff.mpr hc
  cases fd with
  | none =>
    exact ⟨hpos, by simp [Call.old, Call.start, redisCommandProc, again, Call.sents],
      by simp [Call.old, Call.start, redisCommandProc, again, Call.sents],
      by simp [Call.start, redisCommandProc, again]⟩
  | some fd =>
    refine ⟨hpos, by simp [Call.old, Call.start, redisCommandProc, again, Call.sents],
      by simp [Call.old, Call.start, redisCommandProc, again, Call.sents], ?_⟩
    simp only [Call.start, redisCommandProc, again, Phase.writing.injEq]
    rintro n rfl
    exact ⟨hpos, by simp [Call.sents]⟩

/-- A turn that neither connects nor starts in `connecting` leaves the connections left behind as
they are, as long as it does not leave one behind. -/
theorem tail_connsAfter {p : Proc} {s : Sys} (hs : ∀ fd, s ≠ .connect (some fd))
    (conns : List Conn) :
    ((connsAfter p s conns).map Conn.sent).tail = (conns.map Conn.sent).tail := by
  rw [map_sent_connsAfter hs]
  cases conns <;> rfl

/-- The invariant is kept where the request, the attempt and the connections left behind stay. -/
theorem Call.Inv.of_old {w w' : Call} (hw : w.Inv) (hold : w'.old = w.old)
    (hrbuf : w'.proc.client.rbuf = w.proc.client.rbuf) (hntry : w'.proc.ntry = w.proc.ntry)
    (hlost : w'.replyLost = false → w.replyLost = false)
    (hwriting : ∀ n, w'.proc.phase = .writing n → n < w.proc.client.rbuf.length ∧
      w'.sents.head? = some (w.proc.client.rbuf.take n)) : w'.Inv where
  pos := hrbuf ▸ hw.pos
  ntry := by
    rw [hold, hntry]
    exact hw.ntry
  old := by
    intro hb
    rw [hold, hrbuf]
    exact hw.old (hlost hb)
  writing := by
    rw [hrbuf]
    exact hwriting

/-- The invariant is kept by every step. -/
theorem Call.inv_step {w w' : Call} {l : CallLabel} (hw : w.Inv) (hl : w.ValidStep l)
    (h : callStep w l = some w') : w'.Inv := by
  cases l with
  | receive i n =>
    obtain ⟨h1, h2, h3⟩ := sents_receive h
    have hold : w'.old = w.old := by rw [Call.old, Call.old, h1, h2]
    refine hw.of_old hold (by rw [h2]) (by rw [h2]) (fun hb => h3 ▸ hb) ?_
    rw [h1, h2]
    exact hw.writing
  | turn s =>
    obtain ⟨p, hp, rfl⟩ := Option.map_eq_some_iff.mp h
    -- The connections left behind stay the same in a turn between two of the loops' states.
    have hstay : (∀ fd, s ≠ .connect (some fd)) → w.proc.phase ≠ .connecting →
        p.phase ≠ .connecting → ∀ b, Call.old ⟨p, connsAfter w.proc s w.conns, b⟩ = w.old := by
      intro hs h1 h2 b
      simp only [Call.old, if_neg h1, if_neg h2, Call.sents]
      exact tail_connsAfter hs _
    have hlost : ∀ b, (w.replyLost || b) = false → w.replyLost = false := fun b hb =>
      (Bool.or_eq_false_iff.mp hb).1
    cases turn_of_procStep hp with
    | connect fd hph =>
      have hst : ∀ b, Call.old ⟨{ w.proc with fd := some fd, phase := .writing 0 },
          connsAfter w.proc (.connect (some fd)) w.conns, b⟩ = w.old := by
        intro b
        rw [show w.old = w.sents from if_pos hph]
        simp [Call.old, Call.sents, connsAfter]
      refine hw.of_old (hst _) rfl rfl (hlost _) fun n hn => ?_
      obtain rfl : 0 = n := by simpa using hn
      exact ⟨hw.pos, by simp [Call.sents, connsAfter]⟩
    | wrote nwrite rc hph hrc =>
      obtain ⟨hlt, hhead⟩ := hw.writing _ hph
      have hle : rc ≤ w.proc.client.rbuf.length - nwrite := by
        have hval : rc ≤ w.proc.client.rbuf.length - w.proc.nwrite := hl
        rwa [show w.proc.nwrite = nwrite by simp [Proc.nwrite, hph]] at hval
      have hst := hstay (by simp) (by simp [hph]) (by dsimp only; split_ifs <;> simp)
      refine hw.of_old (hst _) rfl rfl (hlost _) fun n hn => ?_
      dsimp only at hn
      split_ifs at hn with hall
      obtain rfl := Phase.writing.inj hn
      refine ⟨by omega, ?_⟩
      rw [Call.sents, map_sent_connsAfter (by simp)]
      rw [Call.sents] at hhead
      obtain ⟨rest, hrest⟩ := List.head?_eq_some_iff.mp hhead
      rw [hrest]
      simp only [writtenBy, hph, List.head?_cons, Option.some.injEq]
      rw [List.take_add]
    | wroteNothing nwrite r hph hr =>
      have hwr : writtenBy w.proc (.write r false) = [] := by
        rcases hr with rfl | rfl <;> simp [writtenBy, hph]
      have hs := map_sent_of_writtenBy (by simp) hwr w.conns
      have hst := hstay (by simp) (by simp [hph]) (by simp [hph])
      refine hw.of_old (hst _) rfl rfl (hlost _) fun n hn => ?_
      rw [Call.sents, hs]
      exact hw.writing n hn
    | readNothing hph =>
      have hst := hstay (by simp) (by simp [hph]) (by simp [hph])
      exact hw.of_old (hst _) rfl rfl (hlost _) fun n hn => by simp [hph] at hn
    | retryWrite nwrite hph htry =>
      -- The connection left behind has a proper part of the request.
      obtain ⟨hlt, hhead⟩ := hw.writing _ hph
      obtain ⟨rest, hrest⟩ := List.head?_eq_some_iff.mp hhead
      have hold : w.old = rest := by simp [Call.old, hph, hrest]
      have hs := map_sent_of_writtenBy (s := .write .error false) (p := w.proc) (by simp)
        (by simp [writtenBy, hph]) w.conns
      have hnew : ∀ b, Call.old ⟨again { w.proc with fd := none },
          connsAfter w.proc (.write .error false) w.conns, b⟩ = w.sents := by
        intro b
        simp only [Call.old, again, if_true, Call.sents, hs]
      have hn := hw.ntry
      refine ⟨hw.pos, ?_, fun hb k hk => ?_, fun n hn => by simp [again] at hn⟩
      · rw [hnew, hrest, List.length_cons]
        rw [hold] at hn
        simp only [again]
        omega
      · rw [hnew, hrest] at hk
        rcases List.mem_cons.mp hk with rfl | hk
        · simp only [again, List.length_take]
          omega
        · exact hw.old (hlost _ hb) k (by rw [hold]; exact hk)
    | retryRead r hph hr htry =>
      -- The reply is lost, so the connection left behind may have the whole request.
      have hs := map_sent_of_writtenBy (s := .read r) (p := w.proc) (by simp)
        (writtenBy_of_phase (by simp [hph])) w.conns
      have hold : w.old = w.sents.tail := by simp [Call.old, hph]
      have hn := hw.ntry
      refine ⟨hw.pos, ?_, fun hb => ?_, fun n hn => by simp [again] at hn⟩
      · simp only [Call.old, again, if_true, Call.sents, hs]
        rw [hold, List.length_tail, Call.sents] at hn
        omega
      · have h1 : w.proc.ntry = 1 := by omega
        rcases hr with rfl | rfl <;> simp [losesReply, hph, h1] at hb
    | giveUp _ hph hs =>
      have hsub : ∀ b,
          (Call.old ⟨giveUp w.proc, connsAfter w.proc s w.conns, b⟩).Sublist w.old := by
        intro b
        simp only [Call.old, giveUp, reduceCtorEq, if_false, Call.sents]
        rw [tail_connsAfter hs]
        split_ifs
        · exact List.tail_sublist _
        · exact List.Sublist.refl _
      have hn := hw.ntry
      refine ⟨hw.pos, ?_, fun hb k hk => hw.old (hlost _ hb) k ((hsub _).subset hk),
        fun n hn => by simp [giveUp] at hn⟩
      have := (hsub (w.replyLost || losesReply w.proc s)).length_le
      simp only [giveUp] at this ⊢
      omega
    | abort r wbuf why hph =>
      have hst := hstay (by simp) (by simp [hph]) (by simp)
      exact hw.of_old (hst _) rfl rfl (hlost _) fun n hn => by simp at hn
    | data bytes v hph hv =>
      have hst := hstay (by simp) (by simp [hph]) (by dsimp only; split_ifs <;> simp)
      refine hw.of_old (hst _) rfl rfl (hlost _) fun n hn => ?_
      dsimp only at hn
      split_ifs at hn

/-- The connections on which the whole request has arrived are among those on which it was
written. -/
theorem Call.executed_le_countP (w : Call) : w.executed ≤
    w.sents.countP (fun s => w.proc.client.rbuf.length ≤ s.length) := by
  rw [Call.executed, Call.sents, List.countP_map]
  refine List.countP_mono_left fun k _ hk => ?_
  have hwhole : k.sent.take k.received = w.proc.client.rbuf := of_decide_eq_true hk
  have := congrArg List.length hwhole
  rw [List.length_take] at this
  simp only [Function.comp_apply, decide_eq_true_eq]
  omega

/-- One call makes the upstream execute the request at most twice, and at most once unless the
reading loop of the first attempt, which starts when the whole request is written, has ended with
EOF or an error. -/
theorem executed_le (w : Call) (hw : callSystem.Reach Call.ValidStep w) :
    w.executed ≤ 2 ∧ (w.replyLost = false → w.executed ≤ 1) := by
  have hinv : w.Inv := by
    refine hw.invariant ?_ fun s a t hs ha h => Call.inv_step hs ha h
    rintro s ⟨c, fd, hc, rfl⟩
    refine Call.inv_start ?_ fd
    intro h
    simp [h, processRequestBuffer, endsInCrlf] at hc
  have hle := w.executed_le_countP
  set full : Bytes → Bool := fun s => w.proc.client.rbuf.length ≤ s.length with hfull
  have htail : w.sents.countP full ≤ 1 + w.old.countP full := by
    rw [Call.old]
    split_ifs
    · omega
    · cases w.sents with
      | nil => simp
      | cons s rest =>
        rw [List.tail_cons, List.countP_cons]
        split_ifs <;> omega
  constructor
  · have := hinv.ntry
    have := List.countP_le_length (p := full) (l := w.old)
    omega
  · intro hlost
    have hzero : w.old.countP full = 0 := List.countP_eq_zero.mpr fun s hs => by
      have := hinv.old hlost s hs
      simp only [hfull, decide_eq_true_eq]
      omega
    omega

/-- A client that has sent an inline `INCR a`. -/
def incrClient : RedisClient := { fd := 5, rbuf := [73, 78, 67, 82, 32, 97, 13, 10] }

/-- A call that writes three bytes, fails to write more, and writes the whole request on a second
connection, where the upstream receives it. -/
theorem executed_le_incr : ∃ w : Call,
    callSystem.run (Call.start incrClient none)
      [.turn (.connect (some 7)), .turn (.write (.wrote 3) false), .receive 0 3,
        .turn (.write .error false), .turn (.connect (some 8)),
        .turn (.write (.wrote 8) false), .receive 0 8] = some w ∧
      w.executed = 1 ∧ w.executed ≤ 1 := by
  have hinit : callSystem.init (Call.start incrClient none) := ⟨incrClient, none, by decide, rfl⟩
  have hrun : (callSystem.run (Call.start incrClient none)
      [.turn (.connect (some 7)), .turn (.write (.wrote 3) false), .receive 0 3,
        .turn (.write .error false), .turn (.connect (some 8)),
        .turn (.write (.wrote 8) false), .receive 0 8]).map
      (fun w => (w.executed, w.replyLost)) = some (1, false) := by
    decide +kernel
  obtain ⟨w, hw, h⟩ := Option.map_eq_some_iff.mp hrun
  obtain ⟨h1, hlost⟩ := Prod.mk.inj h
  have hreach : callSystem.Reach Call.ValidStep w := .run (.init hinit) (by decide +kernel) hw
  exact ⟨w, hw, h1, (executed_le w hreach).2 hlost⟩

/-- A call that connects, writes, and gets EOF before the reply, and then connects and writes
again, while the upstream receives what is written. -/
def incrTwice : List CallLabel :=
  [.turn (.connect (some 7)), .turn (.write (.wrote 8) false), .receive 0 8, .turn (.read .eof),
    .turn (.connect (some 8)), .turn (.write (.wrote 8) false), .receive 0 8]

/-- A call can make the upstream execute the request twice. -/
theorem executed_twice : ∃ w : Call, callSystem.Reach Call.ValidStep w ∧ w.executed = 2 := by
  have hinit : callSystem.init (Call.start incrClient none) := ⟨incrClient, none, by decide, rfl⟩
  have hrun : (callSystem.run (Call.start incrClient none) incrTwice).map Call.executed =
      some 2 := by
    decide +kernel
  obtain ⟨w, hw, h2⟩ := Option.map_eq_some_iff.mp hrun
  exact ⟨w, .run (.init hinit) (by decide +kernel) hw, h2⟩

end MgCommonUtils.RedisProxy
