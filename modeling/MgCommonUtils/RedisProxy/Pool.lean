import MgCommonUtils.RedisProxy.Call
import MgCommonUtils.RedisProxy.Upstream

/-!
# The workers and their connections to the upstream

The workers of the proxy (`IOThreadEntryPoint` of `redis-proxy/redis.c`): each takes the first job
of `io_newjobs`, runs `_redisCommandProc` on it, and hands it to `io_processed`. Each keeps its
connection to the upstream for its next job. The main thread queues any request that the request
validator accepts. The upstream receives what is written with any delay, executes the frames of
the stream in order, and answers each command with any reply of the protocol. The replies arrive
in pieces of any size, with any delay, and a connection can fail at any time.

The answer that a job ends with should be the upstream's answer to a command of that job
(`Worker.Attributed`). A worker that starts a job on a used connection relies on the connection
having nothing left over from earlier jobs. The request validator does not see to that: it accepts
several inline commands as one request. Then one answer is left unread, and the worker takes it for
the answer to its next job (`answer_of_other_job`). `answer_of_own_job` proves the attribution for
every run in which each queued request has at most one command, with nothing left over behind it.
-/

namespace MgCommonUtils.RedisProxy

open MgCommonUtils.Lib MgCommonUtils.EventLoop

/-- The replies that the upstream can send. -/
abbrev ValidReply := {r : Reply // r.Valid}

/-- The answer to the command at the positions from `start` to `stop` of a connection's stream. -/
structure Answer where
  /-- Where the command starts. -/
  start : ℕ
  /-- Where the command ends. -/
  stop : ℕ
  /-- The reply. -/
  reply : ValidReply

/-- A connection to the upstream. -/
structure Link where
  /-- What was written on it. -/
  sent : Bytes := []
  /-- How much of it the upstream has received. -/
  received : ℕ := 0
  /-- How much of it the upstream has executed. -/
  consumed : ℕ := 0
  /-- The answers of the upstream. -/
  answers : List Answer := []
  /-- How many bytes of the answers were read. -/
  nread : ℕ := 0
  /-- Where the request of the worker's current attempt starts. -/
  base : ℕ := 0

/-- Answers on the wire. -/
def encodeAnswers (answers : List Answer) : Bytes := answers.flatMap fun a => a.reply.1.encode

/-- What the upstream has received and not executed. -/
def Link.available (k : Link) : Bytes := (k.sent.take k.received).drop k.consumed

/-- The upstream executes the next frame, and answers with the reply if it is a command. -/
def Link.execute (U : Upstream) (k : Link) (r : ValidReply) : Option Link :=
  (U.framing.next k.available).map fun n =>
    { k with
      consumed := k.consumed + n
      answers := if U.isCommand (k.available.take n) then
        k.answers ++ [⟨k.consumed, k.consumed + n, r⟩] else k.answers }

/-- What a read can return of the answers. -/
def Link.Delivers (k : Link) : Sys → Prop
  | .read (.data bytes) => bytes <+: (encodeAnswers k.answers).drop k.nread
  | _ => True

/-- Whether a read can return it can be computed. -/
instance (k : Link) (s : Sys) : Decidable (k.Delivers s) := by
  unfold Link.Delivers
  split <;> infer_instance

/-- The connection after a turn: a new one, or the old one with what was written and read. -/
def linkAfter (p : Proc) (s : Sys) (k : Link) : Link :=
  match s with
  | .connect (some _) => {}
  | .read (.data bytes) => { k with nread := k.nread + bytes.length }
  | s => { k with sent := k.sent ++ writtenBy p s }

/-- A worker. -/
structure Worker where
  /-- `*privptr` between jobs. -/
  fd : Option ℕ := none
  /-- The connection, where there is one. -/
  link : Link := {}
  /-- The call of `_redisCommandProc` on the job that the worker holds. -/
  job : Option Proc := none

/-- The steps of a worker that holds a job, and of its connection. -/
inductive WorkerLabel where
  /-- A turn of the procedure. -/
  | turn (s : Sys)
  /-- The upstream receives `n` more bytes. -/
  | receive (n : ℕ)
  /-- The upstream executes the next frame. -/
  | execute (r : ValidReply)

/-- One step of a worker and its connection. -/
def workerStep (U : Upstream) (w : Worker) : WorkerLabel → Option Worker
  | .turn s =>
    match w.job with
    | none => none
    | some p =>
      if s.Valid p ∧ w.link.Delivers s then
        (procStep p s).map fun p' => { w with link := linkAfter p s w.link, job := some p' }
      else none
  | .receive n =>
    if w.link.received + n ≤ w.link.sent.length then
      some { w with link := { w.link with received := w.link.received + n } }
    else none
  | .execute r => (w.link.execute U r).map fun k => { w with link := k }

/-- The queues and the workers. -/
structure Pool (ι : Type*) where
  /-- `io_newjobs`. -/
  io_newjobs : List RedisClient := []
  /-- The workers. -/
  workers : ι → Worker
  /-- `io_processed`. -/
  io_processed : List RedisClient := []

/-- The steps of the queues and the workers. -/
inductive PoolLabel (ι : Type*) where
  /-- The main thread queues the client `fd` with its request. -/
  | queue (fd : ℕ) (rbuf : Bytes)
  /-- A worker takes the first job. -/
  | take (i : ι)
  /-- A step of a worker and its connection. -/
  | work (i : ι) (l : WorkerLabel)
  /-- A worker hands its job to `io_processed`. -/
  | finish (i : ι)

variable {ι : Type*} [DecidableEq ι]

/-- A worker takes a job. -/
def Worker.take (w : Worker) (c : RedisClient) : Worker :=
  { w with
    link := { w.link with base := w.link.sent.length }
    job := some (redisCommandProc c w.fd) }

/-- One step of the queues and the workers. -/
def poolStep (U : Upstream) (x : Pool ι) : PoolLabel ι → Option (Pool ι)
  | .queue fd rbuf =>
    if processRequestBuffer rbuf = .ok 1 then
      some { x with io_newjobs := x.io_newjobs ++ [{ fd := fd, rbuf := rbuf }] }
    else none
  | .take i =>
    match x.io_newjobs, (x.workers i).job with
    | c :: rest, none =>
      some { x with
        io_newjobs := rest
        workers := Function.update x.workers i ((x.workers i).take c) }
    | _, _ => none
  | .work i l => (workerStep U (x.workers i) l).map fun w =>
      { x with workers := Function.update x.workers i w }
  | .finish i =>
    match (x.workers i).job with
    | none => none
    | some p =>
      if p.phase = .returned then
        some { x with
          workers := Function.update x.workers i { x.workers i with fd := p.fd, job := none }
          io_processed := x.io_processed ++ [p.client] }
      else none

/-- The queues and the workers: at the start, nothing is queued, and each worker has a new
connection or none. -/
def poolSystem (U : Upstream) (ι : Type*) [DecidableEq ι] : Lts (Pool ι) (PoolLabel ι) where
  init x := x.io_newjobs = [] ∧ x.io_processed = [] ∧ ∀ i, ∃ fd, x.workers i = { fd := fd }
  step := poolStep U

/-- When the worker's job has ended, its reply is the error text, or else the request was written
on the worker's connection, and the reply is the upstream's answer to a command in it. -/
def Worker.Attributed (w : Worker) : Prop :=
  ∀ p ∈ w.job, p.phase = .returned → p.client.wbuf ≠ CONN_ERR →
    w.link.sent.drop w.link.base = p.client.rbuf ∧
      ∃ a ∈ w.link.answers, w.link.base ≤ a.start ∧
        a.stop ≤ w.link.base + p.client.rbuf.length ∧ p.client.wbuf = a.reply.1.encode

/-- Whether the job's reply is attributed can be computed. -/
instance (w : Worker) : Decidable w.Attributed :=
  match h : w.job with
  | none => .isTrue (by simp [Worker.Attributed, h])
  | some p =>
    decidable_of_iff (p.phase = .returned → p.client.wbuf ≠ CONN_ERR →
      w.link.sent.drop w.link.base = p.client.rbuf ∧
        ∃ a ∈ w.link.answers, w.link.base ≤ a.start ∧
          a.stop ≤ w.link.base + p.client.rbuf.length ∧ p.client.wbuf = a.reply.1.encode)
      (by simp [Worker.Attributed, h])

/-! ## A connection between jobs and during a job -/

/-- The upstream has received what was written, and executed what was received, at most. -/
structure Link.Wf (k : Link) : Prop where
  /-- What is executed was received. -/
  consumed : k.consumed ≤ k.received
  /-- What is received was written. -/
  received : k.received ≤ k.sent.length

/-- A connection with nothing left over: all answers were read, and none is to come. -/
structure Link.Clean (U : Upstream) (k : Link) : Prop where
  /-- All answers were read. -/
  nread : k.nread = (encodeAnswers k.answers).length
  /-- No answer is to come. -/
  quiet : U.Quiet (k.sent.drop k.consumed)

/-- A connection on which the request `R` is served, of which the first `n` bytes were written, and
`wbuf` was read in return. When all is written, the upstream executes `P`, which was left over and
has no commands, and then what remains of the request, `Q`. The answers are those of earlier jobs,
`olds`, and those of this one, `news`. -/
structure Link.Serves (U : Upstream) (k : Link) (R : Bytes) (n : ℕ) (wbuf P Q : Bytes)
    (olds news : List Answer) : Prop where
  /-- The request starts in the stream. -/
  base : k.base ≤ k.sent.length
  /-- A part of the request is written. -/
  sent : k.sent.drop k.base = R.take n
  /-- What is to be executed when all is written. -/
  todo : (k.sent.take k.base ++ R).drop k.consumed = P ++ Q
  /-- Nothing that is left over gets an answer. -/
  quiet : U.Quiet P
  /-- What remains of the request. -/
  length_le : Q.length ≤ R.length
  /-- Each command of the request was answered or remains. -/
  commands : news.length + (U.commands Q).length = (U.commands R).length
  /-- The request's end remains. -/
  rest : U.framing.rest Q = U.framing.rest R
  /-- The answers. -/
  answers : k.answers = olds ++ news
  /-- The answers of this job are to commands in its request. -/
  mem_news : ∀ a ∈ news, k.base ≤ a.start ∧ a.stop ≤ k.base + R.length
  /-- What was read is of this job. -/
  read : wbuf <+: encodeAnswers news
  /-- The answers of earlier jobs were read. -/
  nread : k.nread = (encodeAnswers olds).length + wbuf.length

/-- Answers one after the other. -/
theorem encodeAnswers_append (as bs : List Answer) :
    encodeAnswers (as ++ bs) = encodeAnswers as ++ encodeAnswers bs := List.flatMap_append

/-- The next frame of what is received is the next frame of the stream. -/
theorem Link.next_of_available {U : Upstream} {k : Link} {n : ℕ} {s : Bytes}
    (h : U.framing.next k.available = some n) (hs : k.sent <+: s) :
    U.framing.next (s.drop k.consumed) = some n ∧
      k.available.take n = (s.drop k.consumed).take n ∧ k.consumed + n ≤ k.received := by
  have hpre : k.available <+: s.drop k.consumed :=
    List.IsPrefix.drop ((List.take_prefix _ _).trans hs) _
  have hle := U.framing.next_le h
  obtain ⟨t, ht⟩ := hpre
  refine ⟨?_, ?_, ?_⟩
  · rw [← ht]
    exact U.framing.next_append t h
  · rw [← ht, List.take_append_of_le_length hle]
  · have hpos := U.framing.next_pos h
    rw [Link.available, List.length_drop, List.length_take] at hle
    omega

/-- Executing keeps the order of the positions. -/
theorem Link.Wf.execute {U : Upstream} {k k' : Link} {r : ValidReply} (hk : k.Wf)
    (h : k.execute U r = some k') : k'.Wf := by
  obtain ⟨n, hn, rfl⟩ := Option.map_eq_some_iff.mp h
  exact ⟨(Link.next_of_available hn List.prefix_rfl).2.2, hk.received⟩

/-- A clean connection stays clean when the upstream executes. -/
theorem Link.Clean.execute {U : Upstream} {k k' : Link} {r : ValidReply} (hk : k.Clean U)
    (h : k.execute U r = some k') : k'.Clean U ∧ k'.answers = k.answers := by
  obtain ⟨n, hn, rfl⟩ := Option.map_eq_some_iff.mp h
  obtain ⟨h1, h2, -⟩ := Link.next_of_available hn List.prefix_rfl
  have hne : k.sent.drop k.consumed ≠ [] := by
    intro h0
    have := U.framing.next_le h1
    have := U.framing.next_pos h1
    rw [h0, List.length_nil] at *
    omega
  obtain ⟨m, hm, hcmd, hq⟩ := hk.quiet.next hne
  obtain rfl : m = n := Option.some.inj (hm.symm.trans h1)
  rw [List.drop_drop] at hq
  have hans : (if U.isCommand (k.available.take m) then
      k.answers ++ [⟨k.consumed, k.consumed + m, r⟩] else k.answers) = k.answers := by
    rw [h2, hcmd]
    rfl
  exact ⟨⟨by dsimp only; rw [hans]; exact hk.nread, hq⟩, hans⟩

/-- What a job starts with on a clean connection. -/
theorem Link.Clean.serves {U : Upstream} {k : Link} (hk : k.Clean U) (hwf : k.Wf) (R : Bytes) :
    Link.Serves U { k with base := k.sent.length } R 0 [] (k.sent.drop k.consumed) R
      k.answers [] where
  base := le_refl _
  sent := by simp
  todo := by
    dsimp only
    rw [List.take_length]
    exact List.drop_append_of_le_length (hwf.consumed.trans hwf.received)
  quiet := hk.quiet
  length_le := le_refl _
  commands := by simp
  rest := rfl
  answers := by simp
  mem_news := by simp
  read := List.nil_prefix
  nread := by simpa using hk.nread

/-- What a job starts with on a new connection. -/
theorem Link.serves_new {U : Upstream} (R : Bytes) : Link.Serves U {} R 0 [] [] R [] [] where
  base := le_refl _
  sent := by simp
  todo := by simp
  quiet := Upstream.quiet_nil
  length_le := le_refl _
  commands := by simp
  rest := rfl
  answers := rfl
  mem_news := by simp
  read := List.nil_prefix
  nread := by simp [encodeAnswers]

/-- The stream as far as it is written. -/
theorem Link.Serves.sent_prefix {U : Upstream} {k : Link} {R wbuf P Q : Bytes} {n : ℕ}
    {olds news : List Answer} (hk : k.Serves U R n wbuf P Q olds news) :
    k.sent <+: k.sent.take k.base ++ R := by
  conv_lhs => rw [← List.take_append_drop k.base k.sent, hk.sent]
  exact (List.prefix_append_right_inj _).mpr (List.take_prefix _ _)

/-- A request is still served when the upstream executes. -/
theorem Link.Serves.execute {U : Upstream} {k k' : Link} {R wbuf P Q : Bytes} {n : ℕ}
    {olds news : List Answer} {r : ValidReply} (hk : k.Serves U R n wbuf P Q olds news) (hwf : k.Wf)
    (h : k.execute U r = some k') :
    ∃ P' Q' news', k'.Serves U R n wbuf P' Q' olds news' := by
  obtain ⟨m, hm, rfl⟩ := Option.map_eq_some_iff.mp h
  obtain ⟨h1, h2, h3⟩ := Link.next_of_available hm hk.sent_prefix
  have hdrop : (k.sent.take k.base ++ R).drop (k.consumed + m) = (P ++ Q).drop m := by
    rw [← List.drop_drop, hk.todo]
  rw [hk.todo] at h1 h2
  by_cases hP : P = []
  case neg =>
    -- The frame is one of those left over, so it gets no answer.
    obtain ⟨m', hm', hcmd, hq⟩ := hk.quiet.next hP
    obtain rfl : m' = m := Option.some.inj ((U.framing.next_append Q hm').symm.trans h1)
    have hle := U.framing.next_le hm'
    rw [List.take_append_of_le_length hle] at h2
    refine ⟨P.drop m', Q, news, { hk with
      todo := by rw [hdrop, List.drop_append_of_le_length hle]
      quiet := hq
      answers := by dsimp only; rw [h2, hcmd]; exact hk.answers }⟩
  case pos =>
    -- The frame is the next of the request.
    subst hP
    rw [List.nil_append] at h1 h2 hdrop
    have hle := U.framing.next_le h1
    have hcmds := hk.commands
    rw [Upstream.commands_of_next h1] at hcmds
    have hrest := hk.rest
    rw [Framing.rest_some h1] at hrest
    have hlen : k.base + R.length = k.consumed + Q.length := by
      have htodo := congrArg List.length hk.todo
      have hbase := hk.base
      have hc : k.consumed ≤ k.received := hwf.consumed
      have hsent := hk.sent_prefix.length_le
      have hr := hwf.received
      simp only [List.length_drop, List.length_append, List.length_take, List.nil_append]
        at htodo hsent
      omega
    have hQ := hk.length_le
    by_cases hcmd : U.isCommand (Q.take m) = true
    · refine ⟨[], Q.drop m, news ++ [⟨k.consumed, k.consumed + m, r⟩], { hk with
        todo := by rw [hdrop, List.nil_append]
        length_le := by rw [List.length_drop]; omega
        commands := by
          rw [if_pos hcmd, List.length_cons] at hcmds
          rw [List.length_append, List.length_singleton]
          omega
        rest := hrest
        answers := by dsimp only; rw [h2, if_pos hcmd, hk.answers, List.append_assoc]
        mem_news := fun a ha => ?_
        read := by
          rw [encodeAnswers_append]
          exact hk.read.trans (List.prefix_append _ _) }⟩
      rcases List.mem_append.mp ha with ha | ha
      · exact hk.mem_news a ha
      · obtain rfl := List.mem_singleton.mp ha
        dsimp only
        omega
    · exact ⟨[], Q.drop m, news, { hk with
        todo := by rw [hdrop, List.nil_append]
        length_le := by rw [List.length_drop]; omega
        commands := by rwa [if_neg hcmd] at hcmds
        rest := hrest
        answers := by dsimp only; rw [h2, if_neg hcmd]; exact hk.answers }⟩

/-- A request is still served when more of it is written. -/
theorem Link.Serves.write {U : Upstream} {k : Link} {R wbuf P Q : Bytes} {n m : ℕ}
    {olds news : List Answer} (hk : k.Serves U R n wbuf P Q olds news) :
    Link.Serves U { k with sent := k.sent ++ (R.drop n).take m } R (n + m) wbuf P Q olds news := by
  have htake : (k.sent ++ (R.drop n).take m).take k.base = k.sent.take k.base :=
    List.take_append_of_le_length hk.base
  exact { hk with
    base := by
      have := hk.base
      dsimp only
      rw [List.length_append]
      omega
    sent := by
      dsimp only
      rw [List.drop_append_of_le_length hk.base, hk.sent, List.take_add]
    todo := by dsimp only; rw [htake]; exact hk.todo }

/-- A request is still served when a part of the answer is read. -/
theorem Link.Serves.deliver {U : Upstream} {k : Link} {R wbuf P Q bytes : Bytes} {n : ℕ}
    {olds news : List Answer} (hk : k.Serves U R n wbuf P Q olds news)
    (hb : bytes <+: (encodeAnswers k.answers).drop k.nread) :
    Link.Serves U { k with nread := k.nread + bytes.length } R n (wbuf ++ bytes) P Q olds news := by
  obtain ⟨t, ht⟩ := hk.read
  rw [hk.answers, encodeAnswers_append, hk.nread, ← ht, ← List.drop_drop, List.drop_left,
    List.drop_left] at hb
  exact { hk with
    read := by
      rw [← ht]
      exact (List.prefix_append_right_inj _).mpr hb
    nread := by
      dsimp only
      rw [hk.nread, List.length_append, add_assoc] }

/-- The end of a job: when the request has one command at most and the validator takes what was
read for a whole reply, this is the answer to a command of the request, and the connection is
clean. -/
theorem Link.Serves.done {U : Upstream} {k : Link} {R wbuf P Q : Bytes}
    {olds news : List Answer} (hk : k.Serves U R R.length wbuf P Q olds news)
    (hone : U.OneCommand R) (hne : wbuf ≠ [])
    (hv : processResponseBuffer wbuf = .ok 1) :
    (∃ a ∈ k.answers, k.base ≤ a.start ∧ a.stop ≤ k.base + R.length ∧ wbuf = a.reply.1.encode) ∧
      k.Clean U := by
  have hcmds := hk.commands
  have hpre := hk.read
  obtain ⟨a, rfl⟩ : ∃ a, news = [a] := by
    match news, hcmds, hpre with
    | [], _, hpre => exact absurd (List.prefix_nil.mp hpre) hne
    | [a], _, _ => exact ⟨a, rfl⟩
    | _ :: _ :: _, hcmds, _ =>
      simp only [List.length_cons] at hcmds
      rcases hone with h | h
      · rw [h, List.length_nil] at hcmds
        omega
      · omega
  have hone' : (U.commands R).length = 1 ∧ U.framing.rest R = [] := by
    rcases hone with h | h
    · rw [h] at hcmds
      simp at hcmds
    · exact h
  -- What was read is the whole answer.
  have hw : wbuf = a.reply.1.encode := by
    by_contra hcut
    refine processResponseBuffer_cut_ne_one a.reply.2 ?_ hne hcut hv
    simpa [encodeAnswers] using hpre
  refine ⟨⟨a, by rw [hk.answers]; simp, (hk.mem_news a (by simp)).1, (hk.mem_news a (by simp)).2,
    hw⟩, ⟨?_, ?_⟩⟩
  · rw [hk.nread, hk.answers, encodeAnswers_append, List.length_append, hw]
    simp [encodeAnswers]
  · have hsent : k.sent = k.sent.take k.base ++ R := by
      conv_lhs => rw [← List.take_append_drop k.base k.sent, hk.sent, List.take_length]
    have hQ : U.Quiet Q := by
      refine ⟨List.length_eq_zero_iff.mp ?_, by rw [hk.rest, hone'.2]⟩
      rw [List.length_singleton] at hcmds
      omega
    rw [hsent, hk.todo]
    exact hk.quiet.append hQ

/-! ## A worker's runs -/

/-- A job as it is queued: its request is not empty, and it has at most one command with nothing
left over behind it. There is no reply yet. -/
structure QueuedJob (U : Upstream) (c : RedisClient) : Prop where
  /-- The request is not empty. -/
  rbuf_ne_nil : c.rbuf ≠ []
  /-- The request has at most one command. -/
  oneCommand : U.OneCommand c.rbuf
  /-- There is no reply. -/
  wbuf_nil : c.wbuf = []

/-- What holds of a worker's job and its connection, in each phase of the procedure. -/
def Worker.JobInv (U : Upstream) (k : Link) (p : Proc) : Prop :=
  match p.phase with
  | .connecting => p.client.wbuf = []
  | .writing n => n < p.client.rbuf.length ∧ p.client.wbuf = [] ∧
      ∃ P Q olds news, k.Serves U p.client.rbuf n [] P Q olds news
  | .reading => ∃ P Q olds news,
      k.Serves U p.client.rbuf p.client.rbuf.length p.client.wbuf P Q olds news
  | .returned => p.fd.isSome → k.Clean U
  | .aborted _ => True

/-- What holds of a worker at all times. -/
structure Worker.Inv (U : Upstream) (w : Worker) : Prop where
  /-- The positions on the connection are in order. -/
  wf : w.link.Wf
  /-- Between jobs, the connection is clean. -/
  idle : w.job = none → w.fd.isSome → w.link.Clean U
  /-- During a job, the request is as it was queued. -/
  request : ∀ p ∈ w.job, p.client.rbuf ≠ [] ∧ U.OneCommand p.client.rbuf
  /-- During a job, the connection serves it. -/
  job : ∀ p ∈ w.job, JobInv U w.link p
  /-- At the end of a job, the reply is attributed. -/
  attributed : w.Attributed

/-- A worker at the start. -/
theorem Worker.inv_init (U : Upstream) (fd : Option ℕ) : Worker.Inv U { fd := fd } where
  wf := ⟨le_refl _, le_refl _⟩
  idle _ _ := ⟨rfl, by simpa using Upstream.quiet_nil⟩
  request := by simp
  job := by simp
  attributed := by simp [Worker.Attributed]

/-- A worker that takes a job. -/
theorem Worker.Inv.take {U : Upstream} {w : Worker} {c : RedisClient} (hw : w.Inv U)
    (hjob : w.job = none) (hc : QueuedJob U c) : (w.take c).Inv U where
  wf := ⟨hw.wf.consumed, hw.wf.received⟩
  idle := by simp [Worker.take]
  request p hp := by
    obtain rfl := Option.some.inj hp
    exact ⟨hc.rbuf_ne_nil, hc.oneCommand⟩
  job p hp := by
    obtain rfl := Option.some.inj hp
    cases hfd : w.fd with
    | none => simpa [Worker.JobInv, redisCommandProc, again] using hc.wbuf_nil
    | some fd =>
      have hclean := hw.idle hjob (by simp [hfd])
      exact ⟨List.length_pos_iff.mpr hc.rbuf_ne_nil, hc.wbuf_nil, _, _, _, _,
        hclean.serves hw.wf c.rbuf⟩
  attributed := by
    intro p hp hph
    obtain rfl := Option.some.inj hp
    cases hfd : w.fd <;> simp [redisCommandProc, again, hfd] at hph

/-- A worker that hands its job on. -/
theorem Worker.Inv.finish {U : Upstream} {w : Worker} {p : Proc} (hw : w.Inv U)
    (hjob : w.job = some p) (hph : p.phase = .returned) :
    Worker.Inv U { w with fd := p.fd, job := none } where
  wf := hw.wf
  idle _ hfd := by
    have h := hw.job p hjob
    rw [Worker.JobInv, hph] at h
    exact h hfd
  request := by simp
  job := by simp
  attributed := by simp [Worker.Attributed]

/-- The upstream receives more. -/
theorem Worker.Inv.receive {U : Upstream} {w : Worker} {n : ℕ} (hw : w.Inv U)
    (hn : w.link.received + n ≤ w.link.sent.length) :
    Worker.Inv U { w with link := { w.link with received := w.link.received + n } } where
  wf := ⟨hw.wf.consumed.trans (Nat.le_add_right _ _), hn⟩
  idle hjob hfd := by
    have h := hw.idle hjob hfd
    exact ⟨h.nread, h.quiet⟩
  request := hw.request
  job p hp := by
    have h := hw.job p hp
    unfold Worker.JobInv at h ⊢
    split at h
    · exact h
    · obtain ⟨h1, h2, P, Q, olds, news, hs⟩ := h
      exact ⟨h1, h2, P, Q, olds, news, { hs with }⟩
    · obtain ⟨P, Q, olds, news, hs⟩ := h
      exact ⟨P, Q, olds, news, { hs with }⟩
    · exact fun hfd => ⟨(h hfd).nread, (h hfd).quiet⟩
    · trivial
  attributed := hw.attributed

/-- Executing changes nothing that was written, and loses no answer. -/
theorem Link.execute_answers {U : Upstream} {k k' : Link} {r : ValidReply}
    (h : k.execute U r = some k') :
    k'.sent = k.sent ∧ k'.base = k.base ∧ k.answers ⊆ k'.answers := by
  obtain ⟨n, -, rfl⟩ := Option.map_eq_some_iff.mp h
  refine ⟨rfl, rfl, ?_⟩
  dsimp only
  split_ifs
  · exact List.subset_append_left _ _
  · exact List.Subset.refl _

/-- The upstream executes. -/
theorem Worker.Inv.execute {U : Upstream} {w : Worker} {k : Link} {r : ValidReply} (hw : w.Inv U)
    (hk : w.link.execute U r = some k) : Worker.Inv U { w with link := k } where
  wf := hw.wf.execute hk
  idle hjob hfd := ((hw.idle hjob hfd).execute hk).1
  request := hw.request
  job p hp := by
    have h := hw.job p hp
    unfold Worker.JobInv at h ⊢
    split at h
    · exact h
    · obtain ⟨h1, h2, P, Q, olds, news, hs⟩ := h
      obtain ⟨P', Q', news', hs'⟩ := hs.execute hw.wf hk
      exact ⟨h1, h2, P', Q', olds, news', hs'⟩
    · obtain ⟨P, Q, olds, news, hs⟩ := h
      obtain ⟨P', Q', news', hs'⟩ := hs.execute hw.wf hk
      exact ⟨P', Q', olds, news', hs'⟩
    · exact fun hfd => ((h hfd).execute hk).1
    · trivial
  attributed p hp hph hne := by
    obtain ⟨h1, a, ha, h2⟩ := hw.attributed p hp hph hne
    obtain ⟨e1, e2, e3⟩ := Link.execute_answers hk
    dsimp only
    rw [e1, e2]
    exact ⟨h1, a, e3 ha, h2⟩

/-- A turn keeps the order of the positions. -/
theorem Link.Wf.linkAfter {k : Link} (hk : k.Wf) (p : Proc) (s : Sys) : (linkAfter p s k).Wf := by
  unfold RedisProxy.linkAfter
  split
  · exact ⟨le_refl _, le_refl _⟩
  · exact ⟨hk.consumed, hk.received⟩
  · refine ⟨hk.consumed, ?_⟩
    have := hk.received
    dsimp only
    rw [List.length_append]
    omega

/-- A turn in which nothing is written and nothing is read. -/
theorem linkAfter_eq {p : Proc} {s : Sys} (k : Link) (h1 : ∀ fd, s ≠ .connect (some fd))
    (h2 : ∀ bytes, s ≠ .read (.data bytes)) (h3 : writtenBy p s = []) : linkAfter p s k = k := by
  unfold linkAfter
  split
  case h_1 fd => exact absurd rfl (h1 fd)
  case h_2 bytes => exact absurd rfl (h2 bytes)
  case h_3 => rw [h3, List.append_nil]

/-- A job that has not returned has nothing to be attributed. -/
theorem Worker.attributed_of_phase {w : Worker} {p : Proc} (hp : w.job = some p)
    (hph : p.phase ≠ .returned) : w.Attributed := by
  intro p' hp' hret
  obtain rfl := Option.some.inj (hp.symm.trans hp')
  exact absurd hret hph

/-- A turn of the procedure. -/
theorem Worker.Inv.turn {U : Upstream} {w : Worker} {p p' : Proc} {s : Sys} (hw : w.Inv U)
    (hp : w.job = some p) (hvalid : s.Valid p) (hdel : w.link.Delivers s)
    (h : procStep p s = some p') :
    Worker.Inv U { w with link := linkAfter p s w.link, job := some p' } := by
  have hjob := hw.job p hp
  have hreq := hw.request p hp
  have hwf := hw.wf.linkAfter p s
  -- What remains to be shown of the job: its request is the same, and so on.
  suffices hnew : p'.client.rbuf = p.client.rbuf ∧ Worker.JobInv U (linkAfter p s w.link) p' ∧
      Worker.Attributed { w with link := linkAfter p s w.link, job := some p' } by
    obtain ⟨h1, h2, h3⟩ := hnew
    refine ⟨hwf, by simp, fun q hq => ?_, fun q hq => ?_, h3⟩
    · obtain rfl := Option.some.inj hq
      rwa [h1]
    · obtain rfl := Option.some.inj hq
      exact h2
  unfold Worker.JobInv at hjob
  cases turn_of_procStep h with
  | connect fd hph =>
    rw [hph] at hjob
    exact ⟨rfl, ⟨List.length_pos_iff.mpr hreq.1, hjob, _, _, _, _, Link.serves_new _⟩,
      Worker.attributed_of_phase rfl (by simp)⟩
  | wrote nwrite rc hph hrc =>
    rw [hph] at hjob
    obtain ⟨hlt, hnil, P, Q, olds, news, hs⟩ := hjob
    have hrc' : rc ≤ p.client.rbuf.length - nwrite := by
      have hval : rc ≤ p.client.rbuf.length - p.nwrite := hvalid
      rwa [show p.nwrite = nwrite by simp [Proc.nwrite, hph]] at hval
    have hs' := hs.write (m := rc)
    have hlink : linkAfter p (.write (.wrote rc) false) w.link =
        { w.link with sent := w.link.sent ++ (p.client.rbuf.drop nwrite).take rc } := by
      simp [linkAfter, writtenBy, hph]
    refine ⟨rfl, ?_, Worker.attributed_of_phase rfl (by dsimp only; split_ifs <;> simp)⟩
    rw [hlink]
    by_cases hall : nwrite + rc = p.client.rbuf.length
    · simp only [Worker.JobInv, if_pos hall, hnil]
      rw [hall] at hs'
      exact ⟨P, Q, olds, news, hs'⟩
    · simp only [Worker.JobInv, if_neg hall]
      exact ⟨by omega, hnil, P, Q, olds, news, hs'⟩
  | wroteNothing nwrite r hph hr =>
    have hnone : writtenBy p (.write r false) = [] := by
      rcases hr with rfl | rfl <;> simp [writtenBy, hph]
    rw [linkAfter_eq w.link (by simp) (by simp) hnone]
    exact ⟨rfl, hw.job p hp, Worker.attributed_of_phase rfl (by simp [hph])⟩
  | readNothing hph =>
    rw [linkAfter_eq w.link (by simp) (by simp) (writtenBy_of_phase (by simp [hph]))]
    exact ⟨rfl, hw.job p hp, Worker.attributed_of_phase rfl (by simp [hph])⟩
  | retryWrite nwrite hph htry =>
    rw [hph] at hjob
    exact ⟨rfl, by simpa [Worker.JobInv, again] using hjob.2.1,
      Worker.attributed_of_phase rfl (by simp [again])⟩
  | retryRead r hph hr htry =>
    exact ⟨rfl, by simp [Worker.JobInv, again], Worker.attributed_of_phase rfl (by simp [again])⟩
  | giveUp _ hph hs =>
    refine ⟨rfl, by simp [Worker.JobInv, giveUp], fun q hq _ hne => ?_⟩
    obtain rfl := Option.some.inj hq
    exact absurd rfl hne
  | abort r wbuf why hph =>
    exact ⟨rfl, by simp [Worker.JobInv], Worker.attributed_of_phase rfl (by simp)⟩
  | data bytes v hph hv =>
    rw [hph] at hjob
    obtain ⟨P, Q, olds, news, hs⟩ := hjob
    have hs' := hs.deliver hdel
    have hne : p.client.wbuf ++ bytes ≠ [] := by simp [hvalid.1]
    have hlink : linkAfter p (.read (.data bytes)) w.link =
        { w.link with nread := w.link.nread + bytes.length } := rfl
    rw [hlink]
    by_cases h1 : v = 1
    · -- The reply is whole: it is the answer to the command of this job.
      subst h1
      obtain ⟨ha, hclean⟩ := hs'.done hreq.2 hne hv
      refine ⟨rfl, by simpa [Worker.JobInv] using fun _ => hclean, fun q hq _ _ => ?_⟩
      obtain rfl := Option.some.inj hq
      exact ⟨by simpa using hs'.sent, ha⟩
    · rw [if_neg h1]
      exact ⟨rfl, ⟨P, Q, olds, news, hs'⟩, Worker.attributed_of_phase rfl (by simp)⟩

/-- A step of a worker and its connection. -/
theorem Worker.Inv.step {U : Upstream} {w w' : Worker} {l : WorkerLabel} (hw : w.Inv U)
    (h : workerStep U w l = some w') : w'.Inv U := by
  cases l with
  | turn s =>
    cases hp : w.job with
    | none => simp [workerStep, hp] at h
    | some p =>
      simp only [workerStep, hp] at h
      split_ifs at h with hok
      obtain ⟨p', hp', rfl⟩ := Option.map_eq_some_iff.mp h
      exact hw.turn hp hok.1 hok.2 hp'
  | receive n =>
    simp only [workerStep] at h
    split_ifs at h with hn
    obtain rfl := Option.some.inj h
    exact hw.receive hn
  | execute r =>
    obtain ⟨k, hk, rfl⟩ := Option.map_eq_some_iff.mp h
    exact hw.execute hk

/-! ## Attribution -/

/-- The requests that the main thread queues have at most one command each, with nothing left over
behind it. -/
def QueuesOneCommand (U : Upstream) (_ : Pool ι) : PoolLabel ι → Prop
  | .queue _ rbuf => U.OneCommand rbuf
  | _ => True

/-- What holds of the queues and the workers at all times. -/
structure Pool.Inv (U : Upstream) (x : Pool ι) : Prop where
  /-- The queued jobs. -/
  queued : ∀ c ∈ x.io_newjobs, QueuedJob U c
  /-- The workers. -/
  workers : ∀ i, (x.workers i).Inv U

/-- Replacing one worker. -/
theorem Pool.inv_update {U : Upstream} {x : Pool ι} (hx : ∀ i, (x.workers i).Inv U) {i : ι}
    {w : Worker} (hw : w.Inv U) (j : ι) : (Function.update x.workers i w j).Inv U := by
  by_cases hij : j = i
  · subst hij
    rwa [Function.update_self]
  · rw [Function.update_of_ne hij]
    exact hx j

/-- A request that the validator accepts is not empty. -/
theorem ne_nil_of_processRequestBuffer {rbuf : Bytes} (h : processRequestBuffer rbuf = .ok 1) :
    rbuf ≠ [] := by
  rintro rfl
  simp [processRequestBuffer, endsInCrlf] at h

/-- The invariant is kept by every step that queues only requests of one command. -/
theorem Pool.Inv.step {U : Upstream} {x x' : Pool ι} {l : PoolLabel ι} (hx : x.Inv U)
    (hl : QueuesOneCommand U x l) (h : poolStep U x l = some x') : x'.Inv U := by
  cases l with
  | queue fd rbuf =>
    simp only [poolStep] at h
    split_ifs at h with hval
    obtain rfl := Option.some.inj h
    refine ⟨fun c hc => ?_, hx.workers⟩
    rcases List.mem_append.mp hc with hc | hc
    · exact hx.queued c hc
    · obtain rfl := List.mem_singleton.mp hc
      exact ⟨ne_nil_of_processRequestBuffer hval, hl, rfl⟩
  | take i =>
    simp only [poolStep] at h
    split at h
    · rename_i c rest hjobs hidle
      obtain rfl := Option.some.inj h
      have hq := hx.queued
      rw [hjobs] at hq
      exact ⟨fun d hd => hq d (by simp [hd]),
        Pool.inv_update hx.workers ((hx.workers i).take hidle (hq c (by simp)))⟩
    · cases h
  | work i l =>
    obtain ⟨w, hw, rfl⟩ := Option.map_eq_some_iff.mp h
    exact ⟨hx.queued, Pool.inv_update hx.workers ((hx.workers i).step hw)⟩
  | finish i =>
    simp only [poolStep] at h
    split at h
    · cases h
    · rename_i p hp
      split_ifs at h with hph
      obtain rfl := Option.some.inj h
      exact ⟨hx.queued, Pool.inv_update hx.workers ((hx.workers i).finish hp hph)⟩

/-- In every run in which each queued request has at most one command with nothing left over
behind it, every job that ends with a reply other than the error text ends with the upstream's
answer to a command in its own request. -/
theorem answer_of_own_job (U : Upstream) (x : Pool ι)
    (hx : (poolSystem U ι).Reach (QueuesOneCommand U) x) (i : ι) : (x.workers i).Attributed := by
  have hinv : x.Inv U := by
    refine hx.invariant ?_ fun s a t hs ha h => Pool.Inv.step hs ha h
    rintro s ⟨hnew, -, hworkers⟩
    refine ⟨by simp [hnew], fun i => ?_⟩
    obtain ⟨fd, hfd⟩ := hworkers i
    rw [hfd]
    exact Worker.inv_init U fd
  exact (hinv.workers i).attributed

/-- An inline `PING`. -/
def ping : Bytes := [80, 73, 78, 71, 13, 10]

/-- An inline `GET a`. -/
def getA : Bytes := [71, 69, 84, 32, 97, 13, 10]

/-- `+PONG`. -/
def pong : ValidReply :=
  ⟨.line .status [80, 79, 78, 71],
    fun _ s h => by injection h with _ h; subst h; exact ⟨by decide, by decide⟩, by decide⟩

/-- A bulk of one byte. -/
def one : ValidReply := ⟨.bulk (some [49]), fun _ _ h => by injection h, by decide⟩

/-- One worker with no connection, and nothing queued. -/
def onePool : Pool Unit := { workers := fun _ => {} }

/-- One worker runs `PING` for one client. -/
theorem answer_of_own_job_ping : ∃ x : Pool Unit,
    (poolSystem redisUpstream Unit).run onePool
      [.queue 5 ping, .take (), .work () (.turn (.connect (some 9))),
        .work () (.turn (.write (.wrote 6) false)), .work () (.receive 6),
        .work () (.execute pong), .work () (.turn (.read (.data [43, 80, 79, 78, 71, 13, 10])))]
      = some x ∧
    (x.workers ()).job.map (fun p => (p.phase, p.client.wbuf)) =
      some (.returned, [43, 80, 79, 78, 71, 13, 10]) ∧ (x.workers ()).Attributed := by
  have hrun : ((poolSystem redisUpstream Unit).run onePool
      [.queue 5 ping, .take (), .work () (.turn (.connect (some 9))),
        .work () (.turn (.write (.wrote 6) false)), .work () (.receive 6),
        .work () (.execute pong),
        .work () (.turn (.read (.data [43, 80, 79, 78, 71, 13, 10])))]).map
      (fun x => (x.workers ()).job.map fun p => (p.phase, p.client.wbuf)) =
      some (some (.returned, [43, 80, 79, 78, 71, 13, 10])) := by
    decide +kernel
  obtain ⟨x, hx, hjob⟩ := Option.map_eq_some_iff.mp hrun
  have hping : redisUpstream.OneCommand ping :=
    Upstream.oneCommand_of_next (by decide +kernel) (by decide +kernel)
  refine ⟨x, hx, hjob, answer_of_own_job redisUpstream x (.run (.init ?_) ?_ hx) ()⟩
  · exact ⟨rfl, rfl, fun _ => ⟨none, rfl⟩⟩
  · refine Lts.runOk_of_forall (fun a ha s => ?_) _
    fin_cases ha
    · exact hping
    all_goals trivial

/-- One worker runs the job of a client that has sent `PING` and `GET a` in one piece. The answers
arrive in two pieces, and the first ends the job. Then the worker runs `PING` for another client,
and reads the second. -/
def leakedAnswer : List (PoolLabel Unit) :=
  [.queue 5 (ping ++ getA), .queue 6 ping, .take (), .work () (.turn (.connect (some 9))),
    .work () (.turn (.write (.wrote 13) false)), .work () (.receive 13),
    .work () (.execute pong), .work () (.execute one),
    .work () (.turn (.read (.data [43, 80, 79, 78, 71, 13, 10]))), .finish (), .take (),
    .work () (.turn (.write (.wrote 6) false)),
    .work () (.turn (.read (.data [36, 49, 13, 10, 49, 13, 10])))]

/-- A job can end with the answer to a command of another client's job. -/
theorem answer_of_other_job : ∃ x : Pool Unit,
    (poolSystem redisUpstream Unit).Reachable x ∧ ¬ (x.workers ()).Attributed := by
  have hrun : ((poolSystem redisUpstream Unit).run onePool leakedAnswer).map
      (fun x => decide (x.workers ()).Attributed) = some false := by
    decide +kernel
  obtain ⟨x, hx, hnot⟩ := Option.map_eq_some_iff.mp hrun
  refine ⟨x, .run (.init ?_) (Lts.runOk_of_forall (fun _ _ _ => trivial) _) hx,
    of_decide_eq_false hnot⟩
  exact ⟨rfl, rfl, fun _ => ⟨none, rfl⟩⟩

end MgCommonUtils.RedisProxy
