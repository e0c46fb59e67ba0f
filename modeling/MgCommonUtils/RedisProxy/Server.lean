import MgCommonUtils.Lib.Custody
import MgCommonUtils.Lib.Transition
import MgCommonUtils.RedisProxy.Request
import MgCommonUtils.RedisProxy.Client

/-!
# The server

The main thread and the workers of `redis-proxy/redis.c`. The main thread handles one event after
the other: a new connection, a readable or writable client, and the completion pipe. A client whose
request is full is unregistered and appended to `io_newjobs`. A worker takes it from there, runs
the command, appends it to `io_processed`, and writes a byte to the pipe. For each byte, the main
thread takes a client from `io_processed` and registers it for writing.

What a thread does under the lock, or between two points where another thread can run, is one step.
`MainPc` and `WorkerPc` say where the threads are between these steps. Clients are known by their
addresses. The heap says which addresses are live clients, and a step that would use an address
that is not is no step at all. So is one that ends the process.

The clients are items of `Lib.Custody`: the event table is their table, and the queues, the workers
and the main thread's handlers are the hands (`Server.custody`). Each step creates, checks out,
checks in or destroys a client, or passes it from hand to hand. From this
`client_in_one_place` follows.
-/

namespace MgCommonUtils.RedisProxy

open MgCommonUtils.Lib MgCommonUtils.EventLoop

/-- Where the main thread is. -/
inductive MainPc where
  /-- In the event loop. -/
  | idle
  /-- In `queueIOJob`, before it appends the client. -/
  | queueing (a : Addr)
  /-- In `queueIOJob`, before `noticeThreadedIO`. -/
  | signalling
  /-- In `vmThreadedIOCompletedJob`, before it reads a byte. -/
  | looping
  /-- In `vmThreadedIOCompletedJob`, before it takes a client. -/
  | taking
  /-- In `vmThreadedIOCompletedJob`, before it registers the client. -/
  | registering (a : Addr)
  deriving DecidableEq, Repr

/-- The client that the main thread is handling. -/
def MainPc.client : MainPc → Option Addr
  | .queueing a => some a
  | .registering a => some a
  | _ => none

/-- Where a worker is. -/
inductive WorkerPc where
  /-- Before it looks for a job. -/
  | polling
  /-- In `waitThreadedIO`. -/
  | waiting
  /-- In the command procedure. -/
  | holding (a : Addr)
  /-- After the command procedure. -/
  | ran (a : Addr)
  /-- Before it writes to the pipe. -/
  | notifying
  deriving DecidableEq, Repr

/-- The client that a worker holds. -/
def WorkerPc.client : WorkerPc → Option Addr
  | .holding a => some a
  | .ran a => some a
  | _ => none

/-- The state of the server. -/
structure Server where
  /-- The live clients. -/
  heap : Addr → Option RedisClient := fun _ => none
  /-- The event table. -/
  events : EventTable := fun _ => {}
  /-- `io_newjobs`. -/
  io_newjobs : List Addr := []
  /-- `io_processed`. -/
  io_processed : List Addr := []
  /-- The workers. -/
  workers : List WorkerPc
  /-- The number of bytes in the completion pipe. -/
  pipe : ℕ := 0
  /-- The main thread. -/
  main : MainPc := .idle

/-- The steps of a worker. -/
inductive WorkerAct where
  /-- It takes the first job, or waits if there is none. -/
  | take
  /-- It wakes up without a signal. -/
  | wake
  /-- The command procedure returns with a reply. -/
  | run (wbuf : Bytes)
  /-- It appends the client to `io_processed`. -/
  | append
  /-- It writes a byte to the pipe. -/
  | notify
  deriving DecidableEq, Repr

/-- The steps of the server. -/
inductive ServerLabel where
  /-- `acceptHandler`: a connection with the descriptor `fd`, and `calloc` returns `a`. -/
  | accept (fd : ℕ) (a : Addr)
  /-- `readQueryFromClient`. -/
  | readable (fd : ℕ) (r : ReadResult)
  /-- `sendReplyToClient`. -/
  | writable (fd : ℕ) (r : WriteResult)
  /-- `vmThreadedIOCompletedJob` is called. -/
  | completed
  /-- `queueIOJob` appends the client. -/
  | append
  /-- `noticeThreadedIO`, which wakes a worker up if one waits. -/
  | notice (i : Option ℕ)
  /-- `vmThreadedIOCompletedJob` reads a byte, or finds the pipe empty and returns. -/
  | readByte
  /-- `vmThreadedIOCompletedJob` takes the first client of `io_processed`. -/
  | takeProcessed
  /-- `vmThreadedIOCompletedJob` registers the client for writing. -/
  | register
  /-- A step of a worker. -/
  | worker (i : ℕ) (act : WorkerAct)
  deriving DecidableEq, Repr

/-- The record of a client changes. -/
def Server.setClient (s : Server) (a : Addr) (c : RedisClient) : Server :=
  { s with heap := Function.update s.heap a (some c) }

/-- `createClient`. -/
def createClient (s : Server) (fd : ℕ) (a : Addr) : Server :=
  { s.setClient a { fd := fd } with events := aeCreateFileEvent s.events fd .readable a }

/-- `freeClient`. -/
def freeClient (s : Server) (a : Addr) (c : RedisClient) : Server :=
  { s with
    heap := Function.update s.heap a none
    events := aeDeleteFileEvent (aeDeleteFileEvent s.events c.fd .readable) c.fd .writable }

/-- The calls on the event table in `resetClient`. -/
def resetEvents (s : Server) (a : Addr) (c : RedisClient) : Server :=
  let events := aeDeleteFileEvent (aeDeleteFileEvent s.events c.fd .writable) c.fd .readable
  { s with events := aeCreateFileEvent events c.fd .readable a }

/-- What the handler of a readable client does to the server. -/
def ReadAction.carryOut (s : Server) (a : Addr) (c : RedisClient) :
    ReadAction → Server × Option Addr
  | .wait => (s, none)
  | .queue => ({ s with
      events := aeDeleteFileEvent s.events c.fd .readable
      main := .queueing a }, none)
  | .free => (freeClient s a c, some a)

/-- What the handler of a writable client does to the server. -/
def WriteAction.carryOut (s : Server) (a : Addr) (c : RedisClient) :
    WriteAction → Server × Option Addr
  | .wait => (s, none)
  | .reset => (resetEvents s a c, none)
  | .free => (freeClient s a c, some a)

/-- A step of a worker. -/
def workerAct (s : Server) (i : ℕ) (act : WorkerAct) : Option Server :=
  match s.workers[i]?, act with
  | some .polling, .take =>
    match s.io_newjobs with
    | [] => some { s with workers := s.workers.set i .waiting }
    | a :: rest => some { s with io_newjobs := rest, workers := s.workers.set i (.holding a) }
  | some .waiting, .wake => some { s with workers := s.workers.set i .polling }
  | some (.holding a), .run wbuf =>
    match s.heap a with
    | none => none
    | some c => some { s.setClient a { c with wbuf := wbuf } with
        workers := s.workers.set i (.ran a) }
  | some (.ran a), .append => some { s with
      io_processed := s.io_processed ++ [a]
      workers := s.workers.set i .notifying }
  | some .notifying, .notify => some { s with
      pipe := s.pipe + 1
      workers := s.workers.set i .polling }
  | _, _ => none

/-- A step of the server, with the client that `freeClient` is applied to in it. -/
def serverStepFrees (ext : Validator) (s : Server) : ServerLabel → Option (Server × Option Addr)
  | .accept fd a => if s.main = .idle then some (createClient s fd a, none) else none
  | .readable fd r =>
    if s.main = .idle ∧ (s.events fd).readable then
      match s.heap (s.events fd).clientData with
      | none => none
      | some c =>
        match readQueryFromClient ext c r with
        | .error _ => none
        | .ok (c, act) =>
          let a := (s.events fd).clientData
          some (act.carryOut (s.setClient a c) a c)
    else none
  | .writable fd r =>
    if s.main = .idle ∧ (s.events fd).writable then
      match s.heap (s.events fd).clientData with
      | none => none
      | some c =>
        let a := (s.events fd).clientData
        let (c, act) := sendReplyToClient c r
        some (act.carryOut (s.setClient a c) a c)
    else none
  | .completed => if s.main = .idle ∧ 0 < s.pipe then some ({ s with main := .looping }, none)
    else none
  | .append =>
    match s.main with
    | .queueing a => some ({ s with io_newjobs := s.io_newjobs ++ [a], main := .signalling }, none)
    | _ => none
  | .notice i =>
    if s.main = .signalling then
      match i with
      | some i =>
        if s.workers[i]? = some .waiting then
          some ({ s with workers := s.workers.set i .polling, main := .idle }, none)
        else none
      | none => if .waiting ∈ s.workers then none else some ({ s with main := .idle }, none)
    else none
  | .readByte =>
    if s.main = .looping then
      if 0 < s.pipe then some ({ s with pipe := s.pipe - 1, main := .taking }, none)
      else some ({ s with main := .idle }, none)
    else none
  | .takeProcessed =>
    if s.main = .taking then
      match s.io_processed with
      | [] => none
      | a :: rest => some ({ s with io_processed := rest, main := .registering a }, none)
    else none
  | .register =>
    match s.main with
    | .registering a =>
      match s.heap a with
      | none => none
      | some c => some ({ s with
          events := aeCreateFileEvent s.events c.fd .writable a
          main := .looping }, none)
    | _ => none
  | .worker i act => (workerAct s i act).map fun s => (s, none)

/-- A step of the server. -/
def serverStep (ext : Validator) (s : Server) (l : ServerLabel) : Option Server :=
  (serverStepFrees ext s l).map Prod.fst

/-- What the system calls and `calloc` can return: a connection has a descriptor that no live
client has, and a new client an address that is not in use. -/
def Server.ValidStep (s : Server) : ServerLabel → Prop
  | .accept fd a => s.heap a = none ∧ ∀ b c, s.heap b = some c → c.fd ≠ fd
  | .readable _ r => r.Valid READ_BUF_LEN
  | .writable fd r => ∀ c ∈ s.heap (s.events fd).clientData, r.Valid (c.wbuf.length - c.wpos)
  | _ => True

/-- The server with `n` workers. -/
def serverSystem (ext : Validator) (n : ℕ) : Lts Server ServerLabel where
  init s := s = { workers := List.replicate n .polling }
  step := serverStep ext

/-! ## What one step does -/

/-- What one step of a worker does. -/
inductive WorkerStep (s : Server) (i : ℕ) : WorkerAct → Server → Prop
  /-- There is no job, and it waits. -/
  | wait (hi : s.workers[i]? = some .polling) (hjobs : s.io_newjobs = []) :
      WorkerStep s i .take { s with workers := s.workers.set i .waiting }
  /-- It takes the first job. -/
  | take (a : Addr) (rest : List Addr) (hi : s.workers[i]? = some .polling)
      (hjobs : s.io_newjobs = a :: rest) :
      WorkerStep s i .take { s with io_newjobs := rest, workers := s.workers.set i (.holding a) }
  /-- It wakes up. -/
  | wake (hi : s.workers[i]? = some .waiting) :
      WorkerStep s i .wake { s with workers := s.workers.set i .polling }
  /-- The command procedure has returned. -/
  | run (a : Addr) (wbuf : Bytes) (c : RedisClient) (hi : s.workers[i]? = some (.holding a))
      (hc : s.heap a = some c) :
      WorkerStep s i (.run wbuf) { s.setClient a { c with wbuf := wbuf } with
        workers := s.workers.set i (.ran a) }
  /-- It appends its client, and has the byte still to write. -/
  | append (a : Addr) (hi : s.workers[i]? = some (.ran a)) :
      WorkerStep s i .append { s with
        io_processed := s.io_processed ++ [a]
        workers := s.workers.set i .notifying }
  /-- It writes the byte. -/
  | notify (hi : s.workers[i]? = some .notifying) :
      WorkerStep s i .notify { s with
        pipe := s.pipe + 1
        workers := s.workers.set i .polling }

/-- Every step of a worker is one of these. -/
theorem workerStep_of_workerAct {s t : Server} {i : ℕ} {act : WorkerAct}
    (h : workerAct s i act = some t) : WorkerStep s i act t := by
  unfold workerAct at h
  split at h
  case h_1 hi =>
    split at h
    case h_1 hjobs => cases h; exact .wait hi hjobs
    case h_2 a rest hjobs => cases h; exact .take a rest hi hjobs
  case h_2 hi => cases h; exact .wake hi
  case h_3 a wbuf hi =>
    split at h
    case h_1 => cases h
    case h_2 c hc => cases h; exact .run a wbuf c hi hc
  case h_4 a hi => cases h; exact .append a hi
  case h_5 hi => cases h; exact .notify hi
  case h_6 => cases h

/-- What one step of the server does. -/
inductive ServerStep (ext : Validator) (s : Server) : ServerLabel → Server × Option Addr → Prop
  /-- A client is created. -/
  | accept (fd : ℕ) (a : Addr) (hmain : s.main = .idle) :
      ServerStep ext s (.accept fd a) (createClient s fd a, none)
  /-- The handler of a readable client runs. -/
  | readable (fd : ℕ) (r : ReadResult) (c c' : RedisClient) (act : ReadAction)
      (hmain : s.main = .idle) (hev : (s.events fd).readable = true)
      (hc : s.heap (s.events fd).clientData = some c)
      (hread : readQueryFromClient ext c r = .ok (c', act)) :
      ServerStep ext s (.readable fd r)
        (act.carryOut (s.setClient (s.events fd).clientData c') (s.events fd).clientData c')
  /-- The handler of a writable client runs. -/
  | writable (fd : ℕ) (r : WriteResult) (c c' : RedisClient) (act : WriteAction)
      (hmain : s.main = .idle) (hev : (s.events fd).writable = true)
      (hc : s.heap (s.events fd).clientData = some c)
      (hsend : sendReplyToClient c r = (c', act)) :
      ServerStep ext s (.writable fd r)
        (act.carryOut (s.setClient (s.events fd).clientData c') (s.events fd).clientData c')
  /-- There is a byte in the pipe, and the loop starts. -/
  | completed (hmain : s.main = .idle) (hpipe : 0 < s.pipe) :
      ServerStep ext s .completed ({ s with main := .looping }, none)
  /-- The client is queued. -/
  | append (a : Addr) (hmain : s.main = .queueing a) :
      ServerStep ext s .append
        ({ s with io_newjobs := s.io_newjobs ++ [a], main := .signalling }, none)
  /-- The signal wakes a worker up. -/
  | signal (i : ℕ) (hmain : s.main = .signalling) (hi : s.workers[i]? = some .waiting) :
      ServerStep ext s (.notice (some i))
        ({ s with workers := s.workers.set i .polling, main := .idle }, none)
  /-- The signal is lost, since no worker waits. -/
  | signalLost (hmain : s.main = .signalling) (hnone : .waiting ∉ s.workers) :
      ServerStep ext s (.notice none) ({ s with main := .idle }, none)
  /-- A byte is read. -/
  | readByte (hmain : s.main = .looping) (hpipe : 0 < s.pipe) :
      ServerStep ext s .readByte ({ s with pipe := s.pipe - 1, main := .taking }, none)
  /-- The pipe is empty, and the loop ends. -/
  | pipeEmpty (hmain : s.main = .looping) (hpipe : ¬ 0 < s.pipe) :
      ServerStep ext s .readByte ({ s with main := .idle }, none)
  /-- The first client is taken. -/
  | takeProcessed (a : Addr) (rest : List Addr) (hmain : s.main = .taking)
      (hproc : s.io_processed = a :: rest) :
      ServerStep ext s .takeProcessed
        ({ s with io_processed := rest, main := .registering a }, none)
  /-- The client is registered for writing. -/
  | register (a : Addr) (c : RedisClient) (hmain : s.main = .registering a)
      (hc : s.heap a = some c) :
      ServerStep ext s .register
        ({ s with events := aeCreateFileEvent s.events c.fd .writable a, main := .looping }, none)
  /-- A worker moves. -/
  | worker (i : ℕ) (act : WorkerAct) (t : Server) (ht : workerAct s i act = some t) :
      ServerStep ext s (.worker i act) (t, none)

/-- Every step of the server is one of these. -/
theorem serverStep_of_frees {ext : Validator} {s : Server} {l : ServerLabel}
    {t : Server × Option Addr} (h : serverStepFrees ext s l = some t) : ServerStep ext s l t := by
  cases l with
  | accept fd a =>
    simp only [serverStepFrees] at h
    split_ifs at h with hmain
    cases h
    exact .accept fd a hmain
  | readable fd r =>
    simp only [serverStepFrees] at h
    split_ifs at h with hcond
    split at h
    case h_1 => cases h
    case h_2 c hc =>
      split at h
      case h_1 => cases h
      case h_2 c' act hread =>
        rw [← Option.some.inj h]
        exact .readable fd r c c' act hcond.1 hcond.2 hc hread
  | writable fd r =>
    simp only [serverStepFrees] at h
    split_ifs at h with hcond
    split at h
    case h_1 => cases h
    case h_2 c hc =>
      rw [← Option.some.inj h]
      exact .writable fd r c _ _ hcond.1 hcond.2 hc rfl
  | completed =>
    simp only [serverStepFrees] at h
    split_ifs at h with hcond
    cases h
    exact .completed hcond.1 hcond.2
  | append =>
    simp only [serverStepFrees] at h
    split at h
    case h_1 a hmain => cases h; exact .append a hmain
    case h_2 => cases h
  | notice i =>
    cases i with
    | some i =>
      simp only [serverStepFrees] at h
      split_ifs at h with hmain hi
      cases h
      exact .signal i hmain hi
    | none =>
      simp only [serverStepFrees] at h
      split_ifs at h with hmain hnone
      cases h
      exact .signalLost hmain hnone
  | readByte =>
    simp only [serverStepFrees] at h
    split_ifs at h with hmain hpipe
    · cases h
      exact .readByte hmain hpipe
    · cases h
      exact .pipeEmpty hmain hpipe
  | takeProcessed =>
    simp only [serverStepFrees] at h
    split_ifs at h with hmain
    split at h
    case h_1 => cases h
    case h_2 a rest hproc => cases h; exact .takeProcessed a rest hmain hproc
  | register =>
    simp only [serverStepFrees] at h
    split at h
    case h_1 a hmain =>
      split at h
      case h_1 => cases h
      case h_2 c hc => cases h; exact .register a c hmain hc
    case h_2 => cases h
  | worker i act =>
    obtain ⟨t', ht', rfl⟩ := Option.map_eq_some_iff.mp h
    exact .worker i act t' ht'

/-! ## Who has a client -/

/-- How many times a client is in a queue or in the hands of a thread. -/
def Server.inFlight (s : Server) (a : Addr) : ℕ :=
  s.io_newjobs.count a + held WorkerPc.client s.workers a + s.io_processed.count a +
    has s.main.client a

/-- The clients as items between the event table and the hands of the threads. -/
def Server.custody (s : Server) : Custody Addr ℕ where
  key a := (s.heap a).map RedisClient.fd
  slot fd := (s.events fd).client
  out := s.inFlight

/-- What holds of the server at all times. -/
structure Server.Inv (s : Server) : Prop where
  /-- Every client is registered, or in the hands of a thread once. -/
  custody : s.custody.Inv
  /-- No client is registered for both. -/
  oneMask : ∀ fd, ¬ ((s.events fd).readable = true ∧ (s.events fd).writable = true)

/-! ## What the handlers do to the custody of the clients -/

/-- The record of a client changes, and its descriptor stays. -/
theorem custody_setClient {s : Server} {a : Addr} {c c' : RedisClient} (ha : s.heap a = some c)
    (hfd : c'.fd = c.fd) : (s.setClient a c').custody = s.custody := by
  refine Custody.ext (funext fun b => ?_) rfl rfl
  simp only [Server.custody, Server.setClient]
  by_cases hba : b = a
  · subst hba
    rw [Function.update_self, ha, Option.map_some, Option.map_some, hfd]
  · rw [Function.update_of_ne hba]

/-- A new client is created in the table. -/
theorem custody_createClient (s : Server) (fd : ℕ) (a : Addr) :
    (createClient s fd a).custody = s.custody.create a fd := by
  refine Custody.ext (funext fun b => ?_) (funext fun k => ?_) rfl
  · simp only [Server.custody, createClient, Server.setClient, Custody.create]
    by_cases hba : b = a <;> simp [hba]
  · simp only [Server.custody, createClient, Custody.create]
    by_cases hk : k = fd
    · simp [hk, FileEvent.client]
    · simp [hk]

/-- `freeClient` destroys the client that is registered at its descriptor. -/
theorem custody_freeClient (s : Server) (a : Addr) (c : RedisClient) :
    (freeClient s a c).custody = s.custody.destroy a c.fd := by
  refine Custody.ext (funext fun b => ?_) (funext fun k => ?_) rfl
  · simp only [Server.custody, freeClient, Custody.destroy]
    by_cases hba : b = a <;> simp [hba]
  · simp only [Server.custody, freeClient, Custody.destroy]
    by_cases hk : k = c.fd
    · simp [hk, FileEvent.client]
    · simp [hk]

/-- `resetClient` leaves the client in the table. -/
theorem custody_resetEvents {s : Server} {a : Addr} {c : RedisClient}
    (h : (s.events c.fd).client = some a) : (resetEvents s a c).custody = s.custody := by
  refine Custody.ext rfl (funext fun k => ?_) rfl
  simp only [Server.custody, resetEvents]
  by_cases hk : k = c.fd
  · subst hk
    rw [h]
    simp [FileEvent.client]
  · simp [hk]

/-- The steps that pass a client from hand to hand leave the custody as it is. -/
theorem custody_congr {s s' : Server} (hheap : s'.heap = s.heap) (hev : s'.events = s.events)
    (hout : ∀ a, s'.inFlight a = s.inFlight a) : s'.custody = s.custody :=
  Custody.ext (by simp only [Server.custody, hheap]) (by simp only [Server.custody, hev])
    (funext hout)

/-- A worker's step leaves the custody and the events as they are. -/
theorem custody_workerAct {s s' : Server} {i : ℕ} {act : WorkerAct}
    (h : workerAct s i act = some s') : s'.custody = s.custody ∧ s'.events = s.events := by
  cases workerStep_of_workerAct h with
  | wait hi =>
    refine ⟨custody_congr rfl rfl fun b => ?_, rfl⟩
    have := held_set WorkerPc.client hi .waiting b
    simp only [WorkerPc.client, has_none] at this
    simp only [Server.inFlight]
    omega
  | take a rest hi hjobs =>
    refine ⟨custody_congr rfl rfl fun b => ?_, rfl⟩
    have := held_set WorkerPc.client hi (.holding a) b
    simp only [WorkerPc.client, has_none] at this
    simp only [Server.inFlight, hjobs, count_cons_has]
    omega
  | wake hi =>
    refine ⟨custody_congr rfl rfl fun b => ?_, rfl⟩
    have := held_set WorkerPc.client hi .polling b
    simp only [WorkerPc.client, has_none] at this
    simp only [Server.inFlight]
    omega
  | run a wbuf c hi hc =>
    -- The worker has the same client.
    refine ⟨?_, rfl⟩
    have hset : (s.setClient a { c with wbuf := wbuf }).custody = s.custody :=
      custody_setClient hc rfl
    rw [← hset]
    refine custody_congr rfl rfl fun b => ?_
    have := held_set WorkerPc.client hi (.ran a) b
    simp only [WorkerPc.client] at this
    simp only [Server.inFlight, Server.setClient]
    omega
  | append a hi =>
    refine ⟨custody_congr rfl rfl fun b => ?_, rfl⟩
    have := held_set WorkerPc.client hi .notifying b
    simp only [WorkerPc.client, has_none] at this
    simp only [Server.inFlight, count_append_has]
    omega
  | notify hi =>
    refine ⟨custody_congr rfl rfl fun b => ?_, rfl⟩
    have := held_set WorkerPc.client hi .polling b
    simp only [WorkerPc.client, has_none] at this
    simp only [Server.inFlight]
    omega

/-- A client that is registered at a descriptor has that descriptor. -/
theorem Server.Inv.fd_eq {s : Server} (hs : s.Inv) {fd : ℕ} {a : Addr} {c : RedisClient}
    (he : (s.events fd).client = some a) (hc : s.heap a = some c) : c.fd = fd := by
  have h := hs.custody.slot fd a he
  simp only [Server.custody, hc, Option.map_some] at h
  exact Option.some.inj h

/-- What the handler of a readable client does keeps the invariant. -/
theorem Server.Inv.carryOut_read {s : Server} (hs : s.Inv) (hmain : s.main = .idle) {fd : ℕ}
    {a : Addr} {c : RedisClient} (hr : (s.events fd).readable = true)
    (ha : (s.events fd).clientData = a) (hc : s.heap a = some c) (act : ReadAction) :
    (act.carryOut s a c).1.Inv := by
  have hslot : (s.events fd).client = some a := FileEvent.client_eq_some.mpr ⟨.inl hr, ha⟩
  obtain rfl := hs.fd_eq hslot hc
  have hw : (s.events c.fd).writable = false := by
    have := hs.oneMask c.fd
    simpa [hr] using this
  cases act with
  | wait => exact hs
  | queue =>
    have hcust : (ReadAction.queue.carryOut s a c).1.custody = s.custody.checkOut a c.fd := by
      refine Custody.ext rfl (funext fun k => ?_) (funext fun b => ?_)
      · simp only [Server.custody, ReadAction.carryOut, Custody.checkOut]
        by_cases hk : k = c.fd
        · simp [hk, FileEvent.client, hw]
        · simp [hk]
      · simp only [Server.custody, Custody.checkOut]
        by_cases hba : b = a
        · subst hba
          simp [Server.inFlight, ReadAction.carryOut, hmain, MainPc.client, has]
        · simp [Server.inFlight, ReadAction.carryOut, hmain, MainPc.client, has, hba, Ne.symm hba]
    refine ⟨by rw [hcust]; exact hs.custody.checkOut hslot, fun k => ?_⟩
    simp only [ReadAction.carryOut]
    by_cases hk : k = c.fd
    · simp [hk]
    · rw [aeDeleteFileEvent_of_ne hk]
      exact hs.oneMask k
  | free =>
    refine ⟨by rw [ReadAction.carryOut, custody_freeClient]; exact hs.custody.destroy hslot,
      fun k => ?_⟩
    simp only [ReadAction.carryOut, freeClient]
    by_cases hk : k = c.fd
    · simp [hk]
    · rw [aeDeleteFileEvent_of_ne hk, aeDeleteFileEvent_of_ne hk]
      exact hs.oneMask k

/-- What the handler of a writable client does keeps the invariant. -/
theorem Server.Inv.carryOut_write {s : Server} (hs : s.Inv) {fd : ℕ} {a : Addr} {c : RedisClient}
    (hw : (s.events fd).writable = true) (ha : (s.events fd).clientData = a)
    (hc : s.heap a = some c) (act : WriteAction) : (act.carryOut s a c).1.Inv := by
  have hslot : (s.events fd).client = some a := FileEvent.client_eq_some.mpr ⟨.inr hw, ha⟩
  obtain rfl := hs.fd_eq hslot hc
  cases act with
  | wait => exact hs
  | reset =>
    refine ⟨by rw [WriteAction.carryOut, custody_resetEvents hslot]; exact hs.custody, fun k => ?_⟩
    simp only [WriteAction.carryOut, resetEvents]
    by_cases hk : k = c.fd
    · simp [hk]
    · rw [aeCreateFileEvent_of_ne hk, aeDeleteFileEvent_of_ne hk, aeDeleteFileEvent_of_ne hk]
      exact hs.oneMask k
  | free =>
    refine ⟨by rw [WriteAction.carryOut, custody_freeClient]; exact hs.custody.destroy hslot,
      fun k => ?_⟩
    simp only [WriteAction.carryOut, freeClient]
    by_cases hk : k = c.fd
    · simp [hk]
    · rw [aeDeleteFileEvent_of_ne hk, aeDeleteFileEvent_of_ne hk]
      exact hs.oneMask k

/-- The record of a client changes, and its descriptor stays. -/
theorem Server.Inv.setClient {s : Server} (hs : s.Inv) {a : Addr} {c c' : RedisClient}
    (ha : s.heap a = some c) (hfd : c'.fd = c.fd) : (s.setClient a c').Inv :=
  ⟨by rw [custody_setClient ha hfd]; exact hs.custody, hs.oneMask⟩

/-- A step that passes a client from hand to hand. -/
theorem Server.Inv.pass {s s' : Server} (hs : s.Inv) (hheap : s'.heap = s.heap)
    (hev : s'.events = s.events) (hout : ∀ a, s'.inFlight a = s.inFlight a) : s'.Inv :=
  ⟨by rw [custody_congr hheap hev hout]; exact hs.custody, by rw [hev]; exact hs.oneMask⟩

/-- A client that the main thread takes from `io_processed` is registered for writing. -/
theorem Server.Inv.register {s : Server} (hs : s.Inv) {a : Addr} {c : RedisClient}
    (hmain : s.main = .registering a) (hc : s.heap a = some c) :
    Server.Inv { s with
      events := aeCreateFileEvent s.events c.fd .writable a
      main := .looping } := by
  have hout : 0 < s.inFlight a := by simp [Server.inFlight, hmain, MainPc.client, has]
  have hkey : s.custody.key a = some c.fd := by simp [Server.custody, hc]
  have hnone : (s.events c.fd).client = none := by
    obtain ⟨k, hk, h⟩ := hs.custody.away a hout
    obtain rfl := Option.some.inj (hkey.symm.trans hk)
    exact h
  have hcust : Server.custody { s with
      events := aeCreateFileEvent s.events c.fd .writable a
      main := .looping } = s.custody.checkIn a c.fd := by
    refine Custody.ext rfl (funext fun k => ?_) (funext fun b => ?_)
    · simp only [Server.custody, Custody.checkIn]
      by_cases hk : k = c.fd
      · simp [hk, FileEvent.client]
      · simp [hk]
    · simp only [Server.custody, Custody.checkIn]
      by_cases hba : b = a
      · subst hba
        simp [Server.inFlight, hmain, MainPc.client, has]
      · simp [Server.inFlight, hmain, MainPc.client, has, hba, Ne.symm hba]
  refine ⟨by rw [hcust]; exact hs.custody.checkIn hout hkey, fun k => ?_⟩
  dsimp only
  by_cases hk : k = c.fd
  · have := (FileEvent.client_eq_none.mp hnone).1
    simp [hk, this]
  · rw [aeCreateFileEvent_of_ne hk]
    exact hs.oneMask k

/-- A new client is registered for reading. -/
theorem Server.Inv.createClient {s : Server} (hs : s.Inv) {fd : ℕ} {a : Addr}
    (ha : s.heap a = none) (hfd : ∀ b c, s.heap b = some c → c.fd ≠ fd) :
    (createClient s fd a).Inv := by
  have hkey : ∀ b, s.custody.key b ≠ some fd := by
    intro b hb
    obtain ⟨c, hc, hcfd⟩ := Option.map_eq_some_iff.mp hb
    exact hfd b c hc hcfd
  have hnone : (s.events fd).client = none := by
    by_contra h
    obtain ⟨b, hb⟩ := Option.ne_none_iff_exists'.mp h
    exact hkey b (hs.custody.slot fd b hb)
  refine ⟨by rw [custody_createClient]; exact hs.custody.create (by simp [Server.custody, ha]) hkey,
    fun k => ?_⟩
  simp only [RedisProxy.createClient]
  by_cases hk : k = fd
  · have := (FileEvent.client_eq_none.mp hnone).2
    simp [hk, this]
  · rw [aeCreateFileEvent_of_ne hk]
    exact hs.oneMask k

/-- The invariant is kept by every step. -/
theorem Server.Inv.step {ext : Validator} {s s' : Server} {l : ServerLabel} (hs : s.Inv)
    (hl : s.ValidStep l) (h : serverStep ext s l = some s') : s'.Inv := by
  obtain ⟨t, hstep, rfl⟩ := Option.map_eq_some_iff.mp h
  cases serverStep_of_frees hstep with
  | accept fd a => exact hs.createClient hl.1 hl.2
  | readable fd r c c' act hmain hev hc hread =>
    have hset := hs.setClient hc (readQueryFromClient_fd hread)
    exact hset.carryOut_read hmain hev rfl (Function.update_self ..) act
  | writable fd r c c' act hmain hev hc hsend =>
    have hfd : c'.fd = c.fd := by rw [← sendReplyToClient_fd c r, hsend]
    have hset := hs.setClient hc hfd
    exact hset.carryOut_write hev rfl (Function.update_self ..) act
  | completed hmain =>
    exact hs.pass rfl rfl fun a => by simp [Server.inFlight, hmain, MainPc.client]
  | append a hmain =>
    refine hs.pass rfl rfl fun b => ?_
    simp only [Server.inFlight, hmain, MainPc.client, has_none, count_append_has]
    omega
  | signal i hmain hi =>
    refine hs.pass rfl rfl fun b => ?_
    have := held_set WorkerPc.client hi .polling b
    simp only [WorkerPc.client, has_none] at this
    simp only [Server.inFlight, hmain, MainPc.client, has_none]
    omega
  | signalLost hmain =>
    exact hs.pass rfl rfl fun a => by simp [Server.inFlight, hmain, MainPc.client]
  | readByte hmain =>
    exact hs.pass rfl rfl fun a => by simp [Server.inFlight, hmain, MainPc.client]
  | pipeEmpty hmain =>
    exact hs.pass rfl rfl fun a => by simp [Server.inFlight, hmain, MainPc.client]
  | takeProcessed a rest hmain hproc =>
    refine hs.pass rfl rfl fun b => ?_
    simp only [Server.inFlight, hmain, hproc, MainPc.client, has_none, count_cons_has]
    omega
  | register a c hmain hc => exact hs.register hmain hc
  | worker i act t ht =>
    obtain ⟨h1, h2⟩ := custody_workerAct ht
    exact ⟨by rw [h1]; exact hs.custody, by rw [h2]; exact hs.oneMask⟩

/-- The server starts with no client. -/
theorem Server.inv_init (n : ℕ) : Server.Inv { workers := List.replicate n .polling } := by
  have hout : ∀ a, Server.inFlight { workers := List.replicate n .polling } a = 0 := by
    intro a
    simp [Server.inFlight, MainPc.client, held_replicate WorkerPc.client (b := .polling) rfl]
  refine ⟨⟨fun a => ?_, fun a ha => ?_, fun a k hk => ?_, fun k a hk => ?_, fun a b k hk => ?_⟩,
    by simp⟩
  · simp only [Server.custody, hout]; omega
  · simp only [Server.custody, hout] at ha; omega
  · simp [Server.custody] at hk
  · simp [Server.custody, FileEvent.client] at hk
  · simp [Server.custody] at hk

/-! ## Ownership -/

/-- The places where a client can be while the main thread is not handling it. -/
inductive Place where
  /-- Registered for reading. -/
  | reading
  /-- In `io_newjobs`. -/
  | newjobs
  /-- Held by a worker. -/
  | worker (i : ℕ)
  /-- In `io_processed`. -/
  | processed
  /-- Registered for writing. -/
  | writing
  deriving DecidableEq, Repr

/-- A client is at a place. -/
def Server.At (s : Server) (a : Addr) : Place → Prop
  | .reading => ∃ fd, (s.events fd).readable = true ∧ (s.events fd).clientData = a
  | .newjobs => a ∈ s.io_newjobs
  | .worker i => ∃ w, s.workers[i]? = some w ∧ w.client = some a
  | .processed => a ∈ s.io_processed
  | .writing => ∃ fd, (s.events fd).writable = true ∧ (s.events fd).clientData = a

/-- A client is registered when it is in the table. -/
theorem Server.registered_iff (s : Server) (a : Addr) :
    s.At a .reading ∨ s.At a .writing ↔ ∃ fd, (s.events fd).client = some a := by
  simp only [Server.At, FileEvent.client_eq_some]
  constructor
  · rintro (⟨fd, h, ha⟩ | ⟨fd, h, ha⟩)
    · exact ⟨fd, .inl h, ha⟩
    · exact ⟨fd, .inr h, ha⟩
  · rintro ⟨fd, h | h, ha⟩
    · exact .inl ⟨fd, h, ha⟩
    · exact .inr ⟨fd, h, ha⟩

/-- A registered client is in nobody's hands. -/
theorem Server.Inv.inFlight_of_registered {s : Server} (hs : s.Inv) {a : Addr}
    (h : s.At a .reading ∨ s.At a .writing) : s.inFlight a = 0 := by
  obtain ⟨fd, hfd⟩ := (s.registered_iff a).mp h
  exact hs.custody.out_eq_zero hfd

/-- A client at one of the places is live. -/
theorem Server.Inv.isSome_of_at {s : Server} (hs : s.Inv) {a : Addr} {p : Place}
    (h : s.At a p) : (s.heap a).isSome := by
  have hreg : s.At a .reading ∨ s.At a .writing → (s.heap a).isSome := by
    intro hr
    obtain ⟨fd, hfd⟩ := (s.registered_iff a).mp hr
    obtain ⟨c, hc, -⟩ := Option.map_eq_some_iff.mp (hs.custody.slot fd a hfd)
    rw [hc, Option.isSome_some]
  have hout : 0 < s.inFlight a → (s.heap a).isSome := fun hpos => by
    simpa [Server.custody] using hs.custody.isSome_of_out hpos
  cases p with
  | reading => exact hreg (.inl h)
  | writing => exact hreg (.inr h)
  | newjobs =>
    have := List.count_pos_iff.mpr h
    exact hout (by rw [Server.inFlight]; omega)
  | worker i =>
    have := (held_pos_iff _ _ _).mpr ⟨i, h⟩
    exact hout (by rw [Server.inFlight]; omega)
  | processed =>
    have := List.count_pos_iff.mpr h
    exact hout (by rw [Server.inFlight]; omega)

/-- A live client in nobody's hands is registered, for reading or for writing. -/
theorem Server.Inv.existsUnique_registered {s : Server} (hs : s.Inv) {a : Addr}
    (ha : (s.heap a).isSome) (hout : s.inFlight a = 0) : ∃! p, s.At a p := by
  obtain ⟨c, hc⟩ := Option.isSome_iff_exists.mp ha
  have hkey : s.custody.key a = some c.fd := by simp [Server.custody, hc]
  have hslot : (s.events c.fd).client = some a := hs.custody.home a c.fd hkey hout
  -- Every registration of the client is at its descriptor.
  have hfd : ∀ fd, (s.events fd).client = some a → fd = c.fd := fun fd h =>
    (Option.some.inj (hkey.symm.trans (hs.custody.slot fd a h))).symm
  have hone := hs.oneMask c.fd
  have hnot : s.io_newjobs.count a = 0 ∧ held WorkerPc.client s.workers a = 0 ∧
      s.io_processed.count a = 0 := by
    rw [Server.inFlight] at hout
    omega
  have hreg : ∃ p, s.At a p ∧ (p = .reading ∨ p = .writing) := by
    rcases (s.registered_iff a).mpr ⟨c.fd, hslot⟩ with h | h
    · exact ⟨.reading, h, .inl rfl⟩
    · exact ⟨.writing, h, .inr rfl⟩
  have hmask : ¬ (s.At a .reading ∧ s.At a .writing) := by
    rintro ⟨⟨fd, h1, h2⟩, ⟨fd', h3, h4⟩⟩
    have e1 := hfd fd (FileEvent.client_eq_some.mpr ⟨.inl h1, h2⟩)
    have e2 := hfd fd' (FileEvent.client_eq_some.mpr ⟨.inr h3, h4⟩)
    exact hone ⟨e1 ▸ h1, e2 ▸ h3⟩
  obtain ⟨p, hp, hpp⟩ := hreg
  refine ⟨p, hp, fun q hq => ?_⟩
  cases q with
  | reading =>
    rcases hpp with rfl | rfl
    · rfl
    · exact absurd ⟨hq, hp⟩ hmask
  | writing =>
    rcases hpp with rfl | rfl
    · exact absurd ⟨hp, hq⟩ hmask
    · rfl
  | newjobs => exact absurd (List.count_pos_iff.mpr hq) (by omega)
  | worker i => exact absurd ((held_pos_iff _ _ _).mpr ⟨i, hq⟩) (by omega)
  | processed => exact absurd (List.count_pos_iff.mpr hq) (by omega)

/-- A client that is in flight is in one of the queues or in the hands of a worker. -/
theorem Server.Inv.at_inFlight {s : Server} (hs : s.Inv) {a : Addr} (hout : 0 < s.inFlight a)
    {p : Place} (hp : s.At a p) :
    (p = .newjobs ∧ 0 < s.io_newjobs.count a) ∨
      (∃ i, p = .worker i ∧ 0 < held WorkerPc.client s.workers a) ∨
      (p = .processed ∧ 0 < s.io_processed.count a) := by
  cases p with
  | reading =>
    have := hs.inFlight_of_registered (.inl hp)
    omega
  | writing =>
    have := hs.inFlight_of_registered (.inr hp)
    omega
  | newjobs => exact .inl ⟨rfl, List.count_pos_iff.mpr hp⟩
  | worker i => exact .inr (.inl ⟨i, rfl, (held_pos_iff _ _ _).mpr ⟨i, hp⟩⟩)
  | processed => exact .inr (.inr ⟨rfl, List.count_pos_iff.mpr hp⟩)

/-- A client in the hands of a queue or a worker is there and nowhere else. -/
theorem Server.Inv.existsUnique_inFlight {s : Server} (hs : s.Inv) {a : Addr}
    (hmain : s.main.client ≠ some a) (hout : 0 < s.inFlight a) : ∃! p, s.At a p := by
  have hone := hs.custody.once a
  -- Each place where the client is adds one to the sum.
  have hsum : s.io_newjobs.count a + held WorkerPc.client s.workers a +
      s.io_processed.count a = 1 := by
    have hout' := hout
    simp only [Server.custody] at hone
    rw [Server.inFlight] at hone hout'
    rw [show has s.main.client a = 0 from if_neg hmain] at hone hout'
    omega
  have hex : ∃ p, s.At a p := by
    rcases Nat.eq_zero_or_pos (s.io_newjobs.count a) with hnew | hnew
    · rcases Nat.eq_zero_or_pos (held WorkerPc.client s.workers a) with hheld | hheld
      · exact ⟨.processed, List.count_pos_iff.mp (by omega)⟩
      · obtain ⟨i, hi⟩ := (held_pos_iff _ _ _).mp hheld
        exact ⟨.worker i, hi⟩
    · exact ⟨.newjobs, List.count_pos_iff.mp hnew⟩
  obtain ⟨p, hp⟩ := hex
  refine ⟨p, hp, fun q hq => ?_⟩
  rcases hs.at_inFlight hout hp with ⟨rfl, h⟩ | ⟨i, rfl, h⟩ | ⟨rfl, h⟩
  · rcases hs.at_inFlight hout hq with ⟨rfl, -⟩ | ⟨j, rfl, h'⟩ | ⟨rfl, h'⟩
    · rfl
    · omega
    · omega
  · rcases hs.at_inFlight hout hq with ⟨rfl, h'⟩ | ⟨j, rfl, -⟩ | ⟨rfl, h'⟩
    · omega
    · obtain ⟨w, hw, hwa⟩ := hp
      obtain ⟨v, hv, hva⟩ := hq
      rw [held_index_unique (by omega) hw hv hwa hva]
    · omega
  · rcases hs.at_inFlight hout hq with ⟨rfl, h'⟩ | ⟨j, rfl, h'⟩ | ⟨rfl, -⟩
    · omega
    · omega
    · rfl

/-- `freeClient` is applied to the client of the event that is handled. -/
theorem registered_of_frees {ext : Validator} {s t : Server} {l : ServerLabel} {a : Addr}
    (h : serverStepFrees ext s l = some (t, some a)) : s.At a .reading ∨ s.At a .writing := by
  generalize hres : (t, some a) = res at h
  have hfreed : res.2 = some a := by rw [← hres]
  cases serverStep_of_frees h with
  | readable fd r c c' act _ hev =>
    cases act with
    | free => exact .inl ⟨fd, hev, Option.some.inj hfreed⟩
    | _ => cases hfreed
  | writable fd r c c' act _ hev =>
    cases act with
    | free => exact .inr ⟨fd, hev, Option.some.inj hfreed⟩
    | _ => cases hfreed
  | _ => cases hfreed

/-- In every state that the server can reach, a live client is in exactly one of the five places
while the main thread is not handling it, and in none while the main thread is. What is in a place
is a live client, no client is queued twice, and `freeClient` is only applied to a client that is
registered. -/
theorem client_in_one_place (ext : Validator) (n : ℕ) (s : Server)
    (h : (serverSystem ext n).Reach Server.ValidStep s) :
    (∀ a, (s.heap a).isSome → s.main.client ≠ some a → ∃! p, s.At a p) ∧
      (∀ a, s.main.client = some a → (s.heap a).isSome ∧ ∀ p, ¬ s.At a p) ∧
      (∀ a p, s.At a p → (s.heap a).isSome) ∧ s.io_newjobs.Nodup ∧ s.io_processed.Nodup ∧
      ∀ l t a, serverStepFrees ext s l = some (t, some a) → s.At a .reading ∨ s.At a .writing := by
  have hs : s.Inv := by
    refine h.invariant ?_ fun s l t hs hl h => hs.step hl h
    rintro s rfl
    exact Server.inv_init n
  have hone : ∀ a, s.inFlight a ≤ 1 := hs.custody.once
  refine ⟨fun a ha hmain => ?_, fun a hmain => ⟨?_, fun p hp => ?_⟩,
    fun a p hp => hs.isSome_of_at hp, ?_, ?_, fun l t a h => registered_of_frees h⟩
  · rcases Nat.eq_zero_or_pos (s.inFlight a) with hout | hout
    · exact hs.existsUnique_registered ha hout
    · exact hs.existsUnique_inFlight hmain hout
  · have hpos : 0 < s.inFlight a := by simp [Server.inFlight, has, hmain]
    simpa [Server.custody] using hs.custody.isSome_of_out hpos
  · have hle := hone a
    rw [Server.inFlight, show has s.main.client a = 1 from if_pos hmain] at hle
    cases p with
    | reading =>
      have := hs.inFlight_of_registered (.inl hp)
      rw [Server.inFlight, show has s.main.client a = 1 from if_pos hmain] at this
      omega
    | writing =>
      have := hs.inFlight_of_registered (.inr hp)
      rw [Server.inFlight, show has s.main.client a = 1 from if_pos hmain] at this
      omega
    | newjobs =>
      have := List.count_pos_iff.mpr hp
      omega
    | worker i =>
      have := (held_pos_iff _ _ _).mpr ⟨i, hp⟩
      omega
    | processed =>
      have := List.count_pos_iff.mpr hp
      omega
  · refine List.nodup_iff_count_le_one.mpr fun a => ?_
    have := hone a
    rw [Server.inFlight] at this
    omega
  · refine List.nodup_iff_count_le_one.mpr fun a => ?_
    have := hone a
    rw [Server.inFlight] at this
    omega

/-- A client connects and sends an inline `PING` in two pieces. The main thread queues it, and a
worker takes it. -/
def pingLabels : List ServerLabel :=
  [.accept 5 1, .readable 5 (.data [80, 73, 78]), .readable 5 (.data [71, 13, 10]), .append,
    .worker 0 .take, .notice none]

/-- The worker has the client, and nobody else. -/
theorem client_in_one_place_ping : ∃ s : Server,
    (serverSystem processRequestBuffer 1).run { workers := [.polling] } pingLabels = some s ∧
      s.workers = [.holding 1] ∧ ∃! p, s.At 1 p := by
  have hrun : ((serverSystem processRequestBuffer 1).run { workers := [.polling] } pingLabels).map
      (fun s => (s.workers, (s.heap 1).isSome, s.main)) =
      some ([.holding 1], true, .idle) := by
    decide +kernel
  obtain ⟨s, hs, h⟩ := Option.map_eq_some_iff.mp hrun
  simp only [Prod.mk.injEq] at h
  obtain ⟨hw, ha, hmain⟩ := h
  have hok : (serverSystem processRequestBuffer 1).RunOk Server.ValidStep
      { workers := [.polling] } pingLabels := by
    refine ⟨⟨rfl, by simp⟩, fun t _ => Lts.runOk_of_forall (fun l hl t => ?_) t⟩
    fin_cases hl
    · exact ⟨by decide, by decide⟩
    · exact ⟨by decide, by decide⟩
    all_goals trivial
  refine ⟨s, hs, hw, (client_in_one_place processRequestBuffer 1 s ?_).1 1 ha ?_⟩
  · exact .run (.init rfl) hok hs
  · simp [hmain, MainPc.client]

end MgCommonUtils.RedisProxy
