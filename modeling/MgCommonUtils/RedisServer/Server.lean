import MgCommonUtils.EventLoop
import MgCommonUtils.Lib.Custody
import MgCommonUtils.Lib.Transition

/-!
# The server

The main thread and the workers of `redis-server/redis.c`. Its messages start with their length, a
little-endian `int`. A client whose message is full is appended to `io_newjobs`, without the lock,
and a worker is started unless there are enough of them. A worker takes clients from `io_newjobs`,
runs the command, appends them to `io_processed` and writes a byte to the pipe for each, and ends
when it finds `io_newjobs` empty. For each byte, the main thread takes a client from
`io_processed` and registers it for writing.

Every list operation, every use of the thread counter and every start of a thread is one step.

A client stays registered for reading while it is in the queues and in the hands of a worker. When
the peer closes the connection then, or sends more, the client is freed under the hands of the
others (`freed_in_flight`). In a run without such a read, what is in the queues and in the hands of
the workers is live, and is there once (`inFlight_live`). `frees_of_read_inFlight` shows that every
such read frees the client.
-/

namespace MgCommonUtils.RedisServer

open MgCommonUtils.Lib MgCommonUtils.EventLoop

/-- `READ_BUF_LEN` of `redis.h`. -/
def READ_BUF_LEN : ℕ := 128

/-- `WRITE_BUF_LEN` of `redis.h`. -/
def WRITE_BUF_LEN : ℕ := 128

/-- `struct RedisClient`, with the first `rlen` and `wlen` bytes of the two buffers. -/
structure RedisClient where
  /-- The connection's file descriptor. -/
  fd : ℕ
  /-- The message bytes read so far. -/
  rbuf : Bytes := []
  /-- The reply. -/
  wbuf : Bytes := []
  /-- The number of reply bytes written. -/
  wpos : ℕ := 0
  deriving DecidableEq, Repr

/-- `*(int *)rbuf`, on a little-endian machine. -/
def qsize (rbuf : Bytes) : ℤ :=
  toInt32 ((rbuf.take 4).foldr (fun b n => b.toNat + 256 * n) 0 : ℕ)

/-- What the handler of a readable client does with it. -/
inductive ReadAction where
  /-- Nothing. -/
  | wait
  /-- `queueIOJob`. -/
  | queue
  /-- `freeClient`. -/
  | free
  deriving DecidableEq, Repr

/-- `processInputBuffer`. -/
def processInputBuffer (c : RedisClient) : ReadAction :=
  if c.rbuf.length < 4 then .wait
  else if c.rbuf.length < qsize c.rbuf then .wait
  else if c.rbuf.length > qsize c.rbuf then .free
  else .queue

/-- `readQueryFromClient`. -/
def readQueryFromClient (c : RedisClient) (r : ReadResult) : RedisClient × ReadAction :=
  match r with
  | .error => (c, .free)
  | .eof => (c, .free)
  | .eagain => (c, .wait)
  | .data bytes =>
    if c.rbuf.length + bytes.length > READ_BUF_LEN then (c, .free)
    else
      let c := { c with rbuf := c.rbuf ++ bytes }
      (c, processInputBuffer c)

/-- `_redisCommandProc` of `echo.c`. -/
def redisCommandProc (c : RedisClient) : RedisClient := { c with wbuf := c.rbuf }

/-- What the handler of a writable client does with it. -/
inductive WriteAction where
  /-- Nothing. -/
  | wait
  /-- `resetClient`. -/
  | reset
  /-- `freeClient`. -/
  | free
  deriving DecidableEq, Repr

/-- The record part of `resetClient`. -/
def resetClient (c : RedisClient) : RedisClient := { c with rbuf := [], wbuf := [], wpos := 0 }

/-- `sendReplyToClient`. -/
def sendReplyToClient (c : RedisClient) (r : WriteResult) : RedisClient × WriteAction :=
  match r with
  | .error => (c, .free)
  | .eagain => if c.wpos = c.wbuf.length then (resetClient c, .reset) else (c, .wait)
  | .wrote n =>
    let c := { c with wpos := c.wpos + n }
    if c.wpos = c.wbuf.length then (resetClient c, .reset) else (c, .wait)

/-- Where the main thread is. -/
inductive MainPc where
  /-- In the event loop. -/
  | idle
  /-- In `queueIOJob`, before it appends the client. -/
  | appending (a : Addr)
  /-- In `queueIOJob`, before it reads `io_active_threads`. -/
  | counting
  /-- In `spawnIOThread`, before `pthread_create`. -/
  | spawning
  /-- In `spawnIOThread`, before it increments `io_active_threads`. -/
  | spawned
  /-- In `vmThreadedIOCompletedJob`, before it reads a byte. -/
  | looping
  /-- In `vmThreadedIOCompletedJob`, before it takes a client. -/
  | taking
  /-- In `vmThreadedIOCompletedJob`, before it registers the client. -/
  | registering (a : Addr)
  deriving DecidableEq, Repr

/-- The client that the main thread is handling. -/
def MainPc.client : MainPc → Option Addr
  | .appending a => some a
  | .registering a => some a
  | _ => none

/-- Where a worker is. -/
inductive WorkerPc where
  /-- Before it looks for a job. -/
  | polling
  /-- It has found `io_newjobs` empty, and has the lock. -/
  | emptied
  /-- It has decremented `io_active_threads`, and has the lock. -/
  | leaving
  /-- It has ended. -/
  | exited
  /-- In `processCommand`. -/
  | holding (a : Addr)
  /-- After `processCommand`. -/
  | ran (a : Addr)
  /-- Before it writes to the pipe. -/
  | notifying
  deriving DecidableEq, Repr

/-- The client that a worker holds. -/
def WorkerPc.client : WorkerPc → Option Addr
  | .holding a => some a
  | .ran a => some a
  | _ => none

/-- Whether a worker has the lock between two steps. -/
def WorkerPc.locks : WorkerPc → Bool
  | .emptied => true
  | .leaving => true
  | _ => false

/-- The state of the server. -/
structure Server where
  /-- The live clients. -/
  heap : Addr → Option RedisClient := fun _ => none
  /-- The event table. -/
  events : EventTable := fun _ => {}
  /-- `io_newjobs`. -/
  io_newjobs : List Addr := []
  /-- `io_processed`. -/
  io_processed : List Addr := []
  /-- `io_active_threads`. -/
  io_active_threads : UInt32 := 0
  /-- The workers that were ever started. -/
  workers : List WorkerPc := []
  /-- The number of bytes in the completion pipe. -/
  pipe : ℕ := 0
  /-- The main thread. -/
  main : MainPc := .idle

/-- Whether `io_mutex` is free. -/
def Server.lockFree (s : Server) : Bool := s.workers.all fun w => !w.locks

/-- The steps of a worker. -/
inductive WorkerAct where
  /-- It takes the first job, or finds that there is none. -/
  | take
  /-- It decrements `io_active_threads`. -/
  | decrement
  /-- It unlocks and ends. -/
  | exit
  /-- `processCommand`. -/
  | run
  /-- It appends the client to `io_processed`. -/
  | append
  /-- It writes a byte to the pipe. -/
  | notify
  deriving DecidableEq, Repr

/-- The steps of the server. -/
inductive ServerLabel where
  /-- `acceptHandler`: a connection with the descriptor `fd`, and `calloc` returns `a`. -/
  | accept (fd : ℕ) (a : Addr)
  /-- `readQueryFromClient`. -/
  | readable (fd : ℕ) (r : ReadResult)
  /-- `sendReplyToClient`. -/
  | writable (fd : ℕ) (r : WriteResult)
  /-- `vmThreadedIOCompletedJob` is called. -/
  | completed
  /-- `queueIOJob` appends the client. -/
  | append
  /-- `queueIOJob` compares `io_active_threads` with `vm_max_threads`. -/
  | compare
  /-- `spawnIOThread` creates a thread. -/
  | spawn
  /-- `spawnIOThread` increments `io_active_threads`. -/
  | increment
  /-- `vmThreadedIOCompletedJob` reads a byte, or finds the pipe empty and returns. -/
  | readByte
  /-- `vmThreadedIOCompletedJob` takes the first client of `io_processed`. -/
  | takeProcessed
  /-- `vmThreadedIOCompletedJob` registers the client for writing. -/
  | register
  /-- A step of a worker. -/
  | worker (i : ℕ) (act : WorkerAct)
  deriving DecidableEq, Repr

/-- The record of a client changes. -/
def Server.setClient (s : Server) (a : Addr) (c : RedisClient) : Server :=
  { s with heap := Function.update s.heap a (some c) }

/-- `createClient`. -/
def createClient (s : Server) (fd : ℕ) (a : Addr) : Server :=
  { s.setClient a { fd := fd } with events := aeCreateFileEvent s.events fd .readable a }

/-- `freeClient`. -/
def freeClient (s : Server) (a : Addr) (c : RedisClient) : Server :=
  { s with
    heap := Function.update s.heap a none
    events := aeDeleteFileEvent (aeDeleteFileEvent s.events c.fd .readable) c.fd .writable }

/-- The calls on the event table in `resetClient`. -/
def resetEvents (s : Server) (a : Addr) (c : RedisClient) : Server :=
  let events := aeDeleteFileEvent (aeDeleteFileEvent s.events c.fd .writable) c.fd .readable
  { s with events := aeCreateFileEvent events c.fd .readable a }

/-- What the handler of a readable client does to the server. -/
def ReadAction.carryOut (s : Server) (a : Addr) (c : RedisClient) :
    ReadAction → Server × Option Addr
  | .wait => (s, none)
  | .queue => ({ s with main := .appending a }, none)
  | .free => (freeClient s a c, some a)

/-- What the handler of a writable client does to the server. -/
def WriteAction.carryOut (s : Server) (a : Addr) (c : RedisClient) :
    WriteAction → Server × Option Addr
  | .wait => (s, none)
  | .reset => (resetEvents s a c, none)
  | .free => (freeClient s a c, some a)

/-- A step of a worker. -/
def workerAct (s : Server) (i : ℕ) (act : WorkerAct) : Option Server :=
  match s.workers[i]?, act with
  | some .polling, .take =>
    if s.lockFree then
      match s.io_newjobs with
      | [] => some { s with workers := s.workers.set i .emptied }
      | a :: rest => some { s with io_newjobs := rest, workers := s.workers.set i (.holding a) }
    else none
  | some .emptied, .decrement => some { s with
      io_active_threads := s.io_active_threads - 1
      workers := s.workers.set i .leaving }
  | some .leaving, .exit => some { s with workers := s.workers.set i .exited }
  | some (.holding a), .run =>
    match s.heap a with
    | none => none
    | some c => some { s.setClient a (redisCommandProc c) with
        workers := s.workers.set i (.ran a) }
  | some (.ran a), .append =>
    if s.lockFree then
      some { s with
        io_processed := s.io_processed ++ [a]
        workers := s.workers.set i .notifying }
    else none
  | some .notifying, .notify => some { s with
      pipe := s.pipe + 1
      workers := s.workers.set i .polling }
  | _, _ => none

/-- A step of the server, with the client that `freeClient` is applied to in it. -/
def serverStepFrees (vm_max_threads : UInt32) (s : Server) :
    ServerLabel → Option (Server × Option Addr)
  | .accept fd a => if s.main = .idle then some (createClient s fd a, none) else none
  | .readable fd r =>
    if s.main = .idle ∧ (s.events fd).readable then
      match s.heap (s.events fd).clientData with
      | none => none
      | some c =>
        let a := (s.events fd).clientData
        let (c, act) := readQueryFromClient c r
        some (act.carryOut (s.setClient a c) a c)
    else none
  | .writable fd r =>
    if s.main = .idle ∧ (s.events fd).writable then
      match s.heap (s.events fd).clientData with
      | none => none
      | some c =>
        let a := (s.events fd).clientData
        let (c, act) := sendReplyToClient c r
        some (act.carryOut (s.setClient a c) a c)
    else none
  | .completed => if s.main = .idle ∧ 0 < s.pipe then some ({ s with main := .looping }, none)
    else none
  | .append =>
    match s.main with
    | .appending a => some ({ s with io_newjobs := s.io_newjobs ++ [a], main := .counting }, none)
    | _ => none
  | .compare =>
    if s.main = .counting then
      if s.io_active_threads < vm_max_threads then some ({ s with main := .spawning }, none)
      else some ({ s with main := .idle }, none)
    else none
  | .spawn =>
    if s.main = .spawning then
      some ({ s with workers := s.workers ++ [.polling], main := .spawned }, none)
    else none
  | .increment =>
    if s.main = .spawned then
      some ({ s with io_active_threads := s.io_active_threads + 1, main := .idle }, none)
    else none
  | .readByte =>
    if s.main = .looping then
      if 0 < s.pipe then some ({ s with pipe := s.pipe - 1, main := .taking }, none)
      else some ({ s with main := .idle }, none)
    else none
  | .takeProcessed =>
    if s.main = .taking ∧ s.lockFree then
      match s.io_processed with
      | [] => none
      | a :: rest => some ({ s with io_processed := rest, main := .registering a }, none)
    else none
  | .register =>
    match s.main with
    | .registering a =>
      match s.heap a with
      | none => none
      | some c => some ({ s with
          events := aeCreateFileEvent s.events c.fd .writable a
          main := .looping }, none)
    | _ => none
  | .worker i act => (workerAct s i act).map fun s => (s, none)

/-- A step of the server. -/
def serverStep (vm_max_threads : UInt32) (s : Server) (l : ServerLabel) : Option Server :=
  (serverStepFrees vm_max_threads s l).map Prod.fst

/-- What the system calls and `calloc` can return: a connection has a descriptor that no live
client has, and a new client an address that is not in use. -/
def Server.ValidStep (s : Server) : ServerLabel → Prop
  | .accept fd a => s.heap a = none ∧ ∀ b c, s.heap b = some c → c.fd ≠ fd
  | .readable _ r => r.Valid READ_BUF_LEN
  | .writable fd r => ∀ c ∈ s.heap (s.events fd).clientData, r.Valid (c.wbuf.length - c.wpos)
  | _ => True

/-- The server with no client and no worker. -/
def serverSystem (vm_max_threads : UInt32) : Lts Server ServerLabel where
  init s := s = {}
  step := serverStep vm_max_threads

/-- How many times a client is in a queue or in the hands of a thread. -/
def Server.inFlight (s : Server) (a : Addr) : ℕ :=
  s.io_newjobs.count a + held WorkerPc.client s.workers a + s.io_processed.count a +
    has s.main.client a

/-- A step that does not read from a client that is in a queue or in the hands of a thread, unless
there is nothing to read. -/
def Server.QuietStep (s : Server) : ServerLabel → Prop
  | .readable fd r => r = .eagain ∨ s.inFlight (s.events fd).clientData = 0
  | _ => True

/-- Whether a step is quiet can be computed. -/
instance (s : Server) (l : ServerLabel) : Decidable (s.QuietStep l) := by
  cases l <;> unfold Server.QuietStep <;> infer_instance

/-! ## What one step does -/

/-- What one step of a worker does. -/
inductive WorkerStep (s : Server) (i : ℕ) : WorkerAct → Server → Prop
  /-- There is no job, and it keeps the lock. -/
  | empty (hi : s.workers[i]? = some .polling) (hlock : s.lockFree = true)
      (hjobs : s.io_newjobs = []) :
      WorkerStep s i .take { s with workers := s.workers.set i .emptied }
  /-- It takes the first job. -/
  | take (a : Addr) (rest : List Addr) (hi : s.workers[i]? = some .polling)
      (hlock : s.lockFree = true) (hjobs : s.io_newjobs = a :: rest) :
      WorkerStep s i .take { s with io_newjobs := rest, workers := s.workers.set i (.holding a) }
  /-- It is not counted any more. -/
  | decrement (hi : s.workers[i]? = some .emptied) :
      WorkerStep s i .decrement { s with
        io_active_threads := s.io_active_threads - 1
        workers := s.workers.set i .leaving }
  /-- It ends. -/
  | exit (hi : s.workers[i]? = some .leaving) :
      WorkerStep s i .exit { s with workers := s.workers.set i .exited }
  /-- `processCommand` has run. -/
  | run (a : Addr) (c : RedisClient) (hi : s.workers[i]? = some (.holding a))
      (hc : s.heap a = some c) :
      WorkerStep s i .run { s.setClient a (redisCommandProc c) with
        workers := s.workers.set i (.ran a) }
  /-- It appends its client, and has the byte still to write. -/
  | append (a : Addr) (hi : s.workers[i]? = some (.ran a)) (hlock : s.lockFree = true) :
      WorkerStep s i .append { s with
        io_processed := s.io_processed ++ [a]
        workers := s.workers.set i .notifying }
  /-- It writes the byte. -/
  | notify (hi : s.workers[i]? = some .notifying) :
      WorkerStep s i .notify { s with
        pipe := s.pipe + 1
        workers := s.workers.set i .polling }

/-- Every step of a worker is one of these. -/
theorem workerStep_of_workerAct {s t : Server} {i : ℕ} {act : WorkerAct}
    (h : workerAct s i act = some t) : WorkerStep s i act t := by
  unfold workerAct at h
  split at h
  case h_1 hi =>
    split_ifs at h with hlock
    split at h
    case h_1 hjobs => cases h; exact .empty hi hlock hjobs
    case h_2 a rest hjobs => cases h; exact .take a rest hi hlock hjobs
  case h_2 hi => cases h; exact .decrement hi
  case h_3 hi => cases h; exact .exit hi
  case h_4 a hi =>
    split at h
    case h_1 => cases h
    case h_2 c hc => cases h; exact .run a c hi hc
  case h_5 a hi =>
    split_ifs at h with hlock
    cases h
    exact .append a hi hlock
  case h_6 hi => cases h; exact .notify hi
  case h_7 => cases h

/-- What one step of the server does. -/
inductive ServerStep (vm_max_threads : UInt32) (s : Server) :
    ServerLabel → Server × Option Addr → Prop
  /-- A client is created. -/
  | accept (fd : ℕ) (a : Addr) (hmain : s.main = .idle) :
      ServerStep vm_max_threads s (.accept fd a) (createClient s fd a, none)
  /-- The handler of a readable client runs. -/
  | readable (fd : ℕ) (r : ReadResult) (c : RedisClient) (hmain : s.main = .idle)
      (hev : (s.events fd).readable = true) (hc : s.heap (s.events fd).clientData = some c) :
      ServerStep vm_max_threads s (.readable fd r)
        ((readQueryFromClient c r).2.carryOut
          (s.setClient (s.events fd).clientData (readQueryFromClient c r).1)
          (s.events fd).clientData (readQueryFromClient c r).1)
  /-- The handler of a writable client runs. -/
  | writable (fd : ℕ) (r : WriteResult) (c : RedisClient) (hmain : s.main = .idle)
      (hev : (s.events fd).writable = true) (hc : s.heap (s.events fd).clientData = some c) :
      ServerStep vm_max_threads s (.writable fd r)
        ((sendReplyToClient c r).2.carryOut
          (s.setClient (s.events fd).clientData (sendReplyToClient c r).1)
          (s.events fd).clientData (sendReplyToClient c r).1)
  /-- There is a byte in the pipe, and the loop starts. -/
  | completed (hmain : s.main = .idle) (hpipe : 0 < s.pipe) :
      ServerStep vm_max_threads s .completed ({ s with main := .looping }, none)
  /-- The client is queued. -/
  | append (a : Addr) (hmain : s.main = .appending a) :
      ServerStep vm_max_threads s .append
        ({ s with io_newjobs := s.io_newjobs ++ [a], main := .counting }, none)
  /-- One more worker may be started. -/
  | room (hmain : s.main = .counting) (hlt : s.io_active_threads < vm_max_threads) :
      ServerStep vm_max_threads s .compare ({ s with main := .spawning }, none)
  /-- There are enough workers. -/
  | full (hmain : s.main = .counting) (hge : ¬ s.io_active_threads < vm_max_threads) :
      ServerStep vm_max_threads s .compare ({ s with main := .idle }, none)
  /-- A worker is started. -/
  | spawn (hmain : s.main = .spawning) :
      ServerStep vm_max_threads s .spawn
        ({ s with workers := s.workers ++ [.polling], main := .spawned }, none)
  /-- The worker is counted. -/
  | increment (hmain : s.main = .spawned) :
      ServerStep vm_max_threads s .increment
        ({ s with io_active_threads := s.io_active_threads + 1, main := .idle }, none)
  /-- A byte is read. -/
  | readByte (hmain : s.main = .looping) (hpipe : 0 < s.pipe) :
      ServerStep vm_max_threads s .readByte
        ({ s with pipe := s.pipe - 1, main := .taking }, none)
  /-- The pipe is empty, and the loop ends. -/
  | pipeEmpty (hmain : s.main = .looping) (hpipe : ¬ 0 < s.pipe) :
      ServerStep vm_max_threads s .readByte ({ s with main := .idle }, none)
  /-- The first client is taken. -/
  | takeProcessed (a : Addr) (rest : List Addr) (hmain : s.main = .taking)
      (hlock : s.lockFree = true) (hproc : s.io_processed = a :: rest) :
      ServerStep vm_max_threads s .takeProcessed
        ({ s with io_processed := rest, main := .registering a }, none)
  /-- The client is registered for writing. -/
  | register (a : Addr) (c : RedisClient) (hmain : s.main = .registering a)
      (hc : s.heap a = some c) :
      ServerStep vm_max_threads s .register
        ({ s with events := aeCreateFileEvent s.events c.fd .writable a, main := .looping }, none)
  /-- A worker moves. -/
  | worker (i : ℕ) (act : WorkerAct) (t : Server) (ht : workerAct s i act = some t) :
      ServerStep vm_max_threads s (.worker i act) (t, none)

/-- Every step of the server is one of these. -/
theorem serverStep_of_frees {vm_max_threads : UInt32} {s : Server} {l : ServerLabel}
    {t : Server × Option Addr} (h : serverStepFrees vm_max_threads s l = some t) :
    ServerStep vm_max_threads s l t := by
  cases l with
  | accept fd a =>
    simp only [serverStepFrees] at h
    split_ifs at h with hmain
    cases h
    exact .accept fd a hmain
  | readable fd r =>
    simp only [serverStepFrees] at h
    split_ifs at h with hcond
    split at h
    case h_1 => cases h
    case h_2 c hc =>
      rw [← Option.some.inj h]
      exact .readable fd r c hcond.1 hcond.2 hc
  | writable fd r =>
    simp only [serverStepFrees] at h
    split_ifs at h with hcond
    split at h
    case h_1 => cases h
    case h_2 c hc =>
      rw [← Option.some.inj h]
      exact .writable fd r c hcond.1 hcond.2 hc
  | completed =>
    simp only [serverStepFrees] at h
    split_ifs at h with hcond
    cases h
    exact .completed hcond.1 hcond.2
  | append =>
    simp only [serverStepFrees] at h
    split at h
    case h_1 a hmain => cases h; exact .append a hmain
    case h_2 => cases h
  | compare =>
    simp only [serverStepFrees] at h
    split_ifs at h with hmain hlt
    · cases h
      exact .room hmain hlt
    · cases h
      exact .full hmain hlt
  | spawn =>
    simp only [serverStepFrees] at h
    split_ifs at h with hmain
    cases h
    exact .spawn hmain
  | increment =>
    simp only [serverStepFrees] at h
    split_ifs at h with hmain
    cases h
    exact .increment hmain
  | readByte =>
    simp only [serverStepFrees] at h
    split_ifs at h with hmain hpipe
    · cases h
      exact .readByte hmain hpipe
    · cases h
      exact .pipeEmpty hmain hpipe
  | takeProcessed =>
    simp only [serverStepFrees] at h
    split_ifs at h with hcond
    split at h
    case h_1 => cases h
    case h_2 a rest hproc => cases h; exact .takeProcessed a rest hcond.1 hcond.2 hproc
  | register =>
    simp only [serverStepFrees] at h
    split at h
    case h_1 a hmain =>
      split at h
      case h_1 => cases h
      case h_2 c hc => cases h; exact .register a c hmain hc
    case h_2 => cases h
  | worker i act =>
    obtain ⟨t', ht', rfl⟩ := Option.map_eq_some_iff.mp h
    exact .worker i act t' ht'

/-! ## One client -/

/-- A client whose message is full. -/
structure RedisClient.Full (c : RedisClient) : Prop where
  /-- The length was read. -/
  four_le : 4 ≤ c.rbuf.length
  /-- The length is that of the message. -/
  qsize_eq : qsize c.rbuf = c.rbuf.length

/-- A client is queued when its message is full. -/
theorem processInputBuffer_queue {c : RedisClient} :
    processInputBuffer c = .queue ↔ c.Full := by
  unfold processInputBuffer
  constructor
  · intro h
    split_ifs at h with h1 h2 h3
    exact ⟨by omega, by omega⟩
  · rintro ⟨h1, h2⟩
    rw [if_neg (by omega), if_neg (by omega), if_neg (by omega)]

/-- More bytes do not change the length that is read. -/
theorem qsize_append {rbuf : Bytes} (h : 4 ≤ rbuf.length) (bytes : Bytes) :
    qsize (rbuf ++ bytes) = qsize rbuf := by
  rw [qsize, qsize, List.take_append_of_le_length h]

/-- A read of more bytes, of the end of the stream or of an error frees a client whose message is
full. -/
theorem readQueryFromClient_full {c : RedisClient} (hc : c.Full) {r : ReadResult}
    (hr : r ≠ .eagain) (hvalid : r.Valid READ_BUF_LEN) : (readQueryFromClient c r).2 = .free := by
  cases r with
  | eagain => exact absurd rfl hr
  | error => rfl
  | eof => rfl
  | data bytes =>
    simp only [readQueryFromClient]
    split_ifs with hlen
    · rfl
    · have hpos := List.length_pos_iff.mpr hvalid.1
      have h4 := hc.four_le
      have hq := hc.qsize_eq
      simp only [processInputBuffer, qsize_append h4, List.length_append]
      rw [if_neg (by omega), if_neg (by push_cast; omega), if_pos (by push_cast; omega)]

/-- A read keeps the client's descriptor. -/
theorem readQueryFromClient_fd (c : RedisClient) (r : ReadResult) :
    (readQueryFromClient c r).1.fd = c.fd := by
  unfold readQueryFromClient
  cases r with
  | data bytes => simp only; split_ifs <;> rfl
  | _ => rfl

/-- A client is queued by a read of data that makes its message full. -/
theorem full_of_readQueryFromClient {c : RedisClient} {r : ReadResult}
    (h : (readQueryFromClient c r).2 = .queue) : (readQueryFromClient c r).1.Full := by
  unfold readQueryFromClient at h ⊢
  cases r with
  | data bytes =>
    simp only at h ⊢
    split_ifs at h ⊢
    exact processInputBuffer_queue.mp h
  | _ => cases h

/-- A write keeps the client's descriptor. -/
theorem sendReplyToClient_fd (c : RedisClient) (r : WriteResult) :
    (sendReplyToClient c r).1.fd = c.fd := by
  unfold sendReplyToClient resetClient
  cases r <;> simp only <;> split_ifs <;> rfl

/-! ## The steps that pass a client from hand to hand -/

/-- The command has been run for a client that is in a queue or in the hands of a thread. -/
def Server.Answered (s : Server) (a : Addr) : Prop :=
  .ran a ∈ s.workers ∨ a ∈ s.io_processed ∨ s.main = .registering a

/-- The clients stay as they are, and none is lost or doubled. -/
structure Server.Passes (s t : Server) : Prop where
  /-- The live clients stay. -/
  heap : t.heap = s.heap
  /-- The event table stays. -/
  events : t.events = s.events
  /-- A client goes from hand to hand. -/
  inFlight : ∀ a, t.inFlight a = s.inFlight a
  /-- The command is run for no client. -/
  answered : ∀ a, t.Answered a → s.Answered a

/-- The steps that pass a client from hand to hand, or none. -/
def ServerLabel.passes : ServerLabel → Bool
  | .accept .. => false
  | .readable .. => false
  | .writable .. => false
  | .register => false
  | .worker _ act => act ≠ .run
  | _ => true

/-- A worker passes a client on, or none. -/
theorem passes_of_workerAct {s t : Server} {i : ℕ} {act : WorkerAct} (hact : act ≠ .run)
    (h : workerAct s i act = some t) : s.Passes t := by
  -- What the worker has after the step is what it had, or what a queue had.
  have hset : ∀ {w : WorkerPc} {b : Addr}, .ran b ∈ s.workers.set i w → .ran b ∈ s.workers ∨
      w = .ran b := fun h => (List.mem_or_eq_of_mem_set h).imp_right Eq.symm
  cases workerStep_of_workerAct h with
  | empty hi =>
    refine ⟨rfl, rfl, fun b => ?_, fun b => Or.imp_left fun hb => ?_⟩
    · have := held_set WorkerPc.client hi .emptied b
      simp only [WorkerPc.client, has_none] at this
      simp only [Server.inFlight]
      omega
    · exact (hset hb).resolve_right (by simp)
  | take a rest hi hlock hjobs =>
    refine ⟨rfl, rfl, fun b => ?_, fun b => Or.imp_left fun hb => ?_⟩
    · have := held_set WorkerPc.client hi (.holding a) b
      simp only [WorkerPc.client, has_none] at this
      simp only [Server.inFlight, hjobs, count_cons_has]
      omega
    · exact (hset hb).resolve_right (by simp)
  | decrement hi =>
    refine ⟨rfl, rfl, fun b => ?_, fun b => Or.imp_left fun hb => ?_⟩
    · have := held_set WorkerPc.client hi .leaving b
      simp only [WorkerPc.client, has_none] at this
      simp only [Server.inFlight]
      omega
    · exact (hset hb).resolve_right (by simp)
  | exit hi =>
    refine ⟨rfl, rfl, fun b => ?_, fun b => Or.imp_left fun hb => ?_⟩
    · have := held_set WorkerPc.client hi .exited b
      simp only [WorkerPc.client, has_none] at this
      simp only [Server.inFlight]
      omega
    · exact (hset hb).resolve_right (by simp)
  | run => exact absurd rfl hact
  | append a hi =>
    refine ⟨rfl, rfl, fun b => ?_, fun b hb => ?_⟩
    · have := held_set WorkerPc.client hi .notifying b
      simp only [WorkerPc.client, has_none] at this
      simp only [Server.inFlight, count_append_has]
      omega
    · rcases hb with hb | hb | hb
      · exact .inl ((hset hb).resolve_right (by simp))
      · rcases List.mem_append.mp hb with hb | hb
        · exact .inr (.inl hb)
        · rw [List.mem_singleton.mp hb]
          exact .inl (List.mem_of_getElem? hi)
      · exact .inr (.inr hb)
  | notify hi =>
    refine ⟨rfl, rfl, fun b => ?_, fun b => Or.imp_left fun hb => ?_⟩
    · have := held_set WorkerPc.client hi .polling b
      simp only [WorkerPc.client, has_none] at this
      simp only [Server.inFlight]
      omega
    · exact (hset hb).resolve_right (by simp)

/-- A step of the kind passes a client on, or none. -/
theorem passes_of_step {vm_max_threads : UInt32} {s t : Server} {l : ServerLabel}
    (h : serverStep vm_max_threads s l = some t) (hl : l.passes = true) : s.Passes t := by
  -- The main thread moves with empty hands, and lets the workers and the queues be.
  have hempty : ∀ {main : MainPc} {n : UInt32} {pipe : ℕ}, s.main.client = none →
      main.client = none → s.Passes { s with
        io_active_threads := n
        pipe := pipe
        main := main } := by
    intro main n pipe hs hmain
    refine ⟨rfl, rfl, fun a => ?_, fun a => Or.imp_right (Or.imp_right fun h => ?_)⟩
    · simp only [Server.inFlight, hs, hmain]
    · rw [show main = .registering a from h] at hmain
      cases hmain
  obtain ⟨t, hstep, rfl⟩ := Option.map_eq_some_iff.mp h
  cases serverStep_of_frees hstep with
  | accept | readable | writable | register => cases hl
  | completed hmain => exact hempty (by rw [hmain]; rfl) rfl
  | append a hmain =>
    refine ⟨rfl, rfl, fun b => ?_, fun b => ?_⟩
    · simp only [Server.inFlight, hmain, MainPc.client, has_none, count_append_has]
      omega
    · simp only [Server.Answered, reduceCtorEq, or_false]
      exact Or.imp_right .inl
  | room hmain => exact hempty (by rw [hmain]; rfl) rfl
  | full hmain => exact hempty (by rw [hmain]; rfl) rfl
  | spawn hmain =>
    refine ⟨rfl, rfl, fun b => ?_, fun b => ?_⟩
    · simp only [Server.inFlight, hmain, MainPc.client, held_append, WorkerPc.client, has_none,
        add_zero]
    · simp only [Server.Answered, List.mem_append, List.mem_singleton, reduceCtorEq, or_false]
      exact Or.imp_right .inl
  | increment hmain => exact hempty (by rw [hmain]; rfl) rfl
  | readByte hmain => exact hempty (by rw [hmain]; rfl) rfl
  | pipeEmpty hmain => exact hempty (by rw [hmain]; rfl) rfl
  | takeProcessed a rest hmain hlock hproc =>
    refine ⟨rfl, rfl, fun b => ?_, fun b hb => ?_⟩
    · simp only [Server.inFlight, hmain, hproc, MainPc.client, has_none, count_cons_has]
      omega
    · -- The client that is taken was in `io_processed`.
      rcases hb with hb | hb | hb
      · exact .inl hb
      · exact .inr (.inl (by rw [hproc]; exact List.mem_cons_of_mem _ hb))
      · obtain rfl := MainPc.registering.inj hb
        exact .inr (.inl (by rw [hproc]; exact List.mem_cons_self))
  | worker i act t ht => exact passes_of_workerAct (by simpa [ServerLabel.passes] using hl) ht

/-! ## The clients in a run of quiet steps -/

/-- What holds of a live client. -/
structure Server.ClientOk (s : Server) (a : Addr) (c : RedisClient) : Prop where
  /-- It is registered for reading. -/
  readable : (s.events c.fd).readable = true
  /-- It is registered under its address. -/
  clientData : (s.events c.fd).clientData = a
  /-- While it is registered for writing, its message is full. -/
  writable : (s.events c.fd).writable = true → c.Full
  /-- While it is in a queue or in the hands of a thread, its message is full, and it is not
  registered for writing. -/
  inFlight : 0 < s.inFlight a → c.Full ∧ (s.events c.fd).writable = false

/-- What holds of the server in a run of quiet steps. -/
structure Server.Inv (s : Server) : Prop where
  /-- No client is in the queues and the hands of the threads twice. -/
  once : ∀ a, s.inFlight a ≤ 1
  /-- The live clients. -/
  live : ∀ a c, s.heap a = some c → s.ClientOk a c
  /-- What is in a queue or in the hands of a thread is live. -/
  dead : ∀ a, s.heap a = none → s.inFlight a = 0
  /-- What is registered is live, with that descriptor. -/
  events : ∀ fd a, (s.events fd).client = some a → ∃ c, s.heap a = some c ∧ c.fd = fd

/-- A step that concerns one client and its descriptor keeps the invariant when it keeps it for
this client. -/
theorem Server.Inv.change {s t : Server} (hs : s.Inv) {a : Addr} {k : ℕ}
    (ha : ∀ c, s.heap a = some c → c.fd = k)
    (hk : ∀ b c, s.heap b = some c → c.fd = k → b = a)
    (hheap : ∀ b, b ≠ a → t.heap b = s.heap b) (hev : ∀ j, j ≠ k → t.events j = s.events j)
    (hout : ∀ b, b ≠ a → t.inFlight b = s.inFlight b) (honce : t.inFlight a ≤ 1)
    (hnew : ∀ c, t.heap a = some c → c.fd = k ∧ t.ClientOk a c)
    (hnone : t.heap a = none → t.inFlight a = 0 ∧ (t.events k).client = none) : t.Inv where
  once b := by
    by_cases hb : b = a
    · rw [hb]
      exact honce
    · rw [hout b hb]
      exact hs.once b
  live b c hc := by
    by_cases hb : b = a
    · subst hb
      exact (hnew c hc).2
    · rw [hheap b hb] at hc
      have hok := hs.live b c hc
      have hfd : t.events c.fd = s.events c.fd := hev _ fun h => hb (hk b c hc h)
      exact ⟨by rw [hfd]; exact hok.readable, by rw [hfd]; exact hok.clientData,
        by rw [hfd]; exact hok.writable, by rw [hfd, hout b hb]; exact hok.inFlight⟩
  dead b hb := by
    by_cases hba : b = a
    · subst hba
      exact (hnone hb).1
    · rw [hheap b hba] at hb
      rw [hout b hba]
      exact hs.dead b hb
  events fd b hb := by
    by_cases hfd : fd = k
    · subst hfd
      cases hc : t.heap a with
      | none =>
        rw [(hnone hc).2] at hb
        cases hb
      | some c =>
        obtain ⟨hck, hok⟩ := hnew c hc
        have hba : b = a := by
          rw [← hck] at hb
          rw [← (FileEvent.client_eq_some.mp hb).2, hok.clientData]
        exact ⟨c, by rw [hba, hc], hck⟩
    · rw [hev fd hfd] at hb
      obtain ⟨c, hc, hcfd⟩ := hs.events fd b hb
      have hba : b ≠ a := by
        rintro rfl
        exact hfd (hcfd.symm.trans (ha c hc))
      exact ⟨c, by rw [hheap b hba, hc], hcfd⟩

/-- A step that concerns one live client keeps the invariant when it keeps it for this client. -/
theorem Server.Inv.changeLive {s t : Server} (hs : s.Inv) {a : Addr} {c : RedisClient}
    (hc : s.heap a = some c) (hheap : ∀ b, b ≠ a → t.heap b = s.heap b)
    (hev : ∀ j, j ≠ c.fd → t.events j = s.events j)
    (hout : ∀ b, b ≠ a → t.inFlight b = s.inFlight b) (honce : t.inFlight a ≤ 1)
    (hnew : ∀ d, t.heap a = some d → d.fd = c.fd ∧ t.ClientOk a d)
    (hnone : t.heap a = none → t.inFlight a = 0 ∧ (t.events c.fd).client = none) : t.Inv := by
  refine hs.change (fun d hd => ?_) (fun b d hd hfd => ?_) hheap hev hout honce hnew hnone
  · rw [Option.some.inj (hd.symm.trans hc)]
  · have hb := (hs.live b d hd).clientData
    rw [hfd, (hs.live a c hc).clientData] at hb
    exact hb.symm

/-- A step that passes a client from hand to hand. -/
theorem Server.Inv.pass {s t : Server} (hs : s.Inv) (hheap : t.heap = s.heap)
    (hev : t.events = s.events) (hout : ∀ a, t.inFlight a = s.inFlight a) : t.Inv where
  once a := by rw [hout]; exact hs.once a
  live a c hc := by
    rw [hheap] at hc
    have hok := hs.live a c hc
    exact ⟨by rw [hev]; exact hok.readable, by rw [hev]; exact hok.clientData,
      by rw [hev]; exact hok.writable, by rw [hev, hout]; exact hok.inFlight⟩
  dead a ha := by
    rw [hheap] at ha
    rw [hout]
    exact hs.dead a ha
  events fd a ha := by
    rw [hev] at ha
    rw [hheap]
    exact hs.events fd a ha

/-- The record of a client changes, its descriptor stays, and its message stays full. -/
theorem Server.Inv.setClient {s : Server} (hs : s.Inv) {a : Addr} {c c' : RedisClient}
    (hc : s.heap a = some c) (hfd : c'.fd = c.fd) (hfull : c.Full → c'.Full) :
    (s.setClient a c').Inv := by
  have hok := hs.live a c hc
  refine hs.changeLive hc (fun b hb => Function.update_of_ne hb ..) (fun _ _ => rfl)
    (fun _ _ => rfl) (hs.once a) (fun d hd => ?_) (fun h => ?_)
  · obtain rfl : c' = d := by simpa [Server.setClient] using hd
    refine ⟨hfd, ⟨?_, ?_, fun hw => ?_, fun hout => ?_⟩⟩
    · rw [hfd]; exact hok.readable
    · rw [hfd]; exact hok.clientData
    · rw [hfd] at hw
      exact hfull (hok.writable hw)
    · rw [hfd]
      exact ⟨hfull (hok.inFlight hout).1, (hok.inFlight hout).2⟩
  · simp [Server.setClient] at h

/-- `freeClient` applied to a client that is in nobody's hands. -/
theorem Server.Inv.freeClient {s : Server} (hs : s.Inv) {a : Addr} {c : RedisClient}
    (hc : s.heap a = some c) (hout : s.inFlight a = 0) : (freeClient s a c).Inv := by
  refine hs.changeLive hc (fun b hb => Function.update_of_ne hb ..) (fun j hj => ?_)
    (fun _ _ => rfl) (hs.once a) (fun d hd => ?_) (fun _ => ⟨hout, ?_⟩)
  · simp only [RedisServer.freeClient]
    rw [aeDeleteFileEvent_of_ne hj, aeDeleteFileEvent_of_ne hj]
  · simp [RedisServer.freeClient] at hd
  · simp [RedisServer.freeClient, FileEvent.client]

/-- A client whose record has just changed is freed. -/
theorem freeClient_setClient (s : Server) (a : Addr) {c c' : RedisClient} (hfd : c'.fd = c.fd) :
    RedisServer.freeClient (s.setClient a c') a c' = RedisServer.freeClient s a c := by
  simp [RedisServer.freeClient, Server.setClient, Function.update_idem, hfd]

/-- A client in nobody's hands whose message is full is appended. -/
theorem Server.Inv.queue {s : Server} (hs : s.Inv) (hmain : s.main = .idle) {a : Addr}
    {c : RedisClient} (hc : s.heap a = some c) (hfull : c.Full)
    (hw : (s.events c.fd).writable = false) (hout : s.inFlight a = 0) :
    Server.Inv { s with main := .appending a } := by
  have hok := hs.live a c hc
  have hone : Server.inFlight { s with main := .appending a } a = 1 := by
    simp only [Server.inFlight, hmain, MainPc.client, has_none, has_self] at hout ⊢
    omega
  refine hs.changeLive hc (fun _ _ => rfl) (fun _ _ => rfl) (fun b hb => ?_) hone.le
    (fun d hd => ?_) (fun h => ?_)
  · have hba : some a ≠ some b := fun h => hb (Option.some.inj h).symm
    simp [Server.inFlight, hmain, MainPc.client, has_of_ne hba]
  · obtain rfl : c = d := Option.some.inj (hc.symm.trans hd)
    exact ⟨rfl, hok.readable, hok.clientData, hok.writable, fun _ => ⟨hfull, hw⟩⟩
  · rw [hc] at h
    cases h

/-- A read that is quiet keeps the invariant. -/
theorem Server.Inv.read {s : Server} (hs : s.Inv) (hmain : s.main = .idle) {a : Addr}
    {c : RedisClient} (hc : s.heap a = some c) {r : ReadResult} (hvalid : r.Valid READ_BUF_LEN)
    (hquiet : r = .eagain ∨ s.inFlight a = 0) :
    ((readQueryFromClient c r).2.carryOut (s.setClient a (readQueryFromClient c r).1) a
      (readQueryFromClient c r).1).1.Inv := by
  have hfd := readQueryFromClient_fd c r
  by_cases hr : r = .eagain
  · subst hr
    exact hs.setClient hc rfl id
  have hout : s.inFlight a = 0 := hquiet.resolve_left hr
  have hset : (s.setClient a (readQueryFromClient c r).1).heap a =
      some (readQueryFromClient c r).1 := Function.update_self ..
  have hqueue := full_of_readQueryFromClient (c := c) (r := r)
  have hfree := fun hfull : c.Full => readQueryFromClient_full hfull hr hvalid
  generalize readQueryFromClient c r = x at hfd hset hqueue hfree ⊢
  obtain ⟨c', act⟩ := x
  dsimp only at hfd hset hqueue hfree ⊢
  cases act with
  | free =>
    rw [ReadAction.carryOut, freeClient_setClient s a hfd]
    exact hs.freeClient hc hout
  | wait => exact hs.setClient hc hfd fun hfull => absurd (hfree hfull) (by simp)
  | queue =>
    -- The message was not full before, so the client is not registered for writing.
    have hnot : ¬ c.Full := fun hfull => absurd (hfree hfull) (by simp)
    have hs' := hs.setClient hc hfd fun hfull => absurd hfull hnot
    refine hs'.queue hmain hset (hqueue rfl) ?_ hout
    rw [hfd]
    by_contra hw
    exact hnot ((hs.live a c hc).writable (by simpa [Server.setClient] using hw))

/-- A write keeps the invariant. -/
theorem Server.Inv.write {s : Server} (hs : s.Inv) {a : Addr} {c : RedisClient}
    (hc : s.heap a = some c) (hw : (s.events c.fd).writable = true) (r : WriteResult) :
    ((sendReplyToClient c r).2.carryOut (s.setClient a (sendReplyToClient c r).1) a
      (sendReplyToClient c r).1).1.Inv := by
  have hfd := sendReplyToClient_fd c r
  have hok := hs.live a c hc
  have hout : s.inFlight a = 0 := by
    by_contra h
    have := (hok.inFlight (by omega)).2
    rw [hw] at this
    cases this
  have hwait : (sendReplyToClient c r).2 = .wait → (sendReplyToClient c r).1.rbuf = c.rbuf := by
    unfold sendReplyToClient
    cases r with
    | error => exact fun _ => rfl
    | eagain => simp only; split_ifs <;> simp
    | wrote n => simp only; split_ifs <;> simp
  generalize sendReplyToClient c r = x at hfd hwait ⊢
  obtain ⟨c', act⟩ := x
  dsimp only at hfd hwait ⊢
  cases act with
  | free =>
    rw [WriteAction.carryOut, freeClient_setClient s a hfd]
    exact hs.freeClient hc hout
  | wait =>
    have hrbuf := hwait rfl
    exact hs.setClient hc hfd fun h =>
      ⟨by rw [hrbuf]; exact h.four_le, by rw [hrbuf]; exact h.qsize_eq⟩
  | reset =>
    refine hs.changeLive hc (fun b hb => Function.update_of_ne hb ..) (fun j hj => ?_)
      (fun _ _ => rfl) (hs.once a) (fun d hd => ?_) (fun h => ?_)
    · simp only [WriteAction.carryOut, resetEvents, hfd]
      rw [aeCreateFileEvent_of_ne hj, aeDeleteFileEvent_of_ne hj, aeDeleteFileEvent_of_ne hj]
      rfl
    · obtain rfl : c' = d := by
        simpa [WriteAction.carryOut, resetEvents, Server.setClient] using hd
      have hev : ((WriteAction.reset.carryOut (s.setClient a c') a c').1.events c'.fd) =
          { readable := true, writable := false, clientData := a } := by
        simp [WriteAction.carryOut, resetEvents]
      refine ⟨hfd, ⟨by rw [hev], by rw [hev], fun h => ?_, fun h => ?_⟩⟩
      · rw [hev] at h
        cases h
      · exact absurd hout (Nat.pos_iff_ne_zero.mp h)
    · simp [WriteAction.carryOut, resetEvents, Server.setClient] at h

/-- A client that the main thread takes from `io_processed` is registered for writing. -/
theorem Server.Inv.register {s : Server} (hs : s.Inv) {a : Addr} {c : RedisClient}
    (hmain : s.main = .registering a) (hc : s.heap a = some c) :
    Server.Inv { s with
      events := aeCreateFileEvent s.events c.fd .writable a
      main := .looping } := by
  have hok := hs.live a c hc
  have hpos : 0 < s.inFlight a := by simp [Server.inFlight, hmain, MainPc.client]
  have hzero : Server.inFlight { s with
      events := aeCreateFileEvent s.events c.fd .writable a
      main := .looping } a = 0 := by
    have := hs.once a
    simp only [Server.inFlight, hmain, MainPc.client, has_none, has_self] at this ⊢
    omega
  refine hs.changeLive hc (fun _ _ => rfl) (fun j hj => by simp [hj])
    (fun b hb => ?_) (by omega) (fun d hd => ?_) (fun h => ?_)
  · have hba : some a ≠ some b := fun h => hb (Option.some.inj h).symm
    simp [Server.inFlight, hmain, MainPc.client, has_of_ne hba]
  · obtain rfl : c = d := Option.some.inj (hc.symm.trans hd)
    refine ⟨rfl, ⟨by simp [hok.readable], by simp, fun _ => (hok.inFlight hpos).1, fun h => ?_⟩⟩
    omega
  · dsimp only at h
    rw [hc] at h
    cases h

/-- A new client is registered for reading. -/
theorem Server.Inv.createClient {s : Server} (hs : s.Inv) {fd : ℕ} {a : Addr}
    (ha : s.heap a = none) (hfd : ∀ b c, s.heap b = some c → c.fd ≠ fd) :
    (createClient s fd a).Inv := by
  have hnone : (s.events fd).client = none := by
    by_contra h
    obtain ⟨b, hb⟩ := Option.ne_none_iff_exists'.mp h
    obtain ⟨c, hc, hcfd⟩ := hs.events fd b hb
    exact hfd b c hc hcfd
  have hw := (FileEvent.client_eq_none.mp hnone).2
  refine hs.change (k := fd) (fun c hc => ?_) (fun b c hc h => absurd h (hfd b c hc))
    (fun b hb => Function.update_of_ne hb ..)
    (fun j hj => by simp [RedisServer.createClient, Server.setClient, hj])
    (fun _ _ => rfl) (hs.once a) (fun d hd => ?_) (fun h => ?_)
  · rw [ha] at hc
    cases hc
  · obtain rfl : { fd := fd } = d := by
      simpa [RedisServer.createClient, Server.setClient] using hd
    refine ⟨rfl, ⟨by simp [RedisServer.createClient], by simp [RedisServer.createClient],
      fun h => ?_, fun h => ?_⟩⟩
    · simp [RedisServer.createClient, hw] at h
    · exact absurd (hs.dead a ha) (Nat.pos_iff_ne_zero.mp h)
  · simp [RedisServer.createClient, Server.setClient] at h

/-- `processCommand` runs. -/
theorem workerAct_run {s t : Server} {i : ℕ} (h : workerAct s i .run = some t) :
    ∃ a c, s.workers[i]? = some (.holding a) ∧ s.heap a = some c ∧
      t = { s.setClient a (redisCommandProc c) with workers := s.workers.set i (.ran a) } := by
  cases workerStep_of_workerAct h with
  | run a c hi hc => exact ⟨a, c, hi, hc, rfl⟩

/-- A worker puts the first client back after `processCommand` has run. -/
theorem Server.Inv.run {s : Server} (hs : s.Inv) {i : ℕ} {a : Addr} {c : RedisClient}
    (hi : s.workers[i]? = some (.holding a)) (hc : s.heap a = some c) :
    Server.Inv { s.setClient a (redisCommandProc c) with workers := s.workers.set i (.ran a) } := by
  have hset : (s.setClient a (redisCommandProc c)).Inv :=
    hs.setClient hc rfl fun h => ⟨h.four_le, h.qsize_eq⟩
  refine hset.pass rfl rfl fun b => ?_
  have := held_set WorkerPc.client hi (.ran a) b
  simp only [WorkerPc.client] at this
  simp only [Server.inFlight, Server.setClient]
  omega

/-- The invariant is kept by every quiet step. -/
theorem Server.Inv.step {vm_max_threads : UInt32} {s s' : Server} {l : ServerLabel} (hs : s.Inv)
    (hl : s.ValidStep l) (hq : s.QuietStep l) (h : serverStep vm_max_threads s l = some s') :
    s'.Inv := by
  by_cases hpass : l.passes = true
  · have hp := passes_of_step h hpass
    exact hs.pass hp.heap hp.events hp.inFlight
  obtain ⟨t, hstep, rfl⟩ := Option.map_eq_some_iff.mp h
  cases serverStep_of_frees hstep with
  | accept fd a => exact hs.createClient hl.1 hl.2
  | readable fd r c hmain hev hc => exact hs.read hmain hc hl hq
  | writable fd r c hmain hev hc =>
    refine hs.write hc ?_ r
    obtain ⟨d, hd, hdfd⟩ := hs.events fd _ (FileEvent.client_eq_some.mpr ⟨.inr hev, rfl⟩)
    obtain rfl : c = d := Option.some.inj (hc.symm.trans hd)
    rw [hdfd]
    exact hev
  | register a c hmain hc => exact hs.register hmain hc
  | worker i act t ht =>
    obtain rfl : act = .run := by simpa [ServerLabel.passes] using hpass
    obtain ⟨a, c, hi, hc, rfl⟩ := workerAct_run ht
    exact hs.run hi hc
  | _ => exact absurd rfl hpass

/-- The server starts with no client. -/
theorem Server.inv_init : Server.Inv {} where
  once a := by simp [Server.inFlight, held, MainPc.client]
  live a c hc := by cases hc
  dead a _ := by simp [Server.inFlight, held, MainPc.client]
  events fd a h := by simp [FileEvent.client] at h

/-! ## What is in flight -/

/-- What is in `io_newjobs`, in the hands of a worker or in `io_processed` is a live client, and
none of them is there twice. -/
structure Server.InFlightLive (s : Server) : Prop where
  /-- What is in `io_newjobs` is live. -/
  io_newjobs : ∀ a ∈ s.io_newjobs, (s.heap a).isSome
  /-- What a worker holds is live. -/
  workers : ∀ w ∈ s.workers, ∀ a, w.client = some a → (s.heap a).isSome
  /-- What is in `io_processed` is live. -/
  io_processed : ∀ a ∈ s.io_processed, (s.heap a).isSome
  /-- Nothing is there twice. -/
  once : ∀ a, s.io_newjobs.count a + held WorkerPc.client s.workers a +
    s.io_processed.count a ≤ 1

/-- The invariant says so. -/
theorem Server.Inv.inFlightLive {s : Server} (hs : s.Inv) : s.InFlightLive := by
  have hlive : ∀ a, 0 < s.io_newjobs.count a + held WorkerPc.client s.workers a +
      s.io_processed.count a → (s.heap a).isSome := by
    intro a hpos
    by_contra hnone
    have := hs.dead a (by simpa using hnone)
    rw [Server.inFlight] at this
    omega
  refine ⟨fun a ha => hlive a ?_, fun w hw a ha => hlive a ?_, fun a ha => hlive a ?_,
    fun a => ?_⟩
  · have := List.count_pos_iff.mpr ha
    omega
  · obtain ⟨i, hi⟩ := List.getElem?_of_mem hw
    have := (held_pos_iff WorkerPc.client s.workers a).mpr ⟨i, w, hi, ha⟩
    omega
  · have := List.count_pos_iff.mpr ha
    omega
  · have := hs.once a
    rw [Server.inFlight] at this
    omega

/-- The event that is handled when `freeClient` is applied to a client, and nothing else frees. -/
theorem event_of_frees {vm_max_threads : UInt32} {s t : Server} {l : ServerLabel} {a : Addr}
    (h : serverStepFrees vm_max_threads s l = some (t, some a)) :
    (∃ fd r c, l = .readable fd r ∧ (s.events fd).clientData = a ∧ s.heap a = some c ∧
      (readQueryFromClient c r).2 = .free) ∨
    ∃ fd r, l = .writable fd r ∧ (s.events fd).clientData = a ∧
      (s.events fd).writable = true := by
  cases l with
  | readable fd r =>
    simp only [serverStepFrees] at h
    split_ifs at h with hcond
    split at h
    case h_1 => cases h
    case h_2 c hc =>
      have hfreed := congrArg Prod.snd (Option.some.inj h)
      generalize hact : (readQueryFromClient c r).2 = act at hfreed
      cases act <;> simp only [ReadAction.carryOut, reduceCtorEq, Option.some.injEq] at hfreed
      exact .inl ⟨fd, r, c, rfl, hfreed, by rw [← hfreed, hc], hact⟩
  | writable fd r =>
    simp only [serverStepFrees] at h
    split_ifs at h with hcond
    split at h
    case h_1 => cases h
    case h_2 c hc =>
      have hfreed := congrArg Prod.snd (Option.some.inj h)
      generalize (sendReplyToClient c r).2 = act at hfreed
      cases act <;> simp only [WriteAction.carryOut, reduceCtorEq, Option.some.injEq] at hfreed
      exact .inr ⟨fd, r, rfl, hfreed, hcond.2⟩
  | worker i act =>
    obtain ⟨t', -, heq⟩ := Option.map_eq_some_iff.mp h
    cases heq
  | append => simp only [serverStepFrees] at h; split at h <;> cases h
  | takeProcessed =>
    simp only [serverStepFrees] at h
    split_ifs at h
    split at h <;> cases h
  | register =>
    simp only [serverStepFrees] at h
    split at h
    · split at h <;> cases h
    · cases h
  | accept | completed | compare | spawn | increment | readByte =>
    simp only [serverStepFrees] at h
    split_ifs at h <;> cases h

/-- A quiet step frees no client that is in a queue or in the hands of a thread. -/
theorem Server.Inv.inFlight_of_frees {vm_max_threads : UInt32} {s t : Server} {l : ServerLabel}
    {a : Addr} (hs : s.Inv) (hq : s.QuietStep l)
    (h : serverStepFrees vm_max_threads s l = some (t, some a)) : s.inFlight a = 0 := by
  rcases event_of_frees h with ⟨fd, r, c, rfl, rfl, hc, hfree⟩ | ⟨fd, r, rfl, rfl, hw⟩
  · refine hq.resolve_left ?_
    rintro rfl
    cases hfree
  · obtain ⟨c, hc, rfl⟩ := hs.events fd _ (FileEvent.client_eq_some.mpr ⟨.inr hw, rfl⟩)
    by_contra hne
    have := ((hs.live _ c hc).inFlight (by omega)).2
    rw [hw] at this
    cases this

/-- A read from a client that is in a queue or in the hands of a thread, of anything but nothing,
frees the client, and leaves it where it is. -/
theorem frees_of_read_inFlight {vm_max_threads : UInt32} {s t : Server} {fd : ℕ} {r : ReadResult}
    {freed : Option Addr} (hs : s.Inv) (hvalid : r.Valid READ_BUF_LEN)
    (hnot : ¬ s.QuietStep (.readable fd r))
    (h : serverStepFrees vm_max_threads s (.readable fd r) = some (t, freed)) :
    freed = some (s.events fd).clientData ∧ t.heap (s.events fd).clientData = none ∧
      0 < t.inFlight (s.events fd).clientData := by
  simp only [Server.QuietStep, not_or] at hnot
  have hpos : 0 < s.inFlight (s.events fd).clientData := by omega
  simp only [serverStepFrees] at h
  split_ifs at h with hcond
  split at h
  case h_1 => cases h
  case h_2 c hc =>
    have hfull := ((hs.live _ c hc).inFlight hpos).1
    have hstep := Option.some.inj h
    rw [readQueryFromClient_full hfull hnot.1 hvalid, ReadAction.carryOut] at hstep
    obtain ⟨rfl, rfl⟩ := Prod.mk.inj hstep
    exact ⟨rfl, Function.update_self .., hpos⟩

/-- In a run in which every read from a client that is in a queue or in the hands of a thread
finds nothing to read, what is in the queues and in the hands of the workers is live and is there
once, and no step of this kind frees it. -/
theorem inFlight_live (vm_max_threads : UInt32) (s : Server)
    (h : (serverSystem vm_max_threads).Reach (fun s l => s.ValidStep l ∧ s.QuietStep l) s) :
    s.InFlightLive ∧ ∀ l t a, s.QuietStep l →
      serverStepFrees vm_max_threads s l = some (t, some a) → s.inFlight a = 0 := by
  have hs : s.Inv := by
    refine h.invariant ?_ fun s l t hs hl h => hs.step hl.1 hl.2 h
    rintro s rfl
    exact Server.inv_init
  exact ⟨hs.inFlightLive, fun l t a hq hf => hs.inFlight_of_frees hq hf⟩

/-- A client connects and sends a message of four bytes, its length. The main thread queues it and
starts a worker. -/
def fourBytes : List ServerLabel :=
  [.accept 5 1, .readable 5 (.data [4, 0, 0, 0]), .append, .compare, .spawn, .increment]

/-- The steps are ones that the system calls allow. -/
theorem runOk_fourBytes {ls : List ServerLabel} (h : ls = [] ∨ ls = [.readable 5 .eof]) :
    (serverSystem 10).RunOk Server.ValidStep {} (fourBytes ++ ls) := by
  refine ⟨⟨rfl, by simp⟩, fun t _ => Lts.runOk_of_forall (fun l hl t => ?_) t⟩
  rcases h with rfl | rfl <;> fin_cases hl <;> trivial

/-- The client is queued, and is live. -/
theorem inFlight_live_fourBytes : ∃ s : Server, (serverSystem 10).run {} fourBytes = some s ∧
    s.io_newjobs = [1] ∧ s.InFlightLive := by
  have hrun : ((serverSystem 10).run {} fourBytes).map Server.io_newjobs = some [1] := by
    decide +kernel
  obtain ⟨s, hs, h⟩ := Option.map_eq_some_iff.mp hrun
  have hquiet : (serverSystem 10).RunOk Server.QuietStep {} fourBytes := by decide +kernel
  have hok := (runOk_fourBytes (.inl rfl)).and hquiet
  exact ⟨s, hs, h, (inFlight_live 10 s (.run (.init rfl) hok hs)).1⟩

/-- The peer closes the connection before the worker takes the job: the main thread frees the
client, and the queue still has it. -/
theorem freed_in_flight : ∃ s : Server, (serverSystem 10).Reach Server.ValidStep s ∧
    1 ∈ s.io_newjobs ∧ s.heap 1 = none ∧ ¬ s.InFlightLive := by
  have hrun : ((serverSystem 10).run {} (fourBytes ++ [.readable 5 .eof])).map
      (fun s => (s.io_newjobs, s.heap 1)) = some ([1], none) := by
    decide +kernel
  obtain ⟨s, hs, h⟩ := Option.map_eq_some_iff.mp hrun
  obtain ⟨h1, h2⟩ := Prod.mk.inj h
  have hmem : 1 ∈ s.io_newjobs := by rw [h1]; exact List.mem_singleton_self 1
  refine ⟨s, .run (.init rfl) (runOk_fourBytes (.inr rfl)) hs, hmem, h2, fun hlive => ?_⟩
  have := hlive.io_newjobs 1 hmem
  rw [h2] at this
  cases this

end MgCommonUtils.RedisServer
