import MgCommonUtils.Lib.Handoff
import MgCommonUtils.RedisProxy.Server

/-!
# The completion pipe

A worker appends a client to `io_processed` under the lock, and then writes a byte to the pipe.
`vmThreadedIOCompletedJob` reads a byte, takes the first client of `io_processed` under the lock,
and registers it for writing. This is a handover with tokens (`Lib.Handoff`), and `completion` says
that the server follows it step by step, whatever the order of the threads.

So `io_processed` has as many clients as there are bytes in the pipe, workers between the append and
the write, and tokens in the main thread's hands (`completion_accounting`). Its assertion holds, and
the processed clients are registered for writing once and in the order in which they were appended.
-/

namespace MgCommonUtils.RedisProxy

open MgCommonUtils.Lib MgCommonUtils.EventLoop

/-- The main thread as the consumer of the handover. -/
def MainPc.consumer : MainPc → Consumer Addr
  | .taking => .taking
  | .registering a => .holding a
  | _ => .idle

/-- The handover in the state of the server. -/
def Server.handoff (s : Server) : Handoff Addr where
  queue := s.io_processed
  unsignalled := s.workers.count .notifying
  tokens := s.pipe
  consumer := s.main.consumer

/-- What a step of the server is to the handover. -/
def handoffAct (s : Server) : ServerLabel → Handoff.Act Addr
  | .readByte => if 0 < s.pipe then .receive else .other
  | .takeProcessed => .take
  | .register =>
    match s.main with
    | .registering a => .deliver a
    | _ => .other
  | .worker i .append =>
    match s.workers[i]? with
    | some (.ran a) => .append a
    | _ => .other
  | .worker _ .notify => .signal
  | _ => .other

/-- How many workers have still to write to the pipe when one of them moves. -/
theorem count_notifying_set {ws : List WorkerPc} {i : ℕ} {w : WorkerPc} (hi : ws[i]? = some w)
    (w' : WorkerPc) : (ws.set i w').count .notifying + (if w = .notifying then 1 else 0) =
      ws.count .notifying + if w' = .notifying then 1 else 0 := by
  obtain ⟨hlt, hget⟩ := List.getElem?_eq_some_iff.mp hi
  have hpos : w = .notifying → 0 < ws.count .notifying := by
    rintro rfl
    exact List.count_pos_iff.mpr (List.mem_of_getElem? hi)
  rw [List.count_set hlt, hget]
  by_cases hw : w = .notifying
  · have := hpos hw
    simp only [hw, beq_self_eq_true, if_true, beq_iff_eq]
    omega
  · simp [hw]

/-- A worker's step, as the handover sees it. -/
theorem handoff_workerAct {s t : Server} {i : ℕ} {act : WorkerAct}
    (h : workerAct s i act = some t) :
    s.handoff.step (handoffAct s (.worker i act)) = some t.handoff := by
  cases workerStep_of_workerAct h with
  | wait hi =>
    have := count_notifying_set hi .waiting
    simp only [reduceCtorEq, if_false, Nat.add_zero] at this
    simp only [handoffAct, Handoff.step, Server.handoff, this]
  | take a rest hi =>
    have := count_notifying_set hi (.holding a)
    simp only [reduceCtorEq, if_false, Nat.add_zero] at this
    simp only [handoffAct, Handoff.step, Server.handoff, this]
  | wake hi =>
    have := count_notifying_set hi .polling
    simp only [reduceCtorEq, if_false, Nat.add_zero] at this
    simp only [handoffAct, Handoff.step, Server.handoff, this]
  | run a wbuf c hi =>
    have := count_notifying_set hi (.ran a)
    simp only [reduceCtorEq, if_false, Nat.add_zero] at this
    simp only [handoffAct, Handoff.step, Server.handoff, Server.setClient, this]
  | append a hi =>
    have := count_notifying_set hi .notifying
    simp only [reduceCtorEq, if_false, if_true, Nat.add_zero] at this
    simp only [handoffAct, hi, Handoff.step, Server.handoff, this]
  | notify hi =>
    have := count_notifying_set hi .polling
    simp only [reduceCtorEq, if_false, if_true, Nat.add_zero] at this
    have hpos : 0 < s.workers.count .notifying := by omega
    have hcount : (s.workers.set i .polling).count .notifying =
        s.workers.count .notifying - 1 := by omega
    simp only [handoffAct, Handoff.step, Server.handoff, hcount]
    exact if_pos hpos

/-- What a handler does to a client is nothing to the handover. -/
theorem handoff_carryOut_read {s : Server} (hmain : s.main = .idle) (a : Addr) (c : RedisClient)
    (act : ReadAction) : (act.carryOut s a c).1.handoff = s.handoff := by
  cases act with
  | wait => rfl
  | queue => simp only [ReadAction.carryOut, Server.handoff, hmain, MainPc.consumer]
  | free => rfl

/-- What a handler does to a client is nothing to the handover. -/
theorem handoff_carryOut_write (s : Server) (a : Addr) (c : RedisClient) (act : WriteAction) :
    (act.carryOut s a c).1.handoff = s.handoff := by
  cases act with
  | wait => rfl
  | reset => rfl
  | free => rfl

/-- A step of the server, as the handover sees it. -/
theorem handoff_serverStep {ext : Validator} {s t : Server} {l : ServerLabel}
    (h : serverStep ext s l = some t) : s.handoff.step (handoffAct s l) = some t.handoff := by
  obtain ⟨t, hstep, rfl⟩ := Option.map_eq_some_iff.mp h
  cases serverStep_of_frees hstep with
  | accept fd a => rfl
  | readable fd r c c' act hmain =>
    have hsame := handoff_carryOut_read (s := s.setClient (s.events fd).clientData c') hmain
      (s.events fd).clientData c' act
    exact congrArg some hsame.symm
  | writable fd r c c' act =>
    have hsame := handoff_carryOut_write (s.setClient (s.events fd).clientData c')
      (s.events fd).clientData c' act
    exact congrArg some hsame.symm
  | completed hmain => simp only [handoffAct, Handoff.step, Server.handoff, hmain, MainPc.consumer]
  | append a hmain => simp only [handoffAct, Handoff.step, Server.handoff, hmain, MainPc.consumer]
  | signal i hmain hi =>
    have := count_notifying_set hi .polling
    simp only [reduceCtorEq, if_false, Nat.add_zero] at this
    simp only [handoffAct, Handoff.step, Server.handoff, hmain, MainPc.consumer, this]
  | signalLost hmain =>
    simp only [handoffAct, Handoff.step, Server.handoff, hmain, MainPc.consumer]
  | readByte hmain hpipe =>
    simp only [handoffAct, Handoff.step, Server.handoff, hmain, hpipe, MainPc.consumer, if_true,
      and_self]
  | pipeEmpty hmain hpipe =>
    simp only [handoffAct, Handoff.step, Server.handoff, hmain, hpipe, MainPc.consumer, if_false]
  | takeProcessed a rest hmain hproc =>
    simp only [handoffAct, Handoff.step, Server.handoff, hmain, hproc, MainPc.consumer, if_true]
  | register a c hmain =>
    simp only [handoffAct, Handoff.step, Server.handoff, hmain, MainPc.consumer, if_true]
  | worker i act t ht => exact handoff_workerAct ht

/-- The server follows the handover. -/
def completion (ext : Validator) (n : ℕ) :
    (serverSystem ext n).Simulation (Handoff.system Addr) where
  view := Server.handoff
  act := handoffAct
  init s hs := by
    subst hs
    have hcount : (List.replicate n WorkerPc.polling).count .notifying = 0 :=
      List.count_eq_zero.mpr fun h => by cases List.eq_of_mem_replicate h
    simp only [Handoff.system, Server.handoff, hcount, MainPc.consumer]
  step _ _ _ h := handoff_serverStep h

/-! ## The jobs of a run -/

variable {ext : Validator} {n : ℕ}

/-- The clients that the workers append to `io_processed` in a run. -/
def processedJobs (ext : Validator) (n : ℕ) (s : Server) (ls : List ServerLabel) : List Addr :=
  ((completion ext n).acts s ls).filterMap Handoff.Act.appended

/-- The clients that `vmThreadedIOCompletedJob` registers for writing in a run. -/
def handedJobs (ext : Validator) (n : ℕ) (s : Server) (ls : List ServerLabel) : List Addr :=
  ((completion ext n).acts s ls).filterMap Handoff.Act.delivered

/-- The steps of `vmThreadedIOCompletedJob` for `k` bytes. -/
def completedLoop : ℕ → List ServerLabel
  | 0 => [.readByte]
  | k + 1 => .readByte :: .takeProcessed :: .register :: completedLoop k

/-- The jobs handed over after a step. -/
theorem handedJobs_cons {s t : Server} {l : ServerLabel} (h : serverStep ext s l = some t)
    (ls : List ServerLabel) : handedJobs ext n s (l :: ls) =
      (handoffAct s l).delivered.toList ++ handedJobs ext n t ls := by
  have hacts : (completion ext n).acts s (l :: ls) =
      handoffAct s l :: (completion ext n).acts t ls := by
    rw [Lts.Simulation.acts, show (serverSystem ext n).step s l = some t from h]
    rfl
  rw [handedJobs, hacts, Handoff.Act.filterMap_cons]
  rfl

/-- The loop of `vmThreadedIOCompletedJob` registers a client for every byte, the oldest first. -/
theorem run_completedLoop {k : ℕ} {s : Server} (hmain : s.main = .looping) (hpipe : s.pipe = k)
    (hk : k ≤ s.io_processed.length) (hlive : ∀ a ∈ s.io_processed, (s.heap a).isSome) :
    ∃ t, (serverSystem ext n).run s (completedLoop k) = some t ∧
      handedJobs ext n s (completedLoop k) = s.io_processed.take k ∧
      t.io_processed = s.io_processed.drop k ∧ t.pipe = 0 ∧ t.main = .idle := by
  induction k generalizing s with
  | zero =>
    have hstep : serverStep ext s .readByte = some { s with main := .idle } := by
      simp [serverStep, serverStepFrees, hmain, hpipe]
    refine ⟨{ s with main := .idle }, ?_, ?_, rfl, hpipe, rfl⟩
    · rw [completedLoop, Lts.run, show (serverSystem ext n).step s .readByte = _ from hstep]
      rfl
    · rw [completedLoop, handedJobs_cons hstep, handoffAct, if_neg (by omega)]
      rfl
  | succ k ih =>
    obtain ⟨a, rest, hproc⟩ : ∃ a rest, s.io_processed = a :: rest := by
      refine List.exists_cons_of_ne_nil ?_
      rw [← List.length_pos_iff]
      omega
    have hrest : k ≤ rest.length := by
      rw [hproc, List.length_cons] at hk
      omega
    have hmem : a ∈ s.io_processed := by
      rw [hproc]
      exact List.mem_cons_self
    obtain ⟨c, hc⟩ := Option.isSome_iff_exists.mp (hlive a hmem)
    -- The states after the read, the take and the registration.
    let s₁ : Server := { s with pipe := k, main := .taking }
    let s₂ : Server := { s₁ with io_processed := rest, main := .registering a }
    let s₃ : Server :=
      { s₂ with events := aeCreateFileEvent s.events c.fd .writable a, main := .looping }
    have h₁ : serverStep ext s .readByte = some s₁ := by
      simp [serverStep, serverStepFrees, hmain, hpipe, s₁]
    have h₂ : serverStep ext s₁ .takeProcessed = some s₂ := by
      simp [serverStep, serverStepFrees, hproc, s₁, s₂]
    have h₃ : serverStep ext s₂ .register = some s₃ := by
      simp [serverStep, serverStepFrees, hc, s₁, s₂, s₃]
    obtain ⟨t, hrun, hjobs, hproc', hpipe', hmain'⟩ := ih (s := s₃) rfl rfl hrest
      fun b hb => hlive b (by rw [hproc]; exact List.mem_cons_of_mem _ hb)
    refine ⟨t, ?_, ?_, ?_, hpipe', hmain'⟩
    · rw [completedLoop, Lts.run, show (serverSystem ext n).step s .readByte = _ from h₁,
        Option.bind_some, Lts.run, show (serverSystem ext n).step s₁ .takeProcessed = _ from h₂,
        Option.bind_some, Lts.run, show (serverSystem ext n).step s₂ .register = _ from h₃,
        Option.bind_some]
      exact hrun
    · rw [completedLoop, handedJobs_cons h₁, handedJobs_cons h₂, handedJobs_cons h₃, hjobs, hproc,
        List.take_succ_cons, handoffAct, if_pos (by omega)]
      rfl
    · rw [hproc', hproc, List.drop_succ_cons]

/-- In every state reached, whatever the order of the threads, `io_processed` has as many clients as
there are unread bytes, workers that have appended and not written, and one more while the main
thread has read a byte and taken no client; so its assertion holds. In every run the clients that
the workers append are those that are handed to the writer, in the same order, and then the one that
the main thread is about to register and those in `io_processed`. And whenever the main thread is in
the event loop and there are bytes, it can go on to hand over one client for each of them. -/
theorem completion_accounting (ext : Validator) (n : ℕ) :
    (∀ s, (serverSystem ext n).Reachable s →
      s.io_processed.length = s.pipe + s.workers.count .notifying +
        (if s.main = .taking then 1 else 0) ∧
      (s.main = .taking → s.io_processed ≠ [])) ∧
    (∀ s ls t, (serverSystem ext n).init s → (serverSystem ext n).run s ls = some t →
      processedJobs ext n s ls =
        handedJobs ext n s ls ++ (t.main.consumer.item.toList ++ t.io_processed)) ∧
    ∀ s, (serverSystem ext n).Reach Server.ValidStep s → s.main = .idle → 0 < s.pipe →
      ∃ t, (serverSystem ext n).run s (.completed :: completedLoop s.pipe) = some t ∧
        handedJobs ext n s (.completed :: completedLoop s.pipe) = s.io_processed.take s.pipe ∧
        t.io_processed = s.io_processed.drop s.pipe ∧ t.pipe = 0 ∧ t.main = .idle := by
  have htaking : ∀ s : Server, s.handoff.consumer = .taking ↔ s.main = .taking := by
    intro s
    cases h : s.main <;> simp [Server.handoff, h, MainPc.consumer]
  have hbalanced : ∀ {ok : Server → ServerLabel → Prop} s, (serverSystem ext n).Reach ok s →
      s.handoff.Balanced :=
    fun s hs => Handoff.balanced_of_reachable ((completion ext n).reach hs)
  refine ⟨fun s hs => ⟨?_, fun hmain => ?_⟩, fun s ls t hinit hrun => ?_,
    fun s hs hmain hpipe => ?_⟩
  · have := hbalanced s hs
    unfold Handoff.Balanced at this
    simp only [htaking] at this
    exact this
  · exact (hbalanced s hs).queue_ne_nil ((htaking s).mpr hmain)
  · have hfifo := Handoff.fifo ((completion ext n).run hrun)
    rw [(completion ext n).init s hinit] at hfifo
    exact hfifo
  · have hlen := hbalanced s hs
    unfold Handoff.Balanced at hlen
    simp only [Server.handoff] at hlen
    have hinv : s.Inv := by
      refine hs.invariant ?_ fun s l t hs hl h => hs.step hl h
      rintro s rfl
      exact Server.inv_init n
    have hstep : serverStep ext s .completed = some { s with main := .looping } := by
      simp [serverStep, serverStepFrees, hmain, hpipe]
    have hlooping : ({ s with main := .looping } : Server).main = .looping := rfl
    have hlive : ∀ a ∈ s.io_processed, (s.heap a).isSome :=
      fun a ha => hinv.isSome_of_at (p := .processed) ha
    obtain ⟨t, hrun, hjobs, hproc, hpipe', hmain'⟩ :=
      @run_completedLoop ext n _ _ hlooping rfl (by dsimp only; omega) hlive
    refine ⟨t, ?_, ?_, hproc, hpipe', hmain'⟩
    · rw [Lts.run, show (serverSystem ext n).step s .completed = _ from hstep]
      exact hrun
    · rw [handedJobs_cons hstep]
      exact hjobs

/-- The worker runs the command of the client that sent `PING`, and writes its byte. -/
def pongLabels : List ServerLabel :=
  pingLabels ++ [.worker 0 (.run [43, 80, 79, 78, 71, 13, 10]), .worker 0 .append,
    .worker 0 .notify]

/-- The byte is in the pipe, and the main thread can hand the client over. -/
theorem completion_accounting_pong : ∃ s t : Server,
    (serverSystem processRequestBuffer 1).run { workers := [.polling] } pongLabels = some s ∧
      s.io_processed.length = s.pipe + s.workers.count .notifying +
        (if s.main = .taking then 1 else 0) ∧
      processedJobs processRequestBuffer 1 { workers := [.polling] } pongLabels = [1] ∧
      (serverSystem processRequestBuffer 1).run s (.completed :: completedLoop s.pipe) = some t ∧
      t.io_processed = [] := by
  obtain ⟨hcount, horder, hdrain⟩ := completion_accounting processRequestBuffer 1
  have hrun : ((serverSystem processRequestBuffer 1).run { workers := [.polling] } pongLabels).map
      (fun s => (s.io_processed, s.pipe, s.main)) = some ([1], 1, .idle) := by
    decide +kernel
  obtain ⟨s, hs, h⟩ := Option.map_eq_some_iff.mp hrun
  simp only [Prod.mk.injEq] at h
  obtain ⟨hproc, hpipe, hmain⟩ := h
  have hok : (serverSystem processRequestBuffer 1).RunOk Server.ValidStep
      { workers := [.polling] } pongLabels := by
    refine ⟨⟨rfl, by simp⟩, fun t _ => Lts.runOk_of_forall (fun l hl t => ?_) t⟩
    fin_cases hl
    · exact ⟨by decide, by decide⟩
    · exact ⟨by decide, by decide⟩
    all_goals trivial
  have hreach : (serverSystem processRequestBuffer 1).Reach Server.ValidStep s :=
    .run (.init rfl) hok hs
  obtain ⟨t, ht, -, htproc, -⟩ := hdrain s hreach hmain (by omega)
  refine ⟨s, t, hs, (hcount s (hreach.mono fun _ _ _ => trivial)).1, ?_, ht, ?_⟩
  · have horder' := horder { workers := [.polling] } pongLabels s rfl hs
    rw [horder', hproc, hmain]
    decide +kernel
  · rw [htproc, hproc, hpipe]
    rfl

end MgCommonUtils.RedisProxy
