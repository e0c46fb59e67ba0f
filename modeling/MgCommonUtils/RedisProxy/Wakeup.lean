import MgCommonUtils.RedisProxy.Server

/-!
# No job is left to sleeping workers

`queueIOJob` releases the lock before it signals, and a signal that finds no worker waiting is
lost. `no_stranded_job` shows that no job is left behind for that: while `io_newjobs` has a client,
either the signal of the last `queueIOJob` is still to be sent or a worker is not waiting, and that
worker looks at `io_newjobs` again before it waits.

The argument is one invariant, `Server.Awake`. Only two steps can hurt it. A worker that goes to
wait has found `io_newjobs` empty under the lock. And a signal that is lost has found no worker
waiting, so there is one that is awake, since workers never exit.
-/

namespace MgCommonUtils.RedisProxy

open MgCommonUtils.Lib MgCommonUtils.EventLoop

/-- What holds of the workers and `io_newjobs` at all times. -/
structure Server.Awake (s : Server) : Prop where
  /-- There is a worker. -/
  workers : s.workers ≠ []
  /-- While there are jobs, a signal is to be sent or a worker is not waiting. -/
  awake : s.io_newjobs ≠ [] → s.main = .signalling ∨ ∃ w ∈ s.workers, w ≠ .waiting

/-- A worker that is not waiting after a step of its own is awake. -/
theorem Server.Awake.set {s : Server} (hs : s.Awake) {i : ℕ} {v w : WorkerPc}
    (hi : s.workers[i]? = some v) (hw : w ≠ .waiting) {t : Server}
    (ht : t.workers = s.workers.set i w) : t.Awake := by
  have hlt : i < s.workers.length := (List.getElem?_eq_some_iff.mp hi).1
  refine ⟨?_, fun _ => .inr ⟨w, ?_, hw⟩⟩
  · rw [ht, ← List.length_pos_iff, List.length_set]
    exact List.length_pos_iff.mpr hs.workers
  · rw [ht]
    exact List.mem_set hlt w

/-- The main thread does something else than `queueIOJob`. -/
theorem Server.Awake.other {s t : Server} (hs : s.Awake) (hmain : s.main ≠ .signalling)
    (hjobs : t.io_newjobs = s.io_newjobs) (hworkers : t.workers = s.workers) : t.Awake := by
  refine ⟨by rw [hworkers]; exact hs.workers, fun h => ?_⟩
  rw [hjobs] at h
  rw [hworkers]
  exact .inr ((hs.awake h).resolve_left hmain)

/-- The handler of a readable client leaves the jobs and the workers as they are. -/
theorem ReadAction.carryOut_workers (s : Server) (a : Addr) (c : RedisClient) (act : ReadAction) :
    (act.carryOut s a c).1.io_newjobs = s.io_newjobs ∧
      (act.carryOut s a c).1.workers = s.workers := by
  cases act <;> exact ⟨rfl, rfl⟩

/-- The handler of a writable client leaves the jobs and the workers as they are. -/
theorem WriteAction.carryOut_workers (s : Server) (a : Addr) (c : RedisClient)
    (act : WriteAction) :
    (act.carryOut s a c).1.io_newjobs = s.io_newjobs ∧
      (act.carryOut s a c).1.workers = s.workers := by
  cases act <;> exact ⟨rfl, rfl⟩

/-- A step of a worker. -/
theorem Server.Awake.workerAct {s t : Server} (hs : s.Awake) {i : ℕ} {act : WorkerAct}
    (h : workerAct s i act = some t) : t.Awake := by
  cases workerStep_of_workerAct h with
  | wait hi hjobs =>
    -- It goes to wait, and there are no jobs.
    refine ⟨?_, fun hne => absurd hjobs hne⟩
    rw [← List.length_pos_iff, List.length_set]
    exact List.length_pos_iff.mpr hs.workers
  | take a rest hi => exact hs.set hi (by simp) rfl
  | wake hi => exact hs.set hi (by simp) rfl
  | run a wbuf c hi => exact hs.set hi (by simp) rfl
  | append a hi => exact hs.set hi (by simp) rfl
  | notify hi => exact hs.set hi (by simp) rfl

/-- A step of the server. -/
theorem Server.Awake.step {ext : Validator} {s t : Server} (hs : s.Awake) {l : ServerLabel}
    (h : serverStep ext s l = some t) : t.Awake := by
  obtain ⟨t', hstep, rfl⟩ := Option.map_eq_some_iff.mp h
  cases serverStep_of_frees hstep with
  | accept fd a hmain => exact hs.other (by simp [hmain]) rfl rfl
  | readable fd r c c' act hmain =>
    have hcarry := act.carryOut_workers (s.setClient (s.events fd).clientData c')
      (s.events fd).clientData c'
    exact hs.other (by simp [hmain]) hcarry.1 hcarry.2
  | writable fd r c c' act hmain =>
    have hcarry := act.carryOut_workers (s.setClient (s.events fd).clientData c')
      (s.events fd).clientData c'
    exact hs.other (by simp [hmain]) hcarry.1 hcarry.2
  | completed hmain => exact hs.other (by simp [hmain]) rfl rfl
  | append a hmain =>
    -- The lock is released before the signal.
    exact ⟨hs.workers, fun _ => .inl rfl⟩
  | signal i hmain hi => exact hs.set hi (by simp) rfl
  | signalLost hmain hnone =>
    -- The signal is lost, since every worker is awake.
    refine ⟨hs.workers, fun _ => .inr ?_⟩
    obtain ⟨w, hw⟩ := List.exists_mem_of_ne_nil _ hs.workers
    exact ⟨w, hw, fun heq => hnone (heq ▸ hw)⟩
  | readByte hmain => exact hs.other (by simp [hmain]) rfl rfl
  | pipeEmpty hmain => exact hs.other (by simp [hmain]) rfl rfl
  | takeProcessed a rest hmain => exact hs.other (by simp [hmain]) rfl rfl
  | register a c hmain => exact hs.other (by simp [hmain]) rfl rfl
  | worker i act t ht => exact hs.workerAct ht

/-- In every state that the server with at least one worker can reach, while `io_newjobs` has a
client, the main thread has yet to send the signal of `queueIOJob`, or a worker is not blocked in
`waitThreadedIO`. -/
theorem no_stranded_job (ext : Validator) (n : ℕ) (hn : 1 ≤ n) (s : Server)
    (h : (serverSystem ext n).Reachable s) (hjobs : s.io_newjobs ≠ []) :
    s.main = .signalling ∨ ∃ w ∈ s.workers, w ≠ .waiting := by
  have hs : s.Awake := by
    refine h.invariant ?_ fun s l t hs _ h => hs.step h
    rintro s rfl
    refine ⟨?_, fun hne => absurd rfl hne⟩
    rw [← List.length_pos_iff, List.length_replicate]
    omega
  exact hs.awake hjobs

/-- The worker goes to wait before a client connects and sends `PING`. The signal wakes it up. -/
def sleepyLabels : List ServerLabel :=
  [.worker 0 .take, .accept 5 1, .readable 5 (.data [80, 73, 78, 71, 13, 10]), .append,
    .notice (some 0)]

/-- The job is in the queue, the signal has been sent, and the worker is awake. -/
theorem no_stranded_job_sleepy : ∃ s : Server,
    (serverSystem processRequestBuffer 1).run { workers := [.polling] } sleepyLabels = some s ∧
      s.io_newjobs = [1] ∧ ∃ w ∈ s.workers, w ≠ .waiting := by
  have hrun : ((serverSystem processRequestBuffer 1).run { workers := [.polling] }
      sleepyLabels).map (fun s => (s.io_newjobs, s.main)) = some ([1], .idle) := by
    decide +kernel
  obtain ⟨s, hs, h⟩ := Option.map_eq_some_iff.mp hrun
  obtain ⟨hjobs, hmain⟩ := Prod.mk.inj h
  refine ⟨s, hs, hjobs, (no_stranded_job processRequestBuffer 1 le_rfl s ?_ ?_).resolve_left ?_⟩
  · exact .run (.init rfl) (Lts.runOk_of_forall (fun _ _ _ => trivial) _) hs
  · simp [hjobs]
  · simp [hmain]

end MgCommonUtils.RedisProxy
