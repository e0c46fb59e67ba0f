import Mathlib.Data.UInt
import MgCommonUtils.RedisServer.Server

/-!
# Starting and ending of workers

A worker ends when it finds `io_newjobs` empty, and `queueIOJob` starts one only while
`io_active_threads` is below `vm_max_threads`. The main thread appends the client and reads the
counter without the lock, so both can happen while a worker that has seen the empty list has yet to
decrement the counter. `job_has_worker` shows that no client is left behind, if `vm_max_threads` is
at least two: the lock lets only one worker end at a time, so when the counter is at its maximum,
there is another worker, which will look at the list again.

A worker's look at the list and its removal of the first client are one step: the lock keeps the
other workers out between them, and the main thread only adds to the end.

The counter lags behind the number of threads while `spawnIOThread` has yet to increment it, and
the new worker may be gone by then. `Server.Staffed` relates the two as numbers of 32 bits.
-/

namespace MgCommonUtils.RedisServer

open MgCommonUtils.Lib MgCommonUtils.EventLoop

/-- Whether `io_active_threads` counts a worker, once `spawnIOThread` has incremented it. -/
def WorkerPc.counted : WorkerPc → Bool
  | .leaving => false
  | .exited => false
  | _ => true

/-- Whether a worker will look at `io_newjobs` again. -/
def WorkerPc.serving : WorkerPc → Bool
  | .emptied => false
  | .leaving => false
  | .exited => false
  | _ => true

/-- Whether the main thread is in `queueIOJob`. -/
def MainPc.inQueueIOJob : MainPc → Bool
  | .appending _ => true
  | .counting => true
  | .spawning => true
  | .spawned => true
  | _ => false

/-- What `io_active_threads` lags behind. -/
def MainPc.lag : MainPc → UInt32
  | .spawned => 1
  | _ => 0

/-- What holds of the workers and `io_active_threads` at all times. -/
structure Server.Staffed (vm_max_threads : UInt32) (s : Server) : Prop where
  /-- One worker at most has the lock between two of its steps. -/
  lock : s.workers.countP WorkerPc.locks ≤ 1
  /-- The counter, with what it lags behind, is the number of workers it counts. -/
  counter : s.io_active_threads + s.main.lag =
    UInt32.ofNat (s.workers.countP WorkerPc.counted)
  /-- There are no more workers than allowed. -/
  bound : s.workers.countP WorkerPc.counted ≤ vm_max_threads.toNat
  /-- There is room for the worker that is about to be started. -/
  room : s.main = .spawning → s.workers.countP WorkerPc.counted < vm_max_threads.toNat
  /-- While there are jobs, a worker will look at the list again, unless the main thread is yet to
  decide whether to start one, or about to. -/
  served : s.io_newjobs ≠ [] → s.main = .counting ∨ s.main = .spawning ∨
    0 < s.workers.countP WorkerPc.serving

/-- A worker that the counter counts will look at the list again, or has the lock. -/
theorem countP_counted_le (l : List WorkerPc) :
    l.countP WorkerPc.counted ≤ l.countP WorkerPc.serving + l.countP WorkerPc.locks := by
  induction l with
  | nil => simp
  | cons w l ih =>
    cases w <;>
      simp only [List.countP_cons, WorkerPc.counted, WorkerPc.serving, WorkerPc.locks,
        if_true, Bool.false_eq_true, if_false] <;> omega

/-- The lock is free when no worker has it. -/
theorem Server.lockFree_iff (s : Server) :
    s.lockFree = true ↔ s.workers.countP WorkerPc.locks = 0 := by
  simp [Server.lockFree, List.countP_eq_zero]

variable {vm_max_threads : UInt32}

/-- The main thread does something else than `queueIOJob`, or is about to append. -/
theorem Server.Staffed.other {s t : Server} (hs : s.Staffed vm_max_threads)
    (hmain : s.main.inQueueIOJob = false) (hlag : t.main.lag = 0) (hspawn : t.main ≠ .spawning)
    (hjobs : t.io_newjobs = s.io_newjobs) (hworkers : t.workers = s.workers)
    (hthreads : t.io_active_threads = s.io_active_threads) : t.Staffed vm_max_threads where
  lock := by rw [hworkers]; exact hs.lock
  counter := by
    have hlag' : s.main.lag = 0 := by
      cases hm : s.main <;> simp_all [MainPc.inQueueIOJob, MainPc.lag]
    rw [hworkers, hthreads, hlag, ← hlag']
    exact hs.counter
  bound := by rw [hworkers]; exact hs.bound
  room h := absurd h hspawn
  served h := by
    rw [hjobs] at h
    rw [hworkers]
    rcases hs.served h with hm | hm | hpos
    · simp [hm, MainPc.inQueueIOJob] at hmain
    · simp [hm, MainPc.inQueueIOJob] at hmain
    · exact .inr (.inr hpos)

/-- A worker that will look at the list again makes a step, and still will after it. -/
theorem Server.Staffed.serve {s t : Server} (hs : s.Staffed vm_max_threads) {i : ℕ}
    {v w : WorkerPc} (hi : s.workers[i]? = some v) (hv : v.serving = true) (hw : w.serving = true)
    (hmain : t.main = s.main) (hworkers : t.workers = s.workers.set i w)
    (hthreads : t.io_active_threads = s.io_active_threads) : t.Staffed vm_max_threads := by
  have hlocks := countP_set_add WorkerPc.locks hi w
  have hcounted := countP_set_add WorkerPc.counted hi w
  have hserving := countP_set_add WorkerPc.serving hi w
  have hpos : 0 < s.workers.countP WorkerPc.serving :=
    List.countP_pos_iff.mpr ⟨v, List.mem_of_getElem? hi, hv⟩
  have hlv : v.locks = false ∧ v.counted = true := by
    cases v <;> simp_all [WorkerPc.serving, WorkerPc.locks, WorkerPc.counted]
  have hlw : w.locks = false ∧ w.counted = true := by
    cases w <;> simp_all [WorkerPc.serving, WorkerPc.locks, WorkerPc.counted]
  rw [hlv.1, hlw.1] at hlocks
  rw [hlv.2, hlw.2] at hcounted
  rw [hv, hw] at hserving
  have heq : (s.workers.set i w).countP WorkerPc.counted = s.workers.countP WorkerPc.counted := by
    omega
  refine ⟨?_, ?_, ?_, ?_, fun _ => .inr (.inr ?_)⟩
  · rw [hworkers]
    have := hs.lock
    omega
  · rw [hworkers, hthreads, hmain, heq]
    exact hs.counter
  · rw [hworkers, heq]
    exact hs.bound
  · rw [hworkers, hmain, heq]
    exact hs.room
  · rw [hworkers]
    omega

/-- A worker finds the list empty. -/
theorem Server.Staffed.emptied {s : Server} (hs : s.Staffed vm_max_threads) {i : ℕ}
    (hi : s.workers[i]? = some .polling) (hlock : s.lockFree = true) (hjobs : s.io_newjobs = []) :
    Server.Staffed vm_max_threads { s with workers := s.workers.set i .emptied } := by
  have hlocks := countP_set_add WorkerPc.locks hi .emptied
  have hcounted := countP_set_add WorkerPc.counted hi .emptied
  have hzero := s.lockFree_iff.mp hlock
  have heq : (s.workers.set i .emptied).countP WorkerPc.counted =
      s.workers.countP WorkerPc.counted := by
    simp only [WorkerPc.counted] at hcounted
    omega
  refine ⟨?_, ?_, ?_, ?_, fun h => absurd hjobs h⟩
  · simp only [WorkerPc.locks, Bool.toNat_true, Bool.toNat_false] at hlocks
    dsimp only
    omega
  · dsimp only
    rw [heq]
    exact hs.counter
  · dsimp only
    rw [heq]
    exact hs.bound
  · dsimp only
    rw [heq]
    exact hs.room

/-- A worker that has found the list empty decrements the counter. -/
theorem Server.Staffed.decrement {s : Server} (hs : s.Staffed vm_max_threads) {i : ℕ}
    (hi : s.workers[i]? = some .emptied) :
    Server.Staffed vm_max_threads { s with
      io_active_threads := s.io_active_threads - 1
      workers := s.workers.set i .leaving } := by
  have hlocks := countP_set_add WorkerPc.locks hi .leaving
  have hcounted := countP_set_add WorkerPc.counted hi .leaving
  have hserving := countP_set_add WorkerPc.serving hi .leaving
  simp only [WorkerPc.locks, WorkerPc.counted, WorkerPc.serving, Bool.toNat_true,
    Bool.toNat_false, add_zero] at hlocks hcounted hserving
  have hcounter := hs.counter
  have hbound := hs.bound
  refine ⟨?_, ?_, ?_, fun h => ?_, fun h => ?_⟩
  · have := hs.lock
    dsimp only
    omega
  · -- One worker less on both sides. The counter may pass zero, while it lags behind.
    rw [← hcounted, UInt32.ofNat_add] at hcounter
    dsimp only
    have hone : UInt32.ofNat 1 = 1 := rfl
    rw [hone] at hcounter
    grind
  · dsimp only
    omega
  · have := hs.room h
    dsimp only
    omega
  · rcases hs.served h with hm | hm | hpos
    · exact .inl hm
    · exact .inr (.inl hm)
    · exact .inr (.inr (by dsimp only; omega))

/-- A worker ends. -/
theorem Server.Staffed.exit {s : Server} (hs : s.Staffed vm_max_threads) {i : ℕ}
    (hi : s.workers[i]? = some .leaving) :
    Server.Staffed vm_max_threads { s with workers := s.workers.set i .exited } := by
  have hlocks := countP_set_add WorkerPc.locks hi .exited
  have hcounted := countP_set_add WorkerPc.counted hi .exited
  have hserving := countP_set_add WorkerPc.serving hi .exited
  simp only [WorkerPc.locks, WorkerPc.counted, WorkerPc.serving, Bool.toNat_true,
    Bool.toNat_false, add_zero] at hlocks hcounted hserving
  refine ⟨?_, ?_, ?_, ?_, ?_⟩
  · have := hs.lock
    dsimp only
    omega
  · dsimp only
    rw [hcounted]
    exact hs.counter
  · dsimp only
    rw [hcounted]
    exact hs.bound
  · dsimp only
    rw [hcounted]
    exact hs.room
  · dsimp only
    rw [hserving]
    exact hs.served

/-- A step of a worker. -/
theorem Server.Staffed.workerAct {s t : Server} (hs : s.Staffed vm_max_threads) {i : ℕ}
    {act : WorkerAct} (h : workerAct s i act = some t) : t.Staffed vm_max_threads := by
  cases workerStep_of_workerAct h with
  | empty hi hlock hjobs => exact hs.emptied hi hlock hjobs
  | take a rest hi => exact hs.serve hi rfl rfl rfl rfl rfl
  | decrement hi => exact hs.decrement hi
  | exit hi => exact hs.exit hi
  | run a c hi => exact hs.serve hi rfl rfl rfl rfl rfl
  | append a hi => exact hs.serve hi rfl rfl rfl rfl rfl
  | notify hi => exact hs.serve hi rfl rfl rfl rfl rfl

/-- The client is appended. -/
theorem Server.Staffed.append {s : Server} (hs : s.Staffed vm_max_threads) {a : Addr}
    (hmain : s.main = .appending a) :
    Server.Staffed vm_max_threads { s with
      io_newjobs := s.io_newjobs ++ [a]
      main := .counting } where
  lock := hs.lock
  counter := by
    have := hs.counter
    rw [hmain] at this
    exact this
  bound := hs.bound
  room h := by cases h
  served _ := .inl rfl

/-- While the counter does not lag, it is the number of workers it counts. -/
theorem Server.Staffed.toNat_io_active_threads {s : Server} (hs : s.Staffed vm_max_threads)
    (hlag : s.main.lag = 0) :
    s.io_active_threads.toNat = s.workers.countP WorkerPc.counted := by
  have hlt : s.workers.countP WorkerPc.counted < UInt32.size :=
    lt_of_le_of_lt hs.bound vm_max_threads.toNat_lt_size
  have hcounter := hs.counter
  rw [hlag, UInt32.add_zero] at hcounter
  rw [hcounter]
  exact UInt32.toNat_ofNat_of_lt hlt

/-- `queueIOJob` compares the counter with its maximum. -/
theorem Server.Staffed.compare {s : Server} (hs : s.Staffed vm_max_threads)
    (hmax : 2 ≤ vm_max_threads) (hmain : s.main = .counting) :
    if s.io_active_threads < vm_max_threads then
      Server.Staffed vm_max_threads { s with main := .spawning }
    else Server.Staffed vm_max_threads { s with main := .idle } := by
  have hlag : s.main.lag = 0 := by rw [hmain]; rfl
  have hcount := hs.toNat_io_active_threads hlag
  have hcounter := hs.counter
  rw [hlag] at hcounter
  split_ifs with hlt
  · have hroom : s.workers.countP WorkerPc.counted < vm_max_threads.toNat := by
      rw [← hcount]
      exact UInt32.lt_iff_toNat_lt.mp hlt
    exact ⟨hs.lock, hcounter, hs.bound, fun _ => hroom, fun _ => .inr (.inl rfl)⟩
  · refine ⟨hs.lock, hcounter, hs.bound, (fun h => by cases h), fun _ => .inr (.inr ?_)⟩
    -- There are two workers or more, and only one of them has the lock.
    have htwo : 2 ≤ vm_max_threads.toNat := UInt32.le_iff_toNat_le.mp hmax
    have hge : vm_max_threads.toNat ≤ s.workers.countP WorkerPc.counted := by
      rw [← hcount]
      exact Nat.le_of_not_lt fun h => hlt (UInt32.lt_iff_toNat_lt.mpr h)
    have hle := countP_counted_le s.workers
    have hlock := hs.lock
    dsimp only
    omega

/-- `spawnIOThread` starts a worker. -/
theorem Server.Staffed.spawn {s : Server} (hs : s.Staffed vm_max_threads)
    (hmain : s.main = .spawning) :
    Server.Staffed vm_max_threads { s with
      workers := s.workers ++ [.polling]
      main := .spawned } := by
  have hcounter := hs.counter
  rw [hmain] at hcounter
  refine ⟨?_, ?_, ?_, fun h => ?_, fun _ => .inr (.inr ?_)⟩
  · simp only [List.countP_append]
    exact hs.lock
  · simp only [List.countP_append, UInt32.ofNat_add]
    rw [← hcounter]
    exact congrArg (· + 1) (UInt32.add_zero _).symm
  · simp only [List.countP_append]
    exact hs.room hmain
  · cases h
  · simp only [List.countP_append]
    exact Nat.lt_add_left _ Nat.one_pos

/-- `spawnIOThread` increments the counter. -/
theorem Server.Staffed.increment {s : Server} (hs : s.Staffed vm_max_threads)
    (hmain : s.main = .spawned) :
    Server.Staffed vm_max_threads { s with
      io_active_threads := s.io_active_threads + 1
      main := .idle } := by
  have hcounter := hs.counter
  rw [hmain] at hcounter
  refine ⟨hs.lock, ?_, hs.bound, (fun h => by cases h), fun h => ?_⟩
  · rw [← hcounter]
    exact UInt32.add_zero _
  · rcases hs.served h with hm | hm | hpos
    · rw [hmain] at hm
      cases hm
    · rw [hmain] at hm
      cases hm
    · exact .inr (.inr hpos)

/-- The handler of a readable client leaves the jobs and the workers as they are, and starts none
itself. -/
theorem Server.Staffed.read {s : Server} (hs : s.Staffed vm_max_threads) (hmain : s.main = .idle)
    (a : Addr) (c : RedisClient) (act : ReadAction) :
    (act.carryOut (s.setClient a c) a c).1.Staffed vm_max_threads := by
  have hpc : s.main.inQueueIOJob = false := by rw [hmain]; rfl
  have hcarry : (act.carryOut (s.setClient a c) a c).1.main = .idle ∨
      (act.carryOut (s.setClient a c) a c).1.main = .appending a := by
    cases act with
    | queue => exact .inr rfl
    | wait | free => exact .inl hmain
  refine hs.other hpc ?_ ?_ ?_ ?_ ?_
  · rcases hcarry with h | h <;> rw [h] <;> rfl
  · rcases hcarry with h | h <;> simp [h]
  all_goals cases act <;> rfl

/-- The handler of a writable client leaves the jobs and the workers as they are. -/
theorem Server.Staffed.write {s : Server} (hs : s.Staffed vm_max_threads) (hmain : s.main = .idle)
    (a : Addr) (c : RedisClient) (act : WriteAction) :
    (act.carryOut (s.setClient a c) a c).1.Staffed vm_max_threads := by
  have hpc : s.main.inQueueIOJob = false := by rw [hmain]; rfl
  have hcarry : (act.carryOut (s.setClient a c) a c).1.main = .idle := by
    cases act <;> exact hmain
  refine hs.other hpc (by rw [hcarry]; rfl) (by simp [hcarry]) ?_ ?_ ?_
  all_goals cases act <;> rfl

/-- A step of the server. -/
theorem Server.Staffed.step {s t : Server} (hs : s.Staffed vm_max_threads)
    (hmax : 2 ≤ vm_max_threads) {l : ServerLabel} (h : serverStep vm_max_threads s l = some t) :
    t.Staffed vm_max_threads := by
  obtain ⟨t, hstep, rfl⟩ := Option.map_eq_some_iff.mp h
  cases serverStep_of_frees hstep with
  | accept fd a hmain =>
    exact hs.other (by rw [hmain]; rfl)
      (by simp [createClient, Server.setClient, hmain, MainPc.lag])
      (by simp [createClient, Server.setClient, hmain]) rfl rfl rfl
  | readable fd r c hmain => exact hs.read hmain _ _ _
  | writable fd r c hmain => exact hs.write hmain _ _ _
  | completed hmain => exact hs.other (by rw [hmain]; rfl) rfl (by simp) rfl rfl rfl
  | append a hmain => exact hs.append hmain
  | room hmain hlt =>
    have := hs.compare hmax hmain
    rw [if_pos hlt] at this
    exact this
  | full hmain hge =>
    have := hs.compare hmax hmain
    rw [if_neg hge] at this
    exact this
  | spawn hmain => exact hs.spawn hmain
  | increment hmain => exact hs.increment hmain
  | readByte hmain => exact hs.other (by rw [hmain]; rfl) rfl (by simp) rfl rfl rfl
  | pipeEmpty hmain => exact hs.other (by rw [hmain]; rfl) rfl (by simp) rfl rfl rfl
  | takeProcessed a rest hmain => exact hs.other (by rw [hmain]; rfl) rfl (by simp) rfl rfl rfl
  | register a c hmain => exact hs.other (by rw [hmain]; rfl) rfl (by simp) rfl rfl rfl
  | worker i act t ht => exact hs.workerAct ht

/-- In every state that the server can reach, if it may start two workers or more, while
`io_newjobs` has a client and the main thread is not in `queueIOJob`, there is a worker that has
not ended and is not about to. -/
theorem job_has_worker (vm_max_threads : UInt32) (hmax : 2 ≤ vm_max_threads) (s : Server)
    (h : (serverSystem vm_max_threads).Reachable s) (hmain : s.main.inQueueIOJob = false)
    (hjobs : s.io_newjobs ≠ []) :
    ∃ w ∈ s.workers, w ≠ .emptied ∧ w ≠ .leaving ∧ w ≠ .exited := by
  have hs : s.Staffed vm_max_threads := by
    refine h.invariant ?_ fun s l t hs _ h => hs.step hmax h
    rintro s rfl
    exact ⟨Nat.zero_le _, rfl, Nat.zero_le _, (fun h => by cases h), fun h => absurd rfl h⟩
  have hpos : 0 < s.workers.countP WorkerPc.serving := by
    rcases hs.served hjobs with hm | hm | hpos
    · rw [hm] at hmain
      cases hmain
    · rw [hm] at hmain
      cases hmain
    · exact hpos
  obtain ⟨w, hw, hserving⟩ := List.countP_pos_iff.mp hpos
  refine ⟨w, hw, ?_⟩
  cases w <;> simp_all [WorkerPc.serving]

/-- The client of `fourBytes` is queued, and the worker that was started for it is there. -/
theorem job_has_worker_fourBytes : ∃ s : Server, (serverSystem 10).run {} fourBytes = some s ∧
    s.io_newjobs = [1] ∧ ∃ w ∈ s.workers, w ≠ .emptied ∧ w ≠ .leaving ∧ w ≠ .exited := by
  have hrun : ((serverSystem 10).run {} fourBytes).map
      (fun s => (s.io_newjobs, s.main.inQueueIOJob)) = some ([1], false) := by
    decide +kernel
  obtain ⟨s, hs, h⟩ := Option.map_eq_some_iff.mp hrun
  obtain ⟨hjobs, hmain⟩ := Prod.mk.inj h
  have hreach : (serverSystem 10).Reachable s :=
    .run (.init rfl) (Lts.runOk_of_forall (fun _ _ _ => trivial) _) hs
  exact ⟨s, hs, hjobs, job_has_worker 10 (by decide) s hreach hmain (by simp [hjobs])⟩

end MgCommonUtils.RedisServer
