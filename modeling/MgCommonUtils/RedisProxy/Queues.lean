import MgCommonUtils.Adlist.Run
import MgCommonUtils.RedisProxy.Server

/-!
# The queues of the server in memory

The server with `io_newjobs` and `io_processed` as the lists of `adlist.c` that they are. Every use
of a list is a call of the library in memory: `listLength`, `listFirst` and `listDelNode` where a
client is taken, `listAddNodeTail` where one is appended. As long as there is memory for the nodes,
the server does exactly what it does with its queues as sequences (`queue_run_rel`).
-/

namespace MgCommonUtils.RedisProxy

open MgCommonUtils.Lib MgCommonUtils.EventLoop
open MgCommonUtils.Adlist (Mem Ptr Fault Objs Obj Contents HoldsList layout listCreate
  listAddNodeTail listDelNode)

/-- The server, where the lists that it has pointers to are in memory. -/
structure QueueServer where
  /-- Everything but the two lists. -/
  server : Server
  /-- The memory of the lists. -/
  mem : Mem Addr
  /-- `io_newjobs`. -/
  io_newjobs : Ptr
  /-- `io_processed`. -/
  io_processed : Ptr

/-- The first client of a list is taken from it, if there is one. -/
def takeFirst (m : Mem Addr) (list : Ptr) : Except Fault (Option (Addr × Mem Addr)) := do
  let l ← m.list list
  if l.len = 0 then return none
  else
    let n ← m.node l.head
    let m ← listDelNode m list l.head
    return some (n.value, m)

/-- A step of the server, where a node that is added is at the address that `malloc` returns. -/
def queueStep (ext : Validator) (s : QueueServer) : ServerLabel × Ptr → Option QueueServer
  | (.append, malloc) =>
    match s.server.main with
    | .queueing a =>
      match listAddNodeTail s.mem s.io_newjobs a malloc with
      | .error _ => none
      | .ok (_, mem) => some { s with server := { s.server with main := .signalling }, mem }
    | _ => none
  | (.takeProcessed, _) =>
    if s.server.main = .taking then
      match takeFirst s.mem s.io_processed with
      | .ok (some (a, mem)) =>
        some { s with server := { s.server with main := .registering a }, mem }
      -- The assertion fails.
      | _ => none
    else none
  | (.worker i .take, _) =>
    if s.server.workers[i]? = some .polling then
      match takeFirst s.mem s.io_newjobs with
      | .error _ => none
      | .ok none => some { s with
          server := { s.server with workers := s.server.workers.set i .waiting } }
      | .ok (some (a, mem)) => some { s with
          server := { s.server with workers := s.server.workers.set i (.holding a) }
          mem }
    else none
  | (.worker i .append, malloc) =>
    match s.server.workers[i]? with
    | some (.ran a) =>
      match listAddNodeTail s.mem s.io_processed a malloc with
      | .error _ => none
      | .ok (_, mem) => some { s with
          server := { s.server with workers := s.server.workers.set i .notifying }
          mem }
    | _ => none
  | (l, _) => (serverStep ext s.server l).map fun server => { s with server }

/-- The server with `n` workers, whose lists `listCreate` has made. -/
def queueSystem (ext : Validator) (n : ℕ) : Lts QueueServer (ServerLabel × Ptr) where
  init s := ∃ (a b : Adlist.Addr), a ≠ b ∧
    s = ⟨{ workers := List.replicate n .polling },
      (listCreate (listCreate .empty (some a)).2 (some b)).2, some a, some b⟩
  step := queueStep ext

/-- The steps that add a node. -/
def addsNode : ServerLabel → Prop
  | .append => True
  | .worker _ .append => True
  | _ => False

/-- There is memory for the node that a step adds, and its list can count it. -/
def QueueServer.MemoryOk (s : QueueServer) (l : ServerLabel × Ptr) : Prop :=
  addsNode l.1 → (∃ a, l.2 = some a ∧ s.mem.cells a = none) ∧
    ∀ p r, s.mem.list p = .ok r → r.len + 1 < 2 ^ 32

/-- A list without methods. -/
def plain (items : List (Adlist.Addr × Addr)) : Obj Addr := .list ⟨items, none, false, none⟩

/-- The two lists hold the queues, and no client was given to a method that frees it. -/
structure HoldsQueues (s : QueueServer) (t : Server) : Prop where
  /-- Everything else is the same. -/
  same : { s.server with io_newjobs := t.io_newjobs, io_processed := t.io_processed } = t
  /-- The lists. -/
  lists : ∃ (A : Objs Addr) (k k' : Adlist.Addr) (items items' : List (Adlist.Addr × Addr)),
    layout.Owned s.mem.cells A ∧ k ≠ k' ∧ s.io_newjobs = some k ∧ s.io_processed = some k' ∧
      A k = some (plain items) ∧ A k' = some (plain items') ∧
      items.map Prod.snd = t.io_newjobs ∧ items'.map Prod.snd = t.io_processed
  /-- The clients that were freed. -/
  freed : s.mem.freed = []

/-- A step that does not use the queues does not depend on them. -/
theorem serverStep_queues (ext : Validator) (s : Server) {l : ServerLabel} (q q' : List Addr)
    (hl : ¬ addsNode l) (htake : ∀ i, l ≠ .worker i .take) (hproc : l ≠ .takeProcessed) :
    serverStep ext { s with io_newjobs := q, io_processed := q' } l =
      (serverStep ext s l).map fun t => { t with io_newjobs := q, io_processed := q' } := by
  cases l with
  | accept fd a =>
    simp only [serverStep, serverStepFrees]
    split_ifs <;> rfl
  | readable fd r =>
    simp only [serverStep, serverStepFrees]
    split_ifs with h
    · cases s.heap (s.events fd).clientData with
      | none => rfl
      | some c =>
        dsimp only
        cases readQueryFromClient ext c r with
        | error e => rfl
        | ok res =>
          obtain ⟨c', act⟩ := res
          cases act <;> rfl
    · rfl
  | writable fd r =>
    simp only [serverStep, serverStepFrees]
    split_ifs with h
    · cases s.heap (s.events fd).clientData with
      | none => rfl
      | some c =>
        dsimp only
        cases (sendReplyToClient c r).2 <;> rfl
    · rfl
  | completed =>
    simp only [serverStep, serverStepFrees]
    split_ifs <;> rfl
  | append => exact absurd trivial hl
  | notice i =>
    cases i <;> simp only [serverStep, serverStepFrees] <;> split_ifs <;> rfl
  | readByte =>
    simp only [serverStep, serverStepFrees]
    split_ifs <;> rfl
  | takeProcessed => exact absurd rfl hproc
  | register =>
    simp only [serverStep, serverStepFrees]
    cases s.main with
    | registering a =>
      dsimp only
      cases s.heap a <;> rfl
    | _ => rfl
  | worker i act =>
    cases act with
    | take => exact absurd rfl (htake i)
    | append => exact absurd trivial hl
    | wake =>
      simp only [serverStep, serverStepFrees, workerAct]
      rcases s.workers[i]? with _ | (_ | _ | _ | _ | _) <;> rfl
    | run wbuf =>
      simp only [serverStep, serverStepFrees, workerAct]
      rcases s.workers[i]? with _ | (_ | _ | a | _ | _)
      all_goals first | rfl | (dsimp only; cases s.heap a <;> rfl)
    | notify =>
      simp only [serverStep, serverStepFrees, workerAct]
      rcases s.workers[i]? with _ | (_ | _ | _ | _ | _) <;> rfl

/-- It does not use the memory of the lists. -/
theorem queueStep_other {ext : Validator} {s : QueueServer} {l : ServerLabel} {malloc : Ptr}
    (hl : ¬ addsNode l) (htake : ∀ i, l ≠ .worker i .take) (hproc : l ≠ .takeProcessed) :
    queueStep ext s (l, malloc) =
      (serverStep ext s.server l).map fun server => { s with server } := by
  rw [queueStep]
  · rintro rfl
    exact hl trivial
  · exact hproc
  · exact htake
  · rintro i rfl
    exact hl trivial

/-- So the memory stays. -/
theorem queueStep_mem {ext : Validator} {s t : QueueServer} {l : ServerLabel} {malloc : Ptr}
    (hl : ¬ addsNode l) (htake : ∀ i, l ≠ .worker i .take) (hproc : l ≠ .takeProcessed)
    (h : queueStep ext s (l, malloc) = some t) : t.mem = s.mem := by
  rw [queueStep_other hl htake hproc] at h
  obtain ⟨-, -, rfl⟩ := Option.map_eq_some_iff.mp h
  rfl

/-! ## Operations on a queue -/

variable {m : Mem Addr} {A : Objs Addr} {k : Adlist.Addr}

/-- An empty queue has no first client. -/
theorem takeFirst_nil (hA : layout.Owned m.cells A) (hk : A k = some (plain [])) :
    takeFirst m (some k) = .ok none := by
  rw [takeFirst, Mem.list_some (HoldsList.header (hA.holds k _ hk)), Adlist.ok_bind]
  rfl

/-- The first client is taken, and its node is freed. -/
theorem takeFirst_cons {a : Adlist.Addr} {x : Addr} {items : List (Adlist.Addr × Addr)}
    (hA : layout.Owned m.cells A) (hk : A k = some (plain ((a, x) :: items))) :
    ∃ m', takeFirst m (some k) = .ok (some (x, m')) ∧
      layout.Owned m'.cells (Function.update A k (some (plain items))) ∧ m'.freed = m.freed := by
  have hl := Adlist.holdsList hA hk
  have hnode := Mem.node_some (Adlist.nodeAt_eq_some.mp (hl.nodes.cell (l := [])))
  obtain ⟨m', hrun, hs⟩ := Adlist.listDelNode_spec hl (l := []) rfl
  obtain ⟨hA', hfreed⟩ := hs.owned hA hk
  refine ⟨m', ?_, hA', hfreed.trans (List.append_nil _)⟩
  have hhead : (Contents.header (⟨(a, x) :: items, none, false, none⟩ : Contents Addr)).head =
      some a := rfl
  have hlen : (Contents.header (⟨(a, x) :: items, none, false, none⟩ : Contents Addr)).len ≠ 0 :=
    Nat.succ_ne_zero _
  rw [takeFirst, Mem.list_some hl.header, Adlist.ok_bind, if_neg hlen, hhead, hnode,
    Adlist.ok_bind, hrun]
  rfl

/-- A client is appended. -/
theorem addLast_spec {a : Adlist.Addr} {items : List (Adlist.Addr × Addr)} (x : Addr)
    (hA : layout.Owned m.cells A) (hk : A k = some (plain items)) (ha : m.cells a = none)
    (hlen : items.length + 1 < 2 ^ 32) :
    ∃ m', listAddNodeTail m (some k) x (some a) = .ok (some k, m') ∧
      layout.Owned m'.cells (Function.update A k (some (plain (items ++ [(a, x)])))) ∧
      m'.freed = m.freed := by
  obtain ⟨m', hrun, hs⟩ := Adlist.listAddNodeTail_spec (Adlist.holdsList hA hk) ha hlen x
  obtain ⟨hA', hfreed⟩ := hs.owned hA hk
  exact ⟨m', hrun, hA', hfreed.trans (List.append_nil _)⟩

/-! ## Steps -/

/-- The server with two lists in memory, beside the one with two sequences. -/
theorem HoldsQueues.of_lists (server : Server) {k' : Adlist.Addr}
    {items items' : List (Adlist.Addr × Addr)} (hA : layout.Owned m.cells A) (hne : k ≠ k')
    (hk : A k = some (plain items)) (hk' : A k' = some (plain items')) (hfreed : m.freed = []) :
    HoldsQueues ⟨server, m, some k, some k'⟩
      { server with io_newjobs := items.map Prod.snd, io_processed := items'.map Prod.snd } :=
  ⟨rfl, ⟨A, k, k', items, items', hA, hne, rfl, rfl, hk, hk', rfl, rfl⟩, hfreed⟩

/-- A step of the server with its queues in memory is that of the server with its queues as
sequences. -/
theorem queueStep_rel {ext : Validator} {s : QueueServer} {t : Server} {l : ServerLabel × Ptr}
    (h : HoldsQueues s t) (hok : s.MemoryOk l) :
    Option.Rel HoldsQueues (queueStep ext s l) (serverStep ext t l.1) := by
  obtain ⟨l, malloc⟩ := l
  obtain ⟨server, m, p, p'⟩ := s
  obtain ⟨hsame, hqueues, hfreed⟩ := h
  obtain ⟨A, k, k', items, items', hA, hne, hnew, hproc, hk, hk', hitems, hitems'⟩ := hqueues
  rw [← hitems, ← hitems'] at hsame
  subst hsame hnew hproc
  -- A list that a node is added to can count it.
  have hcount : ∀ o is, addsNode l → A o = some (plain is) → is.length + 1 < 2 ^ 32 := by
    intro o is hadds ho
    exact (hok hadds).2 (some o) _ (Mem.list_some (HoldsList.header (hA.holds o _ ho)))
  by_cases hadds : addsNode l
  · obtain ⟨⟨a, rfl, ha⟩, -⟩ := hok hadds
    cases l with
    | append =>
      simp only [queueStep, serverStep, serverStepFrees]
      cases server.main with
      | queueing x =>
        obtain ⟨m', hadd, hA', hfreed'⟩ := addLast_spec x hA hk ha (hcount k items hadds hk)
        simp only [hadd, Option.map_some]
        refine .some ?_
        have hnew := HoldsQueues.of_lists { server with main := .signalling } hA' hne
          (Function.update_self ..) ((Function.update_of_ne hne.symm ..).trans hk')
          (hfreed'.trans hfreed)
        rw [List.map_append] at hnew
        exact hnew
      | _ => exact .none
    | worker i act =>
      cases act with
      | append =>
        simp only [queueStep, serverStep, serverStepFrees, workerAct]
        rcases server.workers[i]? with _ | (_ | _ | _ | x | _)
        case some.ran =>
          obtain ⟨m', hadd, hA', hfreed'⟩ := addLast_spec x hA hk' ha (hcount k' items' hadds hk')
          simp only [hadd, Option.map_some]
          refine .some ?_
          have hnew := HoldsQueues.of_lists
            { server with workers := server.workers.set i .notifying } hA' hne
            ((Function.update_of_ne hne ..).trans hk) (Function.update_self ..)
            (hfreed'.trans hfreed)
          rw [List.map_append] at hnew
          exact hnew
        all_goals exact .none
      | _ => exact hadds.elim
    | _ => exact hadds.elim
  by_cases htake : ∃ i, l = .worker i .take
  · obtain ⟨i, rfl⟩ := htake
    simp only [queueStep, serverStep, serverStepFrees, workerAct]
    rcases server.workers[i]? with _ | (_ | _ | _ | _ | _)
    case some.polling =>
      rw [if_pos rfl]
      cases items with
      | nil =>
        rw [takeFirst_nil hA hk]
        exact .some (HoldsQueues.of_lists _ hA hne hk hk' hfreed)
      | cons e items =>
        obtain ⟨a, x⟩ := e
        obtain ⟨m', htake, hA', hfreed'⟩ := takeFirst_cons hA hk
        rw [htake]
        exact .some (HoldsQueues.of_lists _ hA' hne (Function.update_self ..)
          ((Function.update_of_ne hne.symm ..).trans hk') (hfreed'.trans hfreed))
    all_goals exact .none
  by_cases htakeProc : l = .takeProcessed
  · subst htakeProc
    simp only [queueStep, serverStep, serverStepFrees]
    by_cases hmain : server.main = .taking
    · rw [if_pos hmain, if_pos hmain]
      cases items' with
      | nil =>
        rw [takeFirst_nil hA hk']
        exact .none
      | cons e items' =>
        obtain ⟨a, x⟩ := e
        obtain ⟨m', htake, hA', hfreed'⟩ := takeFirst_cons hA hk'
        rw [htake]
        exact .some (HoldsQueues.of_lists _ hA' hne ((Function.update_of_ne hne ..).trans hk)
          (Function.update_self ..) (hfreed'.trans hfreed))
    · rw [if_neg hmain, if_neg hmain]
      exact .none
  have hstep := serverStep_queues ext server (items.map Prod.snd)
    (items'.map Prod.snd) hadds (fun i h => htake ⟨i, h⟩) htakeProc
  dsimp only at hstep ⊢
  rw [queueStep_other hadds (fun i h => htake ⟨i, h⟩) htakeProc, hstep]
  cases serverStep ext server l with
  | none => exact .none
  | some server => exact .some (HoldsQueues.of_lists _ hA hne hk hk' hfreed)

/-! ## Runs -/

/-- The server begins with two empty queues. -/
theorem holdsQueues_init {ext : Validator} {n : ℕ} {s : QueueServer}
    (h : (queueSystem ext n).init s) :
    HoldsQueues s { workers := List.replicate n .polling } := by
  obtain ⟨a, b, hne, rfl⟩ := h
  obtain ⟨m₁, hrun₁, hs₁⟩ := Adlist.listCreate_spec (m := (.empty : Mem Addr)) (a := a) rfl
  obtain ⟨hA₁, hfreed₁⟩ := hs₁.owned (A := fun _ => none) Layout.owned_empty rfl
  have hb : Objs.Unused (Function.update (fun _ => none) a (some (plain []))) b := by
    refine Objs.Unused.update (fun _ _ h => by cases h) ?_
    rintro _ ⟨⟩ (h | h)
    · exact hne h.symm
    · cases h
  obtain ⟨hfree, hnone⟩ := hb.free hA₁
  obtain ⟨m₂, hrun₂, hs₂⟩ := Adlist.listCreate_spec hfree
  obtain ⟨hA₂, hfreed₂⟩ := hs₂.owned hA₁ hnone
  rw [hrun₁, hrun₂]
  have hk := (Function.update_of_ne hne (some (plain [])) _).trans
    (Function.update_self a (some (plain [])) fun _ => none)
  have hk' := Function.update_self b (some (plain []))
    (Function.update (fun _ => none) a (some (plain [])))
  exact HoldsQueues.of_lists _ hA₂ hne hk hk'
    (by rw [hfreed₂, hfreed₁]; rfl)

/-- The server with its queues in memory does what the server with its queues as sequences does: as
long as there is memory for nodes, a run of the one is possible if and only if it is a run of the
other, no list is used wrongly, and at the end the lists hold the queues. -/
theorem queue_run_rel {ext : Validator} {n : ℕ} {s : QueueServer} (hs : (queueSystem ext n).init s)
    {labels : List (ServerLabel × Ptr)}
    (hok : (queueSystem ext n).RunOk QueueServer.MemoryOk s labels) :
    Option.Rel HoldsQueues ((queueSystem ext n).run s labels)
      ((serverSystem ext n).run { workers := List.replicate n .polling } (labels.map Prod.fst)) :=
  Lts.run_rel (R := HoldsQueues) (f := Prod.fst) (fun _ _ _ h hok => queueStep_rel h hok)
    (holdsQueues_init hs) hok

/-- The server before a client connects, with its lists. -/
def emptyQueues : QueueServer :=
  ⟨{ workers := [.polling] }, (listCreate (listCreate .empty (some 10)).2 (some 11)).2, some 10,
    some 11⟩

/-- A client connects and sends an inline `PING`, and is queued. -/
def queuedLabels : List (ServerLabel × Ptr) :=
  [(.accept 5 1, none), (.readable 5 (.data [80, 73, 78, 71, 13, 10]), none), (.append, some 12)]

/-- There is memory for it. -/
theorem emptyQueues_memoryOk {s : QueueServer} (h : s.mem = emptyQueues.mem) :
    s.MemoryOk (.append, some 12) := by
  refine fun _ => ⟨⟨12, rfl, by rw [h]; rfl⟩, fun p r hr => ?_⟩
  rw [h] at hr
  cases p with
  | none => cases hr
  | some a =>
    by_cases hb : a = 11
    · subst hb
      obtain rfl := Except.ok.inj hr
      decide
    · by_cases ha : a = 10
      · subst ha
        obtain rfl := Except.ok.inj hr
        decide
      · simp [emptyQueues, listCreate, Mem.list, Adlist.deref, Adlist.listAt, hb, ha,
          Mem.empty] at hr

/-- The client is in the first list. -/
theorem queue_run_rel_ping : ∃ (s : QueueServer) (t : Server),
    (queueSystem processRequestBuffer 1).run emptyQueues queuedLabels = some s ∧
      t.io_newjobs = [1] ∧ HoldsQueues s t := by
  have hinit : (queueSystem processRequestBuffer 1).init emptyQueues := ⟨10, 11, by decide, rfl⟩
  have hok : (queueSystem processRequestBuffer 1).RunOk QueueServer.MemoryOk emptyQueues
      queuedLabels := by
    refine ⟨fun h => h.elim, fun s hs => ⟨fun h => h.elim, fun t ht => ⟨?_, fun _ _ => trivial⟩⟩⟩
    have hs : queueStep processRequestBuffer emptyQueues (.accept 5 1, none) = some s := hs
    have ht : queueStep processRequestBuffer s (.readable 5 _, none) = some t := ht
    have hs := queueStep_mem id (by simp) (by simp) hs
    have ht := queueStep_mem id (by simp) (by simp) ht
    exact emptyQueues_memoryOk (ht.trans hs)
  have hrel := queue_run_rel hinit hok
  have hrun : ((serverSystem processRequestBuffer 1).run { workers := [.polling] }
      (queuedLabels.map Prod.fst)).map Server.io_newjobs = some [1] := by decide +kernel
  obtain ⟨t, ht, hnew⟩ := Option.map_eq_some_iff.mp hrun
  rw [show List.replicate 1 WorkerPc.polling = [.polling] from rfl, ht] at hrel
  cases hs : (queueSystem processRequestBuffer 1).run emptyQueues queuedLabels with
  | none =>
    rw [hs] at hrel
    cases hrel
  | some s =>
    rw [hs] at hrel
    cases hrel with
    | some h => exact ⟨s, t, rfl, hnew, h⟩

end MgCommonUtils.RedisProxy
