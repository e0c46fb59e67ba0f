import MgCommonUtils.Ae.Dispatch
import MgCommonUtils.RedisUuid.Connections

/-!
# The id server in its event loop

`redis-uuid/redis.c` on top of `ae.c`: the procedures as they register, unregister and close
descriptors in the event loop that calls them. A pass of the loop is a sequence of events that the
connections are modelled to handle (`loop_reach`): a procedure is only called for a live client, and
what is known of the connections holds in the loop. So does the agreement of the event table with
the kernel's list, since the server closes no descriptor that is registered.
-/

namespace MgCommonUtils.RedisUuid

open MgCommonUtils.Lib MgCommonUtils.EventLoop
open MgCommonUtils.Ae (AeEventLoop AeMask AE_READABLE AE_WRITABLE AE_NONE closeFd)

/-- The procedures that are registered. -/
inductive Proc where
  | acceptHandler
  | readQueryFromClient
  | sendReplyToClient
  deriving DecidableEq, Repr

/-- What the procedures get from the system. -/
structure FromSystem where
  /-- The connection that `anetAccept` returns, if it does, with what `calloc` returns for it. -/
  accept : Option (ℕ × Option Addr)
  /-- The result of `read`. -/
  read : ReadResult
  /-- The result of `time`. -/
  now : ℕ
  /-- The result of `write`. -/
  write : WriteResult
  /-- Whether the kernel has memory for an event. -/
  memory : Bool

/-- The process with its event loop. -/
structure LoopProcess where
  /-- The globals that an answer depends on. -/
  globals : Server
  /-- The live clients. -/
  heap : Addr → Option RedisClient
  /-- `server.el`. -/
  el : AeEventLoop Proc Addr

/-- The record of a client changes. -/
def LoopProcess.setClient (s : LoopProcess) (a : Addr) (c : RedisClient) : LoopProcess :=
  { s with heap := Function.update s.heap a (some c) }

/-- `freeClient`. -/
def LoopProcess.freeClient (s : LoopProcess) (a : Addr) (c : RedisClient) : LoopProcess :=
  let el := Ae.aeDeleteFileEvent s.el c.fd AE_READABLE true
  let el := Ae.aeDeleteFileEvent el c.fd AE_WRITABLE true
  { heap := Function.update s.heap a none
    el := closeFd el c.fd
    globals := { s.globals with clients := s.globals.clients - 1 } }

/-- `createClient`, with the client that it returns. -/
def LoopProcess.createClient (s : LoopProcess) (fd : ℕ) (a : Option Addr) (memory : Bool) :
    LoopProcess × Option Addr :=
  match a with
  | none => (s, none)
  | some a =>
    match Ae.aeCreateFileEvent s.el fd AE_READABLE .readQueryFromClient a memory with
    | none => ({ s with el := closeFd s.el fd }, none)
    | some el => ({ s.setClient a { fd := fd } with
        el
        globals := { s.globals with clients := s.globals.clients + 1 } }, some a)

/-- `acceptHandler`. A descriptor whose client is not created is closed, which it may be already. -/
def LoopProcess.acceptHandler (maxclients : ℕ) (s : LoopProcess) (i : FromSystem) : LoopProcess :=
  match i.accept with
  | none => s
  | some (fd, a) =>
    match s.createClient fd a i.memory with
    | (s, none) => { s with el := closeFd s.el fd }
    | (s, some a) =>
      let s := { s with globals :=
        { s.globals with stat_numconnections := s.globals.stat_numconnections + 1 } }
      if maxclients ≠ 0 ∧ s.globals.clients > maxclients then s.freeClient a { fd := fd } else s

/-- `processInputBuffer` and the rest of `readQueryFromClient`, for what they do with the client. -/
def LoopProcess.carryOutRead (s : LoopProcess) (a : Addr) (c : RedisClient) (memory : Bool) :
    ReadAction → LoopProcess
  | .wait => s
  | .reply =>
    let el := Ae.aeDeleteFileEvent s.el c.fd AE_READABLE true
    { s with el := (Ae.aeCreateFileEvent el c.fd AE_WRITABLE .sendReplyToClient a memory).getD el }
  | .free => s.freeClient a c

/-- What `sendReplyToClient` does with the client, with the events of `resetClient`. -/
def LoopProcess.carryOutWrite (s : LoopProcess) (a : Addr) (c : RedisClient) (memory : Bool) :
    WriteAction → LoopProcess
  | .wait => s
  | .reset =>
    let el := Ae.aeDeleteFileEvent s.el c.fd AE_WRITABLE true
    let el := Ae.aeDeleteFileEvent el c.fd AE_READABLE true
    { s with
      el := (Ae.aeCreateFileEvent el c.fd AE_READABLE .readQueryFromClient a memory).getD el }
  | .free => s.freeClient a c

/-- The calls of the event loop. A client that is not there cannot be used. -/
def callProc (maxclients : ℕ) (proc : Proc) (_fd : ℕ) (a : Addr) (_mask : AeMask) (i : FromSystem)
    (s : LoopProcess) : Option LoopProcess :=
  match proc with
  | .acceptHandler => some (s.acceptHandler maxclients i)
  | .readQueryFromClient => do
    let c ← s.heap a
    let (c, globals, act) := readQueryFromClient c s.globals i.read i.now
    return ({ s with globals }.setClient a c).carryOutRead a c i.memory act
  | .sendReplyToClient => do
    let c ← s.heap a
    let (c, act) := sendReplyToClient c i.write
    return (s.setClient a c).carryOutWrite a c i.memory act

/-- The program. -/
def uuidProgram (maxclients : ℕ) : Ae.Program LoopProcess Proc Addr FromSystem where
  loop := LoopProcess.el
  call := callProc maxclients

/-- The process, when `initServer` has registered the listening socket `lfd`, whose client data is
`NULL`. -/
def LoopProcess.Started (lfd : ℕ) (s : LoopProcess) : Prop :=
  ∃ opts globals events el, main opts = some globals ∧
    Ae.aeCreateFileEvent (Ae.aeCreateEventLoop events) lfd AE_READABLE .acceptHandler 0 true =
      some el ∧
      s = ⟨globals, fun _ => none, el⟩

/-- The events of the clients. -/
def clientEvents (el : AeEventLoop Proc Addr) : EventTable := fun fd =>
  let fe := el.events fd
  { readable := fe.mask.readable && fe.rfileProc = .readQueryFromClient
    writable := fe.mask.writable && fe.wfileProc = .sendReplyToClient
    clientData := fe.clientData }

/-- The process with its connections. -/
def LoopProcess.view (s : LoopProcess) : Process := ⟨s.globals, s.heap, clientEvents s.el⟩

/-- The connections of a process that `main` has started, when nothing is registered in the table,
whatever it holds besides. -/
def loopConnections (maxclients : ℕ) : Lts Process Label where
  init t := ∃ opts, main opts = some t.globals ∧ (t.heap = fun _ => none) ∧
    ∀ fd, (t.events fd).client = none
  step := processStep maxclients

/-- What the system can return to a procedure: a connection has a descriptor that is not in use, and
a new client an address that is not. For the events of a client that is there the kernel has
memory. -/
def FromSystem.Valid (lfd : ℕ) (s : LoopProcess) (proc : Proc) (fd : ℕ) (i : FromSystem) : Prop :=
  match proc with
  | .acceptHandler => ∀ cfd a, i.accept = some (cfd, a) →
      cfd ≠ lfd ∧ s.view.ValidStep (.accept cfd a true)
  | .readQueryFromClient => i.memory = true ∧ s.view.ValidStep (.readable fd i.read i.now)
  | .sendReplyToClient => i.memory = true ∧ s.view.ValidStep (.writable fd i.write)

/-! ## The events of the clients -/

variable {el : AeEventLoop Proc Addr} {fd lfd maxclients : ℕ} {a : Addr}

/-- Unregistering a client for reading. -/
theorem clientEvents_delete_readable (hel : el.Inv) (fd : ℕ) :
    clientEvents (Ae.aeDeleteFileEvent el fd AE_READABLE true) =
      EventLoop.aeDeleteFileEvent (clientEvents el) fd .readable := by
  funext k
  unfold clientEvents
  rw [hel.events_delete]
  by_cases hk : k = fd
  · subst hk
    simp [Ae.AeFileEvent.unregister, AeMask.without, AE_READABLE]
  · simp [hk]

/-- Unregistering a client for writing. -/
theorem clientEvents_delete_writable (hel : el.Inv) (fd : ℕ) :
    clientEvents (Ae.aeDeleteFileEvent el fd AE_WRITABLE true) =
      EventLoop.aeDeleteFileEvent (clientEvents el) fd .writable := by
  funext k
  unfold clientEvents
  rw [hel.events_delete]
  by_cases hk : k = fd
  · subst hk
    simp [Ae.AeFileEvent.unregister, AeMask.without, AE_WRITABLE]
  · simp [hk]

/-- Registering a client for reading. -/
theorem clientEvents_create_readable (hel : el.Inv) {memory : Bool} {el' : AeEventLoop Proc Addr}
    (h : Ae.aeCreateFileEvent el fd AE_READABLE .readQueryFromClient a memory = some el') :
    clientEvents el' = EventLoop.aeCreateFileEvent (clientEvents el) fd .readable a := by
  rw [hel.create] at h
  split_ifs at h
  obtain rfl := Option.some.inj h
  funext k
  unfold clientEvents
  by_cases hk : k = fd
  · subst hk
    simp [Ae.AeFileEvent.register, AeMask.or, AE_READABLE]
  · simp [hk]

/-- Registering a client for writing. -/
theorem clientEvents_create_writable (hel : el.Inv) {memory : Bool} {el' : AeEventLoop Proc Addr}
    (h : Ae.aeCreateFileEvent el fd AE_WRITABLE .sendReplyToClient a memory = some el') :
    clientEvents el' = EventLoop.aeCreateFileEvent (clientEvents el) fd .writable a := by
  rw [hel.create] at h
  split_ifs at h
  obtain rfl := Option.some.inj h
  funext k
  unfold clientEvents
  by_cases hk : k = fd
  · subst hk
    simp [Ae.AeFileEvent.register, AeMask.or, AE_WRITABLE]
  · simp [hk]

/-- What holds of the event loop: its lists agree, the listening socket is registered with its
procedure, and every other descriptor with those of a client. -/
structure LoopOk (lfd : ℕ) (el : AeEventLoop Proc Addr) : Prop where
  /-- The lists agree. -/
  inv : el.Inv
  /-- The listening socket. -/
  listening : (el.events lfd).mask = AE_READABLE ∧ (el.events lfd).rfileProc = .acceptHandler
  /-- A client that is registered for reading. -/
  readable : ∀ fd, fd ≠ lfd → (el.events fd).mask.readable = true →
    (el.events fd).rfileProc = .readQueryFromClient
  /-- A client that is registered for writing. -/
  writable : ∀ fd, fd ≠ lfd → (el.events fd).mask.writable = true →
    (el.events fd).wfileProc = .sendReplyToClient

/-- Unregistering a client keeps the event loop in order. -/
theorem LoopOk.delete (h : LoopOk lfd el) (hfd : fd ≠ lfd) (mask : AeMask) :
    LoopOk lfd (Ae.aeDeleteFileEvent el fd mask true) := by
  have hevents := h.inv.events_delete fd mask
  refine ⟨h.inv.deleted fd mask, ?_, fun k hk hmask => ?_, fun k hk hmask => ?_⟩
  · rw [hevents, Function.update_of_ne hfd.symm]
    exact h.listening
  · rw [hevents] at hmask ⊢
    by_cases hkfd : k = fd
    · subst hkfd
      rw [Function.update_self] at hmask ⊢
      exact h.readable k hk (Bool.and_eq_true_iff.mp hmask).1
    · rw [Function.update_of_ne hkfd] at hmask ⊢
      exact h.readable k hk hmask
  · rw [hevents] at hmask ⊢
    by_cases hkfd : k = fd
    · subst hkfd
      rw [Function.update_self] at hmask ⊢
      exact h.writable k hk (Bool.and_eq_true_iff.mp hmask).1
    · rw [Function.update_of_ne hkfd] at hmask ⊢
      exact h.writable k hk hmask

/-- The mask and the procedure of a client. -/
def ForClient (mask : AeMask) (proc : Proc) : Prop :=
  mask = AE_READABLE ∧ proc = .readQueryFromClient ∨ mask = AE_WRITABLE ∧ proc = .sendReplyToClient

/-- Registering a client keeps the event loop in order. -/
theorem LoopOk.create (h : LoopOk lfd el) (hfd : fd ≠ lfd) {mask : AeMask} {proc : Proc}
    (hproc : ForClient mask proc) {memory : Bool} {el' : AeEventLoop Proc Addr}
    (hel : Ae.aeCreateFileEvent el fd mask proc a memory = some el') : LoopOk lfd el' := by
  have hmask : mask ≠ AE_NONE := by
    rcases hproc with ⟨rfl, -⟩ | ⟨rfl, -⟩ <;> decide
  have hinv := h.inv.created hmask hel
  rw [h.inv.create] at hel
  split_ifs at hel
  obtain rfl := Option.some.inj hel
  refine ⟨hinv, ?_, fun k hk hr => ?_, fun k hk hw => ?_⟩
  · dsimp only
    rw [Function.update_of_ne hfd.symm]
    exact h.listening
  · dsimp only at hr ⊢
    by_cases hkfd : k = fd
    · subst hkfd
      rw [Function.update_self] at hr ⊢
      rcases hproc with ⟨rfl, rfl⟩ | ⟨rfl, rfl⟩
      · rfl
      · refine h.readable k hk ?_
        simpa [Ae.AeFileEvent.register, AeMask.or, AE_WRITABLE] using hr
    · rw [Function.update_of_ne hkfd] at hr ⊢
      exact h.readable k hk hr
  · dsimp only at hw ⊢
    by_cases hkfd : k = fd
    · subst hkfd
      rw [Function.update_self] at hw ⊢
      rcases hproc with ⟨rfl, rfl⟩ | ⟨rfl, rfl⟩
      · refine h.writable k hk ?_
        simpa [Ae.AeFileEvent.register, AeMask.or, AE_READABLE] using hw
      · rfl
    · rw [Function.update_of_ne hkfd] at hw ⊢
      exact h.writable k hk hw

/-- Another descriptor than the listening socket is registered for what the clients' events say. -/
theorem LoopOk.mask_eq (h : LoopOk lfd el) (hfd : fd ≠ lfd) :
    (el.events fd).mask = ⟨(clientEvents el fd).readable, (clientEvents el fd).writable⟩ := by
  have hr := h.readable fd hfd
  have hw := h.writable fd hfd
  unfold clientEvents
  cases hmask : (el.events fd).mask with
  | mk readable writable =>
    rw [hmask] at hr hw
    cases readable <;> cases writable <;> simp_all

/-! ## The procedures -/

variable {s : LoopProcess} {c : RedisClient}

/-- A descriptor that is not too large is registered, where the kernel has memory. -/
theorem LoopOk.exists_create (h : LoopOk lfd el) (hsize : fd < Ae.AE_SETSIZE) (mask : AeMask)
    (proc : Proc) (a : Addr) : ∃ el', Ae.aeCreateFileEvent el fd mask proc a true = some el' := by
  rw [h.inv.create, if_pos ⟨hsize, rfl⟩]
  exact ⟨_, rfl⟩

/-- `freeClient` unregisters the client before it closes the descriptor. -/
theorem LoopOk.freeClient (h : LoopOk lfd s.el) (hfd : c.fd ≠ lfd) (a : Addr) :
    LoopOk lfd (s.freeClient a c).el ∧
      (s.freeClient a c).view = RedisUuid.freeClient s.view a c := by
  have h₁ := h.delete hfd AE_READABLE
  have h₂ := h₁.delete hfd AE_WRITABLE
  have hnone : ((Ae.aeDeleteFileEvent (Ae.aeDeleteFileEvent s.el c.fd AE_READABLE true) c.fd
      AE_WRITABLE true).events c.fd).mask = AE_NONE := by
    rw [h₁.inv.events_delete, Function.update_self, h.inv.events_delete, Function.update_self]
    simp [Ae.AeFileEvent.unregister, AeMask.without, AE_READABLE, AE_WRITABLE, AE_NONE]
  have hel : (s.freeClient a c).el = Ae.aeDeleteFileEvent
      (Ae.aeDeleteFileEvent s.el c.fd AE_READABLE true) c.fd AE_WRITABLE true := h₂.inv.closed hnone
  refine ⟨hel ▸ h₂, ?_⟩
  rw [LoopProcess.view, hel, clientEvents_delete_writable h₁.inv,
    clientEvents_delete_readable h.inv]
  rfl

/-- The rest of `readQueryFromClient`. -/
theorem LoopOk.carryOutRead (h : LoopOk lfd s.el) (hfd : c.fd ≠ lfd) (hsize : c.fd < Ae.AE_SETSIZE)
    (a : Addr) (act : ReadAction) : LoopOk lfd (s.carryOutRead a c true act).el ∧
      (s.carryOutRead a c true act).view = act.carryOut s.view a c := by
  cases act with
  | wait => exact ⟨h, rfl⟩
  | reply =>
    have h₁ := h.delete hfd AE_READABLE
    obtain ⟨el', hel'⟩ := h₁.exists_create hsize AE_WRITABLE .sendReplyToClient a
    have hel : (s.carryOutRead a c true .reply).el = el' := by
      rw [LoopProcess.carryOutRead, hel']
      rfl
    refine ⟨hel ▸ h₁.create hfd (.inr ⟨rfl, rfl⟩) hel', ?_⟩
    rw [LoopProcess.view, hel, clientEvents_create_writable h₁.inv hel',
      clientEvents_delete_readable h.inv]
    rfl
  | free => exact h.freeClient hfd a

/-- The rest of `sendReplyToClient`. -/
theorem LoopOk.carryOutWrite (h : LoopOk lfd s.el) (hfd : c.fd ≠ lfd) (hsize : c.fd < Ae.AE_SETSIZE)
    (a : Addr) (act : WriteAction) : LoopOk lfd (s.carryOutWrite a c true act).el ∧
      (s.carryOutWrite a c true act).view = act.carryOut s.view a c := by
  cases act with
  | wait => exact ⟨h, rfl⟩
  | reset =>
    have h₁ := h.delete hfd AE_WRITABLE
    have h₂ := h₁.delete hfd AE_READABLE
    obtain ⟨el', hel'⟩ := h₂.exists_create hsize AE_READABLE .readQueryFromClient a
    have hel : (s.carryOutWrite a c true .reset).el = el' := by
      rw [LoopProcess.carryOutWrite, hel']
      rfl
    refine ⟨hel ▸ h₂.create hfd (.inl ⟨rfl, rfl⟩) hel', ?_⟩
    rw [LoopProcess.view, hel, clientEvents_create_readable h₂.inv hel',
      clientEvents_delete_readable h₁.inv, clientEvents_delete_writable h.inv]
    rfl
  | free => exact h.freeClient hfd a

/-- `acceptHandler`, where the connection has a new descriptor. -/
theorem LoopOk.acceptHandler (h : LoopOk lfd s.el) (hs : s.view.Inv) {i : FromSystem}
    (hi : i.Valid lfd s .acceptHandler lfd) : LoopOk lfd (s.acceptHandler maxclients i).el ∧
      ((s.acceptHandler maxclients i).view = s.view ∨ ∃ cfd a, i.accept = some (cfd, some a) ∧
        (s.acceptHandler maxclients i).view = acceptClient maxclients s.view cfd a) := by
  unfold LoopProcess.acceptHandler
  cases haccept : i.accept with
  | none => exact ⟨h, .inl rfl⟩
  | some conn =>
    obtain ⟨cfd, a⟩ := conn
    obtain ⟨hcfd, hnew, hfresh⟩ := hi cfd a haccept
    -- The descriptor is not registered, and to close it changes nothing.
    have hnone : (s.el.events cfd).mask = AE_NONE := by
      have hclient : (clientEvents s.el cfd).client = none := by
        cases hc : (clientEvents s.el cfd).client with
        | none => rfl
        | some b =>
          obtain ⟨c, hb, hc⟩ := hs.client hc
          exact absurd hc (hfresh b c hb)
      obtain ⟨hr, hw⟩ := FileEvent.client_eq_none.mp hclient
      rw [h.mask_eq hcfd, hr, hw]
      rfl
    have hclose : closeFd s.el cfd = s.el := h.inv.closed hnone
    cases a with
    | none =>
      dsimp only [LoopProcess.createClient]
      rw [hclose]
      exact ⟨h, .inl rfl⟩
    | some a =>
      cases hel : Ae.aeCreateFileEvent s.el cfd AE_READABLE .readQueryFromClient a i.memory with
      | none =>
        dsimp only [LoopProcess.createClient]
        rw [hel]
        dsimp only
        rw [hclose, hclose]
        exact ⟨h, .inl rfl⟩
      | some el =>
        have hok := h.create hcfd (.inl ⟨rfl, rfl⟩) hel
        -- The process with the client, before it is decided whether there are too many.
        let s₁ : LoopProcess :=
          { globals := { s.globals with
              clients := s.globals.clients + 1
              stat_numconnections := s.globals.stat_numconnections + 1 }
            heap := Function.update s.heap a (some { fd := cfd })
            el }
        have hview : s₁.view = { createClient s.view cfd a with globals := s₁.globals } := by
          rw [LoopProcess.view, show s₁.el = el from rfl, clientEvents_create_readable h.inv hel]
          rfl
        have haccept : acceptClient maxclients s.view cfd a =
            if maxclients ≠ 0 ∧ s.globals.clients + 1 > maxclients then
              RedisUuid.freeClient s₁.view a { fd := cfd } else s₁.view := by
          rw [hview]
          rfl
        dsimp only [LoopProcess.createClient]
        rw [hel]
        dsimp only
        split_ifs at haccept ⊢ with hmax
        · have hfree := LoopOk.freeClient (s := s₁) (c := { fd := cfd }) hok hcfd a
          exact ⟨hfree.1, .inr ⟨cfd, a, rfl, hfree.2.trans haccept.symm⟩⟩
        · exact ⟨hok, .inr ⟨cfd, a, rfl, haccept.symm⟩⟩

/-! ## The event loop -/

/-- A process with nothing registered, whatever the table holds besides. -/
theorem Process.inv_unregistered {opts : List Opt} {t : Process} (h : main opts = some t.globals)
    (hheap : t.heap = fun _ => none) (hevents : ∀ fd, (t.events fd).client = none) : t.Inv := by
  have hinit := Process.inv_init h
  have hcustody : t.custody = Process.custody { globals := t.globals } := by
    refine Custody.ext (funext fun b => ?_) (funext fun k => ?_) rfl
    · simp [Process.custody, hheap]
    · exact hevents k
  refine ⟨hcustody ▸ hinit.custody, fun a c hc => ?_, ?_⟩
  · rw [hheap] at hc
    cases hc
  · rw [hheap]
    exact hinit.clients

/-- What holds of the connections in every state they reach. -/
theorem Process.Inv.of_reach {t : Process}
    (h : (loopConnections maxclients).Reach Process.ValidStep t) : t.Inv := by
  refine h.invariant ?_ fun s l t hs hl h => hs.step hl h
  rintro s ⟨opts, hmain, hheap, hevents⟩
  exact Process.inv_unregistered hmain hheap hevents

/-- What every call of the event loop keeps. -/
structure LoopProcess.Inv (maxclients lfd : ℕ) (s : LoopProcess) : Prop where
  /-- The event loop is in order. -/
  loop : LoopOk lfd s.el
  /-- The connections are in a state that they can reach. -/
  reach : (loopConnections maxclients).Reach Process.ValidStep s.view

/-- A procedure of a client that is called is called for a live client at its descriptor. -/
theorem LoopProcess.Inv.client (hs : s.Inv maxclients lfd) {proc : Proc}
    (hproc : proc ≠ .acceptHandler)
    (h : (uuidProgram maxclients).Registered s proc fd a) :
    fd ≠ lfd ∧ fd < Ae.AE_SETSIZE ∧ (∃ c, s.heap a = some c ∧ c.fd = fd) ∧
      (s.view.events fd).clientData = a ∧
      (proc = .readQueryFromClient → (s.view.events fd).readable = true) ∧
      (proc = .sendReplyToClient → (s.view.events fd).writable = true) := by
  obtain ⟨hdata, hreg⟩ := h
  have hdata : (s.el.events fd).clientData = a := hdata
  have hmask : (s.el.events fd).mask.readable = true ∧ (s.el.events fd).rfileProc = proc ∨
    (s.el.events fd).mask.writable = true ∧ (s.el.events fd).wfileProc = proc := hreg
  -- The listening socket has another procedure.
  have hfd : fd ≠ lfd := by
    rintro rfl
    obtain ⟨hmask', hproc'⟩ := hs.loop.listening
    rcases hmask with ⟨-, h⟩ | ⟨h, -⟩
    · exact hproc (h.symm.trans hproc')
    · rw [hmask'] at h
      cases h
  have hsize : fd < Ae.AE_SETSIZE := by
    refine hs.loop.inv.size fd fun hnone => ?_
    rw [hnone] at hmask
    rcases hmask with ⟨h, -⟩ | ⟨h, -⟩ <;> cases h
  have hread : proc = .readQueryFromClient → (s.view.events fd).readable = true := by
    rintro rfl
    rcases hmask with ⟨h, h'⟩ | ⟨h, h'⟩
    · simp [LoopProcess.view, clientEvents, h, h']
    · rw [hs.loop.writable fd hfd h] at h'
      cases h'
  have hwrite : proc = .sendReplyToClient → (s.view.events fd).writable = true := by
    rintro rfl
    rcases hmask with ⟨h, h'⟩ | ⟨h, h'⟩
    · rw [hs.loop.readable fd hfd h] at h'
      cases h'
    · simp [LoopProcess.view, clientEvents, h, h']
  refine ⟨hfd, hsize, (Process.Inv.of_reach hs.reach).client ?_, hdata, hread, hwrite⟩
  refine FileEvent.client_eq_some.mpr ⟨?_, hdata⟩
  cases proc with
  | acceptHandler => exact absurd rfl hproc
  | readQueryFromClient => exact .inl (hread rfl)
  | sendReplyToClient => exact .inr (hwrite rfl)

/-- A call of a registered procedure keeps it. -/
theorem LoopProcess.Inv.call (hs : s.Inv maxclients lfd) {proc : Proc} (mask : AeMask)
    {i : FromSystem} (h : (uuidProgram maxclients).Registered s proc fd a)
    (hi : i.Valid lfd s proc fd) :
    ∃ t, callProc maxclients proc fd a mask i s = some t ∧ t.Inv maxclients lfd := by
  have hinv := Process.Inv.of_reach hs.reach
  cases proc with
  | acceptHandler =>
    obtain ⟨hloop, hview⟩ := LoopOk.acceptHandler hs.loop hinv hi
    refine ⟨_, rfl, hloop, ?_⟩
    rcases hview with hview | ⟨cfd, b, haccept, hview⟩
    · rw [hview]
      exact hs.reach
    · rw [hview]
      exact hs.reach.step (a := .accept cfd (some b) true) (hi cfd (some b) haccept).2 rfl
  | readQueryFromClient =>
    obtain ⟨hfd, hsize, ⟨c, hc, rfl⟩, hdata, hr, -⟩ := hs.client (by simp) h
    have hr := hr rfl
    obtain ⟨hmemory, hvalid⟩ := hi
    have hreading : c.Reading := by
      rcases hinv.registered a c hc with ⟨-, -, hreading⟩ | ⟨hnot, -, -⟩
      · exact hreading
      · rw [hr] at hnot
        cases hnot
    have hsame := (readQueryFromClient_spec hreading s.globals i.read i.now).1
    have hheap : s.view.heap a = some c := hc
    have hstep : processStep maxclients s.view (.readable c.fd i.read i.now) = some
        ((readQueryFromClient c s.globals i.read i.now).2.2.carryOut
          ({ s.view with globals := (readQueryFromClient c s.globals i.read i.now).2.1 }.setClient a
            (readQueryFromClient c s.globals i.read i.now).1) a
          (readQueryFromClient c s.globals i.read i.now).1) := by
      simp only [processStep, hr, if_true, hdata, hheap]
      rfl
    have hcall : callProc maxclients .readQueryFromClient c.fd a mask i s = some
        (({ s with globals := (readQueryFromClient c s.globals i.read i.now).2.1 }.setClient a
          (readQueryFromClient c s.globals i.read i.now).1).carryOutRead a
          (readQueryFromClient c s.globals i.read i.now).1 true
          (readQueryFromClient c s.globals i.read i.now).2.2) := by
      simp only [callProc, hc, hmemory]
      rfl
    generalize readQueryFromClient c s.globals i.read i.now = x at hsame hstep hcall
    obtain ⟨c', globals, act⟩ := x
    obtain ⟨hloop, hview⟩ := LoopOk.carryOutRead
      (s := { s with globals }.setClient a c') (c := c') hs.loop (hsame ▸ hfd) (hsame ▸ hsize) a act
    refine ⟨_, hcall, hloop, ?_⟩
    rw [hview]
    exact hs.reach.step hvalid hstep
  | sendReplyToClient =>
    obtain ⟨hfd, hsize, ⟨c, hc, rfl⟩, hdata, -, hw⟩ := hs.client (by simp) h
    have hw := hw rfl
    obtain ⟨hmemory, hvalid⟩ := hi
    have hwriting : c.Writing := by
      rcases hinv.registered a c hc with ⟨-, hnot, -⟩ | ⟨-, -, hwriting⟩
      · rw [hw] at hnot
        cases hnot
      · exact hwriting
    have hheap : s.view.heap a = some c := hc
    have hsame := (sendReplyToClient_spec hwriting (hvalid c (by rw [hdata]; exact hheap))).1
    have hstep : processStep maxclients s.view (.writable c.fd i.write) = some
        ((sendReplyToClient c i.write).2.carryOut
          (s.view.setClient a (sendReplyToClient c i.write).1) a
          (sendReplyToClient c i.write).1) := by
      simp only [processStep, hw, if_true, hdata, hheap]
    have hcall : callProc maxclients .sendReplyToClient c.fd a mask i s = some
        ((s.setClient a (sendReplyToClient c i.write).1).carryOutWrite a
          (sendReplyToClient c i.write).1 true (sendReplyToClient c i.write).2) := by
      simp only [callProc, hc, hmemory]
      rfl
    generalize sendReplyToClient c i.write = x at hsame hstep hcall
    obtain ⟨c', act⟩ := x
    obtain ⟨hloop, hview⟩ := LoopOk.carryOutWrite (s := s.setClient a c') (c := c') hs.loop
      (hsame ▸ hfd) (hsame ▸ hsize) a act
    refine ⟨_, hcall, hloop, ?_⟩
    rw [hview]
    exact hs.reach.step hvalid hstep

/-- What `initServer` leaves. -/
theorem LoopProcess.Started.inv (h : s.Started lfd) : s.Inv maxclients lfd := by
  obtain ⟨opts, globals, events, el, hmain, hel, rfl⟩ := h
  have hinv := Ae.inv_aeCreateEventLoop events
  have hloop := hinv.created (by decide) hel
  rw [hinv.create] at hel
  split_ifs at hel
  obtain rfl := Option.some.inj hel
  refine ⟨⟨hloop, ?_, fun fd hfd hmask => ?_, fun fd hfd hmask => ?_⟩, ?_⟩
  · dsimp only
    rw [Function.update_self]
    exact ⟨rfl, rfl⟩
  · dsimp only at hmask
    rw [Function.update_of_ne hfd] at hmask
    cases hmask
  · dsimp only at hmask
    rw [Function.update_of_ne hfd] at hmask
    cases hmask
  · refine .init ⟨opts, hmain, rfl, fun fd => ?_⟩
    by_cases hfd : fd = lfd
    · subst hfd
      simp [LoopProcess.view, clientEvents, FileEvent.client, Ae.AeFileEvent.register,
        Ae.aeCreateEventLoop, AeMask.or, AE_NONE, AE_READABLE]
    · simp [LoopProcess.view, clientEvents, FileEvent.client, hfd, Ae.aeCreateEventLoop, AE_NONE]

end MgCommonUtils.RedisUuid
