import MgCommonUtils.Lib.Custody
import MgCommonUtils.Lib.Transition

/-!
# The pool of connections

`client.cpp` of `tcpipe` and of `sock4a`, as to what its threads do with descriptors. The thread of
`connection_factory` connects to the server ahead of need and keeps up to twenty connections in
`clientQueue`. The main thread accepts browsers and starts a thread for each (`dealWithThread`),
which takes a connection from the queue (`deQueue`), or connects by itself when there is none, looks
whether the connection is still good, relays, and closes both descriptors. The mutex `qlock` is
held over the accesses to the queue.

The threads interleave freely. A step is one access to what they share: the mutex, the queue, or the
table of descriptors of the process, from which the operating system takes a number that is not in
use. At all times every open descriptor has one owner (`Client.Inv.owners`): the queue, the factory,
the main thread or one of the threads, unless the code has lost it. The run of a thread in the relay
loop is the subject of `Tcpipe.Tunnel` and of `Sock4a.Proxy`.
-/

namespace MgCommonUtils.Tcpipe

open MgCommonUtils.Lib

/-! ## The model -/

/-- Who holds `qlock`. -/
inductive Holder where
  /-- The thread of `connection_factory`. -/
  | factory
  /-- A thread of `sock4aWorker`. -/
  | worker (i : ℕ)
  deriving DecidableEq, Repr

/-- Where the thread of `connection_factory` is. -/
inductive FactoryPc where
  /-- At the head of its loop. -/
  | starting
  /-- It holds the mutex. -/
  | sizing
  /-- It holds the mutex and has read the size of the queue. -/
  | sized (nc : ℕ)
  /-- Before `nc < 20`. -/
  | deciding (nc : ℕ)
  /-- In `connectToServer`. -/
  | connecting
  /-- With a new connection, before the mutex. -/
  | connected (fd : ℕ)
  /-- It holds the mutex, with a new connection. -/
  | pushing (fd : ℕ)
  /-- It holds the mutex and has put the connection into the queue. -/
  | pushed
  /-- In `usleep`. -/
  | sleeping
  deriving DecidableEq, Repr

/-- The connection in the hands of the factory. -/
def FactoryPc.fd : FactoryPc → Option ℕ
  | .connected fd | .pushing fd => some fd
  | _ => none

/-- The factory holds the mutex. -/
def FactoryPc.Locked : FactoryPc → Prop
  | .sizing | .sized _ | .pushing _ | .pushed => True
  | _ => False

/-- Where a thread of `sock4aWorker` is. -/
inductive ThreadPc where
  /-- In `deQueue`, before the mutex. -/
  | starting
  /-- In `deQueue`, with the mutex. -/
  | looking
  /-- With the mutex, when the queue is empty. -/
  | missing
  /-- In the `connectToServer` of `deQueue`. -/
  | connecting
  /-- With the mutex, between `clientQueue.front` and `clientQueue.pop`. -/
  | popping
  /-- With the mutex, after `clientQueue.pop`. -/
  | popped
  /-- In the `poll` of `peer_fd` alone. -/
  | polling
  /-- In the `connectToServer` after that. -/
  | reconnecting
  /-- It has no connection and closes the browser's. -/
  | refusing
  /-- In the loop that relays. -/
  | relaying
  /-- After the loop, before both `close`. -/
  | closing
  /-- Between the two. -/
  | closed
  /-- It has returned. -/
  | returned
  deriving DecidableEq, Repr

/-- The thread holds the mutex. -/
def ThreadPc.Locked : ThreadPc → Prop
  | .looking | .missing | .popping | .popped => True
  | _ => False

/-- A thread of `sock4aWorker`. The descriptor `ANET_ERR` is `none`. -/
structure Thread where
  /-- The browser's connection. -/
  cfd : ℕ
  /-- The connection to the server. -/
  peer_fd : Option ℕ := none
  /-- Where it is. -/
  pc : ThreadPc := .starting
  deriving DecidableEq, Repr

/-- The browser's connection, while it is the thread's. -/
def Thread.browser (t : Thread) : Option ℕ :=
  match t.pc with
  | .closed | .returned => none
  | _ => some t.cfd

/-- The connection to the server, while it is the thread's. One that the thread has seen at the
front of the queue is still the queue's. -/
def Thread.server (t : Thread) : Option ℕ :=
  match t.pc with
  | .popped | .polling | .reconnecting | .relaying | .closing | .closed => t.peer_fd
  | _ => none

/-- The client. -/
structure Client where
  /-- `qlock`. -/
  qlock : Option Holder := none
  /-- `clientQueue`. -/
  clientQueue : List ℕ := []
  /-- The thread of `connection_factory`. -/
  factory : FactoryPc := .starting
  /-- What the main thread has accepted and not passed on. -/
  accepted : Option ℕ := none
  /-- The threads of `sock4aWorker` that have been started. -/
  threads : List Thread := []
  /-- The descriptors of connections that are open. -/
  isOpen : ℕ → Bool := fun _ => false
  /-- The open descriptors that no variable holds. -/
  lost : List ℕ := []
  /-- What has been pushed, in this order. -/
  pushed : List ℕ := []
  /-- What has been popped, in this order. -/
  popped : List ℕ := []

/-- A connection is made, or the attempt fails. The descriptor is one that is not in use. -/
def Client.connect (s : Client) : Option ℕ → Option Client
  | none => some s
  | some fd =>
    if s.isOpen fd then none else some { s with isOpen := Function.update s.isOpen fd true }

/-- `close`, which does nothing for `ANET_ERR`. -/
def Client.close (s : Client) : Option ℕ → Client
  | none => s
  | some fd => { s with isOpen := Function.update s.isOpen fd false }

/-- A thread goes on. -/
def Client.setThread (s : Client) (i : ℕ) (t : Thread) : Client :=
  { s with threads := s.threads.set i t }

/-- The steps of the factory. -/
inductive FactoryAct where
  /-- `pthread_mutex_lock`. -/
  | lock
  /-- `clientQueue.size`. -/
  | size
  /-- `pthread_mutex_unlock`. -/
  | unlock
  /-- `nc < 20`. -/
  | decide
  /-- `connectToServer`, with what it returns. -/
  | connect (fd : Option ℕ)
  /-- `clientQueue.push`. -/
  | push
  /-- `usleep` returns. -/
  | wake
  deriving DecidableEq, Repr

/-- A step of `connection_factory`. -/
def connection_factory (s : Client) : FactoryPc → FactoryAct → Option Client
  | .starting, .lock =>
    if s.qlock = none then some { s with qlock := some .factory, factory := .sizing } else none
  | .sizing, .size => some { s with factory := .sized s.clientQueue.length }
  | .sized nc, .unlock => some { s with qlock := none, factory := .deciding nc }
  | .deciding nc, .decide => some { s with factory := if nc < 20 then .connecting else .sleeping }
  | .connecting, .connect fd =>
    (s.connect fd).map fun s => { s with factory := fd.elim .sleeping .connected }
  | .connected fd, .lock =>
    if s.qlock = none then some { s with qlock := some .factory, factory := .pushing fd } else none
  | .pushing fd, .push =>
    some { s with
      clientQueue := s.clientQueue ++ [fd], pushed := s.pushed ++ [fd], factory := .pushed }
  | .pushed, .unlock => some { s with qlock := none, factory := .starting }
  | .sleeping, .wake => some { s with factory := .starting }
  | _, _ => none

/-- The steps of a thread. -/
inductive ThreadAct where
  /-- `pthread_mutex_lock`. -/
  | lock
  /-- `clientQueue.empty`, and `clientQueue.front` if it is not. -/
  | look
  /-- `clientQueue.pop`. -/
  | pop
  /-- `pthread_mutex_unlock`. -/
  | unlock
  /-- `connectToServer`, with what it returns. -/
  | connect (fd : Option ℕ)
  /-- `poll` of `peer_fd`, and whether it returns more than 0. -/
  | poll (tr : Bool)
  /-- A read or a write fails in the loop, or a side has closed. -/
  | fail
  /-- `close`. -/
  | close
  deriving DecidableEq, Repr

/-- A step of the thread `i` of `sock4aWorker`. With `checked`, it gives up when the second attempt
to connect fails, as `tcpipe` does; `sock4a` goes on with `ANET_ERR`. -/
def sock4aWorker (checked : Bool) (s : Client) (i : ℕ) (t : Thread) :
    ThreadPc → ThreadAct → Option Client
  | .starting, .lock =>
    if s.qlock = none then
      some ({ s with qlock := some (.worker i) }.setThread i { t with pc := .looking })
    else none
  | .looking, .look =>
    match s.clientQueue with
    | [] => some (s.setThread i { t with pc := .missing })
    | fd :: _ => some (s.setThread i { t with peer_fd := some fd, pc := .popping })
  | .missing, .unlock =>
    some ({ s with qlock := none }.setThread i { t with pc := .connecting })
  | .connecting, .connect fd =>
    (s.connect fd).map fun s => s.setThread i { t with peer_fd := fd, pc := .polling }
  | .popping, .pop =>
    some ({ s with
      clientQueue := s.clientQueue.tail,
      popped := s.popped ++ s.clientQueue.head?.toList }.setThread i { t with pc := .popped })
  | .popped, .unlock => some ({ s with qlock := none }.setThread i { t with pc := .polling })
  | .polling, .poll tr =>
    -- A descriptor that is negative is ignored by `poll`.
    if tr = true ∧ t.peer_fd = none then none
    else some (s.setThread i { t with pc := if tr then .reconnecting else .relaying })
  | .reconnecting, .connect fd =>
    -- The variable is overwritten, and what it held is not closed.
    (s.connect fd).map fun s =>
      { s with lost := s.lost ++ t.peer_fd.toList }.setThread i
        { t with peer_fd := fd, pc := if fd = none ∧ checked = true then .refusing else .relaying }
  | .refusing, .close => some ((s.close (some t.cfd)).setThread i { t with pc := .returned })
  | .relaying, .fail => some (s.setThread i { t with pc := .closing })
  | .closing, .close => some ((s.close (some t.cfd)).setThread i { t with pc := .closed })
  | .closed, .close => some ((s.close t.peer_fd).setThread i { t with pc := .returned })
  | _, _ => none

/-- The steps. -/
inductive ClientLabel where
  /-- `anetTcpAccept` in `main`, with what it returns. -/
  | accept (cfd : Option ℕ)
  /-- `dealWithThread`, and whether `pthread_create` starts the thread. -/
  | spawn (ok : Bool)
  /-- A step of the factory. -/
  | factory (act : FactoryAct)
  /-- A step of a thread. -/
  | worker (i : ℕ) (act : ThreadAct)
  deriving DecidableEq, Repr

/-- A step of the client. -/
def clientStep (checked : Bool) (s : Client) : ClientLabel → Option Client
  | .accept cfd =>
    match s.accepted with
    | some _ => none
    | none => (s.connect cfd).map fun s => { s with accepted := cfd }
  | .spawn ok =>
    s.accepted.map fun cfd =>
      if ok then { s with accepted := none, threads := s.threads ++ [{ cfd := cfd }] }
      -- The result of `pthread_create` is not looked at.
      else { s with accepted := none, lost := s.lost ++ [cfd] }
  | .factory act => connection_factory s s.factory act
  | .worker i act => s.threads[i]?.bind fun t => sock4aWorker checked s i t t.pc act

/-- The client, which starts without connections. -/
def clientSystem (checked : Bool) : Lts Client ClientLabel where
  init s := s = {}
  step := clientStep checked

/-! ## The invariant -/

/-- How many owners a descriptor has. -/
def Client.owners (s : Client) (fd : ℕ) : ℕ :=
  s.clientQueue.count fd + has s.factory.fd fd + has s.accepted fd +
    held Thread.browser s.threads fd + held Thread.server s.threads fd

/-- What the factory knows of the length of the queue, to which only the factory adds. -/
def FactoryPc.Room : FactoryPc → ℕ → Prop
  | .sized nc, n | .deciding nc, n => n ≤ nc
  | .connecting, n | .connected _, n | .pushing _, n => n < 20
  | _, _ => True

/-- The invariant of the client. -/
structure Client.Inv (s : Client) : Prop where
  /-- A descriptor that is open has one owner, unless it is lost, and no other one has any. -/
  owners : ∀ fd, s.owners fd + s.lost.count fd = (s.isOpen fd).toNat
  /-- What the factory knows of the queue is true. -/
  room : s.factory.Room s.clientQueue.length
  /-- The queue is bounded. -/
  size : s.clientQueue.length ≤ 20
  /-- What is popped is what has been pushed, in the same order. -/
  order : s.pushed = s.popped ++ s.clientQueue
  /-- The factory holds the mutex where its code says so. -/
  factory : s.factory.Locked ↔ s.qlock = some .factory
  /-- A thread holds the mutex where its code says so. -/
  worker : ∀ (i : ℕ) (t : Thread), s.threads[i]? = some t →
    (t.pc.Locked ↔ s.qlock = some (.worker i))
  /-- A thread that holds the mutex has been started. -/
  started : ∀ i : ℕ, s.qlock = some (.worker i) → i < s.threads.length
  /-- What a thread has seen at the front of the queue is still there when it pops. -/
  front : ∀ (i : ℕ) (t : Thread), s.threads[i]? = some t → t.pc = .popping →
    ∃ fd, t.peer_fd = some fd ∧ s.clientQueue.head? = some fd

/-- Less in the queue is what the factory has expected. -/
theorem FactoryPc.Room.mono {pc : FactoryPc} {m n : ℕ} (h : pc.Room n) (hmn : m ≤ n) :
    pc.Room m := by
  cases pc <;> simp only [FactoryPc.Room] at h ⊢ <;> omega

/-- The client as it starts. -/
theorem Client.inv_init (checked : Bool) (s : Client) (h : (clientSystem checked).init s) :
    s.Inv := by
  obtain rfl : s = {} := h
  exact {
    owners := fun _ => rfl
    room := trivial
    size := Nat.zero_le _
    order := rfl
    factory := ⟨nofun, nofun⟩
    worker := nofun
    started := nofun
    front := nofun }

/-! ## Descriptors are opened and closed -/

/-- A connection changes the table of descriptors only, by a descriptor that was not in use. -/
theorem Client.connect_spec {s s' : Client} {fd : Option ℕ} (h : s.connect fd = some s') :
    s' = { s with isOpen := s'.isOpen } ∧
      ∀ a, (s'.isOpen a).toNat = (s.isOpen a).toNat + has fd a := by
  cases fd with
  | none =>
    obtain rfl := Option.some.inj h
    exact ⟨rfl, fun _ => rfl⟩
  | some fd =>
    simp only [Client.connect] at h
    split_ifs at h with hfree
    obtain rfl := Option.some.inj h
    refine ⟨rfl, fun a => ?_⟩
    by_cases ha : fd = a
    · subst ha
      simp [hfree]
    · rw [has_of_ne fun he => ha (Option.some.inj he)]
      simp [Ne.symm ha]

/-- Closing changes the table of descriptors only. -/
theorem Client.close_spec (s : Client) {fd : Option ℕ} (h : ∀ a ∈ fd, s.isOpen a = true) :
    s.close fd = { s with isOpen := (s.close fd).isOpen } ∧
      ∀ a, ((s.close fd).isOpen a).toNat + has fd a = (s.isOpen a).toNat := by
  cases fd with
  | none => exact ⟨rfl, fun _ => rfl⟩
  | some fd =>
    refine ⟨rfl, fun a => ?_⟩
    by_cases ha : fd = a
    · subst ha
      simp [Client.close, h fd rfl]
    · rw [has_of_ne fun he => ha (Option.some.inj he)]
      simp [Client.close, Ne.symm ha]

/-- What a thread holds is open. -/
theorem Client.Inv.isOpen {s : Client} (hs : s.Inv) {i : ℕ} {t : Thread}
    (ht : s.threads[i]? = some t) {a : ℕ} (ha : t.browser = some a ∨ t.server = some a) :
    s.isOpen a = true := by
  have howners := hs.owners a
  have hpos : 0 < s.owners a := by
    obtain ha | ha := ha
    · have := (held_pos_iff Thread.browser s.threads a).mpr ⟨i, t, ht, ha⟩
      simp only [Client.owners]
      omega
    · have := (held_pos_iff Thread.server s.threads a).mpr ⟨i, t, ht, ha⟩
      simp only [Client.owners]
      omega
  cases hopen : s.isOpen a with
  | true => rfl
  | false =>
    rw [hopen, Bool.toNat_false] at howners
    omega

/-- What a step of a thread may do. -/
structure Client.Turn (s : Client) (i : ℕ) (t : Thread) (s' : Client) (t' : Thread) : Prop where
  /-- No other thread moves. -/
  threads : s'.threads = s.threads.set i t'
  /-- The factory stays where it is. -/
  factory : s'.factory = s.factory
  /-- The main thread keeps what it holds. -/
  accepted : s'.accepted = s.accepted
  /-- Nothing is pushed. -/
  pushed : s'.pushed = s.pushed
  /-- What leaves the queue is popped, in order. -/
  order : s'.popped ++ s'.clientQueue = s.popped ++ s.clientQueue
  /-- The queue does not grow. -/
  size : s'.clientQueue.length ≤ s.clientQueue.length
  /-- The queue stays unless the thread holds the mutex. -/
  queue : s'.clientQueue = s.clientQueue ∨ s.qlock = some (.worker i)
  /-- The thread holds the mutex where its code says so. -/
  lock : t'.pc.Locked ↔ s'.qlock = some (.worker i)
  /-- The thread does not take the mutex from another, nor give it to one. -/
  others : ∀ h, h ≠ .worker i → (s'.qlock = some h ↔ s.qlock = some h)
  /-- What the thread is about to pop is at the front of the queue. -/
  front : t'.pc = .popping → ∃ fd, t'.peer_fd = some fd ∧ s'.clientQueue.head? = some fd
  /-- Descriptors go from the queue to the thread, are opened, closed or lost. -/
  owners : ∀ a, s'.clientQueue.count a + has t'.browser a + has t'.server a + s'.lost.count a +
      (s.isOpen a).toNat =
    s.clientQueue.count a + has t.browser a + has t.server a + s.lost.count a +
      (s'.isOpen a).toNat

/-- A step of a thread keeps the invariant. -/
theorem Client.Inv.turn {s s' : Client} (hs : s.Inv) {i : ℕ} {t t' : Thread}
    (ht : s.threads[i]? = some t) (h : s.Turn i t s' t') : s'.Inv := by
  have hi : i < s.threads.length := (List.getElem?_eq_some_iff.mp ht).1
  -- The thread itself, or another one as it was.
  have hget : ∀ j u, s'.threads[j]? = some u →
      j = i ∧ u = t' ∨ j ≠ i ∧ s.threads[j]? = some u := by
    intro j u hu
    rw [h.threads, List.getElem?_set] at hu
    split_ifs at hu with hji
    · exact .inl ⟨hji.symm, (Option.some.inj hu).symm⟩
    · exact .inr ⟨Ne.symm hji, hu⟩
  exact {
    owners := by
      intro a
      have hstep := h.owners a
      have hbefore := hs.owners a
      have hbrowser := held_set Thread.browser ht t' a
      have hserver := held_set Thread.server ht t' a
      simp only [Client.owners, h.threads, h.factory, h.accepted] at hbefore ⊢
      omega
    room := by
      rw [h.factory]
      exact hs.room.mono h.size
    size := h.size.trans hs.size
    order := by rw [h.pushed, hs.order, h.order]
    factory := by rw [h.factory, hs.factory, h.others .factory Holder.noConfusion]
    worker := by
      intro j u hu
      obtain ⟨rfl, rfl⟩ | ⟨hji, hu⟩ := hget j u hu
      · exact h.lock
      · rw [hs.worker j u hu, h.others _ fun he => hji (Holder.worker.inj he)]
    started := by
      intro j hj
      rw [h.threads, List.length_set]
      by_cases hji : j = i
      · rwa [hji]
      · exact hs.started j ((h.others _ fun he => hji (Holder.worker.inj he)).mp hj)
    front := by
      intro j u hu hpc
      obtain ⟨rfl, rfl⟩ | ⟨hji, hu⟩ := hget j u hu
      · exact h.front hpc
      · -- The other thread is at the queue, so it holds the mutex, and the queue stays.
        have hlocked := (hs.worker j u hu).mp (by rw [hpc]; trivial)
        have hqueue : s'.clientQueue = s.clientQueue := by
          apply h.queue.resolve_right
          intro hi
          rw [hlocked] at hi
          exact hji (Holder.worker.inj (Option.some.inj hi))
        rw [hqueue]
        exact hs.front j u hu hpc }

/-- A step of a thread that leaves the mutex and the queue alone. -/
theorem Client.Inv.move {s : Client} (hs : s.Inv) {i : ℕ} {t t' : Thread}
    (ht : s.threads[i]? = some t) {isOpen : ℕ → Bool} {lost : List ℕ}
    (hlock : t'.pc.Locked ↔ t.pc.Locked)
    (hfront : t'.pc = .popping → ∃ fd, t'.peer_fd = some fd ∧ s.clientQueue.head? = some fd)
    (howners : ∀ a, has t'.browser a + has t'.server a + lost.count a + (s.isOpen a).toNat =
      has t.browser a + has t.server a + s.lost.count a + (isOpen a).toNat) :
    s.Turn i t ({ s with isOpen := isOpen, lost := lost }.setThread i t') t' where
  threads := rfl
  factory := rfl
  accepted := rfl
  pushed := rfl
  order := rfl
  size := le_rfl
  queue := .inl rfl
  lock := hlock.trans (hs.worker i t ht)
  others _ _ := Iff.rfl
  front := hfront
  owners a := by
    have := howners a
    simp only [setThread]
    omega

/-- A step of a thread that takes the mutex, which is free, or gives it back. -/
theorem Client.Turn.relock {s : Client} {i : ℕ} {t t' : Thread} {qlock : Option Holder}
    (hbefore : s.qlock = none ∨ s.qlock = some (.worker i))
    (hafter : qlock = none ∨ qlock = some (.worker i))
    (hlock : t'.pc.Locked ↔ qlock = some (.worker i)) (hpc : t'.pc ≠ .popping)
    (hbrowser : t'.browser = t.browser) (hserver : t'.server = t.server) :
    s.Turn i t ({ s with qlock := qlock }.setThread i t') t' where
  threads := rfl
  factory := rfl
  accepted := rfl
  pushed := rfl
  order := rfl
  size := le_rfl
  queue := .inl rfl
  lock := hlock
  others h hne := by
    -- Nobody else holds the mutex before or after.
    have hno : ∀ q : Option Holder, q = none ∨ q = some (.worker i) → q ≠ some h := by
      rintro q (rfl | rfl)
      · exact nofun
      · exact fun he => hne (Option.some.inj he).symm
    exact iff_of_false (hno _ hafter) (hno _ hbefore)
  front h := absurd h hpc
  owners a := by rw [hbrowser, hserver]; rfl

/-- Every step of a thread is such a step. -/
theorem Client.Inv.sock4aWorker {checked : Bool} {s s' : Client} (hs : s.Inv) {i : ℕ} {t : Thread}
    (ht : s.threads[i]? = some t) {act : ThreadAct}
    (h : sock4aWorker checked s i t t.pc act = some s') : ∃ t', s.Turn i t s' t' := by
  have hlock := hs.worker i t ht
  have hfront := hs.front i t ht
  have hopen := fun a => hs.isOpen ht (a := a)
  unfold Tcpipe.sock4aWorker at h
  split at h
  case h_1 hpc =>
    -- It takes the mutex.
    split_ifs at h with hfree
    obtain rfl := Option.some.inj h
    refine ⟨_, .relock (.inl hfree) (.inr rfl) (iff_of_true trivial rfl) nofun ?_ ?_⟩
    · simp [Thread.browser, hpc]
    · simp [Thread.server, hpc]
  case h_2 hpc =>
    -- It looks at the queue.
    split at h
    case h_1 hempty =>
      obtain rfl := Option.some.inj h
      refine ⟨_, hs.move ht (by simp [hpc, ThreadPc.Locked]) nofun fun a => ?_⟩
      simp [Thread.browser, Thread.server, hpc]
    case h_2 fd rest hqueue =>
      obtain rfl := Option.some.inj h
      refine ⟨_, hs.move ht (by simp [hpc, ThreadPc.Locked]) (fun _ => ⟨fd, rfl, ?_⟩) fun a => ?_⟩
      · rw [hqueue, List.head?_cons]
      · simp [Thread.browser, Thread.server, hpc]
  case h_3 hpc =>
    obtain rfl := Option.some.inj h
    have hheld := hlock.mp (by rw [hpc]; trivial)
    refine ⟨_, .relock (.inr hheld) (.inl rfl) (iff_of_false id nofun) nofun ?_ ?_⟩
    · simp [Thread.browser, hpc]
    · simp [Thread.server, hpc]
  case h_4 fd hpc =>
    -- It has connected by itself.
    obtain ⟨s₁, hs₁, rfl⟩ := Option.map_eq_some_iff.mp h
    obtain ⟨heq, hcount⟩ := connect_spec hs₁
    rw [heq]
    refine ⟨_, hs.move ht (by simp [hpc, ThreadPc.Locked]) nofun fun a => ?_⟩
    have := hcount a
    simp only [Thread.browser, Thread.server, hpc, has_none]
    omega
  case h_5 hpc =>
    -- What it pops is what it has seen, since it has held the mutex all the time.
    obtain rfl := Option.some.inj h
    obtain ⟨fd, hfd, hhead⟩ := hfront hpc
    obtain ⟨rest, hqueue⟩ : ∃ rest, s.clientQueue = fd :: rest :=
      List.head?_eq_some_iff.mp hhead
    have hheld := hlock.mp (by rw [hpc]; trivial)
    exact ⟨_, {
      threads := rfl
      factory := rfl
      accepted := rfl
      pushed := rfl
      order := by simp [setThread, hqueue]
      size := by simp [setThread]
      queue := .inr hheld
      lock := iff_of_true trivial hheld
      others := fun _ _ => Iff.rfl
      front := nofun
      owners := by
        intro a
        have := count_cons_has fd rest a
        simp only [setThread, Thread.browser, Thread.server, hpc, hfd, hqueue, List.tail_cons,
          has_none]
        omega }⟩
  case h_6 hpc =>
    obtain rfl := Option.some.inj h
    have hheld := hlock.mp (by rw [hpc]; trivial)
    refine ⟨_, .relock (.inr hheld) (.inl rfl) (iff_of_false id nofun) nofun ?_ ?_⟩
    · simp [Thread.browser, hpc]
    · simp [Thread.server, hpc]
  case h_7 tr hpc =>
    split_ifs at h
    all_goals
      obtain rfl := Option.some.inj h
      refine ⟨_, hs.move ht (by simp [hpc, ThreadPc.Locked]) nofun fun a => ?_⟩
      simp [Thread.browser, Thread.server, hpc]
  case h_8 fd hpc =>
    -- The connection that it had is lost.
    obtain ⟨s₁, hs₁, rfl⟩ := Option.map_eq_some_iff.mp h
    obtain ⟨heq, hcount⟩ := connect_spec hs₁
    rw [heq]
    have hlost : ∀ a, (s.lost ++ t.peer_fd.toList).count a = s.lost.count a + has t.peer_fd a := by
      intro a
      cases t.peer_fd with
      | none => simp
      | some b => exact count_append_has s.lost b a
    split_ifs with hgive
    · refine ⟨_, hs.move ht (by simp [hpc, ThreadPc.Locked]) nofun fun a => ?_⟩
      have := hcount a
      rw [hlost a]
      simp only [Thread.browser, Thread.server, hpc, hgive.1, has_none] at this ⊢
      omega
    · refine ⟨_, hs.move ht (by simp [hpc, ThreadPc.Locked]) nofun fun a => ?_⟩
      have := hcount a
      rw [hlost a]
      simp only [Thread.browser, Thread.server, hpc]
      omega
  case h_9 hpc =>
    obtain rfl := Option.some.inj h
    have hbrowser : t.browser = some t.cfd := by simp [Thread.browser, hpc]
    have hcfd : ∀ a ∈ some t.cfd, s.isOpen a = true := fun a ha =>
      hopen a (.inl (hbrowser.trans ha))
    obtain ⟨heq, hcount⟩ := s.close_spec hcfd
    rw [heq]
    refine ⟨_, hs.move ht (by simp [hpc, ThreadPc.Locked]) nofun fun a => ?_⟩
    have := hcount a
    simp only [Thread.browser, Thread.server, hpc, has_none]
    omega
  case h_10 hpc =>
    obtain rfl := Option.some.inj h
    refine ⟨_, hs.move ht (by simp [hpc, ThreadPc.Locked]) nofun fun a => ?_⟩
    simp [Thread.browser, Thread.server, hpc]
  case h_11 hpc =>
    obtain rfl := Option.some.inj h
    have hbrowser : t.browser = some t.cfd := by simp [Thread.browser, hpc]
    have hcfd : ∀ a ∈ some t.cfd, s.isOpen a = true := fun a ha =>
      hopen a (.inl (hbrowser.trans ha))
    obtain ⟨heq, hcount⟩ := s.close_spec hcfd
    rw [heq]
    refine ⟨_, hs.move ht (by simp [hpc, ThreadPc.Locked]) nofun fun a => ?_⟩
    have := hcount a
    simp only [Thread.browser, Thread.server, hpc, has_none]
    omega
  case h_12 hpc =>
    obtain rfl := Option.some.inj h
    have hserver : t.server = t.peer_fd := by simp [Thread.server, hpc]
    have hpeer : ∀ a ∈ t.peer_fd, s.isOpen a = true := fun a ha => hopen a (.inr (hserver.trans ha))
    obtain ⟨heq, hcount⟩ := s.close_spec hpeer
    rw [heq]
    refine ⟨_, hs.move ht (by simp [hpc, ThreadPc.Locked]) nofun fun a => ?_⟩
    have := hcount a
    simp only [Thread.browser, Thread.server, hpc, has_none]
    omega
  case h_13 => cases h

/-! ## Steps of the factory and of the main thread -/

/-- A step of the factory that leaves the queue alone. -/
theorem Client.Inv.setFactory {s : Client} (hs : s.Inv) {pc : FactoryPc} {qlock : Option Holder}
    {isOpen : ℕ → Bool} (hroom : pc.Room s.clientQueue.length)
    (hlock : pc.Locked ↔ qlock = some .factory)
    (hothers : ∀ i, qlock = some (.worker i) ↔ s.qlock = some (.worker i))
    (howners : ∀ a, has pc.fd a + (s.isOpen a).toNat = has s.factory.fd a + (isOpen a).toNat) :
    { s with factory := pc, qlock := qlock, isOpen := isOpen }.Inv where
  owners a := by
    have hstep := howners a
    have hbefore := hs.owners a
    simp only [Client.owners] at hbefore ⊢
    omega
  room := hroom
  size := hs.size
  order := hs.order
  factory := hlock
  worker i t ht := (hs.worker i t ht).trans (hothers i).symm
  started i hi := hs.started i ((hothers i).mp hi)
  front := hs.front

/-- The factory pushes, with the mutex. -/
theorem Client.Inv.push {s : Client} (hs : s.Inv) {fd : ℕ} (hpc : s.factory = .pushing fd) :
    { s with
      clientQueue := s.clientQueue ++ [fd]
      pushed := s.pushed ++ [fd]
      factory := .pushed }.Inv where
  owners a := by
    have hbefore := hs.owners a
    have hpush := count_append_has s.clientQueue fd a
    simp only [Client.owners, hpc, FactoryPc.fd, has_none] at hbefore ⊢
    omega
  room := trivial
  size := by
    have hroom : s.clientQueue.length < 20 := by simpa [hpc, FactoryPc.Room] using hs.room
    rw [List.length_append, List.length_singleton]
    omega
  order := by rw [hs.order, List.append_assoc]
  factory := by
    have hlock := hs.factory
    rw [hpc] at hlock
    exact iff_of_true trivial (hlock.mp trivial)
  worker := hs.worker
  started := hs.started
  front i t ht hpop := by
    obtain ⟨b, hb, hhead⟩ := hs.front i t ht hpop
    exact ⟨b, hb, by rw [List.head?_append, hhead, Option.some_or]⟩

/-- Every step of the factory keeps the invariant. -/
theorem Client.Inv.connection_factory {s s' : Client} (hs : s.Inv) {act : FactoryAct}
    (h : connection_factory s s.factory act = some s') : s'.Inv := by
  have hlock := hs.factory
  have hroom := hs.room
  -- The factory takes the mutex, which is free, or gives its own back.
  have htake : s.qlock = none → ∀ i, some Holder.factory = some (.worker i) ↔
      s.qlock = some (.worker i) := fun hfree i => by simp [hfree]
  have hrelease : s.qlock = some .factory → ∀ i, none = some (Holder.worker i) ↔
      s.qlock = some (.worker i) := fun hheld i => by simp [hheld]
  unfold Tcpipe.connection_factory at h
  split at h
  case h_1 hpc =>
    split_ifs at h with hfree
    obtain rfl := Option.some.inj h
    exact hs.setFactory trivial (iff_of_true trivial rfl) (htake hfree) fun a => by
      simp [hpc, FactoryPc.fd]
  case h_2 hpc =>
    obtain rfl := Option.some.inj h
    rw [hpc] at hlock
    exact hs.setFactory le_rfl hlock (fun _ => Iff.rfl) fun a => by simp [hpc, FactoryPc.fd]
  case h_3 nc hpc =>
    obtain rfl := Option.some.inj h
    rw [hpc] at hlock hroom
    exact hs.setFactory hroom (iff_of_false id nofun) (hrelease (hlock.mp trivial)) fun a => by
      simp [hpc, FactoryPc.fd]
  case h_4 nc hpc =>
    obtain rfl := Option.some.inj h
    rw [hpc] at hlock hroom
    split_ifs with hnc
    · exact hs.setFactory (Nat.lt_of_le_of_lt hroom hnc) hlock (fun _ => Iff.rfl) fun a => by
        simp [hpc, FactoryPc.fd]
    · exact hs.setFactory trivial hlock (fun _ => Iff.rfl) fun a => by simp [hpc, FactoryPc.fd]
  case h_5 fd hpc =>
    obtain ⟨s₁, hs₁, rfl⟩ := Option.map_eq_some_iff.mp h
    obtain ⟨heq, hcount⟩ := connect_spec hs₁
    rw [heq]
    rw [hpc] at hlock hroom
    have hhand : (fd.elim FactoryPc.sleeping FactoryPc.connected).fd = fd := by cases fd <;> rfl
    apply hs.setFactory
    · cases fd with
      | none => trivial
      | some fd => exact hroom
    · cases fd <;> exact hlock
    · exact fun _ => Iff.rfl
    · intro a
      have hnone : FactoryPc.connecting.fd = none := rfl
      rw [hhand, hcount a, hpc, hnone, has_none]
      omega
  case h_6 fd hpc =>
    split_ifs at h with hfree
    obtain rfl := Option.some.inj h
    rw [hpc] at hroom
    exact hs.setFactory hroom (iff_of_true trivial rfl) (htake hfree) fun a => by
      simp [hpc, FactoryPc.fd]
  case h_7 fd hpc =>
    obtain rfl := Option.some.inj h
    exact hs.push hpc
  case h_8 hpc =>
    obtain rfl := Option.some.inj h
    rw [hpc] at hlock
    exact hs.setFactory trivial (iff_of_false id nofun) (hrelease (hlock.mp trivial)) fun a => by
      simp [hpc, FactoryPc.fd]
  case h_9 hpc =>
    obtain rfl := Option.some.inj h
    rw [hpc] at hlock
    exact hs.setFactory trivial hlock (fun _ => Iff.rfl) fun a => by simp [hpc, FactoryPc.fd]
  case h_10 => cases h

/-- A thread is started for what has been accepted. -/
theorem Client.Inv.spawn {s : Client} (hs : s.Inv) {cfd : ℕ} (hcfd : s.accepted = some cfd) :
    { s with accepted := none, threads := s.threads ++ [({ cfd := cfd } : Thread)] }.Inv := by
  -- A thread that was there before, or the new one.
  have hget : ∀ (j : ℕ) (u : Thread), (s.threads ++ [({ cfd := cfd } : Thread)])[j]? = some u →
      s.threads[j]? = some u ∨ j = s.threads.length ∧ u = { cfd := cfd } := by
    intro j u hu
    by_cases hj : j < s.threads.length
    · rw [List.getElem?_append_left hj] at hu
      exact .inl hu
    · rw [List.getElem?_append_right (by omega), List.getElem?_singleton] at hu
      split_ifs at hu
      exact .inr ⟨by omega, (Option.some.inj hu).symm⟩
  exact {
    owners := by
      intro a
      have hbefore := hs.owners a
      simp only [Client.owners, hcfd, held_append, Thread.browser, Thread.server,
        has_none] at hbefore ⊢
      omega
    room := hs.room
    size := hs.size
    order := hs.order
    factory := hs.factory
    worker := by
      intro j u hu
      obtain hu | ⟨rfl, rfl⟩ := hget j u hu
      · exact hs.worker j u hu
      · exact iff_of_false id fun he => absurd (hs.started _ he) (lt_irrefl _)
    started := by
      intro j hj
      rw [List.length_append]
      exact Nat.lt_add_right _ (hs.started j hj)
    front := by
      intro j u hu hpc
      obtain hu | ⟨rfl, rfl⟩ := hget j u hu
      · exact hs.front j u hu hpc
      · cases hpc }

/-- Every step keeps the invariant. -/
theorem Client.Inv.step {checked : Bool} {s s' : Client} (hs : s.Inv) {l : ClientLabel}
    (h : clientStep checked s l = some s') : s'.Inv := by
  cases l with
  | accept cfd =>
    cases hacc : s.accepted with
    | some _ => simp [clientStep, hacc] at h
    | none =>
      simp only [clientStep, hacc] at h
      obtain ⟨s₁, hs₁, rfl⟩ := Option.map_eq_some_iff.mp h
      obtain ⟨heq, hcount⟩ := connect_spec hs₁
      rw [heq]
      refine { hs with owners := fun a => ?_ }
      have hbefore := hs.owners a
      have hstep := hcount a
      simp only [Client.owners, hacc, has_none] at hbefore ⊢
      omega
  | spawn ok =>
    obtain ⟨cfd, hcfd, rfl⟩ := Option.map_eq_some_iff.mp h
    split_ifs
    · exact hs.spawn hcfd
    · refine { hs with owners := fun a => ?_ }
      have hbefore := hs.owners a
      have hlost := count_append_has s.lost cfd a
      simp only [Client.owners, hcfd, has_none] at hbefore ⊢
      omega
  | factory act => exact hs.connection_factory h
  | worker i act =>
    obtain ⟨t, ht, h⟩ := Option.bind_eq_some_iff.mp h
    obtain ⟨t', hturn⟩ := hs.sock4aWorker ht h
    exact hs.turn ht hturn

/-- The invariant holds in every state reached. -/
theorem Client.inv_of_reachable {checked : Bool} {s : Client}
    (h : (clientSystem checked).Reachable s) : s.Inv :=
  h.invariant (Client.inv_init checked) fun _ _ _ hs _ hstep => hs.step hstep

/-! ## A run -/

/-- The factory makes one connection. Two threads are started, and one of them takes it, finds it
readable and connects again. The other has looked at the queue. -/
def twoThreads : List ClientLabel :=
  [.factory .lock, .factory .size, .factory .unlock, .factory .decide, .factory (.connect (some 5)),
    .factory .lock, .factory .push, .factory .unlock, .accept (some 6), .spawn true,
    .worker 0 .lock, .worker 0 .look, .accept (some 7), .worker 0 .pop, .spawn true,
    .worker 0 .unlock, .worker 0 (.poll true), .worker 1 .lock, .worker 0 (.connect (some 8)),
    .worker 1 .look]

/-- The state after it. -/
def afterTwoThreads : Client := ((clientSystem true).run {} twoThreads).getD {}

/-- The run is possible. -/
theorem run_twoThreads : (clientSystem true).run {} twoThreads = some afterTwoThreads := rfl

/-- The state is reached. -/
theorem reach_twoThreads : (clientSystem true).Reachable afterTwoThreads :=
  Lts.Reach.run (.init rfl) (Lts.runOk_of_forall (fun _ _ _ => trivial) _) run_twoThreads

/-! ## What holds over all runs -/

/-- In every state that the threads of the client reach, under any interleaving, a descriptor that
is open has exactly one owner or is lost; at most one thread is between taking the mutex and giving
it back; the queue holds at most twenty connections, and they are handed out once each in the order
they were made in. -/
theorem pool_safe (checked : Bool) {s : Client} (h : (clientSystem checked).Reachable s) :
    (∀ fd, s.owners fd + s.lost.count fd = if s.isOpen fd then 1 else 0) ∧
      (∀ (i j : ℕ) (t u : Thread), s.threads[i]? = some t → s.threads[j]? = some u →
        t.pc.Locked → ¬ s.factory.Locked ∧ (u.pc.Locked → i = j)) ∧
      s.clientQueue.length ≤ 20 ∧ s.pushed = s.popped ++ s.clientQueue := by
  have hs := Client.inv_of_reachable h
  refine ⟨fun fd => ?_, fun i j t u ht hu hlocked => ?_, hs.size, hs.order⟩
  · rw [hs.owners fd]
    cases s.isOpen fd <;> rfl
  · have hi := (hs.worker i t ht).mp hlocked
    refine ⟨fun hfactory => ?_, fun hj => ?_⟩
    · rw [hs.factory.mp hfactory] at hi
      cases hi
    · rw [(hs.worker j u hu).mp hj] at hi
      exact (Holder.worker.inj (Option.some.inj hi)).symm

/-- The connection that was readable is lost, and the queue is empty again. -/
theorem pool_safe_two :
    afterTwoThreads.lost = [5] ∧ afterTwoThreads.isOpen 5 = true ∧
      (∀ fd, afterTwoThreads.owners fd + afterTwoThreads.lost.count fd =
        if afterTwoThreads.isOpen fd then 1 else 0) ∧
      afterTwoThreads.pushed = afterTwoThreads.popped ++ afterTwoThreads.clientQueue := by
  obtain ⟨howners, -, -, horder⟩ := pool_safe true reach_twoThreads
  exact ⟨rfl, rfl, howners, horder⟩

/-! ## The mutex is given back -/

/-- Whose step it is, unless it is the main thread's. -/
def ClientLabel.holder : ClientLabel → Option Holder
  | .factory _ => some .factory
  | .worker i _ => some (.worker i)
  | _ => none

/-- The steps that take as long as the network, the server or the clock does: connecting, `poll`,
`usleep` and relaying. -/
def ClientLabel.blocks : ClientLabel → Bool
  | .factory (.connect _) | .factory .wake => true
  | .worker _ (.connect _) | .worker _ (.poll _) | .worker _ .fail => true
  | _ => false

/-- Somebody is where the code holds the mutex. -/
def Client.LockedAt (s : Client) : Holder → Prop
  | .factory => s.factory.Locked
  | .worker i => ∃ t, s.threads[i]? = some t ∧ t.pc.Locked

/-- How many steps the factory takes until it gives the mutex back. -/
def FactoryPc.toRelease : FactoryPc → ℕ
  | .sizing | .pushing _ => 2
  | .sized _ | .pushed => 1
  | _ => 0

/-- How many steps a thread takes at most until it gives the mutex back. -/
def ThreadPc.toRelease : ThreadPc → ℕ
  | .looking => 3
  | .popping => 2
  | .missing | .popped => 1
  | _ => 0

/-- How many steps somebody takes at most until they give the mutex back. -/
def Client.toRelease (s : Client) : Holder → ℕ
  | .factory => s.factory.toRelease
  | .worker i => (s.threads[i]?.map fun t => t.pc.toRelease).getD 0

/-- The steps of a thread that has been started. -/
theorem Client.toRelease_worker {s : Client} {i : ℕ} {t : Thread} (ht : s.threads[i]? = some t) :
    s.toRelease (.worker i) = t.pc.toRelease := by
  rw [toRelease, ht, Option.map_some, Option.getD_some]

/-- No more than three steps. -/
theorem Client.toRelease_le (s : Client) (holder : Holder) : s.toRelease holder ≤ 3 := by
  cases holder with
  | factory =>
    rw [toRelease]
    cases s.factory <;> simp [FactoryPc.toRelease]
  | worker i =>
    cases ht : s.threads[i]? with
    | none => simp [toRelease, ht]
    | some t =>
      rw [toRelease_worker ht]
      cases t.pc <;> decide

/-- The factory goes on with the mutex, or gives it back. -/
theorem Client.Inv.factory_holds {s s' : Client} (hs : s.Inv) (hheld : s.qlock = some .factory)
    {act : FactoryAct} (h : Tcpipe.connection_factory s s.factory act = some s') :
    s'.qlock = none ∨ s'.qlock = s.qlock ∧ s'.toRelease .factory + 1 ≤ s.toRelease .factory := by
  have hlocked := hs.factory.mpr hheld
  simp only [toRelease]
  unfold Tcpipe.connection_factory at h
  split at h
  case h_2 hpc | h_7 hpc =>
    obtain rfl := Option.some.inj h
    refine .inr ⟨rfl, ?_⟩
    rw [hpc]
    exact le_rfl
  case h_3 hpc | h_8 hpc =>
    obtain rfl := Option.some.inj h
    exact .inl rfl
  case h_10 => cases h
  all_goals
    rename_i hpc
    rw [hpc] at hlocked
    exact hlocked.elim

/-- A thread goes on with the mutex, or gives it back. -/
theorem Client.Inv.worker_holds {checked : Bool} {s s' : Client} (hs : s.Inv) {i : ℕ} {t : Thread}
    (ht : s.threads[i]? = some t) (hheld : s.qlock = some (.worker i)) {act : ThreadAct}
    (h : Tcpipe.sock4aWorker checked s i t t.pc act = some s') :
    s'.qlock = none ∨
      s'.qlock = s.qlock ∧ s'.toRelease (.worker i) + 1 ≤ s.toRelease (.worker i) := by
  have hlocked := (hs.worker i t ht).mpr hheld
  have hi : i < s.threads.length := (List.getElem?_eq_some_iff.mp ht).1
  -- The thread as it goes on.
  have hset : ∀ t' : Thread, (s.threads.set i t')[i]? = some t' := fun t' =>
    List.getElem?_set_self hi
  rw [toRelease_worker ht]
  unfold Tcpipe.sock4aWorker at h
  split at h
  case h_2 hpc =>
    rw [hpc]
    split at h
    all_goals
      obtain rfl := Option.some.inj h
      refine .inr ⟨rfl, ?_⟩
      rw [toRelease_worker (hset _)]
      simp [ThreadPc.toRelease]
  case h_5 hpc =>
    obtain rfl := Option.some.inj h
    refine .inr ⟨rfl, ?_⟩
    rw [toRelease_worker (hset _), hpc]
    exact le_rfl
  case h_3 hpc | h_6 hpc =>
    obtain rfl := Option.some.inj h
    exact .inl rfl
  case h_13 => cases h
  all_goals
    rename_i hpc
    rw [hpc] at hlocked
    exact hlocked.elim

/-- While one holds the mutex, the steps of the factory do not change it unless they are its own. -/
theorem Client.Inv.factory_waits {s s' : Client} (hs : s.Inv) {i : ℕ}
    (hheld : s.qlock = some (.worker i)) {act : FactoryAct}
    (h : Tcpipe.connection_factory s s.factory act = some s') :
    s'.qlock = s.qlock ∧ s'.threads = s.threads := by
  have hlock := hs.factory
  rw [hheld] at hlock
  unfold Tcpipe.connection_factory at h
  split at h
  case h_1 | h_6 =>
    split_ifs at h with hfree
    rw [hheld] at hfree
    cases hfree
  case h_3 hpc | h_8 hpc =>
    -- It would have to hold the mutex itself.
    rw [hpc] at hlock
    cases hlock.mp trivial
  case h_5 hpc =>
    obtain ⟨s₁, hs₁, rfl⟩ := Option.map_eq_some_iff.mp h
    rw [(connect_spec hs₁).1]
    exact ⟨rfl, rfl⟩
  case h_10 => cases h
  all_goals
    obtain rfl := Option.some.inj h
    exact ⟨rfl, rfl⟩

/-- While somebody holds the mutex, a step gives it back or brings them closer to that, if it is
theirs, and takes them no further from that otherwise. -/
theorem Client.Inv.holds {checked : Bool} {s s' : Client} (hs : s.Inv) {holder : Holder}
    (hheld : s.qlock = some holder) {l : ClientLabel} (h : clientStep checked s l = some s') :
    s'.qlock = none ∨ s'.qlock = some holder ∧
      s'.toRelease holder + (decide (l.holder = some holder)).toNat ≤ s.toRelease holder := by
  -- A step that is not theirs.
  have hother : l.holder ≠ some holder → s'.qlock = s.qlock →
      s'.toRelease holder = s.toRelease holder →
      s'.qlock = none ∨ s'.qlock = some holder ∧
        s'.toRelease holder + (decide (l.holder = some holder)).toNat ≤ s.toRelease holder := by
    intro hne hq hto
    refine .inr ⟨hq.trans hheld, ?_⟩
    rw [hto, decide_eq_false hne]
    exact le_rfl
  -- A step that is theirs.
  have hown : l.holder = some holder → (s'.qlock = none ∨
      s'.qlock = s.qlock ∧ s'.toRelease holder + 1 ≤ s.toRelease holder) →
      s'.qlock = none ∨ s'.qlock = some holder ∧
        s'.toRelease holder + (decide (l.holder = some holder)).toNat ≤ s.toRelease holder := by
    rintro heq (hfree | ⟨hq, hto⟩)
    · exact .inl hfree
    · rw [decide_eq_true heq]
      exact .inr ⟨hq.trans hheld, hto⟩
  cases l with
  | accept cfd =>
    cases hacc : s.accepted with
    | some _ => simp [clientStep, hacc] at h
    | none =>
      simp only [clientStep, hacc] at h
      obtain ⟨s₁, hs₁, rfl⟩ := Option.map_eq_some_iff.mp h
      rw [(connect_spec hs₁).1] at hother ⊢
      exact hother nofun rfl (by cases holder <;> rfl)
  | spawn ok =>
    obtain ⟨cfd, hcfd, rfl⟩ := Option.map_eq_some_iff.mp h
    cases ok with
    | false => exact hother nofun rfl (by cases holder <;> rfl)
    | true =>
      apply hother nofun rfl
      cases holder with
      | factory => rfl
      | worker i =>
        -- The new thread is not the one that holds the mutex.
        have hi : i < s.threads.length := hs.started i hheld
        simp only [toRelease, if_true, List.getElem?_append_left hi]
  | factory act =>
    cases holder with
    | factory => exact hown rfl (hs.factory_holds hheld h)
    | worker i =>
      obtain ⟨hq, hthreads⟩ := hs.factory_waits hheld h
      exact hother nofun hq (by rw [toRelease, toRelease, hthreads])
  | worker j act =>
    obtain ⟨t, ht, hstep⟩ := Option.bind_eq_some_iff.mp h
    obtain ⟨t', hturn⟩ := hs.sock4aWorker ht hstep
    by_cases hj : holder = .worker j
    · subst hj
      exact hown rfl (hs.worker_holds ht hheld hstep)
    · refine hother (fun he => hj (Option.some.inj he).symm) ?_ ?_
      · rw [hheld, (hturn.others holder hj).mpr hheld]
      · cases holder with
        | factory => rw [toRelease, toRelease, hturn.factory]
        | worker i =>
          have hij : j ≠ i := fun he => hj (by rw [he])
          rw [toRelease, toRelease, hturn.threads, List.getElem?_set_ne hij]

/-- A thread that holds the mutex is where its code says so. -/
theorem Client.Inv.exists_thread {s : Client} (hs : s.Inv) {i : ℕ}
    (hheld : s.qlock = some (.worker i)) :
    ∃ t, s.threads[i]? = some t ∧ t.pc.Locked := by
  obtain ⟨t, ht⟩ : ∃ t, s.threads[i]? = some t :=
    ⟨_, List.getElem?_eq_getElem (hs.started i hheld)⟩
  exact ⟨t, ht, (hs.worker i t ht).mpr hheld⟩

/-- Who holds the mutex is where the code says so. -/
theorem Client.Inv.lockedAt {s : Client} (hs : s.Inv) {holder : Holder}
    (hheld : s.qlock = some holder) : s.LockedAt holder := by
  cases holder with
  | factory => exact hs.factory.mpr hheld
  | worker i => exact hs.exists_thread hheld

/-- Where the code holds the mutex, it does not connect, poll, sleep or relay. -/
theorem Client.LockedAt.not_blocks {checked : Bool} {s s' : Client} {holder : Holder}
    (hlocked : s.LockedAt holder) {l : ClientLabel} (hl : l.holder = some holder)
    (h : clientStep checked s l = some s') : l.blocks = false := by
  rw [← Bool.not_eq_true]
  intro hblocks
  -- Such a step is taken where the mutex is not held.
  cases l with
  | accept cfd | spawn ok => cases hl
  | factory act =>
    obtain rfl := Option.some.inj hl
    change s.factory.Locked at hlocked
    change Tcpipe.connection_factory s s.factory act = some s' at h
    cases act
    case connect | wake =>
      cases hpc : s.factory <;> rw [hpc] at hlocked h <;> first
        | exact hlocked.elim
        | cases h
    all_goals cases hblocks
  | worker i act =>
    obtain rfl := Option.some.inj hl
    obtain ⟨t, ht, hpcLocked⟩ := hlocked
    rw [clientStep, ht, Option.bind_some] at h
    cases act
    case connect | poll | fail =>
      cases hpc : t.pc <;> rw [hpc] at hpcLocked h <;> first
        | exact hpcLocked.elim
        | cases h
    all_goals cases hblocks

/-- Who holds the mutex has steps to take. -/
theorem Client.Inv.toRelease_pos {s : Client} (hs : s.Inv) {holder : Holder}
    (hheld : s.qlock = some holder) : 0 < s.toRelease holder := by
  cases holder with
  | factory =>
    have hlocked := hs.factory.mpr hheld
    rw [toRelease]
    cases hpc : s.factory <;> rw [hpc] at hlocked <;> first
      | exact hlocked.elim
      | simp [FactoryPc.toRelease]
  | worker i =>
    obtain ⟨t, ht, hlocked⟩ := hs.exists_thread hheld
    rw [toRelease_worker ht]
    cases hpc : t.pc <;> rw [hpc] at hlocked <;> first
      | exact hlocked.elim
      | simp [ThreadPc.toRelease]

/-- Who holds the mutex can take a step. -/
theorem Client.Inv.exists_step (checked : Bool) {s : Client} (hs : s.Inv) {holder : Holder}
    (hheld : s.qlock = some holder) :
    ∃ l : ClientLabel, l.holder = some holder ∧ (clientStep checked s l).isSome := by
  cases holder with
  | factory =>
    have hlocked := hs.factory.mpr hheld
    cases hpc : s.factory <;> rw [hpc] at hlocked
    case sizing => exact ⟨.factory .size, rfl, by rw [clientStep, hpc]; rfl⟩
    case pushing => exact ⟨.factory .push, rfl, by rw [clientStep, hpc]; rfl⟩
    case sized | pushed => exact ⟨.factory .unlock, rfl, by rw [clientStep, hpc]; rfl⟩
    all_goals exact hlocked.elim
  | worker i =>
    obtain ⟨t, ht, hlocked⟩ := hs.exists_thread hheld
    cases hpc : t.pc <;> rw [hpc] at hlocked
    case looking =>
      refine ⟨.worker i .look, rfl, ?_⟩
      rw [clientStep, ht, Option.bind_some, hpc, Tcpipe.sock4aWorker]
      cases s.clientQueue <;> rfl
    case popping =>
      exact ⟨.worker i .pop, rfl, by rw [clientStep, ht, Option.bind_some, hpc]; rfl⟩
    case missing | popped =>
      exact ⟨.worker i .unlock, rfl, by rw [clientStep, ht, Option.bind_some, hpc]; rfl⟩
    all_goals exact hlocked.elim

/-- Whoever holds `qlock` in a state that is reached is where the code holds it, and does not
connect, poll, sleep or relay there. They can take a step, and under any interleaving have given the
mutex back before three steps of their own are over. -/
theorem qlock_released (checked : Bool) {s : Client} (h : (clientSystem checked).Reachable s)
    {holder : Holder} (hheld : s.qlock = some holder) :
    s.LockedAt holder ∧
    (∀ (l : ClientLabel) (s' : Client), l.holder = some holder →
      clientStep checked s l = some s' → l.blocks = false) ∧
    (∃ l : ClientLabel, l.holder = some holder ∧ (clientStep checked s l).isSome) ∧
    ∀ (ls : List ClientLabel) (s' : Client), (clientSystem checked).run s ls = some s' →
      3 ≤ ls.countP (fun l => l.holder = some holder) →
      ∃ (ls₁ : List ClientLabel) (s₁ : Client), ls₁ <+: ls ∧
        (clientSystem checked).run s ls₁ = some s₁ ∧ s₁.qlock = none := by
  have hs := Client.inv_of_reachable h
  have hlocked := hs.lockedAt hheld
  refine ⟨hlocked, fun l s' hl hstep => hlocked.not_blocks hl hstep, hs.exists_step checked hheld,
    fun ls s' hrun hcount => ?_⟩
  refine Lts.exists_prefix_of_rank (I := fun s => s.Inv ∧ s.qlock = some holder)
    (r := fun s => s.toRelease holder) (fun s hs => hs.1.toRelease_pos hs.2) ?_ ⟨hs, hheld⟩ hrun
    ((s.toRelease_le holder).trans hcount)
  rintro s l s' ⟨hs, hheld⟩ hstep
  obtain hfree | ⟨hq, hrank⟩ := hs.holds hheld hstep
  · exact .inl hfree
  · exact .inr ⟨⟨hs.step hstep, hq⟩, hrank⟩

/-- The second thread is between `clientQueue.empty` and `pthread_mutex_unlock`. It goes on to
connect, and the mutex has been free in between. -/
theorem qlock_released_two :
    afterTwoThreads.LockedAt (.worker 1) ∧
    ∃ (ls₁ : List ClientLabel) (s₁ : Client),
      ls₁ <+: [.worker 1 .unlock, .worker 1 (.connect none), .worker 1 (.poll false)] ∧
        (clientSystem true).run afterTwoThreads ls₁ = some s₁ ∧ s₁.qlock = none :=
  have hheld : afterTwoThreads.qlock = some (.worker 1) := rfl
  have hreleased := qlock_released true reach_twoThreads hheld
  ⟨hreleased.1, hreleased.2.2.2 _ _ rfl (by decide)⟩

/-! ## What is lost -/

end MgCommonUtils.Tcpipe
