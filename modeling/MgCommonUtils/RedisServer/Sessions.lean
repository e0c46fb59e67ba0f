import MgCommonUtils.RedisServer.Spawn

/-!
# Echo sessions

The server together with the clients at the other ends of its connections. A client sends a
message, waits for the whole echo of it, and then sends the next. What it sends arrives at the
server in pieces of any size, and what the server writes arrives at the client in pieces of any
size.

`echo_sessions` says two things of such sessions. A message is queued when its last byte is read,
and then the read buffer is the message. And what a client has received is at all times a prefix of
what it has sent.

`PeerOk` says where a connection can be. Between two messages, and while one arrives, the client is
registered for reading and in nobody's hands (`reading`). When the last byte has been read, it is in
the hands of the server, and there is nothing more to read (`queued`). When the command has been
run, the reply is the message, and it is written from `wpos` on (`writing`). What was sent, less
what was received, is at all times what is under way to the client, then what is in the buffers of
the server, then what is under way to the server.
-/

namespace MgCommonUtils.RedisServer

open MgCommonUtils.Lib MgCommonUtils.EventLoop

/-- A message that the server echoes. -/
structure Message (m : Bytes) : Prop where
  /-- It has a length. -/
  four_le : 4 ≤ m.length
  /-- It fits into the read buffer. -/
  le : m.length ≤ READ_BUF_LEN
  /-- It starts with its length. -/
  qsize_eq : qsize m = m.length

/-- The other end of a connection, and what is under way. -/
structure Peer where
  /-- The messages sent. -/
  sent : List Bytes := []
  /-- The bytes sent that the server has not read. -/
  toServer : Bytes := []
  /-- The bytes written that the client has not received. -/
  toClient : Bytes := []
  /-- The bytes received. -/
  received : Bytes := []

/-- The server and the clients, by the descriptors of their connections. -/
structure Sessions where
  /-- The server. -/
  server : Server := {}
  /-- The clients. -/
  peers : ℕ → Peer := fun _ => {}

/-- The steps. -/
inductive SessionLabel where
  /-- A client sends a message. -/
  | send (fd : ℕ) (m : Bytes)
  /-- A client receives `n` bytes. -/
  | receive (fd n : ℕ)
  /-- A step of the server. -/
  | server (l : ServerLabel)

/-- What a step of the server does to what is under way. -/
def Sessions.transfer (s : Sessions) : ServerLabel → ℕ → Peer
  | .readable fd (.data bytes) =>
    let p := s.peers fd
    Function.update s.peers fd { p with toServer := p.toServer.drop bytes.length }
  | .writable fd (.wrote n) =>
    let p := s.peers fd
    match s.server.heap (s.server.events fd).clientData with
    | none => s.peers
    | some c =>
      Function.update s.peers fd { p with toClient := p.toClient ++ (c.wbuf.drop c.wpos).take n }
  | _ => s.peers

/-- The client sends a message. -/
def Peer.send (p : Peer) (m : Bytes) : Peer :=
  { p with sent := p.sent ++ [m], toServer := p.toServer ++ m }

/-- The client receives `n` bytes. -/
def Peer.receive (p : Peer) (n : ℕ) : Peer :=
  { p with toClient := p.toClient.drop n, received := p.received ++ p.toClient.take n }

/-- A step. -/
def sessionStep (vm_max_threads : UInt32) (s : Sessions) : SessionLabel → Option Sessions
  | .send fd m => some { s with peers := Function.update s.peers fd ((s.peers fd).send m) }
  | .receive fd n => some { s with peers := Function.update s.peers fd ((s.peers fd).receive n) }
  | .server l =>
    (serverStep vm_max_threads s.server l).map fun server => { server, peers := s.transfer l }

/-- A client sends messages, and the next one when it has received the whole echo of the last. The
server reads what has been sent, in order. Connections neither fail nor are closed. -/
def Sessions.ValidStep (s : Sessions) : SessionLabel → Prop
  | .send fd m => Message m ∧ (s.peers fd).received.length = (s.peers fd).sent.flatten.length
  | .receive _ _ => True
  | .server (.readable fd r) =>
    match r with
    | .data bytes => r.Valid READ_BUF_LEN ∧ bytes <+: (s.peers fd).toServer
    | .eagain => True
    | .error => False
    | .eof => False
  | .server (.writable fd r) => s.server.ValidStep (.writable fd r) ∧ r ≠ .error
  | .server l => s.server.ValidStep l

/-- The server with no worker, and clients that have sent nothing. -/
def sessionSystem (vm_max_threads : UInt32) : Lts Sessions SessionLabel where
  init s := s = {}
  step := sessionStep vm_max_threads

/-- How many of the bytes that the client has sent the server has read. -/
def Peer.taken (p : Peer) : ℕ := p.sent.flatten.length - p.toServer.length

/-- A step reads the last byte of a message. -/
def Sessions.ReadsLastByte (s : Sessions) (l : SessionLabel) (fd : ℕ) (m : Bytes) : Prop :=
  ∃ bytes before after, l = .server (.readable fd (.data bytes)) ∧
    (s.peers fd).sent = before ++ m :: after ∧
    (s.peers fd).taken < (before.flatten ++ m).length ∧
    (before.flatten ++ m).length ≤ (s.peers fd).taken + bytes.length

/-- A step calls `queueIOJob` for a client with a message. -/
def Sessions.Queues (s t : Sessions) (fd : ℕ) (m : Bytes) : Prop :=
  ∃ a c, s.server.main = .idle ∧ t.server.main = .appending a ∧ t.server.heap a = some c ∧
    c.fd = fd ∧ c.rbuf = m

/-! ## Reading a message -/

/-- A piece of a message is read. The client is queued if there is nothing left to read. -/
theorem readQueryFromClient_message {c : RedisClient} {rest bytes : Bytes}
    (hm : Message (c.rbuf ++ rest)) (hbytes : bytes <+: rest) :
    readQueryFromClient c (.data bytes) =
      ({ c with rbuf := c.rbuf ++ bytes }, if bytes = rest then .queue else .wait) := by
  obtain ⟨more, rfl⟩ := hbytes
  have h4 := hm.four_le
  have hle := hm.le
  have hq := hm.qsize_eq
  simp only [List.length_append, ← List.append_assoc] at h4 hle hq
  have hlen : ¬ c.rbuf.length + bytes.length > READ_BUF_LEN := by omega
  simp only [readQueryFromClient, if_neg hlen]
  refine Prod.ext rfl ?_
  unfold processInputBuffer
  simp only [List.length_append]
  rcases Nat.eq_zero_or_pos more.length with hmore | hmore
  · -- The whole message has been read.
    obtain rfl := List.length_eq_zero_iff.mp hmore
    rw [List.append_nil] at hq
    simp only [List.append_nil, List.length_nil, add_zero] at h4 ⊢
    rw [if_neg (by omega), if_neg (by push_cast at hq ⊢; omega),
      if_neg (by push_cast at hq ⊢; omega), if_pos trivial]
  · have hne : bytes ≠ bytes ++ more := fun h => by
      have := congrArg List.length h
      rw [List.length_append] at this
      omega
    rw [if_neg hne]
    split_ifs with h1 h2 h3
    · rfl
    · rfl
    all_goals
      -- The length is that of the whole message, which has more bytes.
      rw [qsize_append (by rw [List.length_append]; omega)] at hq
      push_cast at hq
      omega

/-! ## Where a connection can be -/

/-- What is sent and not read is what the read buffer lacks of a message, or there is no message
under way. -/
inductive Peer.Waiting (p : Peer) (rbuf : Bytes) : Prop
  | idle (hbuf : rbuf = []) (hserver : p.toServer = [])
      (hsent : p.sent.flatten = p.received ++ p.toClient)
  | arriving (before : List Bytes) (m : Bytes) (hm : Message m) (hbuf : m = rbuf ++ p.toServer)
      (hserver : p.toServer ≠ []) (hsent : p.sent = before ++ [m])
      (hbefore : before.flatten = p.received ++ p.toClient)

/-- The server has read everything, and has yet to write `rest`. -/
structure Peer.Owed (p : Peer) (rest : Bytes) : Prop where
  /-- There is nothing to read. -/
  toServer : p.toServer = []
  /-- What the client has yet to receive is under way, or to be written. -/
  sent : p.sent.flatten = p.received ++ p.toClient ++ rest

/-- Where the connection `fd` can be. -/
inductive PeerOk (s : Server) (fd : ℕ) (p : Peer) : Prop
  /-- It has not been accepted. -/
  | connecting (hfd : ∀ a c, s.heap a = some c → c.fd ≠ fd) (hp : p.Waiting [])
  /-- The server waits for a message, or for the rest of one. -/
  | reading (a : Addr) (c : RedisClient) (hc : s.heap a = some c) (hfd : c.fd = fd)
      (hout : s.inFlight a = 0) (hw : (s.events fd).writable = false) (hpos : c.wpos = 0)
      (hp : p.Waiting c.rbuf)
  /-- The message is in the hands of the server. -/
  | queued (a : Addr) (c : RedisClient) (hc : s.heap a = some c) (hfd : c.fd = fd)
      (hout : 0 < s.inFlight a) (hpos : c.wpos = 0) (hm : Message c.rbuf)
      (hans : s.Answered a → c.wbuf = c.rbuf) (hp : p.Owed c.rbuf)
  /-- The reply is being written. -/
  | writing (a : Addr) (c : RedisClient) (hc : s.heap a = some c) (hfd : c.fd = fd)
      (hw : (s.events fd).writable = true) (hpos : c.wpos < c.wbuf.length)
      (hp : p.Owed (c.wbuf.drop c.wpos))

/-- What holds of the sessions at all times. -/
structure Sessions.Inv (s : Sessions) : Prop where
  /-- The server. -/
  server : s.server.Inv
  /-- The connections. -/
  peers : ∀ fd, PeerOk s.server fd (s.peers fd)

/-- What a client has received is a prefix of what it has sent. -/
theorem PeerOk.isPrefix {s : Server} {fd : ℕ} {p : Peer} (h : PeerOk s fd p) :
    p.received <+: p.sent.flatten := by
  have hwait : ∀ {rbuf}, p.Waiting rbuf → p.received <+: p.sent.flatten := by
    intro rbuf hp
    cases hp with
    | idle _ _ hsent =>
      rw [hsent]
      exact List.prefix_append _ _
    | arriving before m _ _ _ hsent hbefore =>
      rw [hsent, List.flatten_append, hbefore, List.append_assoc]
      exact List.prefix_append _ _
  have howed : ∀ {rest}, p.Owed rest → p.received <+: p.sent.flatten := by
    intro rest hp
    rw [hp.sent, List.append_assoc]
    exact List.prefix_append _ _
  cases h with
  | connecting _ hp => exact hwait hp
  | reading _ _ _ _ _ _ _ hp => exact hwait hp
  | queued _ _ _ _ _ _ _ _ hp => exact howed hp
  | writing _ _ _ _ _ _ hp => exact howed hp

/-- What the server does to other connections leaves this one where it is. -/
theorem PeerOk.frame {s t : Server} {fd : ℕ} {p : Peer} (h : PeerOk s fd p)
    (hheap : ∀ a c, c.fd = fd → (t.heap a = some c ↔ s.heap a = some c))
    (hev : (t.events fd).writable = (s.events fd).writable)
    (hout : ∀ a c, s.heap a = some c → c.fd = fd → t.inFlight a = s.inFlight a)
    (hans : ∀ a c, s.heap a = some c → c.fd = fd → t.Answered a → s.Answered a) :
    PeerOk t fd p := by
  cases h with
  | connecting hfd hp => exact .connecting (fun a c hc h => hfd a c ((hheap a c h).mp hc) h) hp
  | reading a c hc hfd ho hw hpos hp =>
    exact .reading a c ((hheap a c hfd).mpr hc) hfd (by rw [hout a c hc hfd, ho])
      (by rw [hev, hw]) hpos hp
  | queued a c hc hfd ho hpos hm hr hp =>
    exact .queued a c ((hheap a c hfd).mpr hc) hfd (by rw [hout a c hc hfd]; exact ho) hpos hm
      (fun h => hr (hans a c hc hfd h)) hp
  | writing a c hc hfd hw hpos hp =>
    exact .writing a c ((hheap a c hfd).mpr hc) hfd (by rw [hev, hw]) hpos hp

/-- A step that passes a client from hand to hand, or none. -/
theorem PeerOk.pass {s t : Server} {fd : ℕ} {p : Peer} (h : PeerOk s fd p) (ht : s.Passes t) :
    PeerOk t fd p :=
  h.frame (fun a c _ => by rw [ht.heap]) (by rw [ht.events]) (fun a _ _ _ => ht.inFlight a)
    fun a _ _ _ => ht.answered a

/-- What the server does to one client leaves the connections of the others where they are. -/
theorem PeerOk.other {s t : Server} {fd k : ℕ} {a : Addr} {p : Peer} (h : PeerOk s fd p)
    (hfd : fd ≠ k) (ha : ∀ c, s.heap a = some c → c.fd = k)
    (ha' : ∀ c, t.heap a = some c → c.fd = k) (hheap : ∀ b, b ≠ a → t.heap b = s.heap b)
    (hev : ∀ j, j ≠ k → t.events j = s.events j)
    (hout : ∀ b, b ≠ a → t.inFlight b = s.inFlight b)
    (hans : ∀ b, b ≠ a → t.Answered b → s.Answered b) : PeerOk t fd p := by
  have hne : ∀ b c, s.heap b = some c → c.fd = fd → b ≠ a := by
    rintro b c hc hcfd rfl
    exact hfd (hcfd.symm.trans (ha c hc))
  refine h.frame (fun b c hcfd => ?_) (by rw [hev fd hfd])
    (fun b c hc hcfd => hout b (hne b c hc hcfd)) fun b c hc hcfd => hans b (hne b c hc hcfd)
  by_cases hb : b = a
  · rw [hb]
    exact ⟨fun hc => absurd (hcfd.symm.trans (ha' c hc)) hfd,
      fun hc => absurd (hcfd.symm.trans (ha c hc)) hfd⟩
  · rw [hheap b hb]

/-! ## The client of a connection -/

/-- A client for which the command has been run is in a queue or in the hands of a thread. -/
theorem Server.Answered.inFlight {s : Server} {a : Addr} (h : s.Answered a) :
    0 < s.inFlight a := by
  rw [Server.inFlight]
  rcases h with h | h | h
  · obtain ⟨i, hi⟩ := List.getElem?_of_mem h
    have := (held_pos_iff WorkerPc.client s.workers a).mpr ⟨i, _, hi, rfl⟩
    omega
  · have := List.count_pos_iff.mpr h
    omega
  · rw [h, show has (MainPc.registering a).client a = 1 from has_self a]
    omega

/-- A connection has one client. -/
theorem Server.Inv.addr_unique {s : Server} (hs : s.Inv) {a b : Addr} {c d : RedisClient}
    (hc : s.heap a = some c) (hd : s.heap b = some d) (h : c.fd = d.fd) : a = b := by
  rw [← (hs.live a c hc).clientData, h, (hs.live b d hd).clientData]

variable {s : Server} {a : Addr} {c : RedisClient} {p : Peer}

/-- While there is something to read, the client is in nobody's hands. -/
theorem PeerOk.reading_of_toServer (hs : s.Inv) (h : PeerOk s c.fd p) (hc : s.heap a = some c)
    (hne : p.toServer ≠ []) :
    s.inFlight a = 0 ∧ (s.events c.fd).writable = false ∧ c.wpos = 0 ∧ p.Waiting c.rbuf := by
  cases h with
  | connecting hfd _ => exact absurd rfl (hfd a c hc)
  | reading b d hd hfd hout hw hpos hp =>
    obtain rfl := hs.addr_unique hd hc hfd
    obtain rfl := Option.some.inj (hd.symm.trans hc)
    exact ⟨hout, hw, hpos, hp⟩
  | queued _ _ _ _ _ _ _ _ hp => exact absurd hp.toServer hne
  | writing _ _ _ _ _ _ hp => exact absurd hp.toServer hne

/-- A client in the hands of the server has a message. -/
theorem PeerOk.queued_of_inFlight (hs : s.Inv) (h : PeerOk s c.fd p) (hc : s.heap a = some c)
    (hout : 0 < s.inFlight a) :
    c.wpos = 0 ∧ Message c.rbuf ∧ (s.Answered a → c.wbuf = c.rbuf) ∧ p.Owed c.rbuf := by
  cases h with
  | connecting hfd _ => exact absurd rfl (hfd a c hc)
  | reading b d hd hfd hzero _ _ _ =>
    obtain rfl := hs.addr_unique hd hc hfd
    omega
  | queued b d hd hfd _ hpos hm hans hp =>
    obtain rfl := hs.addr_unique hd hc hfd
    obtain rfl := Option.some.inj (hd.symm.trans hc)
    exact ⟨hpos, hm, hans, hp⟩
  | writing b d _ _ hw _ _ =>
    rw [((hs.live a c hc).inFlight hout).2] at hw
    cases hw

/-- A client that is registered for writing has a reply to write. -/
theorem PeerOk.writing_of_writable (hs : s.Inv) (h : PeerOk s c.fd p) (hc : s.heap a = some c)
    (hw : (s.events c.fd).writable = true) :
    c.wpos < c.wbuf.length ∧ p.Owed (c.wbuf.drop c.wpos) := by
  cases h with
  | connecting hfd _ => exact absurd rfl (hfd a c hc)
  | reading _ _ _ _ _ hnot _ _ =>
    rw [hw] at hnot
    cases hnot
  | queued b d hd hfd hout _ _ _ _ =>
    have hnot := ((hs.live b d hd).inFlight hout).2
    rw [hfd, hw] at hnot
    cases hnot
  | writing b d hd hfd _ hpos hp =>
    obtain rfl := hs.addr_unique hd hc hfd
    obtain rfl := Option.some.inj (hd.symm.trans hc)
    exact ⟨hpos, hp⟩

/-! ## The steps of the clients -/

/-- A client sends a message when no message is under way. -/
theorem Peer.Waiting.send {rbuf m : Bytes} (hp : p.Waiting rbuf) (hm : Message m)
    (hlen : p.received.length = p.sent.flatten.length) : (p.send m).Waiting rbuf := by
  have h4 := hm.four_le
  cases hp with
  | idle hbuf hserver hsent =>
    refine .arriving p.sent m hm ?_ ?_ rfl hsent
    · simp [Peer.send, hbuf, hserver]
    · simp only [Peer.send, hserver, List.nil_append]
      rintro rfl
      simp at h4
  | arriving before m' hm' _ _ hsent hbefore =>
    -- The echo of the last message has not been received.
    have h4' := hm'.four_le
    rw [hsent, List.flatten_append, hbefore] at hlen
    simp only [List.length_append, List.flatten_cons, List.flatten_nil, List.append_nil] at hlen
    omega

/-- A client that has received everything is owed nothing. -/
theorem Peer.Owed.length_eq_zero {rest : Bytes} (hp : p.Owed rest)
    (hlen : p.received.length = p.sent.flatten.length) : rest.length = 0 := by
  rw [hp.sent] at hlen
  simp only [List.length_append] at hlen
  omega

/-- The client of a connection sends a message. -/
theorem PeerOk.send {fd : ℕ} {m : Bytes} (h : PeerOk s fd p) (hm : Message m)
    (hlen : p.received.length = p.sent.flatten.length) : PeerOk s fd (p.send m) := by
  cases h with
  | connecting hfd hp => exact .connecting hfd (hp.send hm hlen)
  | reading a c hc hfd hout hw hpos hp => exact .reading a c hc hfd hout hw hpos (hp.send hm hlen)
  | queued a c _ _ _ _ hm' _ hp =>
    have h4 := hm'.four_le
    have := hp.length_eq_zero hlen
    omega
  | writing a c _ _ _ hpos hp =>
    have := hp.length_eq_zero hlen
    rw [List.length_drop] at this
    omega

/-- What is received was under way. -/
theorem Peer.received_append_toClient (p : Peer) (n : ℕ) :
    (p.receive n).received ++ (p.receive n).toClient = p.received ++ p.toClient := by
  simp [Peer.receive]

/-- The client of a connection receives bytes. -/
theorem PeerOk.receive {fd : ℕ} (h : PeerOk s fd p) (n : ℕ) : PeerOk s fd (p.receive n) := by
  have hwait : ∀ {rbuf}, p.Waiting rbuf → (p.receive n).Waiting rbuf := by
    intro rbuf hp
    cases hp with
    | idle hbuf hserver hsent =>
      exact .idle hbuf hserver (hsent.trans (p.received_append_toClient n).symm)
    | arriving before m hm hbuf hserver hsent hbefore =>
      exact .arriving before m hm hbuf hserver hsent
        (hbefore.trans (p.received_append_toClient n).symm)
  have howed : ∀ {rest}, p.Owed rest → (p.receive n).Owed rest := fun hp =>
    ⟨hp.toServer, by rw [p.received_append_toClient n]; exact hp.sent⟩
  cases h with
  | connecting hfd hp => exact .connecting hfd (hwait hp)
  | reading a c hc hfd hout hw hpos hp => exact .reading a c hc hfd hout hw hpos (hwait hp)
  | queued a c hc hfd hout hpos hm hans hp =>
    exact .queued a c hc hfd hout hpos hm hans (howed hp)
  | writing a c hc hfd hw hpos hp => exact .writing a c hc hfd hw hpos (howed hp)

/-! ## The steps of the server -/

/-- A client's record changes to what it was. -/
theorem Server.setClient_self (hc : s.heap a = some c) : s.setClient a c = s := by
  rw [Server.setClient, ← hc, Function.update_eq_self]

/-- A message is under way to a client, and the server has read a part of it. -/
structure Sessions.Arriving (s : Sessions) (fd : ℕ) (a : Addr) (c : RedisClient)
    (before : List Bytes) : Prop where
  /-- The client. -/
  heap : s.server.heap a = some c
  /-- Its connection. -/
  fd_eq : c.fd = fd
  /-- It is in nobody's hands. -/
  inFlight : s.server.inFlight a = 0
  /-- It is not registered for writing. -/
  writable : (s.server.events fd).writable = false
  /-- Nothing has been written. -/
  wpos : c.wpos = 0
  /-- The message is what has been read and what has not. -/
  message : Message (c.rbuf ++ (s.peers fd).toServer)
  /-- It is the last one that the client has sent. -/
  sent : (s.peers fd).sent = before ++ [c.rbuf ++ (s.peers fd).toServer]
  /-- The others have been echoed. -/
  flatten : before.flatten = (s.peers fd).received ++ (s.peers fd).toClient

/-- The server reads from a connection when a message is under way on it. -/
theorem Sessions.Inv.arriving {s : Sessions} (hs : s.Inv) {fd : ℕ}
    (hreadable : (s.server.events fd).readable = true) (hne : (s.peers fd).toServer ≠ []) :
    ∃ c before, s.Arriving fd (s.server.events fd).clientData c before := by
  obtain ⟨c, hc, hfd⟩ := hs.server.events fd _ (FileEvent.client_eq_some.mpr ⟨.inl hreadable, rfl⟩)
  have hok := hs.peers fd
  rw [← hfd] at hok hne
  obtain ⟨hout, hw, hpos, hp⟩ := hok.reading_of_toServer hs.server hc hne
  rw [hfd] at hw hp hne
  cases hp with
  | idle _ hserver _ => exact absurd hserver hne
  | arriving before m hm hbuf _ hsent hbefore =>
    subst hbuf
    exact ⟨c, before, hc, hfd, hout, hw, hpos, hm, hsent, hbefore⟩

/-- The server after it has read a piece of a message. -/
def Server.readMessage (s : Server) (a : Addr) (c : RedisClient) (bytes rest : Bytes) : Server :=
  let s := s.setClient a { c with rbuf := c.rbuf ++ bytes }
  if bytes = rest then { s with main := .appending a } else s

/-- What a read does. -/
theorem Sessions.Inv.read_cases {vm_max_threads : UInt32} {s : Sessions} (hs : s.Inv) {fd : ℕ}
    {r : ReadResult} {t : Server} (hl : s.ValidStep (.server (.readable fd r)))
    (h : serverStep vm_max_threads s.server (.readable fd r) = some t) :
    s.server.main = .idle ∧ ((r = .eagain ∧ t = s.server) ∨
      ∃ bytes c before, r = .data bytes ∧ bytes ≠ [] ∧ bytes <+: (s.peers fd).toServer ∧
        s.Arriving fd (s.server.events fd).clientData c before ∧
        t = s.server.readMessage (s.server.events fd).clientData c bytes
          (s.peers fd).toServer) := by
  obtain ⟨t, hstep, rfl⟩ := Option.map_eq_some_iff.mp h
  cases serverStep_of_frees hstep with
  | readable fd r c hmain hev hc =>
    refine ⟨hmain, ?_⟩
    cases r with
    | eagain => exact .inl ⟨rfl, Server.setClient_self hc⟩
    | error => exact hl.elim
    | eof => exact hl.elim
    | data bytes =>
      obtain ⟨⟨hne, -⟩, hpre⟩ := hl
      have hserver : (s.peers fd).toServer ≠ [] := fun hnil =>
        hne (List.prefix_nil.mp (hnil ▸ hpre))
      obtain ⟨c', before, harr⟩ := hs.arriving hev hserver
      obtain rfl : c' = c := Option.some.inj (harr.heap.symm.trans hc)
      refine .inr ⟨bytes, c', before, rfl, hne, hpre, harr, ?_⟩
      rw [readQueryFromClient_message harr.message hpre, Server.readMessage]
      split_ifs <;> rfl

/-- A read leaves every connection where it can be. -/
theorem Sessions.Inv.read {s : Sessions} (hs : s.Inv) {fd : ℕ} {a : Addr} {c : RedisClient}
    {before : List Bytes} {bytes : Bytes} (hmain : s.server.main = .idle)
    (harr : s.Arriving fd a c before) (hpre : bytes <+: (s.peers fd).toServer) (j : ℕ) :
    PeerOk (s.server.readMessage a c bytes (s.peers fd).toServer) j
      (s.transfer (.readable fd (.data bytes)) j) := by
  simp only [Sessions.transfer]
  have hanswered : ¬ s.server.Answered a := fun h => by
    have := h.inFlight
    have := harr.inFlight
    omega
  by_cases hj : j = fd
  · subst hj
    rw [Function.update_self]
    obtain ⟨more, hmore⟩ := hpre
    have hdrop : (s.peers j).toServer.drop bytes.length = more := by
      rw [← hmore, List.drop_left]
    rw [hdrop]
    have hm := harr.message
    have hsent := harr.sent
    have hbefore := harr.flatten
    unfold Server.readMessage
    split_ifs with hall
    · -- The last byte has been read, and the client is queued.
      have hnil : more = [] := by
        rw [hall] at hmore
        exact List.append_right_eq_self.mp hmore
      rw [← hall] at hm hsent
      refine .queued a { c with rbuf := c.rbuf ++ bytes } (Function.update_self ..) harr.fd_eq ?_
        harr.wpos hm (fun h => absurd ?_ hanswered) ⟨hnil, ?_⟩
      · simp [Server.inFlight, MainPc.client]
      · -- The command has not been run for it, since nobody has had it.
        rcases h with h | h | h
        · exact .inl h
        · exact .inr (.inl h)
        · cases h
      · simp only [hsent, List.flatten_append, hbefore, List.flatten_cons, List.flatten_nil,
          List.append_nil]
    · have hne : more ≠ [] := by
        rintro rfl
        exact hall (by rw [← hmore, List.append_nil])
      rw [← hmore, ← List.append_assoc] at hm hsent
      exact .reading a { c with rbuf := c.rbuf ++ bytes } (Function.update_self ..) harr.fd_eq
        harr.inFlight harr.writable harr.wpos (.arriving before _ hm rfl hne hsent hbefore)
  · rw [Function.update_of_ne hj]
    have hheap : ∀ b, b ≠ a → (s.server.readMessage a c bytes (s.peers fd).toServer).heap b =
        s.server.heap b := by
      intro b hb
      unfold Server.readMessage
      split_ifs <;> exact Function.update_of_ne hb ..
    refine (hs.peers j).other hj (a := a) (fun d hd => ?_) (fun d hd => ?_) hheap ?_ ?_ ?_
    · rw [← Option.some.inj (harr.heap.symm.trans hd), harr.fd_eq]
    · have hself : (s.server.readMessage a c bytes (s.peers fd).toServer).heap a =
          some { c with rbuf := c.rbuf ++ bytes } := by
        unfold Server.readMessage
        split_ifs <;> exact Function.update_self ..
      rw [← Option.some.inj (hself.symm.trans hd)]
      exact harr.fd_eq
    · intro i _
      unfold Server.readMessage
      split_ifs <;> rfl
    · intro b hb
      unfold Server.readMessage
      split_ifs
      · have hba : some a ≠ some b := fun h => hb (Option.some.inj h).symm
        simp [Server.inFlight, Server.setClient, hmain, MainPc.client, has_of_ne hba]
      · rfl
    · intro b hb
      unfold Server.readMessage
      split_ifs
      · rintro (h | h | h)
        · exact .inl h
        · exact .inr (.inl h)
        · cases h
      · exact id

/-- A connection is accepted. -/
theorem Sessions.Inv.createClient {s : Sessions} (hs : s.Inv) {fd : ℕ} {a : Addr}
    (ha : s.server.heap a = none) (hfd : ∀ b c, s.server.heap b = some c → c.fd ≠ fd) (j : ℕ) :
    PeerOk (createClient s.server fd a) j (s.peers j) := by
  have hself : (RedisServer.createClient s.server fd a).heap a = some { fd := fd } :=
    Function.update_self ..
  by_cases hj : j = fd
  · subst hj
    have hwaiting : (s.peers j).Waiting [] := by
      cases hs.peers j with
      | connecting _ hp => exact hp
      | reading b c hc hcfd | queued b c hc hcfd | writing b c hc hcfd =>
        exact absurd hcfd (hfd b c hc)
    refine .reading a { fd := j } hself rfl (hs.server.dead a ha) ?_ rfl hwaiting
    -- Nobody was registered with the descriptor.
    by_contra hw
    have hw' : (s.server.events j).writable = true := by
      simpa [RedisServer.createClient] using hw
    obtain ⟨c, hc, hcfd⟩ :=
      hs.server.events j _ (FileEvent.client_eq_some.mpr ⟨.inr hw', rfl⟩)
    exact hfd _ c hc hcfd
  · refine (hs.peers j).other hj (a := a) (fun c hc => ?_) (fun c hc => ?_)
      (fun b hb => Function.update_of_ne hb ..)
      (fun i hi => by simp [RedisServer.createClient, Server.setClient, hi])
      (fun _ _ => rfl) (fun _ _ => id)
    · rw [ha] at hc
      cases hc
    · rw [← Option.some.inj (hself.symm.trans hc)]

/-- A part of the reply, or the rest of it, is written. -/
theorem Sessions.Inv.write {s : Sessions} (hs : s.Inv) {a : Addr} {c : RedisClient} {n : ℕ}
    (hc : s.server.heap a = some c) (hdata : (s.server.events c.fd).clientData = a)
    (hw : (s.server.events c.fd).writable = true) (hn : n ≤ c.wbuf.length - c.wpos) (j : ℕ) :
    PeerOk ((sendReplyToClient c (.wrote n)).2.carryOut
        (s.server.setClient a (sendReplyToClient c (.wrote n)).1) a
        (sendReplyToClient c (.wrote n)).1).1 j (s.transfer (.writable c.fd (.wrote n)) j) := by
  obtain ⟨hpos, howed⟩ := (hs.peers c.fd).writing_of_writable hs.server hc hw
  have hout : s.server.inFlight a = 0 := by
    by_contra h
    have := ((hs.server.live a c hc).inFlight (by omega)).2
    rw [hw] at this
    cases this
  simp only [Sessions.transfer, hdata, hc, sendReplyToClient]
  -- What is written is under way to the client.
  have hsent : (s.peers c.fd).sent.flatten = (s.peers c.fd).received ++
      ((s.peers c.fd).toClient ++ (c.wbuf.drop c.wpos).take n) ++ c.wbuf.drop (c.wpos + n) := by
    rw [howed.sent, ← List.drop_drop]
    simp only [List.append_assoc, List.take_append_drop]
  split_ifs with hall
  · have hself : (resetEvents (s.server.setClient a (resetClient { c with wpos := c.wpos + n }))
        a (resetClient { c with wpos := c.wpos + n })).heap a =
        some (resetClient { c with wpos := c.wpos + n }) := Function.update_self ..
    by_cases hj : j = c.fd
    · subst hj
      rw [Function.update_self]
      refine .reading a _ hself rfl hout ?_ rfl (.idle rfl howed.toServer ?_)
      · simp [WriteAction.carryOut, resetEvents, resetClient]
      · rw [hsent, hall, List.drop_length, List.append_nil]
    · rw [Function.update_of_ne hj]
      refine (hs.peers j).other hj (a := a) (fun d hd => ?_) (fun d hd => ?_)
        (fun b hb => Function.update_of_ne hb ..) (fun i hi => ?_) (fun _ _ => rfl)
        (fun _ _ => id)
      · rw [← Option.some.inj (hc.symm.trans hd)]
      · rw [← Option.some.inj (hself.symm.trans hd)]
        rfl
      · simp only [WriteAction.carryOut, resetEvents, resetClient]
        rw [aeCreateFileEvent_of_ne hi, aeDeleteFileEvent_of_ne hi, aeDeleteFileEvent_of_ne hi]
        rfl
  · have hself : (s.server.setClient a { c with wpos := c.wpos + n }).heap a =
        some { c with wpos := c.wpos + n } := Function.update_self ..
    by_cases hj : j = c.fd
    · subst hj
      rw [Function.update_self]
      have hlt : c.wpos + n < c.wbuf.length := by omega
      exact .writing a _ hself rfl hw hlt ⟨howed.toServer, hsent⟩
    · rw [Function.update_of_ne hj]
      refine (hs.peers j).other hj (a := a) (fun d hd => ?_) (fun d hd => ?_)
        (fun b hb => Function.update_of_ne hb ..) (fun _ _ => rfl) (fun _ _ => rfl)
        (fun _ _ => id)
      · rw [← Option.some.inj (hc.symm.trans hd)]
      · rw [← Option.some.inj (hself.symm.trans hd)]

/-- There is something to write, so `EAGAIN` is not the end of the reply. -/
theorem Sessions.Inv.write_eagain {s : Sessions} (hs : s.Inv) {a : Addr} {c : RedisClient}
    (hc : s.server.heap a = some c) (hw : (s.server.events c.fd).writable = true) :
    sendReplyToClient c .eagain = (c, .wait) := by
  obtain ⟨hpos, -⟩ := (hs.peers c.fd).writing_of_writable hs.server hc hw
  exact if_neg hpos.ne

/-- A client is registered for writing, and its reply is the message. -/
theorem Sessions.Inv.register {s : Sessions} (hs : s.Inv) {a : Addr} {c : RedisClient}
    (hmain : s.server.main = .registering a) (hc : s.server.heap a = some c) (j : ℕ) :
    PeerOk { s.server with
      events := aeCreateFileEvent s.server.events c.fd .writable a
      main := .looping } j (s.peers j) := by
  have hanswered : s.server.Answered a := .inr (.inr hmain)
  obtain ⟨hpos, hm, hans, howed⟩ :=
    (hs.peers c.fd).queued_of_inFlight hs.server hc hanswered.inFlight
  by_cases hj : j = c.fd
  · subst hj
    have hwbuf : c.wbuf = c.rbuf := hans hanswered
    have h4 := hm.four_le
    refine .writing a c hc rfl (by simp) (by rw [hpos, hwbuf]; omega) ?_
    rw [hpos, hwbuf, List.drop_zero]
    exact howed
  · refine (hs.peers j).other hj (a := a) (fun d hd => ?_) (fun d hd => ?_) (fun _ _ => rfl)
      (fun i hi => by simp [hi]) (fun b hb => ?_) (fun b _ h => ?_)
    · rw [← Option.some.inj (hc.symm.trans hd)]
    · rw [← Option.some.inj (hc.symm.trans hd)]
    · have hba : some a ≠ some b := fun h => hb (Option.some.inj h).symm
      simp [Server.inFlight, hmain, MainPc.client, has_of_ne hba]
    · rcases h with h | h | h
      · exact .inl h
      · exact .inr (.inl h)
      · cases h

/-- A worker runs the command, which copies the message to the reply. -/
theorem Sessions.Inv.run {s : Sessions} (hs : s.Inv) {i : ℕ} {a : Addr} {c : RedisClient}
    (hi : s.server.workers[i]? = some (.holding a)) (hc : s.server.heap a = some c) (j : ℕ) :
    PeerOk { s.server.setClient a (redisCommandProc c) with
      workers := s.server.workers.set i (.ran a) } j (s.peers j) := by
  have hpos : 0 < s.server.inFlight a := by
    have := (held_pos_iff WorkerPc.client s.server.workers a).mpr ⟨i, _, hi, rfl⟩
    rw [Server.inFlight]
    omega
  have hout : ∀ b, Server.inFlight { s.server.setClient a (redisCommandProc c) with
      workers := s.server.workers.set i (.ran a) } b = s.server.inFlight b := by
    intro b
    have := held_set WorkerPc.client hi (.ran a) b
    simp only [WorkerPc.client] at this
    simp only [Server.inFlight, Server.setClient]
    omega
  obtain ⟨hwpos, hm, -, howed⟩ := (hs.peers c.fd).queued_of_inFlight hs.server hc hpos
  by_cases hj : j = c.fd
  · subst hj
    exact .queued a (redisCommandProc c) (Function.update_self ..) rfl (by rw [hout]; exact hpos)
      hwpos hm (fun _ => rfl) howed
  · refine (hs.peers j).other hj (a := a) (fun d hd => ?_) (fun d hd => ?_)
      (fun b hb => Function.update_of_ne hb ..) (fun _ _ => rfl) (fun b _ => hout b)
      (fun b hb => Or.imp_left fun h => ?_)
    · rw [← Option.some.inj (hc.symm.trans hd)]
    · obtain rfl : redisCommandProc c = d := by simpa [Server.setClient] using hd
      rfl
    · -- The worker has run the command for this client only.
      exact (List.mem_or_eq_of_mem_set h).resolve_right fun heq => hb (WorkerPc.ran.inj heq)

/-- What the system calls return in a session is what they can return. -/
theorem Sessions.ValidStep.server {s : Sessions} {l : ServerLabel}
    (hl : s.ValidStep (.server l)) : s.server.ValidStep l := by
  cases l with
  | readable fd r =>
    cases r with
    | data bytes => exact hl.1
    | eagain => trivial
    | error => trivial
    | eof => trivial
  | writable fd r => exact hl.1
  | _ => exact hl

/-- The server does not read from a client that is in its hands. -/
theorem Sessions.Inv.quietStep {vm_max_threads : UInt32} {s : Sessions} (hs : s.Inv)
    {l : ServerLabel} {t : Server} (hl : s.ValidStep (.server l))
    (h : serverStep vm_max_threads s.server l = some t) : s.server.QuietStep l := by
  cases l with
  | readable fd r =>
    rcases (hs.read_cases hl h).2 with ⟨rfl, -⟩ | ⟨bytes, c, before, -, -, -, harr, -⟩
    · exact .inl rfl
    · exact .inr harr.inFlight
  | _ => trivial

/-- A step that passes a client from hand to hand does nothing to the connections. -/
theorem Sessions.transfer_of_passes (s : Sessions) {l : ServerLabel} (hl : l.passes = true) :
    s.transfer l = s.peers := by
  cases l with
  | readable => cases hl
  | writable => cases hl
  | _ => rfl

/-- A step of the server leaves every connection where it can be. -/
theorem Sessions.Inv.peers_step {vm_max_threads : UInt32} {s : Sessions} (hs : s.Inv)
    {l : ServerLabel} {t : Server} (hl : s.ValidStep (.server l))
    (h : serverStep vm_max_threads s.server l = some t) (j : ℕ) :
    PeerOk t j (s.transfer l j) := by
  by_cases hpass : l.passes = true
  · rw [s.transfer_of_passes hpass]
    exact (hs.peers j).pass (passes_of_step h hpass)
  obtain ⟨t, hstep, rfl⟩ := Option.map_eq_some_iff.mp h
  cases serverStep_of_frees hstep with
  | accept fd a => exact hs.createClient hl.1 hl.2 j
  | readable fd r =>
    obtain ⟨hmain, ⟨rfl, ht⟩ | ⟨bytes, c, before, rfl, -, hpre, harr, ht⟩⟩ := hs.read_cases hl h
    · rw [ht]
      exact hs.peers j
    · rw [ht]
      exact hs.read hmain harr hpre j
  | writable fd r c hmain hev hc' =>
    obtain ⟨c, hc, rfl⟩ := hs.server.events fd _ (FileEvent.client_eq_some.mpr ⟨.inr hev, rfl⟩)
    obtain rfl := Option.some.inj (hc.symm.trans hc')
    cases r with
    | error => exact absurd rfl hl.2
    | eagain =>
      rw [hs.write_eagain hc hev]
      simp only [WriteAction.carryOut, Server.setClient_self hc]
      exact hs.peers j
    | wrote n => exact hs.write hc rfl hev (hl.1 c hc) j
  | register a c hmain hc => exact hs.register hmain hc j
  | worker i act t ht =>
    obtain rfl : act = .run := by simpa [ServerLabel.passes] using hpass
    obtain ⟨a, c, hi, hc, rfl⟩ := workerAct_run ht
    exact hs.run hi hc j
  | _ => exact absurd rfl hpass

/-- The invariant is kept by every step. -/
theorem Sessions.Inv.step {vm_max_threads : UInt32} {s t : Sessions} {l : SessionLabel}
    (hs : s.Inv) (hl : s.ValidStep l) (h : sessionStep vm_max_threads s l = some t) : t.Inv := by
  cases l with
  | send fd m =>
    obtain rfl := Option.some.inj h
    refine ⟨hs.server, fun j => ?_⟩
    by_cases hj : j = fd
    · subst hj
      simp only [Function.update_self]
      exact (hs.peers j).send hl.1 hl.2
    · simp only [Function.update_of_ne hj]
      exact hs.peers j
  | receive fd n =>
    obtain rfl := Option.some.inj h
    refine ⟨hs.server, fun j => ?_⟩
    by_cases hj : j = fd
    · subst hj
      simp only [Function.update_self]
      exact (hs.peers j).receive n
    · simp only [Function.update_of_ne hj]
      exact hs.peers j
  | server l =>
    obtain ⟨server, hstep, rfl⟩ := Option.map_eq_some_iff.mp h
    exact ⟨hs.server.step hl.server (hs.quietStep hl hstep) hstep, hs.peers_step hl hstep⟩

/-- Before the first step. -/
theorem Sessions.inv_init : Sessions.Inv {} where
  server := Server.inv_init
  peers _ := .connecting (fun a c hc => by cases hc) (.idle rfl rfl rfl)

/-! ## When a message is queued -/

/-- A worker does not move the main thread. -/
theorem main_of_workerAct {s t : Server} {i : ℕ} {act : WorkerAct}
    (h : workerAct s i act = some t) : t.main = s.main := by
  cases workerStep_of_workerAct h <;> rfl

/-- The main thread comes to `queueIOJob` from the handler of a readable client. -/
theorem readable_of_appending {vm_max_threads : UInt32} {s t : Server} {l : ServerLabel} {a : Addr}
    (h : serverStep vm_max_threads s l = some t) (hs : s.main = .idle)
    (ht : t.main = .appending a) : ∃ fd r, l = .readable fd r := by
  obtain ⟨t, hstep, rfl⟩ := Option.map_eq_some_iff.mp h
  cases serverStep_of_frees hstep with
  | readable fd r => exact ⟨fd, r, rfl⟩
  | accept => exact absurd (hs.symm.trans ht) (by simp)
  | writable fd r c =>
    have hmain : ((sendReplyToClient c r).2.carryOut
        (s.setClient (s.events fd).clientData (sendReplyToClient c r).1)
        (s.events fd).clientData (sendReplyToClient c r).1).1.main = s.main := by
      cases (sendReplyToClient c r).2 <;> rfl
    rw [hmain, hs] at ht
    cases ht
  | worker i act t hact =>
    rw [main_of_workerAct hact, hs] at ht
    cases ht
  | completed => cases ht
  | append a hmain => cases hs.symm.trans hmain
  | register a c hmain => cases hs.symm.trans hmain
  | room hmain | full hmain | spawn hmain | increment hmain | readByte hmain | pipeEmpty hmain
  | takeProcessed _ _ hmain => cases hs.symm.trans hmain

/-- What the server has read of a client's messages while one arrives. -/
theorem Sessions.Arriving.taken {s : Sessions} {fd : ℕ} {a : Addr} {c : RedisClient}
    {before : List Bytes} (h : s.Arriving fd a c before) :
    (s.peers fd).taken = before.flatten.length + c.rbuf.length := by
  rw [Peer.taken, h.sent]
  simp only [List.flatten_append, List.flatten_cons, List.flatten_nil, List.append_nil,
    List.length_append]
  omega

/-- A message is queued when its last byte is read, and at no other time. -/
theorem Sessions.Inv.queues_iff {vm_max_threads : UInt32} {s t : Sessions} {l : SessionLabel}
    (hs : s.Inv) (hl : s.ValidStep l) (h : sessionStep vm_max_threads s l = some t) (fd : ℕ)
    (m : Bytes) : s.Queues t fd m ↔ s.ReadsLastByte l fd m := by
  constructor
  · rintro ⟨a, c, hidle, happ, hc, rfl, rfl⟩
    cases l with
    | send | receive =>
      obtain rfl := Option.some.inj h
      exact absurd (hidle.symm.trans happ) (by simp)
    | server l =>
      obtain ⟨server, hstep, rfl⟩ := Option.map_eq_some_iff.mp h
      obtain ⟨fd, r, rfl⟩ := readable_of_appending hstep hidle happ
      obtain ⟨-, ⟨rfl, rfl⟩ | ⟨bytes, d, before, rfl, hne, hpre, harr, rfl⟩⟩ :=
        hs.read_cases hl hstep
      · exact absurd (hidle.symm.trans happ) (by simp)
      · have htaken := harr.taken
        have hpos := List.length_pos_iff.mpr hne
        unfold Server.readMessage at happ hc
        split_ifs at happ hc with hall
        · obtain rfl := MainPc.appending.inj happ
          obtain rfl : { d with rbuf := d.rbuf ++ bytes } = c := by
            simpa [Server.setClient] using hc
          obtain rfl := harr.fd_eq
          refine ⟨bytes, before, [], rfl, ?_, ?_, ?_⟩
          · rw [hall]
            exact harr.sent
          all_goals
            rw [htaken]
            simp only [List.length_append]
            omega
        · exact absurd (hidle.symm.trans happ) (by simp)
  · rintro ⟨bytes, before', after, rfl, hsent, hlt, hle⟩
    obtain ⟨server, hstep, rfl⟩ := Option.map_eq_some_iff.mp h
    obtain ⟨hidle, ⟨hr, -⟩ | ⟨bytes', c, before, hr, -, hpre, harr, rfl⟩⟩ := hs.read_cases hl hstep
    · cases hr
    obtain rfl := ReadResult.data.inj hr
    have hlast := harr.sent.symm.trans hsent
    rw [harr.taken] at hlt hle
    -- Only the last message has bytes that have not been read.
    obtain rfl : after = [] := by
      rcases List.eq_nil_or_concat after with hnil | ⟨after', x, rfl⟩
      · exact hnil
      · have hsplit : before ++ [c.rbuf ++ (s.peers fd).toServer] =
            (before' ++ m :: after') ++ [x] := by
          rw [hlast]
          simp
        have hbefore := (List.append_inj' hsplit rfl).1
        rw [hbefore] at hlt
        simp only [List.flatten_append, List.flatten_cons, List.length_append] at hlt
        omega
    obtain ⟨rfl, hm⟩ := List.append_inj' hlast rfl
    obtain rfl := List.singleton_inj.mp hm
    have hall : bytes = (s.peers fd).toServer := by
      refine hpre.eq_of_length (le_antisymm hpre.length_le ?_)
      simp only [List.length_append] at hle
      omega
    refine ⟨(s.server.events fd).clientData, { c with rbuf := c.rbuf ++ bytes }, hidle, ?_, ?_,
      harr.fd_eq, by rw [hall]⟩
    · rw [Server.readMessage, if_pos hall]
    · rw [Server.readMessage, if_pos hall]
      exact Function.update_self ..

/-- In every state that the server and its clients can reach, each client has received a prefix of
what it has sent, and the next step queues a message of a client if and only if it reads the last
byte of that message. -/
theorem echo_sessions (vm_max_threads : UInt32) (s : Sessions)
    (h : (sessionSystem vm_max_threads).Reach Sessions.ValidStep s) :
    (∀ fd, (s.peers fd).received <+: (s.peers fd).sent.flatten) ∧
      ∀ l t, s.ValidStep l → (sessionSystem vm_max_threads).step s l = some t →
        ∀ fd m, s.Queues t fd m ↔ s.ReadsLastByte l fd m := by
  have hs : s.Inv := by
    refine h.invariant ?_ fun s l t hs hl h => hs.step hl h
    rintro s rfl
    exact Sessions.inv_init
  exact ⟨fun fd => (hs.peers fd).isPrefix, fun l t hl h => hs.queues_iff hl h⟩

/-- A client connects, sends a message of four bytes, and the server reads the first of them. -/
def firstByte : List SessionLabel :=
  [.server (.accept 5 1), .send 5 [4, 0, 0, 0], .server (.readable 5 (.data [4]))]

/-- The server reads the rest of the message, which queues it. -/
theorem echo_sessions_firstByte : ∃ s t : Sessions,
    (sessionSystem 10).run {} firstByte = some s ∧
      (sessionSystem 10).step s (.server (.readable 5 (.data [0, 0, 0]))) = some t ∧
      (s.peers 5).received <+: (s.peers 5).sent.flatten ∧ s.Queues t 5 [4, 0, 0, 0] := by
  have hok : (sessionSystem 10).RunOk Sessions.ValidStep {} firstByte := by
    refine ⟨⟨rfl, by simp⟩, fun s hs => ⟨?_, fun t ht => ⟨?_, fun _ _ => trivial⟩⟩⟩
    · obtain rfl := Option.some.inj hs
      exact ⟨⟨by decide, by decide, by decide⟩, rfl⟩
    · obtain rfl := Option.some.inj hs
      obtain rfl := Option.some.inj ht
      exact ⟨⟨by decide, by decide⟩, by decide⟩
  have hrun : ((sessionSystem 10).run {} (firstByte ++
      [.server (.readable 5 (.data [0, 0, 0]))])).isSome = true := by
    decide +kernel
  have hpeer : ((sessionSystem 10).run {} firstByte).map
      (fun s => ((s.peers 5).sent, (s.peers 5).toServer)) =
      some ([[4, 0, 0, 0]], [0, 0, 0]) := by
    decide +kernel
  rw [Lts.run_append] at hrun
  obtain ⟨t, ht⟩ := Option.isSome_iff_exists.mp hrun
  obtain ⟨s, hs, hst⟩ := Option.bind_eq_some_iff.mp ht
  obtain ⟨t', hstep, -⟩ := Option.bind_eq_some_iff.mp hst
  rw [hs, Option.map_some, Option.some.injEq, Prod.mk.injEq] at hpeer
  obtain ⟨hsent, hserver⟩ := hpeer
  have hreach : (sessionSystem 10).Reach Sessions.ValidStep s := .run (.init rfl) hok hs
  have hvalid : s.ValidStep (.server (.readable 5 (.data [0, 0, 0]))) :=
    ⟨⟨by decide, by decide⟩, by rw [hserver]⟩
  refine ⟨s, t', hs, hstep, (echo_sessions 10 s hreach).1 5,
    ((echo_sessions 10 s hreach).2 _ t' hvalid hstep 5 [4, 0, 0, 0]).mpr ?_⟩
  refine ⟨[0, 0, 0], [], [], rfl, hsent, ?_, ?_⟩
  all_goals
    rw [Peer.taken, hsent, hserver]
    decide

end MgCommonUtils.RedisServer
