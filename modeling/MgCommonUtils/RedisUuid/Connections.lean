import MgCommonUtils.EventLoop
import MgCommonUtils.Lib.Custody
import MgCommonUtils.Lib.Transition
import MgCommonUtils.RedisUuid.Server

/-!
# The connections of the id server

The event handlers of `redis-uuid/redis.c` around `ProcessRequestBuffer`. A client is registered
for reading until its request is full, and then for writing until the reply is written. The process
has one thread, and the handling of one event is one step.

The request is read into a buffer of 64 bytes, and looked at with string functions, which stop at a
NUL. `connections_inv` says that there is one, since a read leaves room for it, and the buffer is
zero behind what has been read (`RedisClient.Reading`); and so the string functions see what has
been read, and nothing else (`processRequestBuffer_eq`). It says the same of the bounds on the
reply, of the registrations, and of `server.clients`.

The clients are items of `Lib.Custody` in the event table, and they are never in anybody's hands.
What a step does to the globals of the process is what the events of `Server.step` do
(`globals_step`).
-/

namespace MgCommonUtils.RedisUuid

open MgCommonUtils.Lib MgCommonUtils.EventLoop

/-! ## The model -/

/-- `READ_BUF_LEN`. -/
def READ_BUF_LEN : ℕ := 64

/-- `WRITE_BUF_LEN`. -/
def WRITE_BUF_LEN : ℕ := 512

/-- `struct RedisClient`, with the whole read buffer, and the first `wlen` bytes of the other. -/
structure RedisClient where
  /-- The connection's file descriptor. -/
  fd : ℕ
  /-- The read buffer. -/
  rbuf : Bytes := List.replicate READ_BUF_LEN 0
  /-- The number of bytes read. -/
  rlen : ℕ := 0
  /-- The reply. -/
  wbuf : Bytes := []
  /-- The number of reply bytes written. -/
  wpos : ℕ := 0
  deriving DecidableEq, Repr

/-- `wlen`. -/
def RedisClient.wlen (c : RedisClient) : ℕ := c.wbuf.length

/-- `ProcessRequestBuffer` on the read buffer of a client. -/
def RedisClient.processRequestBuffer (c : RedisClient) (s : Server) (now : ℕ) : Answer × Server :=
  match strstrCrlf c.rbuf with
  | none => (.incomplete, s)
  | some p =>
    if p + 2 ≠ c.rlen then (.error, s)
    else if strcasecmpEq c.rbuf (text "quit\r\n") then (.quit, s)
    else if strncasecmpEq c.rbuf (text "get ") 4 then
      let (uuid, s) := getUuid52bit s now
      (.value uuid, { s with stat_numcommands := s.stat_numcommands + 1 })
    else if strncasecmpEq c.rbuf (text "stats ") 4 then (.stats s, s)
    else (.error, s)

/-- What `snprintf` leaves of an answer: it is given one byte less than there are, and needs one
for the NUL. -/
def Answer.reply (ans : Answer) : Bytes := ans.wbuf.take (WRITE_BUF_LEN - 2)

/-- What the handler of a readable client does with it. -/
inductive ReadAction where
  /-- Nothing. -/
  | wait
  /-- It registers the client for writing instead of reading. -/
  | reply
  /-- `freeClient`. -/
  | free
  deriving DecidableEq, Repr

/-- `processInputBuffer`. -/
def processInputBuffer (c : RedisClient) (s : Server) (now : ℕ) :
    RedisClient × Server × ReadAction :=
  match c.processRequestBuffer s now with
  | (.error, s) => (c, s, .free)
  | (.quit, s) => (c, s, .free)
  | (.incomplete, s) => (c, s, .wait)
  | (ans, s) => ({ c with wbuf := ans.reply }, s, .reply)

/-- `readQueryFromClient`, when `time` returns `now`. -/
def readQueryFromClient (c : RedisClient) (s : Server) (r : ReadResult) (now : ℕ) :
    RedisClient × Server × ReadAction :=
  match r with
  | .error => (c, s, .free)
  | .eof => (c, s, .free)
  | .eagain => (c, s, .wait)
  | .data bytes =>
    let rlen := c.rlen + bytes.length
    let c := { c with rbuf := c.rbuf.take c.rlen ++ bytes ++ c.rbuf.drop rlen, rlen }
    if c.rlen ≥ READ_BUF_LEN - 1 then (c, s, .free) else processInputBuffer c s now

/-- What the handler of a writable client does with it. -/
inductive WriteAction where
  /-- Nothing. -/
  | wait
  /-- `resetClient`. -/
  | reset
  /-- `freeClient`. -/
  | free
  deriving DecidableEq, Repr

/-- The record part of `resetClient`. -/
def resetClient (c : RedisClient) : RedisClient :=
  { c with rbuf := List.replicate READ_BUF_LEN 0, rlen := 0, wbuf := [], wpos := 0 }

/-- `sendReplyToClient`. -/
def sendReplyToClient (c : RedisClient) (r : WriteResult) : RedisClient × WriteAction :=
  match r with
  | .error => (c, .free)
  | .eagain => if c.wpos = c.wlen then (resetClient c, .reset) else (c, .wait)
  | .wrote n =>
    let c := { c with wpos := c.wpos + n }
    if c.wpos = c.wlen then (resetClient c, .reset) else (c, .wait)

/-- The process. -/
structure Process where
  /-- The globals that an answer depends on. -/
  globals : Server
  /-- The live clients. -/
  heap : Addr → Option RedisClient := fun _ => none
  /-- The event table. -/
  events : EventTable := fun _ => {}

/-- The record of a client changes. -/
def Process.setClient (s : Process) (a : Addr) (c : RedisClient) : Process :=
  { s with heap := Function.update s.heap a (some c) }

/-- `createClient`, where it succeeds. -/
def createClient (s : Process) (fd : ℕ) (a : Addr) : Process :=
  { s.setClient a { fd := fd } with
    events := aeCreateFileEvent s.events fd .readable a
    globals := { s.globals with clients := s.globals.clients + 1 } }

/-- `freeClient`. -/
def freeClient (s : Process) (a : Addr) (c : RedisClient) : Process :=
  { heap := Function.update s.heap a none
    events := aeDeleteFileEvent (aeDeleteFileEvent s.events c.fd .readable) c.fd .writable
    globals := { s.globals with clients := s.globals.clients - 1 } }

/-- `acceptHandler` after `createClient` has succeeded. -/
def acceptClient (maxclients : ℕ) (s : Process) (fd : ℕ) (a : Addr) : Process :=
  let s := createClient s fd a
  let s := { s with globals :=
    { s.globals with stat_numconnections := s.globals.stat_numconnections + 1 } }
  if maxclients ≠ 0 ∧ s.globals.clients > maxclients then freeClient s a { fd := fd } else s

/-- What the handler of a readable client does to the process. -/
def ReadAction.carryOut (s : Process) (a : Addr) (c : RedisClient) : ReadAction → Process
  | .wait => s
  | .reply => { s with
      events := aeCreateFileEvent (aeDeleteFileEvent s.events c.fd .readable) c.fd .writable a }
  | .free => freeClient s a c

/-- What the handler of a writable client does to the process. -/
def WriteAction.carryOut (s : Process) (a : Addr) (c : RedisClient) : WriteAction → Process
  | .wait => s
  | .reset =>
    let events := aeDeleteFileEvent (aeDeleteFileEvent s.events c.fd .writable) c.fd .readable
    { s with events := aeCreateFileEvent events c.fd .readable a }
  | .free => freeClient s a c

/-- The events that are handled. -/
inductive Label where
  /-- `acceptHandler`: a connection with the descriptor `fd`. `calloc` returns `a`, or none, and
  `aeCreateFileEvent` succeeds, or does not. -/
  | accept (fd : ℕ) (a : Option Addr) (registered : Bool)
  /-- `readQueryFromClient`. -/
  | readable (fd : ℕ) (r : ReadResult) (now : ℕ)
  /-- `sendReplyToClient`. -/
  | writable (fd : ℕ) (r : WriteResult)
  deriving DecidableEq, Repr

/-- The handling of an event. -/
def processStep (maxclients : ℕ) (s : Process) : Label → Option Process
  | .accept fd (some a) true => some (acceptClient maxclients s fd a)
  | .accept _ _ _ => some s
  | .readable fd r now =>
    if (s.events fd).readable then
      match s.heap (s.events fd).clientData with
      | none => none
      | some c =>
        let a := (s.events fd).clientData
        let (c, globals, act) := readQueryFromClient c s.globals r now
        some (act.carryOut ({ s with globals }.setClient a c) a c)
    else none
  | .writable fd r =>
    if (s.events fd).writable then
      match s.heap (s.events fd).clientData with
      | none => none
      | some c =>
        let a := (s.events fd).clientData
        let (c, act) := sendReplyToClient c r
        some (act.carryOut (s.setClient a c) a c)
    else none

/-- What the system calls and `calloc` can return: a connection has a descriptor that no live
client has, and a new client an address that is not in use. -/
def Process.ValidStep (s : Process) : Label → Prop
  | .accept fd a _ => (∀ b ∈ a, s.heap b = none) ∧ ∀ b c, s.heap b = some c → c.fd ≠ fd
  | .readable fd r _ =>
    ∀ c ∈ s.heap (s.events fd).clientData, r.Valid (READ_BUF_LEN - c.rlen - 1)
  | .writable fd r => ∀ c ∈ s.heap (s.events fd).clientData, r.Valid (c.wlen - c.wpos)

/-- A process that `main` has started. -/
def connectionSystem (maxclients : ℕ) : Lts Process Label where
  init s := ∃ opts globals, main opts = some globals ∧ s = { globals }
  step := processStep maxclients

/-! ## One client -/

/-- A client that is registered for reading: there is room for a byte and for the NUL after it, and
nothing but zeros behind what has been read. -/
structure RedisClient.Reading (c : RedisClient) : Prop where
  /-- There is room. -/
  rlen_le : c.rlen ≤ 62
  /-- The size of the buffer. -/
  length_rbuf : c.rbuf.length = READ_BUF_LEN
  /-- The rest of the buffer is zero. -/
  zero : ∀ i, c.rlen ≤ i → i < READ_BUF_LEN → c.rbuf[i]? = some 0
  /-- Nothing has been written. -/
  wpos_eq : c.wpos = 0

/-- A client that is registered for writing: there is something to write. -/
structure RedisClient.Writing (c : RedisClient) : Prop where
  /-- The reply has not been written. -/
  wpos_lt : c.wpos < c.wlen
  /-- The reply fits. -/
  wlen_le : c.wlen ≤ 510

/-- A new client, or one that has been reset. -/
theorem reading_of_zero {c : RedisClient} (hbuf : c.rbuf = List.replicate READ_BUF_LEN 0)
    (hlen : c.rlen = 0) (hpos : c.wpos = 0) : c.Reading where
  rlen_le := by omega
  length_rbuf := by rw [hbuf, List.length_replicate]
  zero i _ hi := by rw [hbuf, List.getElem?_replicate, if_pos hi]
  wpos_eq := hpos

/-- A read leaves the rest of the buffer as it is. -/
theorem RedisClient.Reading.data {c : RedisClient} (hc : c.Reading) (bytes : Bytes)
    (hlt : c.rlen + bytes.length < READ_BUF_LEN - 1) :
    RedisClient.Reading { c with
      rbuf := c.rbuf.take c.rlen ++ bytes ++ c.rbuf.drop (c.rlen + bytes.length)
      rlen := c.rlen + bytes.length } := by
  have hlen := hc.length_rbuf
  simp only [READ_BUF_LEN] at hlen hlt
  have htake : (c.rbuf.take c.rlen ++ bytes).length = c.rlen + bytes.length := by
    rw [List.length_append, List.length_take]
    omega
  refine ⟨by dsimp only; omega, ?_, fun i hi hi' => ?_, hc.wpos_eq⟩
  · simp only [List.length_append, List.length_take, List.length_drop, READ_BUF_LEN]
    omega
  · dsimp only at hi ⊢
    rw [List.getElem?_append_right (by omega), htake, List.getElem?_drop,
      show c.rlen + bytes.length + (i - (c.rlen + bytes.length)) = i by omega]
    exact hc.zero i (by omega) hi'

/-- A reply has a text. -/
theorem length_text_append_pos {s : String} (hs : 0 < (text s).length) (t : Bytes) :
    0 < (text s ++ t).length := by
  rw [List.length_append]
  omega

/-- A client that has an answer can be registered for writing. -/
theorem writing_of_reply {c : RedisClient} (ans : Answer) (hans : 0 < ans.wbuf.length)
    (hbuf : c.wbuf = ans.reply) (hpos : c.wpos = 0) : c.Writing := by
  have hlen : c.wlen = min 510 ans.wbuf.length := by
    rw [RedisClient.wlen, hbuf, Answer.reply, List.length_take]
    rfl
  refine ⟨?_, ?_⟩
  · rw [hlen, hpos]
    omega
  · rw [hlen]
    omega

/-- What `processInputBuffer` does with a client that is registered for reading. -/
theorem processInputBuffer_spec {c : RedisClient} (hpos : c.wpos = 0) (s : Server) (now : ℕ) :
    ((processInputBuffer c s now).1 = c ∧ (processInputBuffer c s now).2.2 ≠ .reply) ∨
      ((processInputBuffer c s now).1.fd = c.fd ∧ (processInputBuffer c s now).1.Writing ∧
        (processInputBuffer c s now).2.2 = .reply) := by
  unfold processInputBuffer
  generalize c.processRequestBuffer s now = x
  obtain ⟨ans, s⟩ := x
  cases ans with
  | incomplete => exact .inl ⟨rfl, by simp⟩
  | error => exact .inl ⟨rfl, by simp⟩
  | quit => exact .inl ⟨rfl, by simp⟩
  | value uuid =>
    refine .inr ⟨rfl, writing_of_reply (.value uuid) ?_ rfl hpos, rfl⟩
    simp only [Answer.wbuf, List.append_assoc]
    exact length_text_append_pos (by decide) _
  | stats s =>
    refine .inr ⟨rfl, writing_of_reply (.stats s) ?_ rfl hpos, rfl⟩
    simp only [Answer.wbuf, List.append_assoc]
    exact length_text_append_pos (by decide) _

/-- What `readQueryFromClient` does with a client that is registered for reading: the client waits
for more, is about to be written to, or is freed. -/
theorem readQueryFromClient_spec {c : RedisClient} (hc : c.Reading) (s : Server) (r : ReadResult)
    (now : ℕ) :
    (readQueryFromClient c s r now).1.fd = c.fd ∧
      match (readQueryFromClient c s r now).2.2 with
      | .wait => (readQueryFromClient c s r now).1.Reading
      | .reply => (readQueryFromClient c s r now).1.Writing
      | .free => True := by
  cases r with
  | error => exact ⟨rfl, trivial⟩
  | eof => exact ⟨rfl, trivial⟩
  | eagain => exact ⟨rfl, hc⟩
  | data bytes =>
    simp only [readQueryFromClient]
    split_ifs with hlen
    · exact ⟨rfl, trivial⟩
    · have hdata := hc.data bytes (by omega)
      rcases processInputBuffer_spec hdata.wpos_eq s now with ⟨heq, hne⟩ | ⟨hfd, hw, hact⟩
      · rw [heq]
        refine ⟨rfl, ?_⟩
        split
        · exact hdata
        · contradiction
        · trivial
      · rw [hact]
        exact ⟨hfd, hw⟩

/-- What `sendReplyToClient` does with a client that is registered for writing. -/
theorem sendReplyToClient_spec {c : RedisClient} (hc : c.Writing) {r : WriteResult}
    (hr : r.Valid (c.wlen - c.wpos)) :
    (sendReplyToClient c r).1.fd = c.fd ∧
      match (sendReplyToClient c r).2 with
      | .wait => (sendReplyToClient c r).1.Writing
      | .reset => (sendReplyToClient c r).1.Reading
      | .free => True := by
  have hlt := hc.wpos_lt
  cases r with
  | error => exact ⟨rfl, trivial⟩
  | eagain =>
    rw [sendReplyToClient, if_neg hlt.ne]
    exact ⟨rfl, hc⟩
  | wrote n =>
    simp only [sendReplyToClient]
    split_ifs with hall
    · exact ⟨rfl, reading_of_zero rfl rfl rfl⟩
    · -- Not more is written than there is.
      have hle : n ≤ c.wlen - c.wpos := hr
      have hne : c.wpos + n ≠ c.wlen := hall
      exact ⟨rfl, ⟨by change c.wpos + n < c.wlen; omega, hc.wlen_le⟩⟩

/-! ## The clients -/

/-- The clients as items in the event table. -/
def Process.custody (s : Process) : Custody Addr ℕ where
  key a := (s.heap a).map RedisClient.fd
  slot fd := (s.events fd).client
  out _ := 0

/-- A client is registered for reading or for writing, and not for both. -/
def RedisClient.Registered (c : RedisClient) (e : FileEvent) : Prop :=
  (e.readable = true ∧ e.writable = false ∧ c.Reading) ∨
    (e.readable = false ∧ e.writable = true ∧ c.Writing)

/-- What holds of the process at all times. -/
structure Process.Inv (s : Process) : Prop where
  /-- Every client is in the event table at its descriptor. -/
  custody : s.custody.Inv
  /-- A client is registered for what it waits for. -/
  registered : ∀ a c, s.heap a = some c → c.Registered (s.events c.fd)
  /-- `server.clients` is the number of the live clients. -/
  clients : ∃ live : Finset Addr, (∀ a, a ∈ live ↔ (s.heap a).isSome) ∧
    s.globals.clients = live.card

/-- What is registered is a live client, with that descriptor. -/
theorem Process.Inv.client {s : Process} (hs : s.Inv) {fd : ℕ} {a : Addr}
    (h : (s.events fd).client = some a) : ∃ c, s.heap a = some c ∧ c.fd = fd :=
  Option.map_eq_some_iff.mp (hs.custody.slot fd a h)

/-- A live client is in the table. -/
theorem Process.Inv.home {s : Process} (hs : s.Inv) {a : Addr} {c : RedisClient}
    (hc : s.heap a = some c) : (s.events c.fd).client = some a :=
  hs.custody.home a c.fd (by simp [Process.custody, hc]) rfl

/-- No two clients have one descriptor. -/
theorem Process.Inv.addr_unique {s : Process} (hs : s.Inv) {a b : Addr} {c d : RedisClient}
    (hc : s.heap a = some c) (hd : s.heap b = some d) (h : c.fd = d.fd) : a = b :=
  hs.custody.key a b c.fd (by simp [Process.custody, hc]) (by simp [Process.custody, hd, h])

/-- A step that changes one client's record and its registration. -/
theorem Process.Inv.change {s t : Process} (hs : s.Inv) {a : Addr} {c c' : RedisClient}
    (hc : s.heap a = some c) (hfd : c'.fd = c.fd)
    (hheap : t.heap = Function.update s.heap a (some c'))
    (hev : ∀ k, k ≠ c.fd → t.events k = s.events k) (hdata : (t.events c.fd).clientData = a)
    (hreg : c'.Registered (t.events c.fd)) (hclients : t.globals.clients = s.globals.clients) :
    t.Inv where
  custody := by
    have hclient : (t.events c.fd).client = some a := by
      refine FileEvent.client_eq_some.mpr ⟨?_, hdata⟩
      rcases hreg with ⟨hr, -, -⟩ | ⟨-, hw, -⟩
      · exact .inl hr
      · exact .inr hw
    have heq : t.custody = s.custody := by
      refine Custody.ext (funext fun b => ?_) (funext fun k => ?_) rfl
      · simp only [Process.custody, hheap]
        by_cases hb : b = a
        · rw [hb, Function.update_self, hc, Option.map_some, Option.map_some, hfd]
        · rw [Function.update_of_ne hb]
      · simp only [Process.custody]
        by_cases hk : k = c.fd
        · rw [hk, hclient, hs.home hc]
        · rw [hev k hk]
    rw [heq]
    exact hs.custody
  registered b d hd := by
    rw [hheap] at hd
    by_cases hb : b = a
    · rw [hb, Function.update_self] at hd
      obtain rfl := Option.some.inj hd
      rw [hfd]
      exact hreg
    · rw [Function.update_of_ne hb] at hd
      rw [hev _ fun h => hb (hs.addr_unique hd hc h)]
      exact hs.registered b d hd
  clients := by
    obtain ⟨live, hlive, hcard⟩ := hs.clients
    refine ⟨live, fun b => ?_, hclients.trans hcard⟩
    rw [hlive, hheap]
    by_cases hb : b = a
    · simp [hb, hc]
    · rw [Function.update_of_ne hb]

/-- `createClient` adds a client, which is registered for reading. -/
theorem Process.Inv.createClient {s : Process} (hs : s.Inv) {fd : ℕ} {a : Addr}
    (ha : s.heap a = none) (hfd : ∀ b c, s.heap b = some c → c.fd ≠ fd) :
    (createClient s fd a).Inv where
  custody := by
    have hkey : ∀ b, s.custody.key b ≠ some fd := by
      intro b hb
      obtain ⟨c, hc, hcfd⟩ := Option.map_eq_some_iff.mp hb
      exact hfd b c hc hcfd
    have heq : (RedisUuid.createClient s fd a).custody = s.custody.create a fd := by
      refine Custody.ext (funext fun b => ?_) (funext fun k => ?_) rfl
      · simp only [Process.custody, RedisUuid.createClient, Process.setClient, Custody.create]
        by_cases hb : b = a <;> simp [hb]
      · simp only [Process.custody, RedisUuid.createClient, Custody.create]
        by_cases hk : k = fd
        · simp [hk, FileEvent.client]
        · simp [hk]
    rw [heq]
    exact hs.custody.create (by simp [Process.custody, ha]) hkey
  registered b c hc := by
    simp only [RedisUuid.createClient, Process.setClient] at hc ⊢
    by_cases hb : b = a
    · rw [hb, Function.update_self] at hc
      obtain rfl := Option.some.inj hc
      have hnone : (s.events fd).client = none := by
        by_contra h
        obtain ⟨b, hb⟩ := Option.ne_none_iff_exists'.mp h
        obtain ⟨c, hc, hcfd⟩ := hs.client hb
        exact hfd b c hc hcfd
      refine .inl ⟨by simp, ?_, reading_of_zero rfl rfl rfl⟩
      simpa using (FileEvent.client_eq_none.mp hnone).2
    · rw [Function.update_of_ne hb] at hc
      rw [aeCreateFileEvent_of_ne (hfd b c hc)]
      exact hs.registered b c hc
  clients := by
    obtain ⟨live, hlive, hcard⟩ := hs.clients
    have hnot : a ∉ live := by simp [hlive, ha]
    refine ⟨insert a live, fun b => ?_, ?_⟩
    · simp only [RedisUuid.createClient, Process.setClient, Finset.mem_insert, hlive]
      by_cases hb : b = a
      · simp [hb]
      · rw [Function.update_of_ne hb]
        simp [hb]
    · rw [Finset.card_insert_of_notMem hnot, ← hcard]
      rfl

/-- `freeClient` removes a client. -/
theorem Process.Inv.freeClient {s : Process} (hs : s.Inv) {a : Addr} {c : RedisClient}
    (hc : s.heap a = some c) : (freeClient s a c).Inv where
  custody := by
    have heq : (RedisUuid.freeClient s a c).custody = s.custody.destroy a c.fd := by
      refine Custody.ext (funext fun b => ?_) (funext fun k => ?_) rfl
      · simp only [Process.custody, RedisUuid.freeClient, Custody.destroy]
        by_cases hb : b = a <;> simp [hb]
      · simp only [Process.custody, RedisUuid.freeClient, Custody.destroy]
        by_cases hk : k = c.fd
        · simp [hk, FileEvent.client]
        · simp [hk]
    rw [heq]
    exact hs.custody.destroy (hs.home hc)
  registered b d hd := by
    simp only [RedisUuid.freeClient] at hd ⊢
    by_cases hb : b = a
    · rw [hb, Function.update_self] at hd
      cases hd
    · rw [Function.update_of_ne hb] at hd
      have hne : d.fd ≠ c.fd := fun h => hb (hs.addr_unique hd hc h)
      rw [aeDeleteFileEvent_of_ne hne, aeDeleteFileEvent_of_ne hne]
      exact hs.registered b d hd
  clients := by
    obtain ⟨live, hlive, hcard⟩ := hs.clients
    have hmem : a ∈ live := by simp [hlive, hc]
    refine ⟨live.erase a, fun b => ?_, ?_⟩
    · simp only [RedisUuid.freeClient, Finset.mem_erase, hlive]
      by_cases hb : b = a
      · simp [hb]
      · rw [Function.update_of_ne hb]
        simp [hb]
    · rw [Finset.card_erase_of_mem hmem, ← hcard]
      rfl

/-- The globals of the process change, and `server.clients` does not. -/
theorem Process.Inv.setGlobals {s : Process} (hs : s.Inv) (globals : Server)
    (h : globals.clients = s.globals.clients) : Process.Inv { s with globals } := by
  obtain ⟨live, hlive, hcard⟩ := hs.clients
  exact ⟨hs.custody, hs.registered, live, hlive, h.trans hcard⟩

/-- `acceptHandler` keeps the invariant, also when there are too many clients. -/
theorem Process.Inv.acceptClient {s : Process} (hs : s.Inv) (maxclients : ℕ) {fd : ℕ} {a : Addr}
    (ha : s.heap a = none) (hfd : ∀ b c, s.heap b = some c → c.fd ≠ fd) :
    (acceptClient maxclients s fd a).Inv := by
  have hcreate := (hs.createClient ha hfd).setGlobals
    { (RedisUuid.createClient s fd a).globals with
      stat_numconnections := (RedisUuid.createClient s fd a).globals.stat_numconnections + 1 } rfl
  unfold RedisUuid.acceptClient
  dsimp only
  split_ifs
  · exact hcreate.freeClient (Function.update_self ..)
  · exact hcreate

/-- A client whose record has just changed is freed. -/
theorem freeClient_setClient (s : Process) (a : Addr) {c c' : RedisClient} (hfd : c'.fd = c.fd) :
    freeClient (s.setClient a c') a c' = freeClient s a c := by
  simp [freeClient, Process.setClient, Function.update_idem, hfd]

/-- A registered client is the one of the event. -/
theorem Process.Inv.event {s : Process} (hs : s.Inv) {fd : ℕ} {c : RedisClient}
    (h : (s.events fd).readable = true ∨ (s.events fd).writable = true)
    (hc : s.heap (s.events fd).clientData = some c) : c.fd = fd := by
  obtain ⟨d, hd, hdfd⟩ := hs.client (FileEvent.client_eq_some.mpr ⟨h, rfl⟩)
  rw [← Option.some.inj (hd.symm.trans hc), hdfd]

/-- The handler of a readable client keeps the invariant. -/
theorem Process.Inv.read {s : Process} (hs : s.Inv) {a : Addr} {c : RedisClient}
    (hc : s.heap a = some c) (hdata : (s.events c.fd).clientData = a)
    (hr : (s.events c.fd).readable = true) (r : ReadResult) (now : ℕ)
    (hclients : (readQueryFromClient c s.globals r now).2.1.clients = s.globals.clients) :
    Process.Inv ((readQueryFromClient c s.globals r now).2.2.carryOut
      ({ s with globals := (readQueryFromClient c s.globals r now).2.1 }.setClient a
        (readQueryFromClient c s.globals r now).1) a
      (readQueryFromClient c s.globals r now).1) := by
  have hreading : c.Reading ∧ (s.events c.fd).writable = false := by
    rcases hs.registered a c hc with ⟨-, hw, hreading⟩ | ⟨hnot, -, -⟩
    · exact ⟨hreading, hw⟩
    · rw [hr] at hnot
      cases hnot
  have hspec := readQueryFromClient_spec hreading.1 s.globals r now
  generalize readQueryFromClient c s.globals r now = x at hclients hspec ⊢
  obtain ⟨c', globals, act⟩ := x
  obtain ⟨hfd, hact⟩ := hspec
  dsimp only at hclients hfd hact ⊢
  have hg := hs.setGlobals _ hclients
  cases act with
  | wait =>
    exact hg.change hc hfd rfl (fun _ _ => rfl) hdata (.inl ⟨hr, hreading.2, hact⟩) rfl
  | reply =>
    refine hg.change hc hfd rfl (fun k hk => ?_) ?_ (.inr ⟨?_, ?_, hact⟩) rfl
    · simp only [ReadAction.carryOut, Process.setClient, hfd]
      rw [aeCreateFileEvent_of_ne hk, aeDeleteFileEvent_of_ne hk]
    all_goals simp [ReadAction.carryOut, Process.setClient, hfd]
  | free =>
    rw [ReadAction.carryOut, freeClient_setClient _ a hfd]
    exact hg.freeClient hc

/-- The handler of a writable client keeps the invariant. -/
theorem Process.Inv.write {s : Process} (hs : s.Inv) {a : Addr} {c : RedisClient}
    (hc : s.heap a = some c) (hdata : (s.events c.fd).clientData = a)
    (hw : (s.events c.fd).writable = true) {r : WriteResult} (hr : r.Valid (c.wlen - c.wpos)) :
    Process.Inv ((sendReplyToClient c r).2.carryOut (s.setClient a (sendReplyToClient c r).1) a
      (sendReplyToClient c r).1) := by
  have hwriting : c.Writing ∧ (s.events c.fd).readable = false := by
    rcases hs.registered a c hc with ⟨-, hnot, -⟩ | ⟨hr, -, hwriting⟩
    · rw [hw] at hnot
      cases hnot
    · exact ⟨hwriting, hr⟩
  have hspec := sendReplyToClient_spec hwriting.1 hr
  generalize sendReplyToClient c r = x at hspec ⊢
  obtain ⟨c', act⟩ := x
  obtain ⟨hfd, hact⟩ := hspec
  dsimp only at hfd hact ⊢
  cases act with
  | wait =>
    exact hs.change hc hfd rfl (fun _ _ => rfl) hdata (.inr ⟨hwriting.2, hw, hact⟩) rfl
  | reset =>
    refine hs.change hc hfd rfl (fun k hk => ?_) ?_ (.inl ⟨?_, ?_, hact⟩) rfl
    · simp only [WriteAction.carryOut, Process.setClient, hfd]
      rw [aeCreateFileEvent_of_ne hk, aeDeleteFileEvent_of_ne hk, aeDeleteFileEvent_of_ne hk]
    all_goals simp [WriteAction.carryOut, Process.setClient, hfd]
  | free =>
    rw [WriteAction.carryOut, freeClient_setClient _ a hfd]
    exact hs.freeClient hc

/-! ## The string functions and the buffer -/

/-- The buffer is what has been read, and zeros. -/
theorem RedisClient.Reading.rbuf_eq {c : RedisClient} (hc : c.Reading) :
    ∃ rest, c.rbuf = c.rbuf.take c.rlen ++ 0 :: rest := by
  have hlen := hc.length_rbuf
  have hle := hc.rlen_le
  simp only [READ_BUF_LEN] at hlen
  have hlt : c.rlen < c.rbuf.length := by omega
  have hzero : c.rbuf[c.rlen] = 0 := by
    have := hc.zero c.rlen le_rfl (by simp only [READ_BUF_LEN]; omega)
    rw [List.getElem?_eq_getElem hlt] at this
    exact Option.some.inj this
  refine ⟨c.rbuf.drop (c.rlen + 1), ?_⟩
  rw [← hzero, ← List.drop_eq_getElem_cons hlt, List.take_append_drop]

/-- The string functions see what has been read, and nothing else. -/
theorem processRequestBuffer_eq {c : RedisClient} (hc : c.Reading) (s : Server) (now : ℕ) :
    c.processRequestBuffer s now = processRequestBuffer s now (c.rbuf.take c.rlen) := by
  have hlen : (c.rbuf.take c.rlen).length = c.rlen := by
    have hlen := hc.length_rbuf
    have hle := hc.rlen_le
    simp only [READ_BUF_LEN] at hlen
    rw [List.length_take]
    omega
  obtain ⟨rest, hrbuf⟩ := hc.rbuf_eq
  have hstr : strstrCrlf c.rbuf = strstrCrlf (c.rbuf.take c.rlen) := by
    rw [hrbuf, strstrCrlf_append_nul, ← hrbuf]
  have hcstr : cstr c.rbuf = cstr (c.rbuf.take c.rlen) := by
    rw [hrbuf, cstr_append_nul, ← hrbuf]
  unfold RedisClient.processRequestBuffer processRequestBuffer strcasecmpEq strncasecmpEq
  cases hfind : strstrCrlf (c.rbuf.take c.rlen) with
  | none => simp only [hstr, hfind]
  | some n => simp only [hstr, hcstr, hlen, hfind]

/-- What `ProcessRequestBuffer` does to the globals is a `request` of `Server.step`. -/
theorem processInputBuffer_globals {c : RedisClient} (hc : c.Reading) (s : Server) (now : ℕ) :
    (processInputBuffer c s now).2.1 = (s.step (.request now (c.rbuf.take c.rlen))).2 := by
  unfold processInputBuffer Server.step
  dsimp only
  rw [processRequestBuffer_eq hc]
  generalize processRequestBuffer s now (c.rbuf.take c.rlen) = x
  obtain ⟨ans, s⟩ := x
  cases ans <;> rfl

/-- What `readQueryFromClient` does to the globals: nothing, or one `request`. -/
theorem readQueryFromClient_globals {c : RedisClient} (hc : c.Reading) (s : Server)
    (r : ReadResult) (now : ℕ) :
    (readQueryFromClient c s r now).2.1 = s ∨
      ∃ rbuf, (readQueryFromClient c s r now).2.1 = (s.step (.request now rbuf)).2 := by
  cases r with
  | error => exact .inl rfl
  | eof => exact .inl rfl
  | eagain => exact .inl rfl
  | data bytes =>
    simp only [readQueryFromClient]
    split_ifs with hlen
    · exact .inl rfl
    · exact .inr ⟨_, processInputBuffer_globals (hc.data _ (by omega)) s now⟩

/-- A `request` leaves `server.clients` as it is. -/
theorem clients_request (s : Server) (now : ℕ) (rbuf : Bytes) :
    (s.step (.request now rbuf)).2.clients = s.clients := by
  rcases processRequestBuffer_cases s now rbuf with ⟨a, ha, heq⟩ | heq
  · simp only [Server.step, heq]
  · simp only [Server.step, heq]

/-- The invariant is kept by every event. -/
theorem Process.Inv.step {maxclients : ℕ} {s t : Process} {l : Label} (hs : s.Inv)
    (hl : s.ValidStep l) (h : processStep maxclients s l = some t) : t.Inv := by
  cases l with
  | accept fd a registered =>
    unfold processStep at h
    split at h
    · rename_i heq
      obtain ⟨rfl, rfl, rfl⟩ := Label.accept.inj heq
      obtain rfl := Option.some.inj h
      exact hs.acceptClient maxclients (hl.1 _ rfl) hl.2
    · obtain rfl := Option.some.inj h
      exact hs
    · contradiction
    · contradiction
  | readable fd r now =>
    simp only [processStep] at h
    split_ifs at h with hr
    split at h
    case h_1 => cases h
    case h_2 c hc =>
      obtain rfl := hs.event (.inl hr) hc
      rw [← Option.some.inj h]
      refine hs.read hc rfl hr r now ?_
      have hreading : c.Reading := by
        rcases hs.registered _ c hc with ⟨-, -, hreading⟩ | ⟨hnot, -, -⟩
        · exact hreading
        · rw [hr] at hnot
          cases hnot
      rcases readQueryFromClient_globals hreading s.globals r now with heq | ⟨rbuf, heq⟩
      · rw [heq]
      · rw [heq, clients_request]
  | writable fd r =>
    simp only [processStep] at h
    split_ifs at h with hw
    split at h
    case h_1 => cases h
    case h_2 c hc =>
      obtain rfl := hs.event (.inr hw) hc
      rw [← Option.some.inj h]
      exact hs.write hc rfl hw (hl c hc)

/-- What the handling of an event does to the globals of the process is what events of
`Server.step` do. -/
theorem Process.Inv.globals_step {maxclients : ℕ} {s t : Process} {l : Label} (hs : s.Inv)
    (h : processStep maxclients s l = some t) :
    ∃ es : List Event, t.globals = es.foldl (fun s e => (s.step e).2) s.globals := by
  cases l with
  | accept fd a registered =>
    unfold processStep at h
    split at h
    · obtain rfl := Option.some.inj h
      unfold RedisUuid.acceptClient
      dsimp only
      split_ifs
      · exact ⟨[.accept, .free], rfl⟩
      · exact ⟨[.accept], rfl⟩
    · obtain rfl := Option.some.inj h
      exact ⟨[], rfl⟩
    · contradiction
    · contradiction
  | readable fd r now =>
    simp only [processStep] at h
    split_ifs at h with hr
    split at h
    case h_1 => cases h
    case h_2 c hc =>
      obtain rfl := hs.event (.inl hr) hc
      have hreading : c.Reading := by
        rcases hs.registered _ c hc with ⟨-, -, hreading⟩ | ⟨hnot, -, -⟩
        · exact hreading
        · rw [hr] at hnot
          cases hnot
      -- First the request, if there is one, and then `freeClient`, if it is called.
      have hread : ∃ es : List Event, (readQueryFromClient c s.globals r now).2.1 =
          es.foldl (fun s e => (s.step e).2) s.globals := by
        rcases readQueryFromClient_globals hreading s.globals r now with heq | ⟨rbuf, heq⟩
        · exact ⟨[], heq⟩
        · exact ⟨[.request now rbuf], heq⟩
      obtain ⟨es, hes⟩ := hread
      rw [← Option.some.inj h]
      cases (readQueryFromClient c s.globals r now).2.2 with
      | wait => exact ⟨es, hes⟩
      | reply => exact ⟨es, hes⟩
      | free =>
        refine ⟨es ++ [.free], ?_⟩
        rw [List.foldl_append, ← hes]
        rfl
  | writable fd r =>
    simp only [processStep] at h
    split_ifs at h
    split at h
    case h_1 => cases h
    case h_2 c hc =>
      rw [← Option.some.inj h]
      cases (sendReplyToClient c r).2 with
      | wait => exact ⟨[], rfl⟩
      | reset => exact ⟨[], rfl⟩
      | free => exact ⟨[.free], rfl⟩

/-- A process that has been started has no client. -/
theorem Process.inv_init {opts : List Opt} {globals : Server} (h : main opts = some globals) :
    Process.Inv { globals } := by
  have hclients : globals.clients = 0 := by
    obtain ⟨mid, -, h⟩ := Option.bind_eq_some_iff.mp h
    split at h
    · cases h
    · obtain rfl := Option.some.inj h
      rfl
  refine ⟨⟨fun a => Nat.zero_le _, fun a ha => ?_, fun a k hk => ?_, fun k a hk => ?_,
    fun a b k hk => ?_⟩, fun a c hc => ?_, ∅, fun a => ?_, hclients⟩
  · exact absurd ha (lt_irrefl 0)
  · simp [Process.custody] at hk
  · simp [Process.custody, FileEvent.client] at hk
  · simp [Process.custody] at hk
  · cases hc
  · simp

/-- In every state that the process can reach: a client that is registered for reading has room for
a byte, and zeros behind what has been read; one that is registered for writing has something to
write, of 510 bytes at most; no client is registered for both; what is registered is a live client;
and `server.clients` is the number of the live clients. -/
theorem connections_inv (maxclients : ℕ) (s : Process)
    (h : (connectionSystem maxclients).Reach Process.ValidStep s) :
    (∀ a c, s.heap a = some c →
      ((s.events c.fd).readable = true → c.rlen ≤ 62 ∧ c.rbuf.length = 64 ∧
        ∀ i, c.rlen ≤ i → i < 64 → c.rbuf[i]? = some 0) ∧
      ((s.events c.fd).writable = true → c.wpos < c.wlen ∧ c.wlen ≤ 510) ∧
      ¬ ((s.events c.fd).readable = true ∧ (s.events c.fd).writable = true)) ∧
    (∀ fd a, (s.events fd).client = some a → ∃ c, s.heap a = some c ∧ c.fd = fd) ∧
    ∃ live : Finset Addr, (∀ a, a ∈ live ↔ (s.heap a).isSome) ∧
      s.globals.clients = live.card := by
  have hs : s.Inv := by
    refine h.invariant ?_ fun s l t hs hl h => hs.step hl h
    rintro s ⟨opts, globals, hmain, rfl⟩
    exact Process.inv_init hmain
  refine ⟨fun a c hc => ?_, fun fd a h => hs.client h, hs.clients⟩
  rcases hs.registered a c hc with ⟨hr, hw, hreading⟩ | ⟨hr, hw, hwriting⟩
  · refine ⟨fun _ => ⟨hreading.rlen_le, hreading.length_rbuf, hreading.zero⟩, fun h => ?_, ?_⟩
    · rw [hw] at h
      cases h
    · simp [hw]
  · refine ⟨fun h => ?_, fun _ => ⟨hwriting.wpos_lt, hwriting.wlen_le⟩, ?_⟩
    · rw [hr] at h
      cases h
    · simp [hr]

/-- A client connects and sends a `get`. -/
def getLabels : List Label :=
  [.accept 5 (some 1) true, .readable 5 (.data (text "get uuid\r\n")) 1700000000]

/-- The client is registered for writing, and there is one. -/
theorem connections_inv_get : ∃ s : Process,
    (connectionSystem 1024).run { globals := ⟨3, 0, 0, 0, 0⟩ } getLabels = some s ∧
      (∃ c, s.heap 1 = some c ∧ c.wpos < c.wlen ∧ c.wlen ≤ 510) ∧
      ∃ live : Finset Addr, (∀ a, a ∈ live ↔ (s.heap a).isSome) ∧
        s.globals.clients = live.card := by
  have hmain : main [.u (decimal 3)] = some ⟨3, 0, 0, 0, 0⟩ := main_u (by decide)
  have hrun : ((connectionSystem 1024).run { globals := ⟨3, 0, 0, 0, 0⟩ } getLabels).map
      (fun s => ((s.heap 1).map RedisClient.fd, (s.events 5).writable)) = some (some 5, true) := by
    decide +kernel
  obtain ⟨s, hs, h⟩ := Option.map_eq_some_iff.mp hrun
  obtain ⟨hheap, hw⟩ := Prod.mk.inj h
  obtain ⟨c, hc, hfd⟩ := Option.map_eq_some_iff.mp hheap
  have hok : (connectionSystem 1024).RunOk Process.ValidStep { globals := ⟨3, 0, 0, 0, 0⟩ }
      getLabels := by
    refine ⟨⟨fun _ _ => rfl, fun b c hc => by cases hc⟩, fun t ht => ⟨?_, fun _ _ => trivial⟩⟩
    obtain rfl := Option.some.inj ht
    intro c hc
    obtain rfl := Option.some.inj hc
    exact ⟨by decide, by decide⟩
  have hinv := connections_inv 1024 s (.run (.init ⟨_, _, hmain, rfl⟩) hok hs)
  refine ⟨s, hs, ⟨c, hc, (hinv.1 1 c hc).2.1 ?_⟩, hinv.2.2⟩
  rw [hfd]
  exact hw

end MgCommonUtils.RedisUuid
