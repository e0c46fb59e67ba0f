import MgCommonUtils.Lib.Channel
import MgCommonUtils.Lib.CString
import MgCommonUtils.Lib.Transition

/-!
# The tunnel

The two workers of `tcpipe`, `sock4aWorker` of `client.cpp` and of `server.cpp`, and the browser and
the target at the ends. A browser talks to the client's worker, that one to the server's worker over
a connection of theirs, and that one to the target. Between the workers, every byte is shifted by
three.

The loops of the workers are the same but for what they do to the bytes of either direction
(`relayWorker`). A worker polls its two sockets, reads from one of them, and writes what it has read
to the other, in several writes if need be; it closes both when a read or a write fails. The
connections are channels of `Lib.Channel`, and a worker is a relay of that library in each direction
(`Tunnel.Inv`). So what the target has received is a prefix of what the browser has sent, shifted
there and back, and the same holds of the other direction (`tunnel_transparent`).
-/

namespace MgCommonUtils.Tcpipe

open MgCommonUtils.Lib

/-! ## The model -/

/-- `BUF_SIZE`. -/
def BUF_SIZE : ℕ := 65536

/-- `simpleEncode`. -/
def simpleEncode (str : Bytes) : Bytes := str.map fun c => c + 3

/-- `simpleDecode`. -/
def simpleDecode (str : Bytes) : Bytes := str.map fun c => c - 3

/-- Where a worker is. -/
inductive WorkerPc where
  /-- Before its loop. -/
  | starting
  /-- In `poll`. -/
  | polling
  /-- Before it reads from the first socket. The flag says whether the second is ready, too. -/
  | reading0 (revents1 : Bool)
  /-- In `anetWrite` to the second socket, with the rest of the buffer. -/
  | writing0 (rest : Bytes) (revents1 : Bool)
  /-- Before it reads from the second socket. -/
  | reading1
  /-- In `anetWrite` to the first socket, with the rest of the buffer. -/
  | writing1 (rest : Bytes)
  /-- It has closed both sockets and returned. -/
  | closed
  deriving DecidableEq, Repr

/-- The steps of a worker. -/
inductive WorkerAct where
  /-- It has connected its second socket, or failed to. -/
  | start (ok : Bool)
  /-- `poll` returns, with what it says of the two sockets. -/
  | poll (revents0 revents1 : Bool)
  /-- `read` returns `n` bytes. -/
  | read (n : ℕ)
  /-- `read` returns 0 or fails. -/
  | readEnd
  /-- `write` accepts `n` bytes. -/
  | write (n : ℕ)
  /-- `write` accepts nothing or fails. -/
  | writeEnd
  deriving DecidableEq, Repr

/-- The connections behind the two sockets of a worker, in both directions. -/
structure Sockets where
  /-- What arrives at the first socket. -/
  in0 : Channel UInt8
  /-- What is sent from the first socket. -/
  out0 : Channel UInt8
  /-- What arrives at the second socket. -/
  in1 : Channel UInt8
  /-- What is sent from the second socket. -/
  out1 : Channel UInt8

/-- After the first socket has been handled. -/
def afterFirst (revents1 : Bool) : WorkerPc := if revents1 then .reading1 else .polling

/-- A step of a worker, which applies `code0` to what it reads from the first socket and `code1` to
what it reads from the second. -/
def relayWorker (code0 code1 : Bytes → Bytes) (k : Sockets) :
    WorkerPc → WorkerAct → Option (WorkerPc × Sockets)
  | .starting, .start ok => some (if ok then .polling else .closed, k)
  | .polling, .poll revents0 revents1 =>
    some (if revents0 then .reading0 revents1 else afterFirst revents1, k)
  | .reading0 revents1, .read n =>
    if 0 < n ∧ n ≤ BUF_SIZE ∧ n ≤ k.in0.inFlight.length then
      let buffer := code0 (k.in0.inFlight.take n)
      some (.writing0 buffer revents1, { k with in0 := k.in0.deliver n })
    else none
  | .reading0 _, .readEnd => some (.closed, k)
  | .writing0 rest revents1, .write n =>
    if 0 < n ∧ n ≤ rest.length then
      some (if n = rest.length then afterFirst revents1 else .writing0 (rest.drop n) revents1,
        { k with out1 := k.out1.send (rest.take n) })
    else none
  | .writing0 _ _, .writeEnd => some (.closed, k)
  | .reading1, .read n =>
    if 0 < n ∧ n ≤ BUF_SIZE ∧ n ≤ k.in1.inFlight.length then
      let buffer := code1 (k.in1.inFlight.take n)
      some (.writing1 buffer, { k with in1 := k.in1.deliver n })
    else none
  | .reading1, .readEnd => some (.closed, k)
  | .writing1 rest, .write n =>
    if 0 < n ∧ n ≤ rest.length then
      some (if n = rest.length then .polling else .writing1 (rest.drop n),
        { k with out0 := k.out0.send (rest.take n) })
    else none
  | .writing1 _, .writeEnd => some (.closed, k)
  | _, _ => none

/-- `sock4aWorker` of `client.cpp`: the first socket is the browser's, the second the server's. -/
def clientWorker : Sockets → WorkerPc → WorkerAct → Option (WorkerPc × Sockets) :=
  relayWorker simpleEncode simpleDecode

/-- `sock4aWorker` of `server.cpp`: the first socket is the client's, the second the target's. -/
def serverWorker : Sockets → WorkerPc → WorkerAct → Option (WorkerPc × Sockets) :=
  relayWorker simpleDecode simpleEncode

/-- The tunnel. -/
structure Tunnel where
  /-- The worker of the client. -/
  client : WorkerPc := .starting
  /-- The worker of the server. -/
  server : WorkerPc := .starting
  /-- From the browser to the client. -/
  fromBrowser : Channel UInt8 := {}
  /-- From the client to the server. -/
  up : Channel UInt8 := {}
  /-- From the server to the target. -/
  toTarget : Channel UInt8 := {}
  /-- From the target to the server. -/
  fromTarget : Channel UInt8 := {}
  /-- From the server to the client. -/
  down : Channel UInt8 := {}
  /-- From the client to the browser. -/
  toBrowser : Channel UInt8 := {}

/-- The steps. -/
inductive TunnelLabel where
  /-- The browser sends. -/
  | browserSend (bytes : Bytes)
  /-- The browser receives. -/
  | browserReceive (n : ℕ)
  /-- The target sends. -/
  | targetSend (bytes : Bytes)
  /-- The target receives. -/
  | targetReceive (n : ℕ)
  /-- A step of the client's worker. -/
  | client (act : WorkerAct)
  /-- A step of the server's worker. -/
  | server (act : WorkerAct)

/-- The sockets of the client's worker. -/
def Tunnel.clientSockets (s : Tunnel) : Sockets where
  in0 := s.fromBrowser
  out0 := s.toBrowser
  in1 := s.down
  out1 := s.up

/-- The sockets of the server's worker. -/
def Tunnel.serverSockets (s : Tunnel) : Sockets where
  in0 := s.up
  out0 := s.down
  in1 := s.fromTarget
  out1 := s.toTarget

/-- A step. -/
def tunnelStep (s : Tunnel) : TunnelLabel → Option Tunnel
  | .browserSend bytes => some { s with fromBrowser := s.fromBrowser.send bytes }
  | .browserReceive n => some { s with toBrowser := s.toBrowser.deliver n }
  | .targetSend bytes => some { s with fromTarget := s.fromTarget.send bytes }
  | .targetReceive n => some { s with toTarget := s.toTarget.deliver n }
  | .client act =>
    (clientWorker s.clientSockets s.client act).map fun (pc, k) =>
      { s with
        client := pc, fromBrowser := k.in0, toBrowser := k.out0, down := k.in1, up := k.out1 }
  | .server act =>
    (serverWorker s.serverSockets s.server act).map fun (pc, k) =>
      { s with server := pc, up := k.in0, down := k.out0, fromTarget := k.in1, toTarget := k.out1 }

/-- The tunnel before anything has been sent. -/
def tunnelSystem : Lts Tunnel TunnelLabel where
  init s := s = {}
  step := tunnelStep

/-! ## A worker is a relay in each direction -/

/-- What a worker holds of what it has read from the first socket, unless it has closed. -/
def WorkerPc.held0 : WorkerPc → Option Bytes
  | .writing0 rest _ => some rest
  | .closed => none
  | _ => some []

/-- What a worker holds of what it has read from the second socket, unless it has closed. -/
def WorkerPc.held1 : WorkerPc → Option Bytes
  | .writing1 rest => some rest
  | .closed => none
  | _ => some []

/-- A worker is a relay in each direction. -/
structure Relaying (f0 f1 : UInt8 → UInt8) (pc : WorkerPc) (k : Sockets) : Prop where
  /-- From the first socket to the second. -/
  forth : k.in0.Relays f0 k.out1 pc.held0
  /-- From the second socket to the first. -/
  back : k.in1.Relays f1 k.out0 pc.held1

/-- A worker only takes from what arrives, and only sends. -/
structure Sockets.Behind (k k' : Sockets) : Prop where
  /-- What has been sent to the first socket stays. -/
  in0 : k'.in0.sent = k.in0.sent
  /-- What has been sent to the second socket stays. -/
  in1 : k'.in1.sent = k.in1.sent
  /-- What has been delivered from the first socket stays. -/
  out0 : k'.out0.delivered = k.out0.delivered
  /-- What has been delivered from the second socket stays. -/
  out1 : k'.out1.delivered = k.out1.delivered

/-- Nothing happens at the sockets. -/
theorem Sockets.Behind.refl (k : Sockets) : k.Behind k := ⟨rfl, rfl, rfl, rfl⟩

variable {f0 f1 : UInt8 → UInt8} {pc : WorkerPc} {k : Sockets}

/-- A worker goes on without bytes in its hands. -/
theorem Relaying.move (h : Relaying f0 f1 pc k) {pc' : WorkerPc} (h0 : pc'.held0 = pc.held0)
    (h1 : pc'.held1 = pc.held1) : Relaying f0 f1 pc' k :=
  ⟨by rw [h0]; exact h.forth, by rw [h1]; exact h.back⟩

/-- A worker closes its sockets. -/
theorem Relaying.close (h : Relaying f0 f1 pc k) : Relaying f0 f1 .closed k :=
  ⟨h.forth.stop, h.back.stop⟩

/-- After the first socket, a worker holds nothing. -/
theorem held_afterFirst (revents1 : Bool) :
    (afterFirst revents1).held0 = some [] ∧ (afterFirst revents1).held1 = some [] := by
  cases revents1 <;> exact ⟨rfl, rfl⟩

/-- A worker stays a relay in each direction. -/
theorem Relaying.step (h : Relaying f0 f1 pc k) {act : WorkerAct} {pc' : WorkerPc} {k' : Sockets}
    (hstep : relayWorker (List.map f0) (List.map f1) k pc act = some (pc', k')) :
    Relaying f0 f1 pc' k' ∧ k.Behind k' := by
  unfold relayWorker at hstep
  split at hstep
  case h_1 ok =>
    obtain ⟨rfl, rfl⟩ := Prod.mk.inj (Option.some.inj hstep)
    refine ⟨?_, .refl k⟩
    cases ok with
    | true => exact h.move rfl rfl
    | false => exact h.close
  case h_2 revents0 revents1 =>
    obtain ⟨rfl, rfl⟩ := Prod.mk.inj (Option.some.inj hstep)
    refine ⟨?_, .refl k⟩
    cases revents0 with
    | true => exact h.move rfl rfl
    | false => exact h.move (held_afterFirst _).1 (held_afterFirst _).2
  case h_3 revents1 n =>
    split_ifs at hstep
    obtain ⟨rfl, rfl⟩ := Prod.mk.inj (Option.some.inj hstep)
    exact ⟨⟨h.forth.take n, h.back⟩, ⟨Channel.sent_deliver _ n, rfl, rfl, rfl⟩⟩
  case h_4 =>
    obtain ⟨rfl, rfl⟩ := Prod.mk.inj (Option.some.inj hstep)
    exact ⟨h.close, .refl k⟩
  case h_5 rest revents1 n =>
    split_ifs at hstep with hn hall
    · obtain ⟨rfl, rfl⟩ := Prod.mk.inj (Option.some.inj hstep)
      -- The whole buffer has been written.
      have hforth := h.forth.send n
      rw [hall, List.drop_length] at hforth
      refine ⟨⟨?_, ?_⟩, ⟨rfl, rfl, rfl, rfl⟩⟩
      · rw [(held_afterFirst revents1).1, hall]
        exact hforth
      · rw [(held_afterFirst revents1).2]
        exact h.back
    · obtain ⟨rfl, rfl⟩ := Prod.mk.inj (Option.some.inj hstep)
      exact ⟨⟨h.forth.send n, h.back⟩, ⟨rfl, rfl, rfl, rfl⟩⟩
  case h_6 =>
    obtain ⟨rfl, rfl⟩ := Prod.mk.inj (Option.some.inj hstep)
    exact ⟨h.close, .refl k⟩
  case h_7 n =>
    split_ifs at hstep
    obtain ⟨rfl, rfl⟩ := Prod.mk.inj (Option.some.inj hstep)
    exact ⟨⟨h.forth, h.back.take n⟩, ⟨rfl, Channel.sent_deliver _ n, rfl, rfl⟩⟩
  case h_8 =>
    obtain ⟨rfl, rfl⟩ := Prod.mk.inj (Option.some.inj hstep)
    exact ⟨h.close, .refl k⟩
  case h_9 rest n =>
    split_ifs at hstep with hn hall
    · obtain ⟨rfl, rfl⟩ := Prod.mk.inj (Option.some.inj hstep)
      have hback := h.back.send n
      rw [hall, List.drop_length] at hback
      refine ⟨⟨h.forth, ?_⟩, ⟨rfl, rfl, rfl, rfl⟩⟩
      rw [hall]
      exact hback
    · obtain ⟨rfl, rfl⟩ := Prod.mk.inj (Option.some.inj hstep)
      exact ⟨⟨h.forth, h.back.send n⟩, ⟨rfl, rfl, rfl, rfl⟩⟩
  case h_10 =>
    obtain ⟨rfl, rfl⟩ := Prod.mk.inj (Option.some.inj hstep)
    exact ⟨h.close, .refl k⟩
  case h_11 => cases hstep

/-! ## The tunnel -/

/-- Both workers are relays in each direction. -/
structure Tunnel.Inv (s : Tunnel) : Prop where
  /-- The client's worker. -/
  client : Relaying (· + 3) (· - 3) s.client s.clientSockets
  /-- The server's worker. -/
  server : Relaying (· - 3) (· + 3) s.server s.serverSockets

/-- Every step keeps the workers relays. -/
theorem Tunnel.Inv.step {s t : Tunnel} {l : TunnelLabel} (hs : s.Inv)
    (h : tunnelStep s l = some t) : t.Inv := by
  cases l with
  | browserSend bytes =>
    obtain rfl := Option.some.inj h
    exact ⟨⟨hs.client.forth.congr rfl rfl, hs.client.back⟩, hs.server⟩
  | browserReceive n =>
    obtain rfl := Option.some.inj h
    exact ⟨⟨hs.client.forth, hs.client.back.congr rfl (Channel.sent_deliver _ n)⟩, hs.server⟩
  | targetSend bytes =>
    obtain rfl := Option.some.inj h
    exact ⟨hs.client, ⟨hs.server.forth, hs.server.back.congr rfl rfl⟩⟩
  | targetReceive n =>
    obtain rfl := Option.some.inj h
    exact ⟨hs.client, ⟨hs.server.forth.congr rfl (Channel.sent_deliver _ n), hs.server.back⟩⟩
  | client act =>
    obtain ⟨⟨pc, k⟩, hstep, rfl⟩ := Option.map_eq_some_iff.mp h
    obtain ⟨hclient, hbehind⟩ := hs.client.step hstep
    exact ⟨hclient, ⟨hs.server.forth.congr hbehind.out1 rfl, hs.server.back.congr rfl hbehind.in1⟩⟩
  | server act =>
    obtain ⟨⟨pc, k⟩, hstep, rfl⟩ := Option.map_eq_some_iff.mp h
    obtain ⟨hserver, hbehind⟩ := hs.server.step hstep
    exact ⟨⟨hs.client.forth.congr rfl hbehind.in0, hs.client.back.congr hbehind.out0 rfl⟩, hserver⟩

/-- At all times, what the target has received is a prefix of what the browser has sent, and what
the browser has received is a prefix of what the target has sent. -/
theorem tunnel_transparent (s : Tunnel) (h : tunnelSystem.Reachable s) :
    s.toTarget.delivered <+: s.fromBrowser.sent ∧ s.toBrowser.delivered <+: s.fromTarget.sent := by
  have hs : s.Inv := by
    refine h.invariant ?_ fun s l t hs _ h => hs.step h
    rintro s rfl
    exact ⟨⟨rfl, rfl⟩, ⟨rfl, rfl⟩⟩
  constructor
  · calc s.toTarget.delivered <+: s.up.sent.map (· - 3) := hs.server.forth.delivered_prefix
      _ <+: (s.fromBrowser.sent.map (· + 3)).map (· - 3) := hs.client.forth.sent_prefix.map _
      _ = s.fromBrowser.sent := map_sub_map_add 3 _
  · calc s.toBrowser.delivered <+: s.down.sent.map (· - 3) := hs.client.back.delivered_prefix
      _ <+: (s.fromTarget.sent.map (· + 3)).map (· - 3) := hs.server.back.sent_prefix.map _
      _ = s.fromTarget.sent := map_sub_map_add 3 _

/-- The browser sends two bytes, which the client forwards in two pieces. The server forwards the
first of them. -/
def twoBytes : List TunnelLabel :=
  [.browserSend [254, 7], .client (.start true), .client (.poll true false), .client (.read 2),
    .client (.write 1), .server (.start true), .server (.poll true false), .server (.read 1),
    .client (.write 1), .server (.write 1), .targetReceive 1]

/-- The target has received the first byte. -/
theorem tunnel_transparent_twoBytes : ∃ s : Tunnel, tunnelSystem.run {} twoBytes = some s ∧
    s.toTarget.delivered = [254] ∧ s.toTarget.delivered <+: s.fromBrowser.sent := by
  have hrun : (tunnelSystem.run {} twoBytes).map (fun s => s.toTarget.delivered) = some [254] := by
    decide +kernel
  obtain ⟨s, hs, hdelivered⟩ := Option.map_eq_some_iff.mp hrun
  have hreach : tunnelSystem.Reachable s :=
    .run (.init rfl) (Lts.runOk_of_forall (fun _ _ _ => trivial) _) hs
  exact ⟨s, hs, hdelivered, (tunnel_transparent s hreach).1⟩

end MgCommonUtils.Tcpipe
