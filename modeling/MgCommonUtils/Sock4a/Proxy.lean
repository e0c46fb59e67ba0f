import MgCommonUtils.Lib.Channel
import MgCommonUtils.Lib.Transition
import MgCommonUtils.Sock4a.Header
import MgCommonUtils.Tcpipe.Tunnel

/-!
# The proxy

A whole connection of `sock4a`: a browser, the worker of `client.cpp`, that of `server.cpp`, and the
target. The loops of the workers are those of the tunnel (`Tcpipe.relayWorker`). In front of its
loop the server's worker reads a request, connects to what the request asks for, and sends a reply
of eight bytes.

What the first `read` of the server returns is taken for the request and nothing else, so the bytes
that come with it are lost to the target, and those of the request that come later are not. From
behind that read the connection is a tunnel (`proxy_transparent`), in which nothing is lost
(`proxy_complete`). A browser that waits for the reply, and whose request is read as a whole, talks
to the target it has asked for as if it were connected to it (`proxy_request`).
-/

namespace MgCommonUtils.Sock4a

open MgCommonUtils.Lib
open MgCommonUtils.Lib.Reader
open MgCommonUtils.Tcpipe (WorkerPc WorkerAct Sockets Relaying relayWorker)

/-! ## The model -/

/-- `sock4aWorker` of `client.cpp`. It goes into its loop without a look at `peer_fd`. -/
def clientWorker (k : Sockets) (pc : WorkerPc) (act : WorkerAct) : Option (WorkerPc × Sockets) :=
  if act = .start false then none else relayWorker simpleEncode simpleDecode k pc act

/-- What the server's worker answers. -/
def granted : Bytes := [0x00, 0x5a, 0x00, 0x00, 0x00, 0x00, 0x00, 0x00]

/-- Where the worker of the server is. -/
inductive ServerPc where
  /-- Before its first `read`. -/
  | reading
  /-- In `anetTcpConnect`. -/
  | connecting
  /-- In `anetWrite` of the reply, with the rest of it. -/
  | replying (rest : Bytes)
  /-- In its loop. -/
  | relaying (pc : WorkerPc)
  /-- It has returned before its loop. -/
  | closed
  /-- It has read or written where it may not. -/
  | lost
  deriving DecidableEq, Repr

/-- The worker of the server, with its variables. -/
structure ServerWorker where
  /-- Where it is. -/
  pc : ServerPc := .reading
  /-- What the first `read` has returned. -/
  nr : ℕ := 0
  /-- `peer_ip`. -/
  peer_ip : Bytes := []
  /-- `peer_port`. -/
  peer_port : ℕ := 0
  deriving DecidableEq, Repr

/-- The steps of the server's worker. -/
inductive ServerAct where
  /-- The first `read` returns `n` bytes, in front of what the rest of `buffer` holds. -/
  | request (n : ℕ) (tail : Bytes)
  /-- The first `read` returns 0 or fails. -/
  | requestEnd
  /-- `anetTcpConnect` returns. -/
  | connect (ok : Bool)
  /-- A `write` of the reply accepts `n` bytes. -/
  | reply (n : ℕ)
  /-- A `write` of the reply fails. -/
  | replyEnd
  /-- A step of the loop. -/
  | relay (act : WorkerAct)
  deriving DecidableEq, Repr

/-- What the worker does next with the request it has read. -/
def ServerWorker.decide (v : ServerWorker) : Except Stop Outcome → ServerWorker
  | .ok .closed => { v with pc := .closed }
  | .ok (.connect peer_ip peer_port) => { v with pc := .connecting, peer_ip, peer_port }
  | .error _ => { v with pc := .lost }

/-- A step of `sock4aWorker` of `server.cpp`. -/
def serverWorker (k : Sockets) (v : ServerWorker) : ServerAct → Option (ServerWorker × Sockets)
  | .request n tail =>
    if v.pc = .reading ∧ 0 < n ∧ n ≤ k.in0.inFlight.length ∧ n + tail.length = BUF_SIZE then
      let buffer := k.in0.inFlight.take n ++ tail
      some ({ v with nr := n }.decide (sock4aWorker n buffer), { k with in0 := k.in0.deliver n })
    else none
  | .requestEnd => if v.pc = .reading then some ({ v with pc := .closed }, k) else none
  | .connect ok =>
    if v.pc = .connecting then
      some ({ v with pc := if ok then .replying (simpleEncode granted) else .closed }, k)
    else none
  | .reply n =>
    match v.pc with
    | .replying rest =>
      if 0 < n ∧ n ≤ rest.length then
        let pc := if n = rest.length then .relaying .polling else .replying (rest.drop n)
        some ({ v with pc }, { k with out0 := k.out0.send (rest.take n) })
      else none
    | _ => none
  | .replyEnd =>
    match v.pc with
    | .replying _ => some ({ v with pc := .closed }, k)
    | _ => none
  | .relay act =>
    match v.pc with
    | .relaying pc =>
      (relayWorker simpleDecode simpleEncode k pc act).map fun (pc, k) =>
        ({ v with pc := .relaying pc }, k)
    | _ => none

/-- The proxy. -/
structure Proxy where
  /-- The worker of the client. -/
  client : WorkerPc := .starting
  /-- The worker of the server. -/
  server : ServerWorker := {}
  /-- From the browser to the client. -/
  fromBrowser : Channel UInt8 := {}
  /-- From the client to the server. -/
  up : Channel UInt8 := {}
  /-- From the server to the target. -/
  toTarget : Channel UInt8 := {}
  /-- From the target to the server. -/
  fromTarget : Channel UInt8 := {}
  /-- From the server to the client. -/
  down : Channel UInt8 := {}
  /-- From the client to the browser. -/
  toBrowser : Channel UInt8 := {}

/-- The steps. -/
inductive ProxyLabel where
  /-- The browser sends. -/
  | browserSend (bytes : Bytes)
  /-- The browser receives. -/
  | browserReceive (n : ℕ)
  /-- The target sends. -/
  | targetSend (bytes : Bytes)
  /-- The target receives. -/
  | targetReceive (n : ℕ)
  /-- A step of the client's worker. -/
  | client (act : WorkerAct)
  /-- A step of the server's worker. -/
  | server (act : ServerAct)

/-- The sockets of the client's worker. -/
def Proxy.clientSockets (s : Proxy) : Sockets where
  in0 := s.fromBrowser
  out0 := s.toBrowser
  in1 := s.down
  out1 := s.up

/-- The sockets of the server's worker. -/
def Proxy.serverSockets (s : Proxy) : Sockets where
  in0 := s.up
  out0 := s.down
  in1 := s.fromTarget
  out1 := s.toTarget

/-- A step. -/
def proxyStep (s : Proxy) : ProxyLabel → Option Proxy
  | .browserSend bytes => some { s with fromBrowser := s.fromBrowser.send bytes }
  | .browserReceive n => some { s with toBrowser := s.toBrowser.deliver n }
  | .targetSend bytes => some { s with fromTarget := s.fromTarget.send bytes }
  | .targetReceive n => some { s with toTarget := s.toTarget.deliver n }
  | .client act =>
    (clientWorker s.clientSockets s.client act).map fun (client, k) =>
      { s with client, fromBrowser := k.in0, toBrowser := k.out0, down := k.in1, up := k.out1 }
  | .server act =>
    (serverWorker s.serverSockets s.server act).map fun (server, k) =>
      { s with server, up := k.in0, down := k.out0, fromTarget := k.in1, toTarget := k.out1 }

/-- The proxy, from when the browser has connected. -/
def proxySystem : Lts Proxy ProxyLabel where
  init s := s = {}
  step := proxyStep

/-! ## What a worker does to its sockets -/

/-- A worker takes from what arrives at its sockets, and sends. -/
structure Moves (k k' : Sockets) : Prop where
  /-- It takes from the first socket. -/
  in0 : ∃ n, k'.in0 = k.in0.deliver n
  /-- It sends to the first socket. -/
  out0 : ∃ l, k'.out0 = k.out0.send l
  /-- It takes from the second socket. -/
  in1 : ∃ n, k'.in1 = k.in1.deliver n
  /-- It sends to the second socket. -/
  out1 : ∃ l, k'.out1 = k.out1.send l

theorem deliver_zero (c : Channel UInt8) : c.deliver 0 = c := by
  simp [Channel.deliver]

theorem send_nil (c : Channel UInt8) : c.send [] = c := by
  simp [Channel.send]

/-- Nothing happens at the sockets. -/
theorem Moves.refl (k : Sockets) : Moves k k :=
  ⟨⟨0, (deliver_zero _).symm⟩, ⟨[], (send_nil _).symm⟩, ⟨0, (deliver_zero _).symm⟩,
    ⟨[], (send_nil _).symm⟩⟩

variable {k k' : Sockets}

/-- What has been sent to a worker stays, and so does what has been delivered from it. -/
theorem Moves.behind (h : Moves k k') : k.Behind k' := by
  obtain ⟨⟨n, h0⟩, ⟨l, h0'⟩, ⟨m, h1⟩, ⟨l', h1'⟩⟩ := h
  refine ⟨?_, ?_, ?_, ?_⟩
  · rw [h0, Channel.sent_deliver]
  · rw [h1, Channel.sent_deliver]
  · rw [h0', Channel.delivered_send]
  · rw [h1', Channel.delivered_send]

/-- What a relaying worker does to its sockets. -/
theorem relayWorker_moves {code0 code1 : Bytes → Bytes} {pc pc' : WorkerPc} {act : WorkerAct}
    (h : relayWorker code0 code1 k pc act = some (pc', k')) : Moves k k' := by
  have hrefl := Moves.refl k
  unfold relayWorker at h
  split at h
  case h_1 | h_2 | h_4 | h_6 | h_8 | h_10 =>
    obtain ⟨-, rfl⟩ := Prod.mk.inj (Option.some.inj h)
    exact hrefl
  case h_3 revents1 n =>
    split_ifs at h
    obtain ⟨-, rfl⟩ := Prod.mk.inj (Option.some.inj h)
    exact { hrefl with in0 := ⟨n, rfl⟩ }
  case h_5 rest revents1 n =>
    split_ifs at h
    all_goals
      obtain ⟨-, rfl⟩ := Prod.mk.inj (Option.some.inj h)
      exact { hrefl with out1 := ⟨rest.take n, rfl⟩ }
  case h_7 n =>
    split_ifs at h
    obtain ⟨-, rfl⟩ := Prod.mk.inj (Option.some.inj h)
    exact { hrefl with in1 := ⟨n, rfl⟩ }
  case h_9 rest n =>
    split_ifs at h
    all_goals
      obtain ⟨-, rfl⟩ := Prod.mk.inj (Option.some.inj h)
      exact { hrefl with out0 := ⟨rest.take n, rfl⟩ }
  case h_11 => cases h

/-- The sockets as they look from behind the first `n` bytes that arrive at the first one and the
first `m` bytes that are sent from it. -/
def skip (k : Sockets) (n m : ℕ) : Sockets :=
  { k with in0 := k.in0.skip n, out0 := k.out0.skip m }

/-- A relaying worker works in the same way behind what it has taken and sent before. -/
theorem relayWorker_skip {code0 code1 : Bytes → Bytes} {pc pc' : WorkerPc} {act : WorkerAct}
    {n m : ℕ} (hin : n ≤ k.in0.delivered.length) (hout : m ≤ k.out0.sent.length)
    (h : relayWorker code0 code1 k pc act = some (pc', k')) :
    relayWorker code0 code1 (skip k n m) pc act = some (pc', skip k' n m) := by
  have hinFlight : (skip k n m).in0.inFlight = k.in0.inFlight := Channel.inFlight_skip hin
  have hin1 : (skip k n m).in1 = k.in1 := rfl
  unfold relayWorker at h ⊢
  split at h
  case h_1 | h_2 | h_4 | h_6 | h_8 | h_10 =>
    obtain ⟨rfl, rfl⟩ := Prod.mk.inj (Option.some.inj h)
    rfl
  case h_3 revents1 i =>
    split_ifs at h with hi
    obtain ⟨rfl, rfl⟩ := Prod.mk.inj (Option.some.inj h)
    dsimp only
    rw [hinFlight, if_pos hi]
    simp only [skip, Channel.skip_deliver hin]
  case h_5 rest revents1 i =>
    split_ifs at h with hi hall
    · obtain ⟨rfl, rfl⟩ := Prod.mk.inj (Option.some.inj h)
      rw [if_pos hi, if_pos hall]
      rfl
    · obtain ⟨rfl, rfl⟩ := Prod.mk.inj (Option.some.inj h)
      rw [if_pos hi, if_neg hall]
      rfl
  case h_7 i =>
    split_ifs at h with hi
    obtain ⟨rfl, rfl⟩ := Prod.mk.inj (Option.some.inj h)
    dsimp only
    rw [hin1, if_pos hi]
    rfl
  case h_9 rest i =>
    split_ifs at h with hi hall
    · obtain ⟨rfl, rfl⟩ := Prod.mk.inj (Option.some.inj h)
      rw [if_pos hi, if_pos hall]
      simp only [skip, Channel.skip_send hout]
    · obtain ⟨rfl, rfl⟩ := Prod.mk.inj (Option.some.inj h)
      rw [if_pos hi, if_neg hall]
      simp only [skip, Channel.skip_send hout]
  case h_11 => cases h

/-! ## The server -/

/-- The worker has read this request, and connects to what it has found there. -/
def ServerWorker.Asked (v : ServerWorker) (first : Bytes) : Prop :=
  ∃ tail : Bytes, first.length + tail.length = BUF_SIZE ∧
    sock4aWorker first.length (first ++ tail) = .ok (.connect v.peer_ip v.peer_port)

/-- Before its loop, a worker has taken from the client what it has read as the request, and there
has been nothing between it and the target. -/
structure ServerWorker.Idle (v : ServerWorker) (k : Sockets) : Prop where
  /-- The request. -/
  header : k.in0.delivered.length = v.nr
  /-- From the target. -/
  in1 : k.in1.delivered = []
  /-- To the target. -/
  out1 : k.out1.sent = []

/-- What has gone through the sockets of the server's worker. -/
def ServerWorker.Ok (v : ServerWorker) (k : Sockets) : Prop :=
  match v.pc with
  | .reading => v.Idle k ∧ v.nr = 0 ∧ k.out0.sent = []
  | .connecting => v.Idle k ∧ v.Asked (k.in0.delivered.take v.nr) ∧ k.out0.sent = []
  | .replying rest =>
    v.Idle k ∧ v.Asked (k.in0.delivered.take v.nr) ∧ k.out0.sent ++ rest = simpleEncode granted
  | .relaying pc =>
    v.nr ≤ k.in0.delivered.length ∧ v.Asked (k.in0.delivered.take v.nr) ∧
      simpleEncode granted <+: k.out0.sent ∧ Relaying (· - 3) (· + 3) pc (skip k v.nr 8)
  | .closed =>
    v.Idle k ∧ k.out0.sent <+: simpleEncode granted ∧
      (k.out0.sent ≠ [] → v.Asked (k.in0.delivered.take v.nr))
  | .lost => v.Idle k ∧ k.out0.sent = []

variable {v v' : ServerWorker}

/-- The first read has been delivered. -/
theorem ServerWorker.Ok.header (h : v.Ok k) : v.nr ≤ k.in0.delivered.length := by
  unfold ServerWorker.Ok at h
  split at h
  case h_4 => exact h.1
  all_goals exact h.1.header.ge

/-- The reply has eight bytes. -/
theorem length_granted : (simpleEncode granted).length = 8 := rfl

/-- What the worker has sent to the target is a front of what came behind the first read. -/
theorem ServerWorker.Ok.forth (h : v.Ok k) :
    k.out1.sent <+: (k.in0.sent.drop v.nr).map (· - 3) := by
  unfold ServerWorker.Ok at h
  split at h
  case h_4 pc hpc =>
    have hpre := h.2.2.2.forth.sent_prefix
    rwa [skip, Channel.sent_skip] at hpre
  all_goals
    rw [h.1.out1]
    exact List.nil_prefix

/-- What the worker has sent to the client is a front of the reply and of what the target has
sent. -/
theorem ServerWorker.Ok.back (h : v.Ok k) :
    k.out0.sent <+: simpleEncode granted ++ k.in1.sent.map (· + 3) := by
  unfold ServerWorker.Ok at h
  split at h
  case h_1 => exact h.2.2 ▸ List.nil_prefix
  case h_2 => exact h.2.2 ▸ List.nil_prefix
  case h_3 rest hpc => exact (h.2.2 ▸ List.prefix_append ..).trans (List.prefix_append ..)
  case h_4 pc hpc =>
    obtain ⟨later, hlater⟩ := h.2.2.1
    have hpre := h.2.2.2.back.sent_prefix
    rw [skip, Channel.sent_skip, ← hlater, ← length_granted, List.drop_left] at hpre
    rw [← hlater]
    exact (List.prefix_append_right_inj _).mpr hpre
  case h_5 => exact h.2.1.trans (List.prefix_append ..)
  case h_6 => exact h.2 ▸ List.nil_prefix

/-- The other ends of the connections may send more to the worker, and take what it has sent. -/
theorem ServerWorker.Ok.congr (h : v.Ok k) (hin0 : k'.in0.delivered = k.in0.delivered)
    (hin1 : k'.in1.delivered = k.in1.delivered) (hout0 : k'.out0.sent = k.out0.sent)
    (hout1 : k'.out1.sent = k.out1.sent) : v.Ok k' := by
  have hidle : v.Idle k → v.Idle k' := fun hk =>
    ⟨hin0 ▸ hk.header, hin1 ▸ hk.in1, hout1 ▸ hk.out1⟩
  unfold ServerWorker.Ok at h ⊢
  rw [hin0, hout0]
  split at h
  case h_4 pc hpc =>
    obtain ⟨hlen, hasked, hgranted, hrelay⟩ := h
    refine ⟨hlen, hasked, hgranted, hrelay.forth.congr ?_ hout1, hrelay.back.congr hin1 ?_⟩
    · change k'.in0.delivered.drop v.nr = k.in0.delivered.drop v.nr
      rw [hin0]
    · change (k'.out0.skip 8).sent = (k.out0.skip 8).sent
      rw [Channel.sent_skip, Channel.sent_skip, hout0]
  all_goals exact ⟨hidle h.1, h.2⟩

/-- What has been taken from the first socket stays in front. -/
theorem Moves.take_in0 (h : Moves k k') {n : ℕ} (hn : n ≤ k.in0.delivered.length) :
    n ≤ k'.in0.delivered.length ∧ k'.in0.delivered.take n = k.in0.delivered.take n := by
  obtain ⟨m, hm⟩ := h.in0
  rw [hm, Channel.deliver]
  refine ⟨?_, List.take_append_of_le_length hn⟩
  rw [List.length_append]
  omega

/-- A step of the loop. -/
theorem ServerWorker.Ok.relay (h : v.Ok k) {pc pc' : WorkerPc} (hpc : v.pc = .relaying pc)
    {act : WorkerAct} (hstep : relayWorker simpleDecode simpleEncode k pc act = some (pc', k')) :
    ({ v with pc := .relaying pc' } : ServerWorker).Ok k' := by
  have hmoves := relayWorker_moves hstep
  unfold ServerWorker.Ok at h
  rw [hpc] at h
  obtain ⟨hlen, hasked, hgranted, hrelay⟩ := h
  obtain ⟨hlen', htake⟩ := hmoves.take_in0 hlen
  have hout : 8 ≤ k.out0.sent.length := length_granted ▸ hgranted.length_le
  refine ⟨hlen', ?_, ?_, (hrelay.step (relayWorker_skip hlen hout hstep)).1⟩
  · change v.Asked (k'.in0.delivered.take v.nr)
    rwa [htake]
  · obtain ⟨l, hl⟩ := hmoves.out0
    rw [hl, Channel.sent_send]
    exact hgranted.trans (List.prefix_append ..)

/-- The first read. -/
theorem ServerWorker.Ok.request (h : v.Ok k) (hpc : v.pc = .reading) {n : ℕ} {tail : Bytes}
    (hn : n ≤ k.in0.inFlight.length) (htail : n + tail.length = BUF_SIZE) :
    (({ v with nr := n } : ServerWorker).decide
      (sock4aWorker n (k.in0.inFlight.take n ++ tail))).Ok { k with in0 := k.in0.deliver n } := by
  unfold ServerWorker.Ok at h
  rw [hpc] at h
  obtain ⟨hidle, hnr, hout0⟩ := h
  have hnone : k.in0.delivered = [] := List.eq_nil_of_length_eq_zero (hidle.header.trans hnr)
  have hdelivered : (k.in0.deliver n).delivered = k.in0.inFlight.take n := by
    rw [Channel.deliver, hnone, List.nil_append]
  have hlen : (k.in0.inFlight.take n).length = n := List.length_take_of_le hn
  have hidle' : ∀ v' : ServerWorker, v'.nr = n → v'.Idle { k with in0 := k.in0.deliver n } :=
    fun v' hv' => ⟨by rw [hv', hdelivered, hlen], hidle.in1, hidle.out1⟩
  cases hworker : sock4aWorker n (k.in0.inFlight.take n ++ tail) with
  | error e => exact ⟨hidle' _ rfl, hout0⟩
  | ok o =>
    cases o with
    | closed => exact ⟨hidle' _ rfl, hout0 ▸ List.nil_prefix, fun hne => absurd hout0 hne⟩
    | connect peer_ip peer_port =>
      refine ⟨hidle' _ rfl, ⟨tail, ?_⟩, hout0⟩
      change ((k.in0.deliver n).delivered.take n).length + tail.length = BUF_SIZE ∧
        sock4aWorker ((k.in0.deliver n).delivered.take n).length
          ((k.in0.deliver n).delivered.take n ++ tail) = .ok (.connect peer_ip peer_port)
      rw [hdelivered, List.take_of_length_le hlen.le, hlen]
      exact ⟨htail, hworker⟩

/-- Every step of the server's worker. -/
theorem ServerWorker.Ok.step (h : v.Ok k) {act : ServerAct}
    (hstep : serverWorker k v act = some (v', k')) : v'.Ok k' ∧ Moves k k' := by
  have hrefl := Moves.refl k
  cases act with
  | request n tail =>
    obtain ⟨⟨hpc, -, hn, htail⟩, heq⟩ := Option.ite_none_right_eq_some.mp hstep
    obtain ⟨rfl, rfl⟩ := Prod.mk.inj (Option.some.inj heq)
    exact ⟨h.request hpc hn htail, { hrefl with in0 := ⟨n, rfl⟩ }⟩
  | requestEnd =>
    obtain ⟨hpc, heq⟩ := Option.ite_none_right_eq_some.mp hstep
    obtain ⟨rfl, rfl⟩ := Prod.mk.inj (Option.some.inj heq)
    unfold ServerWorker.Ok at h
    rw [hpc] at h
    obtain ⟨hidle, -, hout0⟩ := h
    exact ⟨⟨⟨hidle.header, hidle.in1, hidle.out1⟩, hout0 ▸ List.nil_prefix,
      fun hne => absurd hout0 hne⟩, hrefl⟩
  | connect ok =>
    obtain ⟨hpc, heq⟩ := Option.ite_none_right_eq_some.mp hstep
    obtain ⟨rfl, rfl⟩ := Prod.mk.inj (Option.some.inj heq)
    unfold ServerWorker.Ok at h
    rw [hpc] at h
    obtain ⟨hidle, hasked, hout0⟩ := h
    refine ⟨?_, hrefl⟩
    cases ok with
    | true => exact ⟨⟨hidle.header, hidle.in1, hidle.out1⟩, hasked, by rw [hout0, List.nil_append]⟩
    | false =>
      exact ⟨⟨hidle.header, hidle.in1, hidle.out1⟩, hout0 ▸ List.nil_prefix, fun _ => hasked⟩
  | reply n =>
    dsimp only [serverWorker] at hstep
    split at hstep
    case h_2 => cases hstep
    rename_i rest hpc
    obtain ⟨hn, heq⟩ := Option.ite_none_right_eq_some.mp hstep
    obtain ⟨rfl, rfl⟩ := Prod.mk.inj (Option.some.inj heq)
    unfold ServerWorker.Ok at h
    rw [hpc] at h
    obtain ⟨hidle, hasked, hout0⟩ := h
    refine ⟨?_, { hrefl with out0 := ⟨rest.take n, rfl⟩ }⟩
    have hsent : (k.out0.send (rest.take n)).sent ++ rest.drop n = simpleEncode granted := by
      rw [Channel.sent_send, List.append_assoc, List.take_append_drop, hout0]
    by_cases hall : n = rest.length
    · -- The loop starts, with the reply sent and nothing relayed.
      rw [hall, List.drop_length, List.append_nil] at hsent
      unfold ServerWorker.Ok
      dsimp only
      rw [if_pos hall]
      refine ⟨hidle.header.ge, hasked, ?_, ?_, ?_⟩
      · rw [hall, hsent]
      · change k.out1.sent ++ [] = (k.in0.delivered.drop v.nr).map _
        rw [hidle.out1, ← hidle.header, List.drop_length]
        rfl
      · change ((k.out0.send (rest.take n)).skip 8).sent ++ [] = k.in1.delivered.map _
        rw [Channel.sent_skip, hall, hsent, hidle.in1]
        rfl
    · unfold ServerWorker.Ok
      dsimp only
      rw [if_neg hall]
      exact ⟨⟨hidle.header, hidle.in1, hidle.out1⟩, hasked, hsent⟩
  | replyEnd =>
    dsimp only [serverWorker] at hstep
    split at hstep
    case h_2 => cases hstep
    rename_i rest hpc
    obtain ⟨rfl, rfl⟩ := Prod.mk.inj (Option.some.inj hstep)
    unfold ServerWorker.Ok at h
    rw [hpc] at h
    obtain ⟨hidle, hasked, hout0⟩ := h
    exact ⟨⟨⟨hidle.header, hidle.in1, hidle.out1⟩, ⟨rest, hout0⟩, fun _ => hasked⟩, hrefl⟩
  | relay act =>
    dsimp only [serverWorker] at hstep
    split at hstep
    case h_2 => cases hstep
    rename_i pc hpc
    obtain ⟨⟨pc', k₁⟩, hrelay, heq⟩ := Option.map_eq_some_iff.mp hstep
    obtain ⟨rfl, rfl⟩ := Prod.mk.inj heq
    exact ⟨h.relay hpc hrelay, relayWorker_moves hrelay⟩

/-- Where the worker has sent anything, it has read a request. -/
theorem ServerWorker.Ok.asked (h : v.Ok k) (hsent : k.out1.sent ≠ [] ∨ k.out0.sent ≠ []) :
    v.Asked (k.in0.delivered.take v.nr) := by
  have hidle : v.Idle k → k.out0.sent ≠ [] := fun hidle => hsent.resolve_left fun h => h hidle.out1
  unfold ServerWorker.Ok at h
  split at h
  case h_1 => exact absurd h.2.2 (hidle h.1)
  case h_2 => exact h.2.1
  case h_3 => exact h.2.1
  case h_4 => exact h.2.1
  case h_5 => exact h.2.2 (hidle h.1)
  case h_6 => exact absurd h.2 (hidle h.1)

/-- A request has more than eight bytes. -/
theorem ServerWorker.Asked.lt_length {first : Bytes} (h : v.Asked first) : 8 < first.length := by
  obtain ⟨tail, -, hworker⟩ := h
  by_contra hshort
  cases (sock4aWorker_short (not_lt.mp hshort) (first ++ tail)).symm.trans hworker

/-! ## The proxy -/

/-- The client's worker is a relay, and so is the server's, from behind the request. -/
structure Proxy.Inv (s : Proxy) : Prop where
  /-- The client's worker. -/
  client : Relaying (· + 3) (· - 3) s.client s.clientSockets
  /-- The server's worker. -/
  server : s.server.Ok s.serverSockets

variable {s t : Proxy}

/-- A step of the client's worker. -/
theorem clientWorker_step {pc pc' : WorkerPc} {act : WorkerAct} (h : Relaying (· + 3) (· - 3) pc k)
    (hstep : clientWorker k pc act = some (pc', k')) :
    Relaying (· + 3) (· - 3) pc' k' ∧ k.Behind k' := by
  unfold clientWorker at hstep
  split_ifs at hstep
  exact h.step hstep

/-- Every step. -/
theorem Proxy.Inv.step {l : ProxyLabel} (hs : s.Inv) (h : proxyStep s l = some t) : t.Inv := by
  cases l with
  | browserSend bytes =>
    obtain rfl := Option.some.inj h
    exact ⟨⟨hs.client.forth.congr rfl rfl, hs.client.back⟩, hs.server⟩
  | browserReceive n =>
    obtain rfl := Option.some.inj h
    exact ⟨⟨hs.client.forth, hs.client.back.congr rfl (Channel.sent_deliver _ n)⟩, hs.server⟩
  | targetSend bytes =>
    obtain rfl := Option.some.inj h
    exact ⟨hs.client, hs.server.congr rfl rfl rfl rfl⟩
  | targetReceive n =>
    obtain rfl := Option.some.inj h
    exact ⟨hs.client, hs.server.congr rfl rfl rfl (Channel.sent_deliver _ n)⟩
  | client act =>
    obtain ⟨⟨pc, k⟩, hstep, rfl⟩ := Option.map_eq_some_iff.mp h
    obtain ⟨hclient, hbehind⟩ := clientWorker_step hs.client hstep
    exact ⟨hclient, hs.server.congr hbehind.out1 rfl hbehind.in1 rfl⟩
  | server act =>
    obtain ⟨⟨v, k⟩, hstep, rfl⟩ := Option.map_eq_some_iff.mp h
    obtain ⟨hserver, hmoves⟩ := hs.server.step hstep
    have hbehind := hmoves.behind
    exact ⟨⟨hs.client.forth.congr rfl hbehind.in0, hs.client.back.congr hbehind.out0 rfl⟩, hserver⟩

/-- Before the first step. -/
theorem Proxy.inv_init : ({} : Proxy).Inv := ⟨⟨rfl, rfl⟩, ⟨⟨rfl, rfl, rfl⟩, rfl, rfl⟩⟩

/-- In every state. -/
theorem Proxy.inv_of_reachable (h : proxySystem.Reachable s) : s.Inv := by
  refine h.invariant ?_ fun s l t hs _ h => hs.step h
  rintro s rfl
  exact Proxy.inv_init

/-- What has come to the server is a front of what the browser has sent, encoded. -/
theorem Proxy.Inv.up_prefix (hs : s.Inv) : s.up.sent <+: simpleEncode s.fromBrowser.sent :=
  hs.client.forth.sent_prefix

/-- The first read is of the first bytes that the browser has sent. -/
theorem Proxy.Inv.take_up (hs : s.Inv) :
    s.up.delivered.take s.server.nr = simpleEncode (s.fromBrowser.sent.take s.server.nr) := by
  have hheader : s.server.nr ≤ s.up.delivered.length := hs.server.header
  have hpre : s.up.delivered <+: simpleEncode s.fromBrowser.sent :=
    s.up.delivered_prefix.trans hs.up_prefix
  obtain ⟨later, hlater⟩ := hpre
  rw [simpleEncode, List.map_take]
  change _ = (simpleEncode s.fromBrowser.sent).take _
  rw [← hlater, List.take_append_of_le_length hheader]

/-- What the target has received. -/
theorem Proxy.Inv.forth (hs : s.Inv) :
    s.toTarget.delivered <+: s.fromBrowser.sent.drop s.server.nr := by
  calc s.toTarget.delivered <+: s.toTarget.sent := s.toTarget.delivered_prefix
    _ <+: (s.up.sent.drop s.server.nr).map (· - 3) := hs.server.forth
    _ = (s.up.sent.map (· - 3)).drop s.server.nr := List.map_drop
    _ <+: (simpleDecode (simpleEncode s.fromBrowser.sent)).drop s.server.nr :=
      (hs.up_prefix.map _).drop _
    _ = s.fromBrowser.sent.drop s.server.nr := by rw [simpleDecode_simpleEncode]

/-- What the browser has received. -/
theorem Proxy.Inv.back (hs : s.Inv) : s.toBrowser.delivered <+: granted ++ s.fromTarget.sent := by
  calc s.toBrowser.delivered <+: s.down.sent.map (· - 3) := hs.client.back.delivered_prefix
    _ <+: (simpleEncode granted ++ s.fromTarget.sent.map (· + 3)).map (· - 3) :=
      hs.server.back.map _
    _ = granted ++ s.fromTarget.sent := by rw [List.map_append, map_sub_map_add]; rfl

/-- Nobody has received anything before the server has read a request. -/
theorem Proxy.Inv.asked (hs : s.Inv)
    (hne : s.toTarget.delivered ≠ [] ∨ s.toBrowser.delivered ≠ []) :
    s.server.Asked (simpleEncode (s.fromBrowser.sent.take s.server.nr)) := by
  have hback : s.toBrowser.delivered <+: s.down.sent.map (· - 3) := hs.client.back.delivered_prefix
  rw [← hs.take_up]
  refine hs.server.asked (hne.imp (fun hne hnil => hne ?_) fun hne hnil => hne ?_)
  · exact List.prefix_nil.mp (hnil ▸ s.toTarget.delivered_prefix)
  · rw [show s.down.sent = [] from hnil] at hback
    exact List.prefix_nil.mp hback

/-- A request has been read by then. -/
theorem Proxy.Inv.nr_ne_zero (hs : s.Inv)
    (hne : s.toTarget.delivered ≠ [] ∨ s.toBrowser.delivered ≠ []) : s.server.nr ≠ 0 := by
  intro hzero
  have hlong := (hs.asked hne).lt_length
  rw [hzero] at hlong
  cases hlong

/-- While both workers are in their loops nothing is lost: each byte that the browser has sent
behind the request is with the target, on the way, or in the hands of a worker, once and in order,
and so is each byte of the reply and of what the target has sent. -/
theorem proxy_complete (h : proxySystem.Reachable s) {pc : WorkerPc}
    (hpc : s.server.pc = .relaying pc) {a a' b b' : Bytes} (ha : s.client.held0 = some a)
    (hb : s.client.held1 = some b) (ha' : pc.held0 = some a') (hb' : pc.held1 = some b') :
    s.toTarget.sent ++ a' ++ simpleDecode (s.up.inFlight ++ a) ++ s.fromBrowser.inFlight =
        s.fromBrowser.sent.drop s.server.nr ∧
      s.toBrowser.sent ++ b ++ simpleDecode (s.down.inFlight ++ b') ++ s.fromTarget.inFlight =
        granted ++ s.fromTarget.sent := by
  have hs := Proxy.inv_of_reachable h
  have hserver := hs.server
  unfold ServerWorker.Ok at hserver
  rw [hpc] at hserver
  obtain ⟨hheader, -, ⟨later, hlater⟩, hforth', hback'⟩ := hserver
  have hforth := hs.client.forth
  have hback := hs.client.back
  rw [ha] at hforth
  rw [hb] at hback
  rw [ha'] at hforth'
  rw [hb'] at hback'
  -- What each of the four relays has taken, sent and kept.
  have hup : s.up.delivered ++ s.up.inFlight ++ a = s.fromBrowser.delivered.map (· + 3) := hforth
  have htarget : s.toTarget.sent ++ a' = (s.up.delivered.drop s.server.nr).map (· - 3) := hforth'
  have hbrowser : s.toBrowser.sent ++ b = s.down.delivered.map (· - 3) := hback
  have hdown : (s.down.skip 8).sent ++ b' = s.fromTarget.delivered.map (· + 3) := hback'
  have hnr : s.server.nr ≤ s.up.delivered.length := hheader
  constructor
  · have hlen : s.server.nr ≤ s.fromBrowser.delivered.length := by
      have := congrArg List.length hup
      simp only [List.length_append, List.length_map] at this
      omega
    rw [htarget, simpleDecode, ← List.map_append, ← List.append_assoc,
      ← List.drop_append_of_le_length hnr, ← List.drop_append_of_le_length (by
        rw [List.length_append]; omega), hup, List.map_drop, map_sub_map_add, Channel.sent,
      List.drop_append_of_le_length hlen]
  · have hlater : simpleEncode granted ++ later = s.down.delivered ++ s.down.inFlight := hlater
    rw [Channel.sent_skip, Channel.sent, ← hlater, ← length_granted, List.drop_left] at hdown
    rw [hbrowser, simpleDecode, ← List.map_append, ← List.append_assoc, ← hlater,
      List.append_assoc (simpleEncode granted), hdown, List.map_append, map_sub_map_add,
      Channel.sent, ← List.append_assoc]
    rfl

/-! ## A browser that waits for the reply -/

/-- The browser sends a request, and nothing more until it has received the reply. The server reads
the whole request at once. -/
def Proxy.Waits (r : Request) (s : Proxy) : ProxyLabel → Prop
  | .browserSend bytes =>
    s.fromBrowser.sent ++ bytes <+: r.bytes ∨ granted.length ≤ s.toBrowser.delivered.length
  | .server (.request n _) => n = r.bytes.length
  | _ => True

/-- A request that is read as a whole is connected to what it asks for, unless it is for an address
0.b.0.d, or for a host whose name is too long. -/
theorem Request.connectsRight_of_taken {r : Request} (hlen : r.bytes.length ≤ BUF_SIZE)
    (htaken : r.Taken (simpleEncode r.bytes)) : r.ConnectsRight (simpleEncode r.bytes) := by
  have hle : (simpleEncode r.bytes).length ≤ BUF_SIZE := by rwa [simpleEncode, List.length_map]
  unfold Request.Taken at htaken
  split at htaken
  · rename_i hdest
    exact (Request.connectsRight_addr hle List.prefix_rfl htaken.1 hdest).mpr htaken.2
  · rename_i x host hdest
    have hbytes := r.length_bytes
    rw [hdest, Dest.tail, List.length_append, List.length_cons] at hbytes
    have hlong : 8 < (simpleEncode r.bytes).length := by
      rw [htaken.1]
      omega
    exact (Request.connectsRight_name hle List.prefix_rfl hlong hdest).mpr htaken

/-- What a browser that waits has sent, and where the server is. -/
structure Proxy.Polite (r : Request) (s : Proxy) : Prop extends s.Inv where
  /-- Before the reply, the browser has sent nothing but of the request. -/
  before : s.server.nr = 0 → s.fromBrowser.sent <+: r.bytes
  /-- What the server has read is the request. -/
  request : s.server.nr ≠ 0 → s.server.nr = r.bytes.length ∧ r.bytes <+: s.fromBrowser.sent
  /-- The server has not lost its way. -/
  found : s.server.pc ≠ .lost

variable {r : Request}

/-- The first bytes are the request. -/
theorem Proxy.Polite.take_nr (hs : s.Polite r) (hnr : s.server.nr ≠ 0) :
    s.fromBrowser.sent.take s.server.nr = r.bytes := by
  obtain ⟨hlen, hpre⟩ := hs.request hnr
  rw [hlen]
  exact (List.prefix_iff_eq_take.mp hpre).symm

/-- The server reads the request. -/
theorem Proxy.Polite.readRequest (hs : s.Polite r) (htaken : r.Taken (simpleEncode r.bytes))
    {tail : Bytes} (hpc : s.server.pc = .reading) (hn : r.bytes.length ≤ s.up.inFlight.length)
    (htail : r.bytes.length + tail.length = BUF_SIZE) :
    r.bytes = s.fromBrowser.sent ∧
      (({ s.server with nr := r.bytes.length } : ServerWorker).decide
        (sock4aWorker r.bytes.length (s.up.inFlight.take r.bytes.length ++ tail))).pc =
          .connecting := by
  have hserver := hs.server
  unfold ServerWorker.Ok at hserver
  rw [hpc] at hserver
  obtain ⟨hidle, hnr, -⟩ := hserver
  have hnone : s.up.delivered = [] := List.eq_nil_of_length_eq_zero (hidle.header.trans hnr)
  -- All that is under way is the request, encoded.
  have hup := hs.up_prefix
  rw [Channel.sent, hnone, List.nil_append] at hup
  have hsent := hs.before hnr
  have hlen := hup.length_le
  rw [simpleEncode, List.length_map] at hlen
  have hall : r.bytes = s.fromBrowser.sent := (hsent.eq_of_length_le (hn.trans hlen)).symm
  have hfirst : s.up.inFlight.take r.bytes.length = simpleEncode r.bytes := by
    rw [← hall] at hup hlen
    rw [hup.eq_of_length (by rw [simpleEncode, List.length_map]; omega)]
    exact List.take_of_length_le (by rw [simpleEncode, List.length_map])
  have hencode : (simpleEncode r.bytes).length = r.bytes.length := List.length_map _
  have hconnect := Request.connectsRight_of_taken (by omega) htaken tail (by omega)
  refine ⟨hall, ?_⟩
  rw [hfirst, ← hencode, hconnect]
  rfl

/-- What the worker makes of its request is not its length. -/
theorem ServerWorker.nr_decide (v : ServerWorker) (o : Except Stop Outcome) :
    (v.decide o).nr = v.nr := by
  rcases o with e | o
  · rfl
  · cases o <;> rfl

/-- Only the first read sets the length of the request, and only there the worker can get lost. -/
theorem serverWorker_frame {act : ServerAct} (hact : ∀ n tail, act ≠ .request n tail)
    (h : serverWorker k v act = some (v', k')) : v'.pc ≠ .lost ∧ v'.nr = v.nr := by
  cases act with
  | request n tail => exact absurd rfl (hact n tail)
  | requestEnd =>
    obtain ⟨-, heq⟩ := Option.ite_none_right_eq_some.mp h
    obtain ⟨rfl, -⟩ := Prod.mk.inj (Option.some.inj heq)
    exact ⟨ServerPc.noConfusion, rfl⟩
  | connect ok =>
    obtain ⟨-, heq⟩ := Option.ite_none_right_eq_some.mp h
    obtain ⟨rfl, -⟩ := Prod.mk.inj (Option.some.inj heq)
    refine ⟨?_, rfl⟩
    cases ok <;> exact ServerPc.noConfusion
  | reply n =>
    dsimp only [serverWorker] at h
    split at h
    case h_2 => cases h
    obtain ⟨-, heq⟩ := Option.ite_none_right_eq_some.mp h
    obtain ⟨rfl, -⟩ := Prod.mk.inj (Option.some.inj heq)
    refine ⟨?_, rfl⟩
    dsimp only
    split_ifs <;> exact ServerPc.noConfusion
  | replyEnd =>
    dsimp only [serverWorker] at h
    split at h
    case h_2 => cases h
    obtain ⟨rfl, -⟩ := Prod.mk.inj (Option.some.inj h)
    exact ⟨ServerPc.noConfusion, rfl⟩
  | relay act =>
    dsimp only [serverWorker] at h
    split at h
    case h_2 => cases h
    obtain ⟨p, -, heq⟩ := Option.map_eq_some_iff.mp h
    obtain ⟨rfl, -⟩ := Prod.mk.inj heq
    exact ⟨ServerPc.noConfusion, rfl⟩

/-- Every step of a connection whose browser waits. -/
theorem Proxy.Polite.step {l : ProxyLabel} (hs : s.Polite r)
    (htaken : r.Taken (simpleEncode r.bytes)) (hok : s.Waits r l) (h : proxyStep s l = some t) :
    t.Polite r := by
  have hinv := hs.toInv.step h
  cases l with
  | browserSend bytes =>
    obtain rfl := Option.some.inj h
    refine ⟨hinv, fun hnr => ?_, fun hnr => ?_, hs.found⟩
    · change (s.fromBrowser.send bytes).sent <+: r.bytes
      rw [Channel.sent_send]
      refine hok.resolve_right fun hreply => hs.nr_ne_zero (.inr fun hnil => ?_) hnr
      rw [hnil] at hreply
      cases hreply
    · obtain ⟨hlen, hpre⟩ := hs.request hnr
      refine ⟨hlen, ?_⟩
      change r.bytes <+: (s.fromBrowser.send bytes).sent
      rw [Channel.sent_send]
      exact hpre.trans (List.prefix_append ..)
  | browserReceive n =>
    obtain rfl := Option.some.inj h
    exact ⟨hinv, hs.before, hs.request, hs.found⟩
  | targetSend bytes =>
    obtain rfl := Option.some.inj h
    exact ⟨hinv, hs.before, hs.request, hs.found⟩
  | targetReceive n =>
    obtain rfl := Option.some.inj h
    exact ⟨hinv, hs.before, hs.request, hs.found⟩
  | client act =>
    obtain ⟨⟨pc, k⟩, hstep, rfl⟩ := Option.map_eq_some_iff.mp h
    obtain ⟨-, hbehind⟩ := clientWorker_step hs.client hstep
    have hsent : k.in0.sent = s.fromBrowser.sent := hbehind.in0
    refine ⟨hinv, fun hnr => ?_, fun hnr => ?_, hs.found⟩
    · change k.in0.sent <+: r.bytes
      rw [hsent]
      exact hs.before hnr
    · obtain ⟨hlen, hpre⟩ := hs.request hnr
      refine ⟨hlen, ?_⟩
      change r.bytes <+: k.in0.sent
      rwa [hsent]
  | server act =>
    obtain ⟨⟨v, k⟩, hstep, rfl⟩ := Option.map_eq_some_iff.mp h
    have hpc' : v.pc ≠ .lost ∧ v.nr = s.server.nr ∨
        r.bytes = s.fromBrowser.sent ∧ v.nr = r.bytes.length ∧ v.nr ≠ 0 ∧ v.pc = .connecting := by
      by_cases hread : ∃ n tail, act = .request n tail
      · obtain ⟨n, tail, rfl⟩ := hread
        obtain rfl : n = r.bytes.length := hok
        obtain ⟨⟨hpc, hpos, hn, htail⟩, heq⟩ := Option.ite_none_right_eq_some.mp hstep
        obtain ⟨rfl, -⟩ := Prod.mk.inj (Option.some.inj heq)
        obtain ⟨hall, hconnecting⟩ := hs.readRequest htaken hpc hn htail
        exact .inr ⟨hall, ServerWorker.nr_decide _ _,
          by rw [ServerWorker.nr_decide]; exact hpos.ne', hconnecting⟩
      · exact .inl (serverWorker_frame (fun n tail h => hread ⟨n, tail, h⟩) hstep)
    obtain ⟨hfound, hnr⟩ | ⟨hall, hnr, hpos, hconnecting⟩ := hpc'
    · refine ⟨hinv, fun h => hs.before (hnr ▸ h), fun h => ?_, hfound⟩
      obtain ⟨hlen, hpre⟩ := hs.request (hnr ▸ h)
      exact ⟨hnr.trans hlen, hpre⟩
    · refine ⟨hinv, fun h => absurd h hpos, fun _ => ⟨hnr, hall ▸ List.prefix_rfl⟩, ?_⟩
      change v.pc ≠ _
      rw [hconnecting]
      exact ServerPc.noConfusion

/-- A browser that waits for the reply to a request that the server takes, and that is read at once,
talks to what it has asked for: the server does not lose its way, it connects to nothing else, the
target receives only what the browser sends behind the request, and the browser receives the reply
and what the target sends. -/
theorem proxy_request (htaken : r.Taken (simpleEncode r.bytes))
    (h : proxySystem.Reach (Proxy.Waits r) s) :
    s.server.pc ≠ .lost ∧
      (s.toTarget.delivered ≠ [] ∨ s.toBrowser.delivered ≠ [] →
        s.server.peer_ip = r.dest.host ∧ s.server.peer_port = r.port.toNat) ∧
      s.toTarget.delivered <+: s.fromBrowser.sent.drop r.bytes.length ∧
      s.toBrowser.delivered <+: granted ++ s.fromTarget.sent := by
  have hs : s.Polite r := by
    refine h.invariant ?_ fun s l t hs hok h => hs.step htaken hok h
    rintro s rfl
    exact ⟨Proxy.inv_init, fun _ => List.nil_prefix, fun hnr => absurd rfl hnr,
      ServerPc.noConfusion⟩
  refine ⟨hs.found, fun hne => ?_, ?_, hs.back⟩
  · have hasked := hs.asked hne
    rw [hs.take_nr (hs.nr_ne_zero hne)] at hasked
    obtain ⟨tail, hspace, hworker⟩ := hasked
    rw [simpleEncode, List.length_map] at hspace
    have hconnect := Request.connectsRight_of_taken (by omega) htaken tail
      (by rw [simpleEncode, List.length_map]; exact hspace)
    obtain ⟨hip, hport⟩ := Outcome.connect.inj (Except.ok.inj (hworker.symm.trans hconnect))
    exact ⟨hip, hport⟩
  · by_cases hne : s.toTarget.delivered = []
    · rw [hne]
      exact List.nil_prefix
    · rw [← (hs.request (hs.nr_ne_zero (.inl hne))).1]
      exact hs.forth

/-! ## A connection -/

instance (r : Request) (s : Proxy) (l : ProxyLabel) : Decidable (s.Waits r l) := by
  unfold Proxy.Waits
  split <;> infer_instance

/-- The browser sends the request for port 80 of 10.0.0.1, and the client forwards it. -/
def askLabels : List ProxyLabel :=
  [.browserSend tenRequest.bytes, .client (.start true), .client (.poll true false),
    .client (.read 9), .client (.write 9)]

/-- The server connects and replies, and then the browser sends a byte to the target. -/
def talkLabels : List ProxyLabel :=
  [.server (.connect true), .server (.reply 8), .client (.poll false true), .client (.read 8),
    .client (.write 8), .browserReceive 8, .browserSend [71], .client (.poll true false),
    .client (.read 1), .client (.write 1), .server (.relay (.poll true false)),
    .server (.relay (.read 1)), .server (.relay (.write 1)), .targetReceive 1]

/-- The request is with the server. -/
def askedProxy : Proxy where
  client := .polling
  fromBrowser := ⟨tenRequest.bytes, []⟩
  up := ⟨[], simpleEncode tenRequest.bytes⟩

/-- The server has read it. -/
def connectingProxy : Proxy where
  client := .polling
  server := ⟨.connecting, 9, dotted 10 0 0 1, 80⟩
  fromBrowser := ⟨tenRequest.bytes, []⟩
  up := ⟨simpleEncode tenRequest.bytes, []⟩

/-- The server reads the request, whatever the rest of its buffer holds. -/
theorem request_askedProxy {tail : Bytes} (htail : 9 + tail.length = BUF_SIZE) :
    proxyStep askedProxy (.server (.request 9 tail)) = some connectingProxy := by
  have hworker : sock4aWorker 9 (simpleEncode tenRequest.bytes ++ tail) =
      .ok (.connect (dotted 10 0 0 1) 80) :=
    Request.connectsRight_of_taken (r := tenRequest) (by decide) ⟨by decide, by decide⟩ tail htail
  have hstep : serverWorker askedProxy.serverSockets askedProxy.server (.request 9 tail) =
      some (({ nr := 9 } : ServerWorker).decide
        (sock4aWorker 9 (simpleEncode tenRequest.bytes ++ tail)),
        { askedProxy.serverSockets with in0 := askedProxy.serverSockets.in0.deliver 9 }) :=
    if_pos ⟨rfl, by decide, by decide, htail⟩
  rw [proxyStep, hstep, hworker]
  rfl

/-- The browser talks to the target. -/
theorem talk_reach : ∃ s, proxySystem.Reach (Proxy.Waits tenRequest) s ∧ s.client = .polling ∧
    s.server = ⟨.relaying .polling, 9, dotted 10 0 0 1, 80⟩ ∧ s.toTarget.delivered = [71] := by
  obtain ⟨tail, htail⟩ : ∃ tail : Bytes, 9 + tail.length = BUF_SIZE :=
    ⟨List.replicate 65527 0, by rw [List.length_replicate]; rfl⟩
  have hask : proxySystem.run {} askLabels = some askedProxy := rfl
  have hask' : proxySystem.RunOk (Proxy.Waits tenRequest) {} askLabels := by decide +kernel
  have hconnecting : proxySystem.Reach (Proxy.Waits tenRequest) connectingProxy :=
    (Lts.Reach.run (.init rfl) hask' hask).step (a := .server (.request 9 tail)) rfl
      (request_askedProxy htail)
  have htalk' : proxySystem.RunOk (Proxy.Waits tenRequest) connectingProxy talkLabels := by
    decide +kernel
  have htalk : (proxySystem.run connectingProxy talkLabels).map
      (fun s => (s.client, s.server, s.toTarget.delivered)) =
        some (.polling, ⟨.relaying .polling, 9, dotted 10 0 0 1, 80⟩, [71]) := by decide +kernel
  obtain ⟨s, hs, heq⟩ := Option.map_eq_some_iff.mp htalk
  simp only [Prod.mk.injEq] at heq
  exact ⟨s, hconnecting.run htalk' hs, heq.1, heq.2.1, heq.2.2⟩

/-- Nothing is lost of it. -/
theorem proxy_complete_talk : ∃ s, proxySystem.Reachable s ∧
    s.toTarget.sent ++ simpleDecode s.up.inFlight ++ s.fromBrowser.inFlight =
      s.fromBrowser.sent.drop 9 := by
  obtain ⟨s, hs, hclient, hserver, -⟩ := talk_reach
  have hreach : proxySystem.Reachable s := hs.mono fun _ _ _ => trivial
  have hpc : s.server.pc = .relaying .polling := by rw [hserver]
  have hforth := (proxy_complete hreach hpc (by rw [hclient]; rfl) (by rw [hclient]; rfl) rfl rfl).1
  rw [List.append_nil, List.append_nil, hserver] at hforth
  exact ⟨s, hreach, hforth⟩

/-- It comes to the target of the request. -/
theorem proxy_request_talk : ∃ s, proxySystem.Reach (Proxy.Waits tenRequest) s ∧
    s.server.peer_ip = tenRequest.dest.host ∧ s.server.peer_port = 80 ∧
    s.toTarget.delivered = [71] ∧ [71] <+: s.fromBrowser.sent.drop tenRequest.bytes.length := by
  obtain ⟨s, hs, -, -, hdelivered⟩ := talk_reach
  obtain ⟨-, hpeer, hforth, -⟩ := proxy_request (r := tenRequest) ⟨by decide, by decide⟩ hs
  obtain ⟨hip, hport⟩ := hpeer (.inl (by rw [hdelivered]; exact List.cons_ne_nil _ _))
  exact ⟨s, hs, hip, hport, hdelivered, hdelivered ▸ hforth⟩

end MgCommonUtils.Sock4a
