import MgCommonUtils.Ebinlog.Listener

/-!
# From packets to events

The bytes that the listener appends come out of MySQL's packets. The master sends a payload, which
is a status byte and an event, in packets of at most `2 ^ 24 - 1` bytes of body, and a body of that
size goes on in the next packet. `wrap_Recv` (`ebinlog/BinlogProcessor.cpp`) returns the body of a
packet, and `get_event` drops the first byte of every body.

`wrapRecv_packet` says that the bodies come through whatever `read` returns at a time. So a payload
of one packet loses its status byte, and one that is continued loses a byte of the event with every
packet that goes on (`reassembled_iff`).
-/

namespace MgCommonUtils.Ebinlog

open MgCommonUtils.Lib

/-! ## `wrap_Recv` -/

/-- A connection: the bytes that are to come, and for the next calls of `read` how many bytes each
returns at most, or none for an error. Later calls return what they are asked for. -/
structure Connection where
  /-- The bytes. -/
  stream : Bytes
  /-- The next calls of `read`. -/
  reads : List (Option ℕ)

/-- `read` of at most `n` bytes. None is `-1`, and no bytes are the end of the connection. -/
def Connection.read (k : Connection) (n : ℕ) : Option Bytes × Connection :=
  match k.reads with
  | [] => (some (k.stream.take n), { k with stream := k.stream.drop n })
  | none :: reads => (none, { k with reads })
  | some size :: reads =>
    (some (k.stream.take (min size n)), { stream := k.stream.drop (min size n), reads })

/-- Every call of `read` returns something as long as there are bytes. -/
def Connection.Alive (k : Connection) : Prop := ∀ r ∈ k.reads, ∃ size, r = some size ∧ 0 < size

/-- The loop `while (need)` that reads the bytes that are still needed: the bytes, or what
`wrap_Recv` returns instead, which is `err` for an error and 0 at the end of the connection. -/
def readLoop (err : ℤ) (need : ℕ) (k : Connection) : Except ℤ Bytes × Connection :=
  if need = 0 then (.ok [], k)
  else
    match k.read need with
    | (none, k) => (.error err, k)
    | (some [], k) => (.error 0, k)
    | (some (b :: bytes), k) =>
      match readLoop err (need - (bytes.length + 1)) k with
      | (.ok rest, k) => (.ok (b :: bytes ++ rest), k)
      | (.error e, k) => (.error e, k)
termination_by need
decreasing_by omega

/-- `wrap_Recv`. -/
def wrapRecv (k : Connection) : PyItem × Connection :=
  match k.read 4 with
  | (none, k) => (.int (-2), k)
  | (some szHead, k) =>
    match readLoop (-3) (4 - szHead.length) k with
    | (.error e, k) => (.int e, k)
    | (.ok more, k) =>
      let nBodyLen := leNat ((szHead ++ more).take 3)
      match readLoop (-4) nBodyLen k with
      | (.error e, k) => (.int e, k)
      | (.ok szBody, k) => (.str szBody, k)

/-- What a call of `read` returns, and what it leaves. -/
theorem Connection.read_spec {k : Connection} (hk : k.Alive) {n : ℕ} (hn : 0 < n)
    (hs : k.stream ≠ []) : ∃ i k', 0 < i ∧ i ≤ n ∧ i ≤ k.stream.length ∧
      k.read n = (some (k.stream.take i), k') ∧ k'.stream = k.stream.drop i ∧ k'.Alive := by
  have hlen : 0 < k.stream.length := List.length_pos_of_ne_nil hs
  have hcut : ∀ j, k.stream.take (min j k.stream.length) = k.stream.take j ∧
      k.stream.drop (min j k.stream.length) = k.stream.drop j := by
    intro j
    rcases Nat.le_total j k.stream.length with h | h
    · rw [min_eq_left h]
      exact ⟨rfl, rfl⟩
    · rw [min_eq_right h, List.take_length, List.drop_length, List.take_of_length_le h,
        List.drop_of_length_le h]
      exact ⟨rfl, rfl⟩
  unfold Connection.read
  split
  case h_1 =>
    refine ⟨min n k.stream.length, { k with stream := k.stream.drop n }, by omega, by omega,
      by omega, ?_, ?_, hk⟩
    · rw [(hcut n).1]
    · rw [(hcut n).2]
  case h_2 reads hreads =>
    obtain ⟨size, hsize, -⟩ := hk none (hreads ▸ List.mem_cons_self)
    cases hsize
  case h_3 size reads hreads =>
    obtain ⟨size', hsize, hpos⟩ := hk (some size) (hreads ▸ List.mem_cons_self)
    obtain rfl := Option.some.inj hsize
    refine ⟨min (min size n) k.stream.length,
      { stream := k.stream.drop (min size n), reads := reads }, by omega, by omega, by omega,
      ?_, ?_, ?_⟩
    · rw [(hcut _).1]
    · rw [(hcut _).2]
    · exact fun r hr => hk r (hreads ▸ List.mem_cons_of_mem _ hr)

/-- The loop reads the bytes that are needed, whatever `read` returns at a time. -/
theorem readLoop_spec (err : ℤ) {need : ℕ} {k : Connection} (hk : k.Alive) {b rest : Bytes}
    (hs : k.stream = b ++ rest) (hb : b.length = need) :
    ∃ k', readLoop err need k = (.ok b, k') ∧ k'.stream = rest ∧ k'.Alive := by
  induction need using Nat.strong_induction_on generalizing k b with
  | _ need ih =>
    unfold readLoop
    by_cases h0 : need = 0
    · obtain rfl := List.eq_nil_of_length_eq_zero (hb.trans h0)
      exact ⟨k, if_pos h0, hs, hk⟩
    · have hne : k.stream ≠ [] := by
        rintro hnil
        rw [hnil] at hs
        have := congrArg List.length hs
        rw [List.length_append] at this
        simp only [List.length_nil] at this
        omega
      obtain ⟨i, k₁, hi, hin, hik, hread, hk₁, hlive⟩ :=
        Connection.read_spec hk (Nat.pos_of_ne_zero h0) hne
      have htake : k.stream.take i = b.take i := by
        rw [hs, List.take_append_of_le_length (by omega)]
      have hdrop : k₁.stream = b.drop i ++ rest := by
        rw [hk₁, hs, List.drop_append_of_le_length (by omega)]
      obtain ⟨c, bytes, hcons⟩ : ∃ c bytes, b.take i = c :: bytes := by
        refine List.exists_cons_of_ne_nil ?_
        rw [← List.length_pos_iff, List.length_take]
        omega
      have hlen : bytes.length + 1 = i := by
        have := congrArg List.length hcons
        rw [List.length_take, List.length_cons] at this
        omega
      obtain ⟨k₂, hloop, hk₂, hlive₂⟩ := ih (need - (bytes.length + 1)) (by omega) hlive hdrop
        (by rw [List.length_drop]; omega)
      refine ⟨k₂, ?_, hk₂, hlive₂⟩
      rw [if_neg h0, hread, htake, hcons]
      dsimp only
      rw [hloop]
      dsimp only
      rw [← hcons, List.take_append_drop]

/-- A packet with the given sequence number. -/
def packet (seq : UInt8) (body : Bytes) : Bytes := leBytes 3 body.length ++ [seq] ++ body

/-- `wrap_Recv` returns the body of the packet that the stream starts with, and leaves the stream at
the next packet. -/
theorem wrapRecv_packet {k : Connection} (hk : k.Alive) {seq : UInt8} {body rest : Bytes}
    (hs : k.stream = packet seq body ++ rest) (hbody : body.length < 16777216) :
    ∃ k', wrapRecv k = (.str body, k') ∧ k'.stream = rest ∧ k'.Alive := by
  have hhead : (leBytes 3 body.length ++ [seq]).length = 4 := by simp
  have hstream : k.stream = (leBytes 3 body.length ++ [seq]) ++ (body ++ rest) := by
    rw [hs, packet, List.append_assoc]
  have hne : k.stream ≠ [] := by
    rw [hstream]
    exact List.append_ne_nil_of_left_ne_nil (by simp) _
  obtain ⟨i, k₁, hi, hi4, hik, hread, hk₁, hlive₁⟩ :=
    Connection.read_spec hk (n := 4) (by omega) hne
  have htake : k.stream.take i = (leBytes 3 body.length ++ [seq]).take i := by
    rw [hstream, List.take_append_of_le_length (by omega)]
  have hdrop : k₁.stream = (leBytes 3 body.length ++ [seq]).drop i ++ (body ++ rest) := by
    rw [hk₁, hstream, List.drop_append_of_le_length (by omega)]
  have hmore : 4 - (k.stream.take i).length = ((leBytes 3 body.length ++ [seq]).drop i).length := by
    rw [htake, List.length_take, List.length_drop]
    omega
  obtain ⟨k₂, hloop, hk₂, hlive₂⟩ := readLoop_spec (-3) hlive₁ hdrop rfl
  obtain ⟨k₃, hloop₃, hk₃, hlive₃⟩ := readLoop_spec (-4) hlive₂ hk₂ rfl
  refine ⟨k₃, ?_, hk₃, hlive₃⟩
  have hlength : leNat ((leBytes 3 body.length ++ [seq]).take 3) = body.length := by
    rw [List.take_left' (length_leBytes 3 _), leNat_leBytes (by omega)]
  unfold wrapRecv
  rw [hread]
  dsimp only
  rw [hmore, hloop]
  dsimp only
  rw [htake, List.take_append_drop, hlength, hloop₃]

/-! ## `get_event` -/

/-- What `get_event` appends to its buffer for what `Recv` has returned. For a number it returns,
raises an exception, or fails to take a slice of it. -/
def appended : PyItem → Option Bytes
  | .str Data => some (Data.drop 1)
  | _ => none

/-- What `get_event` appends for the next `n` packets. -/
def receive : ℕ → Connection → Option Bytes
  | 0, _ => some []
  | n + 1, k => do
    let (Data, k) := wrapRecv k
    let piece ← appended Data
    let rest ← receive n k
    return piece ++ rest

/-! ## The master's packets -/

/-- The largest body of a packet. -/
def maxPacket : ℕ := 16777215

/-- The bodies of the packets of a payload: one of the largest size is continued. -/
def split (payload : Bytes) : List Bytes :=
  if payload.length < maxPacket then [payload]
  else payload.take maxPacket :: split (payload.drop maxPacket)
termination_by payload.length
decreasing_by
  unfold maxPacket at *
  rw [List.length_drop]
  omega

/-- The bodies of the packets for the events: the payload of an event is a status byte 0 and the
event. -/
def bodies (events : List Bytes) : List Bytes := events.flatMap fun e => split (0 :: e)

/-- The packets with the given bodies, numbered from `seq` on. -/
def packets : ℕ → List Bytes → Bytes
  | _, [] => []
  | seq, body :: rest => packet (UInt8.ofNat seq) body ++ packets (seq + 1) rest

/-- A payload is sent in packets of legal size. -/
theorem length_le_of_mem_split {payload body : Bytes} (h : body ∈ split payload) :
    body.length ≤ maxPacket := by
  induction payload using split.induct with
  | case1 payload hlt =>
    rw [split, if_pos hlt, List.mem_singleton] at h
    rw [h]
    exact hlt.le
  | case2 payload hlt ih =>
    rw [split, if_neg hlt] at h
    rcases List.mem_cons.mp h with rfl | h
    · rw [List.length_take]
      omega
    · exact ih h

/-- `get_event` appends the bodies without their first bytes, whatever `read` returns at a time. -/
theorem receive_packets {bs : List Bytes} {k : Connection} (hk : k.Alive) {seq : ℕ} {rest : Bytes}
    (hs : k.stream = packets seq bs ++ rest) (hbs : ∀ b ∈ bs, b.length ≤ maxPacket) :
    receive bs.length k = some (bs.map (List.drop 1)).flatten := by
  induction bs generalizing k seq with
  | nil => rfl
  | cons b bs ih =>
    have hb : b.length < 16777216 := by
      have := hbs b List.mem_cons_self
      unfold maxPacket at this
      omega
    rw [packets, List.append_assoc] at hs
    obtain ⟨k', hrecv, hk', hlive⟩ := wrapRecv_packet hk hs hb
    have hrest := ih hlive hk' fun b' hb' => hbs b' (List.mem_cons_of_mem _ hb')
    simp only [List.length_cons, receive, hrecv, appended, hrest, Option.bind_eq_bind,
      Option.bind_some, List.map_cons, List.flatten_cons]
    rfl

/-- How many bytes are lost of a payload: one of each of its packets that is not empty. -/
def lost (payload : Bytes) : ℕ := ((split payload).map fun b => min 1 b.length).sum

/-- The bytes that come through and those that are lost make up the payload. -/
theorem length_received_add_lost (payload : Bytes) :
    ((split payload).map (List.drop 1)).flatten.length + lost payload = payload.length := by
  unfold lost
  induction payload using split.induct with
  | case1 payload hlt =>
    rw [split, if_pos hlt]
    simp only [List.map_cons, List.map_nil, List.flatten_cons, List.flatten_nil, List.append_nil,
      List.length_drop, List.sum_cons, List.sum_nil]
    omega
  | case2 payload hlt ih =>
    rw [split, if_neg hlt]
    simp only [List.map_cons, List.flatten_cons, List.length_append, List.length_drop,
      List.length_take, List.sum_cons] at ih ⊢
    unfold maxPacket at *
    omega

/-- Of a payload in one packet the first byte is lost, and of a longer one more than that. -/
theorem lost_eq (payload : Bytes) (hne : payload ≠ []) :
    1 ≤ lost payload ∧ (lost payload = 1 ↔ payload.length ≤ maxPacket) := by
  have hpos : 0 < payload.length := List.length_pos_of_ne_nil hne
  unfold lost
  rw [split]
  split
  · rename_i hlt
    simp only [List.map_cons, List.map_nil, List.sum_cons, List.sum_nil]
    omega
  · rename_i hlt
    have hfirst : min 1 (payload.take maxPacket).length = 1 := by
      rw [List.length_take]
      unfold maxPacket at *
      omega
    rw [List.map_cons, List.sum_cons, hfirst]
    refine ⟨by omega, ?_⟩
    rw [Nat.add_eq_left]
    by_cases hlen : payload.length ≤ maxPacket
    · -- the packet that goes on is empty
      have hdrop : payload.drop maxPacket = [] := List.drop_of_length_le hlen
      rw [hdrop, split, if_pos (by simp [maxPacket])]
      simp [hlen]
    · -- the packet that goes on has a first byte
      refine iff_of_false ?_ hlen
      rw [split]
      have hrest : 0 < (payload.drop maxPacket).length := by
        rw [List.length_drop]
        omega
      split
      · simp only [List.map_cons, List.map_nil, List.sum_cons, List.sum_nil]
        omega
      · rw [List.map_cons, List.sum_cons]
        have : min 1 ((payload.drop maxPacket).take maxPacket).length = 1 := by
          rw [List.length_take]
          unfold maxPacket at *
          omega
        omega

/-- The bytes that `get_event` appends for a payload of one packet are the event. -/
theorem received_of_short {e : Bytes} (h : e.length < maxPacket) :
    ((split (0 :: e)).map (List.drop 1)).flatten = e := by
  rw [split]
  split
  · simp
  · rename_i hlt
    -- The payload fills the packet exactly, and an empty packet follows.
    have hlen : (0 :: e : Bytes).length = maxPacket := by
      rw [List.length_cons] at hlt ⊢
      omega
    rw [List.drop_of_length_le hlen.le, List.take_of_length_le hlen.le, split,
      if_pos (by simp [maxPacket])]
    simp

/-- The events come out of their packets: for every numbering and whatever `read` returns at a time,
what `get_event` appends for all the packets of the events is the events. -/
def Reassembled (events : List Bytes) : Prop :=
  ∀ (k : Connection) (seq : ℕ), k.Alive → k.stream = packets seq (bodies events) →
    receive (bodies events).length k = some events.flatten

/-- What `get_event` appends for the packets of the events. -/
theorem receive_bodies {events : List Bytes} {k : Connection} {seq : ℕ} (hk : k.Alive)
    (hs : k.stream = packets seq (bodies events)) :
    receive (bodies events).length k = some ((bodies events).map (List.drop 1)).flatten := by
  have hs' : k.stream = packets seq (bodies events) ++ [] := hs.trans (List.append_nil _).symm
  refine receive_packets hk hs' ?_
  intro b hb
  obtain ⟨e, -, he⟩ := List.mem_flatMap.mp hb
  exact length_le_of_mem_split he

/-- No more bytes come through than the events have, and as many only when each event fits into a
packet with its status byte. -/
theorem length_received_le (events : List Bytes) :
    ((bodies events).map (List.drop 1)).flatten.length ≤ events.flatten.length ∧
      (((bodies events).map (List.drop 1)).flatten.length = events.flatten.length →
        ∀ e ∈ events, e.length < maxPacket) := by
  induction events with
  | nil => exact ⟨le_rfl, fun _ e he => absurd he List.not_mem_nil⟩
  | cons e events ih =>
    obtain ⟨hle, heq⟩ := ih
    have hadd := length_received_add_lost (0 :: e)
    obtain ⟨hlost, hone⟩ := lost_eq (0 :: e) (List.cons_ne_nil _ _)
    have hsplit : ((bodies (e :: events)).map (List.drop 1)).flatten.length =
        ((split (0 :: e)).map (List.drop 1)).flatten.length +
          ((bodies events).map (List.drop 1)).flatten.length := by
      rw [bodies, List.flatMap_cons, List.map_append, List.flatten_append, List.length_append]
      rfl
    have hflat : (e :: events).flatten.length = e.length + events.flatten.length := by
      rw [List.flatten_cons, List.length_append]
    rw [List.length_cons] at hadd hone
    refine ⟨by omega, ?_⟩
    intro h e' he'
    rcases List.mem_cons.mp he' with rfl | he'
    · have := hone.mp (by omega)
      omega
    · exact heq (by omega) e' he'

/-- The events come out of their packets if and only if each event fits into a packet with its
status byte, which is when it has at most `2 ^ 24 - 2` bytes. -/
theorem reassembled_iff (events : List Bytes) :
    Reassembled events ↔ ∀ e ∈ events, e.length < maxPacket := by
  constructor
  · intro h
    have hrecv := h ⟨packets 0 (bodies events), []⟩ 0 (fun r hr => absurd hr List.not_mem_nil) rfl
    rw [receive_bodies (fun r hr => absurd hr List.not_mem_nil) rfl] at hrecv
    exact (length_received_le events).2 (congrArg List.length (Option.some.inj hrecv))
  · intro h k seq hk hs
    rw [receive_bodies hk hs]
    apply congrArg some
    clear hs
    induction events with
    | nil => rfl
    | cons e events ih =>
      have hrest := ih fun e' he' => h e' (List.mem_cons_of_mem _ he')
      rw [bodies, List.flatMap_cons, List.map_append, List.flatten_append,
        received_of_short (h e List.mem_cons_self), List.flatten_cons]
      exact congrArg (e ++ ·) hrest

/-- A rows event whose length is the largest body of a packet. -/
def longEvent : Bytes :=
  encodeEvent ⟨0, 1, 0, 0⟩ writeRowsEvent (List.replicate 16777196 0)

/-- It is sent in two packets, and its last byte is lost with the second. -/
theorem longEvent_not_reassembled : IsEvent longEvent ∧ ¬Reassembled [longEvent] := by
  have hlen : longEvent.length = maxPacket := by
    unfold longEvent
    rw [length_encodeEvent, List.length_replicate]
    rfl
  refine ⟨isEvent_encodeEvent _ _ (by rw [List.length_replicate]; omega), ?_⟩
  intro h
  have hrecv := h ⟨packets 0 (bodies [longEvent]), []⟩ 0
    (fun r hr => absurd hr List.not_mem_nil) rfl
  rw [receive_bodies (fun r hr => absurd hr List.not_mem_nil) rfl] at hrecv
  have hshort := (length_received_le [longEvent]).2
    (congrArg List.length (Option.some.inj hrecv)) longEvent List.mem_cons_self
  omega

end MgCommonUtils.Ebinlog
