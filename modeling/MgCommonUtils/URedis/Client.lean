import MgCommonUtils.Lib.Keyed
import MgCommonUtils.URedis.Frame

/-!
# The UDP clients

`uRedis_mget` of `uRedis.php` and `uMemcache_mget` of `uMemcache.php` send a request in one datagram
and receive the datagrams of the reply. The payloads are stored in a PHP array under their sequence
numbers, and `implode` concatenates them when there are as many as the reply has datagrams. A PHP
array is in the order in which its keys came first, so the reply comes out right if and only if its
datagrams arrive for the first time in the order of their numbers (`reply_reassembled_iff`).
-/

namespace MgCommonUtils.URedis

open MgCommonUtils.Lib

/-! ## The model -/

/-- A PHP array with integer keys, in its order: `$rs[$k]=$v` overwrites the element of the key, or
appends one (`Keyed.put`). -/
abbrev PhpArray := List (ℕ × Bytes)

/-- `implode("",$rs)`. -/
def implode (rs : PhpArray) : Bytes := (rs.map Prod.snd).flatten

/-- The loop of the clients that receives the datagrams `ds` into a buffer of `size` bytes, with the
elements `rs` stored so far. The result is `$rstr`, or `$err`. -/
def receiveLoop (req size : ℕ) (rs : PhpArray) : List Bytes → Except String Bytes
  | [] => .error "recvfrom failed."
  | d :: ds =>
    let rbuf := d.take size
    match headerDecode rbuf with
    | none => .error "bad UDP header."
    | some hdr =>
      if req ≠ hdr.req then receiveLoop req size rs ds
      else
        let rs := Keyed.put Prod.fst rs (hdr.seq, rbuf.drop 8)
        if rs.length = hdr.ngram then .ok (implode rs) else receiveLoop req size rs ds

/-- `$rstr` in `uRedis_mget`. -/
def uRedisReceive (req : ℕ) (ds : List Bytes) : Except String Bytes := receiveLoop req 1024 [] ds

/-- `$rstr` in `uMemcache_mget`. -/
def uMemcacheReceive (req : ℕ) (ds : List Bytes) : Except String Bytes :=
  receiveLoop req 1400 [] ds

/-! ## Deliveries -/

/-- A datagram that arrives. -/
inductive Arrival
  /-- The datagram of the reply with the number `i`. -/
  | own (i : ℕ)
  /-- A datagram of another request. -/
  | other (d : Bytes)
  deriving DecidableEq

/-- A reply of `n` datagrams to the request `req`. -/
structure Reply (req n : ℕ) where
  /-- The payloads of the datagrams. -/
  payload : ℕ → Bytes

/-- The bytes of the datagram `i`. -/
def Reply.datagram {req n : ℕ} (r : Reply req n) (i : ℕ) : Bytes :=
  word req ++ word i ++ word n ++ [0, 0] ++ r.payload i

/-- The concatenation of the payloads in the order of their numbers. -/
def Reply.text {req n : ℕ} (r : Reply req n) : Bytes := ((List.range n).map r.payload).flatten

/-- The datagrams fit into the buffer. -/
def Reply.Fits {req n : ℕ} (r : Reply req n) (size : ℕ) : Prop :=
  ∀ i < n, (r.datagram i).length ≤ size

/-- The bytes that arrive. -/
def Arrival.bytes {req n : ℕ} (r : Reply req n) : Arrival → Bytes
  | .own i => r.datagram i
  | .other d => d

/-- A delivery of a reply of `n` datagrams to the request `req`: each of them arrives, possibly more
than once, and what else arrives are datagrams of other requests. -/
structure Delivery (req n size : ℕ) (as : List Arrival) : Prop where
  /-- There is a datagram. -/
  pos : 0 < n
  /-- Their number fits into the header. -/
  le : n ≤ 65535
  /-- The request id fits into the header. -/
  req_le : req ≤ 65535
  /-- What arrives of the reply are its datagrams. -/
  lt : ∀ i, .own i ∈ as → i < n
  /-- Each of them arrives. -/
  all : ∀ i < n, .own i ∈ as
  /-- What else arrives has the id of another request. -/
  other : ∀ d, .other d ∈ as → ∃ hdr, headerDecode (d.take size) = some hdr ∧ hdr.req ≠ req

/-- The numbers of the datagrams of the reply in the order in which they arrive for the first time,
after those in `seen`. -/
def firstSeen (seen : List ℕ) : List Arrival → List ℕ
  | [] => seen
  | .own i :: as => firstSeen (if i ∈ seen then seen else seen ++ [i]) as
  | .other _ :: as => firstSeen seen as

/-- What arrives later comes after what is seen. -/
theorem exists_firstSeen_eq (seen : List ℕ) (as : List Arrival) :
    ∃ later, firstSeen seen as = seen ++ later := by
  induction as generalizing seen with
  | nil => exact ⟨[], (List.append_nil seen).symm⟩
  | cons a as ih =>
    cases a with
    | other d => exact ih seen
    | own i =>
      obtain ⟨later, hlater⟩ := ih (if i ∈ seen then seen else seen ++ [i])
      rw [firstSeen, hlater]
      split
      · exact ⟨later, rfl⟩
      · exact ⟨i :: later, by rw [List.append_assoc, List.singleton_append]⟩

/-- Each number is seen for the first time once. -/
theorem nodup_firstSeen {seen : List ℕ} (hseen : seen.Nodup) (as : List Arrival) :
    (firstSeen seen as).Nodup := by
  induction as generalizing seen with
  | nil => exact hseen
  | cons a as ih =>
    cases a with
    | other d => exact ih hseen
    | own i =>
      refine ih ?_
      split
      · exact hseen
      · rename_i hi
        refine List.nodup_append.mpr ⟨hseen, by simp, fun a ha b hb => ?_⟩
        rintro rfl
        exact hi (List.mem_singleton.mp hb ▸ ha)

/-- The numbers that are seen are those before and those that arrive. -/
theorem mem_firstSeen {seen : List ℕ} {as : List Arrival} {i : ℕ} :
    i ∈ firstSeen seen as ↔ i ∈ seen ∨ .own i ∈ as := by
  induction as generalizing seen with
  | nil => simp [firstSeen]
  | cons a as ih =>
    cases a with
    | other d => simp [firstSeen, ih]
    | own j =>
      rw [firstSeen, ih]
      by_cases hj : j ∈ seen
      · rw [if_pos hj]
        have : i = j → i ∈ seen := fun h => h ▸ hj
        simp only [List.mem_cons, Arrival.own.injEq]
        tauto
      · rw [if_neg hj]
        simp only [List.mem_append, List.mem_cons, Arrival.own.injEq]
        tauto

/-- The datagrams of a delivery are all seen. -/
theorem Delivery.perm_firstSeen {req n size : ℕ} {as : List Arrival}
    (h : Delivery req n size as) : (firstSeen [] as).Perm (List.range n) := by
  refine (List.perm_ext_iff_of_nodup (nodup_firstSeen List.nodup_nil as) List.nodup_range).mpr ?_
  intro i
  rw [mem_firstSeen, List.mem_range]
  constructor
  · rintro (hi | hi)
    · exact absurd hi List.not_mem_nil
    · exact h.lt i hi
  · exact fun hi => .inr (h.all i hi)

/-! ## What is received -/

/-- The array after the datagrams with the given numbers. -/
def Reply.stored {req n : ℕ} (r : Reply req n) (seen : List ℕ) : PhpArray :=
  seen.map fun i => (i, r.payload i)

/-- The array after one more datagram. -/
theorem Reply.put_stored {req n : ℕ} (r : Reply req n) (seen : List ℕ) (i : ℕ) :
    Keyed.put Prod.fst (r.stored seen) (i, r.payload i) =
      r.stored (if i ∈ seen then seen else seen ++ [i]) := by
  have hkeys : (r.stored seen).map Prod.fst = seen := by
    simp [Reply.stored, Function.comp_def]
  by_cases hi : i ∈ seen
  · -- the element of a duplicate is overwritten with itself
    rw [Keyed.put_of_mem (by rwa [hkeys]), if_pos hi, Keyed.overwrite, Reply.stored, List.map_map]
    refine List.map_congr_left fun j _ => ?_
    dsimp only [Function.comp]
    split
    · rename_i hj
      rw [hj]
    · rfl
  · rw [Keyed.put_of_notMem (by rwa [hkeys]), if_neg hi, Reply.stored, Reply.stored,
      List.map_append, List.map_singleton]

/-- The header and the payload of a datagram of the reply. -/
theorem Reply.datagram_spec {req n : ℕ} (r : Reply req n) {i : ℕ} (hr : req ≤ 65535)
    (hi : i < n) (hn : n ≤ 65535) : headerDecode (r.datagram i) = some ⟨req, i, n⟩ ∧
      (r.datagram i).drop 8 = r.payload i := by
  have henc := headerEncode_of_le hr (show i ≤ 65535 by omega) hn
  refine ⟨headerDecode_headerEncode henc _, ?_⟩
  exact List.drop_left' (length_of_headerEncode henc)

/-- The loop returns the payloads in the order in which their datagrams arrive for the first
time. -/
theorem receiveLoop_eq {req n size : ℕ} (r : Reply req n) (hfits : r.Fits size)
    (hr : req ≤ 65535) (hn : n ≤ 65535) {as : List Arrival} {seen : List ℕ}
    (hlt : ∀ i, .own i ∈ as → i < n)
    (hother : ∀ d, .other d ∈ as → ∃ hdr, headerDecode (d.take size) = some hdr ∧ hdr.req ≠ req)
    (hseen : seen.length < n) (hall : (firstSeen seen as).length = n) :
    receiveLoop req size (r.stored seen) (as.map (Arrival.bytes r)) =
      .ok ((firstSeen seen as).map r.payload).flatten := by
  induction as generalizing seen with
  | nil =>
    rw [firstSeen] at hall
    omega
  | cons a as ih =>
    have hlt' : ∀ i, .own i ∈ as → i < n := fun i hi => hlt i (List.mem_cons_of_mem _ hi)
    have hother' := fun d hd => hother d (List.mem_cons_of_mem _ hd)
    rw [List.map_cons, receiveLoop]
    cases a with
    | other d =>
      obtain ⟨hdr, hdec, hne⟩ := hother d List.mem_cons_self
      simp only [Arrival.bytes, hdec]
      rw [if_pos (Ne.symm hne)]
      exact ih hlt' hother' hseen hall
    | own i =>
      have hi := hlt i List.mem_cons_self
      obtain ⟨hdec, hdrop⟩ := r.datagram_spec hr hi hn
      have hwhole : (r.datagram i).take size = r.datagram i := List.take_of_length_le (hfits i hi)
      simp only [Arrival.bytes, hwhole, hdec, hdrop]
      rw [if_neg (by simp), r.put_stored]
      rw [firstSeen] at hall ⊢
      generalize hnext : (if i ∈ seen then seen else seen ++ [i]) = next at hall ⊢
      have hlen : (r.stored next).length = next.length := List.length_map _
      rw [hlen]
      split
      · rename_i hdone
        -- Everything is seen, and what arrives later changes nothing.
        obtain ⟨later, hlater⟩ := exists_firstSeen_eq next as
        have hnil : later = [] := by
          rw [hlater, List.length_append] at hall
          exact List.eq_nil_of_length_eq_zero (by omega)
        rw [hlater, hnil, List.append_nil, implode, Reply.stored, List.map_map]
        rfl
      · rename_i hmore
        refine ih hlt' hother' ?_ hall
        obtain ⟨later, hlater⟩ := exists_firstSeen_eq next as
        rw [hlater, List.length_append] at hall
        omega

/-- What is received from a delivery. -/
theorem Delivery.receiveLoop_eq {req n size : ℕ} {as : List Arrival} (h : Delivery req n size as)
    (r : Reply req n) (hfits : r.Fits size) :
    receiveLoop req size [] (as.map (Arrival.bytes r)) =
      .ok ((firstSeen [] as).map r.payload).flatten := by
  change receiveLoop req size (r.stored []) _ = _
  refine URedis.receiveLoop_eq r hfits h.req_le h.le h.lt h.other h.pos ?_
  rw [h.perm_firstSeen.length_eq, List.length_range]

/-! ## The order -/

/-- The reply whose payloads are all the byte 0 but for that of the datagram `b`. -/
def marked (req n b : ℕ) : Reply req n where
  payload i := if i = b then [1] else [0]

/-- The payloads in another order give another string for some of these replies. -/
theorem eq_range_of_marked {n : ℕ} {order : List ℕ} (hperm : order.Perm (List.range n))
    (h : ∀ b < n, (order.map (marked 0 n b).payload).flatten =
      ((List.range n).map (marked 0 n b).payload).flatten) : order = List.range n := by
  have hflat : ∀ (l : List ℕ) (b : ℕ), (l.map (marked 0 n b).payload).flatten =
      l.map fun i => if i = b then (1 : UInt8) else 0 := by
    intro l b
    induction l with
    | nil => rfl
    | cons i l ih =>
      rw [List.map_cons, List.flatten_cons, ih, List.map_cons]
      unfold marked
      dsimp only
      split
      · rfl
      · rfl
  have hlen : order.length = n := by
    rw [hperm.length_eq, List.length_range]
  refine List.ext_getElem (by rw [hlen, List.length_range]) fun k hk hk' => ?_
  have hb : order[k] < n := List.mem_range.mp (hperm.mem_iff.mp (List.getElem_mem hk))
  have heq := h order[k] hb
  rw [hflat, hflat] at heq
  have hget := List.getElem_of_eq heq (by simpa using hk)
  rw [List.getElem_map, List.getElem_map, if_pos rfl] at hget
  by_contra hne
  rw [if_neg (Ne.symm hne)] at hget
  exact absurd hget (by decide)

/-- The payloads of these replies fit. -/
theorem marked_fits {req n b size : ℕ} (hsize : 9 ≤ size) : (marked req n b).Fits size := by
  intro i _
  have hlen : ((marked req n b).datagram i).length = 9 := by
    unfold Reply.datagram marked
    dsimp only
    split
    · rfl
    · rfl
  omega

/-- A client whose buffer has `size` bytes gets every reply of `n` datagrams that fit, when the
datagrams arrive as in `as`. -/
def Reassembled (req n size : ℕ) (as : List Arrival) : Prop :=
  ∀ r : Reply req n, r.Fits size →
    receiveLoop req size [] (as.map (Arrival.bytes r)) = .ok r.text

/-- The replies are reassembled if and only if their datagrams arrive for the first time in the
order of their numbers. -/
theorem Delivery.reassembles_iff {req n size : ℕ} {as : List Arrival}
    (h : Delivery req n size as) (hsize : 9 ≤ size) :
    Reassembled req n size as ↔ firstSeen [] as = List.range n := by
  constructor
  · intro hre
    refine eq_range_of_marked h.perm_firstSeen fun b _ => ?_
    have hrecv := hre (marked req n b) (marked_fits hsize)
    rw [h.receiveLoop_eq _ (marked_fits hsize)] at hrecv
    exact Except.ok.inj hrecv
  · intro horder r hfits
    rw [h.receiveLoop_eq r hfits, horder]
    rfl

/-- In both clients, the string that is decoded is the concatenation of the payloads in the order of
their sequence numbers, for every reply, if and only if the datagrams of the reply arrive for the
first time in that order. -/
theorem reply_reassembled_iff {req n : ℕ} {as : List Arrival} :
    (Delivery req n 1024 as → ((∀ r : Reply req n, r.Fits 1024 →
      uRedisReceive req (as.map (Arrival.bytes r)) = .ok r.text) ↔
        firstSeen [] as = List.range n)) ∧
    (Delivery req n 1400 as → ((∀ r : Reply req n, r.Fits 1400 →
      uMemcacheReceive req (as.map (Arrival.bytes r)) = .ok r.text) ↔
        firstSeen [] as = List.range n)) :=
  ⟨fun h => h.reassembles_iff (by decide), fun h => h.reassembles_iff (by decide)⟩

/-- The datagrams 0 and 1 in their order, a duplicate, and a datagram of the request 8. -/
def inOrder : List Arrival :=
  [.own 0, .other (word 8 ++ word 0 ++ word 1 ++ [0, 0]), .own 0, .own 1]

/-- They are a delivery of a reply of two datagrams to the request 7. -/
theorem delivery_inOrder {size : ℕ} (h : 8 ≤ size) : Delivery 7 2 size inOrder where
  pos := by decide
  le := by decide
  req_le := by decide
  lt := by
    intro i hi
    simp only [inOrder, List.mem_cons, Arrival.own.injEq, reduceCtorEq, List.not_mem_nil,
      or_false, false_or] at hi
    omega
  all := by
    intro i hi
    simp only [inOrder, List.mem_cons, Arrival.own.injEq, reduceCtorEq, List.not_mem_nil,
      or_false, false_or]
    omega
  other := by
    intro d hd
    simp only [inOrder, List.mem_cons, Arrival.other.injEq, reduceCtorEq, List.not_mem_nil,
      or_false, false_or] at hd
    refine ⟨⟨8, 0, 1⟩, ?_, by decide⟩
    rw [hd, List.take_of_length_le (by simpa [word] using h)]
    decide

/-- Both clients reassemble every reply of two datagrams that is delivered so. -/
theorem reply_reassembled_iff_inOrder :
    ((∀ r : Reply 7 2, r.Fits 1024 →
      uRedisReceive 7 (inOrder.map (Arrival.bytes r)) = .ok r.text) ↔
        firstSeen [] inOrder = List.range 2) ∧
    ((∀ r : Reply 7 2, r.Fits 1400 →
      uMemcacheReceive 7 (inOrder.map (Arrival.bytes r)) = .ok r.text) ↔
        firstSeen [] inOrder = List.range 2) :=
  ⟨reply_reassembled_iff.1 (delivery_inOrder (by decide)),
    reply_reassembled_iff.2 (delivery_inOrder (by decide))⟩

/-- The reply whose two datagrams have the payloads `"*1\r\n$-1"` and `"\r\n"`. -/
def absentReply : Reply 7 2 where
  payload i := if i = 0 then [42, 49, 13, 10, 36, 45, 49] else [13, 10]

/-- Its datagrams arrive in the other order, and neither client gets the reply. -/
theorem reversed_not_reassembled :
    uRedisReceive 7 ([.own 1, .own 0].map (Arrival.bytes absentReply)) =
        .ok [13, 10, 42, 49, 13, 10, 36, 45, 49] ∧
      uMemcacheReceive 7 ([.own 1, .own 0].map (Arrival.bytes absentReply)) =
        .ok [13, 10, 42, 49, 13, 10, 36, 45, 49] ∧
      absentReply.text = [42, 49, 13, 10, 36, 45, 49, 13, 10] := by
  decide +kernel

end MgCommonUtils.URedis
