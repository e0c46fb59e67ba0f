import MgCommonUtils.Lib.Buffer
import MgCommonUtils.URedis.Decode

/-!
# The datagrams of a reply

The loop at the label `uend` of `processCommandFromUdpClient`, on the arrays that it works on: each
datagram is put together in `pbuf`, out of a header and a part of `wbuf`, whose size is the
payload's or what is left of the reply. What it sends are the datagrams of `sendLoop` (`uend_eq`).
Each of them fits into `psize` bytes, has its number and the number of all datagrams in its header,
and the payloads make up the reply (`uend_spec`). A reply that fills its datagrams up is followed by
a datagram with no payload.
-/

namespace MgCommonUtils.URedis

open MgCommonUtils.Lib

/-! ## The model -/

/-- `hdr_len`. -/
def hdrLen : ℕ := 8

/-- A turn of the loop: the bytes that `anetUdpSendTo` is given. Where `headerEncode` returns -1, it
has written nothing. -/
def sendGram (wbuf : Bytes) (wlen req seq ngram : ℕ) : Bytes :=
  let wpos : ℤ := seq * (psize - hdrLen)
  let wsize : ℤ := if wlen - wpos > psize - hdrLen then psize - hdrLen else wlen - wpos
  let pbuf := List.replicate psize 0
  let pbuf :=
    match headerEncode req seq ngram with
    | none => pbuf
    | some hdr => memcpy pbuf 0 hdr
  let pbuf := memcpy pbuf hdrLen ((wbuf.drop wpos.toNat).take wsize.toNat)
  pbuf.take (wsize + hdrLen).toNat

/-- The part of `processCommandFromUdpClient` from `uend` on, as long as `anetUdpSendTo` succeeds:
the datagrams that are sent. -/
def uend (wbuf : Bytes) (wlen req : ℕ) : List Bytes :=
  let ngram := wlen / (psize - hdrLen) + 1
  (List.range ngram).map fun seq => sendGram wbuf wlen req seq ngram

/-! ## What is sent -/

/-- The front of `pbuf` after `headerEncode`. -/
theorem pbuf_header (req seq ngram : ℕ) :
    (match headerEncode req seq ngram with
      | none => List.replicate psize 0
      | some hdr => memcpy (List.replicate psize 0) 0 hdr) =
      (headerEncode req seq ngram).getD (List.replicate 8 0) ++ List.replicate payloadLen 0 := by
  cases henc : headerEncode req seq ngram with
  | none =>
    change List.replicate psize 0 = List.replicate 8 0 ++ List.replicate payloadLen 0
    rw [List.replicate_append_replicate]
    rfl
  | some hdr =>
    have hlen := length_of_headerEncode henc
    dsimp only
    rw [memcpy, hlen, List.take_zero, List.nil_append, List.drop_replicate]
    rfl

/-- The payload of a turn, whose size is what is left of the reply or the most there is room for. -/
theorem sendGram_eq {wbuf : Bytes} {wlen seq : ℕ} (hlen : wlen ≤ wbuf.length)
    (hseq : seq * payloadLen ≤ wlen) (req ngram : ℕ) : sendGram wbuf wlen req seq ngram =
      (headerEncode req seq ngram).getD (List.replicate 8 0) ++
        ((wbuf.take wlen).drop (seq * payloadLen)).take payloadLen := by
  have hwpos : (seq : ℤ) * (psize - hdrLen) = (seq * payloadLen : ℕ) := by
    unfold psize hdrLen payloadLen
    push_cast
    ring
  have hwsize : (if (wlen : ℤ) - (seq * payloadLen : ℕ) > psize - hdrLen then
      (psize : ℤ) - hdrLen else wlen - (seq * payloadLen : ℕ)) =
        (min payloadLen (wlen - seq * payloadLen) : ℕ) := by
    unfold psize hdrLen payloadLen at *
    split <;> omega
  have hpayload : (wbuf.drop (seq * payloadLen)).take (min payloadLen (wlen - seq * payloadLen)) =
      ((wbuf.take wlen).drop (seq * payloadLen)).take payloadLen := by
    rw [List.drop_take, List.take_take]
  have hcount : (((wbuf.take wlen).drop (seq * payloadLen)).take payloadLen).length =
      min payloadLen (wlen - seq * payloadLen) := by
    rw [List.length_take, List.length_drop, List.length_take_of_le hlen]
  have hheader : ((headerEncode req seq ngram).getD (List.replicate 8 0)).length = hdrLen := by
    cases henc : headerEncode req seq ngram with
    | none => rfl
    | some hdr => exact length_of_headerEncode henc
  unfold sendGram
  dsimp only
  rw [hwpos, hwsize, Int.toNat_natCast, Int.toNat_natCast, hpayload, pbuf_header, ← hcount,
    ← Nat.cast_add, Int.toNat_natCast, ← hheader, Nat.add_comm, take_memcpy]

/-- The datagrams are those of `sendLoop`. -/
theorem uend_eq {wbuf : Bytes} {wlen : ℕ} (hlen : wlen ≤ wbuf.length) (req : ℕ) :
    uend wbuf wlen req = sendLoop req (wbuf.take wlen) := by
  unfold uend sendLoop
  rw [List.length_take_of_le hlen]
  refine List.map_congr_left fun seq hseq => sendGram_eq hlen ?_ req _
  have hdiv : seq ≤ wlen / payloadLen := Nat.lt_succ_iff.mp (List.mem_range.mp hseq)
  exact (Nat.mul_le_mul_right payloadLen hdiv).trans (Nat.div_mul_le_self wlen payloadLen)

/-- The datagrams of a reply of at most 65536 bytes have at most 1024 bytes each. Their headers give
the request's id, the numbers from 0 on in the order of sending, and how many they are; and their
payloads, one after the other, are the reply. -/
theorem uend_spec (wbuf : Bytes) (wlen req : ℕ) (hwbuf : wbuf.length = wbufLen)
    (hlen : wlen ≤ wbufLen) (hreq : req ≤ 65535) :
    (∀ d ∈ uend wbuf wlen req, d.length ≤ 1024) ∧
      (∀ i d, (uend wbuf wlen req)[i]? = some d →
        headerDecode d = some ⟨req, i, (uend wbuf wlen req).length⟩) ∧
      ((uend wbuf wlen req).map (List.drop 8)).flatten = wbuf.take wlen := by
  have hn : wlen / payloadLen + 1 ≤ 65 := by
    unfold wbufLen payloadLen at *
    omega
  have htake : (wbuf.take wlen).length = wlen := List.length_take_of_le (hwbuf ▸ hlen)
  rw [uend_eq (hwbuf ▸ hlen)]
  have hcount : (sendLoop req (wbuf.take wlen)).length = wlen / payloadLen + 1 := by
    rw [sendLoop, htake, List.length_map, List.length_range]
  -- Each number has a header.
  have hgram : ∀ i d, (sendLoop req (wbuf.take wlen))[i]? = some d →
      ∃ h, headerEncode req i (wlen / payloadLen + 1) = some h ∧
        d = h ++ ((wbuf.take wlen).drop (i * payloadLen)).take payloadLen := by
    intro i d hd
    unfold sendLoop at hd
    rw [htake, List.getElem?_map] at hd
    obtain ⟨seq, hseq, rfl⟩ := Option.map_eq_some_iff.mp hd
    obtain ⟨hi, rfl⟩ := List.getElem?_eq_some_iff.mp hseq
    rw [List.length_range] at hi
    rw [List.getElem_range]
    have henc := headerEncode_of_le hreq (show i ≤ 65535 by omega)
      (show wlen / payloadLen + 1 ≤ 65535 by omega)
    exact ⟨_, henc, by rw [henc, Option.getD_some]⟩
  refine ⟨fun d hd => ?_, fun i d hd => ?_, payloads_sendLoop req _⟩
  · obtain ⟨i, hd⟩ := List.mem_iff_getElem?.mp hd
    obtain ⟨h, henc, rfl⟩ := hgram i d hd
    have hle := List.length_take_le payloadLen ((wbuf.take wlen).drop (i * payloadLen))
    rw [List.length_append, length_of_headerEncode henc]
    unfold payloadLen at *
    omega
  · obtain ⟨h, henc, rfl⟩ := hgram i d hd
    rw [hcount]
    exact headerDecode_headerEncode henc _

/-- A reply of 2032 bytes, which fills two datagrams up: there is a third one. -/
theorem uend_spec_full : (uend (List.replicate wbufLen 120) 2032 7).length = 3 ∧
    ((uend (List.replicate wbufLen 120) 2032 7).map (List.drop 8)).flatten =
      List.replicate 2032 120 := by
  have hspec := uend_spec (List.replicate wbufLen 120) 2032 7 List.length_replicate (by decide)
    (by decide)
  refine ⟨rfl, ?_⟩
  rw [hspec.2.2, List.take_replicate]
  rfl

end MgCommonUtils.URedis
