import MgCommonUtils.RedisProxy.Request

/-!
# The response validator

`processResponseBuffer` is `_processResponseBuffer` of `redis-proxy/echo.c`, which decides after
every read from the upstream whether the reply is whole, and the five functions that it calls, one
for each type byte. The three validators of one-line replies are one function of the type byte.

A reply is a value of `Reply`, which covers the protocol: lines, bulks, and multi-bulks whose
elements are any replies. The validator supports lines, bulks, and multi-bulks of at most 1024
bulks (`Reply.Supported`). On these it answers 1 on the reply and 0 on every proper cut
(`processResponseBuffer_on_cut`). On any other reply it never answers 1 on a proper cut
(`processResponseBuffer_cut_ne_one`), so it never takes a part of a reply for the whole.
-/

namespace MgCommonUtils.RedisProxy

open MgCommonUtils.Lib

/-! ## The validator -/

/-- A one-line reply with the type byte `ty`. -/
def validLineResponseBuffer (ty : UInt8) (rbuf : Bytes) : Except Abort ℤ :=
  if rbuf[0]? ≠ some ty then .ok (-1)
  else if !endsInCrlf rbuf then .ok 0
  else
    match strstrCrlf rbuf with
    | none => .error .strstrFailed
    | some p => .ok (if p + 2 ≠ rbuf.length then -1 else 1)

/-- `validSingleLineResponseBuffer`. -/
def validSingleLineResponseBuffer : Bytes → Except Abort ℤ := validLineResponseBuffer 43

/-- `validErrorMsgResponseBuffer`. -/
def validErrorMsgResponseBuffer : Bytes → Except Abort ℤ := validLineResponseBuffer 45

/-- `validIntegerReplyResponseBuffer`. -/
def validIntegerReplyResponseBuffer : Bytes → Except Abort ℤ := validLineResponseBuffer 58

/-- `validBulkReplyResponseBuffer`. -/
def validBulkReplyResponseBuffer (rbuf : Bytes) : Except Abort ℤ :=
  if rbuf[0]? ≠ some 36 then .ok (-1)
  else if !endsInCrlf rbuf then .ok 0
  else do
    let (ilen, pos) ← readLine rbuf 1
    let pos ← skipData ilen pos
    if pos > rbuf.length then return 0
    if pos = rbuf.length then return 1
    return -1

/-- `validMultiBuckResponseBuffer`. -/
def validMultiBuckResponseBuffer (rbuf : Bytes) : Except Abort ℤ :=
  if rbuf[0]? ≠ some 42 then .ok (-1)
  else if !endsInCrlf rbuf then .ok 0
  else do
    let (argc, pos) ← readLine rbuf 1
    if argc < 0 ∨ argc > 1024 then return -1
    if argc = 0 ∧ pos = rbuf.length then return 1
    if argc ≠ 0 ∧ pos = rbuf.length then return 0
    bulkLoop rbuf argc.toNat pos

/-- `_processResponseBuffer`: 1 when the reply is full and valid, 0 when more data is needed, and
-1 on a protocol error. -/
def processResponseBuffer (rbuf : Bytes) : Except Abort ℤ :=
  match rbuf with
  | [] => .error .readOutOfRange
  | s :: _ =>
    if s = 43 then validSingleLineResponseBuffer rbuf
    else if s = 45 then validErrorMsgResponseBuffer rbuf
    else if s = 58 then validIntegerReplyResponseBuffer rbuf
    else if s = 36 then validBulkReplyResponseBuffer rbuf
    else if s = 42 then validMultiBuckResponseBuffer rbuf
    else .ok (-1)

/-! ## Replies -/

/-- The kinds of one-line replies. -/
inductive LineKind where
  | status
  | error
  | integer
  deriving DecidableEq, Repr

/-- The type byte of a one-line reply. -/
def LineKind.byte : LineKind → UInt8
  | .status => 43
  | .error => 45
  | .integer => 58

/-- A reply of the protocol. -/
inductive Reply where
  /-- A status, error or integer line. -/
  | line (kind : LineKind) (s : Bytes)
  /-- A bulk, or a nil bulk. -/
  | bulk (e : Option Bytes)
  /-- A multi-bulk. -/
  | multi (es : List Reply)
  /-- The nil multi-bulk. -/
  | nilMulti

mutual

/-- A reply on the wire. -/
def Reply.encode : Reply → Bytes
  | .line kind s => kind.byte :: (s ++ crlf)
  | .bulk e => encodeBulk e
  | .multi es => 42 :: (decimal es.length ++ crlf ++ Reply.encodeAll es)
  | .nilMulti => 42 :: 45 :: 49 :: crlf

/-- Replies on the wire, one after the other. -/
def Reply.encodeAll : List Reply → Bytes
  | [] => []
  | r :: rs => r.encode ++ Reply.encodeAll rs

end

/-- A reply that the upstream can send: the content of a line is a line, and the whole fits in an
`int`. -/
structure Reply.Valid (r : Reply) : Prop where
  /-- A line has no CR LF and no NUL in it. -/
  line : ∀ kind s, r = .line kind s → IsLine s
  /-- The reply's length is in the range of `int`. -/
  length_lt : r.encode.length < 2^31

/-- A reply that the validator supports: a line, a bulk, or a multi-bulk of at most 1024
bulks. -/
def Reply.Supported : Reply → Prop
  | .line _ _ => True
  | .bulk _ => True
  | .multi es => es.length ≤ 1024 ∧ ∃ bs : List (Option Bytes), es = bs.map .bulk
  | .nilMulti => False

/-- The encoding of bulks one after the other. -/
theorem Reply.encodeAll_bulks (bs : List (Option Bytes)) (rs : List Reply) :
    Reply.encodeAll (bs.map .bulk ++ rs) = bs.flatMap encodeBulk ++ Reply.encodeAll rs := by
  induction bs with
  | nil => rfl
  | cons b bs ih => simp [Reply.encodeAll, Reply.encode, ih]

/-- A multi-bulk of bulks is encoded as a request's arguments are. -/
theorem Reply.encode_bulks (bs : List (Option Bytes)) :
    (Reply.multi (bs.map .bulk)).encode = encodeMultiBulk bs := by
  have h := Reply.encodeAll_bulks bs []
  rw [List.append_nil] at h
  simp [Reply.encode, encodeMultiBulk, h, Reply.encodeAll]

/-- A bulk inside a byte string whose length is in the range of `int` fits. -/
theorem bulkFits_of_length {e : Option Bytes} (h : (encodeBulk e).length < 2^31) : BulkFits e := by
  rintro a rfl
  simp only [encodeBulk, List.length_cons, List.length_append, length_crlf] at h
  omega

/-- A bulk of a list is no longer than the list's encoding. -/
theorem length_encodeBulk_le {bs : List (Option Bytes)} {e : Option Bytes} (he : e ∈ bs) :
    (encodeBulk e).length ≤ (bs.flatMap encodeBulk).length :=
  List.Sublist.length_le (List.sublist_flatten_of_mem (List.mem_map_of_mem he))

/-! ## Lines -/

/-- A type byte before a line's content gives a line's content. -/
theorem isLine_cons {b : UInt8} {s : Bytes} (hs : IsLine s) (h13 : b ≠ 13) (h0 : b ≠ 0) :
    IsLine (b :: s) where
  noCrlf hc := by
    rcases List.infix_cons_iff.mp hc with hp | hi
    · obtain ⟨t, ht⟩ := hp
      simp only [crlf, List.cons_append, List.cons.injEq] at ht
      exact h13 ht.1.symm
    · exact hs.noCrlf hi
  noNul hm := by
    rcases List.mem_cons.mp hm with h | h
    · exact h0 h.symm
    · exact hs.noNul h

/-- The last two bytes of a buffer that ends in CR LF. -/
theorem suffix_of_endsInCrlf {buf : Bytes} (h : endsInCrlf buf = true) : crlf <:+ buf := by
  simp only [endsInCrlf, Bool.and_eq_true, beq_iff_eq, decide_eq_true_eq] at h
  obtain ⟨⟨h3, h13⟩, h10⟩ := h
  refine ⟨buf.take (buf.length - 2), ?_⟩
  have hd : buf.drop (buf.length - 2) = crlf := by
    apply List.ext_getElem?
    intro i
    rw [List.getElem?_drop]
    obtain rfl | rfl | hi : i = 0 ∨ i = 1 ∨ 2 ≤ i := by omega
    · simpa [crlf] using h13
    · have hlast : buf.length - 2 + 1 = buf.length - 1 := by omega
      rw [hlast]
      simpa [crlf] using h10
    · have hbuf : buf[buf.length - 2 + i]? = none := List.getElem?_eq_none (by omega)
      have hcrlf : crlf[i]? = none := List.getElem?_eq_none (by rwa [length_crlf])
      rw [hbuf, hcrlf]
  rw [← hd]
  exact List.take_append_drop _ _

/-- A cut of a line that ends in CR LF is the whole line. -/
theorem eq_of_prefix_line {s q : Bytes} (hs : IsLine s) (hq : q <+: s ++ crlf) (h : crlf <:+ q) :
    q = s ++ crlf := by
  refine hq.eq_of_length (le_antisymm hq.length_le ?_)
  by_contra hlt
  rw [List.length_append, length_crlf, not_le] at hlt
  by_cases hle : q.length ≤ s.length
  · -- The CR LF would be inside the content.
    have hqs : q <+: s := List.prefix_of_prefix_length_le hq (List.prefix_append _ _) hle
    exact hs.noCrlf (h.isInfix.trans hqs.isInfix)
  · -- The cut is between the CR and the LF.
    have hqs : q = s ++ [13] := by
      have hp : s ++ [13] <+: s ++ crlf := ⟨[10], by simp [crlf]⟩
      exact (List.prefix_of_prefix_length_le hq hp (by simp; omega)).eq_of_length (by simp; omega)
    have h13 : (s ++ [13]).getLast? = [13].getLast? :=
      List.getLast?_append_of_ne_nil s (List.cons_ne_nil _ _)
    obtain ⟨i, hi⟩ := h
    rw [← hqs, ← hi] at h13
    simp [crlf] at h13

/-- A one-line reply on a cut: 1 on the whole line, and 0 on a proper cut. -/
theorem validLineResponseBuffer_prefix {ty : UInt8} {s q : Bytes} (hs : IsLine (ty :: s))
    (hq : q <+: ty :: s ++ crlf) (hne : q ≠ []) :
    validLineResponseBuffer ty q = .ok (if q = ty :: s ++ crlf then 1 else 0) := by
  obtain ⟨b, q', rfl⟩ := List.exists_cons_of_ne_nil hne
  obtain ⟨rfl, -⟩ := List.cons_prefix_cons.mp hq
  by_cases hend : endsInCrlf (b :: q') = true
  · have heq := eq_of_prefix_line hs hq (suffix_of_endsInCrlf hend)
    have hstr := strstrCrlf_line (b :: s) [] hs
    simp only [validLineResponseBuffer, hend]
    rw [heq, show b :: s ++ crlf = b :: s ++ 13 :: 10 :: [] by rfl, hstr]
    simp
  · have hneq : b :: q' ≠ b :: s ++ crlf := by
      intro heq
      refine hend (endsInCrlf_of_suffix ⟨b :: s, heq.symm⟩ ?_)
      rw [heq]
      simp
    rw [if_neg hneq]
    simp [validLineResponseBuffer, hend]

/-! ## Bulks and multi-bulks -/

/-- A bulk reply on a cut: 1 on the whole bulk, and 0 on a proper cut. -/
theorem validBulkReplyResponseBuffer_prefix {e : Option Bytes} {q : Bytes} (he : BulkFits e)
    (hq : q <+: encodeBulk e) (hne : q ≠ []) :
    validBulkReplyResponseBuffer q = .ok (if q = encodeBulk e then 1 else 0) := by
  have h0 : q[0]? = some 36 := by
    obtain ⟨b, q', rfl⟩ := List.exists_cons_of_ne_nil hne
    cases e <;> simp_all [encodeBulk, List.cons_prefix_cons]
  by_cases hend : endsInCrlf q = true
  case neg =>
    have hneq : q ≠ encodeBulk e := by
      rintro rfl
      exact hend (endsInCrlf_of_suffix (encodeBulk_suffix e)
        (by have := five_le_length_encodeBulk e; omega))
    simp [validBulkReplyResponseBuffer, h0, hend, hneq]
  obtain ⟨q', hqq, -⟩ := bulkHeader_of_prefix (t := []) (by simpa using hq)
    (getLast?_of_endsInCrlf hend)
  obtain ⟨ilen, pos, hline, hskip⟩ := readBulk [] q' e he
  rw [List.nil_append, ← hqq] at hline
  have hle := hq.length_le
  have hiff : q = encodeBulk e ↔ (encodeBulk e).length = q.length :=
    ⟨fun h => by rw [h], fun h => hq.eq_of_length h.symm⟩
  simp only [List.length_nil, Nat.cast_zero, zero_add] at hline hskip
  simp only [validBulkReplyResponseBuffer, h0, hend, hline, hskip, hiff, bind, Except.bind, pure,
    Except.pure, ne_eq, not_true_eq_false, if_false, Bool.not_true, Bool.false_eq_true]
  rcases hle.lt_or_eq with hlt | heq
  · rw [if_pos (by omega), if_neg (by omega)]
  · rw [if_neg (by omega), if_pos (by omega), if_pos heq.symm]

/-- The multi-bulk validator on a cut that ends in CR LF: the header line is whole, and the loop
runs over what follows it unless there are too many elements, or nothing follows. -/
theorem validMultiBuckResponseBuffer_header {n : ℕ} {t q : Bytes} (hn : n < 2^31)
    (hq : q <+: 42 :: (decimal n ++ crlf ++ t)) (hend : endsInCrlf q = true) :
    ∃ p, q = 42 :: (decimal n ++ crlf) ++ p ∧ p <+: t ∧ validMultiBuckResponseBuffer q =
      if 1024 < n then .ok (-1)
      else if p = [] then .ok (if n = 0 then 1 else 0)
      else bulkLoop q n (42 :: (decimal n ++ crlf) : Bytes).length := by
  obtain ⟨p, hqq, hp, hline⟩ := readLine_multiBulk hn hq (getLast?_of_endsInCrlf hend)
  refine ⟨p, hqq, hp, ?_⟩
  have h0 : q[0]? = some 42 := by simp [hqq]
  have hnil : ((42 :: (decimal n ++ crlf) : Bytes).length : ℤ) = q.length ↔ p = [] := by
    rw [← List.length_eq_zero_iff, hqq, List.length_append]
    omega
  generalize (42 :: (decimal n ++ crlf) : Bytes).length = m at hline hnil ⊢
  have hneg : ((n : ℤ) < 0 ∨ (n : ℤ) > 1024) ↔ 1024 < n := by omega
  have hzero : (n : ℤ) = 0 ↔ n = 0 := by omega
  simp only [validMultiBuckResponseBuffer, h0, hend, hline, hnil, hneg, hzero, bind, Except.bind,
    pure, Except.pure, ne_eq, not_true_eq_false, if_false, Bool.not_true, Bool.false_eq_true,
    Int.toNat_natCast]
  split_ifs <;> simp_all

/-- A multi-bulk of at most 1024 bulks on a cut: 1 on the whole, and 0 on a proper cut. -/
theorem validMultiBuckResponseBuffer_prefix {bs : List (Option Bytes)} {q : Bytes}
    (hn : bs.length ≤ 1024) (hbs : ∀ e ∈ bs, BulkFits e) (hq : q <+: encodeMultiBulk bs)
    (hne : q ≠ []) :
    validMultiBuckResponseBuffer q = .ok (if q = encodeMultiBulk bs then 1 else 0) := by
  by_cases hend : endsInCrlf q = true
  case neg =>
    have h0 : q[0]? = some 42 := by
      obtain ⟨b, q', rfl⟩ := List.exists_cons_of_ne_nil hne
      obtain ⟨rfl, -⟩ := List.cons_prefix_cons.mp hq
      rfl
    have hneq : q ≠ encodeMultiBulk bs := by
      rintro rfl
      refine hend (endsInCrlf_of_suffix (encodeMultiBulk_suffix _) ?_)
      simp only [encodeMultiBulk, List.length_cons, List.length_append, length_crlf]
      omega
    simp [validMultiBuckResponseBuffer, h0, hend, hneq]
  obtain ⟨p, hqq, hp, hval⟩ := validMultiBuckResponseBuffer_header (by omega) hq hend
  have hiff : q = encodeMultiBulk bs ↔ p.length = (bs.flatMap encodeBulk).length := by
    constructor
    · intro h
      have := congrArg List.length (hqq.symm.trans h)
      simp only [encodeMultiBulk, List.length_cons, List.length_append] at this
      omega
    · intro h
      rw [hqq, hp.eq_of_length h]
      simp [encodeMultiBulk]
  simp only [hval, hiff]
  rw [if_neg (by omega)]
  by_cases hnil : p = []
  · rw [if_pos hnil, hnil]
    cases bs with
    | nil => simp
    | cons e bs =>
      have h5 := five_le_length_encodeBulk e
      rw [if_neg (by simp), if_neg]
      simp only [List.flatMap_cons, List.length_append, List.length_nil]
      omega
  · have hlast := getLast?_of_endsInCrlf hend
    rw [hqq] at hlast
    rw [if_neg hnil, hqq]
    exact bulkLoop_prefix _ hbs _ p hp (getLast?_of_append hnil hlast)

/-! ## The validator on a cut of a reply -/

/-- The validator on a cut of one byte or more of a reply that it supports: 1 on the whole reply,
and 0 on a proper cut. -/
theorem processResponseBuffer_on_cut {r : Reply} (hr : r.Valid) (hs : r.Supported) {q : Bytes}
    (hq : q <+: r.encode) (hne : q ≠ []) :
    processResponseBuffer q = .ok (if q = r.encode then 1 else 0) := by
  obtain ⟨b, q', rfl⟩ := List.exists_cons_of_ne_nil hne
  cases r with
  | line kind s =>
    obtain ⟨rfl, -⟩ := List.cons_prefix_cons.mp hq
    have hline := hr.line _ _ rfl
    have h := validLineResponseBuffer_prefix
      (isLine_cons hline (b := kind.byte) (by cases kind <;> decide) (by cases kind <;> decide))
      hq hne
    cases kind <;> exact h
  | bulk e =>
    have hb : b = 36 := by
      cases e <;> exact (List.cons_prefix_cons.mp hq).1
    subst hb
    exact validBulkReplyResponseBuffer_prefix (bulkFits_of_length hr.length_lt) hq hne
  | multi es =>
    obtain ⟨hn, bs, rfl⟩ := hs
    have hlen := hr.length_lt
    rw [Reply.encode_bulks] at hq hlen ⊢
    obtain ⟨rfl, -⟩ := List.cons_prefix_cons.mp hq
    refine validMultiBuckResponseBuffer_prefix (by simpa using hn) (fun e he => ?_) hq hne
    have := length_encodeBulk_le he
    simp only [encodeMultiBulk, List.length_cons, List.length_append] at hlen
    exact bulkFits_of_length (by omega)
  | nilMulti => exact hs.elim

/-- The loop over more bulks than a list has, on a cut of the list's encoding and of something
that is no bulk: more data is needed, or the protocol is violated. -/
theorem bulkLoop_stop (bs : List (Option Bytes)) (hbs : ∀ e ∈ bs, BulkFits e) (pre q t : Bytes)
    (argc : ℕ) (hargc : bs.length < argc) (ht : t.head? ≠ some 36)
    (hq : q <+: bs.flatMap encodeBulk ++ t) (hlast : q.getLast? = some 10) :
    bulkLoop (pre ++ q) argc pre.length = .ok 0 ∨
      bulkLoop (pre ++ q) argc pre.length = .ok (-1) := by
  induction bs generalizing pre q argc with
  | nil =>
    obtain ⟨k, rfl⟩ := Nat.exists_eq_add_of_lt hargc
    obtain ⟨b, q', rfl⟩ := List.exists_cons_of_ne_nil (l := q) (by rintro rfl; simp at hlast)
    have hb : b ≠ 36 := by
      rintro rfl
      obtain ⟨t', rfl⟩ := hq
      simp at ht
    right
    simp [bulkLoop, readAt_header, hb, bind, Except.bind, pure, Except.pure]
  | cons e bs ih =>
    obtain ⟨k, rfl⟩ := Nat.exists_eq_add_of_lt hargc
    rw [List.flatMap_cons, List.append_assoc] at hq
    rw [bulkLoop_step pre q _ e _ (hbs e (by simp)) hq hlast]
    by_cases h1 : q.length < (encodeBulk e).length
    · exact .inl (by rw [if_pos h1])
    rw [if_neg h1]
    obtain ⟨q', rfl⟩ : encodeBulk e <+: q :=
      List.prefix_of_prefix_length_le (List.prefix_append _ _) hq (by omega)
    by_cases hnil : q' = []
    · exact .inl (by rw [if_pos ⟨by simp [hnil], by simp⟩])
    · have hpos := List.length_pos_iff.mpr hnil
      rw [if_neg (by rw [List.length_append]; omega)]
      have h := ih (fun x hx => hbs x (by simp [hx])) (pre ++ encodeBulk e) q'
        ((e :: bs).length + k) (by simp; omega) ((List.prefix_append_right_inj _).mp hq)
        (getLast?_of_append hnil hlast)
      simpa using h

/-- The elements of a multi-bulk are bulks up to the first one that is not. -/
theorem exists_bulks_append (es : List Reply) : ∃ (bs : List (Option Bytes)) (rest : List Reply),
    es = bs.map .bulk ++ rest ∧ (Reply.encodeAll rest).head? ≠ some 36 := by
  induction es with
  | nil => exact ⟨[], [], rfl, by simp [Reply.encodeAll]⟩
  | cons r es ih =>
    cases r with
    | bulk e =>
      obtain ⟨bs, rest, rfl, hrest⟩ := ih
      exact ⟨e :: bs, rest, rfl, hrest⟩
    | line kind s =>
      exact ⟨[], _, rfl, by cases kind <;> simp [Reply.encodeAll, Reply.encode, LineKind.byte]⟩
    | multi es' => exact ⟨[], _, rfl, by simp [Reply.encodeAll, Reply.encode]⟩
    | nilMulti => exact ⟨[], _, rfl, by simp [Reply.encodeAll, Reply.encode]⟩

/-- A reply has a first byte. -/
theorem Reply.encode_ne_nil (r : Reply) : r.encode ≠ [] := by
  cases r with
  | bulk e =>
    have := five_le_length_encodeBulk e
    exact List.ne_nil_of_length_pos (by rw [Reply.encode]; omega)
  | _ => simp [Reply.encode]

/-- Every element of a multi-bulk takes a byte or more. -/
theorem length_le_encodeAll (es : List Reply) : es.length ≤ (Reply.encodeAll es).length := by
  induction es with
  | nil => simp
  | cons r es ih =>
    have hr := List.length_pos_iff.mpr r.encode_ne_nil
    simp only [List.length_cons, Reply.encodeAll, List.length_append]
    omega

/-- The validator on a cut that does not end in CR LF, of a multi-bulk: more data is needed. -/
theorem processResponseBuffer_multi_unfinished {q : Bytes} (hend : endsInCrlf (42 :: q) ≠ true) :
    processResponseBuffer (42 :: q) = .ok 0 := by
  simp [processResponseBuffer, validMultiBuckResponseBuffer, hend]

/-- The validator never takes a proper cut of a reply for a whole one, whether it supports the
reply or not. -/
theorem processResponseBuffer_cut_ne_one {r : Reply} (hr : r.Valid) {q : Bytes}
    (hq : q <+: r.encode) (hne : q ≠ []) (hcut : q ≠ r.encode) :
    processResponseBuffer q ≠ .ok 1 := by
  by_cases hs : r.Supported
  · rw [processResponseBuffer_on_cut hr hs hq hne, if_neg hcut]
    simp
  obtain ⟨b, q', rfl⟩ := List.exists_cons_of_ne_nil hne
  cases r with
  | line kind s => exact absurd trivial hs
  | bulk e => exact absurd trivial hs
  | nilMulti =>
    obtain ⟨rfl, hq'⟩ := List.cons_prefix_cons.mp hq
    rw [processResponseBuffer_multi_unfinished fun hend => hcut ?_]
    · simp
    · exact eq_of_prefix_line (s := [42, 45, 49]) ⟨by decide, by decide⟩ hq
        (suffix_of_endsInCrlf hend)
  | multi es =>
    obtain ⟨rfl, -⟩ := List.cons_prefix_cons.mp hq
    by_cases hend : endsInCrlf (42 :: q') = true
    case neg =>
      rw [processResponseBuffer_multi_unfinished hend]
      simp
    have hlen := hr.length_lt
    have hes := length_le_encodeAll es
    simp only [Reply.encode, List.length_cons, List.length_append] at hlen
    obtain ⟨p, hqp, hp, hval⟩ := validMultiBuckResponseBuffer_header (by omega) hq hend
    obtain ⟨bs, rest, rfl, hrest⟩ := exists_bulks_append es
    have hval' : processResponseBuffer (42 :: q') = _ := hval
    rw [hval']
    by_cases hn : (bs.map Reply.bulk ++ rest).length ≤ 1024
    case neg => rw [if_pos (by omega)]; simp
    have hrest' : rest ≠ [] := fun h => hs ⟨hn, bs, by simp [h]⟩
    have hpos := List.length_pos_iff.mpr hrest'
    rw [if_neg (by omega), List.length_append, List.length_map]
    by_cases hp0 : p = []
    · rw [if_pos hp0, if_neg (by omega)]
      simp
    · have htot : (Reply.encodeAll (bs.map Reply.bulk ++ rest)).length =
          (bs.flatMap encodeBulk).length + (Reply.encodeAll rest).length := by
        rw [Reply.encodeAll_bulks, List.length_append]
      have hfits : ∀ e ∈ bs, BulkFits e := fun e he => by
        have := length_encodeBulk_le he
        exact bulkFits_of_length (by omega)
      have hlast := getLast?_of_endsInCrlf hend
      rw [hqp] at hlast
      rw [Reply.encodeAll_bulks] at hp
      have hstop := bulkLoop_stop bs hfits
        (42 :: (decimal (bs.map Reply.bulk ++ rest).length ++ crlf)) p _ (bs.length + rest.length)
        (by omega) hrest hp (getLast?_of_append hp0 hlast)
      rw [List.length_append, List.length_map] at hqp hstop
      rw [if_neg hp0, hqp]
      rcases hstop with h | h <;>
      · rw [h]
        simp

end MgCommonUtils.RedisProxy
