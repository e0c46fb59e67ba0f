import MgCommonUtils.Lib.CString

/-!
# Scanning a protocol buffer

What the request and the response validators of `redis-proxy/echo.c` share: the test for a buffer
that ends in CR LF, the reading of a decimal line into `slen`, the jump over a bulk's data, and
the loop over the bulks of a multi-bulk. Positions are the offsets `rbuf - op` from the buffer's
start. They are integers, since a negative length moves `rbuf` back.

Where the C code leaves its defined behaviour, or ends the process, the scan stops with the
reason (`Abort`). `bulkLoop_step` is the fact that both validators rest on: on a buffer that is
cut anywhere in or after a bulk and ends in LF, one turn of the loop finds the bulk's header
whole, and compares the end of the bulk with the end of the buffer.
-/

namespace MgCommonUtils.RedisProxy

open MgCommonUtils.Lib

/-- Why the process or the scan of a buffer ends before a result is returned. -/
inductive Abort where
  /-- The process calls `exit` or `abort`. -/
  | exit
  /-- `strstr` found nothing and its null result is used. -/
  | strstrFailed
  /-- More than 10 bytes are copied into the 11 bytes of `slen`. -/
  | slenOverflow
  /-- A byte outside `0 .. rlen - 1` is read. -/
  | readOutOfRange
  /-- A 32-bit `int` overflows. -/
  | intOverflow
  deriving DecidableEq, Repr

/-- `rlen < 3 || rbuf[rlen-2] != '\r' || rbuf[rlen-1] != '\n'`, negated: the buffer ends in
CR LF. -/
def endsInCrlf (rbuf : Bytes) : Bool :=
  decide (3 ≤ rbuf.length) && rbuf[rbuf.length - 2]? == some 13 &&
    rbuf[rbuf.length - 1]? == some 10

/-- The read of `rbuf[0]` at offset `pos`. -/
def readAt (buf : Bytes) (pos : ℤ) : Except Abort UInt8 :=
  if 0 ≤ pos then
    match buf[pos.toNat]? with
    | some b => .ok b
    | none => .error .readOutOfRange
  else .error .readOutOfRange

/-- The reading of a decimal line at offset `pos`, after its type byte: `strstr` for its end,
`strncpy` into `slen`, and `atoi`. Returns the value and the offset after the CR LF. -/
def readLine (buf : Bytes) (pos : ℤ) : Except Abort (ℤ × ℤ) :=
  match strstrCrlf (buf.drop pos.toNat) with
  | none => .error .strstrFailed
  | some n =>
    if n ≤ 10 then .ok (atoi ((buf.drop pos.toNat).take n), pos + n + 2)
    else .error .slenOverflow

/-- `rbuf += ilen + 2` unless `ilen` is `-1`: the offset after a bulk's data and CR LF. -/
def skipData (ilen pos : ℤ) : Except Abort ℤ :=
  if ilen = -1 then .ok pos
  else if ilen + 2 < 2^31 then .ok (pos + (ilen + 2))
  else .error .intOverflow

/-- The loop over the `argc` bulks of a multi-bulk from offset `pos` on, with the comparison of
the end of the last one with the end of the buffer that follows it. -/
def bulkLoop (buf : Bytes) : ℕ → ℤ → Except Abort ℤ
  | 0, pos => .ok (if pos ≠ buf.length then -1 else 1)
  | argc + 1, pos => do
    if (← readAt buf pos) ≠ 36 then return -1
    let (ilen, pos) ← readLine buf (pos + 1)
    let pos ← skipData ilen pos
    if pos > buf.length then return 0
    -- `argc != 1` before the decrement: this is not the last bulk.
    if pos = buf.length ∧ argc ≠ 0 then return 0
    bulkLoop buf argc pos

/-! ## Encodings -/

/-- A nil bulk (`none`) or a bulk, on the wire. -/
def encodeBulk : Option Bytes → Bytes
  | none => 36 :: 45 :: 49 :: crlf
  | some a => 36 :: (decimal a.length ++ crlf ++ a ++ crlf)

/-- A bulk whose length, with the CR LF after it, fits in an `int`. -/
def BulkFits (e : Option Bytes) : Prop := ∀ a ∈ e, a.length + 2 < 2^31

/-- The header line of a bulk. -/
def bulkHeader : Option Bytes → Bytes
  | none => 36 :: 45 :: 49 :: crlf
  | some a => 36 :: (decimal a.length ++ crlf)

/-- What follows the header line of a bulk. -/
def bulkData : Option Bytes → Bytes
  | none => []
  | some a => a ++ crlf

/-- A bulk is its header and its data. -/
theorem encodeBulk_eq (e : Option Bytes) : encodeBulk e = bulkHeader e ++ bulkData e := by
  cases e <;> simp [encodeBulk, bulkHeader, bulkData]

/-- A bulk takes at least five bytes. -/
theorem five_le_length_encodeBulk (e : Option Bytes) : 5 ≤ (encodeBulk e).length := by
  cases e with
  | none => simp [encodeBulk]
  | some a =>
    have := List.length_pos_iff.mpr (decimal_ne_nil a.length)
    simp only [encodeBulk, List.length_cons, List.length_append, length_crlf]
    omega

/-! ## The header line under a cut -/

/-- A cut of `h ++ t` that ends in LF, where the only LF of `h` is its last byte, has all
of `h`. -/
theorem header_of_prefix {i t q : Bytes} (hi : (10 : UInt8) ∉ i) (hq : q <+: i ++ 10 :: t)
    (hlast : q.getLast? = some 10) : ∃ q', q = i ++ 10 :: q' ∧ q' <+: t := by
  have hlt : i.length < q.length := by
    by_contra hle
    have hqi : q <+: i := List.prefix_of_prefix_length_le hq (List.prefix_append _ _) (by omega)
    exact hi (hqi.subset (List.mem_of_getLast? hlast))
  have hiq : i ++ [10] <+: q :=
    List.prefix_of_prefix_length_le ⟨t, by simp⟩ hq (by simp; omega)
  obtain ⟨q', rfl⟩ := hiq
  refine ⟨q', by simp, ?_⟩
  have : (i ++ [10]) ++ q' <+: (i ++ [10]) ++ t := by simpa using hq
  exact (List.prefix_append_right_inj _).mp this

/-- Digits contain no LF. -/
theorem lf_notMem_decimal (n : ℕ) : (10 : UInt8) ∉ decimal n := fun h => by
  have := isdigit_of_mem_decimal h
  simp [isdigit_iff] at this

/-- A buffer that ends in CR LF ends in LF. -/
theorem getLast?_of_endsInCrlf {buf : Bytes} (h : endsInCrlf buf = true) :
    buf.getLast? = some 10 := by
  simp only [endsInCrlf, Bool.and_eq_true, beq_iff_eq] at h
  rw [List.getLast?_eq_getElem?]
  exact h.2

/-- The decimal line of a header read at its place: the value of the digits, and the offset
after the line. -/
theorem readLine_header (pre d rest : Bytes) (b : UInt8) (hd : IsLine d) (hlen : d.length ≤ 10) :
    readLine (pre ++ b :: (d ++ crlf ++ rest)) (pre.length + 1) =
      .ok (atoi d, pre.length + 1 + d.length + 2) := by
  have hdrop : (pre ++ b :: (d ++ crlf ++ rest)).drop ((pre.length : ℤ) + 1).toNat
      = d ++ 13 :: 10 :: rest := by
    have : ((pre.length : ℤ) + 1).toNat = (pre ++ [b]).length := by simp
    rw [this, show pre ++ b :: (d ++ crlf ++ rest) = (pre ++ [b]) ++ (d ++ 13 :: 10 :: rest) by
      simp [crlf], List.drop_left]
  unfold readLine
  rw [hdrop, strstrCrlf_line _ _ hd]
  simp [hlen]

/-- The type byte of a header read at its place. -/
theorem readAt_header (pre rest : Bytes) (b : UInt8) :
    readAt (pre ++ b :: rest) pre.length = .ok b := by
  simp [readAt]

/-- The jump over the data of a length that fits. -/
theorem skipData_natCast {n : ℕ} (h : n + 2 < 2^31) (pos : ℤ) :
    skipData n pos = .ok (pos + (n + 2)) := by
  have h1 : ¬ (n : ℤ) = -1 := by omega
  have h2 : (n : ℤ) + 2 < 2^31 := by omega
  simp only [skipData, if_neg h1, if_pos h2]

/-- The header of a bulk read where the bulk starts gives a length, and the jump over the data of
that length ends after the bulk, whether or not the buffer has its data. -/
theorem readBulk (pre rest : Bytes) (e : Option Bytes) (he : BulkFits e) :
    ∃ ilen pos, readLine (pre ++ bulkHeader e ++ rest) (pre.length + 1) = .ok (ilen, pos) ∧
      skipData ilen pos = .ok (pre.length + (encodeBulk e).length) := by
  cases e with
  | none =>
    have h := readLine_header pre [45, 49] rest 36 ⟨by decide, by decide⟩ (by decide)
    refine ⟨-1, pre.length + 5, ?_, ?_⟩
    · rw [show atoi [45, 49] = -1 by decide] at h
      simpa [bulkHeader, add_assoc] using h
    · simp [skipData, encodeBulk]
  | some a =>
    have hlen : a.length + 2 < 2^31 := he a rfl
    have h := readLine_header pre (decimal a.length) rest 36 (isLine_decimal _)
      (length_decimal_le (by norm_num) (by omega))
    rw [atoi_decimal (by omega)] at h
    refine ⟨a.length, pre.length + 1 + (decimal a.length).length + 2, ?_, ?_⟩
    · simpa [bulkHeader] using h
    · rw [skipData_natCast hlen]
      simp only [encodeBulk, List.length_cons, List.length_append, length_crlf, Except.ok.injEq]
      push_cast
      ring

/-- The header line of a bulk starts with `$`, and its only LF is at its end. -/
theorem bulkHeader_eq (e : Option Bytes) :
    ∃ i : Bytes, (10 : UInt8) ∉ i ∧ bulkHeader e = 36 :: i ++ [10] := by
  cases e with
  | none => exact ⟨[45, 49, 13], by decide, by simp [bulkHeader, crlf]⟩
  | some a =>
    exact ⟨decimal a.length ++ [13], by simp [lf_notMem_decimal], by simp [bulkHeader, crlf]⟩

/-- A cut of a bulk and what follows it that ends in LF has the header of the bulk. -/
theorem bulkHeader_of_prefix {e : Option Bytes} {t q : Bytes} (hq : q <+: encodeBulk e ++ t)
    (hlast : q.getLast? = some 10) : ∃ q', q = bulkHeader e ++ q' ∧ q' <+: bulkData e ++ t := by
  obtain ⟨i, hi, hhead⟩ := bulkHeader_eq e
  have hq' : q <+: (36 :: i) ++ 10 :: (bulkData e ++ t) := by
    simpa [encodeBulk_eq, hhead] using hq
  obtain ⟨q', rfl, h⟩ := header_of_prefix (by simp [hi]) hq' hlast
  exact ⟨q', by simp [hhead], h⟩

/-- One turn of the loop at a bulk, on a buffer cut in or after it that ends in LF: the loop
needs more data when the cut is inside the bulk, or at its end and this is not the last bulk, and
goes on behind the bulk otherwise. -/
theorem bulkLoop_step (pre q t : Bytes) (e : Option Bytes) (argc : ℕ) (he : BulkFits e)
    (hq : q <+: encodeBulk e ++ t) (hlast : q.getLast? = some 10) :
    bulkLoop (pre ++ q) (argc + 1) pre.length =
      if q.length < (encodeBulk e).length then .ok 0
      else if q.length = (encodeBulk e).length ∧ argc ≠ 0 then .ok 0
      else bulkLoop (pre ++ q) argc (pre.length + (encodeBulk e).length) := by
  -- The header of the bulk is in the buffer.
  obtain ⟨q', hqq, -⟩ := bulkHeader_of_prefix hq hlast
  obtain ⟨ilen, pos, hline, hskip⟩ := readBulk pre q' e he
  rw [List.append_assoc, ← hqq] at hline
  have hr : readAt (pre ++ q) pre.length = .ok 36 := by
    obtain ⟨i, -, hhead⟩ := bulkHeader_eq e
    rw [hqq, hhead]
    exact readAt_header _ _ _
  -- The loop's turn with these reads.
  have hblen : ((pre ++ q).length : ℤ) = pre.length + q.length := by
    push_cast [List.length_append]; ring
  generalize pre ++ q = buf at hline hr hblen ⊢
  generalize (encodeBulk e).length = n at hskip ⊢
  generalize q.length = m at hblen ⊢
  simp only [bulkLoop, hr, hline, hskip, bind, Except.bind, pure, Except.pure]
  rw [hblen]
  by_cases h1 : m < n
  · simp [h1]
  · by_cases h2 : m = n ∧ argc ≠ 0
    · simp [h2]
    · have h3 : ¬ ((n : ℤ) = m ∧ argc ≠ 0) := fun h => h2 ⟨by omega, h.2⟩
      have h4 : ¬ ((pre.length : ℤ) + m < pre.length + n) := by omega
      simp only [gt_iff_lt, h4, if_false, add_right_inj, h3, h1, h2, ne_eq]
      simp

end MgCommonUtils.RedisProxy
