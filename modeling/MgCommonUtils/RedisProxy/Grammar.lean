import MgCommonUtils.RedisProxy.Bounds

/-!
# What the request validator accepts

The validator answers 1 where its jumps from header to header end at the end of the buffer. It reads
each number with `atoi`, which takes a sign, blanks, and bytes behind the digits, and reduces what
is too large; it takes `-1` for a bulk without data; and it does not look at the two bytes behind
the data. So a buffer that it accepts is a request if and only if the numbers that it comes to are
plain digits in the range of `int` and the data of each bulk is followed by CR LF (`isRequest_iff`).
-/

namespace MgCommonUtils.RedisProxy

open MgCommonUtils.Lib

/-! ## Requests -/

/-- A decimal numeral of a number. -/
structure IsNumeral (s : Bytes) (n : ℕ) : Prop where
  /-- There is a digit. -/
  ne : s ≠ []
  /-- There is nothing else. -/
  digits : ∀ b ∈ s, isdigit b
  /-- The digits have the value. -/
  value : digitsValue 0 s = n

/-- A bulk: the text of its length, and its data. -/
structure RequestBulk where
  /-- The numeral of the length. -/
  size : Bytes
  /-- The data. -/
  data : Bytes
  /-- The numeral is that of the length. -/
  numeral : IsNumeral size data.length

/-- The bytes of a bulk. -/
def RequestBulk.bytes (b : RequestBulk) : Bytes := 36 :: (b.size ++ crlf ++ (b.data ++ crlf))

/-- The buffer is a multi-bulk request: the number of its bulks, of which there is one, and each of
them. -/
def IsRequest (buf : Bytes) : Prop :=
  ∃ (count : Bytes) (bulks : List RequestBulk), bulks ≠ [] ∧ IsNumeral count bulks.length ∧
    buf = 42 :: (count ++ crlf ++ bulks.flatMap RequestBulk.bytes)

/-- A number in plain digits, in the range of `int`. -/
structure IsPlain (line : Bytes) : Prop where
  /-- There is a digit. -/
  ne : line ≠ []
  /-- There is nothing else. -/
  digits : ∀ b ∈ line, isdigit b
  /-- The value is in the range. -/
  lt : digitsValue 0 line < 2^31

/-- The number in the first line is plain, and so is that of each bulk that the validator comes to,
and the two bytes in front of where it leads are CR LF. -/
def PlainHeaders (buf : Bytes) : Prop :=
  (∀ line, lineAt buf 1 = some line → IsPlain line) ∧
    ∀ left pos line, BulkAt buf left pos → lineAt buf (pos + 1) = some line →
      IsPlain line ∧ (buf.drop (bulkEnd pos line - 2).toNat).take 2 = crlf

/-! ## Lines -/

/-- A plain number is read as its value. -/
theorem IsPlain.atoi_eq {line : Bytes} (h : IsPlain line) : atoi line = digitsValue 0 line :=
  atoi_digits h.ne h.digits h.lt

/-- The offset behind a bulk with a plain number. -/
theorem IsPlain.bulkEnd_eq {line : Bytes} (h : IsPlain line) (pos : ℤ) :
    bulkEnd pos line = pos + 1 + line.length + 2 + (digitsValue 0 line + 2) := by
  rw [bulkEnd, h.atoi_eq, if_neg (by omega)]

/-- The line at an offset, with the bytes behind it. -/
theorem drop_of_lineAt {buf line : Bytes} {p : ℕ} (h : lineAt buf p = some line) :
    buf.drop p = line ++ crlf ++ buf.drop (p + line.length + 2) := by
  obtain ⟨n, hn, rfl⟩ := Option.map_eq_some_iff.mp h
  rw [Int.toNat_natCast] at hn ⊢
  have hle := strstrCrlf_le hn
  have hsplit := strstrCrlf_split hn
  rw [List.drop_drop, ← Nat.add_assoc] at hsplit
  have hlen : ((buf.drop p).take n).length = n := by
    rw [List.length_take]
    omega
  rw [hlen]
  exact hsplit

/-- A line without a NUL is found. -/
theorem lineAt_append (pre rest : Bytes) {line : Bytes} (h : IsLine line) :
    lineAt (pre ++ (line ++ crlf ++ rest)) pre.length = some line := by
  have hfound : strstrCrlf (line ++ crlf ++ rest) = some line.length := by
    rw [List.append_assoc]
    exact strstrCrlf_line line rest h
  rw [lineAt, Int.toNat_natCast, List.drop_left, hfound, Option.map_some, List.append_assoc,
    List.take_left]

/-! ## What is accepted is a request -/

/-- Where the loop answers 1 at a bulk, this starts with `$`, and behind it the buffer ends or the
loop answers 1 again. -/
theorem bulkLoop_eq_one {buf : Bytes} {left : ℕ} {pos : ℤ}
    (h : bulkLoop buf (left + 1) pos = .ok 1) :
    readAt buf pos = .ok 36 ∧ ∃ line, IsHeader buf pos line ∧
      (left = 0 ∧ bulkEnd pos line = buf.length ∨ bulkEnd pos line < buf.length ∧
        bulkLoop buf left (bulkEnd pos line) = .ok 1) := by
  obtain ⟨b, hb, ⟨-, hv⟩ | ⟨rfl, line, header, h⟩⟩ := bulkLoop_succ.mp h
  · exact absurd hv (by decide)
  refine ⟨hb, line, header, ?_⟩
  unfold afterBulk at h
  split_ifs at h with hpast hend
  · exact absurd (Except.ok.inj h) (by decide)
  · exact absurd (Except.ok.inj h) (by decide)
  · by_cases hlast : bulkEnd pos line = buf.length
    · exact .inl ⟨by_contra fun hne => hend ⟨hlast, hne⟩, hlast⟩
    · exact .inr ⟨by omega, h⟩

/-- A bulk with a plain number whose data is followed by CR LF, where the length leads to an offset
in the buffer. -/
theorem exists_bulk {buf line : Bytes} {p : ℕ} (hdollar : readAt buf p = .ok 36)
    (hline : lineAt buf (p + 1) = some line) (hplain : IsPlain line)
    (hend : bulkEnd p line ≤ buf.length)
    (hcrlf : (buf.drop (bulkEnd p line - 2).toNat).take 2 = crlf) :
    ∃ b : RequestBulk, buf.drop p = b.bytes ++ buf.drop (bulkEnd p line).toNat := by
  obtain ⟨n, hn⟩ : ∃ n, n = digitsValue 0 line := ⟨_, rfl⟩
  obtain ⟨q, hq⟩ : ∃ q, q = p + 1 + line.length + 2 := ⟨_, rfl⟩
  have hbulkEnd : bulkEnd p line = ((q + n + 2 : ℕ) : ℤ) := by
    rw [hplain.bulkEnd_eq, ← hn, hq]
    push_cast
    ring
  have hbefore : (bulkEnd p line - 2).toNat = q + n := by omega
  rw [hbulkEnd] at hend
  rw [hbefore] at hcrlf
  rw [hbulkEnd, Int.toNat_natCast]
  obtain ⟨-, hget⟩ := readAt_eq_ok.mp hdollar
  rw [Int.toNat_natCast] at hget
  obtain ⟨hlt, hp⟩ := List.getElem?_eq_some_iff.mp hget
  have hheader : buf.drop (p + 1) = line ++ crlf ++ buf.drop q := by
    rw [hq]
    exact drop_of_lineAt (by exact_mod_cast hline)
  -- The data, and the two bytes behind it.
  have hdata : buf.drop q = (buf.drop q).take n ++ (crlf ++ buf.drop (q + n + 2)) := by
    have hsplit := (List.take_append_drop 2 (buf.drop (q + n))).symm
    rw [hcrlf, List.drop_drop] at hsplit
    rw [← hsplit, ← List.drop_drop, List.take_append_drop]
  have hlen : ((buf.drop q).take n).length = n := by
    rw [List.length_take, List.length_drop]
    omega
  refine ⟨⟨line, (buf.drop q).take n, hplain.ne, hplain.digits, by rw [hlen, hn]⟩, ?_⟩
  rw [List.drop_eq_getElem_cons hlt, hp, hheader]
  nth_rewrite 1 [hdata]
  simp only [RequestBulk.bytes, List.cons_append, List.append_assoc]

/-- The bulks from one that the validator comes to on. -/
theorem exists_bulks {buf : Bytes} (hplain : PlainHeaders buf) {left p : ℕ}
    (h : BulkAt buf left p) (hone : bulkLoop buf (left + 1) p = .ok 1) :
    ∃ bulks : List RequestBulk, bulks.length = left + 1 ∧
      buf.drop p = bulks.flatMap RequestBulk.bytes := by
  -- By the bulks that are left, of which the last one ends with the buffer.
  induction left generalizing p with
  | zero =>
    obtain ⟨hdollar, line, header, hnext⟩ := bulkLoop_eq_one hone
    obtain ⟨hline, hcrlf⟩ := hplain.2 0 p line h header.found
    -- The loop is at its end, where it compares with the end of the buffer.
    have hend : bulkEnd p line = buf.length := by
      rcases hnext with ⟨-, hend⟩ | ⟨hlt, hzero⟩
      · exact hend
      · rw [bulkLoop, if_pos (by omega)] at hzero
        exact absurd (Except.ok.inj hzero) (by decide)
    obtain ⟨b, hb⟩ := exists_bulk hdollar header.found hline hend.le hcrlf
    refine ⟨[b], rfl, ?_⟩
    rw [hb, hend, Int.toNat_natCast, List.drop_length, List.flatMap_singleton, List.append_nil]
  | succ left ih =>
    obtain ⟨hdollar, line, header, ⟨hzero, -⟩ | ⟨hlt, hrest⟩⟩ := bulkLoop_eq_one hone
    · exact absurd hzero (Nat.succ_ne_zero left)
    obtain ⟨hline, hcrlf⟩ := hplain.2 _ p line h header.found
    obtain ⟨b, hb⟩ := exists_bulk hdollar header.found hline hlt.le hcrlf
    obtain ⟨q, hq⟩ : ∃ q : ℕ, bulkEnd p line = q :=
      ⟨(bulkEnd p line).toNat, by rw [hline.bulkEnd_eq]; omega⟩
    have hat : BulkAt buf left (bulkEnd p line) := .next h hdollar header hlt
    rw [hq] at hat hrest
    obtain ⟨bulks, hlen, hbulks⟩ := ih hat hrest
    refine ⟨b :: bulks, congrArg (· + 1) hlen, ?_⟩
    rw [hb, hq, Int.toNat_natCast, hbulks, List.flatMap_cons]

/-- A buffer that is accepted, with plain numbers, is a request. -/
theorem isRequest_of_plain {buf : Bytes} (hstar : buf[0]? = some 42)
    (hone : processRequestBuffer buf = .ok 1) (hplain : PlainHeaders buf) : IsRequest buf := by
  have hend : endsInCrlf buf = true := by
    by_contra hend
    rw [processRequestBuffer, if_pos (by simp [hend])] at hone
    exact absurd (Except.ok.inj hone) (by decide)
  obtain ⟨line, count, hloop⟩ := (processRequestBuffer_multiBulk hend hstar).mp hone
  have hline := hplain.1 line count.found
  have hvalue := hline.atoi_eq
  split_ifs at hloop with hrange hmore
  · exact absurd (Except.ok.inj hloop) (by decide)
  · exact absurd (Except.ok.inj hloop) (by decide)
  -- The count is positive, and the first bulk starts behind its line.
  obtain ⟨left, hleft⟩ : ∃ left : ℕ, digitsValue 0 line = left + 1 :=
    Nat.exists_eq_succ_of_ne_zero (by omega)
  have hoffset : (1 + line.length + 2 : ℤ) = ((1 + line.length + 2 : ℕ) : ℤ) := by push_cast; rfl
  have hat : BulkAt buf left (1 + line.length + 2) :=
    .first count (by rw [hvalue, hleft]; push_cast; rfl) (by omega) (not_le.mp hmore)
  rw [hvalue, hleft, Int.toNat_natCast, hoffset] at hloop
  rw [hoffset] at hat
  obtain ⟨bulks, hlen, hbulks⟩ := exists_bulks hplain hat hloop
  refine ⟨line, bulks, List.ne_nil_of_length_eq_add_one hlen,
    ⟨hline.ne, hline.digits, by rw [hleft, hlen]⟩, ?_⟩
  obtain ⟨hlt, hfirst⟩ := List.getElem?_eq_some_iff.mp hstar
  have hsplit : buf.drop 0 = 42 :: buf.drop 1 := by
    rw [List.drop_eq_getElem_cons hlt, hfirst]
  have hheader : buf.drop 1 = line ++ crlf ++ buf.drop (1 + line.length + 2) :=
    drop_of_lineAt (by exact_mod_cast count.found)
  rw [← List.drop_zero (l := buf), hsplit, hheader, hbulks]

/-! ## A request has plain numbers -/

/-- A numeral of a number in the range is plain. -/
theorem IsNumeral.isPlain {s : Bytes} {n : ℕ} (h : IsNumeral s n) (hn : n < 2^31) : IsPlain s :=
  ⟨h.ne, h.digits, h.value.trans_lt hn⟩

/-- A bulk is longer than its data. -/
theorem RequestBulk.length_bytes (b : RequestBulk) :
    b.bytes.length = b.size.length + b.data.length + 5 := by
  simp only [bytes, List.length_cons, List.length_append, length_crlf]
  omega

/-- There are no more bulks than bytes. -/
theorem length_le_flatMap_bytes (bulks : List RequestBulk) :
    bulks.length ≤ (bulks.flatMap RequestBulk.bytes).length := by
  induction bulks with
  | nil => exact le_rfl
  | cons b bulks ih =>
    have hb := b.length_bytes
    rw [List.flatMap_cons, List.length_append, List.length_cons]
    omega

/-- The header of a bulk is found where the bulk starts. -/
theorem lineAt_bulk (pre rest : Bytes) (b : RequestBulk) :
    lineAt (pre ++ (b.bytes ++ rest)) (pre.length + 1) = some b.size := by
  have hfound := lineAt_append (pre ++ [36]) (b.data ++ crlf ++ rest)
    (isLine_of_digits b.numeral.digits)
  have hlen : ((pre ++ [36]).length : ℤ) = pre.length + 1 := by
    rw [List.length_append, List.length_singleton]
    push_cast
    rfl
  rw [hlen] at hfound
  rw [← hfound]
  simp only [RequestBulk.bytes, List.append_assoc, List.cons_append, List.nil_append]

/-- The length of a bulk leads behind it. -/
theorem bulkEnd_bulk (p : ℕ) {b : RequestBulk} (hplain : IsPlain b.size) :
    bulkEnd p b.size = ((p + b.bytes.length : ℕ) : ℤ) := by
  rw [hplain.bulkEnd_eq, b.numeral.value, b.length_bytes]
  push_cast
  ring

/-- What stands in front of where the length of a bulk leads. -/
theorem take_two_bulk (pre rest : Bytes) {b : RequestBulk} (hplain : IsPlain b.size) :
    ((pre ++ (b.bytes ++ rest)).drop (bulkEnd pre.length b.size - 2).toNat).take 2 = crlf := by
  have hlen := b.length_bytes
  have hsplit : pre ++ (b.bytes ++ rest) =
      (pre ++ 36 :: (b.size ++ crlf ++ b.data)) ++ (crlf ++ rest) := by
    simp only [RequestBulk.bytes, List.append_assoc, List.cons_append]
  have hbefore : (bulkEnd pre.length b.size - 2).toNat =
      (pre ++ 36 :: (b.size ++ crlf ++ b.data)).length := by
    rw [bulkEnd_bulk _ hplain]
    simp only [List.length_append, List.length_cons, length_crlf]
    omega
  rw [hbefore, hsplit, List.drop_left, List.take_left' length_crlf]

/-- The number of bulks is found in the first line, and is plain. -/
theorem count_of_request {buf count : Bytes} {bulks : List RequestBulk} (hlen : buf.length < 2^31)
    (hcount : IsNumeral count bulks.length)
    (hbuf : buf = 42 :: (count ++ crlf ++ bulks.flatMap RequestBulk.bytes)) :
    lineAt buf 1 = some count ∧ IsPlain count := by
  -- The number of bulks is in the range of `int` since the length of the buffer is.
  have hle := length_le_flatMap_bytes bulks
  have hfound := lineAt_append [42] (bulks.flatMap RequestBulk.bytes)
    (isLine_of_digits hcount.digits)
  have hbytes := congrArg List.length hbuf
  simp only [List.length_cons, List.length_append] at hbytes
  refine ⟨?_, hcount.isPlain (by omega)⟩
  rw [hbuf]
  exact hfound

/-- The length of a bulk in the buffer is plain. -/
theorem isPlain_size {buf pre rest : Bytes} {b : RequestBulk} (hlen : buf.length < 2^31)
    (hbuf : buf = pre ++ (b.bytes ++ rest)) : IsPlain b.size := by
  have hb := b.length_bytes
  have hbytes := congrArg List.length hbuf
  rw [List.length_append, List.length_append] at hbytes
  exact b.numeral.isPlain (by omega)

/-- In a request the validator comes to the bulks, one after the other. -/
theorem BulkAt.exists_suffix {buf count : Bytes} {bulks : List RequestBulk}
    (hlen : buf.length < 2^31)
    (hcount : IsNumeral count bulks.length)
    (hbuf : buf = 42 :: (count ++ crlf ++ bulks.flatMap RequestBulk.bytes)) {left : ℕ} {pos : ℤ}
    (h : BulkAt buf left pos) : ∃ (pre : Bytes) (b : RequestBulk) (rest : List RequestBulk),
      buf = pre ++ (b.bytes ++ rest.flatMap RequestBulk.bytes) ∧ pos = pre.length ∧
        rest.length = left := by
  -- Where the validator is a bulk starts, and its length leads to the next one.
  induction h with
  | @first line left hline number most more =>
    obtain ⟨hfound, hplain⟩ := count_of_request hlen hcount hbuf
    obtain rfl := Option.some.inj (hfound.symm.trans hline.found)
    rw [hplain.atoi_eq, hcount.value] at number
    obtain ⟨b, rest, rfl⟩ := List.exists_cons_of_length_pos (by omega : 0 < bulks.length)
    refine ⟨42 :: (count ++ crlf), b, rest, ?_, ?_, ?_⟩
    · rw [hbuf, List.flatMap_cons]
      rfl
    · simp only [List.length_cons, List.length_append, length_crlf]
      push_cast
      ring
    · rw [List.length_cons] at number
      omega
  | @next left pos line _ dollar header more ih =>
    obtain ⟨pre, b, rest, heq, rfl, hrest⟩ := ih
    have hplain := isPlain_size hlen heq
    have hfound := lineAt_bulk pre (rest.flatMap RequestBulk.bytes) b
    rw [← heq] at hfound
    obtain rfl := Option.some.inj (hfound.symm.trans header.found)
    obtain ⟨b', rest', rfl⟩ := List.exists_cons_of_length_pos (by omega : 0 < rest.length)
    refine ⟨pre ++ b.bytes, b', rest', ?_, ?_, Nat.succ.inj hrest⟩
    · rw [heq, List.flatMap_cons, List.append_assoc]
    · rw [bulkEnd_bulk _ hplain, List.length_append]

/-- In a request all numbers are plain, and each bulk's data is followed by CR LF. -/
theorem plain_of_isRequest {buf : Bytes} (hlen : buf.length < 2^31) (h : IsRequest buf) :
    PlainHeaders buf := by
  obtain ⟨count, bulks, -, hcount, hbuf⟩ := h
  constructor
  · intro line hline
    obtain ⟨hfound, hplain⟩ := count_of_request hlen hcount hbuf
    exact Option.some.inj (hfound.symm.trans hline) ▸ hplain
  · intro left pos line hat hline
    obtain ⟨pre, b, rest, heq, rfl, -⟩ := hat.exists_suffix hlen hcount hbuf
    have hplain := isPlain_size hlen heq
    have hfound := lineAt_bulk pre (rest.flatMap RequestBulk.bytes) b
    rw [← heq] at hfound
    obtain rfl := Option.some.inj (hfound.symm.trans hline)
    refine ⟨hplain, ?_⟩
    rw [heq]
    exact take_two_bulk pre _ hplain

/-- A buffer that starts with an asterisk and is accepted is a request if and only if the numbers
that the validator comes to are plain and each bulk's data is followed by CR LF. -/
theorem isRequest_iff {buf : Bytes} (hlen : buf.length < 2^31) (hstar : buf[0]? = some 42)
    (hone : processRequestBuffer buf = .ok 1) : IsRequest buf ↔ PlainHeaders buf :=
  ⟨plain_of_isRequest hlen, isRequest_of_plain hstar hone⟩

/-- The request of the string `"a"`. -/
theorem isRequest_iff_a :
    IsRequest (text "*1\r\n$1\r\na\r\n") ↔ PlainHeaders (text "*1\r\n$1\r\na\r\n") :=
  isRequest_iff (by decide) (by decide) (by decide)

/-- The strings `"a"` and `"b"`, where `"XY"` stands for the line end behind the first one. -/
def unterminated : Bytes := text "*2\r\n$1\r\naXY$1\r\nb\r\n"

/-- The buffer is accepted, and is no request. -/
theorem not_isRequest_unterminated :
    processRequestBuffer unterminated = .ok 1 ∧ ¬IsRequest unterminated := by
  refine ⟨by decide, fun h => ?_⟩
  have hplain := plain_of_isRequest (by decide) h
  have hat : BulkAt unterminated 1 (1 + (text "2").length + 2) :=
    .first ⟨by decide, by decide⟩ (by decide) (by decide) (by decide)
  obtain ⟨-, hcrlf⟩ := hplain.2 1 _ (text "1") hat (by decide)
  exact absurd hcrlf (by decide)

end MgCommonUtils.RedisProxy
