import MgCommonUtils.RedisProxy.Buffer

/-!
# The request validator

`processRequestBuffer` is `_processRequestBuffer` of `redis-proxy/echo.c`, which decides after
every read whether the client's buffer holds a whole request. On the multi-bulk encoding of a
list of arguments it answers 1, and on every proper cut of it 0
(`processRequestBuffer_encodeRequest`, `processRequestBuffer_prefix`). A cut that does not end in
CR LF is refused at once. One that does has its last header line whole, so the loop over the bulks
follows the encoding (`bulkLoop_prefix`) and stops at the first bulk that the cut does not reach.
-/

namespace MgCommonUtils.RedisProxy

open MgCommonUtils.Lib

/-- `"quit\r\n"`. -/
def quitLine : Bytes := [113, 117, 105, 116, 13, 10]

/-- `"exit\r\n"`. -/
def exitLine : Bytes := [101, 120, 105, 116, 13, 10]

/-- `_processRequestBuffer`: 1 when the request is full and valid, 0 when more data is needed, -1
on a protocol error, and -2 on QUIT. -/
def processRequestBuffer (rbuf : Bytes) : Except Abort ℤ :=
  if !endsInCrlf rbuf then .ok 0
  else if rbuf[0]? ≠ some 42 then
    -- Possibly an old protocol command.
    if strcasecmpEq rbuf quitLine then .ok (-2)
    else if strcasecmpEq rbuf exitLine then .error .exit
    else .ok 1
  else do
    let (argc, pos) ← readLine rbuf 1
    if argc ≤ 0 ∨ argc > 1024 then return -1
    if pos ≥ rbuf.length then return 0
    bulkLoop rbuf argc.toNat pos

/-- The multi-bulk encoding of a list of bulks. -/
def encodeMultiBulk (es : List (Option Bytes)) : Bytes :=
  42 :: (decimal es.length ++ crlf ++ es.flatMap encodeBulk)

/-- The multi-bulk encoding of a request: its arguments as bulks. -/
def encodeRequest (args : List Bytes) : Bytes := encodeMultiBulk (args.map some)

/-! ## The loop on a cut of the bulks -/

/-- The last byte of what follows a bulk that was cut off. -/
theorem getLast?_of_append {a b : Bytes} {x : UInt8} (hb : b ≠ [])
    (h : (a ++ b).getLast? = some x) : b.getLast? = some x := by
  rwa [List.getLast?_append_of_ne_nil _ hb] at h

/-- The loop over the bulks of a list, on a cut of their encodings that ends in LF: 1 when the
cut is whole, and 0 when it is proper. -/
theorem bulkLoop_prefix (es : List (Option Bytes)) (hes : ∀ e ∈ es, BulkFits e) (pre q : Bytes)
    (hq : q <+: es.flatMap encodeBulk) (hlast : q.getLast? = some 10) :
    bulkLoop (pre ++ q) es.length pre.length =
      .ok (if q.length = (es.flatMap encodeBulk).length then 1 else 0) := by
  induction es generalizing pre q with
  | nil => simp [List.prefix_nil.mp (by simpa using hq)] at hlast
  | cons e es ih =>
    rw [List.flatMap_cons] at hq ⊢
    rw [List.length_cons, bulkLoop_step pre q _ e es.length (hes e (by simp)) hq hlast]
    have hle := hq.length_le
    rw [List.length_append] at hle ⊢
    by_cases h1 : q.length < (encodeBulk e).length
    · rw [if_pos h1, if_neg (by omega)]
    rw [if_neg h1]
    have hcut : encodeBulk e <+: q :=
      List.prefix_of_prefix_length_le (List.prefix_append _ _) hq (by omega)
    obtain ⟨q', rfl⟩ := hcut
    have hq' : q' <+: es.flatMap encodeBulk := (List.prefix_append_right_inj _).mp hq
    cases es with
    | nil =>
      -- The last bulk: the cut ends with it.
      have hnil : q' = [] := List.prefix_nil.mp (by simpa using hq')
      subst hnil
      simp [bulkLoop]
    | cons e' es =>
      have h5 := five_le_length_encodeBulk e'
      simp only [List.length_append, List.length_cons, List.flatMap_cons] at h5 ⊢
      by_cases hnil : q' = []
      · -- The cut ends with a bulk that is not the last.
        have hl : q'.length = 0 := by simp [hnil]
        rw [if_pos ⟨by omega, by omega⟩, if_neg (by omega)]
      · have hpos := List.length_pos_iff.mpr hnil
        have h := ih (fun x hx => hes x (by simp [hx])) (pre ++ encodeBulk e) q' hq'
          (getLast?_of_append hnil hlast)
        simp only [List.length_append, List.append_assoc, List.length_cons, List.flatMap_cons,
          Nat.cast_add] at h
        rw [if_neg (by omega), h]
        congr 2
        exact propext ⟨fun h => by omega, fun h => by omega⟩

/-! ## The validator on a cut of a request -/

/-- A bulk's encoding ends in CR LF. -/
theorem encodeBulk_suffix (e : Option Bytes) : crlf <:+ encodeBulk e := by
  cases e with
  | none => exact ⟨[36, 45, 49], rfl⟩
  | some a => exact ⟨36 :: (decimal a.length ++ crlf ++ a), by simp [encodeBulk]⟩

/-- A multi-bulk's encoding ends in CR LF. -/
theorem encodeMultiBulk_suffix (es : List (Option Bytes)) : crlf <:+ encodeMultiBulk es := by
  rcases List.eq_nil_or_concat es with rfl | ⟨es', e, rfl⟩
  · exact ⟨42 :: decimal 0, by simp [encodeMultiBulk]⟩
  · refine (encodeBulk_suffix e).trans ?_
    exact ⟨42 :: (decimal (es' ++ [e]).length ++ crlf ++ es'.flatMap encodeBulk),
      by simp [encodeMultiBulk]⟩

/-- A byte string of at least three bytes with CR LF at its end passes the validators' first
test. -/
theorem endsInCrlf_of_suffix {s : Bytes} (h : crlf <:+ s) (hlen : 3 ≤ s.length) :
    endsInCrlf s = true := by
  obtain ⟨i, rfl⟩ := h
  rw [List.length_append, length_crlf] at hlen
  simp only [endsInCrlf, List.length_append, length_crlf, Bool.and_eq_true, decide_eq_true_eq,
    beq_iff_eq]
  refine ⟨⟨hlen, ?_⟩, ?_⟩
  · rw [show i.length + 2 - 2 = i.length by omega, List.getElem?_append_right le_rfl]
    simp [crlf]
  · rw [show i.length + 2 - 1 = i.length + 1 by omega, List.getElem?_append_right (by omega)]
    simp [crlf]

/-- The header line of a multi-bulk, on a cut of it that ends in LF: the cut has the whole line,
and the line is read as the number of elements. -/
theorem readLine_multiBulk {n : ℕ} {t q : Bytes} (hn : n < 2^31)
    (hq : q <+: 42 :: (decimal n ++ crlf ++ t)) (hlast : q.getLast? = some 10) :
    ∃ q', q = 42 :: (decimal n ++ crlf) ++ q' ∧ q' <+: t ∧
      readLine q 1 = .ok (n, (42 :: (decimal n ++ crlf) : Bytes).length) := by
  have hi : (10 : UInt8) ∉ 42 :: (decimal n ++ [13]) := by simp [lf_notMem_decimal]
  obtain ⟨q', rfl, hq'⟩ := header_of_prefix (t := t) hi (by simpa [crlf] using hq) hlast
  refine ⟨q', by simp [crlf], hq', ?_⟩
  have h := readLine_header [] (decimal n) q' 42 (isLine_decimal _)
    (length_decimal_le (by norm_num) (by omega))
  rw [atoi_decimal hn] at h
  have hlen :
      ((42 :: (decimal n ++ crlf) : Bytes).length : ℤ) = 0 + 1 + (decimal n).length + 2 := by
    simp only [List.length_cons, List.length_append, length_crlf]
    push_cast
    ring
  rw [hlen]
  simpa [crlf] using h

/-- The validator on a cut of a request's encoding of one byte or more: 1 on the whole encoding,
and 0 on a proper cut. -/
theorem processRequestBuffer_prefix {args : List Bytes} {q : Bytes} (h₁ : 1 ≤ args.length)
    (h₂ : args.length ≤ 1024) (hfit : ∀ a ∈ args, a.length + 2 < 2^31)
    (hq : q <+: encodeRequest args) :
    processRequestBuffer q = .ok (if q = encodeRequest args then 1 else 0) := by
  by_cases hend : endsInCrlf q = true
  case neg =>
    -- The whole encoding ends in CR LF, so a cut that does not is proper.
    have hne : q ≠ encodeRequest args := by
      rintro rfl
      refine hend (endsInCrlf_of_suffix (encodeMultiBulk_suffix _) ?_)
      have hd := List.length_pos_iff.mpr (decimal_ne_nil (args.map some).length)
      simp only [encodeRequest, encodeMultiBulk, List.length_cons, List.length_append, length_crlf]
      omega
    simp [processRequestBuffer, hend, hne]
  have hlast := getLast?_of_endsInCrlf hend
  obtain ⟨q', hqq, hq', hline⟩ := readLine_multiBulk (by simp; omega) hq hlast
  have h0 : q[0]? = some 42 := by simp [hqq]
  rw [List.length_map] at hqq hline
  have hlen : q.length = (42 :: (decimal args.length ++ crlf) : Bytes).length + q'.length := by
    rw [hqq, List.length_append]
  have hiff : q = encodeRequest args ↔ q'.length = ((args.map some).flatMap encodeBulk).length := by
    constructor
    · intro h
      have := congrArg List.length (hqq.symm.trans h)
      simp only [encodeRequest, encodeMultiBulk, List.length_cons, List.length_append,
        List.length_map] at this
      omega
    · intro h
      rw [hqq, hq'.eq_of_length h]
      simp [encodeRequest, encodeMultiBulk]
  simp only [processRequestBuffer, hend, Bool.not_true, Bool.false_eq_true, if_false, h0, ne_eq,
    not_true_eq_false, hline, hiff, bind, Except.bind, pure, Except.pure]
  rw [if_neg (by omega)]
  by_cases hnil : q' = []
  · -- The cut has the header line only.
    obtain ⟨a, as, rfl⟩ := List.exists_cons_of_length_pos h₁
    have h5 := five_le_length_encodeBulk (some a)
    rw [if_pos (by rw [hlen, hnil]; simp), if_neg]
    simp only [hnil, List.map_cons, List.flatMap_cons, List.length_append, List.length_nil]
    omega
  · have hposq := List.length_pos_iff.mpr hnil
    have hloop := bulkLoop_prefix (args.map some)
      (fun e he a hea => by
        obtain ⟨b, hb, rfl⟩ := List.mem_map.mp he
        exact hfit a (by rwa [← Option.some.inj hea]))
      (42 :: (decimal args.length ++ crlf)) q' hq' (getLast?_of_append hnil (by rwa [hqq] at hlast))
    rw [List.length_map, ← hqq] at hloop
    rw [if_neg (by omega), Int.toNat_natCast, hloop]

end MgCommonUtils.RedisProxy
