import MgCommonUtils.Lib.Reader
import MgCommonUtils.RedisProxy.Request

/-!
# What the request validator reads

On which buffers `_processRequestBuffer` stays within its buffer, its `slen` and the range of `int`.
The validator comes from one bulk's header to the next by the length in it (`BulkAt`), which may be
negative or larger than the buffer, and tests none of what it reads there. So it stays in its bounds
if and only if each header that it comes to is a short line without a NUL, with a length that two
can be added to, and none of the lengths leads to an offset in front of the buffer (`inBounds_iff`).
A buffer in the old protocol is compared with two lines, up to the byte behind each.
-/

namespace MgCommonUtils.RedisProxy

open MgCommonUtils.Lib

/-! ## Lines -/

/-- The line at an offset: the bytes in front of the first CR LF, if there is one in front of the
first NUL. -/
def lineAt (buf : Bytes) (pos : ℤ) : Option Bytes :=
  (strstrCrlf (buf.drop pos.toNat)).map fun n => (buf.drop pos.toNat).take n

/-- A line is read if and only if it fits `slen`. -/
theorem readLine_eq_ok {buf : Bytes} {pos v q : ℤ} : readLine buf pos = .ok (v, q) ↔
    ∃ line, lineAt buf pos = some line ∧ line.length ≤ 10 ∧ v = atoi line ∧
      q = pos + line.length + 2 := by
  unfold readLine lineAt
  cases hn : strstrCrlf (buf.drop pos.toNat) with
  | none =>
    refine iff_of_false (fun h => by cases h) ?_
    rintro ⟨line, hline, -⟩
    cases hline
  | some n =>
    have hle := strstrCrlf_le hn
    have hlen : ((buf.drop pos.toNat).take n).length = n := by
      rw [List.length_take]
      omega
    rw [Option.map_some]
    dsimp only
    constructor
    · intro h
      split at h
      · rename_i hshort
        obtain ⟨rfl, rfl⟩ := Prod.mk.inj (Except.ok.inj h)
        exact ⟨_, rfl, by rwa [hlen], rfl, by rw [hlen]⟩
      · cases h
    · rintro ⟨line, hline, hshort, rfl, rfl⟩
      obtain rfl := Option.some.inj hline
      rw [hlen] at hshort ⊢
      rw [if_pos hshort]

/-! ## The bulks that the validator comes to -/

/-- The offset behind the bulk at `pos` whose header has the given text. -/
def bulkEnd (pos : ℤ) (line : Bytes) : ℤ :=
  pos + 1 + line.length + 2 + if atoi line = -1 then 0 else atoi line + 2

/-- The header of a bulk, which is read without a fault. -/
structure IsHeader (buf : Bytes) (pos : ℤ) (line : Bytes) : Prop where
  /-- The line behind the `$`. -/
  found : lineAt buf (pos + 1) = some line
  /-- It fits `slen`. -/
  short : line.length ≤ 10
  /-- Two can be added to its number. -/
  fits : atoi line + 2 < 2^31

/-- The first line of a multi-bulk, which is read without a fault. -/
structure IsCount (buf line : Bytes) : Prop where
  /-- The line behind the `*`. -/
  found : lineAt buf 1 = some line
  /-- It fits `slen`. -/
  short : line.length ≤ 10

/-- The validator comes to a bulk at the offset, with the given number of bulks to follow it. -/
inductive BulkAt (buf : Bytes) : ℕ → ℤ → Prop
  /-- The first bulk is behind the first line. -/
  | first {line : Bytes} {left : ℕ} (count : IsCount buf line) (number : atoi line = left + 1)
      (most : left < 1024) (more : (1 + line.length + 2 : ℤ) < buf.length) :
      BulkAt buf left (1 + line.length + 2)
  /-- The next bulk is where the length of this one leads. -/
  | next {left : ℕ} {pos : ℤ} {line : Bytes} (at_ : BulkAt buf (left + 1) pos)
      (dollar : readAt buf pos = .ok 36) (header : IsHeader buf pos line)
      (more : bulkEnd pos line < buf.length) : BulkAt buf left (bulkEnd pos line)

/-- A bulk that the validator comes to starts in front of the buffer's end. -/
theorem BulkAt.lt {buf : Bytes} {left : ℕ} {pos : ℤ} (h : BulkAt buf left pos) :
    pos < buf.length := by
  cases h with
  | first _ _ _ more => exact more
  | next _ _ _ more => exact more

/-- A read in the buffer. -/
theorem readAt_eq_ok {buf : Bytes} {pos : ℤ} {b : UInt8} :
    readAt buf pos = .ok b ↔ 0 ≤ pos ∧ buf[pos.toNat]? = some b := by
  unfold readAt
  split
  · rename_i hpos
    cases buf[pos.toNat]? with
    | none => exact iff_of_false (fun h => by cases h) (fun h => by cases h.2)
    | some c =>
      exact ⟨fun h => ⟨hpos, congrArg some (Except.ok.inj h)⟩,
        fun h => congrArg Except.ok (Option.some.inj h.2)⟩
  · rename_i hneg
    exact iff_of_false (fun h => by cases h) (fun h => hneg h.1)

/-- What a turn of the loop comes to behind its bulk. -/
def afterBulk (buf : Bytes) (left : ℕ) (pos : ℤ) : Except Abort ℤ :=
  if pos > buf.length then .ok 0
  else if pos = buf.length ∧ left ≠ 0 then .ok 0
  else bulkLoop buf left pos

/-- A turn of the loop. -/
theorem bulkLoop_succ {buf : Bytes} {left : ℕ} {pos v : ℤ} :
    bulkLoop buf (left + 1) pos = .ok v ↔ ∃ b, readAt buf pos = .ok b ∧
      (b ≠ 36 ∧ v = -1 ∨ b = 36 ∧ ∃ line, IsHeader buf pos line ∧
        afterBulk buf left (bulkEnd pos line) = .ok v) := by
  -- -1 skips nothing, and the 2 has to fit behind any other length.
  have hskip : ∀ (line : Bytes) (q r : ℤ), skipData (atoi line) q = .ok r ↔
      atoi line + 2 < 2^31 ∧ r = q + if atoi line = -1 then 0 else atoi line + 2 := by
    intro line q r
    unfold skipData
    split_ifs with hnil hfits
    · rw [hnil, add_zero]
      exact ⟨fun h => ⟨by norm_num, (Except.ok.inj h).symm⟩, fun h => congrArg Except.ok h.2.symm⟩
    · exact ⟨fun h => ⟨hfits, (Except.ok.inj h).symm⟩, fun h => congrArg Except.ok h.2.symm⟩
    · exact iff_of_false (fun h => by cases h) (fun h => hfits h.1)
  rw [bulkLoop]
  constructor
  · intro h
    obtain ⟨b, hb, h⟩ := except_bind_eq_ok.mp h
    refine ⟨b, hb, ?_⟩
    split at h
    · rename_i hne
      exact .inl ⟨hne, (Except.ok.inj h).symm⟩
    · rename_i heq
      obtain ⟨⟨ilen, q⟩, hline, h⟩ := except_bind_eq_ok.mp h
      obtain ⟨r, hr, h⟩ := except_bind_eq_ok.mp h
      obtain ⟨line, hat, hshort, rfl, rfl⟩ := readLine_eq_ok.mp hline
      obtain ⟨hfits, rfl⟩ := (hskip _ _ _).mp hr
      exact .inr ⟨not_not.mp heq, line, ⟨hat, hshort, hfits⟩, h⟩
  · rintro ⟨b, hb, ⟨hne, rfl⟩ | ⟨rfl, line, ⟨hat, hshort, hfits⟩, h⟩⟩
    · refine except_bind_eq_ok.mpr ⟨b, hb, ?_⟩
      rw [if_pos hne]
      rfl
    · refine except_bind_eq_ok.mpr ⟨36, hb, ?_⟩
      rw [if_neg (by decide)]
      refine except_bind_eq_ok.mpr
        ⟨(atoi line, pos + 1 + line.length + 2),
          readLine_eq_ok.mpr ⟨line, hat, hshort, rfl, rfl⟩, ?_⟩
      exact except_bind_eq_ok.mpr ⟨_, (hskip _ _ _).mpr ⟨hfits, rfl⟩, h⟩

/-- The validator on a multi-bulk that ends in CR LF. -/
theorem processRequestBuffer_multiBulk {buf : Bytes} {v : ℤ} (hend : endsInCrlf buf = true)
    (hstar : buf[0]? = some 42) : processRequestBuffer buf = .ok v ↔
      ∃ line, IsCount buf line ∧
        (if atoi line ≤ 0 ∨ atoi line > 1024 then .ok (-1)
        else if (1 + line.length + 2 : ℤ) ≥ buf.length then .ok 0
        else bulkLoop buf (atoi line).toNat (1 + line.length + 2)) = (.ok v : Except Abort ℤ) := by
  unfold processRequestBuffer
  rw [if_neg (by simp [hend]), if_neg (not_not.mpr hstar)]
  constructor
  · intro h
    obtain ⟨⟨argc, q⟩, hline, h⟩ := except_bind_eq_ok.mp h
    obtain ⟨line, hat, hshort, rfl, rfl⟩ := readLine_eq_ok.mp hline
    exact ⟨line, ⟨hat, hshort⟩, h⟩
  · rintro ⟨line, ⟨hat, hshort⟩, h⟩
    exact except_bind_eq_ok.mpr
      ⟨(atoi line, 1 + line.length + 2), readLine_eq_ok.mpr ⟨line, hat, hshort, rfl, rfl⟩, h⟩

/-! ## The bounds -/

/-- The number of bytes of `s`, and of those behind it, that `strcasecmp(s,t)` reads. -/
def strcasecmpReads : Bytes → Bytes → ℕ
  | [], _ => 1
  | _ :: _, [] => 1
  | a :: s, b :: t => if tolower a = tolower b then strcasecmpReads s t + 1 else 1

/-- The validator reads bytes of its buffer only, uses no result of a `strstr` that found nothing,
copies at most 10 bytes into `slen`, and overflows no `int`. It may call `exit`. -/
def InBounds (buf : Bytes) : Prop :=
  ((∃ v, processRequestBuffer buf = .ok v) ∨ processRequestBuffer buf = .error .exit) ∧
    (endsInCrlf buf = true → buf[0]? ≠ some 42 →
      strcasecmpReads buf quitLine ≤ buf.length ∧
        (strcasecmpEq buf quitLine = false → strcasecmpReads buf exitLine ≤ buf.length))

/-- What makes a bulk that the validator comes to safe: it is not in front of the buffer, and if it
starts with `$`, its header can be read. -/
def SafeBulk (buf : Bytes) (pos : ℤ) : Prop :=
  0 ≤ pos ∧ (buf[pos.toNat]? = some 36 → ∃ line, IsHeader buf pos line)

/-- The buffer does not end in CR LF, or it is a multi-bulk whose first line can be read and whose
bulks are safe, or a line of the old protocol that neither is `"quit"` nor `"exit"`. -/
def SafeBuffer (buf : Bytes) : Prop :=
  endsInCrlf buf = true →
    if buf[0]? = some 42 then
      (∃ line, IsCount buf line) ∧ ∀ left pos, BulkAt buf left pos → SafeBulk buf pos
    else buf.map tolower ≠ quitLine ∧ buf.map tolower ≠ exitLine

/-! ### The multi-bulk -/

/-- At a safe bulk a turn of the loop has a result, if what comes behind the bulk has one. -/
theorem SafeBulk.exists_turn {buf : Bytes} {left : ℕ} {pos : ℤ} (h : SafeBulk buf pos)
    (hlt : pos < buf.length)
    (hafter : ∀ line, readAt buf pos = .ok 36 → IsHeader buf pos line →
      ∃ v, afterBulk buf left (bulkEnd pos line) = .ok v) :
    ∃ v, bulkLoop buf (left + 1) pos = .ok v := by
  obtain ⟨hpos, hheader⟩ := h
  obtain ⟨b, hb⟩ : ∃ b, buf[pos.toNat]? = some b := ⟨_, List.getElem?_eq_getElem (by omega)⟩
  have hread := readAt_eq_ok.mpr ⟨hpos, hb⟩
  by_cases hdollar : b = 36
  · rw [hdollar] at hb hread
    obtain ⟨line, hline⟩ := hheader hb
    obtain ⟨v, hv⟩ := hafter line hread hline
    exact ⟨v, bulkLoop_succ.mpr ⟨36, hread, .inr ⟨rfl, line, hline, hv⟩⟩⟩
  · exact ⟨-1, bulkLoop_succ.mpr ⟨b, hread, .inl ⟨hdollar, rfl⟩⟩⟩

/-- Where the bulks are safe, the loop has a result. -/
theorem exists_bulkLoop {buf : Bytes} (hsafe : ∀ left pos, BulkAt buf left pos → SafeBulk buf pos)
    {left : ℕ} {pos : ℤ} (h : BulkAt buf left pos) :
    ∃ v, bulkLoop buf (left + 1) pos = .ok v := by
  induction left generalizing pos with
  | zero =>
    -- Behind the last bulk the offset is only compared with the end of the buffer.
    refine (hsafe 0 pos h).exists_turn h.lt fun line _ _ => ?_
    unfold afterBulk
    split_ifs
    · exact ⟨0, rfl⟩
    · exact ⟨0, rfl⟩
    · exact ⟨_, rfl⟩
  | succ left ih =>
    refine (hsafe (left + 1) pos h).exists_turn h.lt fun line hread hline => ?_
    unfold afterBulk
    split_ifs with hpast hend
    · exact ⟨0, rfl⟩
    · exact ⟨0, rfl⟩
    · exact ih (h.next hread hline (by omega))

/-- Where the validator has a result, so has the loop at each bulk that it comes to. -/
theorem BulkAt.exists_bulkLoop {buf : Bytes} (hend : endsInCrlf buf = true)
    (hstar : buf[0]? = some 42) (hok : ∃ v, processRequestBuffer buf = .ok v) {left : ℕ} {pos : ℤ}
    (h : BulkAt buf left pos) : ∃ v, bulkLoop buf (left + 1) pos = .ok v := by
  -- By the way that led to the bulk: the result of the loop is that of the turns left.
  induction h with
  | @first line left count number most more =>
    obtain ⟨v, hv⟩ := hok
    obtain ⟨line', count', h⟩ := (processRequestBuffer_multiBulk hend hstar).mp hv
    obtain rfl := Option.some.inj (count'.found.symm.trans count.found)
    rw [if_neg (by omega), if_neg (by omega), number] at h
    exact ⟨v, h⟩
  | @next left pos line _ dollar header more ih =>
    obtain ⟨v, hv⟩ := ih
    obtain ⟨b, hb, ⟨hne, -⟩ | ⟨-, line', header', h⟩⟩ := bulkLoop_succ.mp hv
    · exact absurd (Except.ok.inj (hb.symm.trans dollar)) hne
    · obtain rfl := Option.some.inj (header'.found.symm.trans header.found)
      rw [afterBulk, if_neg (by omega), if_neg (by omega)] at h
      exact ⟨v, h⟩

/-- Where the loop has a result at a bulk, this is safe. -/
theorem safeBulk_of_bulkLoop {buf : Bytes} {left : ℕ} {pos v : ℤ}
    (h : bulkLoop buf (left + 1) pos = .ok v) : SafeBulk buf pos := by
  obtain ⟨b, hb, hcases⟩ := bulkLoop_succ.mp h
  obtain ⟨hpos, hget⟩ := readAt_eq_ok.mp hb
  refine ⟨hpos, fun hdollar => ?_⟩
  rcases hcases with ⟨hne, -⟩ | ⟨-, line, header, -⟩
  · exact absurd (Option.some.inj (hget.symm.trans hdollar)) hne
  · exact ⟨line, header⟩

/-- The validator has a result on a multi-bulk if and only if its first line can be read and its
bulks are safe. -/
theorem exists_multiBulk_iff {buf : Bytes} (hend : endsInCrlf buf = true)
    (hstar : buf[0]? = some 42) : (∃ v, processRequestBuffer buf = .ok v) ↔
      (∃ line, IsCount buf line) ∧ ∀ left pos, BulkAt buf left pos → SafeBulk buf pos := by
  constructor
  · intro hok
    refine ⟨?_, fun left pos h => ?_⟩
    · obtain ⟨v, hv⟩ := hok
      obtain ⟨line, count, -⟩ := (processRequestBuffer_multiBulk hend hstar).mp hv
      exact ⟨line, count⟩
    · obtain ⟨v, hv⟩ := h.exists_bulkLoop hend hstar hok
      exact safeBulk_of_bulkLoop hv
  · rintro ⟨⟨line, count⟩, hsafe⟩
    by_cases hrange : atoi line ≤ 0 ∨ atoi line > 1024
    · exact ⟨-1, (processRequestBuffer_multiBulk hend hstar).mpr ⟨line, count, if_pos hrange⟩⟩
    by_cases hmore : (1 + line.length + 2 : ℤ) ≥ buf.length
    · refine ⟨0, (processRequestBuffer_multiBulk hend hstar).mpr ⟨line, count, ?_⟩⟩
      rw [if_neg hrange, if_pos hmore]
    · obtain ⟨left, hleft⟩ : ∃ left : ℕ, atoi line = left + 1 :=
        ⟨(atoi line - 1).toNat, by omega⟩
      obtain ⟨v, hv⟩ := RedisProxy.exists_bulkLoop hsafe
        (.first count hleft (by omega) (not_le.mp hmore))
      refine ⟨v, (processRequestBuffer_multiBulk hend hstar).mpr ⟨line, count, ?_⟩⟩
      rw [if_neg hrange, if_neg hmore, hleft]
      exact hv

/-! ### Where `exit` is called -/

theorem readAt_ne_exit (buf : Bytes) (pos : ℤ) : readAt buf pos ≠ .error .exit := by
  unfold readAt
  split_ifs
  · split <;> intro h <;> cases h
  · intro h
    cases h

theorem readLine_ne_exit (buf : Bytes) (pos : ℤ) : readLine buf pos ≠ .error .exit := by
  unfold readLine
  split
  · intro h
    cases h
  · split_ifs <;> intro h <;> cases h

theorem skipData_ne_exit (ilen pos : ℤ) : skipData ilen pos ≠ .error .exit := by
  unfold skipData
  split_ifs <;> intro h <;> cases h

/-- The loop does not call `exit`. -/
theorem bulkLoop_ne_exit (buf : Bytes) (argc : ℕ) (pos : ℤ) :
    bulkLoop buf argc pos ≠ .error .exit := by
  induction argc generalizing pos with
  | zero =>
    intro h
    cases h
  | succ argc ih =>
    unfold bulkLoop
    refine except_bind_ne_error (readAt_ne_exit buf pos) fun b _ => ?_
    split_ifs
    · intro h
      cases h
    refine except_bind_ne_error (readLine_ne_exit buf _) fun r _ => ?_
    refine except_bind_ne_error (skipData_ne_exit _ _) fun q _ => ?_
    split_ifs
    · intro h
      cases h
    · intro h
      cases h
    · exact ih q

/-- Nor does the validator on a multi-bulk. -/
theorem processRequestBuffer_ne_exit {buf : Bytes} (hend : endsInCrlf buf = true)
    (hstar : buf[0]? = some 42) : processRequestBuffer buf ≠ .error .exit := by
  unfold processRequestBuffer
  rw [if_neg (by simp [hend]), if_neg (not_not.mpr hstar)]
  refine except_bind_ne_error (readLine_ne_exit buf 1) fun r _ => ?_
  dsimp only
  split_ifs
  · intro h
    cases h
  · intro h
    cases h
  · exact bulkLoop_ne_exit buf _ _

/-! ### The old protocol -/

/-- `strcasecmp` reads behind a string that is a prefix of the other one, and only then. -/
theorem strcasecmpReads_le_iff (s t : Bytes) :
    strcasecmpReads s t ≤ s.length ↔ ¬s.map tolower <+: t.map tolower := by
  induction s generalizing t with
  | nil => simp [strcasecmpReads]
  | cons a s ih =>
    cases t with
    | nil => simp [strcasecmpReads]
    | cons b t =>
      rw [strcasecmpReads, List.map_cons, List.map_cons, List.cons_prefix_cons, List.length_cons]
      split
      · rename_i hab
        have hstep : strcasecmpReads s t + 1 ≤ s.length + 1 ↔ strcasecmpReads s t ≤ s.length := by
          omega
        rw [hstep, ih t]
        simp [hab]
      · rename_i hab
        simp [hab]

/-- A buffer that ends in CR LF is read behind its end only when it is the whole line. -/
theorem prefix_line_iff {buf i : Bytes} (hend : endsInCrlf buf = true) (hi : (10 : UInt8) ∉ i)
    (hlower : (i ++ [10]).map tolower = i ++ [10]) :
    buf.map tolower <+: (i ++ [10]).map tolower ↔ buf.map tolower = i ++ [10] := by
  rw [hlower]
  refine ⟨fun hpre => ?_, fun heq => heq ▸ List.prefix_rfl⟩
  -- The line has no other line feed than its last byte.
  have hlast : (buf.map tolower).getLast? = some 10 := by
    rw [List.getLast?_map, getLast?_of_endsInCrlf hend]
    rfl
  obtain ⟨q, hq, hnil⟩ := header_of_prefix hi hpre hlast
  rw [hq, List.prefix_nil.mp hnil]

/-- What the comparison with a line reads is in the buffer unless this is the line. -/
theorem strcasecmpReads_line_iff {buf i : Bytes} (hend : endsInCrlf buf = true)
    (hi : (10 : UInt8) ∉ i) (hlower : (i ++ [10]).map tolower = i ++ [10]) :
    strcasecmpReads buf (i ++ [10]) ≤ buf.length ↔ buf.map tolower ≠ i ++ [10] :=
  (strcasecmpReads_le_iff buf _).trans (not_congr (prefix_line_iff hend hi hlower))

/-- The line of `exit` is not that of `quit`. -/
theorem strcasecmpEq_quit_of_exit {buf : Bytes} (h : buf.map tolower = exitLine) :
    strcasecmpEq buf quitLine = false := by
  have hnul : (0 : UInt8) ∉ buf := by
    intro hmem
    have hzero : (0 : UInt8) ∈ exitLine := h ▸ List.mem_map.mpr ⟨0, hmem, rfl⟩
    exact absurd hzero (by decide)
  rw [strcasecmpEq, cstr_eq_self hnul, h]
  decide

/-! ### The condition -/

/-- The validator stays in its bounds exactly on the safe buffers. -/
theorem inBounds_iff (buf : Bytes) : InBounds buf ↔ SafeBuffer buf := by
  unfold InBounds SafeBuffer
  by_cases hend : endsInCrlf buf = true
  swap
  · -- a buffer that does not end in CR LF is not full yet
    refine iff_of_true ⟨.inl ⟨0, if_pos (by simp [hend])⟩, fun h => absurd h hend⟩
      fun h => absurd h hend
  by_cases hstar : buf[0]? = some 42
  · have hno : processRequestBuffer buf ≠ .error .exit := processRequestBuffer_ne_exit hend hstar
    simp only [hend, hstar, if_pos, hno, or_false, ne_eq, not_true_eq_false, forall_true_left,
      false_implies, and_true]
    exact exists_multiBulk_iff hend hstar
  · have hresult : (∃ v, processRequestBuffer buf = .ok v) ∨
        processRequestBuffer buf = .error .exit := by
      unfold processRequestBuffer
      rw [if_neg (by simp [hend]), if_pos hstar]
      split_ifs
      · exact .inl ⟨_, rfl⟩
      · exact .inr rfl
      · exact .inl ⟨_, rfl⟩
    have hquit := strcasecmpReads_line_iff (i := [113, 117, 105, 116, 13]) hend (by decide)
      (by decide)
    have hexit := strcasecmpReads_line_iff (i := [101, 120, 105, 116, 13]) hend (by decide)
      (by decide)
    -- The comparison with "exit" is made where the one with "quit" has failed.
    change strcasecmpReads buf quitLine ≤ buf.length ↔ buf.map tolower ≠ quitLine at hquit
    change strcasecmpReads buf exitLine ≤ buf.length ↔ buf.map tolower ≠ exitLine at hexit
    rw [hquit, hexit]
    simp only [hend, hstar, forall_true_left, if_false, ne_eq, not_false_eq_true, hresult, true_and]
    exact and_congr_right fun _ =>
      ⟨fun h heq => h (strcasecmpEq_quit_of_exit heq) heq, fun h _ => h⟩

/-- The first line `"*12345678901"` does not fit `slen`. -/
theorem not_inBounds_long :
    processRequestBuffer (text "*12345678901\r\n") = .error .slenOverflow ∧
      ¬InBounds (text "*12345678901\r\n") := by
  have hfault : processRequestBuffer (text "*12345678901\r\n") = .error .slenOverflow := by decide
  refine ⟨hfault, ?_⟩
  rintro ⟨⟨v, hv⟩ | hexit, -⟩
  · cases hfault.symm.trans hv
  · cases hfault.symm.trans hexit

end MgCommonUtils.RedisProxy
