import MgCommonUtils.Ebinlog.Listener

/-!
# Positions in a binlog file

The parser never reads an event's offset. It counts: `_nCurPos` from the start of the last TABLE_MAP
event, or of the file, and `_nTablePos` in sums of these. The invariant is `InFile`: between two
events of a file, `_nTablePos + _nCurPos` is the offset of the next event, up to multiples of
`2 ^ 32`, whether or not a TABLE_MAP event has been seen. It is established by the ROTATE event in
front of every file, and every other event keeps it. With it `_nTablePos` is the offset of the
TABLE_MAP event after each such event.
-/

namespace MgCommonUtils.Ebinlog

open MgCommonUtils.Lib MgCommonUtils.Lib.Reader

/-! ## What an event does -/

/-- The types of the rows events. -/
def IsRowsType (nTypeCode : ℕ) : Prop :=
  nTypeCode = writeRowsEvent ∨ nTypeCode = deleteRowsEvent ∨ nTypeCode = updateRowsEvent

instance (nTypeCode : ℕ) : Decidable (IsRowsType nTypeCode) :=
  inferInstanceAs (Decidable (_ ∨ _ ∨ _))

/-- What an event of the given type and length does to the parser, and the rows that it appends. -/
inductive EventStep (s : LogState) (nTypeCode nEventLen : ℕ) (memory : Bytes) :
    LogState → List Row → Prop
  /-- A TABLE_MAP event. -/
  | tableMap (htype : nTypeCode = tableMapEvent) {t : TableMap}
      (h : TableMap.process memory = .ok t) :
      EventStep s nTypeCode nEventLen memory (processTableMap s nEventLen t) []
  /-- A ROTATE event. -/
  | rotate (htype : nTypeCode = rotateEvent) {name : Bytes}
      (h : TableMap.copyName 8 (sub32 nEventLen 27) memory = .ok name) :
      EventStep s nTypeCode nEventLen memory (processRotate s name) []
  /-- A rows event. -/
  | rows (htype : IsRowsType nTypeCode) {s' : LogState} {r : List Row}
      (h : processRows s nTypeCode nEventLen memory = .ok (s', r)) :
      EventStep s nTypeCode nEventLen memory s' r
  /-- An event of a type that the parser does not know. -/
  | other (hmap : nTypeCode ≠ tableMapEvent) (hrotate : nTypeCode ≠ rotateEvent)
      (hrows : ¬IsRowsType nTypeCode) :
      EventStep s nTypeCode nEventLen memory s []

theorem processRowEvent_tableMap (s : LogState) (nEventLen : ℕ) :
    processRowEvent s tableMapEvent nEventLen = (do
      let tableMap ← TableMap.process
      return (processTableMap s nEventLen tableMap, [])) := rfl

theorem processRowEvent_rotate (s : LogState) (nEventLen : ℕ) :
    processRowEvent s rotateEvent nEventLen = (do
      let szCurLogName ← TableMap.copyName 8 (sub32 nEventLen 27)
      return (processRotate s szCurLogName, [])) := rfl

/-- A rows event is handled by its branch. -/
theorem processRowEvent_rows (s : LogState) {nTypeCode : ℕ} (h : IsRowsType nTypeCode)
    (nEventLen : ℕ) :
    processRowEvent s nTypeCode nEventLen = processRows s nTypeCode nEventLen := by
  rcases h with rfl | rfl | rfl <;> rfl

/-- An event of a type that the parser does not know changes nothing. -/
theorem processRowEvent_other (s : LogState) {nTypeCode : ℕ} (hmap : nTypeCode ≠ tableMapEvent)
    (hrotate : nTypeCode ≠ rotateEvent) (hrows : ¬IsRowsType nTypeCode) (nEventLen : ℕ) :
    processRowEvent s nTypeCode nEventLen = pure (s, []) := by
  unfold processRowEvent
  split
  · exact absurd rfl hmap
  · exact absurd rfl hrotate
  · exact absurd (.inl rfl) hrows
  · exact absurd (.inr (.inl rfl)) hrows
  · exact absurd (.inr (.inr rfl)) hrows
  · rfl

/-- The cases of `processRowEvent`. -/
theorem processRowEvent_iff {s s' : LogState} {nTypeCode nEventLen : ℕ} {memory : Bytes}
    {r : List Row} : processRowEvent s nTypeCode nEventLen memory = .ok (s', r) ↔
      EventStep s nTypeCode nEventLen memory s' r := by
  constructor
  · intro h
    by_cases hmap : nTypeCode = tableMapEvent
    · rw [hmap, processRowEvent_tableMap] at h
      obtain ⟨t, ht, h⟩ := bind_eq_ok.mp h
      obtain ⟨rfl, rfl⟩ := Prod.mk.inj (Except.ok.inj h)
      exact .tableMap hmap ht
    by_cases hrotate : nTypeCode = rotateEvent
    · rw [hrotate, processRowEvent_rotate] at h
      obtain ⟨name, hn, h⟩ := bind_eq_ok.mp h
      obtain ⟨rfl, rfl⟩ := Prod.mk.inj (Except.ok.inj h)
      exact .rotate hrotate hn
    by_cases hrows : IsRowsType nTypeCode
    · rw [processRowEvent_rows _ hrows] at h
      exact .rows hrows h
    · rw [processRowEvent_other _ hmap hrotate hrows] at h
      obtain ⟨rfl, rfl⟩ := Prod.mk.inj (Except.ok.inj h)
      exact .other hmap hrotate hrows
  · intro h
    cases h with
    | tableMap htype h =>
      rw [htype, processRowEvent_tableMap]
      exact bind_eq_ok.mpr ⟨_, h, rfl⟩
    | rotate htype h =>
      rw [htype, processRowEvent_rotate]
      exact bind_eq_ok.mpr ⟨_, h, rfl⟩
    | rows htype h => rw [processRowEvent_rows _ htype]; exact h
    | other hmap hrotate hrows => rw [processRowEvent_other _ hmap hrotate hrows]; rfl

/-- What an event that is taken from a buffer does. -/
theorem stepEvent_iff {s s' : LogState} {e memory : Bytes} {r : List Row} :
    stepEvent s e memory = .ok (s', r) ↔
      EventStep (s.advance e.length) (eventType e) e.length memory s' r :=
  processRowEvent_iff

/-- The loop of `_decodeEvent` is over at the end of the rows. -/
theorem decodeEventLoop_done {nEventType nBufLen turns nPos nPos' : ℕ} {s s' : LogState}
    {rows : List Row} {m : Bytes} (hpos : ¬nPos < nBufLen) :
    decodeEventLoop nEventType nBufLen turns nPos s m = .ok (nPos', s', rows) ↔
      nPos' = nPos ∧ s' = s ∧ rows = [] := by
  have hdone : decodeEventLoop nEventType nBufLen turns nPos s m = .ok (nPos, s, []) := by
    cases turns with
    | zero => rw [decodeEventLoop, if_neg hpos]; rfl
    | succ turns => rw [decodeEventLoop, if_neg hpos]; rfl
  rw [hdone]
  constructor
  · intro h
    obtain ⟨rfl, hpair⟩ := Prod.mk.inj (Except.ok.inj h)
    obtain ⟨rfl, rfl⟩ := Prod.mk.inj hpair
    exact ⟨rfl, rfl, rfl⟩
  · rintro ⟨rfl, rfl, rfl⟩
    rfl

/-- The parser after a row entry. -/
def LogState.nextItem (s : LogState) : LogState := { s with nItemIndex := u32 (s.nItemIndex + 1) }

/-- A turn of the loop of `_decodeEvent` decodes an entry, and appends it from `_nStartIndex` on. -/
theorem decodeEventLoop_turn {nEventType nBufLen turns nPos nPos' : ℕ} {s s' : LogState}
    {rows : List Row} {m : Bytes} (hpos : nPos < nBufLen) :
    decodeEventLoop nEventType nBufLen (turns + 1) nPos s m = .ok (nPos', s', rows) ↔
      ∃ row nPos₁ content rest,
        decodeUpdateRow s.tableMap nEventType nPos m = .ok (row, nPos₁) ∧
        s.content nEventType row = .ok content ∧
        decodeEventLoop nEventType nBufLen turns nPos₁ s.nextItem m = .ok (nPos', s', rest) ∧
        rows = if s.nStartIndex ≤ s.nItemIndex then content :: rest else rest := by
  rw [decodeEventLoop, if_pos hpos]
  constructor
  · intro h
    obtain ⟨⟨row, nPos₁⟩, hrow, h⟩ := bind_eq_ok.mp h
    obtain ⟨content, hcontent, h⟩ := bind_eq_ok.mp h
    obtain ⟨⟨nPos₂, s₂, rest⟩, hloop, h⟩ := bind_eq_ok.mp h
    obtain ⟨rfl, hpair⟩ := Prod.mk.inj (Except.ok.inj h)
    obtain ⟨rfl, rfl⟩ := Prod.mk.inj hpair
    exact ⟨row, nPos₁, content, rest, hrow, hcontent, hloop, rfl⟩
  · rintro ⟨row, nPos₁, content, rest, hrow, hcontent, hloop, rfl⟩
    exact bind_eq_ok.mpr ⟨(row, nPos₁), hrow, bind_eq_ok.mpr ⟨content, hcontent,
      bind_eq_ok.mpr ⟨(nPos', s', rest), hloop, rfl⟩⟩⟩

/-- A loop that has not been given a turn only returns at the end of the rows. -/
theorem decodeEventLoop_zero {nEventType nBufLen nPos nPos' : ℕ} {s s' : LogState}
    {rows : List Row} {m : Bytes}
    (h : decodeEventLoop nEventType nBufLen 0 nPos s m = .ok (nPos', s', rows)) :
    ¬nPos < nBufLen := by
  intro hpos
  rw [decodeEventLoop, if_pos hpos] at h
  cases h

/-- `_decodeEvent` changes `_nItemIndex` only. -/
theorem decodeEventLoop_state {nEventType nBufLen turns nPos nPos' : ℕ} {s s' : LogState}
    {rows : List Row} {m : Bytes}
    (h : decodeEventLoop nEventType nBufLen turns nPos s m = .ok (nPos', s', rows)) :
    ∃ i, s' = { s with nItemIndex := i } := by
  induction turns generalizing nPos s rows with
  | zero =>
    obtain ⟨-, rfl, -⟩ := (decodeEventLoop_done (decodeEventLoop_zero h)).mp h
    exact ⟨_, rfl⟩
  | succ turns ih =>
    by_cases hpos : nPos < nBufLen
    · obtain ⟨row, nPos₁, content, rest, -, -, hloop, -⟩ := (decodeEventLoop_turn hpos).mp h
      obtain ⟨i, hi⟩ := ih hloop
      exact ⟨i, hi⟩
    · obtain ⟨-, rfl, -⟩ := (decodeEventLoop_done hpos).mp h
      exact ⟨_, rfl⟩

/-- A rows event sets the mode and decodes its rows. -/
theorem processRows_iff {s s' : LogState} {nTypeCode nEventLen : ℕ} {rows : List Row} {m : Bytes} :
    processRows s nTypeCode nEventLen m = .ok (s', rows) ↔ ∃ nEndFlag nOffSet nPos,
      rowsHeader m = .ok (nEndFlag, nOffSet) ∧
      decodeEvent nTypeCode (sub32 (sub32 nEventLen 19) nOffSet) (s.ended nEndFlag)
        (m.drop nOffSet) = .ok (nPos, s', rows) := by
  unfold processRows
  constructor
  · intro h
    obtain ⟨⟨nEndFlag, nOffSet⟩, hheader, h⟩ := bind_eq_ok.mp h
    obtain ⟨⟨nPos, s₁, r⟩, hrows, h⟩ := bind_eq_ok.mp h
    obtain ⟨rfl, rfl⟩ := Prod.mk.inj (Except.ok.inj h)
    rw [shift_apply] at hrows
    exact ⟨nEndFlag, nOffSet, nPos, hheader, hrows⟩
  · rintro ⟨nEndFlag, nOffSet, nPos, hheader, hrows⟩
    refine bind_eq_ok.mpr ⟨_, hheader, bind_eq_ok.mpr ⟨(nPos, s', rows), ?_, rfl⟩⟩
    rw [shift_apply]
    exact hrows

/-- A rows event changes the mode and `_nItemIndex` only. -/
theorem processRows_state {s s' : LogState} {nTypeCode nEventLen : ℕ} {rows : List Row} {m : Bytes}
    (h : processRows s nTypeCode nEventLen m = .ok (s', rows)) :
    ∃ stat i, s' = { s with nCurStat := stat, nItemIndex := i } ∧
      (stat = s.nCurStat ∨ stat = 2) := by
  obtain ⟨nEndFlag, nOffSet, nPos, -, h⟩ := processRows_iff.mp h
  unfold decodeEvent at h
  obtain ⟨i, rfl⟩ := decodeEventLoop_state h
  unfold LogState.ended
  split
  · exact ⟨2, i, rfl, .inr rfl⟩
  · exact ⟨s.nCurStat, i, rfl, .inl rfl⟩

/-! ## The stream of a dump -/

/-- A ROTATE event that carries the given name. -/
structure IsRotate (e name : Bytes) : Prop where
  /-- It is an event. -/
  isEvent : IsEvent e
  /-- Its type. -/
  type : eventType e = rotateEvent
  /-- Its body is a position and the name. -/
  body : ∃ position : Bytes, position.length = 8 ∧ e.drop 19 = position ++ name

/-- `FORMAT_DESCRIPTION_EVENT`, a type that the parser does not know. -/
def formatDescriptionEvent : ℕ := 15

/-- A binlog file of the master, with the artificial ROTATE event that the master sends in front of
its events. -/
structure LogFile where
  /-- The file's name. -/
  name : Bytes
  /-- The artificial ROTATE event. -/
  rotate : Bytes
  /-- The file's events. -/
  events : List Bytes
  /-- The ROTATE event names the file. -/
  rotate_isRotate : IsRotate rotate name
  /-- The file consists of events. -/
  isEvent : ∀ e ∈ events, IsEvent e
  /-- The first of them is a format description event. -/
  head_type : (events.head?).map eventType = some formatDescriptionEvent
  /-- A ROTATE event can only be the last of them. -/
  rotate_last : ∀ e ∈ events.dropLast, eventType e ≠ rotateEvent

/-- What the master sends for a dump that starts with the given files. -/
def dump (files : List LogFile) : List Bytes := files.flatMap fun f => f.rotate :: f.events

/-- The offset in its file of the event that follows the given ones. -/
def offsetAfter (events : List Bytes) : ℕ := 4 + events.flatten.length

/-- The stream consists of events. -/
theorem isEvent_of_mem_dump {files : List LogFile} {e : Bytes} (h : e ∈ dump files) :
    IsEvent e := by
  obtain ⟨f, -, he⟩ := List.mem_flatMap.mp h
  rcases List.mem_cons.mp he with rfl | he
  · exact f.rotate_isRotate.isEvent
  · exact f.isEvent e he

/-- An event's length is a `uint32`. -/
theorem IsEvent.length_lt {e : Bytes} (h : IsEvent e) : e.length < 4294967296 := by
  rw [← h.length]
  have hlt := leNat_lt ((e.drop 9).take 4)
  have hle : (256 : ℕ) ^ ((e.drop 9).take 4).length ≤ 256 ^ 4 :=
    Nat.pow_le_pow_right (by norm_num) (by simp)
  exact hlt.trans_le hle

/-- The start of a file that precedes one of its events has no ROTATE event. -/
theorem LogFile.not_rotate {f : LogFile} {es es' : List Bytes} {e : Bytes}
    (h : f.events = es ++ e :: es') {x : Bytes} (hx : x ∈ es) : eventType x ≠ rotateEvent := by
  apply f.rotate_last
  rw [h, List.dropLast_append_of_ne_nil (by simp)]
  exact List.mem_append_left _ hx

/-! ## The counters -/

/-- Between two events of a file, the next one being at offset `off`. -/
structure InFile (s : LogState) (off : ℕ) : Prop where
  /-- The counters add up to the offset. -/
  sum : u32 (s.nTablePos + s.nCurPos) = u32 off
  /-- Before the first TABLE_MAP event the file's start is counted from. -/
  fresh : s.nCurStat = 0 → s.nTablePos = 4 ∧ s.nStartPos = 4

/-- A parser that started at position 4 and has not seen a TABLE_MAP event still knows that. -/
def StartsAtFour (s : LogState) : Prop := s.nCurStat = 0 → s.nStartPos = 4

/-- The ROTATE event in front of a file, or at its end, brings the counters to the start of a
file. -/
theorem StartsAtFour.rotate {s s' : LogState} {e memory : Bytes} {rows : List Row}
    (hs : StartsAtFour s) (he : eventType e = rotateEvent)
    (h : stepEvent s e memory = .ok (s', rows)) : InFile s' 4 := by
  cases stepEvent_iff.mp h with
  | rotate htype h =>
    unfold processRotate
    split <;> exact ⟨rfl, fun h0 => ⟨rfl, hs h0⟩⟩
  | tableMap htype h => rw [he] at htype; cases htype
  | rows htype h => rw [he] at htype; rcases htype with h | h | h <;> cases h
  | other hmap hrotate hrows => exact absurd he hrotate

/-- `_nTablePos` after a TABLE_MAP event. -/
theorem nTablePos_processTableMap (s : LogState) (n : ℕ) (t : TableMap) :
    (processTableMap s n t).nTablePos =
      if s.nCurStat ≠ 0 then u32 (s.nTablePos + sub32 s.nCurPos n)
      else if 4 < s.nStartPos then s.nStartPos
      else if s.nStartPos = 4 then u32 (4 + sub32 s.nCurPos n)
      else s.nTablePos := by
  unfold processTableMap
  dsimp only
  split_ifs <;> rfl

/-- A TABLE_MAP event finds its own offset. -/
theorem InFile.tableMap {s s' : LogState} {e memory : Bytes} {rows : List Row} {off : ℕ}
    (hs : InFile s off) (he : IsEvent e) (hmap : eventType e = tableMapEvent)
    (h : stepEvent s e memory = .ok (s', rows)) :
    s'.nTablePos = u32 off ∧ s'.nCurPos = e.length ∧ s'.nCurStat = 1 ∧ s'.nItemIndex = 0 := by
  have hlt := he.length_lt
  have hsum := hs.sum
  cases stepEvent_iff.mp h with
  | tableMap htype h =>
    refine ⟨?_, rfl, rfl, rfl⟩
    rw [nTablePos_processTableMap]
    by_cases h0 : (s.advance e.length).nCurStat = 0
    · -- the first one counts from the start of the file
      obtain ⟨htable, hstart⟩ := hs.fresh h0
      have h4 : (s.advance e.length).nStartPos = 4 := hstart
      rw [if_neg (not_not.mpr h0), if_neg (by omega), if_pos h4]
      simp only [LogState.advance, u32, sub32] at hsum ⊢
      omega
    · -- the others count from the one before
      rw [if_pos h0]
      simp only [LogState.advance, u32, sub32] at hsum ⊢
      omega
  | rotate htype h => rw [hmap] at htype; cases htype
  | rows htype h => rw [hmap] at htype; rcases htype with h | h | h <;> cases h
  | other hmap' hrotate hrows => exact absurd hmap hmap'

/-- Every event of a file but a ROTATE event moves the counters to the next event. -/
theorem InFile.step {s s' : LogState} {e memory : Bytes} {rows : List Row} {off : ℕ}
    (hs : InFile s off) (he : IsEvent e) (hrotate : eventType e ≠ rotateEvent)
    (h : stepEvent s e memory = .ok (s', rows)) : InFile s' (off + e.length) := by
  have hsum := hs.sum
  cases stepEvent_iff.mp h with
  | tableMap htype ht =>
    obtain ⟨hpos, hcur, hstat, -⟩ := hs.tableMap he htype h
    refine ⟨?_, fun h0 => ?_⟩
    · rw [hpos, hcur]
      simp only [u32]
      omega
    · rw [hstat] at h0
      cases h0
  | rotate htype _ => exact absurd htype hrotate
  | rows htype hr =>
    obtain ⟨stat, i, rfl, hstat⟩ := processRows_state hr
    refine ⟨?_, fun h0 => hs.fresh ?_⟩
    · simp only [LogState.advance, u32] at hsum ⊢
      omega
    · rcases hstat with rfl | rfl
      · exact h0
      · cases h0
  | other _ _ _ =>
    refine ⟨?_, hs.fresh⟩
    simp only [LogState.advance, u32] at hsum ⊢
    omega

/-- Over events of a file without a ROTATE event the counters follow the offset. -/
theorem InFile.runs {s s' : LogState} {es : List Bytes} {rows : List Row} {off : ℕ}
    (hs : InFile s off) (hes : ∀ e ∈ es, IsEvent e ∧ eventType e ≠ rotateEvent)
    (h : Runs s es s' rows) : InFile s' (off + es.flatten.length) := by
  induction h generalizing off with
  | nil => exact hs
  | cons hm he _ ih =>
    rename_i e _ es _ _ _
    obtain ⟨hev, hrot⟩ := hes e List.mem_cons_self
    have hstep := hs.step hev hrot he
    have := ih hstep fun x hx => hes x (List.mem_cons_of_mem _ hx)
    rwa [List.flatten_cons, List.length_append, ← Nat.add_assoc]

/-- Every event keeps that the parser started at position 4. -/
theorem StartsAtFour.step {s s' : LogState} {e memory : Bytes} {rows : List Row}
    (hs : StartsAtFour s) (h : stepEvent s e memory = .ok (s', rows)) : StartsAtFour s' := by
  cases stepEvent_iff.mp h with
  | tableMap htype ht => exact fun h0 => by cases h0
  | rotate htype hn =>
    unfold processRotate
    split <;> exact hs
  | rows htype hr =>
    obtain ⟨stat, i, rfl, hstat⟩ := processRows_state hr
    intro h0
    rcases hstat with rfl | rfl
    · exact hs h0
    · cases h0
  | other _ _ _ => exact hs

theorem StartsAtFour.runs {s s' : LogState} {es : List Bytes} {rows : List Row}
    (hs : StartsAtFour s) (h : Runs s es s' rows) : StartsAtFour s' := by
  induction h with
  | nil => exact hs
  | cons hm he _ ih => exact ih (hs.step he)

/-- A parser that `Init` has prepared for position 4. -/
theorem startsAtFour_init {p p' : RowLogParser} {pLogName : Bytes} {nStartIndex : ℕ}
    (h : p.init pLogName 4 nStartIndex = .ok p') : StartsAtFour p'.toLogState := by
  unfold RowLogParser.init at h
  split at h
  · cases h
  · obtain rfl := Except.ok.inj h
    exact fun _ => rfl

/-- In a dump from position 4, the counters are at the next event's offset. -/
theorem Runs.inFile {files : List LogFile} {f : LogFile} {es es' : List Bytes} {e : Bytes}
    {s s' : LogState} {rows : List Row} (hs : StartsAtFour s) (hf : f.events = es ++ e :: es')
    (h : Runs s (dump files ++ f.rotate :: es) s' rows) : InFile s' (offsetAfter es) := by
  obtain ⟨s₁, r, r', hfiles, hfile, -⟩ := h.split
  cases hfile with
  | cons hm hrotate hrest =>
    have h4 := (hs.runs hfiles).rotate f.rotate_isRotate.type hrotate
    exact h4.runs (fun x hx => ⟨f.isEvent x (hf ▸ List.mem_append_left _ hx), f.not_rotate hf hx⟩)
      hrest

/-- A stream of events that arrives in pieces, from the start of the listener on. -/
theorem runs_of_feedAll {events pieces : List Bytes} {p : RowLogParser} {l : Listener}
    {rows : List Row} (hevents : ∀ e ∈ events, IsEvent e) (hcut : pieces.flatten = events.flatten)
    (h : Listener.feedAll ⟨[], p⟩ pieces = .ok (l, rows)) :
    Runs p.toLogState events l.parser.toLogState rows := by
  have hnil : Incomplete [] := .inl (by simp)
  have hstream : [] ++ pieces.flatten = events.flatten ++ [] := by
    rw [List.nil_append, List.append_nil, hcut]
  obtain ⟨h, -⟩ := Listener.feedAll_runs h hnil.next
    (by rw [hstream, rest_flatten hevents hnil.next]; exact hnil)
  rwa [hstream, frames_flatten hevents hnil.next] at h

/-- A stream of events that decode within their own bytes is parsed event by event, whatever the
pieces. -/
theorem feedAll_of_runEvents {events pieces : List Bytes} {p : RowLogParser} {s : LogState}
    {rows : List Row} (hevents : ∀ e ∈ events, IsEvent e) (hcut : pieces.flatten = events.flatten)
    (hfits : Fits [] pieces) (h : runEvents p.toLogState events = .ok (s, rows)) :
    ∃ l, Listener.feedAll ⟨[], p⟩ pieces = .ok (l, rows) ∧ l.parser.toLogState = s := by
  have hnil : Incomplete [] := .inl (by simp)
  have hstream : [] ++ pieces.flatten = events.flatten ++ [] := by
    rw [List.nil_append, List.append_nil, hcut]
  obtain ⟨l, hl, hs, -⟩ := Listener.feedAll_returns (l := ⟨[], p⟩) hnil.next
    (by rw [hstream, frames_flatten hevents hnil.next]; exact h)
    (by rw [hstream, rest_flatten hevents hnil.next]; exact hnil) hfits
  exact ⟨l, hl, hs⟩

/-- The stream of a dump up to an event of a file. -/
def dumpUpTo (files : List LogFile) (f : LogFile) (es : List Bytes) : List Bytes :=
  dump files ++ f.rotate :: es

/-- Such a stream consists of events. -/
theorem isEvent_of_mem_dumpUpTo {files : List LogFile} {f : LogFile} {es es' : List Bytes}
    (hf : f.events = es ++ es') {x : Bytes} (hx : x ∈ dumpUpTo files f es) : IsEvent x := by
  rcases List.mem_append.mp hx with hx | hx
  · exact isEvent_of_mem_dump hx
  · rcases List.mem_cons.mp hx with rfl | hx
    · exact f.rotate_isRotate.isEvent
    · exact f.isEvent x (hf ▸ List.mem_append_left _ hx)

/-- Position tracking: in a dump from position 4, `_nTablePos` is the offset of a TABLE_MAP event in
its file after that event. This holds in every run over the events so far; for the listener,
whatever the pieces; and the listener gets there where the events decode within their own bytes. -/
theorem nTablePos_eq_offset {files : List LogFile} {f : LogFile} {es es' : List Bytes} {e : Bytes}
    {p₀ p : RowLogParser} {pLogName : Bytes} {nStartIndex : ℕ}
    (hinit : p₀.init pLogName 4 nStartIndex = .ok p) (hf : f.events = (es ++ [e]) ++ es')
    (he : eventType e = tableMapEvent) (hoff : offsetAfter es < 4294967296) :
    (∀ s rows, Runs p.toLogState (dumpUpTo files f (es ++ [e])) s rows →
      s.nTablePos = offsetAfter es) ∧
    (∀ pieces l rows, pieces.flatten = (dumpUpTo files f (es ++ [e])).flatten →
      Listener.feedAll ⟨[], p⟩ pieces = .ok (l, rows) →
      l.parser.nTablePos = offsetAfter es) ∧
    ∀ pieces, pieces.flatten = (dumpUpTo files f (es ++ [e])).flatten → Fits [] pieces →
      (∃ r, runEvents p.toLogState (dumpUpTo files f (es ++ [e])) = .ok r) →
      ∃ l rows, Listener.feedAll ⟨[], p⟩ pieces = .ok (l, rows) ∧
        l.parser.nTablePos = offsetAfter es := by
  have hsplit : f.events = es ++ e :: es' := by rw [hf, List.append_assoc, List.singleton_append]
  have hruns : ∀ s rows, Runs p.toLogState (dumpUpTo files f (es ++ [e])) s rows →
      s.nTablePos = offsetAfter es := by
    intro s rows h
    have hassoc : dumpUpTo files f (es ++ [e]) = (dump files ++ f.rotate :: es) ++ [e] := by
      simp [dumpUpTo]
    rw [hassoc] at h
    obtain ⟨s₁, r, r', hbefore, hlast, -⟩ := h.split
    have hin := hbefore.inFile (startsAtFour_init hinit) hsplit
    cases hlast with
    | cons hm hstep hnil =>
      cases hnil
      have hev := f.isEvent e (hsplit ▸ List.mem_append_right _ List.mem_cons_self)
      rw [(hin.tableMap hev he hstep).1, u32_of_lt hoff]
  have hevents : ∀ x ∈ dumpUpTo files f (es ++ [e]), IsEvent x :=
    fun x hx => isEvent_of_mem_dumpUpTo hf hx
  refine ⟨hruns, ?_, ?_⟩
  · intro pieces l rows hcut hfeed
    exact hruns _ _ (runs_of_feedAll hevents hcut hfeed)
  · rintro pieces hcut hfits ⟨⟨s, rows⟩, hrun⟩
    obtain ⟨l, hl, hs⟩ := feedAll_of_runEvents hevents hcut hfits hrun
    exact ⟨l, rows, hl, hs ▸ hruns _ _ (runs_of_runEvents hrun)⟩

/-- A file with a rows event: a format description event, two TABLE_MAP events with an insert
between them, and a ROTATE event. -/
def insertFile : LogFile where
  name := [98, 49]
  rotate := encodeEvent ⟨0, 1, 0, 32⟩ rotateEvent [4, 0, 0, 0, 0, 0, 0, 0, 98, 49]
  events := [encodeEvent ⟨0, 1, 0, 0⟩ formatDescriptionEvent [4, 0], mapEvent, insertEvent,
    mapEvent, encodeEvent ⟨0, 1, 0, 0⟩ rotateEvent [4, 0, 0, 0, 0, 0, 0, 0, 98, 50]]
  rotate_isRotate := ⟨by decide, by decide, [4, 0, 0, 0, 0, 0, 0, 0], rfl, by
    rw [drop_encodeEvent]; rfl⟩
  isEvent := by decide
  head_type := by decide
  rotate_last := by decide

/-- After a file with two TABLE_MAP events, the second one of another such file. -/
theorem nTablePos_eq_offset_insert : ∃ l rows,
    Listener.feedAll ⟨[], { zeroParser with nStartPos := 4 }⟩
      (dumpUpTo [insertFile] insertFile (insertFile.events.take 3 ++ [mapEvent])) = .ok (l, rows) ∧
    l.parser.nTablePos = 93 := by
  have hinit : zeroParser.init [] 4 0 = .ok { zeroParser with nStartPos := 4 } := rfl
  have hf : insertFile.events = (insertFile.events.take 3 ++ [mapEvent]) ++
      insertFile.events.drop 4 := rfl
  exact (nTablePos_eq_offset hinit hf (by decide) (by decide)).2.2 _ rfl
    (fits_events (by decide +kernel)) (exists_ok_of_isSome (by decide +kernel))

end MgCommonUtils.Ebinlog
