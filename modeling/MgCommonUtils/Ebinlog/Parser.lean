import MgCommonUtils.Ebinlog.Row

/-!
# The row log parser

`CMyRowLogParser` of `ebinlog/BinlogRow.h`: the events of a buffer are taken one after the other
(`getEvent`), and each changes the parser and may append rows to the result (`processRowEvent`).

The members that outlive a call of `process` are the `LogState`; the others, the buffer that is
being parsed and the current event, are set anew by every call. The text of a row's position is
kept in its three parts.

The two loops of the code need not end. Each turn of `process` that goes on takes at least a byte
of the buffer, unless an event has length 0, which is then parsed again and again; and a turn of
`_decodeEvent` depends on `nPos` only, which it leaves behind unless it runs forever. So a loop
that is not over after as many turns as there are bytes never is, and the model stops it there.
-/

namespace MgCommonUtils.Ebinlog

open MgCommonUtils.Lib MgCommonUtils.Lib.Reader

/-! ## State -/

/-- The members of `CMyRowLogParser` that outlive a call of `process`. -/
structure LogState where
  /-- `_nTablePos`, the offset of the last TABLE_MAP event in its file. -/
  nTablePos : ℕ
  /-- `_nCurPos`, the number of bytes since that event's start. -/
  nCurPos : ℕ
  /-- `_nStartPos`, the position that the caller starts from. -/
  nStartPos : ℕ
  /-- `_nCurStat`: 0 before the first TABLE_MAP event, 1 after one, 2 after a statement's end. -/
  nCurStat : ℕ
  /-- `_nItemIndex`, the number of row entries since the last TABLE_MAP event. -/
  nItemIndex : ℕ
  /-- `_nStartIndex`, the first of these that is emitted. -/
  nStartIndex : ℕ
  /-- `_szCurLogName`, the 128 bytes of the buffer. -/
  szCurLogName : Bytes
  /-- `_tableMap`. -/
  tableMap : TableMap
  deriving DecidableEq, Repr

/-- `BinlogEvent`. -/
structure BinlogEvent where
  /-- `nTimeStamp`. -/
  nTimeStamp : ℕ
  /-- `nTypeCode`. -/
  nTypeCode : ℕ
  /-- `nServerID`. -/
  nServerID : ℕ
  /-- `nEventLen`. -/
  nEventLen : ℕ
  /-- `nNextPos`. -/
  nNextPos : ℕ
  /-- `nFlag`. -/
  nFlag : ℕ
  /-- `pBuf`, as the memory from the event's body on. -/
  pBuf : Bytes
  deriving DecidableEq, Repr

/-- `CMyRowLogParser`. -/
structure RowLogParser extends LogState where
  /-- `_pBuf` and `_nBufLen`, as the bytes that are still to be parsed. -/
  pBuf : Bytes
  /-- `_nBufOffSet`, the number of bytes that this call has parsed. -/
  nBufOffSet : ℕ
  /-- `_nCurEvent`. -/
  nCurEvent : BinlogEvent
  deriving DecidableEq, Repr

/-- `Init`. The parser is a static object: what `Init` does not set is left from before. -/
def RowLogParser.init (p : RowLogParser) (pLogName : Bytes) (nStartPos nStartIndex : ℕ) :
    Except Stop RowLogParser :=
  if nameMaxLength < pLogName.length then .error .outOfBounds
  else .ok { p with
    szCurLogName := pLogName ++ p.szCurLogName.drop pLogName.length
    nTablePos := 0
    nCurPos := 0
    nStartPos := nStartPos
    nCurStat := 0
    nItemIndex := 0
    nStartIndex := nStartIndex
    nBufOffSet := 0 }

/-- What a row entry tells, `szAct`. -/
inductive Act where
  | update
  | delete
  | insert
  deriving DecidableEq, Repr

/-- The dictionary `pContent` of a row entry. -/
structure Row where
  /-- The first part of `szPosition`: the C string in the buffer, which the buffer's end ends where
  it holds no NUL. -/
  logName : Bytes
  /-- The second part of `szPosition`. -/
  nTablePos : ℕ
  /-- The third part of `szPosition`. -/
  nItemIndex : ℕ
  /-- Under the key `"act"`. -/
  act : Act
  /-- Under the key `"db"`. -/
  db : Bytes
  /-- Under the key `"tbl"`. -/
  tbl : Bytes
  /-- Under the key `"row"`. -/
  row : UpdateRow
  deriving DecidableEq, Repr

/-! ## Events -/

/-- `szAct` for an event type. -/
def actOf (nEventType : ℕ) : Act :=
  if nEventType = updateRowsEvent then .update
  else if nEventType = deleteRowsEvent then .delete
  else .insert

/-- `pContent` with the given names. -/
def LogState.named (s : LogState) (nEventType : ℕ) (db tbl : Bytes) (pUpdateRow : UpdateRow) :
    Row :=
  { logName := cstr s.szCurLogName
    nTablePos := s.nTablePos
    nItemIndex := s.nItemIndex
    act := actOf nEventType
    db
    tbl
    row := pUpdateRow }

/-- `pContent`, built in a turn of `_decodeEvent`'s loop. -/
def LogState.content (s : LogState) (nEventType : ℕ) (pUpdateRow : UpdateRow) :
    Except Stop Row := do
  let db ← s.tableMap.getDBName
  let tbl ← s.tableMap.getTableName
  return s.named nEventType db tbl pUpdateRow

/-- A row entry of a table with names. -/
theorem LogState.content_of_names {s : LogState} {db tbl : Bytes}
    (hdb : s.tableMap.getDBName = .ok db) (htbl : s.tableMap.getTableName = .ok tbl)
    (nEventType : ℕ) (pUpdateRow : UpdateRow) :
    s.content nEventType pUpdateRow = .ok (s.named nEventType db tbl pUpdateRow) :=
  (except_bind_of_ok hdb).trans (except_bind_of_ok htbl)

/-- A row entry has the names of the current table map. -/
theorem LogState.content_iff {s : LogState} {nEventType : ℕ} {pUpdateRow : UpdateRow}
    {pContent : Row} : s.content nEventType pUpdateRow = .ok pContent ↔
      s.tableMap.getDBName = .ok pContent.db ∧ s.tableMap.getTableName = .ok pContent.tbl ∧
        pContent = s.named nEventType pContent.db pContent.tbl pUpdateRow := by
  constructor
  · intro h
    obtain ⟨db, hdb, h⟩ := except_bind_eq_ok.mp h
    obtain ⟨tbl, htbl, h⟩ := except_bind_eq_ok.mp h
    obtain rfl := Except.ok.inj h
    exact ⟨hdb, htbl, rfl⟩
  · rintro ⟨hdb, htbl, h⟩
    rw [LogState.content_of_names hdb htbl, ← h]

/-- The loop of `_decodeEvent`, for at most the given number of turns: `nPos` in the end, the
parser, and the rows that are appended to `pRows`. -/
def decodeEventLoop (nEventType nBufLen : ℕ) :
    ℕ → ℕ → LogState → Reader (ℕ × LogState × List Row)
  | 0, nPos, s => if nPos < nBufLen then stop .forever else return (nPos, s, [])
  | turns + 1, nPos, s =>
    if nPos < nBufLen then do
      let (pUpdateRow, nPos) ← decodeUpdateRow s.tableMap nEventType nPos
      let pContent ← ofExcept (s.content nEventType pUpdateRow)
      let (nPos, s', pRows) ← decodeEventLoop nEventType nBufLen turns nPos
        { s with nItemIndex := u32 (s.nItemIndex + 1) }
      return (nPos, s', if s.nStartIndex ≤ s.nItemIndex then pContent :: pRows else pRows)
    else return (nPos, s, [])

/-- `_decodeEvent`: `nPos` in the end, the parser, and the rows that are appended to `pRows`. -/
def decodeEvent (nEventType nBufLen : ℕ) (s : LogState) : Reader (ℕ × LogState × List Row) :=
  let nPos := if nEventType = updateRowsEvent then s.tableMap.getBitmapSize else 0
  decodeEventLoop nEventType nBufLen nBufLen nPos s

-- Its number of turns is not to be computed when two events are compared.
attribute [irreducible] decodeEvent

/-- The branch of `processRowEvent` for a TABLE_MAP event. -/
def processTableMap (s : LogState) (nEventLen : ℕ) (tableMap : TableMap) : LogState :=
  let s := { s with tableMap }
  let s :=
    if s.nCurStat ≠ 0 then
      { s with nTablePos := u32 (s.nTablePos + sub32 s.nCurPos nEventLen), nStartIndex := 0 }
    else if 4 < s.nStartPos then { s with nTablePos := s.nStartPos }
    else if s.nStartPos = 4 then
      { s with nTablePos := u32 (4 + sub32 s.nCurPos nEventLen), nStartPos := 0 }
    else s
  { s with nCurStat := 1, nItemIndex := 0, nCurPos := nEventLen }

/-- The branch of `processRowEvent` for a ROTATE event that carries the given name. -/
def processRotate (s : LogState) (szCurLogName : Bytes) : LogState :=
  -- The comparison with the name so far has no effect that lasts.
  let s := if cstr s.szCurLogName = cstr szCurLogName then { s with nTablePos := 0 } else s
  { s with
    szCurLogName := szCurLogName ++ s.szCurLogName.drop szCurLogName.length
    nCurPos := 0
    nTablePos := 4 }

/-- The header of a rows event: `nEndFlag`, and `nOffSet` behind the bitmap of the columns. -/
def rowsHeader : Reader (ℕ × ℕ) := do
  -- 6 bytes of table id.
  let nEndFlag ← uint2korr 6
  let (nColumnsNumber, k) ← decodePacketInt 8
  let nBitmapSize := (toInt32 (nColumnsNumber + 7)).tdiv 8
  return (nEndFlag, u32 (8 + k + ofInt nBitmapSize))

/-- The mode that a rows event sets. -/
def LogState.ended (s : LogState) (nEndFlag : ℕ) : LogState :=
  if nEndFlag % 2 = 1 then { s with nCurStat := 2 } else s

@[simp]
theorem LogState.tableMap_ended (s : LogState) (nEndFlag : ℕ) :
    (s.ended nEndFlag).tableMap = s.tableMap := by
  unfold LogState.ended
  split <;> rfl

@[simp]
theorem LogState.nTablePos_ended (s : LogState) (nEndFlag : ℕ) :
    (s.ended nEndFlag).nTablePos = s.nTablePos := by
  unfold LogState.ended
  split <;> rfl

@[simp]
theorem LogState.nItemIndex_ended (s : LogState) (nEndFlag : ℕ) :
    (s.ended nEndFlag).nItemIndex = s.nItemIndex := by
  unfold LogState.ended
  split <;> rfl

@[simp]
theorem LogState.nStartIndex_ended (s : LogState) (nEndFlag : ℕ) :
    (s.ended nEndFlag).nStartIndex = s.nStartIndex := by
  unfold LogState.ended
  split <;> rfl

/-- The branch of `processRowEvent` for a rows event. -/
def processRows (s : LogState) (nTypeCode nEventLen : ℕ) : Reader (LogState × List Row) := do
  let (nEndFlag, nOffSet) ← rowsHeader
  let (_, s, pRows) ← shift nOffSet
    (decodeEvent nTypeCode (sub32 (sub32 nEventLen 19) nOffSet) (s.ended nEndFlag))
  return (s, pRows)

/-- `processRowEvent`, on the memory from the event's body on: the parser, and the rows that are
appended to `pRows`. -/
def processRowEvent (s : LogState) (nTypeCode nEventLen : ℕ) : Reader (LogState × List Row) :=
  match nTypeCode with
  | tableMapEvent => do
    let tableMap ← TableMap.process
    return (processTableMap s nEventLen tableMap, [])
  | rotateEvent => do
    let szCurLogName ← TableMap.copyName 8 (sub32 nEventLen 27)
    return (processRotate s szCurLogName, [])
  | writeRowsEvent | deleteRowsEvent | updateRowsEvent => processRows s nTypeCode nEventLen
  | _ => return (s, [])

/-! ## The buffer -/

/-- The integer in the `n` bytes from offset `p` on of a header. -/
def headerField (m : Bytes) (p n : ℕ) : ℕ := leNat ((m.drop p).take n)

/-- The event that starts with the given header, of which 19 bytes are there. -/
def headerOf (m pBuf : Bytes) : BinlogEvent :=
  { nTimeStamp := headerField m 0 4
    nTypeCode := headerField m 4 1
    nServerID := headerField m 5 4
    nEventLen := headerField m 9 4
    nNextPos := headerField m 13 4
    nFlag := headerField m 17 2
    pBuf }

/-- `_getEvent`: whether the buffer has a whole event, which is then taken from it. The header is
read into `_nCurEvent` either way. -/
def RowLogParser.getEvent (p : RowLogParser) : Bool × RowLogParser :=
  if p.pBuf.length < 19 then (false, p)
  else
    let e := headerOf p.pBuf p.nCurEvent.pBuf
    if p.pBuf.length < e.nEventLen then (false, { p with nCurEvent := e })
    else (true, { p with
      nCurEvent := { e with pBuf := p.pBuf.drop 19 }
      pBuf := p.pBuf.drop e.nEventLen
      nCurPos := u32 (p.nCurPos + e.nEventLen)
      nBufOffSet := u32 (p.nBufOffSet + e.nEventLen) })

/-- The loop of `process`, for at most the given number of turns. -/
def processLoop : ℕ → RowLogParser → Except Stop (RowLogParser × List Row)
  | 0, p => if p.pBuf = [] then .ok (p, []) else .error .forever
  | turns + 1, p =>
    if p.pBuf = [] then .ok (p, [])
    else
      match p.getEvent with
      | (false, p) => .ok (p, [])
      | (true, p) => do
        let e := p.nCurEvent
        let (s, pRows) ← processRowEvent p.toLogState e.nTypeCode e.nEventLen e.pBuf
        let (p, rest) ← processLoop turns { p with toLogState := s }
        return (p, pRows ++ rest)

/-- The list that `process` returns. -/
structure ProcessResult where
  /-- 1 when there are rows, else 0. -/
  found : ℕ
  /-- `_nBufOffSet`. -/
  nBufOffSet : ℕ
  /-- The rows; the code returns 0 when there are none. -/
  rows : List Row
  deriving DecidableEq, Repr

/-- `process`. -/
def RowLogParser.process (p : RowLogParser) (pBuf : Bytes) :
    Except Stop (RowLogParser × ProcessResult) := do
  let (p, pRows) ← processLoop pBuf.length { p with pBuf, nBufOffSet := 0 }
  let found := if pRows = [] then 0 else 1
  return (p, { found, nBufOffSet := p.nBufOffSet, rows := pRows })

/-! ## Stability -/

theorem stable_decodeEventLoop (nEventType nBufLen turns nPos : ℕ) (s : LogState) :
    Stable (decodeEventLoop nEventType nBufLen turns nPos s) := by
  induction turns generalizing nPos s with
  | zero => exact Stable.ite (.stop _) (.pure _)
  | succ turns ih =>
    unfold decodeEventLoop
    apply Stable.ite _ (.pure _)
    exact (stable_decodeUpdateRow _ _ _).bind fun _ =>
      (Stable.ofExcept _).bind fun _ => (ih _ _).bind fun _ => .pure _

theorem stable_decodeEvent (nEventType nBufLen : ℕ) (s : LogState) :
    Stable (decodeEvent nEventType nBufLen s) := by
  unfold decodeEvent
  exact stable_decodeEventLoop _ _ _ _ _

theorem stable_rowsHeader : Stable rowsHeader := by
  unfold rowsHeader
  exact (Stable.leAt _ _).bind fun _ => (stable_decodePacketInt _).bind fun _ => .pure _

/-- The rows of an event are read from its own bytes. -/
theorem stable_processRows (s : LogState) (nTypeCode nEventLen : ℕ) :
    Stable (processRows s nTypeCode nEventLen) := by
  unfold processRows
  apply stable_rowsHeader.bind
  rintro ⟨nEndFlag, nOffSet⟩
  apply Stable.bind
  · apply Stable.shift
    apply stable_decodeEvent
  · rintro ⟨nPos, s', pRows⟩
    exact .pure _

/-- An event that is processed on its own bytes is processed the same when more bytes follow. -/
theorem stable_processRowEvent (s : LogState) (nTypeCode nEventLen : ℕ) :
    Stable (processRowEvent s nTypeCode nEventLen) := by
  unfold processRowEvent
  split
  · exact TableMap.stable_process.bind fun _ => .pure _
  · exact (TableMap.stable_copyName _ _).bind fun _ => .pure _
  · exact stable_processRows _ _ _
  · exact stable_processRows _ _ _
  · exact stable_processRows _ _ _
  · exact .pure _

end MgCommonUtils.Ebinlog
