import MgCommonUtils.Ebinlog.Table

/-!
# Row images

How `CMyRowLogParser` (`ebinlog/BinlogRow.h`) decodes the values of a row: `_decodeRowImageItem` for
a value, `_decodeOneRow` for the image of a row, and the part of `_decodeEvent`'s loop that collects
the images of an entry. A value's decoder is given the memory from the value on, and returns with
the value by how much `*pPos` moves.
-/

namespace MgCommonUtils.Ebinlog

open MgCommonUtils.Lib MgCommonUtils.Lib.Reader

/-- A Python object that the parser builds for a value. -/
inductive PyItem where
  /-- An integer. -/
  | int (i : ℤ)
  /-- A byte string. -/
  | str (s : Bytes)
  /-- A float built from the single with the given bits. -/
  | float (bits : ℕ)
  /-- A float built from the double with the given bits. -/
  | double (bits : ℕ)
  deriving DecidableEq, Repr

/-- `Py_BuildValue("s#", pBuf + p, n)`: the length is taken for an `int`, and when that is negative
the string ends at its NUL. -/
def buildString (p n : ℕ) : Reader PyItem :=
  if n < 2147483648 then do
    let s ← bytesAt p n
    return .str s
  else do
    let s ← cstrAt p
    return .str s

theorem stable_buildString (p n : ℕ) : Stable (buildString p n) :=
  Stable.ite ((Stable.bytesAt _ _).bind fun _ => .pure _) ((Stable.cstrAt _).bind fun _ => .pure _)

/-! ## Values -/

/-- The first part of `_decodeRowImageItem`: `nLength` and `type` of a string, whose metadata may
hide two bits of the length in the type's byte. -/
def stringLength (type metadata : ℕ) : ℕ × ℕ :=
  if type = mysqlTypeString then
    if 256 ≤ metadata then
      let byte0 := metadata >>> 8
      let byte1 := metadata &&& 0xFF
      if byte0 &&& 0x30 ≠ 0x30 then
        (byte1 ||| (((byte0 &&& 0x30) ^^^ 0x30) <<< 4), byte0 ||| 0x30)
      else (metadata &&& 0xFF, type)
    else (metadata, type)
  else (0, type)

/-- The object built from what `r` reads, with `*pPos += k`. -/
def fixedItem {α : Type} (r : Reader α) (build : α → PyItem) (k : ℕ) : Reader (PyItem × ℕ) := do
  let x ← r
  return (build x, k)

/-- A byte string after its length in `n` bytes. -/
def lengthPrefixed (n : ℕ) : Reader (PyItem × ℕ) := do
  let nLength ← leAt 0 n
  let item ← buildString n nLength
  return (item, nLength + n)

/-- The text of a DATETIME, with its NUL. -/
def datetimeText (ll : ℕ) : Bytes :=
  let d := toInt32 (ll / 1000000 : ℕ)
  let t := toInt32 (ll % 1000000 : ℕ)
  format0d 4 (d.tdiv 10000) ++ text "-" ++ format0d 2 ((d.tmod 10000).tdiv 100) ++ text "-" ++
    format0d 2 (d.tmod 100) ++ text " " ++ format0d 2 (t.tdiv 10000) ++ text ":" ++
    format0d 2 ((t.tmod 10000).tdiv 100) ++ text ":" ++ format0d 2 (t.tmod 100) ++ [0]

/-- The text of a TIME. -/
def timeText (i32 : ℕ) : Bytes :=
  text "'" ++ format0d 2 (i32 / 10000 : ℕ) ++ text ":" ++
    format0d 2 (i32 % 10000 / 100 : ℕ) ++ text ":" ++ format0d 2 (i32 % 100 : ℕ) ++ text "'"

/-- The text of a NEWDATE, digit by digit. The first digit of a year from 10000 on is no digit. -/
def newdateText (tmp : ℕ) : Bytes :=
  let digit (n : ℕ) : UInt8 := UInt8.ofNat (48 + n)
  let year := tmp >>> 9
  let month := tmp >>> 5 &&& 15
  let day := tmp &&& 31
  [digit (year / 1000), digit (year / 100 % 10), digit (year / 10 % 10), digit (year % 10)] ++
    text ":" ++ [digit (month / 10), digit (month % 10)] ++
    text ":" ++ [digit (day / 10), digit (day % 10)]

/-- The text of a DATE. -/
def dateText (i32 : ℕ) : Bytes :=
  text "'" ++ format0d 4 (i32 / 512 : ℕ) ++ text "-" ++ format0d 2 (i32 / 32 % 16 : ℕ) ++
    text "-" ++ format0d 2 (i32 % 32 : ℕ) ++ text "'"

/-- The text of a NEWDECIMAL: the words of nine digits with a point after each but the last. -/
def decimalText (dec : MyDecimal) : Bytes :=
  let end_ := roundUp dec.frac + roundUp dec.intg - 1
  let words := (dec.buf.take (end_ + 1)).map (format0d 9)
  (if dec.sign then text "-" else []) ++ (words.intersperse (text ".")).flatten

/-- `_decodeRowImageItem`: the object for the value that the memory starts with, and by how much
`*pPos` moves. -/
def decodeRowImageItem (type metadata : ℕ) : Reader (PyItem × ℕ) :=
  let (nLength, type) := stringLength type metadata
  match type with
  | mysqlTypeLong => fixedItem (sint4korr 0) .int 4
  | mysqlTypeTiny => fixedItem (charAt 0) .int 1
  | mysqlTypeShort => fixedItem (sint2korr 0) .int 2
  | mysqlTypeLonglong => fixedItem (sint8korr 0) .int 8
  | mysqlTypeInt24 => fixedItem (sint3korr 0) .int 3
  | mysqlTypeTimestamp => fixedItem (sint4korr 0) .int 4
  | mysqlTypeDatetime => fixedItem (uint8korr 0) (fun ll => .str (datetimeText ll)) 8
  | mysqlTypeTime => fixedItem (uint3korr 0) (fun i32 => .str (timeText i32)) 3
  | mysqlTypeNewdate => fixedItem (uint3korr 0) (fun tmp => .str (newdateText tmp)) 3
  | mysqlTypeDate => fixedItem (uint3korr 0) (fun i32 => .str (dateText i32)) 3
  | mysqlTypeYear => fixedItem (charAt 0) (fun c => .str (format0d 4 (c + 1900))) 1
  | mysqlTypeEnum =>
    match metadata &&& 0xFF with
    | 1 => fixedItem (charAt 0) (fun c => .str (format0d 0 c)) 1
    | 2 => fixedItem (uint2korr 0) (fun i32 => .str (format0d 0 i32)) 2
    | _ => return (.str (text "Error about MYSQL_TYPE_ENUM"), 0)
  | mysqlTypeSet =>
    -- The value is first copied to a buffer of 32 bytes.
    if 32 < metadata &&& 0xFF then stop .outOfBounds
    else fixedItem (buildString 0 (metadata &&& 0xFF)) id (metadata &&& 0xFF)
  | mysqlTypeBlob =>
    match metadata with
    | 1 | 2 | 3 | 4 => lengthPrefixed metadata
    | _ => return (.str (text "type isn't support"), 0)
  | mysqlTypeVarchar | mysqlTypeVarString =>
    if metadata < 256 then lengthPrefixed 1 else lengthPrefixed 2
  | mysqlTypeString =>
    if nLength < 256 then lengthPrefixed 1 else lengthPrefixed 2
  | mysqlTypeBit =>
    let nBits := u32 ((metadata >>> 8) * 8 + (metadata &&& 0xFF))
    let nLength := u32 (nBits + 7) / 8
    -- The value is copied to a buffer of 16 bytes.
    if 16 < nLength then stop .outOfBounds
    else fixedItem (buildString 0 nLength) id nLength
  | mysqlTypeFloat => fixedItem (leAt 0 4) .float 4
  | mysqlTypeDouble =>
    -- Where a long has eight bytes, the macro loads another word that it does not use.
    fixedItem (leAt 0 8) .double 8
  | mysqlTypeNewdecimal =>
    -- `*pPos` does not move.
    fixedItem (bin2decimal ((metadata >>> 8) % 256) (metadata &&& 0xFF))
      (fun dec => .str (decimalText dec)) 0
  | _ => return (.int 0, 0)

theorem stable_fixedItem {α : Type} {r : Reader α} (hr : Stable r) (build : α → PyItem) (k : ℕ) :
    Stable (fixedItem r build k) :=
  hr.bind fun _ => .pure _

theorem stable_lengthPrefixed (n : ℕ) : Stable (lengthPrefixed n) :=
  (Stable.leAt _ _).bind fun _ => (stable_buildString _ _).bind fun _ => .pure _

/-- A value is read from its own bytes. -/
theorem stable_decodeRowImageItem (type metadata : ℕ) :
    Stable (decodeRowImageItem type metadata) := by
  unfold decodeRowImageItem
  split
  split
  -- A few types choose their length from the metadata.
  all_goals try split
  all_goals with_reducible first
    | exact stable_fixedItem (Stable.leAt _ _) _ _
    | exact stable_fixedItem (stable_sint4korr _) _ _
    | exact stable_fixedItem (stable_sint3korr _) _ _
    | exact stable_fixedItem (stable_sint2korr _) _ _
    | exact stable_fixedItem (stable_sint8korr _) _ _
    | exact stable_fixedItem (stable_charAt _) _ _
    | exact stable_fixedItem (stable_buildString _ _) _ _
    | exact stable_fixedItem (stable_bin2decimal _ _) _ _
    | exact stable_lengthPrefixed _
    | exact .pure _
    | exact .stop _
    | exact Stable.ite (.stop _) (stable_fixedItem (stable_buildString _ _) _ _)

/-! ## Rows -/

/-- A turn of the loop of `_decodeOneRow`, with the null bitmap at offset `pBitmapData` and the
value of column `i` at `*pPos`: the object, and `*pPos` after the value. -/
def decodeColumn (pBitmapData i pPos : ℕ) (c : Column) : Reader (PyItem × ℕ) := do
  let bits ← byteAt (pBitmapData + i / 8)
  if (bits >>> (i % 8)) % 2 = 0 then do
    let (item, k) ← shift pPos (decodeRowImageItem c.type c.metadata)
    return (item, u32 (pPos + k))
  else return (.int 0, pPos)

/-- The loop of `_decodeOneRow` over the columns from number `i` on. -/
def decodeColumns (pBitmapData : ℕ) : List Column → ℕ → ℕ → Reader (List PyItem × ℕ)
  | [], _, pPos => return ([], pPos)
  | c :: rest, i, pPos => do
    let (item, pPos) ← decodeColumn pBitmapData i pPos c
    let (row, pPos) ← decodeColumns pBitmapData rest (i + 1) pPos
    return (item :: row, pPos)

/-- `_decodeOneRow` at `*pPos`: the row, and `*pPos` after it. -/
def decodeOneRow (t : TableMap) (pPos : ℕ) : Reader (List PyItem × ℕ) :=
  decodeColumns pPos t.columns 0 (u32 (pPos + t.getBitmapSize))

/-- The dictionary `pUpdateRow`. -/
structure UpdateRow where
  /-- The row before the change, under the key `"old"`. -/
  old : Option (List PyItem)
  /-- The row after the change, under the key `"new"`. -/
  new : Option (List PyItem)
  deriving DecidableEq, Repr

/-- The part of a turn of `_decodeEvent`'s loop that fills `pUpdateRow`, and `nPos` after it. -/
def decodeUpdateRow (t : TableMap) (nEventType nPos : ℕ) : Reader (UpdateRow × ℕ) :=
  if nEventType = updateRowsEvent then do
    let (old, nPos) ← decodeOneRow t nPos
    let (new, nPos) ← decodeOneRow t nPos
    return (⟨some old, some new⟩, nPos)
  else do
    let (pRow, nPos) ← decodeOneRow t nPos
    if nEventType = deleteRowsEvent then return (⟨some pRow, none⟩, nPos)
    else return (⟨none, some pRow⟩, nPos)

theorem stable_decodeColumn (pBitmapData i pPos : ℕ) (c : Column) :
    Stable (decodeColumn pBitmapData i pPos c) := by
  unfold decodeColumn
  apply (Stable.byteAt _).bind; intro bits
  exact Stable.ite (Stable.bind (.shift _ (stable_decodeRowImageItem _ _)) fun _ => .pure _)
    (.pure _)

theorem stable_decodeColumns (pBitmapData : ℕ) (cs : List Column) (i pPos : ℕ) :
    Stable (decodeColumns pBitmapData cs i pPos) := by
  induction cs generalizing i pPos with
  | nil => exact .pure _
  | cons c rest ih =>
    unfold decodeColumns
    exact (stable_decodeColumn _ _ _ _).bind fun _ => (ih _ _).bind fun _ => .pure _

/-- A row is read from its own bytes. -/
theorem stable_decodeOneRow (t : TableMap) (pPos : ℕ) : Stable (decodeOneRow t pPos) :=
  stable_decodeColumns _ _ _ _

theorem stable_decodeUpdateRow (t : TableMap) (nEventType nPos : ℕ) :
    Stable (decodeUpdateRow t nEventType nPos) := by
  unfold decodeUpdateRow
  apply Stable.ite
  · apply (stable_decodeOneRow _ _).bind; intro old
    exact (stable_decodeOneRow _ _).bind fun _ => .pure _
  · apply (stable_decodeOneRow _ _).bind; intro pRow
    exact Stable.ite (.pure _) (.pure _)

end MgCommonUtils.Ebinlog
