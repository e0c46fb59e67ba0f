import MgCommonUtils.Ebinlog.Types

/-!
# The table map

`CMyTableMap` of `ebinlog/BinlogTable.h`: what the parser keeps of the last TABLE_MAP event, and
how it is read off the event's body. A column's entries in the arrays `_szType`, `_szMeta` and
`_szNullAble` are one `Column`, so the three always have the same number of entries. The arrays and
the two name buffers have fixed sizes; a write behind their end stops the parser.
-/

namespace MgCommonUtils.Ebinlog

open MgCommonUtils.Lib MgCommonUtils.Lib.Reader

/-- `NAME_MAX_LENGTH`, the size of a name buffer. -/
def nameMaxLength : ℕ := 128

/-- `MAX_COLUMNS`, the size of the arrays of columns. -/
def maxColumns : ℕ := 128

/-- The entries of a column in the arrays of the table map. -/
structure Column where
  /-- Its entry in `_szType`. -/
  type : ℕ
  /-- Its entry in `_szMeta`. -/
  metadata : ℕ
  /-- Its entry in `_szNullAble`. -/
  nullAble : ℕ
  deriving DecidableEq, Repr

/-- `CMyTableMap`. -/
structure TableMap where
  /-- `_llTableID`. -/
  llTableID : ℕ
  /-- The first `_nColumnsNumber` entries of the arrays. -/
  columns : List Column
  /-- The bytes copied into `_szTableName`, which is otherwise zero. -/
  szTableName : Bytes
  /-- The bytes copied into `_szDBName`, which is otherwise zero. -/
  szDBName : Bytes
  deriving DecidableEq, Repr

namespace TableMap

/-- The constructor. -/
def empty : TableMap := { llTableID := 0, columns := [], szTableName := [], szDBName := [] }

/-- `getColumnsNumber`. -/
def getColumnsNumber (t : TableMap) : ℕ := t.columns.length

/-- `getBitmapSize`. -/
def getBitmapSize (t : TableMap) : ℕ := (t.getColumnsNumber + 7) / 8

/-- The bytes of a name buffer that the given ones were copied into. -/
def nameBuffer (name : Bytes) : Bytes := name ++ List.replicate (nameMaxLength - name.length) 0

/-- `getDBName`, as the C string that is built from it. Behind a name that fills the buffer comes
the end of the object. -/
def getDBName (t : TableMap) : Except Stop Bytes := cstrAt 0 (nameBuffer t.szDBName)

/-- `getTableName`, as the C string that is built from it. Behind a name that fills the buffer comes
`_szDBName`. -/
def getTableName (t : TableMap) : Except Stop Bytes :=
  cstrAt 0 (nameBuffer t.szTableName ++ nameBuffer t.szDBName)

/-- A turn of `_decodeMetaData`: the entry for `_szMeta` of a column of type `nType` whose metadata
is at offset `p`, and by how much `j` moves. -/
def decodeMeta (nType p : ℕ) : Reader (ℕ × ℕ) :=
  match nType with
  | mysqlTypeTinyBlob | mysqlTypeBlob | mysqlTypeMediumBlob | mysqlTypeLongBlob | mysqlTypeDouble
  | mysqlTypeFloat | mysqlTypeGeometry => do
    let x ← byteAt p
    return (x, 1)
  | mysqlTypeSet | mysqlTypeEnum | mysqlTypeString | mysqlTypeNewdecimal => do
    let x ← byteAt p
    let y ← byteAt (p + 1)
    return ((x <<< 8) + y, 2)
  | mysqlTypeBit => do
    let x ← byteAt p
    let y ← byteAt (p + 1)
    -- The sum binds tighter than the shift.
    return ((x + y) <<< 8, 2)
  | mysqlTypeVarchar => do
    let i ← sint2korr p
    return (ofInt i, 2)
  | _ => return (0, 0)

/-- `_decodeMetaData` for the columns of the given types, with their metadata from offset `p`
on. -/
def decodeMetaData : List ℕ → ℕ → Reader (List ℕ)
  | [], _ => return []
  | nType :: rest, p => do
    let (nMeta, k) ← decodeMeta nType p
    let metas ← decodeMetaData rest (p + k)
    return nMeta :: metas

/-- A turn of `_decodeDataType`: the entry for `_szType`. The high byte of a string's metadata may
hold the type of an enumeration or a set. -/
def decodeDataType (nType nMeta : ℕ) : ℕ :=
  if nType = mysqlTypeString then
    let nRealType := (nMeta >>> 8) % 256
    if nRealType = mysqlTypeEnum ∨ nRealType = mysqlTypeSet then nRealType else nType
  else nType

/-- `_decodeNullAble` for `n` columns with their bits from offset `p` on. -/
def decodeNullAble (p n : ℕ) : Reader (List ℕ) := do
  let pNullAble ← bytesAt p ((n + 7) / 8)
  return (List.range n).map fun i => ((pNullAble.getD (i / 8) 0).toNat >>> (i % 8)) % 2

/-- The `memcpy` of `nLen` bytes at offset `p` into a name buffer. -/
def copyName (p nLen : ℕ) : Reader Bytes :=
  if nameMaxLength < nLen then stop .outOfBounds else bytesAt p nLen

/-- `CMyTableMap::process` on the body of a TABLE_MAP event. -/
def process : Reader TableMap := do
  let llTableID ← uint6korr 0
  -- 6 bytes of id and 2 of flags.
  let nPos := 8
  let nLen ← byteAt nPos
  let szDBName ← copyName (nPos + 1) nLen
  let nPos := nPos + 1 + (nLen + 1)
  let nLen ← byteAt nPos
  let szTableName ← copyName (nPos + 1) nLen
  let nPos := nPos + 1 + (nLen + 1)
  let (n, k) ← decodePacketInt nPos
  -- `_nColumnsNumber` is a `uint16`.
  let nColumnsNumber := (n % 65536).toNat
  let pTypeBuf := nPos + k
  let nPos := pTypeBuf + nColumnsNumber
  let (nMetaLen, k) ← decodePacketInt nPos
  let pMetaBuf := nPos + k
  let pNullAble := u32 (pMetaBuf + ofInt nMetaLen)
  -- The loops below write the entry `_nColumnsNumber - 1` of the arrays.
  if maxColumns < nColumnsNumber then stop .outOfBounds
  else do
    let pType ← bytesAt pTypeBuf nColumnsNumber
    let types := pType.map UInt8.toNat
    let metas ← decodeMetaData types pMetaBuf
    let nullAbles ← decodeNullAble pNullAble nColumnsNumber
    let columns := (types.zip metas).zipWith
      (fun (nType, nMeta) nullAble => ⟨decodeDataType nType nMeta, nMeta, nullAble⟩) nullAbles
    return { llTableID, columns, szTableName, szDBName }

/-! ## Names -/

/-- A name that is shorter than its buffer is the C string in it, whatever follows. -/
theorem cstrAt_nameBuffer {name : Bytes} (h : name.length < nameMaxLength) (t : Bytes) :
    cstrAt 0 (nameBuffer name ++ t) = .ok (cstr name) := by
  obtain ⟨k, hk⟩ : ∃ k, nameMaxLength - name.length = k + 1 :=
    ⟨nameMaxLength - name.length - 1, by omega⟩
  have hbuf : nameBuffer name ++ t = name ++ 0 :: (List.replicate k 0 ++ t) := by
    rw [nameBuffer, hk, List.replicate_succ, List.append_assoc, List.cons_append]
  have hmem : (0 : UInt8) ∈ (name ++ 0 :: (List.replicate k 0 ++ t)).drop 0 := by simp
  rw [hbuf, cstrAt, if_pos hmem, List.drop_zero, cstr_append_nul]

/-- The name of a database that is shorter than its buffer. -/
theorem getDBName_of_lt {t : TableMap} (h : t.szDBName.length < nameMaxLength) :
    t.getDBName = .ok (cstr t.szDBName) := by
  have := cstrAt_nameBuffer h []
  rwa [List.append_nil] at this

/-- The name of a table that is shorter than its buffer. -/
theorem getTableName_of_lt {t : TableMap} (h : t.szTableName.length < nameMaxLength) :
    t.getTableName = .ok (cstr t.szTableName) :=
  cstrAt_nameBuffer h _

/-! ## Stability -/

theorem stable_decodeMeta (nType p : ℕ) : Stable (decodeMeta nType p) := by
  unfold decodeMeta
  split
  all_goals first
    | exact .pure _
    | exact (Stable.byteAt _).bind fun _ => .pure _
    | exact (Stable.byteAt _).bind fun _ => (Stable.byteAt _).bind fun _ => .pure _
    | exact (stable_sint2korr _).bind fun _ => .pure _

theorem stable_decodeMetaData (types : List ℕ) (p : ℕ) : Stable (decodeMetaData types p) := by
  induction types generalizing p with
  | nil => exact .pure _
  | cons nType rest ih =>
    unfold decodeMetaData
    exact (stable_decodeMeta nType p).bind fun r => (ih (p + r.2)).bind fun _ => .pure _

theorem stable_copyName (p nLen : ℕ) : Stable (copyName p nLen) :=
  Stable.ite (.stop _) (.bytesAt _ _)

/-- What `process` makes of a body stays the same when more bytes follow. -/
theorem stable_process : Stable process := by
  unfold process
  apply (Stable.leAt 0 6).bind; intro llTableID
  apply (Stable.byteAt _).bind; intro dbLen
  apply (stable_copyName _ _).bind; intro szDBName
  apply (Stable.byteAt _).bind; intro tblLen
  apply (stable_copyName _ _).bind; intro szTableName
  apply (stable_decodePacketInt _).bind; intro columnsNumber
  apply (stable_decodePacketInt _).bind; intro metaLen
  apply Stable.ite (.stop _)
  apply (Stable.bytesAt _ _).bind; intro pType
  apply (stable_decodeMetaData _ _).bind; intro metas
  apply Stable.bind ((Stable.bytesAt _ _).bind fun _ => .pure _); intro nullAbles
  exact .pure _

end TableMap

end MgCommonUtils.Ebinlog
