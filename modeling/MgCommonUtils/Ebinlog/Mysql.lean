import MgCommonUtils.Ebinlog.Listener
import MgCommonUtils.Lib.Bitmap

/-!
# The events that MySQL writes

The other side of the parser: tables, rows of them, and the TABLE_MAP event and the rows events that
the master encodes for these, for the column types TINY, SHORT, INT24, LONG, LONGLONG, VARCHAR, CHAR
and BLOB. A `Value` is a value of its column's type and an `Image` a row of its table's columns, so
there is no encoding of anything else.
-/

namespace MgCommonUtils.Ebinlog

open MgCommonUtils.Lib

/-! ## Tables -/

/-- The integer types. -/
inductive IntType where
  | tiny
  | short
  | int24
  | long
  | longlong
  deriving DecidableEq, Repr

/-- The code of an integer type. -/
def IntType.code : IntType → ℕ
  | tiny => mysqlTypeTiny
  | short => mysqlTypeShort
  | int24 => mysqlTypeInt24
  | long => mysqlTypeLong
  | longlong => mysqlTypeLonglong

/-- The number of bytes of an integer type. -/
def IntType.size : IntType → ℕ
  | tiny => 1
  | short => 2
  | int24 => 3
  | long => 4
  | longlong => 8

/-- The types of columns. -/
inductive ColumnType where
  /-- An integer. -/
  | int (k : IntType)
  /-- A VARCHAR with the declared maximum in bytes. -/
  | varchar (max : Fin 65536)
  /-- A CHAR with the declared length in bytes. -/
  | char (length : Fin 1024)
  /-- A BLOB with the number of bytes of its length. -/
  | blob (lengthBytes : {n : ℕ // 1 ≤ n ∧ n ≤ 4})
  deriving DecidableEq, Repr

/-- The code of a type. -/
def ColumnType.code : ColumnType → ℕ
  | int k => k.code
  | varchar _ => mysqlTypeVarchar
  | char _ => mysqlTypeString
  | blob _ => mysqlTypeBlob

/-- The metadata of a type. In that of a CHAR, two bits of the length are hidden in the byte of the
type. -/
def ColumnType.metadata : ColumnType → Bytes
  | int _ => []
  | varchar max => leBytes 2 max
  | char length => [UInt8.ofNat (mysqlTypeString ^^^ ((length.val &&& 0x300) >>> 4)),
      UInt8.ofNat (length.val &&& 0xFF)]
  | blob n => [UInt8.ofNat n]

/-- The number of bytes in front of a string that hold its length. -/
def ColumnType.lengthBytes : ColumnType → ℕ
  | int _ => 0
  | varchar max => if max.val < 256 then 1 else 2
  | char length => if length.val < 256 then 1 else 2
  | blob n => n

/-- A column of a table. -/
structure ColumnDef where
  /-- Its type. -/
  type : ColumnType
  /-- Whether it may be NULL. -/
  nullable : Bool
  deriving DecidableEq, Repr

/-- A table. -/
structure Table where
  /-- The id of the table. -/
  id : ℕ
  /-- The name of its database. -/
  db : Bytes
  /-- Its name. -/
  name : Bytes
  /-- Its columns. -/
  columns : List ColumnDef
  /-- The id has six bytes. -/
  id_lt : id < 256 ^ 6
  /-- The database's name fits the parser's buffer. -/
  db_lt : db.length < nameMaxLength
  /-- The table's name fits the parser's buffer. -/
  name_lt : name.length < nameMaxLength
  /-- There is a column. -/
  columns_pos : 0 < columns.length
  /-- The columns fit the parser's arrays. -/
  columns_le : columns.length ≤ maxColumns

/-! ## Rows -/

/-- A value of a column. -/
inductive Value : ColumnType → Type
  /-- An integer in the range of its type. -/
  | int (k : IntType) (z : ℤ) (hmin : -(256 ^ k.size : ℕ) ≤ 2 * z)
      (hmax : 2 * z < (256 ^ k.size : ℕ)) : Value (.int k)
  /-- A byte string up to the declared maximum. -/
  | varchar (max : Fin 65536) (s : Bytes) (h : s.length ≤ max) : Value (.varchar max)
  /-- A byte string up to the declared length. -/
  | char (length : Fin 1024) (s : Bytes) (h : s.length ≤ length) : Value (.char length)
  /-- A byte string whose length fits its bytes. -/
  | blob (n : {n : ℕ // 1 ≤ n ∧ n ≤ 4}) (s : Bytes) (h : s.length < 256 ^ n.val) : Value (.blob n)

/-- The bytes of a value. -/
def Value.encode {t : ColumnType} : Value t → Bytes
  | int k z _ _ => leBytes k.size (unsigned k.size z)
  | varchar _ s _ | char _ s _ | blob _ s _ => leBytes t.lengthBytes s.length ++ s

/-- The Python object that stands for a value. -/
def Value.item {t : ColumnType} : Value t → PyItem
  | int _ z _ _ => .int z
  | varchar _ s _ | char _ s _ | blob _ s _ => .str s

/-- A row of the given columns, in which any value may be NULL. -/
inductive Image : List ColumnDef → Type
  /-- Of no columns. -/
  | nil : Image []
  /-- The value of the first column, and the others. -/
  | cons {c : ColumnDef} {cs : List ColumnDef} (v : Option (Value c.type)) (image : Image cs) :
      Image (c :: cs)

namespace Image

/-- Which of the values are NULL. -/
def nulls : {cs : List ColumnDef} → Image cs → List Bool
  | _, nil => []
  | _, cons v image => v.isNone :: image.nulls

/-- The bytes of the values that are not NULL. -/
def values : {cs : List ColumnDef} → Image cs → Bytes
  | _, nil => []
  | _, cons v image => (v.map Value.encode).getD [] ++ image.values

/-- The list that stands for the row. NULL is 0. -/
def items : {cs : List ColumnDef} → Image cs → List PyItem
  | _, nil => []
  | _, cons v image => (v.map Value.item).getD (.int 0) :: image.items

/-- The bytes of a row. -/
def encode {cs : List ColumnDef} (image : Image cs) : Bytes :=
  bitmap true image.nulls ++ image.values

end Image

/-- The changes of a rows event. -/
inductive Changes (t : Table) where
  /-- Rows that are inserted. -/
  | write (rows : List (Image t.columns))
  /-- Rows that are deleted. -/
  | delete (rows : List (Image t.columns))
  /-- Rows that are updated: each before the change and after it. -/
  | update (rows : List (Image t.columns × Image t.columns))

namespace Changes

variable {t : Table}

/-- The type of the rows event. -/
def typeCode : Changes t → ℕ
  | write _ => writeRowsEvent
  | delete _ => deleteRowsEvent
  | update _ => updateRowsEvent

/-- What the rows event does. -/
def act : Changes t → Act
  | write _ => .insert
  | delete _ => .delete
  | update _ => .update

/-- The entries of the rows event: the bytes of each, and the dictionary that stands for it. -/
def entries : Changes t → List (Bytes × UpdateRow)
  | write rows => rows.map fun r => (r.encode, ⟨none, some r.items⟩)
  | delete rows => rows.map fun r => (r.encode, ⟨some r.items, none⟩)
  | update rows => rows.map fun r => (r.1.encode ++ r.2.encode, ⟨some r.1.items, some r.2.items⟩)

/-- The dictionaries that stand for the changes, in order. -/
def updateRows (c : Changes t) : List UpdateRow := c.entries.map Prod.snd

/-- The row entries that stand for the changes, at a table offset of a log. -/
def rows (c : Changes t) (logName : Bytes) (nTablePos : ℕ) : List Row :=
  c.updateRows.mapIdx fun i row =>
    { logName, nTablePos, nItemIndex := i, act := c.act, db := cstr t.db, tbl := cstr t.name, row }

end Changes

/-! ## Events -/

/-- `net_store_length`, the packed integer of the protocol. -/
def netStoreLength (n : ℕ) : Bytes :=
  if n < 251 then leBytes 1 n
  else if n < 65536 then 252 :: leBytes 2 n
  else if n < 16777216 then 253 :: leBytes 3 n
  else 254 :: leBytes 8 n

/-- A name with its length and a NUL. -/
def encodeName (s : Bytes) : Bytes := leBytes 1 s.length ++ s ++ [0]

/-- The codes of the columns' types. -/
def Table.types (t : Table) : Bytes := t.columns.map fun c => UInt8.ofNat c.type.code

/-- The metadata of the columns. -/
def Table.metadata (t : Table) : Bytes := t.columns.flatMap fun c => c.type.metadata

/-- The body of a TABLE_MAP event. -/
def Table.body (t : Table) (flags : ℕ) : Bytes :=
  leBytes 6 t.id ++ leBytes 2 flags ++ encodeName t.db ++ encodeName t.name ++
    netStoreLength t.columns.length ++ t.types ++ netStoreLength t.metadata.length ++
    t.metadata ++ bitmap false (t.columns.map ColumnDef.nullable)

/-- The TABLE_MAP event of a table. -/
def Table.event (t : Table) (h : EventHeader) (flags : ℕ) : Bytes :=
  encodeEvent h tableMapEvent (t.body flags)

/-- The bitmap of the columns that a rows event has, which are all of them. -/
def Table.present (t : Table) : Bytes := bitmap true (t.columns.map fun _ => true)

/-- The body of a rows event. An update has a second bitmap of columns. -/
def Changes.body {t : Table} (c : Changes t) (flags : ℕ) : Bytes :=
  leBytes 6 t.id ++ leBytes 2 flags ++ netStoreLength t.columns.length ++ t.present ++
    (if c.typeCode = updateRowsEvent then t.present else []) ++ (c.entries.map Prod.fst).flatten

/-- The rows event of changes. -/
def Changes.event {t : Table} (c : Changes t) (h : EventHeader) (flags : ℕ) : Bytes :=
  encodeEvent h c.typeCode (c.body flags)

end MgCommonUtils.Ebinlog
