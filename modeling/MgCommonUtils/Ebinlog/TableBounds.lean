import MgCommonUtils.Ebinlog.RoundTrip

/-!
# The bounds of the table map

`CMyTableMap::process` takes the number of columns and the lengths of the two names from the event,
and writes that many entries of its arrays and that many bytes of its buffers. A `MasterTable` is a
table as far as the protocol bounds it, with columns of any types, and `ProcessInBounds` says that
`process` stays within the arrays and leaves the last byte of each buffer zero. It does exactly on
the tables that fit (`MasterTable.processInBounds_iff`).
-/

namespace MgCommonUtils.Ebinlog

open MgCommonUtils.Lib MgCommonUtils.Lib.Reader

/-! ## What a master sends -/

/-- The bytes of metadata of a type. Types that are not listed here have what the parser does not
look at. -/
def metadataSize (code : ℕ) : ℕ :=
  match code with
  | mysqlTypeTinyBlob | mysqlTypeBlob | mysqlTypeMediumBlob | mysqlTypeLongBlob | mysqlTypeDouble
  | mysqlTypeFloat | mysqlTypeGeometry => 1
  | mysqlTypeSet | mysqlTypeEnum | mysqlTypeString | mysqlTypeNewdecimal | mysqlTypeBit
  | mysqlTypeVarchar => 2
  | _ => 0

/-- A column of any type. -/
structure MasterColumn where
  /-- The code of its type. -/
  code : UInt8
  /-- The metadata of its type. -/
  metadata : Bytes
  /-- Whether it may be NULL. -/
  nullable : Bool
  /-- The type has its metadata. -/
  size_le : metadataSize code.toNat ≤ metadata.length
  /-- No type has more than two bytes. -/
  metadata_le : metadata.length ≤ 2

/-- A table with columns of any types, and names that fit the byte of their length. -/
structure MasterTable where
  /-- The id of the table. -/
  id : ℕ
  /-- The name of its database. -/
  db : Bytes
  /-- Its name. -/
  name : Bytes
  /-- Its columns. -/
  columns : List MasterColumn
  /-- The id has six bytes. -/
  id_lt : id < 256 ^ 6
  /-- The length of the database's name is a byte. -/
  db_le : db.length ≤ 255
  /-- The length of the table's name is a byte. -/
  name_le : name.length ≤ 255
  /-- There is a column. -/
  columns_pos : 1 ≤ columns.length
  /-- A table has at most 4096 columns. -/
  columns_le : columns.length ≤ 4096

namespace MasterTable

/-- The codes of the columns' types. -/
def types (t : MasterTable) : Bytes := t.columns.map MasterColumn.code

/-- The metadata of the columns. -/
def metadata (t : MasterTable) : Bytes := t.columns.flatMap MasterColumn.metadata

/-- The body of the TABLE_MAP event, which newer masters end with metadata of their own. -/
def body (t : MasterTable) (flags : ℕ) (rest : Bytes) : Bytes :=
  tableMapBody t.id flags t.db t.name t.types t.metadata
    (bitmap false (t.columns.map MasterColumn.nullable) ++ rest)

/-- The names fit their buffers with a NUL behind, and the columns fit the arrays. -/
def Fits (t : MasterTable) : Prop :=
  t.columns.length ≤ maxColumns ∧ t.db.length < nameMaxLength ∧ t.name.length < nameMaxLength

end MasterTable

/-- `process` reads the body, writes at most 128 entries of each array, and copies at most 127 bytes
into each buffer. -/
def ProcessInBounds (body : Bytes) : Prop :=
  ∃ t, TableMap.process body = .ok t ∧ t.columns.length ≤ 128 ∧ t.szDBName.length ≤ 127 ∧
    t.szTableName.length ≤ 127

/-! ## The columns are read -/

/-- A byte of the memory is read. -/
theorem exists_byteAt {p : ℕ} {m : Bytes} (h : p < m.length) : ∃ b, byteAt p m = .ok b := by
  unfold byteAt
  rw [List.getElem?_eq_getElem h]
  exact ⟨_, rfl⟩

/-- Bytes of the memory are read. -/
theorem exists_bytesAt {p n : ℕ} {m : Bytes} (h : p + n ≤ m.length) :
    ∃ s, bytesAt p n m = .ok s := by
  have hlen : ((m.drop p).take n).length = n := by
    rw [List.length_take, List.length_drop]
    omega
  exact ⟨_, if_pos hlen⟩

/-- The metadata of a type is read from its own bytes. -/
theorem exists_decodeMeta {nType p : ℕ} {m : Bytes} (h : p + metadataSize nType ≤ m.length) :
    ∃ nMeta, TableMap.decodeMeta nType p m = .ok (nMeta, metadataSize nType) := by
  unfold TableMap.decodeMeta
  split
  -- One byte, two bytes, a `sint2korr`, or nothing.
  all_goals first
    | have hone : p + 1 ≤ m.length := h
      obtain ⟨x, hx⟩ := exists_byteAt hone
      exact ⟨_, (bind_ok hx).trans rfl⟩
    | have htwo : p + 2 ≤ m.length := h
      obtain ⟨x, hx⟩ := exists_byteAt (p := p) (m := m) (by omega)
      obtain ⟨y, hy⟩ := exists_byteAt htwo
      exact ⟨_, (bind_ok hx).trans ((bind_ok hy).trans rfl)⟩
    | obtain ⟨s, hs⟩ := exists_bytesAt (p := p) (n := 2) (m := m) h
      have hread : sint2korr p m = .ok (signed 2 (leNat s)) :=
        (bind_ok ((bind_ok hs).trans rfl)).trans rfl
      exact ⟨_, (bind_ok hread).trans rfl⟩
    | have hnone : metadataSize nType = 0 := by
        unfold metadataSize
        split <;> first | rfl | contradiction
      exact ⟨0, hnone ▸ rfl⟩

/-- The metadata of the columns is read from their own bytes. -/
theorem exists_decodeMetaData {types : List ℕ} {p : ℕ} {m : Bytes}
    (h : p + (types.map metadataSize).sum ≤ m.length) :
    ∃ metas, TableMap.decodeMetaData types p m = .ok metas ∧ metas.length = types.length := by
  induction types generalizing p with
  | nil => exact ⟨[], rfl, rfl⟩
  | cons nType types ih =>
    rw [List.map_cons, List.sum_cons] at h
    obtain ⟨nMeta, hmeta⟩ := @exists_decodeMeta nType p m (by omega)
    obtain ⟨metas, hmetas, hlen⟩ := ih (p := p + metadataSize nType) (by omega)
    refine ⟨nMeta :: metas, ?_, congrArg (· + 1) hlen⟩
    unfold TableMap.decodeMetaData
    exact (bind_ok hmeta).trans ((bind_ok hmetas).trans rfl)

/-- The bits of the columns are read from their own bytes. -/
theorem exists_decodeNullAble {p n : ℕ} {m : Bytes} (h : p + (n + 7) / 8 ≤ m.length) :
    ∃ nullAbles, TableMap.decodeNullAble p n m = .ok nullAbles ∧ nullAbles.length = n := by
  obtain ⟨bits, hbits⟩ := exists_bytesAt h
  exact ⟨_, (bind_ok hbits).trans rfl, by rw [List.length_map, List.length_range]⟩

namespace MasterTable

variable (t : MasterTable)

theorem length_types : t.types.length = t.columns.length := List.length_map _

/-- The types have their metadata. -/
theorem sum_metadataSize_le :
    ((t.types.map UInt8.toNat).map metadataSize).sum ≤ t.metadata.length := by
  unfold types metadata
  induction t.columns with
  | nil => exact le_rfl
  | cons c cs ih =>
    have hc := c.size_le
    rw [List.flatMap_cons, List.length_append]
    simp only [List.map_cons, List.sum_cons]
    omega

/-- A column has at most two bytes of metadata. -/
theorem length_metadata_le : t.metadata.length ≤ 2 * t.columns.length := by
  unfold metadata
  induction t.columns with
  | nil => exact le_rfl
  | cons c cs ih =>
    have hc := c.metadata_le
    rw [List.flatMap_cons, List.length_append, List.length_cons]
    omega

variable {t}

/-- The event of a table that the parser has no room for makes it write behind its arrays. -/
theorem process_of_large (flags : ℕ) (rest : Bytes) (h : nameMaxLength < t.db.length ∨
    nameMaxLength < t.name.length ∨ maxColumns < t.columns.length) :
    TableMap.process (t.body flags rest) = .error .outOfBounds := by
  have hdb := t.db_le
  have hname := t.name_le
  have hcolumns := t.columns_le
  have hmetadata := t.length_metadata_le
  have htypes := t.length_types
  obtain ⟨_, _, -, -, hprocess⟩ := process_tableMapBody (m := t.body flags rest) rfl t.id_lt
    (by omega) (by omega) (by omega) (by omega)
  rw [hprocess, htypes, if_pos h]

/-- The event of any other table is read. -/
theorem process_of_small (flags : ℕ) (rest : Bytes) (hdb : t.db.length ≤ nameMaxLength)
    (hname : t.name.length ≤ nameMaxLength) (hcolumns : t.columns.length ≤ maxColumns) :
    ∃ r, TableMap.process (t.body flags rest) = .ok r ∧ r.columns.length = t.columns.length ∧
      r.szDBName = t.db ∧ r.szTableName = t.name := by
  have hdb' := t.db_le
  have hname' := t.name_le
  have hcolumns' := t.columns_le
  have hmetadata := t.length_metadata_le
  have hsizes := t.sum_metadataSize_le
  have htypes := t.length_types
  obtain ⟨pMetaBuf, pNullAble, hmetas, hbits, hprocess⟩ :=
    process_tableMapBody (m := t.body flags rest) rfl t.id_lt
      (by omega) (by omega) (by omega) (by omega)
  -- There is a column, so neither offset is behind the body.
  have hcolumnsPos := t.columns_pos
  have hmetasLen := congrArg List.length hmetas
  have hbitsLen := congrArg List.length hbits
  simp only [List.length_drop, List.length_append, length_bitmap, List.length_map]
    at hmetasLen hbitsLen
  obtain ⟨metas, hmetas', hmetasLength⟩ := @exists_decodeMetaData (t.types.map UInt8.toNat)
    pMetaBuf (t.body flags rest) (by omega)
  obtain ⟨nullAbles, hnullAbles, hnullLength⟩ := exists_decodeNullAble (p := pNullAble)
    (n := t.types.length) (m := t.body flags rest) (by omega)
  rw [hprocess, if_neg (by omega)]
  refine ⟨_, (bind_ok hmetas').trans ((bind_ok hnullAbles).trans rfl), ?_, rfl, rfl⟩
  simp only [List.length_zipWith, List.length_zip, List.length_map]
  rw [List.length_map] at hmetasLength
  omega

/-- `process` stays within its arrays and buffers exactly on the events of the tables that fit. -/
theorem processInBounds_iff (t : MasterTable) (flags : ℕ) (rest : Bytes) :
    ProcessInBounds (t.body flags rest) ↔ t.Fits := by
  have hname : nameMaxLength = 128 := rfl
  have hmax : maxColumns = 128 := rfl
  constructor
  · rintro ⟨r, hr, -, hdb, htable⟩
    by_cases hlarge : nameMaxLength < t.db.length ∨ nameMaxLength < t.name.length ∨
        maxColumns < t.columns.length
    · rw [process_of_large flags rest hlarge] at hr
      cases hr
    · -- a name of 128 bytes is copied, but leaves no room for its NUL
      obtain ⟨r', hr', -, hdb', htable'⟩ := t.process_of_small flags rest (by omega) (by omega)
        (by omega)
      obtain rfl := Except.ok.inj (hr.symm.trans hr')
      rw [hdb'] at hdb
      rw [htable'] at htable
      unfold Fits
      omega
  · rintro ⟨hcolumns, hdb, htable⟩
    obtain ⟨r, hr, hlen, hdb', htable'⟩ := t.process_of_small flags rest hdb.le htable.le hcolumns
    exact ⟨r, hr, by omega, by rw [hdb']; omega, by rw [htable']; omega⟩

/-- A table of the given number of TINY columns. -/
def ofTiny (n : {n : ℕ // 1 ≤ n ∧ n ≤ 4096}) : MasterTable where
  id := 1
  db := [100]
  name := [116]
  columns := List.replicate n ⟨1, [], true, Nat.zero_le 0, Nat.zero_le 2⟩
  id_lt := by norm_num
  db_le := by simp
  name_le := by simp
  columns_pos := by rw [List.length_replicate]; exact n.2.1
  columns_le := by rw [List.length_replicate]; exact n.2.2

/-- A table of 129 columns makes `process` write behind its arrays. -/
theorem not_processInBounds : ¬∀ (t : MasterTable) (flags : ℕ) (rest : Bytes),
    ProcessInBounds (t.body flags rest) := by
  intro h
  obtain ⟨r, hr, -⟩ := h (ofTiny ⟨129, by norm_num⟩) 1 []
  have hlarge : maxColumns < (ofTiny ⟨129, by norm_num⟩).columns.length := by
    change maxColumns < (List.replicate 129 _).length
    rw [List.length_replicate]
    decide
  rw [process_of_large 1 [] (.inr (.inr hlarge))] at hr
  cases hr

end MasterTable

end MgCommonUtils.Ebinlog
