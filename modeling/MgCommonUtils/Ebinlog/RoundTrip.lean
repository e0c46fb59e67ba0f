import MgCommonUtils.Ebinlog.Mysql
import MgCommonUtils.Ebinlog.Position

/-!
# The round trip of rows

What the parser makes of the events of `Ebinlog.Mysql`. A decoder is stated on a memory that is
known from an offset on, `m.drop p = encoding ++ rest`: it returns what was encoded, and the offset
behind the encoding. These facts compose along the layout of an event, column by column and entry by
entry, up to `rows_roundTrip`.
-/

namespace MgCommonUtils.Ebinlog

open MgCommonUtils.Lib MgCommonUtils.Lib.Reader

/-! ## Values -/

/-- The entry for `_szMeta` of a CHAR of the given length. -/
def charMeta (length : ℕ) : ℕ :=
  ((mysqlTypeString ^^^ ((length &&& 0x300) >>> 4)) <<< 8) + (length &&& 0xFF)

/-- The entry for `_szMeta` of a column of the type. -/
def ColumnType.szMeta : ColumnType → ℕ
  | int _ => 0
  | varchar max => ofInt (signed 2 max)
  | char length => charMeta length
  | blob n => n

/-- A value of a fixed size. -/
theorem fixedItem_ok {α : Type} {r : Reader α} {m : Bytes} {a : α} (h : r m = .ok a)
    (build : α → PyItem) (k : ℕ) : fixedItem r build k m = .ok (build a, k) :=
  bind_eq_ok.mpr ⟨a, h, rfl⟩

/-- An integer that was written in two's complement. -/
theorem signed_leAt {m rest : Bytes} {n : ℕ} {z : ℤ} (hmin : -(256 ^ n : ℕ) ≤ 2 * z)
    (hmax : 2 * z < (256 ^ n : ℕ)) (h : m.drop 0 = leBytes n (unsigned n z) ++ rest) :
    (do return signed n (← leAt 0 n) : Reader ℤ) m = .ok z := by
  refine bind_eq_ok.mpr ⟨_, leAt_of_drop h (unsigned_lt _ _), ?_⟩
  rw [pure_apply, signed_unsigned hmin hmax]

/-- An integer is read back. -/
theorem decodeRowImageItem_int (k : IntType) {z : ℤ} (hmin : -(256 ^ k.size : ℕ) ≤ 2 * z)
    (hmax : 2 * z < (256 ^ k.size : ℕ)) (rest : Bytes) :
    decodeRowImageItem k.code 0 (leBytes k.size (unsigned k.size z) ++ rest) =
      .ok (.int z, k.size) := by
  cases k with
  | tiny =>
    have hbyte : byteAt 0 (leBytes 1 (unsigned 1 z) ++ rest) = .ok (unsigned 1 z) := by
      have hlt := unsigned_lt 1 z
      rw [byteAt_of_drop (t := rest) rfl]
      exact congrArg Except.ok (UInt8.toNat_ofNat_of_lt' (by simpa using hlt))
    have hread : charAt 0 (leBytes 1 (unsigned 1 z) ++ rest) = .ok z :=
      bind_eq_ok.mpr ⟨_, hbyte, congrArg Except.ok (signed_unsigned hmin hmax)⟩
    exact fixedItem_ok hread .int 1
  | short => exact fixedItem_ok (signed_leAt hmin hmax rfl) .int 2
  | int24 => exact fixedItem_ok (signed_leAt hmin hmax rfl) .int 3
  | long => exact fixedItem_ok (signed_leAt hmin hmax rfl) .int 4
  | longlong => exact fixedItem_ok (signed_leAt hmin hmax rfl) .int 8

/-- A string is read back behind its length. -/
theorem lengthPrefixed_encode {n : ℕ} {s : Bytes} (hn : s.length < 256 ^ n)
    (hs : s.length < 2147483648) (rest : Bytes) :
    lengthPrefixed n (leBytes n s.length ++ s ++ rest) = .ok (.str s, s.length + n) := by
  have hlength : leAt 0 n (leBytes n s.length ++ s ++ rest) = .ok s.length :=
    leAt_of_drop (List.append_assoc _ _ _) hn
  have hstring : buildString n s.length (leBytes n s.length ++ s ++ rest) = .ok (.str s) := by
    unfold buildString
    rw [if_pos hs, List.append_assoc]
    exact bind_eq_ok.mpr ⟨s, bytesAt_append (length_leBytes _ _) rfl, rfl⟩
  exact bind_eq_ok.mpr ⟨_, hlength, bind_eq_ok.mpr ⟨_, hstring, rfl⟩⟩

/-- The length of a CHAR is read off its metadata, which hides no other type. -/
theorem szMeta_char (length : Fin 1024) :
    stringLength mysqlTypeString (ColumnType.char length).szMeta = (length.val, mysqlTypeString) ∧
      TableMap.decodeDataType mysqlTypeString (ColumnType.char length).szMeta =
        mysqlTypeString := by
  -- The two hidden bits, and the halves of the byte of the others.
  have hbits : ∀ (hidden : Fin 4) (high low : Fin 16),
      stringLength mysqlTypeString (charMeta (256 * hidden.val + 16 * high.val + low.val)) =
        (256 * hidden.val + 16 * high.val + low.val, mysqlTypeString) ∧
      TableMap.decodeDataType mysqlTypeString
        (charMeta (256 * hidden.val + 16 * high.val + low.val)) = mysqlTypeString := by
    decide +kernel
  have hsum : 256 * (length.val / 256) + 16 * (length.val / 16 % 16) + length.val % 16 =
      length.val := by omega
  have hlength := hbits ⟨length / 256, by omega⟩ ⟨length / 16 % 16, by omega⟩
    ⟨length % 16, by omega⟩
  simp only [hsum] at hlength
  exact hlength

/-- Whether the length of a VARCHAR has one byte is read off its metadata, although that is taken
for a signed number. -/
theorem szMeta_varchar_lt (max : Fin 65536) :
    (ColumnType.varchar max).szMeta < 256 ↔ max.val < 256 := by
  have hmax := max.isLt
  have hpow : (256 ^ 2 : ℕ) = 65536 := by norm_num
  simp only [ColumnType.szMeta, ofInt, signed, Int.bmod, hpow]
  split <;> omega

/-- A VARCHAR is read behind its length, whose size follows from the metadata. -/
theorem decodeRowImageItem_varchar (metadata : ℕ) :
    decodeRowImageItem mysqlTypeVarchar metadata =
      if metadata < 256 then lengthPrefixed 1 else lengthPrefixed 2 := rfl

/-- A CHAR is read behind its length, whose size follows from the declared length. -/
theorem decodeRowImageItem_char {metadata n : ℕ}
    (h : stringLength mysqlTypeString metadata = (n, mysqlTypeString)) :
    decodeRowImageItem mysqlTypeString metadata =
      if n < 256 then lengthPrefixed 1 else lengthPrefixed 2 := by
  unfold decodeRowImageItem
  rw [h]
  rfl

/-- The strings are read behind their length. -/
theorem decodeRowImageItem_string {t : ColumnType} (ht : 0 < t.lengthBytes) :
    decodeRowImageItem t.code t.szMeta = lengthPrefixed t.lengthBytes := by
  cases t with
  | int k => exact absurd ht (lt_irrefl 0)
  | varchar max =>
    rw [ColumnType.code, decodeRowImageItem_varchar]
    simp only [ColumnType.lengthBytes, szMeta_varchar_lt]
    split <;> rfl
  | char length =>
    rw [ColumnType.code, decodeRowImageItem_char (szMeta_char length).1]
    simp only [ColumnType.lengthBytes]
    split <;> rfl
  | blob n =>
    obtain ⟨n, hn⟩ := n
    have hcases : n = 1 ∨ n = 2 ∨ n = 3 ∨ n = 4 := by omega
    rcases hcases with rfl | rfl | rfl | rfl <;> rfl

/-- A value is read back, and is as long as its encoding. -/
theorem decodeRowImageItem_encode {t : ColumnType} (v : Value t)
    (hv : v.encode.length < 2147483648) (rest : Bytes) :
    decodeRowImageItem t.code t.szMeta (v.encode ++ rest) = .ok (v.item, v.encode.length) := by
  have hstring : ∀ s : Bytes, 0 < t.lengthBytes → s.length < 256 ^ t.lengthBytes →
      (leBytes t.lengthBytes s.length ++ s).length < 2147483648 →
      decodeRowImageItem t.code t.szMeta (leBytes t.lengthBytes s.length ++ s ++ rest) =
        .ok (.str s, (leBytes t.lengthBytes s.length ++ s).length) := by
    intro s hpos hs hlt
    rw [List.length_append, length_leBytes] at hlt ⊢
    rw [decodeRowImageItem_string hpos, lengthPrefixed_encode hs (by omega), Nat.add_comm]
  cases v with
  | int k z hmin hmax =>
    have hlen : (Value.int k z hmin hmax).encode.length = k.size := length_leBytes _ _
    rw [hlen]
    exact decodeRowImageItem_int k hmin hmax rest
  | varchar max s h =>
    have hmax := max.isLt
    refine hstring s ?_ ?_ hv <;> simp only [ColumnType.lengthBytes] <;> split <;> omega
  | char length s h =>
    have hlength := length.isLt
    refine hstring s ?_ ?_ hv <;> simp only [ColumnType.lengthBytes] <;> split <;> omega
  | blob n s h => exact hstring s n.property.1 h hv

/-! ## Rows -/

/-- The entries in the arrays of the table map for a column. -/
def ColumnDef.column (c : ColumnDef) : Column :=
  { type := c.type.code, metadata := c.type.szMeta, nullAble := c.nullable.toNat }

/-- What the parser is to keep of a table. -/
def Table.tableMap (t : Table) : TableMap :=
  { llTableID := t.id, columns := t.columns.map ColumnDef.column, szTableName := t.name
    szDBName := t.db }

/-- A value that may be NULL is read back. -/
theorem decodeColumn_encode {m rest : Bytes} {pBitmapData i pPos b : ℕ} {c : ColumnDef}
    (v : Option (Value c.type)) (hb : byteAt (pBitmapData + i / 8) m = .ok b)
    (hbit : (b >>> (i % 8)) % 2 = v.isNone.toNat)
    (hm : m.drop pPos = (v.map Value.encode).getD [] ++ rest)
    (hfit : pPos + ((v.map Value.encode).getD []).length < 2147483648) :
    decodeColumn pBitmapData i pPos c.column m =
      .ok ((v.map Value.item).getD (.int 0), pPos + ((v.map Value.encode).getD []).length) := by
  unfold decodeColumn
  rw [bind_ok hb, hbit]
  cases v with
  | none => rfl
  | some v =>
    have hitem : shift pPos (decodeRowImageItem c.column.type c.column.metadata) m =
        .ok (v.item, v.encode.length) := by
      rw [shift_apply, hm]
      exact decodeRowImageItem_encode v (lt_of_le_of_lt (Nat.le_add_left _ _) hfit) rest
    have hpos : u32 (pPos + v.encode.length) = pPos + v.encode.length :=
      u32_of_lt (lt_trans hfit (by norm_num))
    rw [if_pos (show (some v).isNone.toNat = 0 from rfl)]
    exact (bind_ok hitem).trans (congrArg (fun n => Except.ok (v.item, n)) hpos)

/-- The values of a row are read back, whatever the place of their bits in the bitmap. -/
theorem decodeColumns_encode {m rest : Bytes} {pBitmapData i pPos : ℕ} {cs : List ColumnDef}
    (image : Image cs)
    (hbits : ∀ j null, image.nulls[j]? = some null → ∃ b,
      byteAt (pBitmapData + (i + j) / 8) m = .ok b ∧ (b >>> ((i + j) % 8)) % 2 = null.toNat)
    (hm : m.drop pPos = image.values ++ rest)
    (hfit : pPos + image.values.length < 2147483648) :
    decodeColumns pBitmapData (cs.map ColumnDef.column) i pPos m =
      .ok (image.items, pPos + image.values.length) := by
  induction image generalizing i pPos with
  | nil => rfl
  | cons v image ih =>
    obtain ⟨b, hb, hbit⟩ := hbits 0 v.isNone rfl
    rw [Nat.add_zero] at hb hbit
    rw [Image.values, List.length_append] at hfit
    have hm' : m.drop pPos = (v.map Value.encode).getD [] ++ (image.values ++ rest) := by
      rw [hm, Image.values, List.append_assoc]
    have hcolumn := decodeColumn_encode v hb hbit hm' (by omega)
    have hbits' : ∀ j null, image.nulls[j]? = some null → ∃ b,
        byteAt (pBitmapData + (i + 1 + j) / 8) m = .ok b ∧
        (b >>> ((i + 1 + j) % 8)) % 2 = null.toNat := by
      intro j null hnull
      have := hbits (j + 1) null hnull
      rwa [Nat.add_comm j 1, ← Nat.add_assoc] at this
    have hrest := ih hbits' (drop_add_of_drop hm') (by omega)
    rw [List.map_cons, decodeColumns, bind_ok hcolumn]
    refine (bind_ok hrest).trans ?_
    rw [Image.items, Image.values, List.length_append, ← Nat.add_assoc]
    rfl

/-- There is a bit for each column. -/
theorem Image.length_nulls {cs : List ColumnDef} (image : Image cs) :
    image.nulls.length = cs.length := by
  induction image with
  | nil => rfl
  | cons v image ih => rw [Image.nulls, List.length_cons, List.length_cons, ih]

/-- The size of the bitmap of a table. -/
theorem Table.getBitmapSize_tableMap (t : Table) :
    t.tableMap.getBitmapSize = (t.columns.length + 7) / 8 := by
  unfold TableMap.getBitmapSize TableMap.getColumnsNumber Table.tableMap
  rw [List.length_map]

/-- A row is read back. -/
theorem decodeOneRow_encode {t : Table} (image : Image t.columns) {m rest : Bytes} {pPos : ℕ}
    (hm : m.drop pPos = image.encode ++ rest) (hfit : pPos + image.encode.length < 2147483648) :
    decodeOneRow t.tableMap pPos m = .ok (image.items, pPos + image.encode.length) := by
  have hsize : (bitmap true image.nulls).length = t.tableMap.getBitmapSize := by
    rw [length_bitmap, image.length_nulls, t.getBitmapSize_tableMap]
  have hlen : image.encode.length = t.tableMap.getBitmapSize + image.values.length := by
    rw [Image.encode, List.length_append, hsize]
  rw [Image.encode, List.append_assoc] at hm
  have hpos : u32 (pPos + t.tableMap.getBitmapSize) = pPos + t.tableMap.getBitmapSize :=
    u32_of_lt (by omega)
  have hvalues := drop_add_of_drop hm
  rw [hsize] at hvalues
  unfold decodeOneRow
  rw [hpos, hlen, ← Nat.add_assoc]
  refine decodeColumns_encode image (fun j null hnull => ?_) hvalues (by omega)
  obtain ⟨hj, rfl⟩ := List.getElem?_eq_some_iff.mp hnull
  rw [Nat.zero_add]
  exact ⟨_, byteAt_add_of_drop hm (getElem?_bitmap true hj), bit_bitmap true hj⟩

/-- Bytes that the parser decodes as an entry of a rows event, wherever they are. -/
def Decodes (t : TableMap) (nEventType : ℕ) (entry : Bytes × UpdateRow) : Prop :=
  entry.1 ≠ [] ∧ ∀ (m rest : Bytes) (nPos : ℕ), m.drop nPos = entry.1 ++ rest →
    nPos + entry.1.length < 2147483648 →
    decodeUpdateRow t nEventType nPos m = .ok (entry.2, nPos + entry.1.length)

/-- A row has a bitmap. -/
theorem Image.encode_ne_nil {t : Table} (image : Image t.columns) : image.encode ≠ [] := by
  have hpos := t.columns_pos
  have hlen : (bitmap true image.nulls).length = (t.columns.length + 7) / 8 := by
    rw [length_bitmap, image.length_nulls]
  refine List.append_ne_nil_of_left_ne_nil (List.ne_nil_of_length_pos ?_) _
  omega

/-- The entries of a rows event are read back. -/
theorem Changes.decodes {t : Table} (c : Changes t) :
    ∀ entry ∈ c.entries, Decodes t.tableMap c.typeCode entry := by
  intro entry hentry
  cases c with
  | write rows =>
    obtain ⟨image, -, rfl⟩ := List.mem_map.mp hentry
    refine ⟨image.encode_ne_nil, fun m rest nPos hm hfit => ?_⟩
    exact (bind_ok (decodeOneRow_encode image hm hfit)).trans rfl
  | delete rows =>
    obtain ⟨image, -, rfl⟩ := List.mem_map.mp hentry
    refine ⟨image.encode_ne_nil, fun m rest nPos hm hfit => ?_⟩
    exact (bind_ok (decodeOneRow_encode image hm hfit)).trans rfl
  | update rows =>
    obtain ⟨⟨old, new⟩, -, rfl⟩ := List.mem_map.mp hentry
    refine ⟨List.append_ne_nil_of_left_ne_nil old.encode_ne_nil _, fun m rest nPos hm hfit => ?_⟩
    rw [List.length_append, ← Nat.add_assoc] at hfit ⊢
    dsimp only at hfit ⊢
    rw [List.append_assoc] at hm
    have hold := decodeOneRow_encode old hm (by omega)
    have hnew := decodeOneRow_encode new (drop_add_of_drop hm) hfit
    exact (bind_ok hold).trans ((bind_ok hnew).trans rfl)

/-- The entries that the parser is to append for the given dictionaries, with the given names. -/
def LogState.contents (s : LogState) (nEventType : ℕ) (db tbl : Bytes) (rows : List UpdateRow) :
    List Row :=
  rows.mapIdx fun i row => { s.named nEventType db tbl row with nItemIndex := s.nItemIndex + i }

/-- The first entry, and the others after it. -/
theorem LogState.contents_cons {s : LogState} (hs : s.nextItem.nItemIndex = s.nItemIndex + 1)
    (nEventType : ℕ) (db tbl : Bytes) (row : UpdateRow) (rows : List UpdateRow) :
    s.contents nEventType db tbl (row :: rows) =
      s.named nEventType db tbl row :: s.nextItem.contents nEventType db tbl rows := by
  unfold LogState.contents
  rw [List.mapIdx_cons, hs]
  refine congrArg (s.named nEventType db tbl row :: ·) ?_
  refine congrArg (fun f => rows.mapIdx f) (funext fun i => funext fun r => ?_)
  rw [Nat.add_assoc, Nat.add_comm 1 i]
  rfl

/-- The loop of `_decodeEvent` appends the entries from `_nStartIndex` on, and ends at the end of
their bytes. -/
theorem decodeEventLoop_entries {nEventType nBufLen turns nPos : ℕ} {s : LogState} {m rest : Bytes}
    {entries : List (Bytes × UpdateRow)} {db tbl : Bytes}
    (hdb : s.tableMap.getDBName = .ok db) (htbl : s.tableMap.getTableName = .ok tbl)
    (hentries : ∀ entry ∈ entries, Decodes s.tableMap nEventType entry)
    (hm : m.drop nPos = (entries.map Prod.fst).flatten ++ rest)
    (hlen : nBufLen = nPos + (entries.map Prod.fst).flatten.length) (hfit : nBufLen < 2147483648)
    (hturns : (entries.map Prod.fst).flatten.length ≤ turns)
    (hindex : s.nItemIndex + (entries.map Prod.fst).flatten.length < 4294967296) :
    decodeEventLoop nEventType nBufLen turns nPos s m =
      .ok (nBufLen, { s with nItemIndex := s.nItemIndex + entries.length },
        (s.contents nEventType db tbl (entries.map Prod.snd)).drop
          (s.nStartIndex - s.nItemIndex)) := by
  induction entries generalizing turns nPos s with
  | nil =>
    obtain rfl : nBufLen = nPos := hlen
    exact (decodeEventLoop_done (lt_irrefl nBufLen)).mpr ⟨rfl, rfl, List.drop_nil⟩
  | cons entry entries ih =>
    obtain ⟨hne, hdecode⟩ := hentries entry List.mem_cons_self
    have hpos := List.length_pos_iff.mpr hne
    have hflat : ((entry :: entries).map Prod.fst).flatten =
        entry.1 ++ (entries.map Prod.fst).flatten := rfl
    rw [hflat, List.append_assoc] at hm
    rw [hflat, List.length_append] at hlen hturns hindex
    obtain ⟨turns, rfl⟩ : ∃ n, turns = n + 1 := ⟨turns - 1, by omega⟩
    have hnext : s.nextItem.nItemIndex = s.nItemIndex + 1 := u32_of_lt (by omega)
    have hturns' : (entries.map Prod.fst).flatten.length ≤ turns := by omega
    have hloop := ih (s := s.nextItem) hdb htbl
      (fun x hx => hentries x (List.mem_cons_of_mem entry hx)) (drop_add_of_drop hm) (by omega)
      hturns' (by omega)
    have hstate : { s.nextItem with nItemIndex := s.nextItem.nItemIndex + entries.length } =
        { s with nItemIndex := s.nItemIndex + (entry :: entries).length } := by
      rw [hnext, List.length_cons, Nat.add_assoc, Nat.add_comm 1]
      rfl
    rw [hstate] at hloop
    refine (decodeEventLoop_turn (by omega)).mpr
      ⟨entry.2, _, _, _, hdecode m _ nPos hm (by omega),
        LogState.content_of_names hdb htbl nEventType entry.2, hloop, ?_⟩
    rw [List.map_cons, LogState.contents_cons hnext, hnext]
    have hstart : s.nextItem.nStartIndex = s.nStartIndex := rfl
    rw [hstart]
    split
    · rw [Nat.sub_eq_zero_of_le (by omega), Nat.sub_eq_zero_of_le (by omega)]
      rfl
    · have hskip : s.nStartIndex - s.nItemIndex = s.nStartIndex - (s.nItemIndex + 1) + 1 := by omega
      rw [hskip, List.drop_succ_cons]

/-! ## Events -/

/-- A byte that was written is read back. -/
theorem byteAt_leBytes {m t : Bytes} {p v : ℕ} (h : m.drop p = leBytes 1 v ++ t) (hv : v < 256) :
    byteAt p m = .ok v := by
  rw [byteAt_of_drop (t := t) h]
  exact congrArg Except.ok (UInt8.toNat_ofNat_of_lt' hv)

/-- A packed integer is read back. -/
theorem decodePacketInt_netStoreLength {m t : Bytes} {p n : ℕ}
    (h : m.drop p = netStoreLength n ++ t) (hn : n < 16777216) :
    decodePacketInt p m = .ok ((n : ℤ), (netStoreLength n).length) := by
  unfold netStoreLength at h ⊢
  unfold decodePacketInt
  split at h
  · rename_i h1
    rw [bind_ok (byteAt_leBytes h (by omega)), if_pos h1, if_pos h1, length_leBytes]
    rfl
  rename_i h1
  split at h
  · rename_i h2
    rw [bind_ok (byteAt_of_drop h), if_neg h1, if_pos h2]
    have hread : leAt (p + 1) 2 m = .ok n :=
      leAt_of_drop (drop_add_of_drop (s := [252]) h) (by omega)
    exact (bind_ok hread).trans rfl
  · rename_i h2
    rw [bind_ok (byteAt_of_drop h), if_neg h1, if_neg h2, if_pos hn]
    have hread : leAt (p + 1) 3 m = .ok n :=
      leAt_of_drop (drop_add_of_drop (s := [253]) h) (by omega)
    exact (bind_ok hread).trans rfl

/-- A number of columns takes one byte. -/
theorem length_netStoreLength {n : ℕ} (h : n ≤ maxColumns) : (netStoreLength n).length = 1 := by
  unfold netStoreLength
  rw [if_pos (lt_of_le_of_lt h (by decide)), length_leBytes]

/-- A packed integer takes at most nine bytes. -/
theorem length_netStoreLength_le (n : ℕ) : (netStoreLength n).length ≤ 9 := by
  unfold netStoreLength
  split_ifs <;> simp only [List.length_cons, length_leBytes] <;> norm_num

variable {t : Table}

/-- The bytes of a rows event's body in front of the entries, but for the second bitmap of an
update. -/
def Table.rowsHeader (t : Table) (flags : ℕ) : Bytes :=
  leBytes 6 t.id ++ leBytes 2 flags ++ netStoreLength t.columns.length ++ t.present

/-- The offset behind the header of a rows event. -/
theorem Table.length_rowsHeader (t : Table) (flags : ℕ) :
    (t.rowsHeader flags).length = 9 + (t.columns.length + 7) / 8 := by
  have hn := length_netStoreLength t.columns_le
  have hmap : (t.columns.map fun _ => true).length = t.columns.length := List.length_map _
  simp only [Table.rowsHeader, Table.present, List.length_append, length_leBytes, length_bitmap, hn,
    hmap]

/-- The size of the bitmap as the parser computes it from the number of columns. -/
theorem bitmapSize_eq {n : ℕ} (h : n ≤ maxColumns) :
    ofInt ((toInt32 ((n : ℤ) + 7)).tdiv 8) = (n + 7) / 8 := by
  have hmax : maxColumns = 128 := rfl
  have hsum : toInt32 ((n : ℤ) + 7) = ((n + 7 : ℕ) : ℤ) := by
    unfold toInt32
    rw [Int.bmod_eq_of_le (by omega) (by omega)]
    push_cast
    ring
  have hdiv : ((n + 7 : ℕ) : ℤ).tdiv 8 = (((n + 7) / 8 : ℕ) : ℤ) := rfl
  rw [hsum, hdiv, ofInt_natCast (by omega)]

/-- The header of a rows event is read back. -/
theorem rowsHeader_body (t : Table) (flags : ℕ) (rest : Bytes) :
    rowsHeader (t.rowsHeader flags ++ rest) =
      .ok (flags % 65536, (t.rowsHeader flags).length) := by
  have hcolumns := t.columns_le
  have hmax : maxColumns = 128 := rfl
  have hlen := length_netStoreLength hcolumns
  have h0 : (t.rowsHeader flags ++ rest).drop 0 = leBytes 6 t.id ++ (leBytes 2 flags ++
      (netStoreLength t.columns.length ++ (t.present ++ rest))) := by
    simp only [Table.rowsHeader, List.append_assoc, List.drop_zero]
  have h6 := drop_of_drop h0 (q := 6) (by rw [length_leBytes])
  have h8 := drop_of_drop h6 (q := 8) (by rw [length_leBytes])
  have hoffset : u32 (8 + (netStoreLength t.columns.length).length +
      ofInt ((toInt32 ((t.columns.length : ℤ) + 7)).tdiv 8)) = (t.rowsHeader flags).length := by
    rw [hlen, bitmapSize_eq hcolumns, u32_of_lt (by omega), t.length_rowsHeader]
  unfold rowsHeader
  refine (bind_ok (leAt_of_drop_mod h6)).trans ?_
  refine (bind_ok (decodePacketInt_netStoreLength h8 (by omega))).trans ?_
  exact congrArg (fun n => Except.ok (flags % 65536, n)) hoffset

/-- The type of a rows event is one of the three. -/
theorem Changes.isRowsType (c : Changes t) : IsRowsType c.typeCode := by
  cases c with
  | write _ => exact .inl rfl
  | delete _ => exact .inr (.inl rfl)
  | update _ => exact .inr (.inr rfl)

/-- A type fits its byte. -/
theorem Changes.typeCode_lt (c : Changes t) : c.typeCode < 256 := by
  rcases c.isRowsType with h | h | h <;> rw [h] <;> decide

/-- The bytes of the entries of a rows event. -/
def Changes.encode (c : Changes t) : Bytes := (c.entries.map Prod.fst).flatten

/-- The part of a rows event behind its header is decoded to its end, and the entries are appended
from `_nStartIndex` on. -/
theorem decodeEvent_changes (c : Changes t) {s : LogState} (hs : s.tableMap = t.tableMap)
    (hindex : s.nItemIndex + c.encode.length < 4294967296) {second : Bytes}
    (hsecond : second = if c.typeCode = updateRowsEvent then t.present else [])
    (hfit : second.length + c.encode.length < 2147483648) :
    decodeEvent c.typeCode (second.length + c.encode.length) s (second ++ c.encode) =
      .ok (second.length + c.encode.length,
        { s with nItemIndex := s.nItemIndex + c.entries.length },
        (s.contents c.typeCode (cstr t.db) (cstr t.name) c.updateRows).drop
          (s.nStartIndex - s.nItemIndex)) := by
  have hpresent : t.present.length = t.tableMap.getBitmapSize := by
    have hmap : (t.columns.map fun _ => true).length = t.columns.length := List.length_map _
    rw [Table.present, length_bitmap, hmap, t.getBitmapSize_tableMap]
  have hpos : (if c.typeCode = updateRowsEvent then s.tableMap.getBitmapSize else 0) =
      second.length := by
    rw [hsecond, hs]
    split
    · exact hpresent.symm
    · rfl
  have hm : (second ++ c.encode).drop second.length = (c.entries.map Prod.fst).flatten ++ [] := by
    rw [List.drop_left, List.append_nil]
    rfl
  have hdb : s.tableMap.getDBName = .ok (cstr t.db) :=
    hs ▸ TableMap.getDBName_of_lt (t := t.tableMap) t.db_lt
  have htbl : s.tableMap.getTableName = .ok (cstr t.name) :=
    hs ▸ TableMap.getTableName_of_lt (t := t.tableMap) t.name_lt
  unfold decodeEvent
  rw [hpos]
  exact decodeEventLoop_entries hdb htbl (hs ▸ c.decodes) hm rfl hfit (Nat.le_add_left _ _) hindex

/-- A rows event is decoded to its end, and its entries are appended from `_nStartIndex` on. -/
theorem handleEvent_changes (c : Changes t) (h : EventHeader) (flags : ℕ) {s : LogState}
    (hs : s.tableMap = t.tableMap) (hlen : (c.event h flags).length < 2147483648)
    (hindex : s.nItemIndex = 0) :
    ∃ nEndFlag nOffSet s' rows,
      rowsHeader ((c.event h flags).drop 19) = .ok (nEndFlag, nOffSet) ∧
      decodeEvent c.typeCode ((c.event h flags).length - 19 - nOffSet)
        ((s.advance (c.event h flags).length).ended nEndFlag)
        (((c.event h flags).drop 19).drop nOffSet) =
          .ok ((c.event h flags).length - 19 - nOffSet, s', rows) ∧
      handleEvent s (c.event h flags) = .ok (s', rows) ∧
      rows = (s.contents c.typeCode (cstr t.db) (cstr t.name) c.updateRows).drop
        s.nStartIndex := by
  obtain ⟨second, hsecond⟩ : ∃ second,
      second = if c.typeCode = updateRowsEvent then t.present else [] := ⟨_, rfl⟩
  have hbody : c.body flags = t.rowsHeader flags ++ (second ++ c.encode) := by
    rw [hsecond, ← List.append_assoc]
    rfl
  have hdrop : (c.event h flags).drop 19 = t.rowsHeader flags ++ (second ++ c.encode) := by
    rw [Changes.event, drop_encodeEvent, hbody]
  have hsize : (c.event h flags).length =
      19 + ((t.rowsHeader flags).length + (second.length + c.encode.length)) := by
    rw [Changes.event, length_encodeEvent, hbody, List.length_append, List.length_append]
  have hleft : (c.event h flags).length - 19 - (t.rowsHeader flags).length =
      second.length + c.encode.length := by omega
  have hheader : rowsHeader ((c.event h flags).drop 19) =
      .ok (flags % 65536, (t.rowsHeader flags).length) := by
    rw [hdrop]
    exact rowsHeader_body t flags _
  -- What the header sets is not what the rows are made of.
  obtain ⟨s₁, hs₁⟩ : ∃ s₁, s₁ = (s.advance (c.event h flags).length).ended (flags % 65536) :=
    ⟨_, rfl⟩
  have hended : s₁.tableMap = t.tableMap ∧ s₁.nItemIndex = 0 ∧ s₁.nStartIndex = s.nStartIndex ∧
      s₁.contents c.typeCode (cstr t.db) (cstr t.name) c.updateRows =
        s.contents c.typeCode (cstr t.db) (cstr t.name) c.updateRows := by
    rw [hs₁]
    unfold LogState.ended
    split <;> exact ⟨hs, hindex, rfl, rfl⟩
  obtain ⟨htable, hzero, hstart, hcontents⟩ := hended
  obtain ⟨s₂, hrows⟩ : ∃ s₂, decodeEvent c.typeCode (second.length + c.encode.length) s₁
      (second ++ c.encode) = .ok (second.length + c.encode.length, s₂,
        (s₁.contents c.typeCode (cstr t.db) (cstr t.name) c.updateRows).drop
          (s₁.nStartIndex - s₁.nItemIndex)) :=
    ⟨_, decodeEvent_changes c htable (by rw [hzero]; omega) hsecond (by omega)⟩
  rw [hzero, hstart, hcontents, Nat.sub_zero] at hrows
  have htype : eventType (c.event h flags) = c.typeCode :=
    eventType_encodeEvent h c.typeCode_lt _
  have hsub : sub32 (sub32 (c.event h flags).length 19) (t.rowsHeader flags).length =
      second.length + c.encode.length := by
    rw [sub32_of_le (a := (c.event h flags).length) (by omega) (by omega),
      sub32_of_le (by omega) (by omega), hleft]
  refine ⟨_, _, s₂, _, hheader, ?_, ?_, rfl⟩
  · rw [hleft, hdrop, List.drop_left, ← hs₁]
    exact hrows
  · refine stepEvent_iff.mpr (.rows (htype ▸ c.isRowsType) ?_)
    rw [htype]
    refine processRows_iff.mpr ⟨_, _, second.length + c.encode.length, hheader, ?_⟩
    rw [hsub, hdrop, List.drop_left, ← hs₁]
    exact hrows

/-! ## The table map -/

/-- The metadata of a type is read back. -/
theorem decodeMeta_encode (k : ColumnType) {m rest : Bytes} {p : ℕ}
    (hm : m.drop p = k.metadata ++ rest) :
    TableMap.decodeMeta k.code p m = .ok (k.szMeta, k.metadata.length) := by
  cases k with
  | int k => cases k <;> rfl
  | varchar max =>
    have hread : sint2korr p m = .ok (signed 2 max) :=
      (bind_ok (leAt_of_drop hm (by omega))).trans rfl
    exact (bind_ok hread).trans rfl
  | char length =>
    have hhidden : mysqlTypeString ^^^ ((length.val &&& 0x300) >>> 4) < 256 := by
      have hle : length.val &&& 0x300 ≤ 0x300 := Nat.and_le_right
      apply Nat.xor_lt_two_pow (n := 8) (by norm_num)
      rw [Nat.shiftRight_eq_div_pow]
      omega
    have hlow : length.val &&& 0xFF < 256 := Nat.lt_succ_of_le Nat.and_le_right
    have hx : byteAt p m = .ok (mysqlTypeString ^^^ ((length.val &&& 0x300) >>> 4)) := by
      rw [byteAt_of_drop hm]
      exact congrArg Except.ok (UInt8.toNat_ofNat_of_lt' hhidden)
    have hy : byteAt (p + 1) m = .ok (length.val &&& 0xFF) := by
      have hm' : m.drop (p + 1) = UInt8.ofNat (length.val &&& 0xFF) :: rest :=
        drop_of_drop (s := [UInt8.ofNat (mysqlTypeString ^^^ ((length.val &&& 0x300) >>> 4))]) hm
          rfl
      rw [byteAt_of_drop hm']
      exact congrArg Except.ok (UInt8.toNat_ofNat_of_lt' hlow)
    exact (bind_ok hx).trans ((bind_ok hy).trans rfl)
  | blob n =>
    have hn := n.property
    have hx : byteAt p m = .ok n.val := by
      rw [byteAt_of_drop hm]
      exact congrArg Except.ok (UInt8.toNat_ofNat_of_lt' (by change n.val < 256; omega))
    exact (bind_ok hx).trans rfl

/-- The metadata of the columns is read back. -/
theorem decodeMetaData_encode (cs : List ColumnDef) {m rest : Bytes} {p : ℕ}
    (hm : m.drop p = (cs.flatMap fun c => c.type.metadata) ++ rest) :
    TableMap.decodeMetaData (cs.map fun c => c.type.code) p m =
      .ok (cs.map fun c => c.type.szMeta) := by
  induction cs generalizing p with
  | nil => rfl
  | cons c cs ih =>
    rw [List.flatMap_cons, List.append_assoc] at hm
    rw [List.map_cons, TableMap.decodeMetaData]
    refine (bind_ok (decodeMeta_encode c.type hm)).trans ?_
    exact (bind_ok (ih (drop_add_of_drop hm))).trans rfl

/-- No type hides another one. -/
theorem decodeDataType_szMeta (k : ColumnType) :
    TableMap.decodeDataType k.code k.szMeta = k.code := by
  cases k with
  | int k => cases k <;> rfl
  | varchar max => rfl
  | char length => exact (szMeta_char length).2
  | blob n => rfl

/-- The bits of the columns are read back. -/
theorem decodeNullAble_encode (cs : List ColumnDef) {m rest : Bytes} {p : ℕ}
    (hm : m.drop p = bitmap false (cs.map ColumnDef.nullable) ++ rest) :
    TableMap.decodeNullAble p cs.length m = .ok (cs.map fun c => c.nullable.toNat) := by
  have hlen : (bitmap false (cs.map ColumnDef.nullable)).length = (cs.length + 7) / 8 := by
    rw [length_bitmap, List.length_map]
  refine (bind_ok (bytesAt_of_drop hm hlen)).trans ?_
  refine congrArg Except.ok (List.ext_getElem (by simp) fun i hi hi' => ?_)
  have hbit : i < (cs.map ColumnDef.nullable).length := by simpa using hi
  rw [List.getElem_map, List.getElem_map, List.getElem_range, List.getD_eq_getElem?_getD,
    getElem?_bitmap false hbit, Option.getD_some, bit_bitmap false hbit, List.getElem_map]

/-- The three arrays are put together column by column. -/
theorem zipWith_columns (cs : List ColumnDef) :
    ((cs.map fun c => c.type.code).zip (cs.map fun c => c.type.szMeta)).zipWith
      (fun (nType, nMeta) nullAble => ⟨TableMap.decodeDataType nType nMeta, nMeta, nullAble⟩)
      (cs.map fun c => c.nullable.toNat) = cs.map ColumnDef.column := by
  induction cs with
  | nil => rfl
  | cons c cs ih =>
    simp only [List.map_cons, List.zip_cons_cons, List.zipWith_cons_cons, ih, decodeDataType_szMeta]
    rfl

/-- The code of a type fits its byte. -/
theorem ColumnType.code_lt (k : ColumnType) : k.code < 256 := by
  cases k with
  | int k => cases k <;> decide
  | varchar max => exact (by decide : mysqlTypeVarchar < 256)
  | char length => exact (by decide : mysqlTypeString < 256)
  | blob n => exact (by decide : mysqlTypeBlob < 256)

/-- The codes of the types are read back. -/
theorem Table.map_types (t : Table) :
    t.types.map UInt8.toNat = t.columns.map fun c => c.type.code := by
  unfold Table.types
  rw [List.map_map]
  exact List.map_congr_left fun c _ => UInt8.toNat_ofNat_of_lt' c.type.code_lt

/-- A column has at most two bytes of metadata. -/
theorem Table.length_metadata_le (t : Table) : t.metadata.length ≤ 2 * t.columns.length := by
  have htwo : ∀ k : ColumnType, k.metadata.length ≤ 2 := by
    intro k
    cases k with
    | int k => exact Nat.zero_le 2
    | varchar max => exact le_rfl
    | char length => exact le_rfl
    | blob n => exact Nat.le_succ 1
  unfold Table.metadata
  induction t.columns with
  | nil => exact le_rfl
  | cons c cs ih =>
    rw [List.flatMap_cons, List.length_append, List.length_cons]
    have := htwo c.type
    omega

/-- The body of a TABLE_MAP event from its parts. -/
def tableMapBody (id flags : ℕ) (db name types metadata bits : Bytes) : Bytes :=
  leBytes 6 id ++ leBytes 2 flags ++ encodeName db ++ encodeName name ++
    netStoreLength types.length ++ types ++ netStoreLength metadata.length ++ metadata ++ bits

/-- A name is read back if it fits. -/
theorem copyName_of_drop {m s rest : Bytes} {p : ℕ} (hm : m.drop p = s ++ rest) :
    TableMap.copyName p s.length m =
      if nameMaxLength < s.length then .error .outOfBounds else .ok s := by
  unfold TableMap.copyName
  split
  · rfl
  · exact bytesAt_of_drop hm rfl

/-- What `process` does to a body: it stops at what does not fit, and otherwise decodes the columns
from the offsets of their metadata and their bits. -/
theorem process_tableMapBody {id flags : ℕ} {db name types metadata bits m : Bytes}
    (hm : m = tableMapBody id flags db name types metadata bits) (hid : id < 256 ^ 6)
    (hdb : db.length < 256) (hname : name.length < 256) (htypes : types.length < 65536)
    (hmetadata : metadata.length < 16777216) :
    ∃ pMetaBuf pNullAble, m.drop pMetaBuf = metadata ++ bits ∧ m.drop pNullAble = bits ∧
      TableMap.process m =
        if nameMaxLength < db.length ∨ nameMaxLength < name.length ∨ maxColumns < types.length then
          .error .outOfBounds
        else (do
          let metas ← TableMap.decodeMetaData (types.map UInt8.toNat) pMetaBuf
          let nullAbles ← TableMap.decodeNullAble pNullAble types.length
          return { llTableID := id, szTableName := name, szDBName := db, columns :=
            ((types.map UInt8.toNat).zip metas).zipWith (fun (nType, nMeta) nullAble =>
              ⟨TableMap.decodeDataType nType nMeta, nMeta, nullAble⟩) nullAbles } :
            Reader TableMap) m := by
  have hnine := length_netStoreLength_le types.length
  have hnine' := length_netStoreLength_le metadata.length
  -- The parts of the body, from each offset that the parser comes to.
  have h0 : m.drop 0 = leBytes 6 id ++ (leBytes 2 flags ++ (leBytes 1 db.length ++ (db ++ ([0] ++
      (leBytes 1 name.length ++ (name ++ ([0] ++ (netStoreLength types.length ++ (types ++
        (netStoreLength metadata.length ++ (metadata ++ bits))))))))))) := by
    simp only [hm, tableMapBody, encodeName, List.append_assoc, List.drop_zero]
  have h6 := drop_of_drop h0 (q := 6) (by rw [length_leBytes])
  have h8 := drop_of_drop h6 (q := 8) (by rw [length_leBytes])
  have h9 := drop_of_drop h8 (q := 8 + 1) (by rw [length_leBytes])
  have hnul := drop_add_of_drop h9
  have hlen := drop_of_drop hnul (q := 8 + 1 + (db.length + 1))
    (by rw [List.length_singleton]; omega)
  obtain ⟨p₁, hp₁⟩ : ∃ p, p = 8 + 1 + (db.length + 1) := ⟨_, rfl⟩
  rw [← hp₁] at hlen
  have htable := drop_of_drop hlen (q := p₁ + 1) (by rw [length_leBytes])
  have hnul' := drop_add_of_drop htable
  have hcount := drop_of_drop hnul' (q := p₁ + 1 + (name.length + 1))
    (by rw [List.length_singleton]; omega)
  obtain ⟨p₂, hp₂⟩ : ∃ p, p = p₁ + 1 + (name.length + 1) := ⟨_, rfl⟩
  rw [← hp₂] at hcount
  have htypeBuf := drop_add_of_drop hcount
  have hmetaLen := drop_add_of_drop htypeBuf
  have hmetas := drop_add_of_drop hmetaLen
  have hbits := drop_add_of_drop hmetas
  have hk : ((types.length : ℤ) % 65536).toNat = types.length := by omega
  refine ⟨_, _, hmetas, hbits, ?_⟩
  unfold TableMap.process
  refine (bind_ok (leAt_of_drop h0 hid)).trans ?_
  refine (bind_ok (byteAt_leBytes h8 hdb)).trans ?_
  by_cases hdbFits : nameMaxLength < db.length
  · rw [if_pos (.inl hdbFits)]
    exact bind_error ((copyName_of_drop h9).trans (if_pos hdbFits))
  refine (bind_ok ((copyName_of_drop h9).trans (if_neg hdbFits))).trans ?_
  rw [← hp₁]
  refine (bind_ok (byteAt_leBytes hlen hname)).trans ?_
  by_cases hnameFits : nameMaxLength < name.length
  · rw [if_pos (.inr (.inl hnameFits))]
    exact bind_error ((copyName_of_drop htable).trans (if_pos hnameFits))
  refine (bind_ok ((copyName_of_drop htable).trans (if_neg hnameFits))).trans ?_
  rw [← hp₂]
  refine (bind_ok (decodePacketInt_netStoreLength hcount (by omega))).trans ?_
  dsimp only
  rw [hk]
  refine (bind_ok (decodePacketInt_netStoreLength hmetaLen hmetadata)).trans ?_
  dsimp only
  rw [ofInt_natCast (by omega), u32_of_lt (by omega)]
  by_cases hcolumns : maxColumns < types.length
  · rw [if_pos hcolumns, if_pos (.inr (.inr hcolumns))]
    rfl
  rw [if_neg hcolumns, if_neg (by simp only [hdbFits, hnameFits, hcolumns, or_false,
    not_false_iff])]
  exact bind_ok (bytesAt_of_drop htypeBuf rfl)

/-- The body of a TABLE_MAP event is read back. -/
theorem process_body (t : Table) (flags : ℕ) :
    TableMap.process (t.body flags) = .ok t.tableMap := by
  have hname : nameMaxLength = 128 := rfl
  have hmax : maxColumns = 128 := rfl
  have hdb := t.db_lt
  have htbl := t.name_lt
  have hcolumns := t.columns_le
  have hmeta := t.length_metadata_le
  have htypes : t.types.length = t.columns.length := List.length_map _
  obtain ⟨bits, hbits⟩ : ∃ bits, bits = bitmap false (t.columns.map ColumnDef.nullable) := ⟨_, rfl⟩
  have hbody : t.body flags = tableMapBody t.id flags t.db t.name t.types t.metadata bits := by
    rw [tableMapBody, htypes, hbits]
    rfl
  obtain ⟨pMetaBuf, pNullAble, hmetas, hnullAbles, hprocess⟩ := process_tableMapBody hbody t.id_lt
    (by omega) (by omega) (by omega) (by omega)
  rw [hprocess, if_neg (by omega), t.map_types, htypes]
  refine (bind_ok (decodeMetaData_encode t.columns hmetas)).trans ?_
  rw [← List.append_nil bits, hbits] at hnullAbles
  refine (bind_ok (decodeNullAble_encode t.columns hnullAbles)).trans ?_
  rw [zipWith_columns]
  rfl

/-! ## The two events -/

/-- The bytes of a TABLE_MAP event's body are few. -/
theorem Table.length_body_lt (t : Table) (flags : ℕ) : (t.body flags).length < 1024 := by
  have hname : nameMaxLength = 128 := rfl
  have hmax : maxColumns = 128 := rfl
  have hdb := t.db_lt
  have htbl := t.name_lt
  have hcolumns := t.columns_le
  have hone := length_netStoreLength hcolumns
  have hmeta := t.length_metadata_le
  have hnine := length_netStoreLength_le t.metadata.length
  simp only [Table.body, encodeName, Table.types, List.length_append, List.length_map,
    length_leBytes, length_bitmap, List.length_singleton]
  omega

/-- What the branch for a TABLE_MAP event sets. -/
theorem processTableMap_sets (s : LogState) (n : ℕ) (tableMap : TableMap) :
    (processTableMap s n tableMap).tableMap = tableMap ∧
      (processTableMap s n tableMap).nItemIndex = 0 ∧
      (processTableMap s n tableMap).nStartIndex =
        (if s.nCurStat = 0 then s.nStartIndex else 0) ∧
      (processTableMap s n tableMap).szCurLogName = s.szCurLogName := by
  unfold processTableMap
  dsimp only
  by_cases h0 : s.nCurStat = 0
  · rw [if_neg (not_not.mpr h0), if_pos h0]
    split_ifs <;> exact ⟨rfl, rfl, rfl, rfl⟩
  · rw [if_pos h0, if_neg h0]
    exact ⟨rfl, rfl, rfl, rfl⟩

/-- A TABLE_MAP event sets the table map and the counters. -/
theorem handleEvent_tableMap (t : Table) (h : EventHeader) (flags : ℕ) (s : LogState) :
    ∃ s₁, handleEvent s (t.event h flags) = .ok (s₁, []) ∧ s₁.tableMap = t.tableMap ∧
      s₁.nItemIndex = 0 ∧ s₁.nStartIndex = (if s.nCurStat = 0 then s.nStartIndex else 0) ∧
      s₁.szCurLogName = s.szCurLogName := by
  have htype : eventType (t.event h flags) = tableMapEvent :=
    eventType_encodeEvent h (by decide) _
  have hprocess : TableMap.process ((t.event h flags).drop 19) = .ok t.tableMap := by
    rw [Table.event, drop_encodeEvent]
    exact process_body t flags
  exact ⟨_, stepEvent_iff.mpr (.tableMap htype hprocess), processTableMap_sets _ _ _⟩

/-- The entries that the parser is to append after the TABLE_MAP event. -/
theorem contents_changes (c : Changes t) {s : LogState} (hindex : s.nItemIndex = 0) :
    s.contents c.typeCode (cstr t.db) (cstr t.name) c.updateRows =
      c.rows (cstr s.szCurLogName) s.nTablePos := by
  have hact : actOf c.typeCode = c.act := by
    cases c <;> rfl
  unfold LogState.contents Changes.rows
  refine congrArg (fun f => c.updateRows.mapIdx f) (funext fun i => funext fun row => ?_)
  unfold LogState.named
  rw [hact, hindex, Nat.zero_add]

/-- Round trip: the TABLE_MAP event of a table and then a rows event of changes to it append exactly
the entries of the changes, in order and with the values that were encoded, and the rows event is
decoded to its end. The entries in front of the start index of a parser that has not seen a
TABLE_MAP event are left out. The listener gets there whatever the pieces. -/
theorem rows_roundTrip (c : Changes t) (h h' : EventHeader) (flags flags' : ℕ)
    (hlen : (c.event h' flags').length < 2147483648) (p : RowLogParser) :
    ∃ s₁ s₂ rows nEndFlag nOffSet,
      handleEvent p.toLogState (t.event h flags) = .ok (s₁, []) ∧
      handleEvent s₁ (c.event h' flags') = .ok (s₂, rows) ∧
      rows = (c.rows (cstr p.szCurLogName) s₁.nTablePos).drop
        (if p.nCurStat = 0 then p.nStartIndex else 0) ∧
      rowsHeader ((c.event h' flags').drop 19) = .ok (nEndFlag, nOffSet) ∧
      decodeEvent c.typeCode ((c.event h' flags').length - 19 - nOffSet)
        ((s₁.advance (c.event h' flags').length).ended nEndFlag)
        (((c.event h' flags').drop 19).drop nOffSet) =
          .ok ((c.event h' flags').length - 19 - nOffSet, s₂, rows) ∧
      ∀ pieces, pieces.flatten = t.event h flags ++ c.event h' flags' → Fits [] pieces →
        ∃ l, Listener.feedAll ⟨[], p⟩ pieces = .ok (l, rows) ∧ l.parser.toLogState = s₂ := by
  obtain ⟨s₁, hmap, htable, hindex, hstart, hname⟩ := handleEvent_tableMap t h flags p.toLogState
  obtain ⟨nEndFlag, nOffSet, s₂, rows, hheader, hdecode, hrows, hcontents⟩ :=
    handleEvent_changes c h' flags' htable hlen hindex
  rw [contents_changes c hindex, hstart, hname] at hcontents
  refine ⟨s₁, s₂, rows, nEndFlag, nOffSet, hmap, hrows, hcontents, hheader, hdecode, ?_⟩
  intro pieces hcut hfits
  have hrun : runEvents p.toLogState [t.event h flags, c.event h' flags'] = .ok (s₂, rows) :=
    runEvents_cons.mpr ⟨s₁, [], rows, hmap, runEvents_cons.mpr
      ⟨s₂, rows, [], hrows, rfl, (List.append_nil rows).symm⟩, rfl⟩
  have hsize : (c.event h' flags').length = 19 + (c.body flags').length := length_encodeEvent _ _ _
  have hevents : ∀ e ∈ [t.event h flags, c.event h' flags'], IsEvent e := by
    intro e he
    rcases List.mem_cons.mp he with rfl | he
    · have hbody := t.length_body_lt flags
      exact isEvent_encodeEvent h _ (by omega)
    · obtain rfl := List.mem_singleton.mp he
      exact isEvent_encodeEvent h' _ (by omega)
  exact feedAll_of_runEvents hevents (by rw [hcut]; simp) hfits hrun

/-- A table with a MEDIUMINT, a VARCHAR(300), a CHAR(700) and a BLOB. -/
def sampleTable : Table where
  id := 1
  db := [100]
  name := [116]
  columns :=
    [⟨.int .int24, false⟩, ⟨.varchar 300, true⟩, ⟨.char 700, true⟩, ⟨.blob ⟨2, by decide⟩, true⟩]
  id_lt := by decide
  db_lt := by decide
  name_lt := by decide
  columns_pos := by decide
  columns_le := by decide

/-- The update of its row (-5, "ab", NULL, "") to (7, NULL, "c", NULL). -/
def sampleChanges : Changes sampleTable :=
  .update [(.cons (some (.int .int24 (-5) (by decide) (by decide)))
      (.cons (some (.varchar 300 [97, 98] (by decide))) (.cons none
        (.cons (some (.blob _ [] (by decide))) .nil))),
    .cons (some (.int .int24 7 (by decide) (by decide)))
      (.cons none (.cons (some (.char 700 [99] (by decide))) (.cons none .nil))))]

/-- The two events of that update, in one piece each. -/
theorem rows_roundTrip_sample : ∃ l rows,
    Listener.feedAll ⟨[], zeroParser⟩
      [sampleTable.event ⟨0, 1, 0, 0⟩ 1, sampleChanges.event ⟨0, 1, 0, 0⟩ 1] = .ok (l, rows) ∧
    rows.map Row.row = [⟨some [.int (-5), .str [97, 98], .int 0, .str []],
      some [.int 7, .int 0, .str [99], .int 0]⟩] := by
  obtain ⟨s₁, s₂, rows, -, -, -, -, hrows, -, -, hfeed⟩ :=
    rows_roundTrip sampleChanges ⟨0, 1, 0, 0⟩ ⟨0, 1, 0, 0⟩ 1 1 (by decide +kernel) zeroParser
  obtain ⟨l, hl, -⟩ := hfeed [sampleTable.event ⟨0, 1, 0, 0⟩ 1, sampleChanges.event ⟨0, 1, 0, 0⟩ 1]
    (by simp) (fits_events (by decide +kernel))
  exact ⟨l, rows, hl, by rw [hrows]; rfl⟩

end MgCommonUtils.Ebinlog
