import MgCommonUtils.Ebinlog.Position
import MgCommonUtils.Lib.Transition

/-!
# Whether `process` ends

Two loops advance by what the buffer says. The loop of `process` takes `nEventLen` bytes a turn and
the loop of `_decodeEvent` an entry, whose size the table map and the lengths in the entry give. An
event of length 0 is parsed again and again, and an entry takes no bytes when the table map has no
columns, as before the first TABLE_MAP event; neither loop ends then. An entry of a table with a
column takes at least its null bitmap, unless the length of a LONGBLOB carries `*pPos` past the end
of a `uint32` and back. `CallOk` leaves these three cases out, and where it holds both loops end
(`process_terminates`).
-/

namespace MgCommonUtils.Ebinlog

open MgCommonUtils.Lib MgCommonUtils.Lib.Reader

/-! ## The parts without a loop -/

theorem ends_sint2korr (p : ℕ) : Ends (sint2korr p) := (Ends.leAt p 2).bind fun _ => .pure _

theorem ends_charAt (p : ℕ) : Ends (charAt p) := (Ends.byteAt p).bind fun _ => .pure _

theorem ends_decodePacketInt (p : ℕ) : Ends (decodePacketInt p) := by
  apply (Ends.byteAt p).bind
  intro n
  apply Ends.ite (.pure _)
  apply Ends.ite (.pure _)
  apply Ends.ite ((Ends.leAt _ _).bind fun _ => .pure _)
  apply Ends.ite ((Ends.leAt _ _).bind fun _ => .pure _)
  exact (Ends.leAt _ _).bind fun _ => .pure _

theorem ends_bin2decimal (precision scale : ℕ) : Ends (bin2decimal precision scale) :=
  Ends.ite (.stop (by decide)) ((Ends.bytesAt _ _).bind fun _ => .pure _)

theorem ends_buildString (p n : ℕ) : Ends (buildString p n) :=
  Ends.ite ((Ends.bytesAt _ _).bind fun _ => .pure _) ((Ends.cstrAt _).bind fun _ => .pure _)

theorem ends_fixedItem {α : Type} {r : Reader α} (hr : Ends r) (build : α → PyItem) (k : ℕ) :
    Ends (fixedItem r build k) :=
  hr.bind fun _ => .pure _

theorem ends_lengthPrefixed (n : ℕ) : Ends (lengthPrefixed n) :=
  (Ends.leAt _ _).bind fun _ => (ends_buildString _ _).bind fun _ => .pure _

/-- A value is decoded without a loop. -/
theorem ends_decodeRowImageItem (type metadata : ℕ) : Ends (decodeRowImageItem type metadata) := by
  unfold decodeRowImageItem sint2korr sint3korr sint4korr sint8korr
  split
  split
  -- A few types choose their length from the metadata.
  all_goals try split
  all_goals with_reducible first
    | exact ends_fixedItem (Ends.leAt _ _) _ _
    | exact ends_fixedItem ((Ends.leAt _ _).bind fun _ => .pure _) _ _
    | exact ends_fixedItem (ends_charAt _) _ _
    | exact ends_fixedItem (ends_buildString _ _) _ _
    | exact ends_fixedItem (ends_bin2decimal _ _) _ _
    | exact ends_lengthPrefixed _
    | exact .pure _
    | exact .stop (by decide)
    | exact Ends.ite (.stop (by decide)) (ends_fixedItem (ends_buildString _ _) _ _)

theorem ends_decodeColumn (pBitmapData i pPos : ℕ) (c : Column) :
    Ends (decodeColumn pBitmapData i pPos c) := by
  apply (Ends.byteAt _).bind
  intro bits
  exact Ends.ite (Ends.bind (.shift _ (ends_decodeRowImageItem _ _)) fun _ => .pure _) (.pure _)

theorem ends_decodeColumns (pBitmapData : ℕ) (cs : List Column) (i pPos : ℕ) :
    Ends (decodeColumns pBitmapData cs i pPos) := by
  induction cs generalizing i pPos with
  | nil => exact .pure _
  | cons c rest ih =>
    unfold decodeColumns
    exact (ends_decodeColumn _ _ _ _).bind fun _ => (ih _ _).bind fun _ => .pure _

theorem ends_decodeOneRow (t : TableMap) (pPos : ℕ) : Ends (decodeOneRow t pPos) :=
  ends_decodeColumns _ _ _ _

/-- An entry's images are as many as the columns say. -/
theorem ends_decodeUpdateRow (t : TableMap) (nEventType nPos : ℕ) :
    Ends (decodeUpdateRow t nEventType nPos) := by
  unfold decodeUpdateRow
  apply Ends.ite
  · apply (ends_decodeOneRow _ _).bind
    intro old
    exact (ends_decodeOneRow _ _).bind fun _ => .pure _
  · apply (ends_decodeOneRow _ _).bind
    intro pRow
    exact Ends.ite (.pure _) (.pure _)

theorem ends_rowsHeader : Ends rowsHeader :=
  (Ends.leAt _ _).bind fun _ => (ends_decodePacketInt _).bind fun _ => .pure _

theorem TableMap.ends_decodeMeta (nType p : ℕ) : Ends (decodeMeta nType p) := by
  unfold decodeMeta
  split
  all_goals first
    | exact .pure _
    | exact (Ends.byteAt _).bind fun _ => .pure _
    | exact (Ends.byteAt _).bind fun _ => (Ends.byteAt _).bind fun _ => .pure _
    | exact (ends_sint2korr _).bind fun _ => .pure _

theorem TableMap.ends_decodeMetaData (types : List ℕ) (p : ℕ) : Ends (decodeMetaData types p) := by
  induction types generalizing p with
  | nil => exact .pure _
  | cons nType rest ih =>
    unfold decodeMetaData
    exact (ends_decodeMeta nType p).bind fun r => (ih (p + r.2)).bind fun _ => .pure _

theorem TableMap.ends_copyName (p nLen : ℕ) : Ends (copyName p nLen) :=
  Ends.ite (.stop (by decide)) (.bytesAt _ _)

/-- A table map is read off in as many turns as it has columns. -/
theorem TableMap.ends_process : Ends TableMap.process := by
  unfold TableMap.process
  apply (Ends.leAt 0 6).bind; intro llTableID
  apply (Ends.byteAt _).bind; intro dbLen
  apply (ends_copyName _ _).bind; intro szDBName
  apply (Ends.byteAt _).bind; intro tblLen
  apply (ends_copyName _ _).bind; intro szTableName
  apply (ends_decodePacketInt _).bind; intro columnsNumber
  apply (ends_decodePacketInt _).bind; intro metaLen
  apply Ends.ite (.stop (by decide))
  apply (Ends.bytesAt _ _).bind; intro pType
  apply (ends_decodeMetaData _ _).bind; intro metas
  apply Ends.bind ((Ends.bytesAt _ _).bind fun _ => .pure _); intro nullAbles
  exact .pure _

/-! ## By how much a value moves `*pPos` -/

/-- What the reader says it took lies in the memory. -/
def Within {α : Type} (r : Reader (α × ℕ)) : Prop :=
  ∀ ⦃m : Bytes⦄ ⦃a : α⦄ ⦃k : ℕ⦄, r m = .ok (a, k) → k ≤ m.length

theorem within_zero {α : Type} (a : α) : Within (pure (a, 0)) := by
  intro m b k h
  obtain ⟨rfl, rfl⟩ := Prod.mk.inj (Except.ok.inj h)
  exact Nat.zero_le _

theorem within_stop {α : Type} (e : Stop) : Within (Reader.stop e : Reader (α × ℕ)) := by
  intro m a k h
  cases h

theorem within_fixedItem {α : Type} {r : Reader α} {k : ℕ}
    (hr : ∀ m a, r m = .ok a → k ≤ m.length) (build : α → PyItem) :
    Within (fixedItem r build k) := by
  intro m b k' h
  obtain ⟨a, ha, h⟩ := bind_eq_ok.mp h
  obtain ⟨rfl, rfl⟩ := Prod.mk.inj (Except.ok.inj h)
  exact hr m a ha

/-- Bytes that are read are in the memory. -/
theorem le_of_bytesAt {p n : ℕ} {m s : Bytes} (h : bytesAt p n m = .ok s) :
    n ≤ m.length - p := by
  have hlen := length_of_bytesAt h
  unfold bytesAt at h
  split at h
  · rename_i hn
    rw [List.length_take, List.length_drop] at hn
    omega
  · cases h

theorem le_of_leAt {p n v : ℕ} {m : Bytes} (h : leAt p n m = .ok v) : n ≤ m.length - p := by
  obtain ⟨s, hs, -⟩ := bind_eq_ok.mp h
  exact le_of_bytesAt hs

theorem lt_of_byteAt {p b : ℕ} {m : Bytes} (h : byteAt p m = .ok b) : p < m.length := by
  unfold byteAt at h
  split at h
  · rename_i hb
    exact (List.getElem?_eq_some_iff.mp hb).1
  · cases h

theorem within_leAt (k : ℕ) (build : ℕ → PyItem) : Within (fixedItem (leAt 0 k) build k) :=
  within_fixedItem (fun _ _ h => by simpa using le_of_leAt h) build

theorem within_signed {α : Type} (k : ℕ) (f : ℕ → α) (build : α → PyItem) :
    Within (fixedItem (do return f (← leAt 0 k)) build k) := by
  refine within_fixedItem (fun m a h => ?_) build
  obtain ⟨v, hv, -⟩ := bind_eq_ok.mp h
  simpa using le_of_leAt hv

theorem within_charAt (build : ℤ → PyItem) : Within (fixedItem (charAt 0) build 1) := by
  refine within_fixedItem (fun m a h => ?_) build
  obtain ⟨b, hb, -⟩ := bind_eq_ok.mp h
  exact lt_of_byteAt hb

/-- A string whose length is an `int` lies in the memory. -/
theorem le_of_buildString {p n : ℕ} {m : Bytes} {item : PyItem} (hn : n < 2147483648)
    (h : buildString p n m = .ok item) : n ≤ m.length - p := by
  unfold buildString at h
  rw [if_pos hn] at h
  obtain ⟨s, hs, -⟩ := bind_eq_ok.mp h
  exact le_of_bytesAt hs

theorem within_buildString {k : ℕ} (hk : k < 2147483648) (build : PyItem → PyItem) :
    Within (fixedItem (buildString 0 k) build k) :=
  within_fixedItem (fun _ _ h => by simpa using le_of_buildString hk h) build

/-- A byte string moves `*pPos` by its length and the bytes of that. -/
theorem lengthPrefixed_moves {n k : ℕ} {m : Bytes} {item : PyItem}
    (h : lengthPrefixed n m = .ok (item, k)) :
    ∃ nLength, leAt 0 n m = .ok nLength ∧ buildString n nLength m = .ok item ∧ k = nLength + n := by
  obtain ⟨nLength, hlen, h⟩ := bind_eq_ok.mp h
  obtain ⟨s, hs, h⟩ := bind_eq_ok.mp h
  obtain ⟨rfl, rfl⟩ := Prod.mk.inj (Except.ok.inj h)
  exact ⟨nLength, hlen, hs, rfl⟩

/-- A length in at most three bytes is that of a string in the memory. -/
theorem within_lengthPrefixed {n : ℕ} (hn : n ≤ 3) : Within (lengthPrefixed n) := by
  intro m item k h
  obtain ⟨nLength, hlen, hs, rfl⟩ := lengthPrefixed_moves h
  obtain ⟨s, hbytes, hval⟩ := bind_eq_ok.mp hlen
  obtain rfl := Except.ok.inj hval
  have hlt : leNat s < 256 ^ 3 := by
    have := leNat_lt s
    rw [length_of_bytesAt hbytes] at this
    exact this.trans_le (Nat.pow_le_pow_right (by norm_num) hn)
  have hle := le_of_buildString (by omega) hs
  have hread := le_of_bytesAt hbytes
  omega

/-- A blob in `_decodeRowImageItem` whose length has four bytes. -/
def IsLongBlob (type metadata : ℕ) : Prop := type = mysqlTypeBlob ∧ metadata = 4

instance (type metadata : ℕ) : Decidable (IsLongBlob type metadata) :=
  inferInstanceAs (Decidable (_ ∧ _))

/-- Only a string's metadata changes its type. -/
theorem stringLength_of_lt {type metadata : ℕ} (h : metadata < 256) :
    (stringLength type metadata).2 = type := by
  unfold stringLength
  rw [if_neg (Nat.not_le.mpr h)]
  split <;> rfl

/-- A value that is no LONGBLOB lies in the memory. -/
theorem within_decodeRowImageItem {type metadata : ℕ} (hblob : ¬IsLongBlob type metadata) :
    Within (decodeRowImageItem type metadata) := by
  have hlong : (stringLength type metadata).2 = mysqlTypeBlob → metadata ≠ 4 := by
    rintro htype rfl
    rw [stringLength_of_lt (by norm_num)] at htype
    exact hblob ⟨htype, rfl⟩
  have hset : metadata &&& 0xFF < 2147483648 := Nat.and_le_right.trans_lt (by norm_num)
  unfold decodeRowImageItem sint2korr sint3korr sint4korr sint8korr
  split
  rename_i nLength type' hstring
  rw [hstring] at hlong
  split
  all_goals try split
  all_goals with_reducible first
    | exact within_leAt _ _
    | exact within_signed _ _ _
    | exact within_charAt _
    | exact within_zero _
    | exact within_stop _
    | exact within_lengthPrefixed (by decide)
    | exact within_buildString hset _
    | exact within_fixedItem (fun _ _ _ => Nat.zero_le _) _
    | skip
  · exact absurd rfl (hlong rfl)
  · -- the value of a BIT has at most 16 bytes
    dsimp only
    split
    · exact within_stop _
    · exact within_buildString (by omega) _

/-- A LONGBLOB moves `*pPos` by its length and the four bytes of that. -/
theorem decodeRowImageItem_longBlob {type metadata k : ℕ} {m : Bytes} {item : PyItem}
    (hblob : IsLongBlob type metadata) (h : decodeRowImageItem type metadata m = .ok (item, k)) :
    ∃ n, leAt 0 4 m = .ok n ∧ k = n + 4 := by
  obtain ⟨rfl, rfl⟩ := hblob
  obtain ⟨n, hn, -, hk⟩ := lengthPrefixed_moves (n := 4) h
  exact ⟨n, hn, hk⟩

/-! ## The condition -/

/-- Column `i`, if it is a LONGBLOB that is not NULL, does not carry `*pPos` past the end of a
`uint32`. -/
def ColumnFits (pBitmapData i pPos : ℕ) (c : Column) (m : Bytes) : Prop :=
  IsLongBlob c.type c.metadata → ∀ bits ∈ (byteAt (pBitmapData + i / 8) m).toOption,
    (bits >>> (i % 8)) % 2 = 0 → ∀ n ∈ (leAt 0 4 (m.drop pPos)).toOption,
      pPos + (n + 4) < 4294967296

instance (pBitmapData i pPos : ℕ) (c : Column) (m : Bytes) :
    Decidable (ColumnFits pBitmapData i pPos c m) := by
  unfold ColumnFits
  infer_instance

/-- The columns from number `i` on fit, the first of them at `*pPos`. -/
def ColumnsFit (pBitmapData : ℕ) (m : Bytes) : List Column → ℕ → ℕ → Prop
  | [], _, _ => True
  | c :: rest, i, pPos => ColumnFits pBitmapData i pPos c m ∧
      ∀ r ∈ (decodeColumn pBitmapData i pPos c m).toOption,
        ColumnsFit pBitmapData m rest (i + 1) r.2

instance decidableColumnsFit (pBitmapData : ℕ) (m : Bytes) :
    ∀ (cs : List Column) (i pPos : ℕ), Decidable (ColumnsFit pBitmapData m cs i pPos)
  | [], _, _ => .isTrue trivial
  | _ :: rest, i, _ =>
    have := fun r : PyItem × ℕ => decidableColumnsFit pBitmapData m rest (i + 1) r.2
    inferInstanceAs (Decidable (_ ∧ _))

/-- The image of a row at `*pPos` fits. -/
def RowFits (t : TableMap) (pPos : ℕ) (m : Bytes) : Prop :=
  ColumnsFit pPos m t.columns 0 (u32 (pPos + t.getBitmapSize))

instance (t : TableMap) (pPos : ℕ) (m : Bytes) : Decidable (RowFits t pPos m) :=
  inferInstanceAs (Decidable (ColumnsFit _ _ _ _ _))

/-- The entry at `nPos` takes bytes of the buffer: the table has a column, and the images fit. -/
def EntryProgress (t : TableMap) (nEventType nPos : ℕ) (m : Bytes) : Prop :=
  t.columns ≠ [] ∧ RowFits t nPos m ∧
    (nEventType = updateRowsEvent → ∀ r ∈ (decodeOneRow t nPos m).toOption, RowFits t r.2 m)

instance (t : TableMap) (nEventType nPos : ℕ) (m : Bytes) :
    Decidable (EntryProgress t nEventType nPos m) := by
  unfold EntryProgress
  infer_instance

/-- Every entry that the loop of `_decodeEvent` comes to from `nPos` on takes bytes. -/
def EntriesProgress (t : TableMap) (nEventType nBufLen : ℕ) (m : Bytes) : ℕ → ℕ → Prop
  | 0, _ => True
  | turns + 1, nPos => nPos < nBufLen → EntryProgress t nEventType nPos m ∧
      ∀ r ∈ (decodeUpdateRow t nEventType nPos m).toOption,
        EntriesProgress t nEventType nBufLen m turns r.2

instance decidableEntriesProgress (t : TableMap) (nEventType nBufLen : ℕ) (m : Bytes) :
    ∀ turns nPos : ℕ, Decidable (EntriesProgress t nEventType nBufLen m turns nPos)
  | 0, _ => .isTrue trivial
  | turns + 1, nPos =>
    have := fun r : UpdateRow × ℕ =>
      decidableEntriesProgress t nEventType nBufLen m turns r.2
    inferInstanceAs (Decidable (nPos < nBufLen → _ ∧ _))

/-- Every entry of a rows event takes bytes. -/
def RowsProgress (t : TableMap) (nEventType nEventLen : ℕ) (m : Bytes) : Prop :=
  ∀ h ∈ (rowsHeader m).toOption,
    let nBufLen := sub32 (sub32 nEventLen 19) h.2
    EntriesProgress t nEventType nBufLen (m.drop h.2) nBufLen
      (if nEventType = updateRowsEvent then t.getBitmapSize else 0)

instance (t : TableMap) (nEventType nEventLen : ℕ) (m : Bytes) :
    Decidable (RowsProgress t nEventType nEventLen m) := by
  unfold RowsProgress
  infer_instance

/-- The event takes bytes of the buffer, and so does every entry in it. -/
def EventProgress (s : LogState) (e : BinlogEvent) : Prop :=
  0 < e.nEventLen ∧
    (IsRowsType e.nTypeCode → RowsProgress s.tableMap e.nTypeCode e.nEventLen e.pBuf)

instance (s : LogState) (e : BinlogEvent) : Decidable (EventProgress s e) :=
  inferInstanceAs (Decidable (_ ∧ _))

/-- Every event that the loop of `process` comes to takes bytes. -/
def EventsProgress : ℕ → RowLogParser → Prop
  | 0, _ => True
  | turns + 1, p => ¬Incomplete p.pBuf →
      let q := p.taken (eventLength p.pBuf)
      let e := q.nCurEvent
      EventProgress q.toLogState e ∧
        ∀ r ∈ (processRowEvent q.toLogState e.nTypeCode e.nEventLen e.pBuf).toOption,
          EventsProgress turns { q with toLogState := r.1 }

instance decidableEventsProgress :
    ∀ (turns : ℕ) (p : RowLogParser), Decidable (EventsProgress turns p)
  | 0, _ => .isTrue trivial
  | turns + 1, p =>
    have := fun r : LogState × List Row =>
      decidableEventsProgress turns { p.taken (eventLength p.pBuf) with toLogState := r.1 }
    inferInstanceAs (Decidable (¬Incomplete p.pBuf → _ ∧ _))

/-! ## An entry takes bytes -/

/-- What a column's part of `_decodeOneRow` reads: a byte of the null bitmap and, unless the column
is NULL, its value. -/
theorem decodeColumn_iff {pBitmapData i pPos pPos' : ℕ} {c : Column} {m : Bytes} {item : PyItem} :
    decodeColumn pBitmapData i pPos c m = .ok (item, pPos') ↔
      ∃ bits, byteAt (pBitmapData + i / 8) m = .ok bits ∧
        (((bits >>> (i % 8)) % 2 = 0 ∧
          ∃ k, decodeRowImageItem c.type c.metadata (m.drop pPos) = .ok (item, k) ∧
            pPos' = u32 (pPos + k)) ∨
        ((bits >>> (i % 8)) % 2 ≠ 0 ∧ item = .int 0 ∧ pPos' = pPos)) := by
  unfold decodeColumn
  rw [bind_eq_ok]
  refine exists_congr fun bits => and_congr_right fun _ => ?_
  by_cases hbit : (bits >>> (i % 8)) % 2 = 0
  · rw [if_pos hbit, bind_eq_ok]
    constructor
    · rintro ⟨⟨x, k⟩, hx, h⟩
      obtain ⟨rfl, rfl⟩ := Prod.mk.inj (Except.ok.inj h)
      exact .inl ⟨hbit, k, hx, rfl⟩
    · rintro (⟨-, k, hx, rfl⟩ | ⟨hnull, -⟩)
      · exact ⟨(item, k), hx, rfl⟩
      · exact absurd hbit hnull
  · rw [if_neg hbit]
    constructor
    · intro h
      obtain ⟨rfl, rfl⟩ := Prod.mk.inj (Except.ok.inj h)
      exact .inr ⟨hbit, rfl, rfl⟩
    · rintro (⟨hnull, -⟩ | ⟨-, rfl, rfl⟩)
      · exact absurd hnull hbit
      · rfl

/-- A column's value does not move `*pPos` back. -/
theorem decodeColumn_le {pBitmapData i pPos pPos' : ℕ} {c : Column} {m : Bytes} {item : PyItem}
    (hm : m.length < 4294967296) (hpos : pPos < 4294967296)
    (hfit : ColumnFits pBitmapData i pPos c m)
    (h : decodeColumn pBitmapData i pPos c m = .ok (item, pPos')) :
    pPos ≤ pPos' ∧ pPos' < 4294967296 ∧ pBitmapData + i / 8 < m.length := by
  obtain ⟨bits, hbits, h⟩ := decodeColumn_iff.mp h
  have hread := lt_of_byteAt hbits
  rcases h with ⟨hbit, k, hitem, rfl⟩ | ⟨-, -, rfl⟩
  · have hk : pPos + k < 4294967296 := by
      by_cases hblob : IsLongBlob c.type c.metadata
      · obtain ⟨n, hn, rfl⟩ := decodeRowImageItem_longBlob hblob hitem
        exact hfit hblob bits (mem_toOption hbits) hbit n (mem_toOption hn)
      · have := within_decodeRowImageItem hblob hitem
        rw [List.length_drop] at this
        omega
    rw [u32_of_lt hk]
    exact ⟨Nat.le_add_right _ _, hk, hread⟩
  · exact ⟨le_refl _, hpos, hread⟩

/-- The columns do not move `*pPos` back, and the bitmap has a bit for each. -/
theorem decodeColumns_le {pBitmapData : ℕ} {cs : List Column} {i pPos pPos' : ℕ} {m : Bytes}
    {row : List PyItem} (hm : m.length < 4294967296) (hpos : pPos < 4294967296)
    (hfit : ColumnsFit pBitmapData m cs i pPos)
    (h : decodeColumns pBitmapData cs i pPos m = .ok (row, pPos')) :
    pPos ≤ pPos' ∧ pPos' < 4294967296 ∧
      ∀ j, i ≤ j → j < i + cs.length → pBitmapData + j / 8 < m.length := by
  induction cs generalizing i pPos row with
  | nil =>
    obtain ⟨-, rfl⟩ := Prod.mk.inj (Except.ok.inj h)
    refine ⟨le_refl _, hpos, fun j hj hj' => ?_⟩
    rw [List.length_nil] at hj'
    omega
  | cons c rest ih =>
    obtain ⟨⟨item, pPos₁⟩, hcol, h⟩ := bind_eq_ok.mp h
    obtain ⟨⟨items, pPos₂⟩, hrest, h⟩ := bind_eq_ok.mp h
    obtain ⟨-, rfl⟩ := Prod.mk.inj (Except.ok.inj h)
    obtain ⟨hle, hlt, hread⟩ := decodeColumn_le hm hpos hfit.1 hcol
    have hfit' := hfit.2 _ (mem_toOption hcol)
    obtain ⟨hle', hlt', hreads⟩ := ih hlt hfit' hrest
    refine ⟨hle.trans hle', hlt', fun j hj hj' => ?_⟩
    rw [List.length_cons] at hj'
    rcases hj.eq_or_lt with rfl | hj
    · exact hread
    · exact hreads j hj (by omega)

/-- The image of a row that has a column takes its bitmap at least. -/
theorem decodeOneRow_lt {t : TableMap} {pPos pPos' : ℕ} {m : Bytes} {row : List PyItem}
    (hm : m.length < 4294967296) (hcols : t.columns ≠ []) (hfit : RowFits t pPos m)
    (h : decodeOneRow t pPos m = .ok (row, pPos')) : pPos < pPos' := by
  have hlt : u32 (pPos + t.getBitmapSize) < 4294967296 := by
    unfold u32
    omega
  obtain ⟨hle, -, hreads⟩ := decodeColumns_le hm hlt hfit h
  have hn : 0 < t.columns.length := List.length_pos_iff.mpr hcols
  have hlast := hreads (t.columns.length - 1) (by omega) (by omega)
  have hsize : t.getBitmapSize = (t.columns.length - 1) / 8 + 1 := by
    unfold TableMap.getBitmapSize TableMap.getColumnsNumber
    omega
  rw [u32_of_lt (by omega)] at hle
  omega

/-- An entry that is decoded takes bytes where the condition holds. -/
theorem EntryProgress.lt {t : TableMap} {nEventType nPos nPos' : ℕ} {m : Bytes} {row : UpdateRow}
    (hp : EntryProgress t nEventType nPos m) (hm : m.length < 4294967296)
    (h : decodeUpdateRow t nEventType nPos m = .ok (row, nPos')) : nPos < nPos' := by
  obtain ⟨hcols, hfit, hfit'⟩ := hp
  unfold decodeUpdateRow at h
  by_cases htype : nEventType = updateRowsEvent
  · rw [if_pos htype] at h
    obtain ⟨⟨old, nPos₁⟩, hold, h⟩ := bind_eq_ok.mp h
    obtain ⟨⟨new, nPos₂⟩, hnew, h⟩ := bind_eq_ok.mp h
    obtain ⟨-, rfl⟩ := Prod.mk.inj (Except.ok.inj h)
    have h₁ := decodeOneRow_lt hm hcols hfit hold
    have h₂ := decodeOneRow_lt hm hcols (hfit' htype _ (mem_toOption hold)) hnew
    exact h₁.trans h₂
  · rw [if_neg htype] at h
    obtain ⟨⟨pRow, nPos₁⟩, hrow, h⟩ := bind_eq_ok.mp h
    have h₁ := decodeOneRow_lt hm hcols hfit hrow
    -- The image is the row before the change or the one after it.
    dsimp only at h
    split at h
    all_goals
      obtain ⟨-, rfl⟩ := Prod.mk.inj (Except.ok.inj h)
      exact h₁

/-! ## The loops end -/

/-- The names of a row entry are read in the end. -/
theorem LogState.content_ne_forever (s : LogState) (nEventType : ℕ) (row : UpdateRow) :
    s.content nEventType row ≠ .error .forever :=
  except_bind_ne_error (Ends.cstrAt 0 _) fun _ _ =>
    except_bind_ne_error (Ends.cstrAt 0 _) fun _ _ => ok_ne_forever _

/-- The loop of `_decodeEvent` ends when every entry takes bytes and there are as many turns as
bytes. -/
theorem EntriesProgress.ends {nEventType nBufLen turns nPos : ℕ} {s : LogState} {m : Bytes}
    (hp : EntriesProgress s.tableMap nEventType nBufLen m turns nPos)
    (hm : m.length < 4294967296) (hturns : nBufLen - nPos ≤ turns) :
    decodeEventLoop nEventType nBufLen turns nPos s m ≠ .error .forever := by
  induction turns generalizing nPos s with
  | zero =>
    unfold decodeEventLoop
    rw [if_neg (by omega)]
    exact ok_ne_forever _
  | succ turns ih =>
    unfold decodeEventLoop
    by_cases hpos : nPos < nBufLen
    · obtain ⟨hentry, hrest⟩ := hp hpos
      rw [if_pos hpos]
      apply bind_ne_forever (ends_decodeUpdateRow _ _ _ m)
      rintro ⟨row, nPos₁⟩ hrow
      have hlt := hentry.lt hm hrow
      have hloop : decodeEventLoop nEventType nBufLen turns nPos₁ s.nextItem m ≠
          .error .forever :=
        ih (s := s.nextItem) (hrest (row, nPos₁) (mem_toOption hrow)) (by omega)
      refine bind_ne_forever (s.content_ne_forever nEventType row) fun _ _ => ?_
      exact bind_ne_forever hloop fun _ _ => ok_ne_forever _
    · rw [if_neg hpos]
      exact ok_ne_forever _

/-- A rows event is processed in the end when every entry takes bytes. -/
theorem RowsProgress.ends {s : LogState} {nTypeCode nEventLen : ℕ} {m : Bytes}
    (hp : RowsProgress s.tableMap nTypeCode nEventLen m) (hm : m.length < 4294967296) :
    processRows s nTypeCode nEventLen m ≠ .error .forever := by
  unfold processRows
  apply bind_ne_forever (ends_rowsHeader m)
  rintro ⟨nEndFlag, nOffSet⟩ hheader
  have hrows := hp _ (mem_toOption hheader)
  have hmap := s.tableMap_ended nEndFlag
  have hdrop : (m.drop nOffSet).length < 4294967296 := by
    rw [List.length_drop]
    omega
  have hloop := EntriesProgress.ends (s := s.ended nEndFlag) (hmap.symm ▸ hrows) hdrop
    (Nat.sub_le _ _)
  refine bind_ne_forever ?_ fun _ _ => ok_ne_forever _
  rw [shift_apply]
  unfold decodeEvent
  exact hloop

/-- An event is processed in the end. -/
theorem EventProgress.ends {s : LogState} {e : BinlogEvent} (hp : EventProgress s e)
    (hm : e.pBuf.length < 4294967296) :
    processRowEvent s e.nTypeCode e.nEventLen e.pBuf ≠ .error .forever := by
  by_cases hrows : IsRowsType e.nTypeCode
  · rw [processRowEvent_rows s hrows]
    exact (hp.2 hrows).ends hm
  by_cases hmap : e.nTypeCode = tableMapEvent
  · rw [hmap, processRowEvent_tableMap]
    exact (TableMap.ends_process.bind fun _ => .pure _) _
  by_cases hrotate : e.nTypeCode = rotateEvent
  · rw [hrotate, processRowEvent_rotate]
    exact ((TableMap.ends_copyName _ _).bind fun _ => .pure _) _
  · rw [processRowEvent_other s hmap hrotate hrows]
    exact ok_ne_forever _

/-- A buffer that starts with a whole event is not empty. -/
theorem ne_nil_of_whole {s : Bytes} (h : ¬Incomplete s) : s ≠ [] := by
  rintro rfl
  exact h (.inl (by simp))

/-- A turn of the loop of `process` takes a whole event and processes it. -/
theorem processLoop_of_whole {p : RowLogParser} (h : ¬Incomplete p.pBuf) (turns : ℕ) :
    processLoop (turns + 1) p =
      (let q := p.taken (eventLength p.pBuf)
      let e := q.nCurEvent
      do
        let (s, pRows) ← processRowEvent q.toLogState e.nTypeCode e.nEventLen e.pBuf
        let (p, rest) ← processLoop turns { q with toLogState := s }
        return (p, pRows ++ rest)) := by
  rw [processLoop, if_neg (ne_nil_of_whole h), getEvent_of_whole h]

/-- The loop of `process` ends when every event takes bytes and there are as many turns as
bytes. -/
theorem EventsProgress.ends {turns : ℕ} {p : RowLogParser} (hp : EventsProgress turns p)
    (hlen : p.pBuf.length < 4294967296) (hturns : p.pBuf.length ≤ turns) :
    processLoop turns p ≠ .error .forever := by
  induction turns generalizing p with
  | zero =>
    have hnil : p.pBuf = [] := List.length_eq_zero_iff.mp (by omega)
    unfold processLoop
    rw [if_pos hnil]
    exact ok_ne_forever _
  | succ turns ih =>
    by_cases hinc : Incomplete p.pBuf
    · obtain ⟨e, he⟩ := processLoop_of_incomplete hinc hturns
      rw [he]
      exact ok_ne_forever _
    · obtain ⟨hevent, hevents⟩ := hp hinc
      have hpos : 0 < eventLength p.pBuf := hevent.1
      have hrest : (p.pBuf.drop (eventLength p.pBuf)).length ≤ turns := by
        rw [List.length_drop]
        omega
      have hshort (n : ℕ) : (p.pBuf.drop n).length < 4294967296 := by
        rw [List.length_drop]
        omega
      rw [processLoop_of_whole hinc]
      refine except_bind_ne_error (hevent.ends (hshort _)) fun r hr => ?_
      have hnext := ih (p := { p.taken (eventLength p.pBuf) with toLogState := r.1 })
        (hevents r (mem_toOption hr)) (hshort _) hrest
      exact except_bind_ne_error hnext fun _ _ => ok_ne_forever _

/-! ## Where they do not -/

/-- At an entry that takes no bytes the loop of `_decodeEvent` does not end, whatever the number of
its turns. -/
theorem decodeEventLoop_forever {nEventType nBufLen nPos : ℕ} {s : LogState} {m : Bytes}
    {row : UpdateRow} {db tbl : Bytes} (hpos : nPos < nBufLen)
    (hdb : s.tableMap.getDBName = .ok db) (htbl : s.tableMap.getTableName = .ok tbl)
    (hentry : decodeUpdateRow s.tableMap nEventType nPos m = .ok (row, nPos)) (turns : ℕ) :
    decodeEventLoop nEventType nBufLen turns nPos s m = .error .forever := by
  induction turns generalizing s with
  | zero =>
    unfold decodeEventLoop
    rw [if_pos hpos]
    rfl
  | succ turns ih =>
    unfold decodeEventLoop
    have hcontent := LogState.content_of_names hdb htbl nEventType row
    rw [if_pos hpos, bind_ok hentry]
    exact (bind_ok hcontent).trans (bind_error (ih (s := s.nextItem) hdb htbl hentry))

/-- An entry of a table without columns takes no bytes. -/
theorem decodeUpdateRow_nil {t : TableMap} {nPos : ℕ} (hcols : t.columns = [])
    (hpos : nPos < 4294967296) (nEventType : ℕ) (m : Bytes) :
    ∃ row, decodeUpdateRow t nEventType nPos m = .ok (row, nPos) := by
  -- An image without columns has no bitmap either.
  have hrow : decodeOneRow t nPos m = .ok ([], nPos) := by
    unfold decodeOneRow TableMap.getBitmapSize TableMap.getColumnsNumber
    rw [hcols, List.length_nil, Nat.zero_add, Nat.div_eq_of_lt (by norm_num), Nat.add_zero,
      u32_of_lt hpos]
    rfl
  unfold decodeUpdateRow
  by_cases htype : nEventType = updateRowsEvent
  · rw [if_pos htype, bind_ok hrow]
    exact ⟨_, bind_ok hrow⟩
  · rw [if_neg htype, bind_ok hrow]
    dsimp only
    split <;> exact ⟨_, rfl⟩

/-- A LONGBLOB whose length carries `*pPos` once around takes no bytes either. -/
example : decodeUpdateRow { TableMap.empty with columns := [⟨mysqlTypeBlob, 4, 0⟩] } writeRowsEvent
    0 [254, 251, 255, 255, 255, 0] = .ok (⟨none, some [.str []]⟩, 0) := by decide +kernel

/-- At an event of length 0 the loop of `process` does not return, whatever the number of its
turns. -/
theorem processLoop_ne_ok {p : RowLogParser} (hinc : ¬Incomplete p.pBuf)
    (hzero : eventLength p.pBuf = 0) (turns : ℕ) (r : RowLogParser × List Row) :
    processLoop turns p ≠ .ok r := by
  induction turns generalizing p r with
  | zero =>
    unfold processLoop
    rw [if_neg (ne_nil_of_whole hinc)]
    exact (ok_ne_forever r).symm
  | succ turns ih =>
    intro h
    rw [processLoop_of_whole hinc] at h
    obtain ⟨⟨s, rows⟩, -, h⟩ := except_bind_eq_ok.mp h
    obtain ⟨r', hloop, -⟩ := except_bind_eq_ok.mp h
    -- The next turn finds the same bytes.
    have hsame : p.pBuf.drop (eventLength p.pBuf) = p.pBuf := by rw [hzero, List.drop_zero]
    exact ih (p := { p.taken (eventLength p.pBuf) with toLogState := s })
      (by rw [← hsame] at hinc; exact hinc) (by rw [← hsame] at hzero; exact hzero) r' hloop

/-! ## Calls -/

/-- A call of a parser. -/
inductive ParserCall where
  /-- Of `Init`. -/
  | init (pLogName : Bytes) (nStartPos nStartIndex : ℕ)
  /-- Of `process`, whose `nBufLen` is an `int`. -/
  | process (pBuf : Bytes) (hlen : pBuf.length < 2147483648)

/-- The parser after a call. -/
def RowLogParser.call (p : RowLogParser) : ParserCall → Except Stop RowLogParser
  | .init pLogName nStartPos nStartIndex => p.init pLogName nStartPos nStartIndex
  | .process pBuf _ => do
    let (p, _) ← p.process pBuf
    return p

/-- The call does not run forever: it returns, or stops at an access outside of its memory. -/
def RowLogParser.Terminates (p : RowLogParser) (c : ParserCall) : Prop :=
  p.call c ≠ .error .forever

instance (p : RowLogParser) (c : ParserCall) : Decidable (p.Terminates c) :=
  inferInstanceAs (Decidable (_ ≠ _))

/-- Every event that the call comes to, and every entry in these, takes bytes of the buffer. -/
def RowLogParser.CallOk (p : RowLogParser) : ParserCall → Prop
  | .init _ _ _ => True
  | .process pBuf _ => EventsProgress pBuf.length { p with pBuf, nBufOffSet := 0 }

instance (p : RowLogParser) : (c : ParserCall) → Decidable (p.CallOk c)
  | .init _ _ _ => .isTrue trivial
  | .process _ _ => inferInstanceAs (Decidable (EventsProgress _ _))

/-- A parser and the calls of it. It is made with an empty table map. -/
def parserSystem : Lts RowLogParser ParserCall where
  init p := p.tableMap = .empty
  step p c := (p.call c).toOption

/-- A call that meets the condition terminates. -/
theorem RowLogParser.CallOk.terminates {p : RowLogParser} {c : ParserCall} (h : p.CallOk c) :
    p.Terminates c := by
  cases c with
  | init pLogName nStartPos nStartIndex =>
    show p.init pLogName nStartPos nStartIndex ≠ .error .forever
    unfold RowLogParser.init
    split
    · exact error_ne_forever (by decide)
    · exact ok_ne_forever _
  | process pBuf hlen =>
    have hloop := EventsProgress.ends h (show pBuf.length < _ by omega) (le_refl _)
    refine except_bind_ne_error ?_ fun _ _ => ok_ne_forever _
    exact except_bind_ne_error hloop fun _ _ => ok_ne_forever _

/-- Termination: in a run of calls that meet the condition, every call terminates. -/
theorem process_terminates {p : RowLogParser} {calls : List ParserCall}
    (hok : parserSystem.RunOk RowLogParser.CallOk p calls) :
    parserSystem.RunOk RowLogParser.Terminates p calls :=
  hok.mono fun _ _ h => h.terminates

/-- The buffers of the calls below fit an `int`. -/
theorem mapEvent_length_lt : mapEvent.length < 2147483648 := by decide

theorem insertEvent_length_lt : insertEvent.length < 2147483648 := by decide

theorem zeros_length_lt : (List.replicate 19 (0 : UInt8)).length < 2147483648 := by decide

/-- `Init`, a TABLE_MAP event, and in another call a rows event for that table. -/
def insertCalls : List ParserCall :=
  [.init [] 4 0, .process mapEvent mapEvent_length_lt, .process insertEvent insertEvent_length_lt]

/-- These calls terminate. -/
theorem process_terminates_insert :
    parserSystem.RunOk RowLogParser.Terminates zeroParser insertCalls :=
  process_terminates (by decide +kernel)

/-- A header of zeros after `Init`. -/
def zeroCalls : List ParserCall :=
  [.init [] 4 0, .process (List.replicate 19 0) zeros_length_lt]

/-- A rows event after `Init`, before any TABLE_MAP event. -/
def earlyRowsCalls : List ParserCall :=
  [.init [] 4 0, .process insertEvent insertEvent_length_lt]

/-- Neither of these ends: at the event of length 0 the loop of `process` returns after no number of
turns, and without columns the loop of `_decodeEvent` goes on after any. -/
theorem not_terminates :
    ¬ parserSystem.RunOk RowLogParser.Terminates zeroParser zeroCalls ∧
    ¬ parserSystem.RunOk RowLogParser.Terminates zeroParser earlyRowsCalls ∧
    (∀ turns r, processLoop turns
      { zeroParser with nStartPos := 4, pBuf := List.replicate 19 0 } ≠ .ok r) ∧
    ∀ turns, decodeEventLoop writeRowsEvent 2 turns 0 { zeroParser.toLogState with nStartPos := 4 }
      [254, 7] = .error .forever := by
  refine ⟨by decide +kernel, by decide +kernel, ?_, ?_⟩
  · exact processLoop_ne_ok (by decide) (by decide)
  · obtain ⟨row, hrow⟩ := decodeUpdateRow_nil (t := zeroParser.tableMap) rfl (by decide : 0 < _)
      writeRowsEvent [254, 7]
    exact decodeEventLoop_forever (by decide) rfl rfl hrow

end MgCommonUtils.Ebinlog
