import MgCommonUtils.Ebinlog.Position

/-!
# Resuming a dump

A listener that has stopped is started again with the file, the table offset and the item index of
a row that it emitted. The second run starts in the middle of the file and in another mode, and its
counters are set from the start position. `Resumed` relates it to the first run from the TABLE_MAP
event at that offset on: the counters and the table map are the same, and what is left of the start
is `_nStartIndex`, which is dropped at the next TABLE_MAP event. Every event keeps the relation, and
the second run emits what the first one emits, from that index on (`resume_exact`).
-/

namespace MgCommonUtils.Ebinlog

open MgCommonUtils.Lib MgCommonUtils.Lib.Reader

/-- A row entry without the log name in its position. -/
def Row.unnamed (r : Row) : Row := { r with logName := [] }

/-- The second run's state `u` at the same event as the first run's state `s`. -/
structure Resumed (s u : LogState) : Prop where
  /-- The table offset is the same. -/
  nTablePos : u.nTablePos = s.nTablePos
  /-- The number of bytes since is the same. -/
  nCurPos : u.nCurPos = s.nCurPos
  /-- The number of entries is the same. -/
  nItemIndex : u.nItemIndex = s.nItemIndex
  /-- The table map is the same. -/
  tableMap : u.tableMap = s.tableMap
  /-- Both runs have seen a TABLE_MAP event. -/
  nCurStat : s.nCurStat ≠ 0 ∧ u.nCurStat ≠ 0
  /-- The second run leaves out at least as much. -/
  nStartIndex : s.nStartIndex ≤ u.nStartIndex

/-- The rows of the second run, which leaves out the entries below `k`. -/
def SameFrom (k : ℕ) (rows rows' : List Row) : Prop :=
  rows'.map Row.unnamed = (rows.filter fun r => k ≤ r.nItemIndex).map Row.unnamed

/-- Rows of two parts. -/
theorem SameFrom.append {k : ℕ} {r r' q q' : List Row} (h : SameFrom k r r')
    (h' : SameFrom k q q') : SameFrom k (r ++ q) (r' ++ q') := by
  unfold SameFrom at h h' ⊢
  rw [List.map_append, h, h', List.filter_append, List.map_append]

/-- A row that is not left out. -/
theorem SameFrom.keep {k : ℕ} {r r' : Row} {rows rows' : List Row} (hr : r'.unnamed = r.unnamed)
    (hk : k ≤ r.nItemIndex) (h : SameFrom k rows rows') : SameFrom k (r :: rows) (r' :: rows') := by
  unfold SameFrom at h ⊢
  rw [List.filter_cons_of_pos (by simpa using hk), List.map_cons, List.map_cons, hr, h]

/-- A row that is left out. -/
theorem SameFrom.leave {k : ℕ} {r : Row} {rows rows' : List Row} (hk : ¬k ≤ r.nItemIndex)
    (h : SameFrom k rows rows') : SameFrom k (r :: rows) rows' := by
  unfold SameFrom at h ⊢
  rw [List.filter_cons_of_neg (by simpa using hk), h]

/-- Nothing is left out from the index 0 on. -/
theorem sameFrom_zero {rows rows' : List Row} :
    SameFrom 0 rows rows' ↔ rows'.map Row.unnamed = rows.map Row.unnamed := by
  unfold SameFrom
  rw [List.filter_eq_self.mpr fun r _ => decide_eq_true (Nat.zero_le _)]

/-! ## An event -/

/-- A row entry in the two runs: but for the log name it is the same. -/
theorem Resumed.content {s u : LogState} (h : Resumed s u) {nEventType : ℕ} {row : UpdateRow}
    {content : Row} (hs : s.content nEventType row = .ok content) :
    ∃ content', u.content nEventType row = .ok content' ∧ content'.unnamed = content.unnamed ∧
      content.nItemIndex = u.nItemIndex := by
  obtain ⟨hdb, htbl, heq⟩ := LogState.content_iff.mp hs
  rw [← h.tableMap] at hdb htbl
  refine ⟨_, LogState.content_of_names hdb htbl _ _, ?_, ?_⟩
  · rw [heq]
    unfold LogState.named Row.unnamed
    rw [h.nTablePos, h.nItemIndex]
  · rw [heq]
    exact h.nItemIndex.symm

/-- The loop of `_decodeEvent` in the two runs. -/
theorem Resumed.decodeLoop {s u s' : LogState} (h : Resumed s u)
    {nEventType nBufLen turns nPos nPos' : ℕ} {rows : List Row} {m : Bytes}
    (hs : decodeEventLoop nEventType nBufLen turns nPos s m = .ok (nPos', s', rows)) :
    ∃ u' rows', decodeEventLoop nEventType nBufLen turns nPos u m = .ok (nPos', u', rows') ∧
      Resumed s' u' ∧ u'.nStartIndex = u.nStartIndex ∧ SameFrom u.nStartIndex rows rows' := by
  induction turns generalizing nPos s u rows with
  | zero =>
    have hpos := decodeEventLoop_zero hs
    obtain ⟨rfl, rfl, rfl⟩ := (decodeEventLoop_done hpos).mp hs
    exact ⟨u, [], (decodeEventLoop_done hpos).mpr ⟨rfl, rfl, rfl⟩, h, rfl, rfl⟩
  | succ turns ih =>
    by_cases hpos : nPos < nBufLen
    · obtain ⟨row, nPos₁, content, rest, hrow, hcontent, hloop, rfl⟩ :=
        (decodeEventLoop_turn hpos).mp hs
      have hnext : Resumed s.nextItem u.nextItem :=
        ⟨h.nTablePos, h.nCurPos, congrArg (fun i => u32 (i + 1)) h.nItemIndex, h.tableMap,
          h.nCurStat, h.nStartIndex⟩
      obtain ⟨u', rest', hloop', hrel, hstart, hsame⟩ := ih hnext hloop
      obtain ⟨content', hcontent', hunnamed, hindex⟩ := h.content hcontent
      refine ⟨u', _, (decodeEventLoop_turn hpos).mpr
        ⟨row, nPos₁, content', rest', h.tableMap ▸ hrow, hcontent', hloop', rfl⟩, hrel, hstart, ?_⟩
      by_cases hk : u.nStartIndex ≤ u.nItemIndex
      · have hs' : s.nStartIndex ≤ s.nItemIndex := h.nStartIndex.trans (h.nItemIndex ▸ hk)
        rw [if_pos hk, if_pos hs']
        exact .keep hunnamed (hindex ▸ hk) hsame
      · rw [if_neg hk]
        split
        · exact .leave (hindex ▸ hk) hsame
        · exact hsame
    · obtain ⟨rfl, rfl, rfl⟩ := (decodeEventLoop_done hpos).mp hs
      exact ⟨u, [], (decodeEventLoop_done hpos).mpr ⟨rfl, rfl, rfl⟩, h, rfl, rfl⟩

/-- A rows event in the two runs. -/
theorem Resumed.rows {s u s' : LogState} (h : Resumed s u) {nTypeCode nEventLen : ℕ}
    {rows : List Row} {m : Bytes} (hs : processRows s nTypeCode nEventLen m = .ok (s', rows)) :
    ∃ u' rows', processRows u nTypeCode nEventLen m = .ok (u', rows') ∧ Resumed s' u' ∧
      u'.nStartIndex = u.nStartIndex ∧ SameFrom u.nStartIndex rows rows' := by
  obtain ⟨nEndFlag, nOffSet, nPos, hheader, hrows⟩ := processRows_iff.mp hs
  have hended : Resumed (s.ended nEndFlag) (u.ended nEndFlag) := by
    unfold LogState.ended
    split
    · exact ⟨h.nTablePos, h.nCurPos, h.nItemIndex, h.tableMap, ⟨nofun, nofun⟩, h.nStartIndex⟩
    · exact h
  unfold decodeEvent at hrows
  obtain ⟨u', rows', hloop, hrel, hstart, hsame⟩ := hended.decodeLoop hrows
  rw [← hended.tableMap] at hloop
  refine ⟨u', rows', processRows_iff.mpr ⟨nEndFlag, nOffSet, nPos, hheader, ?_⟩, hrel,
    hstart.trans (u.nStartIndex_ended nEndFlag), u.nStartIndex_ended nEndFlag ▸ hsame⟩
  unfold decodeEvent
  exact hloop

/-- An event that is no TABLE_MAP event in the two runs. -/
theorem Resumed.step {s u s' : LogState} (h : Resumed s u) {e memory : Bytes} {rows : List Row}
    (hmap : eventType e ≠ tableMapEvent) (hs : stepEvent s e memory = .ok (s', rows)) :
    ∃ u' rows', stepEvent u e memory = .ok (u', rows') ∧ Resumed s' u' ∧
      u'.nStartIndex = u.nStartIndex ∧ SameFrom u.nStartIndex rows rows' := by
  have hadv : Resumed (s.advance e.length) (u.advance e.length) :=
    ⟨h.nTablePos, congrArg (fun n => u32 (n + e.length)) h.nCurPos, h.nItemIndex, h.tableMap,
      h.nCurStat, h.nStartIndex⟩
  cases stepEvent_iff.mp hs with
  | tableMap htype _ => exact absurd htype hmap
  | rotate htype hname =>
    refine ⟨_, [], stepEvent_iff.mpr (.rotate htype hname), ?_, ?_, rfl⟩
    · unfold processRotate
      split <;> split <;>
        exact ⟨rfl, rfl, hadv.nItemIndex, hadv.tableMap, hadv.nCurStat, hadv.nStartIndex⟩
    · unfold processRotate
      split <;> rfl
  | rows htype hr =>
    obtain ⟨u', rows', hrows, hrel, hstart, hsame⟩ := hadv.rows hr
    exact ⟨u', rows', stepEvent_iff.mpr (.rows htype hrows), hrel, hstart, hsame⟩
  | other _ hrotate hrows =>
    exact ⟨_, [], stepEvent_iff.mpr (.other hmap hrotate hrows), hadv, rfl, rfl⟩

/-- A TABLE_MAP event in the two runs: nothing is left out any more. -/
theorem Resumed.tableMapStep {s u s' : LogState} (h : Resumed s u) {e memory : Bytes}
    {rows : List Row} (hmap : eventType e = tableMapEvent)
    (hs : stepEvent s e memory = .ok (s', rows)) :
    ∃ u', stepEvent u e memory = .ok (u', []) ∧ Resumed s' u' ∧ u'.nStartIndex = 0 ∧ rows = [] := by
  cases stepEvent_iff.mp hs with
  | tableMap _ ht =>
    rename_i t
    refine ⟨_, stepEvent_iff.mpr (.tableMap hmap ht), ?_, ?_, rfl⟩
    · have hs0 : (s.advance e.length).nCurStat ≠ 0 := h.nCurStat.1
      have hu0 : (u.advance e.length).nCurStat ≠ 0 := h.nCurStat.2
      have hcur : (u.advance e.length).nCurPos = (s.advance e.length).nCurPos :=
        congrArg (fun n => u32 (n + e.length)) h.nCurPos
      have hpos : (u.advance e.length).nTablePos = (s.advance e.length).nTablePos := h.nTablePos
      refine ⟨?_, rfl, rfl, ?_, ⟨nofun, nofun⟩, ?_⟩
      · rw [nTablePos_processTableMap, nTablePos_processTableMap, if_pos hs0, if_pos hu0, hcur,
          hpos]
      · unfold processTableMap
        dsimp only
        rw [if_pos hs0, if_pos hu0]
      · unfold processTableMap
        dsimp only
        rw [if_pos hs0, if_pos hu0]
    · have hu0 : (u.advance e.length).nCurStat ≠ 0 := h.nCurStat.2
      unfold processTableMap
      dsimp only
      rw [if_pos hu0]
  | rotate htype _ => rw [hmap] at htype; cases htype
  | rows htype _ => rw [hmap] at htype; rcases htype with h | h | h <;> cases h
  | other hother _ _ => exact absurd hmap hother

/-! ## Runs -/

/-- The rows of a run over events none of which is a TABLE_MAP event: the second run leaves out the
ones below its start index. -/
theorem Resumed.run {s u s' : LogState} (h : Resumed s u) {es : List Bytes} {rows : List Row}
    (hes : ∀ e ∈ es, eventType e ≠ tableMapEvent) (hs : runEvents s es = .ok (s', rows)) :
    ∃ u' rows', runEvents u es = .ok (u', rows') ∧ Resumed s' u' ∧
      SameFrom u.nStartIndex rows rows' := by
  induction es generalizing s u rows with
  | nil =>
    obtain ⟨rfl, rfl⟩ := Prod.mk.inj (Except.ok.inj hs)
    exact ⟨u, [], rfl, h, rfl⟩
  | cons e es ih =>
    obtain ⟨s₁, r, r', he, hr, rfl⟩ := runEvents_cons.mp hs
    obtain ⟨u₁, q, he', hrel, hstart, hsame⟩ := h.step (hes e List.mem_cons_self) he
    obtain ⟨u₂, q', hr', hrel', hsame'⟩ :=
      ih hrel (fun x hx => hes x (List.mem_cons_of_mem e hx)) hr
    refine ⟨u₂, q ++ q', ?_, hrel', hsame.append (hstart ▸ hsame')⟩
    exact runEvents_cons.mpr ⟨_, _, _, he', hr', rfl⟩

/-- The rows of a run over any events, when the second run leaves nothing out. -/
theorem Resumed.runAll {s u s' : LogState} (h : Resumed s u) (h0 : u.nStartIndex = 0)
    {es : List Bytes} {rows : List Row} (hs : runEvents s es = .ok (s', rows)) :
    ∃ u' rows', runEvents u es = .ok (u', rows') ∧ SameFrom 0 rows rows' := by
  induction es generalizing s u rows with
  | nil =>
    obtain ⟨rfl, rfl⟩ := Prod.mk.inj (Except.ok.inj hs)
    exact ⟨u, [], rfl, rfl⟩
  | cons e es ih =>
    obtain ⟨s₁, r, r', he, hr, rfl⟩ := runEvents_cons.mp hs
    obtain ⟨u₁, q, he', hrel, hstart, hsame⟩ : ∃ u₁ q, stepEvent u e (e.drop 19) = .ok (u₁, q) ∧
        Resumed s₁ u₁ ∧ u₁.nStartIndex = 0 ∧ SameFrom 0 r q := by
      by_cases hmap : eventType e = tableMapEvent
      · obtain ⟨u₁, he', hrel, hstart, rfl⟩ := h.tableMapStep hmap he
        exact ⟨u₁, [], he', hrel, hstart, rfl⟩
      · obtain ⟨u₁, q, he', hrel, hstart, hsame⟩ := h.step hmap he
        exact ⟨u₁, q, he', hrel, hstart.trans h0, h0 ▸ hsame⟩
    obtain ⟨u₂, q', hr', hsame'⟩ := ih hrel hstart hr
    refine ⟨u₂, q ++ q', ?_, hsame.append hsame'⟩
    exact runEvents_cons.mpr ⟨_, _, _, he', hr', rfl⟩

/-- Every rows event comes after a TABLE_MAP event. -/
def Grouped (events : List Bytes) : Prop :=
  ∀ es e es', events = es ++ e :: es' → IsRowsType (eventType e) →
    ∃ x ∈ es, eventType x = tableMapEvent

/-- The first event is no rows event. -/
theorem Grouped.head {e : Bytes} {es : List Bytes} (h : Grouped (e :: es)) :
    ¬IsRowsType (eventType e) := by
  intro hrows
  obtain ⟨x, hx, -⟩ := h [] e es rfl hrows
  cases hx

/-- Behind an event that is no TABLE_MAP event. -/
theorem Grouped.tail {e : Bytes} {es : List Bytes} (h : Grouped (e :: es))
    (he : eventType e ≠ tableMapEvent) : Grouped es := by
  intro as x bs hsplit hrows
  obtain ⟨y, hy, hmap⟩ := h (e :: as) x bs (congrArg (e :: ·) hsplit) hrows
  rcases List.mem_cons.mp hy with rfl | hy
  · exact absurd hmap he
  · exact ⟨y, hy, hmap⟩

/-- Behind a TABLE_MAP event there may be anything. -/
theorem grouped_cons_tableMap {e : Bytes} (he : eventType e = tableMapEvent) (es : List Bytes) :
    Grouped (e :: es) := by
  intro as x bs hsplit hrows
  cases as with
  | nil =>
    obtain ⟨rfl, -⟩ := List.cons.inj hsplit
    rw [he] at hrows
    rcases hrows with h | h | h <;> cases h
  | cons a as =>
    obtain ⟨rfl, -⟩ := List.cons.inj hsplit
    exact ⟨e, List.mem_cons_self, he⟩

/-- An event that is no rows event may come before. -/
theorem Grouped.cons {e : Bytes} {es : List Bytes} (h : Grouped es)
    (he : ¬IsRowsType (eventType e)) : Grouped (e :: es) := by
  intro as x bs hsplit hrows
  cases as with
  | nil =>
    obtain ⟨rfl, -⟩ := List.cons.inj hsplit
    exact absurd hrows he
  | cons a as =>
    obtain ⟨rfl, htail⟩ := List.cons.inj hsplit
    obtain ⟨y, hy, hmap⟩ := h as x bs htail hrows
    exact ⟨y, List.mem_cons_of_mem e hy, hmap⟩

/-- Events of two parts. -/
theorem Grouped.append {es es' : List Bytes} (h : Grouped es) (h' : Grouped es') :
    Grouped (es ++ es') := by
  induction es with
  | nil => exact h'
  | cons e es ih =>
    by_cases he : eventType e = tableMapEvent
    · exact grouped_cons_tableMap he _
    · exact (ih (h.tail he)).cons h.head

/-- An event that is neither a TABLE_MAP event nor a rows event has no rows. -/
theorem rows_of_other {s s' : LogState} {e memory : Bytes} {rows : List Row}
    (he : ¬IsRowsType (eventType e)) (h : stepEvent s e memory = .ok (s', rows)) : rows = [] := by
  cases stepEvent_iff.mp h with
  | tableMap _ _ => rfl
  | rotate _ _ => rfl
  | rows htype _ => exact absurd htype he
  | other _ _ _ => rfl

/-- The rows of a run whose first rows event comes after a TABLE_MAP event: the second run leaves
nothing out. -/
theorem Resumed.runGrouped {s u s' : LogState} (h : Resumed s u) {es : List Bytes}
    {rows : List Row} (hes : Grouped es) (hs : runEvents s es = .ok (s', rows)) :
    ∃ u' rows', runEvents u es = .ok (u', rows') ∧ SameFrom 0 rows rows' := by
  induction es generalizing s u rows with
  | nil =>
    obtain ⟨rfl, rfl⟩ := Prod.mk.inj (Except.ok.inj hs)
    exact ⟨u, [], rfl, rfl⟩
  | cons e es ih =>
    obtain ⟨s₁, r, r', he, hr, rfl⟩ := runEvents_cons.mp hs
    by_cases hmap : eventType e = tableMapEvent
    · obtain ⟨u₁, he', hrel, hstart, rfl⟩ := h.tableMapStep hmap he
      obtain ⟨u₂, q', hr', hsame'⟩ := hrel.runAll hstart hr
      exact ⟨u₂, q', runEvents_cons.mpr ⟨_, _, _, he', hr', rfl⟩, hsame'⟩
    · obtain ⟨u₁, q, he', hrel, -, hsame⟩ := h.step hmap he
      obtain rfl := rows_of_other hes.head he
      obtain rfl := rows_of_other hes.head he'
      obtain ⟨u₂, q', hr', hsame'⟩ := ih hrel (hes.tail hmap) hr
      exact ⟨u₂, q', runEvents_cons.mpr ⟨_, _, _, he', hr', rfl⟩, hsame'⟩

/-! ## The indices of the rows -/

/-- The rows between two states: their indices ascend, and are as many as the entries at most. -/
structure Ascending (s s' : LogState) (rows : List Row) : Prop where
  /-- The indices ascend. -/
  pairwise : rows.Pairwise fun r r' => r.nItemIndex < r'.nItemIndex
  /-- They start from the first state's number of entries. -/
  le : ∀ r ∈ rows, s.nItemIndex ≤ r.nItemIndex
  /-- They are below the last state's. -/
  lt : ∀ r ∈ rows, r.nItemIndex < s'.nItemIndex
  /-- The number of entries does not decrease. -/
  mono : s.nItemIndex ≤ s'.nItemIndex

/-- No rows. -/
theorem Ascending.nil {s s' : LogState} (h : s.nItemIndex ≤ s'.nItemIndex) : Ascending s s' [] :=
  ⟨.nil, nofun, nofun, h⟩

/-- Rows of two parts. -/
theorem Ascending.append {s s₁ s' : LogState} {r r' : List Row} (h : Ascending s s₁ r)
    (h' : Ascending s₁ s' r') : Ascending s s' (r ++ r') where
  pairwise := List.pairwise_append.mpr ⟨h.pairwise, h'.pairwise, fun a ha b hb =>
    (h.lt a ha).trans_le (h'.le b hb)⟩
  le a ha := (List.mem_append.mp ha).elim (h.le a) fun ha => h.mono.trans (h'.le a ha)
  lt a ha := (List.mem_append.mp ha).elim (fun ha => (h.lt a ha).trans_le h'.mono) (h'.lt a)
  mono := h.mono.trans h'.mono

/-- The loop of `_decodeEvent` counts at most its turns, and its rows have the table offset. -/
theorem decodeEventLoop_ascending {nEventType nBufLen turns nPos nPos' : ℕ} {s s' : LogState}
    {rows : List Row} {m : Bytes} (hfit : s.nItemIndex + turns < 4294967296)
    (h : decodeEventLoop nEventType nBufLen turns nPos s m = .ok (nPos', s', rows)) :
    Ascending s s' rows ∧ s'.nItemIndex ≤ s.nItemIndex + turns ∧
      (∀ r ∈ rows, r.nTablePos = s.nTablePos ∧ s.nStartIndex ≤ r.nItemIndex) := by
  induction turns generalizing nPos s rows with
  | zero =>
    obtain ⟨rfl, rfl, rfl⟩ := (decodeEventLoop_done (decodeEventLoop_zero h)).mp h
    exact ⟨.nil le_rfl, le_rfl, nofun⟩
  | succ turns ih =>
    by_cases hpos : nPos < nBufLen
    · obtain ⟨row, nPos₁, content, rest, -, hcontent, hloop, rfl⟩ :=
        (decodeEventLoop_turn hpos).mp h
      -- The entry is counted where it is.
      obtain ⟨-, -, hnamed⟩ := LogState.content_iff.mp hcontent
      have htable : content.nTablePos = s.nTablePos := by
        rw [hnamed]
        rfl
      have hindex : content.nItemIndex = s.nItemIndex := by
        rw [hnamed]
        rfl
      have hnext : s.nextItem.nItemIndex = s.nItemIndex + 1 := u32_of_lt (by omega)
      obtain ⟨hasc, hle, hrest⟩ := ih (by omega) hloop
      have hone : Ascending s s.nextItem
          (if s.nStartIndex ≤ s.nItemIndex then [content] else []) := by
        have hmono : s.nItemIndex ≤ s.nextItem.nItemIndex := by omega
        split
        · refine ⟨List.pairwise_singleton _ _, fun r hr => ?_, fun r hr => ?_, hmono⟩
          · obtain rfl := List.mem_singleton.mp hr
            exact hindex.ge
          · obtain rfl := List.mem_singleton.mp hr
            omega
        · exact .nil hmono
      have hcons :
          (if s.nStartIndex ≤ s.nItemIndex then content :: rest else rest) =
          (if s.nStartIndex ≤ s.nItemIndex then [content] else []) ++ rest := by
        split <;> rfl
      rw [hcons]
      refine ⟨hone.append hasc, by omega, fun r hr => ?_⟩
      rcases List.mem_append.mp hr with hr | hr
      · split at hr
        · rename_i hstart
          obtain rfl := List.mem_singleton.mp hr
          exact ⟨htable, hindex.ge.trans' hstart⟩
        · cases hr
      · exact hrest r hr
    · obtain ⟨rfl, rfl, rfl⟩ := (decodeEventLoop_done hpos).mp h
      exact ⟨.nil le_rfl, by omega, nofun⟩

/-- An event that is at least as long as the header that its type has, if it is a rows event. -/
def HasRowsHeader (e : Bytes) : Prop :=
  IsRowsType (eventType e) → ∃ nEndFlag nOffSet,
    rowsHeader (e.drop 19) = .ok (nEndFlag, nOffSet) ∧ 19 + nOffSet ≤ e.length

/-- A rows event counts at most its bytes. -/
theorem processRows_ascending {s s' : LogState} {e : Bytes} {rows : List Row} (he : IsEvent e)
    (hrows : IsRowsType (eventType e)) (hheader : HasRowsHeader e)
    (hfit : s.nItemIndex + e.length < 4294967296)
    (h : processRows s (eventType e) e.length (e.drop 19) = .ok (s', rows)) :
    Ascending s s' rows ∧ s'.nItemIndex ≤ s.nItemIndex + e.length ∧
      (∀ r ∈ rows, r.nTablePos = s.nTablePos ∧ s.nStartIndex ≤ r.nItemIndex) := by
  obtain ⟨nEndFlag, nOffSet, nPos, hread, hloop⟩ := processRows_iff.mp h
  obtain ⟨nEndFlag', nOffSet', hread', hlen⟩ := hheader hrows
  obtain ⟨rfl, rfl⟩ := Prod.mk.inj (Except.ok.inj (hread.symm.trans hread'))
  have h19 := he.header
  have hlt := he.length_lt
  have hsize : sub32 (sub32 e.length 19) nOffSet = e.length - 19 - nOffSet := by
    rw [sub32_of_le h19 hlt, sub32_of_le (by omega) (by omega)]
  have hindex := s.nItemIndex_ended nEndFlag
  rw [hsize] at hloop
  unfold decodeEvent at hloop
  obtain ⟨hasc, hle, hrest⟩ := decodeEventLoop_ascending (by rw [hindex]; omega) hloop
  rw [hindex] at hle
  rw [LogState.nTablePos_ended, LogState.nStartIndex_ended] at hrest
  exact ⟨⟨hasc.pairwise, hindex ▸ hasc.le, hasc.lt, hindex ▸ hasc.mono⟩, by omega, hrest⟩

/-- An event that is no TABLE_MAP event counts at most its bytes. -/
theorem step_ascending {s s' : LogState} {e : Bytes} {rows : List Row} (he : IsEvent e)
    (hmap : eventType e ≠ tableMapEvent) (hheader : HasRowsHeader e)
    (hfit : s.nItemIndex + e.length < 4294967296) (h : handleEvent s e = .ok (s', rows)) :
    Ascending s s' rows ∧ s'.nItemIndex ≤ s.nItemIndex + e.length ∧
      (∀ r ∈ rows, r.nTablePos = s.nTablePos ∧ s.nStartIndex ≤ r.nItemIndex) := by
  cases stepEvent_iff.mp h with
  | tableMap htype _ => exact absurd htype hmap
  | rotate _ _ =>
    have hindex : ∀ name, (processRotate (s.advance e.length) name).nItemIndex = s.nItemIndex := by
      intro name
      unfold processRotate
      split <;> rfl
    exact ⟨.nil (hindex _).ge, (hindex _).le.trans (Nat.le_add_right _ _), nofun⟩
  | rows htype hr =>
    obtain ⟨hasc, hle, hrest⟩ :=
      processRows_ascending (s := s.advance e.length) he htype hheader hfit hr
    exact ⟨⟨hasc.pairwise, hasc.le, hasc.lt, hasc.mono⟩, hle, hrest⟩
  | other _ _ _ =>
    have hindex : (s.advance e.length).nItemIndex = s.nItemIndex := rfl
    exact ⟨.nil hindex.ge, by omega, nofun⟩

/-- Events none of which is a TABLE_MAP event count at most their bytes. -/
theorem run_ascending {s s' : LogState} {es : List Bytes} {rows : List Row}
    (hes : ∀ e ∈ es, IsEvent e ∧ eventType e ≠ tableMapEvent ∧ HasRowsHeader e)
    (hfit : s.nItemIndex + es.flatten.length < 4294967296)
    (h : runEvents s es = .ok (s', rows)) :
    Ascending s s' rows ∧ s'.nItemIndex ≤ s.nItemIndex + es.flatten.length := by
  induction es generalizing s rows with
  | nil =>
    obtain ⟨rfl, rfl⟩ := Prod.mk.inj (Except.ok.inj h)
    exact ⟨.nil le_rfl, Nat.le_add_right _ _⟩
  | cons e es ih =>
    obtain ⟨s₁, r, r', he, hr, rfl⟩ := runEvents_cons.mp h
    obtain ⟨hev, hmap, hheader⟩ := hes e List.mem_cons_self
    rw [List.flatten_cons, List.length_append] at hfit ⊢
    obtain ⟨hasc, hle, -⟩ := step_ascending hev hmap hheader (by omega) he
    obtain ⟨hasc', hle'⟩ := ih (fun x hx => hes x (List.mem_cons_of_mem e hx)) (by omega) hr
    exact ⟨hasc.append hasc', by omega⟩

/-- Events that are neither TABLE_MAP nor ROTATE events leave the table offset and the start index
as they are. -/
theorem run_keeps {s s' : LogState} {es : List Bytes} {rows : List Row}
    (hes : ∀ e ∈ es, eventType e ≠ tableMapEvent ∧ eventType e ≠ rotateEvent)
    (h : runEvents s es = .ok (s', rows)) :
    s'.nTablePos = s.nTablePos ∧ s'.nStartIndex = s.nStartIndex := by
  induction es generalizing s rows with
  | nil =>
    obtain ⟨rfl, rfl⟩ := Prod.mk.inj (Except.ok.inj h)
    exact ⟨rfl, rfl⟩
  | cons e es ih =>
    obtain ⟨s₁, r, r', he, hr, rfl⟩ := runEvents_cons.mp h
    obtain ⟨hmap, hrotate⟩ := hes e List.mem_cons_self
    obtain ⟨hpos, hstart⟩ := ih (fun x hx => hes x (List.mem_cons_of_mem e hx)) hr
    have hstep : s₁.nTablePos = s.nTablePos ∧ s₁.nStartIndex = s.nStartIndex := by
      cases stepEvent_iff.mp he with
      | tableMap htype _ => exact absurd htype hmap
      | rotate htype _ => exact absurd htype hrotate
      | rows _ hrows =>
        obtain ⟨stat, i, rfl, -⟩ := processRows_state hrows
        exact ⟨rfl, rfl⟩
      | other _ _ _ => exact ⟨rfl, rfl⟩
    exact ⟨hpos.trans hstep.1, hstart.trans hstep.2⟩

/-! ## Where a row comes from -/

/-- The event that a row comes from. -/
theorem exists_event_of_row {s s' : LogState} {es : List Bytes} {a b : List Row} {row : Row}
    (h : runEvents s es = .ok (s', a ++ row :: b)) :
    ∃ xs e ys v v' rx a' b' ry, es = xs ++ e :: ys ∧ runEvents s xs = .ok (v, rx) ∧
      handleEvent v e = .ok (v', a' ++ row :: b') ∧ runEvents v' ys = .ok (s', ry) ∧
      a = rx ++ a' ∧ b = b' ++ ry := by
  induction es generalizing s a with
  | nil =>
    obtain ⟨-, hrows⟩ := Prod.mk.inj (Except.ok.inj h)
    exact absurd hrows.symm (List.append_ne_nil_of_right_ne_nil _ (List.cons_ne_nil _ _))
  | cons e es ih =>
    obtain ⟨s₁, r, r', he, hr, hrows⟩ := runEvents_cons.mp h
    have hlater : ∀ a', a = r ++ a' → r' = a' ++ row :: b →
        ∃ xs e' ys v v' rx a' b' ry, e :: es = xs ++ e' :: ys ∧ runEvents s xs = .ok (v, rx) ∧
          handleEvent v e' = .ok (v', a' ++ row :: b') ∧ runEvents v' ys = .ok (s', ry) ∧
          a = rx ++ a' ∧ b = b' ++ ry := by
      rintro a' rfl rfl
      obtain ⟨xs, e', ys, v, v', rx, c, b', ry, rfl, hxs, he', hys, rfl, rfl⟩ := ih hr
      exact ⟨e :: xs, e', ys, v, v', r ++ rx, c, b', ry, rfl,
        runEvents_cons.mpr ⟨_, _, _, he, hxs, rfl⟩, he', hys,
        (List.append_assoc _ _ _).symm, rfl⟩
    rcases List.append_eq_append_iff.mp hrows.symm with ⟨a', ha, hr'⟩ | ⟨c, hc, hrow⟩
    · exact hlater a' ha hr'
    · cases c with
      | nil => exact hlater [] (by rw [hc, List.append_nil, List.append_nil]) hrow.symm
      | cons x c =>
        obtain ⟨rfl, rfl⟩ := List.cons.inj hrow
        exact ⟨[], e, es, s, s₁, [], a, c, r', rfl, rfl, hc ▸ he, hr, rfl, rfl⟩

/-- The last TABLE_MAP event among events. -/
theorem exists_last_tableMap {es : List Bytes} (h : ∃ x ∈ es, eventType x = tableMapEvent) :
    ∃ xs m g, es = xs ++ m :: g ∧ eventType m = tableMapEvent ∧
      ∀ x ∈ g, eventType x ≠ tableMapEvent := by
  induction es with
  | nil =>
    obtain ⟨x, hx, -⟩ := h
    cases hx
  | cons e es ih =>
    by_cases hes : ∃ x ∈ es, eventType x = tableMapEvent
    · obtain ⟨xs, m, g, rfl, hm, hg⟩ := ih hes
      exact ⟨e :: xs, m, g, rfl, hm, hg⟩
    · obtain ⟨x, hx, hmap⟩ := h
      rcases List.mem_cons.mp hx with rfl | hx
      · exact ⟨[], x, es, rfl, hmap, fun y hy hy' => hes ⟨y, hy, hy'⟩⟩
      · exact absurd ⟨x, hx, hmap⟩ hes

/-- The events in front of the first TABLE_MAP event, and those from there on. -/
theorem exists_first_tableMap (es : List Bytes) :
    ∃ g ys, es = g ++ ys ∧ (∀ x ∈ g, eventType x ≠ tableMapEvent) ∧ Grouped ys := by
  induction es with
  | nil => exact ⟨[], [], rfl, nofun, fun as e bs h _ => by simp at h⟩
  | cons e es ih =>
    by_cases he : eventType e = tableMapEvent
    · exact ⟨[], e :: es, rfl, nofun, grouped_cons_tableMap he es⟩
    · obtain ⟨g, ys, rfl, hg, hys⟩ := ih
      refine ⟨e :: g, ys, rfl, fun x hx => ?_, hys⟩
      rcases List.mem_cons.mp hx with rfl | hx
      · exact he
      · exact hg x hx

/-! ## Two runs -/

/-- A binlog file as a master writes it. -/
structure MasterFile extends LogFile where
  /-- A rows event comes after a TABLE_MAP event of the file. -/
  grouped : Grouped events
  /-- A rows event has its header. -/
  hasRowsHeader : ∀ e ∈ events, HasRowsHeader e
  /-- An offset in the file fits into the four bytes of a position. -/
  size : offsetAfter events < 4294967296

/-- What the master sends of whole files. -/
def dumpFiles (files : List MasterFile) : List Bytes := dump (files.map MasterFile.toLogFile)

/-- A ROTATE event is no rows event. -/
theorem IsRotate.not_rows {e name : Bytes} (h : IsRotate e name) : ¬IsRowsType (eventType e) := by
  rw [h.type]
  decide

/-- A TABLE_MAP event is no rows event. -/
theorem tableMap_not_rows {e : Bytes} (h : eventType e = tableMapEvent) :
    ¬IsRowsType (eventType e) := by
  rw [h]
  decide

/-- A rows event is no TABLE_MAP event. -/
theorem rows_not_tableMap {e : Bytes} (h : IsRowsType (eventType e)) :
    eventType e ≠ tableMapEvent := fun hmap => tableMap_not_rows hmap h

/-- In whole files, every rows event comes after a TABLE_MAP event. -/
theorem grouped_dumpFiles (files : List MasterFile) : Grouped (dumpFiles files) := by
  induction files with
  | nil => exact fun as e bs h _ => by simp [dumpFiles, dump] at h
  | cons f files ih => exact (f.grouped.append ih).cons f.rotate_isRotate.not_rows

/-- A run from position 4 over files of a master that emits the row, while it is in the file `f`,
and then the rows `after`. From a TABLE_MAP event in front of the row on, each event is processed on
its own bytes; up to there the run is any. -/
structure EmitsIn (pre : List MasterFile) (f : MasterFile) (post : List MasterFile)
    (p : LogState) (row : Row) (after : List Row) : Prop where
  /-- The run up to the TABLE_MAP event, over the rest of the file, and over the files behind. -/
  run : ∃ es m ys s₁ s₂ s₃ r₁ a b r₃, f.events = es ++ m :: ys ∧ eventType m = tableMapEvent ∧
    Runs p (dumpFiles pre ++ f.rotate :: es) s₁ r₁ ∧
    runEvents s₁ (m :: ys) = .ok (s₂, a ++ row :: b) ∧
    runEvents s₂ (dumpFiles post) = .ok (s₃, r₃) ∧ after = b ++ r₃

/-- Where the row comes from: a TABLE_MAP event `m` behind the events `es`, and events up to the
next TABLE_MAP event. -/
structure Origin (f : MasterFile) (post : List MasterFile) (row : Row) (after : List Row)
    (es : List Bytes) (m : Bytes) (g ys : List Bytes) (w' : LogState) : Prop where
  /-- The events of the file. -/
  events : f.events = es ++ m :: (g ++ ys)
  /-- The TABLE_MAP event. -/
  tableMap : eventType m = tableMapEvent
  /-- There is none in the group. -/
  group : ∀ x ∈ g, eventType x ≠ tableMapEvent
  /-- Behind it the next one comes first. -/
  grouped : Grouped ys
  /-- The run in front of the TABLE_MAP event is at its offset. -/
  step : ∃ w, InFile w (offsetAfter es) ∧ handleEvent w m = .ok (w', [])
  /-- The run over the group, and what comes behind it. -/
  run : ∃ z z' before rest last, runEvents w' g = .ok (z, before ++ row :: rest) ∧
    runEvents z (ys ++ dumpFiles post) = .ok (z', last) ∧ after = rest ++ last
  /-- The row has the offset. -/
  nTablePos : row.nTablePos = offsetAfter es
  /-- The first run starts from an index at most that of the row. -/
  nStartIndex : w'.nStartIndex ≤ row.nItemIndex

/-- A row comes from a rows event. -/
theorem isRows_of_row {s s' : LogState} {e : Bytes} {a b : List Row} {row : Row}
    (h : handleEvent s e = .ok (s', a ++ row :: b)) : IsRowsType (eventType e) := by
  by_contra hno
  have hnil := rows_of_other hno h
  exact absurd hnil (List.append_ne_nil_of_right_ne_nil _ (List.cons_ne_nil _ _))

/-- A run in which every event is processed on its own bytes emits a row behind a TABLE_MAP event of
its file. -/
theorem emitsIn_of_runEvents {pre post : List MasterFile} {f : MasterFile} {p s₁ s₂ s₃ : LogState}
    {r₁ a b r₃ : List Row} {row : Row} (hpre : runEvents p (dumpFiles pre) = .ok (s₁, r₁))
    (hf : runEvents s₁ (f.rotate :: f.events) = .ok (s₂, a ++ row :: b))
    (hpost : runEvents s₂ (dumpFiles post) = .ok (s₃, r₃)) :
    EmitsIn pre f post p row (b ++ r₃) := by
  obtain ⟨xs, e, ys, v, v', rx, a', b', ry, hsplit, hxs, he, hys, rfl, rfl⟩ :=
    exists_event_of_row hf
  have hrows := isRows_of_row he
  -- The event is not the ROTATE event in front of the file.
  obtain ⟨xs, rfl, hevents⟩ : ∃ xs', xs = f.rotate :: xs' ∧ f.events = xs' ++ e :: ys := by
    cases xs with
    | nil =>
      obtain ⟨rfl, -⟩ := List.cons.inj hsplit
      exact absurd hrows f.rotate_isRotate.not_rows
    | cons x xs =>
      obtain ⟨rfl, hevents⟩ := List.cons.inj hsplit
      exact ⟨xs, rfl, hevents⟩
  obtain ⟨es, m, g, rfl, hm, -⟩ := exists_last_tableMap (f.grouped _ _ _ hevents hrows)
  obtain ⟨w, re, rg, hes, hmg, rfl⟩ :=
    runEvents_split (show runEvents s₁ ((f.rotate :: es) ++ m :: g) = _ from hxs)
  have hrest : runEvents v (e :: ys) = .ok (s₂, (a' ++ row :: b') ++ ry) :=
    runEvents_cons.mpr ⟨v', _, ry, he, hys, rfl⟩
  refine ⟨es, m, g ++ e :: ys, w, s₂, s₃, _, rg ++ a', b' ++ ry, r₃, ?_, hm,
    (runs_of_runEvents hpre).append (runs_of_runEvents hes), ?_, hpost, rfl⟩
  · rw [hevents, List.append_assoc, List.cons_append]
  · rw [← List.cons_append, runEvents_append hmg hrest]
    simp only [List.append_assoc, List.cons_append]

/-- Every row of a run from position 4 has an origin. -/
theorem EmitsIn.origin {pre : List MasterFile} {f : MasterFile} {post : List MasterFile}
    {p : LogState} {row : Row} {after : List Row} (hp : StartsAtFour p)
    (h : EmitsIn pre f post p row after) :
    ∃ es m g ys w', Origin f post row after es m g ys w' := by
  obtain ⟨es₀, m₀, ys₀, s₁, s₂, s₃, r₁, a, b, r₃, hf, hm₀, hpre, hrun, hpost, rfl⟩ := h.run
  obtain ⟨xs, e, ys, v, v', rx, a', b', ry, hsplit, hxs, he, hys, rfl, rfl⟩ :=
    exists_event_of_row hrun
  have hrows := isRows_of_row he
  -- The event is behind the first TABLE_MAP event of the run on own bytes.
  have hbehind : ∃ x ∈ xs, eventType x = tableMapEvent := by
    cases xs with
    | nil =>
      obtain ⟨rfl, -⟩ := List.cons.inj hsplit
      exact absurd hrows (tableMap_not_rows hm₀)
    | cons x xs =>
      obtain ⟨rfl, -⟩ := List.cons.inj hsplit
      exact ⟨m₀, List.mem_cons_self, hm₀⟩
  obtain ⟨es, m, g, rfl, hm, hg⟩ := exists_last_tableMap hbehind
  obtain ⟨g', ys, rfl, hg', hys'⟩ := exists_first_tableMap ys
  have hfile : f.events = (es₀ ++ es) ++ m :: (g ++ e :: g' ++ ys) := by
    rw [hf, hsplit]
    simp only [List.append_assoc, List.cons_append]
  have hgroup : ∀ x ∈ g ++ e :: g', eventType x ≠ tableMapEvent := by
    intro x hx
    rcases List.mem_append.mp hx with hx | hx
    · exact hg x hx
    · rcases List.mem_cons.mp hx with rfl | hx
      · exact rows_not_tableMap hrows
      · exact hg' x hx
  have hmem : ∀ x ∈ g ++ e :: g', x ∈ f.events := fun x hx =>
    hfile ▸ List.mem_append_right _ (List.mem_cons_of_mem m (List.mem_append_left ys hx))
  have hm' : m ∈ f.events := hfile ▸ List.mem_append_right _ List.mem_cons_self
  -- The parts of the run.
  obtain ⟨w, re, rm, hes, hmg, rfl⟩ := runEvents_split hxs
  obtain ⟨w', rm', rg, hmap, hrg, rfl⟩ := runEvents_cons.mp hmg
  obtain rfl := rows_of_other (tableMap_not_rows hm) hmap
  obtain ⟨z, r₁', r₂', hg'run, hysrun, rfl⟩ := runEvents_split hys
  -- The counters at the TABLE_MAP event.
  have hfront := hpre.append (runs_of_runEvents hes)
  rw [List.append_assoc, List.cons_append] at hfront
  have hin : InFile w (offsetAfter (es₀ ++ es)) := hfront.inFile hp hfile
  obtain ⟨hpos, -, -, hindex⟩ := hin.tableMap (f.isEvent m hm') hm hmap
  have hsize : offsetAfter (es₀ ++ es) + m.length + (g.flatten.length + e.length) <
      4294967296 := by
    have := f.size
    rw [hfile] at this
    simp only [offsetAfter, List.flatten_append, List.flatten_cons, List.length_append] at this ⊢
    omega
  rw [u32_of_lt (by omega)] at hpos
  -- The counters at the event of the row.
  have hkeep : v.nTablePos = w'.nTablePos ∧ v.nStartIndex = w'.nStartIndex := by
    refine run_keeps (fun x hx => ⟨hg x hx, ?_⟩) hrg
    have hsplit' : f.events = ((es₀ ++ es) ++ m :: g) ++ e :: (g' ++ ys) := by
      rw [hfile]
      simp only [List.append_assoc, List.cons_append]
    exact f.not_rotate hsplit' (List.mem_append_right _ (List.mem_cons_of_mem m hx))
  have hle : v.nItemIndex ≤ w'.nItemIndex + g.flatten.length :=
    (run_ascending (fun x hx => ⟨f.isEvent x (hmem x (List.mem_append_left _ hx)), hg x hx,
      f.hasRowsHeader x (hmem x (List.mem_append_left _ hx))⟩) (by omega) hrg).2
  have he' : e ∈ f.events := hmem e (List.mem_append_right g List.mem_cons_self)
  obtain ⟨-, -, hrow⟩ := step_ascending (f.isEvent e he') (rows_not_tableMap hrows)
    (f.hasRowsHeader e he') (by omega) he
  obtain ⟨hrowPos, hrowStart⟩ := hrow row (List.mem_append_right a' List.mem_cons_self)
  refine ⟨es₀ ++ es, m, g ++ e :: g', ys, w', hfile, hm, hgroup, hys', ⟨w, hin, hmap⟩,
    ⟨z, s₃, rg ++ a', b' ++ r₁', r₂' ++ r₃, ?_, ?_, ?_⟩, ?_, ?_⟩
  · have hfrom : runEvents v (e :: g') = .ok (z, (a' ++ row :: b') ++ r₁') :=
      runEvents_cons.mpr ⟨v', _, r₁', he, hg'run, rfl⟩
    rw [runEvents_append hrg hfrom]
    simp only [List.append_assoc, List.cons_append]
  · exact runEvents_append hysrun hpost
  · simp only [List.append_assoc]
  · rw [hrowPos, hkeep.1, hpos]
  · rw [← hkeep.2]
    exact hrowStart

/-- The events from the offset `p` on, the first one being at the offset `off`. -/
def eventsAt (p : ℕ) : ℕ → List Bytes → List Bytes
  | _, [] => []
  | off, e :: es => if p ≤ off then e :: es else eventsAt p (off + e.length) es

/-- They are those behind the events that end at the offset. -/
theorem eventsAt_append {off : ℕ} {es : List Bytes} (hes : ∀ e ∈ es, e ≠ []) (e : Bytes)
    (es' : List Bytes) :
    eventsAt (off + es.flatten.length) off (es ++ e :: es') = e :: es' := by
  induction es generalizing off with
  | nil => exact if_pos (Nat.le_refl _)
  | cons x es ih =>
    have hpos : 0 < x.length := List.length_pos_iff.mpr (hes x List.mem_cons_self)
    have hlen : (x :: es).flatten.length = x.length + es.flatten.length := by
      rw [List.flatten_cons, List.length_append]
    rw [hlen, List.cons_append, eventsAt, if_neg (by omega), ← Nat.add_assoc]
    exact ih fun y hy => hes y (List.mem_cons_of_mem x hy)

/-- What the master sends for a dump of the file from the offset `p`, which is behind its start: an
artificial ROTATE event, an artificial format description event, the events of the file from there
on and the files behind it. -/
def dumpFrom (rotate formatDescription : Bytes) (f : MasterFile) (p : ℕ) (post : List MasterFile) :
    List Bytes :=
  rotate :: formatDescription :: (eventsAt p 4 f.events ++ dumpFiles post)

/-- The events of a dump from an offset are events. -/
theorem isEvent_of_mem_dumpFrom {rotate formatDescription : Bytes} {f : MasterFile} {p : ℕ}
    {post : List MasterFile} {name : Bytes} (hrotate : IsRotate rotate name)
    (hformat : IsEvent formatDescription) {x : Bytes}
    (hx : x ∈ dumpFrom rotate formatDescription f p post) : IsEvent x := by
  have hat : ∀ (es : List Bytes) (off : ℕ), ∀ y ∈ eventsAt p off es, y ∈ es := by
    intro es
    induction es with
    | nil => exact fun off y hy => hy
    | cons e es ih =>
      intro off y hy
      unfold eventsAt at hy
      split at hy
      · exact hy
      · exact List.mem_cons_of_mem e (ih _ y hy)
  rcases List.mem_cons.mp hx with rfl | hx
  · exact hrotate.isEvent
  rcases List.mem_cons.mp hx with rfl | hx
  · exact hformat
  rcases List.mem_append.mp hx with hx | hx
  · exact f.isEvent x (hat _ _ x hx)
  · exact isEvent_of_mem_dump hx

/-- A ROTATE event whose name fits is processed. -/
theorem handleEvent_rotate (s : LogState) {e name : Bytes} (he : IsRotate e name)
    (hname : name.length ≤ nameMaxLength) :
    handleEvent s e = .ok (processRotate (s.advance e.length) name, []) := by
  obtain ⟨position, hposition, hbody⟩ := he.body
  have hlen : e.length = 27 + name.length := by
    have := congrArg List.length hbody
    have := he.isEvent.header
    simp only [List.length_drop, List.length_append] at *
    omega
  have hsub : sub32 e.length 27 = name.length := by
    rw [sub32_of_le (by omega) he.isEvent.length_lt]
    omega
  refine stepEvent_iff.mpr (.rotate he.type ?_)
  unfold TableMap.copyName
  rw [hsub, if_neg (by omega), hbody]
  have hread := bytesAt_append (e := position) (s := name) (t := []) hposition rfl
  rwa [List.append_nil] at hread

/-- A format description event is counted only. -/
theorem handleEvent_formatDescription (s : LogState) {e : Bytes}
    (he : eventType e = formatDescriptionEvent) : handleEvent s e = .ok (s.advance e.length, []) :=
  stepEvent_iff.mpr (.other (by rw [he]; decide) (by rw [he]; decide) (by rw [he]; decide))

/-- A ROTATE event leaves what the start was set to. -/
theorem processRotate_start (s : LogState) (name : Bytes) :
    (processRotate s name).nCurStat = s.nCurStat ∧
      (processRotate s name).nStartPos = s.nStartPos ∧
      (processRotate s name).nStartIndex = s.nStartIndex := by
  unfold processRotate
  split <;> exact ⟨rfl, rfl, rfl⟩

/-- The first TABLE_MAP event of a run that starts behind the start of a file is taken to be at the
start position. -/
theorem processTableMap_start {s : LogState} (h0 : s.nCurStat = 0) (h4 : 4 < s.nStartPos) (n : ℕ)
    (t : TableMap) : processTableMap s n t =
      { s with
        tableMap := t
        nTablePos := s.nStartPos
        nCurStat := 1
        nItemIndex := 0
        nCurPos := n } := by
  unfold processTableMap
  dsimp only
  rw [if_neg (not_not.mpr h0), if_pos h4]

/-- The second run up to the TABLE_MAP event of the row: it is in the same place as the first one,
and leaves out the entries in front of the row. -/
theorem resumed_start {p₀ p : RowLogParser} {name : Bytes} {off k : ℕ}
    (hinit : p₀.init name off k = .ok p) (hoff : 4 < off) {rotate formatDescription m : Bytes}
    (hrotate : IsRotate rotate name)
    (hformat : eventType formatDescription = formatDescriptionEvent) {w w' : LogState}
    (hm : IsEvent m) (hmap : eventType m = tableMapEvent) (hw : InFile w off)
    (hlt : off < 4294967296) (hstep : handleEvent w m = .ok (w', []))
    (hstart : w'.nStartIndex ≤ k) :
    ∃ u, runEvents p.toLogState [rotate, formatDescription, m] = .ok (u, []) ∧ Resumed w' u ∧
      u.nStartIndex = k := by
  obtain ⟨hpos, hcur, hstat, hindex⟩ := hw.tableMap hm hmap hstep
  obtain ⟨t, ht, rfl⟩ : ∃ t, TableMap.process (m.drop 19) = .ok t ∧
      w' = processTableMap (w.advance m.length) m.length t := by
    cases stepEvent_iff.mp hstep with
    | tableMap _ ht => exact ⟨_, ht, rfl⟩
    | rotate htype _ => rw [hmap] at htype; cases htype
    | other hother _ _ => exact absurd hmap hother
    | rows htype _ => exact absurd htype (tableMap_not_rows hmap)
  have hname : name.length ≤ nameMaxLength ∧ p.nCurStat = 0 ∧ p.nStartPos = off ∧
      p.nStartIndex = k := by
    unfold RowLogParser.init at hinit
    split at hinit
    · cases hinit
    · obtain rfl := Except.ok.inj hinit
      exact ⟨by omega, rfl, rfl, rfl⟩
  obtain ⟨hname, h0, h4, hk⟩ := hname
  obtain ⟨q0, q4, qk⟩ := processRotate_start (p.toLogState.advance rotate.length) name
  -- The events in front of the TABLE_MAP event leave the start as `Init` has set it.
  have hlast : ∀ s, runEvents s [m] =
      .ok (processTableMap (s.advance m.length) m.length t, []) := fun s =>
    runEvents_cons.mpr ⟨_, [], [], stepEvent_iff.mpr (.tableMap hmap ht), rfl, rfl⟩
  have hrun := runEvents_cons.mpr ⟨_, _, _, handleEvent_rotate p.toLogState hrotate hname,
    runEvents_cons.mpr ⟨_, _, _, handleEvent_formatDescription _ hformat, hlast _, rfl⟩, rfl⟩
  have hpos0 : (((processRotate (p.toLogState.advance rotate.length) name).advance
      formatDescription.length).advance m.length).nCurStat = 0 := q0.trans h0
  have hpos4 : (((processRotate (p.toLogState.advance rotate.length) name).advance
      formatDescription.length).advance m.length).nStartPos = off := q4.trans h4
  have hposk : (((processRotate (p.toLogState.advance rotate.length) name).advance
      formatDescription.length).advance m.length).nStartIndex = k := qk.trans hk
  rw [processTableMap_start hpos0 (hpos4 ▸ hoff)] at hrun
  refine ⟨_, hrun, ⟨?_, hcur.symm, hindex.symm, ?_, ⟨?_, nofun⟩, hposk ▸ hstart⟩, hposk⟩
  · rw [hpos, u32_of_lt hlt]
    exact hpos4
  · unfold processTableMap
    dsimp only
    split_ifs <;> rfl
  · rw [hstat]
    exact nofun

/-- An event is not empty. -/
theorem IsEvent.ne_nil {e : Bytes} (h : IsEvent e) : e ≠ [] := by
  have := h.header
  exact List.ne_nil_of_length_pos (by omega)

/-- From the index of one of the rows on, ascending rows are that row and those behind it. -/
theorem Ascending.filter {s s' : LogState} {before rest : List Row} {row : Row}
    (h : Ascending s s' (before ++ row :: rest)) :
    (before ++ row :: rest).filter (fun r => row.nItemIndex ≤ r.nItemIndex) = row :: rest := by
  obtain ⟨-, hrest, hbefore⟩ := List.pairwise_append.mp h.pairwise
  have hafter := (List.pairwise_cons.mp hrest).1
  rw [List.filter_append, List.filter_eq_nil_iff.mpr, List.filter_eq_self.mpr, List.nil_append]
  · intro r hr
    rcases List.mem_cons.mp hr with rfl | hr
    · exact decide_eq_true le_rfl
    · exact decide_eq_true (hafter r hr).le
  · intro r hr
    have hlt := hbefore r hr row List.mem_cons_self
    simpa using hlt

/-- Resume exactness: after a run from position 4 that emits a row with a table offset and an item
index, the run that starts from these emits the row and the rows behind it, the log names aside. -/
theorem resume_exact {pre : List MasterFile} {f : MasterFile} {post : List MasterFile}
    {p₀ p q₀ q : RowLogParser} {pLogName rotate formatDescription : Bytes} {nStartIndex : ℕ}
    {row : Row} {after : List Row} (hinit : p₀.init pLogName 4 nStartIndex = .ok p)
    (hrun : EmitsIn pre f post p.toLogState row after)
    (hinit' : q₀.init f.name row.nTablePos row.nItemIndex = .ok q)
    (hrotate : IsRotate rotate f.name) (hformat : IsEvent formatDescription)
    (htype : eventType formatDescription = formatDescriptionEvent) :
    ∃ rows, rows.map Row.unnamed = (row :: after).map Row.unnamed ∧
      (∃ u, runEvents q.toLogState (dumpFrom rotate formatDescription f row.nTablePos post) =
        .ok (u, rows)) ∧
      ∀ pieces, pieces.flatten = (dumpFrom rotate formatDescription f row.nTablePos post).flatten →
        Fits [] pieces → ∃ l, Listener.feedAll ⟨[], q⟩ pieces = .ok (l, rows) := by
  obtain ⟨es, m, g, ys, w', h⟩ := hrun.origin (startsAtFour_init hinit)
  obtain ⟨w, hin, hstep⟩ := h.step
  obtain ⟨z, z', before, rest, last, hg, hys, rfl⟩ := h.run
  have hm : IsEvent m := f.isEvent m (h.events ▸ List.mem_append_right es List.mem_cons_self)
  have hsize : offsetAfter es + (m.length + g.flatten.length) < 4294967296 := by
    have := f.size
    rw [h.events] at this
    simp only [offsetAfter, List.flatten_append, List.flatten_cons, List.length_append] at this ⊢
    omega
  have hes : ∀ e ∈ es, e ≠ [] := fun e he =>
    (f.isEvent e (h.events ▸ List.mem_append_left _ he)).ne_nil
  -- A file starts with its format description event.
  have hoff : 4 < offsetAfter es := by
    cases es with
    | nil =>
      have hhead := f.head_type
      rw [h.events, List.nil_append, List.head?_cons, Option.map_some, h.tableMap] at hhead
      cases hhead
    | cons e es =>
      have hpos := List.length_pos_iff.mpr (hes e List.mem_cons_self)
      rw [offsetAfter, List.flatten_cons, List.length_append]
      omega
  have hdump : dumpFrom rotate formatDescription f row.nTablePos post =
      [rotate, formatDescription, m] ++ (g ++ (ys ++ dumpFiles post)) := by
    unfold dumpFrom
    rw [h.nTablePos, h.events, offsetAfter, eventsAt_append hes]
    simp only [List.cons_append, List.nil_append, List.append_assoc]
  rw [h.nTablePos] at hinit'
  obtain ⟨u, hu, hrel, hk⟩ := resumed_start hinit' hoff hrotate htype hm h.tableMap hin (by omega)
    hstep h.nStartIndex
  obtain ⟨u₁, rowsG, hgroup, hrel', hsame⟩ := hrel.run h.group hg
  obtain ⟨u₂, rowsL, hlast, hsame'⟩ :=
    hrel'.runGrouped (h.grouped.append (grouped_dumpFiles post)) hys
  have hall := runEvents_append hu (runEvents_append hgroup hlast)
  rw [← hdump, List.nil_append] at hall
  have hasc : Ascending w' z (before ++ row :: rest) := by
    obtain ⟨-, -, -, hindex⟩ := hin.tableMap hm h.tableMap hstep
    refine (run_ascending (fun x hx => ?_) (by omega) hg).1
    have hx' : x ∈ f.events :=
      h.events ▸ List.mem_append_right es (List.mem_cons_of_mem m (List.mem_append_left ys hx))
    exact ⟨f.isEvent x hx', h.group x hx, f.hasRowsHeader x hx'⟩
  refine ⟨rowsG ++ rowsL, ?_, ⟨u₂, hall⟩, ?_⟩
  · rw [hk] at hsame
    unfold SameFrom at hsame
    rw [hasc.filter] at hsame
    rw [List.map_append, hsame, sameFrom_zero.mp hsame', ← List.map_append, List.cons_append]
  · intro pieces hcut hfits
    obtain ⟨l, hl, -⟩ := feedAll_of_runEvents
      (fun x hx => isEvent_of_mem_dumpFrom hrotate hformat hx) hcut hfits hall
    exact ⟨l, hl⟩

/-- The artificial ROTATE event of a file. -/
def twoRowsRotate : Bytes :=
  encodeEvent ⟨0, 1, 0, 32⟩ rotateEvent [4, 0, 0, 0, 0, 0, 0, 0, 98, 49]

/-- The events of a file whose rows event has two rows: a format description event, a TABLE_MAP
event, an insert of 7 and 8, and a ROTATE event. -/
def twoRowsEvents : List Bytes :=
  [encodeEvent ⟨0, 1, 0, 0⟩ formatDescriptionEvent [4, 0], mapEvent,
    encodeEvent ⟨0, 1, 0, 0⟩ writeRowsEvent [1, 0, 0, 0, 0, 0, 1, 0, 1, 255, 254, 7, 254, 8],
    encodeEvent ⟨0, 1, 0, 0⟩ rotateEvent [4, 0, 0, 0, 0, 0, 0, 0, 98, 49]]

/-- The ROTATE event names the file. -/
theorem twoRowsRotate_isRotate : IsRotate twoRowsRotate [98, 49] := by
  refine ⟨by decide, by decide, [4, 0, 0, 0, 0, 0, 0, 0], rfl, ?_⟩
  rw [twoRowsRotate, drop_encodeEvent]
  rfl

/-- The file consists of events. -/
theorem twoRowsEvents_isEvent : ∀ e ∈ twoRowsEvents, IsEvent e := by decide

/-- The first of them is a format description event. -/
theorem twoRowsEvents_head :
    (twoRowsEvents.head?).map eventType = some formatDescriptionEvent := by decide

/-- The ROTATE event is the last of them. -/
theorem twoRowsEvents_dropLast : ∀ e ∈ twoRowsEvents.dropLast, eventType e ≠ rotateEvent := by
  decide

/-- The rows event comes after the TABLE_MAP event. -/
theorem twoRowsEvents_grouped : Grouped twoRowsEvents :=
  (grouped_cons_tableMap (by decide) _).cons (by decide)

/-- The rows event has its header. -/
theorem twoRowsEvents_hasRowsHeader : ∀ e ∈ twoRowsEvents, HasRowsHeader e := by
  have hheader : rowsHeader [1, 0, 0, 0, 0, 0, 1, 0, 1, 255, 254, 7, 254, 8] = .ok (1, 10) := by
    decide +kernel
  refine List.forall_mem_cons.mpr ⟨fun hrows => absurd hrows (by decide), ?_⟩
  refine List.forall_mem_cons.mpr ⟨fun hrows => absurd hrows (by decide), ?_⟩
  refine List.forall_mem_cons.mpr ⟨fun _ => ⟨1, 10, ?_, by decide⟩, ?_⟩
  · rw [drop_encodeEvent]
    exact hheader
  · exact List.forall_mem_singleton.mpr fun hrows => absurd hrows (by decide)

/-- The file is short. -/
theorem twoRowsEvents_size : offsetAfter twoRowsEvents < 4294967296 := by decide

/-- The file of these events. -/
def twoRowsFile : MasterFile where
  name := [98, 49]
  rotate := twoRowsRotate
  events := twoRowsEvents
  rotate_isRotate := twoRowsRotate_isRotate
  isEvent := twoRowsEvents_isEvent
  head_type := twoRowsEvents_head
  rotate_last := twoRowsEvents_dropLast
  grouped := twoRowsEvents_grouped
  hasRowsHeader := twoRowsEvents_hasRowsHeader
  size := twoRowsEvents_size

/-- A row of that file. -/
def twoRowsRow (nItemIndex : ℕ) (value : ℤ) : Row :=
  { logName := [98, 49], nTablePos := 25, nItemIndex, act := .insert, db := [100], tbl := [116]
    row := ⟨none, some [.int value]⟩ }

/-- A computation that returns, with the rows that it returns. -/
theorem exists_ok_of_rows {x : Except Stop (LogState × List Row)} {rows : List Row}
    (h : x.toOption.map Prod.snd = some rows) : ∃ s, x = .ok (s, rows) := by
  cases x with
  | error e => cases h
  | ok a =>
    obtain rfl := Option.some.inj h
    exact ⟨a.1, rfl⟩

/-- The second row of the first of two such files, and the rows of the other one. -/
theorem resume_exact_twoRows : ∃ q rows,
    zeroParser.init twoRowsFile.name 25 1 = .ok q ∧
    rows.map Row.unnamed = [twoRowsRow 1 8, twoRowsRow 0 7, twoRowsRow 1 8].map Row.unnamed ∧
    ∃ u, runEvents q.toLogState (dumpFrom twoRowsFile.rotate
      (encodeEvent ⟨0, 1, 0, 0⟩ formatDescriptionEvent [4, 0]) twoRowsFile 25 [twoRowsFile]) =
        .ok (u, rows) := by
  have hinit : zeroParser.init [] 4 0 = .ok { zeroParser with nStartPos := 4 } := rfl
  obtain ⟨q, hinit'⟩ : ∃ q, zeroParser.init twoRowsFile.name 25 1 = .ok q :=
    exists_ok_of_isSome (by decide)
  have hrun : EmitsIn [] twoRowsFile [twoRowsFile] { zeroParser.toLogState with nStartPos := 4 }
      (twoRowsRow 1 8) [twoRowsRow 0 7, twoRowsRow 1 8] := by
    obtain ⟨s₂, hfile⟩ : ∃ s, runEvents { zeroParser.toLogState with nStartPos := 4 }
        (twoRowsFile.rotate :: twoRowsFile.events) = .ok (s, [twoRowsRow 0 7, twoRowsRow 1 8]) :=
      exists_ok_of_rows (by decide +kernel)
    obtain ⟨s₃, hall⟩ : ∃ s, runEvents { zeroParser.toLogState with nStartPos := 4 }
        ((twoRowsFile.rotate :: twoRowsFile.events) ++ dumpFiles [twoRowsFile]) =
          .ok (s, [twoRowsRow 0 7, twoRowsRow 1 8, twoRowsRow 0 7, twoRowsRow 1 8]) :=
      exists_ok_of_rows (by decide +kernel)
    obtain ⟨t, r, r', hfile', hpost, hrows⟩ := runEvents_split hall
    obtain ⟨rfl, rfl⟩ := Prod.mk.inj (Except.ok.inj (hfile'.symm.trans hfile))
    obtain rfl : r' = [twoRowsRow 0 7, twoRowsRow 1 8] := by simpa using hrows.symm
    have hpre : runEvents { zeroParser.toLogState with nStartPos := 4 } (dumpFiles []) =
        .ok ({ zeroParser.toLogState with nStartPos := 4 }, []) := rfl
    have hrow : runEvents { zeroParser.toLogState with nStartPos := 4 }
        (twoRowsFile.rotate :: twoRowsFile.events) =
          .ok (t, [twoRowsRow 0 7] ++ twoRowsRow 1 8 :: []) := hfile
    exact emitsIn_of_runEvents hpre hrow hpost
  obtain ⟨rows, hrows, hrun', -⟩ := resume_exact hinit hrun hinit' twoRowsFile.rotate_isRotate
    (by decide : IsEvent (encodeEvent ⟨0, 1, 0, 0⟩ formatDescriptionEvent [4, 0]))
    (by decide)
  exact ⟨q, rows, hinit', hrows, hrun'⟩

end MgCommonUtils.Ebinlog
