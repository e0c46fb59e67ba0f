import MgCommonUtils.Lib.CString

/-!
# Processing an event

`process_event` of `myreplicator.cc`, as far as it decides what is written to `/tmp/name_and_pos`:
the name of the current log and a position, each time it returns `OK_CONTINUE`. The position is the
`log_pos` of the event, except when the event is handed over to someone else and the pointer to it
is cleared: then it is the position of the event before (`processEvent_saves`).
-/

namespace MgCommonUtils.Myreplicator

open MgCommonUtils.Lib

/-! ## The model -/

/-- `Exit_status`. -/
inductive ExitStatus
  | okContinue
  | errorStop
  | okStop
  deriving DecidableEq, Repr

/-- The types of events that are told apart, with what is read of each. -/
inductive EventBody
  /-- `QUERY_EVENT`: the database, and `is_trans_keyword`. -/
  | query (db : Option Bytes) (isTransKeyword : Bool)
  /-- `CREATE_FILE_EVENT`. -/
  | createFile (db : Option Bytes)
  /-- `APPEND_BLOCK_EVENT`. -/
  | appendBlock
  /-- `EXEC_LOAD_EVENT`. -/
  | execLoad
  /-- `FORMAT_DESCRIPTION_EVENT`: the version, and `LOG_EVENT_BINLOG_IN_USE_F`. -/
  | formatDescription (binlogVersion : ℕ) (inUse : Bool)
  /-- `BEGIN_LOAD_QUERY_EVENT`. -/
  | beginLoadQuery
  /-- `EXECUTE_LOAD_QUERY_EVENT`. -/
  | executeLoadQuery (db : Option Bytes)
  /-- `TABLE_MAP_EVENT`. -/
  | tableMap (dbName : Option Bytes) (tableId : ℕ)
  /-- The events with rows, and `STMT_END_F`. -/
  | rows (tableId : ℕ) (stmtEnd : Bool)
  /-- `ROTATE_EVENT`. -/
  | rotate (newLogIdent : Bytes)
  /-- `LOAD_EVENT`. -/
  | load
  /-- Another event. -/
  | other
  deriving DecidableEq, Repr

/-- An event. -/
structure Event where
  /-- The time, or 0 in an artificial ROTATE event. -/
  when : ℕ
  /-- The server that has logged the event. -/
  serverId : ℕ
  /-- The length. -/
  len : ℕ
  /-- The position after the event, or 0 in an artificial event. -/
  logPos : ℕ
  /-- The type and the data. -/
  body : EventBody
  deriving DecidableEq, Repr

/-- `FORMAT_DESCRIPTION_EVENT`. -/
def Event.isFormatDescription (ev : Event) : Bool :=
  match ev.body with
  | .formatDescription _ _ => true
  | _ => false

/-- The options. -/
structure Options where
  /-- `--offset`. -/
  offset : ℕ
  /-- `--start-datetime`. -/
  startDatetime : ℕ
  /-- `--start-position`. -/
  startPosition : ℕ
  /-- `--stop-position`. -/
  stopPosition : ℕ
  /-- `--server-id`, or 0 for every server. -/
  serverId : ℕ
  /-- `--stop-datetime`. -/
  stopDatetime : ℕ
  /-- `--short-form`. -/
  shortForm : Bool
  /-- `--base64-output=always`. -/
  base64OutputAlways : Bool
  /-- `--database`. -/
  database : Option Bytes
  /-- `--force-if-open`. -/
  forceIfOpen : Bool
  /-- `--to-last-log`. -/
  toLastRemoteLog : Bool

/-- The static variables, and what `print_event_info` keeps. -/
structure State where
  /-- `rec_count`. -/
  recCount : ℕ
  /-- `offset`. -/
  offset : ℕ
  /-- `start_datetime`. -/
  startDatetime : ℕ
  /-- `start_position`. -/
  startPosition : ℕ
  /-- `stop_position`. -/
  stopPosition : ℕ
  /-- `binlog_version` of `glob_description_event`. -/
  binlogVersion : ℕ
  /-- The tables of `m_table_map_ignored`. -/
  ignored : List ℕ
  /-- `current_log_name`. -/
  currentLogName : Bytes
  /-- `evpos`. -/
  evpos : ℕ
  /-- Whether `npfp` is open. -/
  npfp : Bool
  /-- The name and the position in `/tmp/name_and_pos`. -/
  nameAndPos : Option (Bytes × ℕ)
  deriving DecidableEq

/-- The results of the calls while an event is processed. -/
structure Calls where
  /-- `write_event_header_and_base64`. -/
  write : ExitStatus
  /-- `load_processor.process`. -/
  load : ExitStatus
  /-- Whether `copy_event_cache_to_file_and_reinit` fails. -/
  copyFails : Bool
  /-- Whether the printer has printed a format description event. -/
  printedFdEvent : Bool
  /-- Whether `fopen` succeeds. -/
  fopen : Bool
  /-- Whether `prepare_new_file_for_old_format` succeeds. -/
  prepare : Bool
  /-- `load_old_format_file`. -/
  loadOld : ExitStatus

/-- `shall_skip_database`. -/
def shallSkipDatabase (o : Options) (logDbname : Option Bytes) : Bool :=
  match o.database, logDbname with
  | some database, some db => db != database
  | _, _ => false

/-- How the switch of `process_event` is left. -/
structure Printed where
  /-- `retval`. -/
  retval : ExitStatus
  /-- Whether `ev` has been set to `NULL`. -/
  handedOver : Bool
  /-- Whether it is left by `DBUG_RETURN`, past the end of the function. -/
  returns : Bool

/-- The switch is left with `ev` as it was. -/
def Printed.kept (retval : ExitStatus) : Printed := ⟨retval, false, false⟩

/-- The case of the events with rows, after the check for tables that are ignored. -/
def printRows (o : Options) (c : Calls) : Printed :=
  .kept (if !c.printedFdEvent && !o.shortForm then .errorStop else .okContinue)

/-- The switch of `process_event`. -/
def printEvent (o : Options) (c : Calls) (s : State) (ev : Event) : Printed × State :=
  match ev.body with
  | .query db isTransKeyword =>
    if !isTransKeyword && shallSkipDatabase o db then (.kept .okContinue, s)
    else if o.base64OutputAlways then (.kept c.write, s)
    else (.kept .okContinue, s)
  | .createFile db =>
    if shallSkipDatabase o db then (.kept .okContinue, s)
    else if o.base64OutputAlways && c.write != .okContinue then (.kept c.write, s)
    else if s.binlogVersion ≥ 3 then (⟨c.load, true, false⟩, s)
    else (.kept .okContinue, s)
  | .appendBlock => (.kept c.load, s)
  | .formatDescription binlogVersion inUse =>
    let s := { s with binlogVersion }
    if !o.forceIfOpen && inUse then (⟨.errorStop, true, true⟩, s)
    else (⟨.okContinue, true, false⟩, s)
  | .beginLoadQuery => (.kept c.load, s)
  | .tableMap dbName tableId =>
    if shallSkipDatabase o dbName then
      (.kept .okContinue, { s with ignored := tableId :: s.ignored })
    else (printRows o c, s)
  | .rows tableId stmtEnd =>
    let skipEvent := s.ignored.contains tableId
    let s := if stmtEnd then { s with ignored := [] } else s
    if stmtEnd && skipEvent && c.copyFails then (.kept .errorStop, s)
    else if skipEvent then (.kept .okContinue, s)
    else (printRows o c, s)
  | _ => (.kept .okContinue, s)

/-- The end of `process_event`: `evpos`, and what is written to `/tmp/name_and_pos`. -/
def saveNameAndPos (c : Calls) (s : State) (ev : Event) (p : Printed) : State :=
  let s := { s with recCount := s.recCount + 1 }
  let s := if p.handedOver then s else { s with evpos := ev.logPos }
  if p.retval = .okContinue then
    let s := if s.npfp then s else { s with npfp := c.fopen }
    if s.npfp then { s with nameAndPos := some (s.currentLogName, s.evpos) } else s
  else s

/-- The event is one that is printed, by its time and its number. -/
def Selected (s : State) (ev : Event) : Prop :=
  (s.offset ≤ s.recCount ∧ s.startDatetime ≤ ev.when) ∨ ev.isFormatDescription

instance (s : State) (ev : Event) : Decidable (Selected s ev) :=
  inferInstanceAs (Decidable (_ ∨ _))

/-- The event is another server's than the one whose events are wanted. -/
def Filtered (o : Options) (ev : Event) : Prop := o.serverId ≠ 0 ∧ o.serverId ≠ ev.serverId

instance (o : Options) (ev : Event) : Decidable (Filtered o ev) :=
  inferInstanceAs (Decidable (_ ∧ _))

/-- `process_event`. -/
def processEvent (o : Options) (c : Calls) (s : State) (ev : Event) (pos : ℕ) :
    ExitStatus × State :=
  let (p, s) :=
    if Selected s ev then
      let s := if ev.isFormatDescription then s else { s with startDatetime := 0, offset := 0 }
      if Filtered o ev then (.kept .okContinue, s)
      else if ev.when ≥ o.stopDatetime ∨ pos ≥ s.stopPosition then (.kept .okStop, s)
      else printEvent o c s ev
    else (.kept .okContinue, s)
  if p.returns then (p.retval, s) else (p.retval, saveNameAndPos c s ev p)

/-! ## What is saved -/

/-- An event that the switch hands over when it gets there: a format description event, and the
event that begins a LOAD DATA, if its database is not skipped and the log is not of version 1. -/
def HandedOverBody (o : Options) (s : State) (ev : Event) : Prop :=
  match ev.body with
  | .formatDescription _ _ => True
  | .createFile db => shallSkipDatabase o db = false ∧ 3 ≤ s.binlogVersion
  | _ => False

instance (o : Options) (s : State) (ev : Event) : Decidable (HandedOverBody o s ev) := by
  unfold HandedOverBody
  split <;> infer_instance

/-- Whether an event is handed over depends on the version only. -/
theorem handedOverBody_congr {o : Options} {s₁ s : State} {ev : Event}
    (h : s₁.binlogVersion = s.binlogVersion) : HandedOverBody o s₁ ev ↔ HandedOverBody o s ev := by
  unfold HandedOverBody
  rw [h]

/-- The event at the position `pos` gets to the switch and is handed over. -/
def HandsOver (o : Options) (s : State) (ev : Event) (pos : ℕ) : Prop :=
  Selected s ev ∧ ¬Filtered o ev ∧ ev.when < o.stopDatetime ∧ pos < s.stopPosition ∧
    HandedOverBody o s ev

instance (o : Options) (s : State) (ev : Event) (pos : ℕ) : Decidable (HandsOver o s ev pos) :=
  inferInstanceAs (Decidable (_ ∧ _))

/-- What the switch keeps, and when it hands the event over. -/
structure PrintSpec (o : Options) (s : State) (ev : Event) (r : Printed × State) : Prop where
  /-- The name is not touched. -/
  currentLogName : r.2.currentLogName = s.currentLogName
  /-- Nor is the position. -/
  evpos : r.2.evpos = s.evpos
  /-- When all is well, the function ends below the switch. -/
  returns : r.1.retval = .okContinue → r.1.returns = false
  /-- When all is well, the event is handed over as its type says. -/
  handedOver : r.1.retval = .okContinue → (r.1.handedOver = true ↔ HandedOverBody o s ev)

/-- A case of the switch that keeps the event. -/
theorem printSpec_kept {o : Options} {s s' : State} {ev : Event} {retval : ExitStatus}
    (hname : s'.currentLogName = s.currentLogName) (hpos : s'.evpos = s.evpos)
    (hbody : retval = .okContinue → ¬HandedOverBody o s ev) :
    PrintSpec o s ev (.kept retval, s') where
  currentLogName := hname
  evpos := hpos
  returns _ := rfl
  handedOver h := iff_of_false Bool.false_ne_true (hbody h)

/-- The switch. -/
theorem printEvent_spec (o : Options) (c : Calls) (s : State) (ev : Event) :
    PrintSpec o s ev (printEvent o c s ev) := by
  obtain ⟨_, _, _, _, body⟩ := ev
  unfold printEvent
  cases body with
  | createFile db =>
    dsimp only
    split
    · rename_i hskip
      refine printSpec_kept rfl rfl fun _ h => ?_
      rw [h.1] at hskip
      cases hskip
    · split
      · rename_i hwrite
        refine printSpec_kept rfl rfl fun h _ => ?_
        rw [h] at hwrite
        simp at hwrite
      · split
        · rename_i hskip _ hversion
          exact ⟨rfl, rfl, fun _ => rfl, fun _ =>
            iff_of_true rfl ⟨Bool.eq_false_iff.mpr hskip, hversion⟩⟩
        · rename_i hversion
          exact printSpec_kept rfl rfl fun _ h => hversion h.2
  | formatDescription binlogVersion inUse =>
    dsimp only
    split
    · exact ⟨rfl, rfl, nofun, nofun⟩
    · exact ⟨rfl, rfl, fun _ => rfl, fun _ => iff_of_true rfl trivial⟩
  | rows tableId stmtEnd =>
    dsimp only
    cases stmtEnd <;> split_ifs <;> exact printSpec_kept rfl rfl fun _ h => h
  | _ =>
    dsimp only
    try split_ifs
    all_goals exact printSpec_kept rfl rfl fun _ h => h

/-- The end of the function saves the name and the position. -/
theorem saveNameAndPos_spec (c : Calls) (s : State) (ev : Event) {p : Printed}
    (hp : p.retval = .okContinue) :
    (saveNameAndPos c s ev p).currentLogName = s.currentLogName ∧
      (saveNameAndPos c s ev p).evpos = (if p.handedOver then s.evpos else ev.logPos) ∧
      ((saveNameAndPos c s ev p).npfp → (saveNameAndPos c s ev p).nameAndPos =
        some ((saveNameAndPos c s ev p).currentLogName, (saveNameAndPos c s ev p).evpos)) := by
  unfold saveNameAndPos
  simp only [if_pos hp]
  refine ⟨?_, ?_, ?_⟩
  · split_ifs <;> rfl
  · split_ifs <;> rfl
  · split_ifs <;> simp_all

/-- When `process_event` returns `OK_CONTINUE`, it has written the current name and `evpos`, and
`evpos` is the position of the event, or what it was if the event is handed over. -/
theorem processEvent_saves {o : Options} {c : Calls} {s s' : State} {ev : Event} {pos : ℕ}
    (h : processEvent o c s ev pos = (.okContinue, s')) :
    s'.currentLogName = s.currentLogName ∧
      s'.evpos = (if HandsOver o s ev pos then s.evpos else ev.logPos) ∧
      (s'.npfp → s'.nameAndPos = some (s'.currentLogName, s'.evpos)) := by
  unfold processEvent at h
  by_cases hsel : Selected s ev
  · simp only [if_pos hsel] at h
    obtain ⟨s₁, hs₁, hname, hpos, hversion, hstop⟩ : ∃ s₁ : State,
        (if ev.isFormatDescription then s else { s with startDatetime := 0, offset := 0 }) = s₁ ∧
          s₁.currentLogName = s.currentLogName ∧ s₁.evpos = s.evpos ∧
          s₁.binlogVersion = s.binlogVersion ∧ s₁.stopPosition = s.stopPosition := by
      refine ⟨_, rfl, ?_⟩
      split <;> exact ⟨rfl, rfl, rfl, rfl⟩
    simp only [hs₁] at h
    by_cases hfilter : Filtered o ev
    · have hno : ¬HandsOver o s ev pos := fun hh => hh.2.1 hfilter
      simp only [if_pos hfilter] at h
      obtain ⟨-, rfl⟩ := Prod.mk.inj h
      rw [if_neg hno, ← hname]
      exact saveNameAndPos_spec c s₁ ev rfl
    · simp only [if_neg hfilter] at h
      by_cases hend : ev.when ≥ o.stopDatetime ∨ pos ≥ s₁.stopPosition
      · simp only [if_pos hend] at h
        cases (Prod.mk.inj h).1
      · simp only [if_neg hend] at h
        have hspec := printEvent_spec o c s₁ ev
        generalize printEvent o c s₁ ev = r at h hspec
        obtain ⟨p, s₂⟩ := r
        dsimp only at h
        have hok : p.retval = .okContinue := by
          split at h <;> exact (Prod.mk.inj h).1
        rw [hspec.returns hok, if_neg Bool.false_ne_true] at h
        obtain ⟨-, rfl⟩ := Prod.mk.inj h
        obtain ⟨hname₂, hpos₂, hsave⟩ := saveNameAndPos_spec c s₂ ev hok
        refine ⟨hname₂.trans (hspec.currentLogName.trans hname), ?_, hsave⟩
        have hiff : p.handedOver = true ↔ HandsOver o s ev pos := by
          rw [ge_iff_le, ge_iff_le, not_or, not_le, not_le, hstop] at hend
          rw [hspec.handedOver hok, handedOverBody_congr hversion]
          exact ⟨fun hbody => ⟨hsel, hfilter, hend.1, hend.2, hbody⟩, fun hh => hh.2.2.2.2⟩
        rw [hpos₂, hspec.evpos, hpos]
        exact if_congr hiff rfl rfl
  · have hno : ¬HandsOver o s ev pos := fun hh => hsel hh.1
    simp only [if_neg hsel] at h
    obtain ⟨-, rfl⟩ := Prod.mk.inj h
    rw [if_neg hno]
    exact saveNameAndPos_spec c s ev rfl

end MgCommonUtils.Myreplicator
