import MgCommonUtils.Lib.Segments
import MgCommonUtils.Lib.Transition
import MgCommonUtils.Myreplicator.Process

/-!
# Dumping the logs of a master

`dump_remote_log_entries` of `myreplicator.cc` and the loop of `main` over the logs on the command
line, as a transition system with the master's log files. For a dump the master sends an artificial
ROTATE event in front of every file, an artificial format description event if the dump does not
start at the beginning of a file, and the events.
-/

namespace MgCommonUtils.Myreplicator

open MgCommonUtils.Lib

/-! ## The master -/

/-- The offset in a file behind the first `k` of its events, which start after a magic number of
`BIN_LOG_HEADER_SIZE` bytes. -/
def boundary (events : List Event) (k : ℕ) : ℕ := 4 + ((events.take k).map Event.len).sum

/-- The event is a ROTATE event. -/
def Event.isRotate (ev : Event) : Bool :=
  match ev.body with
  | .rotate _ => true
  | _ => false

/-- A log file of the master. -/
structure LogFile where
  /-- The name. -/
  name : Bytes
  /-- The events. -/
  events : List Event
  /-- An event has a header. -/
  len_pos : ∀ e ∈ events, 0 < e.len
  /-- An event has the offset behind it. -/
  logPos : ∀ k (h : k < events.length), events[k].logPos = boundary events (k + 1)
  /-- A ROTATE event has a time. -/
  when_rotate : ∀ e ∈ events, e.isRotate → e.when ≠ 0
  /-- A ROTATE event is the last one. -/
  rotate_last : ∀ e ∈ events.dropLast, ¬e.isRotate

/-- A master. -/
structure Master where
  /-- The log files, in their order. -/
  files : List LogFile
  /-- Names are not used twice. -/
  nodup : (files.map LogFile.name).Nodup
  /-- The id of the server. -/
  serverId : ℕ
  /-- The artificial format description event for a file. -/
  formatDescription : LogFile → Event
  /-- It is one. -/
  isFormatDescription : ∀ f, (formatDescription f).isFormatDescription
  /-- It has no position. -/
  logPos : ∀ f, (formatDescription f).logPos = 0

/-- A place between events in the files of a master. -/
abbrev Master.Place (m : Master) := Lib.Place LogFile.events m.files

/-- The offset of a place in its file. -/
def Master.Place.offset {m : Master} (p : m.Place) : ℕ := boundary p.seg.events p.idx

/-- The artificial ROTATE event for a file. -/
def Master.rotate (m : Master) (f : LogFile) : Event where
  when := 0
  serverId := m.serverId
  len := 27 + f.name.length
  logPos := 0
  body := .rotate f.name

/-- An event that the master sends. -/
structure Sent where
  /-- The event. -/
  ev : Event
  /-- The file that it is sent for. -/
  file : LogFile
  /-- The number of events of the file up to it. -/
  next : ℕ
  /-- Whether it is artificial. -/
  artificial : Bool

/-- The events of a file from the number `k` on, as they are sent. -/
def sendEvents (f : LogFile) (k : ℕ) : List Event → List Sent
  | [] => []
  | e :: events => ⟨e, f, k + 1, false⟩ :: sendEvents f (k + 1) events

/-- What the master sends for whole files. -/
def Master.sendFiles (m : Master) (files : List LogFile) : List Sent :=
  files.flatMap fun f => ⟨m.rotate f, f, 0, true⟩ :: sendEvents f 0 f.events

/-- What the master sends of the events from a place on. -/
def Master.sendFrom (m : Master) (p : m.Place) : List Sent :=
  sendEvents p.seg p.idx (p.seg.events.drop p.idx) ++ m.sendFiles p.after

/-- What the master sends for a dump that starts at a place. -/
def Master.send (m : Master) (p : m.Place) : List Sent :=
  ⟨m.rotate p.seg, p.seg, p.idx, true⟩ ::
    ((if p.idx = 0 then [] else [⟨m.formatDescription p.seg, p.seg, p.idx, true⟩]) ++ m.sendFrom p)

/-! ## The program -/

/-- What `strncpy` copies of a name. -/
def strncpy (src : Bytes) (n : ℕ) : Bytes := (cstr src).take n

/-- The event is one that loads a file, and that the loop treats in a special way for old logs. -/
def Event.isOldLoad (ev : Event) : Bool :=
  match ev.body with
  | .load => true
  | .createFile _ => true
  | _ => false

/-- A turn of the loop of `dump_remote_log_entries`. -/
structure Turn where
  /-- The state after it. -/
  state : State
  /-- The result of `process_event`, if it is called. -/
  processed : Option ExitStatus
  /-- The result of the function, if it returns. -/
  result : Option ExitStatus
  /-- What `old_off` is advanced by. -/
  len : ℕ

/-- A call of `process_event` in the loop. -/
def Turn.process (o : Options) (c : Calls) (s : State) (ev : Event) (oldOff len : ℕ) : Turn :=
  let (retval, s) := processEvent o c s ev oldOff
  { state := s
    processed := some retval
    result := if retval = .okContinue then none else some retval
    len }

/-- The turn of the loop for an event. -/
def dumpEvent (o : Options) (c : Calls) (logname : Bytes) (oldOff : ℕ) (s : State) (ev : Event) :
    Turn :=
  if s.binlogVersion ≥ 3 ∨ !ev.isOldLoad then
    match ev.body with
    | .rotate newLogIdent =>
      let s := { s with currentLogName := strncpy newLogIdent logname.length }
      if ev.when = 0 then
        if !o.toLastRemoteLog then
          if newLogIdent ≠ logname then ⟨s, none, some .okContinue, 0⟩ else ⟨s, none, none, 0⟩
        else .process o c s ev oldOff 0
      else .process o c s ev oldOff ev.len
    | .formatDescription _ _ => .process o c s ev oldOff (if oldOff ≠ 4 then 0 else ev.len)
    | _ => .process o c s ev oldOff ev.len
  else if !c.prepare then ⟨s, none, some .errorStop, 0⟩
  else
    let t := Turn.process o c s ev oldOff ev.len
    if t.result = none ∧ c.loadOld ≠ .okContinue then { t with result := some c.loadOld } else t

/-- `check_master_version`: the version that is assumed, by the first byte of the server's. -/
def checkMasterVersion (version : UInt8) : Option ℕ :=
  if version = 51 then some 1
  else if version = 52 ∨ version = 53 then some 3
  else none

/-- A dump. -/
structure Dump where
  /-- `logname`. -/
  logname : Bytes
  /-- `old_off`. -/
  oldOff : ℕ
  /-- What the master has still to send. -/
  stream : List Sent

/-- A log on the command line, with the place that the master dumps from. -/
structure Arg (m : Master) where
  /-- The name. -/
  logname : Bytes
  /-- The place. -/
  place : m.Place

/-- The state of the program and of what it reads. -/
structure Config (m : Master) where
  /-- The static variables. -/
  state : State
  /-- The dump that is under way. -/
  dump : Option Dump
  /-- The logs that are still to be dumped. -/
  args : List (Arg m)

/-- A step. -/
inductive Act
  /-- A dump starts, of a server with a version. -/
  | start (version : UInt8)
  /-- An event is read. -/
  | event (c : Calls)
  /-- The end of the data is read. -/
  | eof

/-- A dump is over, and the next log is dumped from its beginning. -/
def Config.finish {m : Master} (c : Config m) (s : State) : Config m :=
  { c with state := { s with startPosition := 4 }, dump := none }

/-- The program ends. -/
def Config.exit {m : Master} (c : Config m) (s : State) : Config m :=
  { c with state := s, dump := none, args := [] }

/-- The state when a dump starts, of a log that `rest` come after. -/
def State.start {m : Master} (s : State) (o : Options) (rest : List (Arg m)) (version : ℕ) :
    State :=
  { s with
    stopPosition := if rest.isEmpty then o.stopPosition else s.stopPosition
    binlogVersion := version
    ignored := [] }

/-- The step of the program. The name of the log is copied to a buffer of 128 bytes, behind 10
others. -/
def Config.step {m : Master} (o : Options) (c : Config m) : Act → Option (Config m)
  | .start version =>
    match c.dump, c.args with
    | none, arg :: args =>
      match checkMasterVersion version with
      | none => some (c.exit c.state)
      | some binlogVersion =>
        if 10 + arg.logname.length > 128 ∨ arg.place.offset ≠ c.state.startPosition then none
        else some {
          state := c.state.start o args binlogVersion
          dump := some ⟨arg.logname, c.state.startPosition, m.send arg.place⟩
          args }
    | _, _ => none
  | .event calls =>
    match c.dump with
    | some ⟨logname, oldOff, sent :: stream⟩ =>
      let t := dumpEvent o calls logname oldOff c.state sent.ev
      match t.result with
      | none => some { c with state := t.state, dump := some ⟨logname, oldOff + t.len, stream⟩ }
      | some .okContinue => some (c.finish t.state)
      | some _ => some (c.exit t.state)
    | _ => none
  | .eof =>
    match c.dump with
    | some _ => some (c.finish c.state)
    | none => none

/-- The static variables in the beginning. -/
def State.init (o : Options) : State where
  recCount := 0
  offset := o.offset
  startDatetime := o.startDatetime
  startPosition := o.startPosition
  stopPosition := 2^64 - 1
  binlogVersion := 0
  ignored := []
  currentLogName := []
  evpos := 0
  npfp := false
  nameAndPos := none

/-- The program with a master and options. -/
def program (m : Master) (o : Options) : Lts (Config m) Act where
  init c := c.state = .init o ∧ c.dump = none
  step := Config.step o

end MgCommonUtils.Myreplicator
