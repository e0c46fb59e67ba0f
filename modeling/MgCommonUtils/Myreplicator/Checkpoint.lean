import MgCommonUtils.Myreplicator.Dump

/-!
# Resume points

`myreplicator` writes a log name and a position to `/tmp/name_and_pos` after every event, from which
a dump can be started again. The name and the position are saved from two variables. The name is
that of the last ROTATE event read, cut to the length of the name that was asked for, so after a
ROTATE event at the end of a file it is already the next file's. The position is that of the event,
or of the event before if the event has been handed over, and artificial events have none.
`resumePoint_iff` says when the two fit together.
-/

namespace MgCommonUtils.Myreplicator

open MgCommonUtils.Lib

/-! ## Resume points -/

/-- The events among what is sent. -/
def unprocessed (stream : List Sent) : List Event :=
  (stream.filter fun sent => !sent.artificial).map Sent.ev

/-- A name and a position are a resume point: the position is an event boundary in the file of this
name, and the events from it on are those that are not processed. -/
def ResumePoint (m : Master) (events : List Event) (name : Bytes) (pos : ℕ) : Prop :=
  ∃ p : m.Place, p.seg.name = name ∧ p.offset = pos ∧ p.rest = events

/-- The offset at the start of a file. -/
theorem boundary_zero (events : List Event) : boundary events 0 = 4 := rfl

/-- An offset in a file is behind the magic number. -/
theorem four_le_boundary (events : List Event) (k : ℕ) : 4 ≤ boundary events k :=
  Nat.le_add_right _ _

/-- The offset behind one more event. -/
theorem boundary_succ {events : List Event} {k : ℕ} (hk : k < events.length) :
    boundary events (k + 1) = boundary events k + events[k].len := by
  unfold boundary
  rw [List.take_succ_eq_append_getElem hk, List.map_append, List.sum_append, Nat.add_assoc]
  rfl

/-- The offset behind an event is not that of the start of the file. -/
theorem LogFile.four_lt_boundary (f : LogFile) {k : ℕ} (hk : 0 < k) (hle : k ≤ f.events.length) :
    4 < boundary f.events k := by
  obtain ⟨j, rfl⟩ := Nat.exists_eq_succ_of_ne_zero hk.ne'
  have hpos := f.len_pos _ (List.getElem_mem (Nat.lt_of_succ_le hle))
  have hle4 := four_le_boundary f.events j
  rw [Nat.succ_eq_add_one, boundary_succ (Nat.lt_of_succ_le hle)]
  omega

/-- Which name and position are a resume point, for what comes from a place on that is not at the
start of a file. -/
theorem Master.Place.resumePoint_rest {m : Master} {p : m.Place} (hp : 0 < p.idx) {name : Bytes}
    {pos : ℕ} (hpos : pos ≠ 4) :
    ResumePoint m p.rest name pos ↔ name = p.seg.name ∧ pos = p.offset := by
  constructor
  · rintro ⟨q, hname, hoff, hrest⟩
    have hq : 0 < q.idx := by
      rcases Nat.eq_zero_or_pos q.idx with h0 | hq
      · rw [Master.Place.offset, h0, boundary_zero] at hoff
        exact absurd hoff.symm hpos
      · exact hq
    obtain ⟨hseg, hidx⟩ := Lib.Place.eq_of_rest hq hp hrest
    refine ⟨by rw [← hname, hseg], ?_⟩
    rw [← hoff, Master.Place.offset, Master.Place.offset, hseg, hidx]
  · rintro ⟨rfl, rfl⟩
    exact ⟨p, rfl, rfl, rfl⟩

/-- No position in front of the magic number is one of a resume point. -/
theorem not_resumePoint_zero (m : Master) (events : List Event) (name : Bytes) :
    ¬ResumePoint m events name 0 := by
  rintro ⟨p, -, hoff, -⟩
  have := four_le_boundary p.seg.events p.idx
  unfold Master.Place.offset at hoff
  omega

/-! ## What is read -/

/-- The events that are sent of a part of a file. -/
theorem unprocessed_sendEvents (f : LogFile) (k : ℕ) (events : List Event) :
    unprocessed (sendEvents f k events) = events := by
  induction events generalizing k with
  | nil => rfl
  | cons e events ih => exact congrArg (e :: ·) (ih (k + 1))

/-- The events of two parts. -/
theorem unprocessed_append (s t : List Sent) :
    unprocessed (s ++ t) = unprocessed s ++ unprocessed t := by
  unfold unprocessed
  rw [List.filter_append, List.map_append]

/-- The events that are sent of whole files. -/
theorem unprocessed_sendFiles (m : Master) (files : List LogFile) :
    unprocessed (m.sendFiles files) = files.flatMap LogFile.events := by
  induction files with
  | nil => rfl
  | cons f files ih =>
    rw [Master.sendFiles, List.flatMap_cons, List.flatMap_cons, ← ih, ← Master.sendFiles,
      unprocessed_append]
    exact congrArg (· ++ _) (unprocessed_sendEvents f 0 f.events)

/-- What comes from a place on is sent. -/
theorem unprocessed_sendFrom (m : Master) (p : m.Place) : unprocessed (m.sendFrom p) = p.rest := by
  rw [Master.sendFrom, unprocessed_append, unprocessed_sendEvents, unprocessed_sendFiles]
  rfl

/-- The name that is the current one when an event has been read. -/
def currentName (logname : Bytes) (name : Bytes) (ev : Event) : Bytes :=
  match ev.body with
  | .rotate newLogIdent => strncpy newLogIdent logname.length
  | _ => name

/-- Where in the stream a dump is, with the current name. -/
inductive OnStream (m : Master) (logname : Bytes) : Bytes → List Sent → Prop
  /-- At its start. -/
  | start (name : Bytes) (p : m.Place) : OnStream m logname name (m.send p)
  /-- In front of an artificial format description event. -/
  | formatDescription (p : m.Place) (hp : 0 < p.idx) :
    OnStream m logname (strncpy p.seg.name logname.length)
      (⟨m.formatDescription p.seg, p.seg, p.idx, true⟩ :: m.sendFrom p)
  /-- In a file. -/
  | inFile {name : Bytes} (p : m.Place) (hname : p.idx < p.seg.events.length →
      name = strncpy p.seg.name logname.length) : OnStream m logname name (m.sendFrom p)

/-- The event that is read next. -/
structure Next (m : Master) (logname name : Bytes) (sent : Sent) (rest : List Sent) : Prop where
  /-- The dump is on the stream behind it. -/
  onStream : OnStream m logname (currentName logname name sent.ev) rest
  /-- What comes behind it comes from a place in its file on. -/
  place : ∃ p : m.Place, p.seg = sent.file ∧ p.idx = sent.next ∧ unprocessed rest = p.rest
  /-- An artificial event has no position. -/
  artificial : sent.artificial = true → sent.ev.logPos = 0
  /-- It is a ROTATE event or a format description event. -/
  artificial_body : sent.artificial = true → sent.ev.isRotate ∨ sent.ev.isFormatDescription
  /-- An event that is not has the position behind it. -/
  real : sent.artificial = false → 0 < sent.next ∧
    sent.ev.logPos = boundary sent.file.events sent.next
  /-- The name is that of the file, in front of an event that is no artificial ROTATE event. -/
  name : sent.artificial = false ∨ sent.ev.isFormatDescription →
    0 < sent.next ∧ name = strncpy sent.file.name logname.length

/-- An event that is no ROTATE event leaves the name as it is. -/
theorem currentName_of_not_rotate {logname name : Bytes} {ev : Event} (h : ¬ev.isRotate) :
    currentName logname name ev = name := by
  unfold currentName
  split
  · rename_i hbody
    exact absurd (by rw [Event.isRotate, hbody]) h
  · rfl

/-- A format description event is no ROTATE event. -/
theorem not_isRotate_of_isFormatDescription {ev : Event} (h : ev.isFormatDescription) :
    ¬ev.isRotate := by
  unfold Event.isFormatDescription at h
  unfold Event.isRotate
  split at h
  · rename_i hbody
    rw [hbody]
    exact Bool.false_ne_true
  · cases h

/-- Nor is an event that loads a file. -/
theorem not_isRotate_of_isOldLoad {ev : Event} (h : ev.isOldLoad) : ¬ev.isRotate := by
  unfold Event.isOldLoad at h
  unfold Event.isRotate
  split at h
  · rename_i hbody
    rw [hbody]
    exact Bool.false_ne_true
  · rename_i hbody
    rw [hbody]
    exact Bool.false_ne_true
  · cases h

/-- The artificial ROTATE event is read. -/
theorem next_rotate {m : Master} {logname name : Bytes} {rest : List Sent} (p : m.Place)
    (hon : OnStream m logname (strncpy p.seg.name logname.length) rest)
    (hrest : unprocessed rest = p.rest) :
    Next m logname name ⟨m.rotate p.seg, p.seg, p.idx, true⟩ rest where
  onStream := hon
  place := ⟨p, rfl, rfl, hrest⟩
  artificial _ := rfl
  artificial_body _ := .inl rfl
  real h := by cases h
  name h := by rcases h with h | h <;> cases h

/-- An event of the file is read. -/
theorem next_event {m : Master} {logname name : Bytes} (p : m.Place)
    (hk : p.idx < p.seg.events.length) (hname : name = strncpy p.seg.name logname.length) :
    Next m logname name ⟨p.seg.events[p.idx], p.seg, p.idx + 1, false⟩
      (m.sendFrom { p with idx := p.idx + 1, le := hk }) where
  onStream := by
    refine .inFile _ fun hlt => ?_
    have hlast : ¬p.seg.events[p.idx].isRotate := by
      refine p.seg.rotate_last _ ?_
      have hlt' : p.idx < p.seg.events.dropLast.length := by
        rw [List.length_dropLast]
        exact Nat.lt_sub_of_add_lt hlt
      rw [← List.getElem_dropLast hlt']
      exact List.getElem_mem hlt'
    rw [currentName_of_not_rotate hlast, hname]
  place := ⟨{ p with idx := p.idx + 1, le := hk }, rfl, rfl, unprocessed_sendFrom m _⟩
  artificial h := by cases h
  artificial_body h := by cases h
  real _ := ⟨Nat.succ_pos _, p.seg.logPos p.idx hk⟩
  name _ := ⟨Nat.succ_pos _, hname⟩

/-- The event that is read next, wherever the dump is on the stream. -/
theorem OnStream.next {m : Master} {logname name : Bytes} {sent : Sent} {rest : List Sent}
    (h : OnStream m logname name (sent :: rest)) : Next m logname name sent rest := by
  generalize hstream : sent :: rest = stream at h
  cases h with
  | start name p =>
    obtain ⟨rfl, rfl⟩ := List.cons.inj hstream
    by_cases h0 : p.idx = 0
    · rw [if_pos h0, List.nil_append]
      exact next_rotate p (.inFile p fun _ => rfl) (unprocessed_sendFrom m p)
    · rw [if_neg h0, List.singleton_append]
      exact next_rotate p (.formatDescription p (Nat.pos_of_ne_zero h0)) (unprocessed_sendFrom m p)
  | formatDescription p hp =>
    obtain ⟨rfl, rfl⟩ := List.cons.inj hstream
    have hrotate := not_isRotate_of_isFormatDescription (m.isFormatDescription p.seg)
    refine ⟨?_, ⟨p, rfl, rfl, unprocessed_sendFrom m p⟩, fun _ => m.logPos p.seg,
      fun _ => .inr (m.isFormatDescription p.seg), nofun, fun _ => ⟨hp, rfl⟩⟩
    rw [currentName_of_not_rotate hrotate]
    exact .inFile p fun _ => rfl
  | inFile p hname =>
    by_cases hk : p.idx < p.seg.events.length
    · rw [Master.sendFrom, List.drop_eq_getElem_cons hk] at hstream
      obtain ⟨rfl, rfl⟩ := List.cons.inj hstream
      exact next_event p hk (hname hk)
    · -- The file is over: the next file's ROTATE event comes.
      rw [Master.sendFrom, List.drop_eq_nil_of_le (not_lt.mp hk)] at hstream
      obtain ⟨before, seg, after, idx, hsplit, hle⟩ := p
      cases after with
      | nil => cases hstream
      | cons g after =>
        obtain ⟨rfl, rfl⟩ := List.cons.inj hstream
        let p : m.Place := ⟨before ++ [seg], g, after, 0, by rw [hsplit, List.append_assoc]; rfl,
          Nat.zero_le _⟩
        exact next_rotate p (.inFile p fun _ => rfl) (unprocessed_sendFrom m p)

/-! ## A turn of the loop -/

/-- The state in which `process_event` is called. -/
def State.read (s : State) (logname : Bytes) (ev : Event) : State :=
  { s with currentLogName := currentName logname s.currentLogName ev }

/-- What a turn of the loop does: it fails, it skips the event, or it processes it. -/
inductive TurnCases (o : Options) (c : Calls) (logname : Bytes) (oldOff : ℕ) (s : State)
    (ev : Event) (t : Turn) : Prop
  /-- It fails. -/
  | failed (hprocessed : t.processed = none) (hresult : t.result = some .errorStop)
  /-- It skips the event. -/
  | skipped (hprocessed : t.processed = none) (hstate : t.state = s.read logname ev)
  /-- It processes it, and goes on only after `OK_CONTINUE`. -/
  | processed {retval : ExitStatus} (hprocessed : t.processed = some retval)
      (hevent : processEvent o c (s.read logname ev) ev oldOff = (retval, t.state))
      (hresult : t.result = none ∨ t.result = some .okContinue → retval = .okContinue)

/-- A turn that calls `process_event`. -/
theorem turnCases_process (o : Options) (c : Calls) (logname : Bytes) (oldOff len : ℕ) (s : State)
    (ev : Event) :
    TurnCases o c logname oldOff s ev (.process o c (s.read logname ev) ev oldOff len) := by
  refine .processed rfl rfl ?_
  unfold Turn.process
  dsimp only
  split
  · rename_i hok
    exact fun _ => hok
  · rename_i hne
    rintro (h | h)
    · cases h
    · exact Option.some.inj h

/-- An event that is no ROTATE event leaves the name as it is. -/
theorem State.read_of_not_rotate {s : State} {logname : Bytes} {ev : Event} (h : ¬ev.isRotate) :
    s.read logname ev = s := by
  unfold State.read
  rw [currentName_of_not_rotate h]

/-- The turn of the loop for an event. -/
theorem dumpEvent_cases (o : Options) (c : Calls) (logname : Bytes) (oldOff : ℕ) (s : State)
    (ev : Event) : TurnCases o c logname oldOff s ev (dumpEvent o c logname oldOff s ev) := by
  have hprocess := fun len => turnCases_process o c logname oldOff len s ev
  unfold dumpEvent
  split
  · split
    · rename_i newLogIdent hbody
      have hread : { s with currentLogName := strncpy newLogIdent logname.length } =
          s.read logname ev := by
        unfold State.read currentName
        rw [hbody]
      dsimp only
      rw [hread]
      split_ifs
      · exact .skipped rfl rfl
      · exact .skipped rfl rfl
      · exact hprocess 0
      · exact hprocess ev.len
    · rename_i hbody
      have hread : s.read logname ev = s :=
        State.read_of_not_rotate (by simp [Event.isRotate, hbody])
      rw [hread] at hprocess
      exact hprocess _
    · rename_i hrotate _
      have hread : s.read logname ev = s := by
        refine State.read_of_not_rotate fun h => ?_
        unfold Event.isRotate at h
        split at h
        · rename_i hbody
          exact hrotate _ hbody
        · cases h
      rw [hread] at hprocess
      exact hprocess _
  · rename_i hold
    rw [not_or, Bool.not_eq_true', Bool.not_eq_false] at hold
    have hread : s.read logname ev = s :=
      State.read_of_not_rotate (not_isRotate_of_isOldLoad hold.2)
    rw [hread] at hprocess
    split
    · exact .failed rfl rfl
    · dsimp only
      split
      · rename_i hload
        cases hprocess ev.len with
        | failed hprocessed _ => cases hprocessed
        | skipped hprocessed _ => cases hprocessed
        | processed hprocessed hevent hresult =>
          exact .processed hprocessed hevent fun _ => hresult (.inl hload.1)
      · exact hprocess ev.len

/-! ## Checkpoints -/

/-- In a dump, the event `sent` is processed with the result `OK_CONTINUE`, and `/tmp/name_and_pos`
is rewritten. -/
structure Saves (o : Options) (c : Calls) (d : Dump) (s : State) (sent : Sent) (name : Bytes)
    (pos : ℕ) : Prop where
  /-- `process_event` is called and returns `OK_CONTINUE`. -/
  processed : (dumpEvent o c d.logname d.oldOff s sent.ev).processed = some .okContinue
  /-- The file is open. -/
  npfp : (dumpEvent o c d.logname d.oldOff s sent.ev).state.npfp
  /-- The name and the position are in it. -/
  nameAndPos : (dumpEvent o c d.logname d.oldOff s sent.ev).state.nameAndPos = some (name, pos)

/-- The name and the position that are saved fit together. For an event that is handed over, the
position of the event before is that of the event. Any other event is not an artificial one, and
the name is that of its file: the file's own name is not cut, and a ROTATE event, by the cut, names
the file that it is in. -/
def Consistent (o : Options) (d : Dump) (s : State) (sent : Sent) : Prop :=
  if HandsOver o s sent.ev d.oldOff then
    strncpy sent.file.name d.logname.length = sent.file.name ∧
      s.evpos = boundary sent.file.events sent.next
  else sent.artificial = false ∧ currentName d.logname
    (strncpy sent.file.name d.logname.length) sent.ev = sent.file.name

/-- What is saved. -/
theorem Saves.eq {o : Options} {c : Calls} {d : Dump} {s : State} {sent : Sent} {name : Bytes}
    {pos : ℕ} (h : Saves o c d s sent name pos) :
    name = currentName d.logname s.currentLogName sent.ev ∧
      pos = if HandsOver o s sent.ev d.oldOff then s.evpos else sent.ev.logPos := by
  have hprocessed := h.processed
  have hname := h.nameAndPos
  cases dumpEvent_cases o c d.logname d.oldOff s sent.ev with
  | failed hnone _ => rw [hnone] at hprocessed; cases hprocessed
  | skipped hnone _ => rw [hnone] at hprocessed; cases hprocessed
  | processed hsome hevent hresult =>
    obtain rfl := Option.some.inj (hsome.symm.trans hprocessed)
    obtain ⟨hcur, hpos, hsave⟩ := processEvent_saves hevent
    rw [hsave h.npfp] at hname
    obtain ⟨rfl, rfl⟩ := Prod.mk.inj (Option.some.inj hname)
    exact ⟨hcur, hpos⟩

/-- A position that is saved is 0, or behind the first event of a file. -/
def PosOk (pos : ℕ) : Prop := pos = 0 ∨ 4 < pos

/-- The position of an event that is sent. -/
theorem Next.posOk {m : Master} {logname name : Bytes} {sent : Sent} {rest : List Sent}
    (h : Next m logname name sent rest) : PosOk sent.ev.logPos := by
  obtain ⟨p, hseg, hidx, -⟩ := h.place
  cases hart : sent.artificial with
  | true => exact .inl (h.artificial hart)
  | false =>
    obtain ⟨hpos, hlog⟩ := h.real hart
    have hle := p.le
    rw [hseg, hidx] at hle
    exact .inr (hlog ▸ sent.file.four_lt_boundary hpos hle)

/-- Nor is an event that is handed over. -/
theorem not_isRotate_of_handsOver {o : Options} {s : State} {ev : Event} {pos : ℕ}
    (h : HandsOver o s ev pos) : ¬ev.isRotate := by
  have hbody := h.2.2.2.2
  unfold HandedOverBody at hbody
  unfold Event.isRotate
  split at hbody
  · rename_i heq
    rw [heq]
    exact Bool.false_ne_true
  · rename_i heq
    rw [heq]
    exact Bool.false_ne_true
  · exact hbody.elim

/-- A position that is saved is not that of the start of a file. -/
theorem PosOk.ne_four {pos : ℕ} (h : PosOk pos) : pos ≠ 4 := by
  unfold PosOk at h
  omega

/-- A checkpoint is a resume point if and only if the name and the position fit together. -/
theorem Saves.correct_iff {m : Master} {o : Options} {c : Calls} {d : Dump} {s : State}
    {sent : Sent} {rest : List Sent} {name : Bytes} {pos : ℕ} (h : Saves o c d s sent name pos)
    (hnext : Next m d.logname s.currentLogName sent rest) (hevpos : PosOk s.evpos) :
    ResumePoint m (unprocessed rest) name pos ↔ Consistent o d s sent := by
  obtain ⟨rfl, rfl⟩ := h.eq
  have hlogPos := hnext.posOk
  obtain ⟨p, hseg, hidx, hrest⟩ := hnext.place
  unfold Consistent
  by_cases hover : HandsOver o s sent.ev d.oldOff
  · have hrotate := not_isRotate_of_handsOver hover
    have hcase : sent.artificial = false ∨ sent.ev.isFormatDescription := by
      cases hart : sent.artificial with
      | true => exact .inr ((hnext.artificial_body hart).resolve_left hrotate)
      | false => exact .inl rfl
    obtain ⟨hpos, hname⟩ := hnext.name hcase
    rw [if_pos hover, if_pos hover, currentName_of_not_rotate hrotate, hrest,
      Master.Place.resumePoint_rest (hidx ▸ hpos) hevpos.ne_four, Master.Place.offset, hseg, hidx,
      ← hname]
  · rw [if_neg hover, if_neg hover]
    cases hart : sent.artificial with
    | true =>
      rw [hnext.artificial hart]
      exact iff_of_false (not_resumePoint_zero m _ _) fun hh => Bool.false_ne_true hh.1.symm
    | false =>
      obtain ⟨hpos, hlog⟩ := hnext.real hart
      have hname := (hnext.name (.inl hart)).2
      rw [hrest, Master.Place.resumePoint_rest (hidx ▸ hpos) hlogPos.ne_four, Master.Place.offset,
        hseg, hidx, ← hname, hlog]
      exact ⟨fun hh => ⟨rfl, hh.1⟩, fun hh => ⟨hh.2, rfl⟩⟩

/-! ## Runs -/

/-- What holds of the program in every run. -/
structure Inv (m : Master) (c : Config m) : Prop where
  /-- A dump is on its stream. -/
  onStream : ∀ d, c.dump = some d → OnStream m d.logname c.state.currentLogName d.stream
  /-- The position is one that can be saved, as long as the program goes on. -/
  evpos : c.dump ≠ none ∨ c.args ≠ [] → PosOk c.state.evpos

/-- It holds in the beginning. -/
theorem inv_init {m : Master} {o : Options} {c : Config m} (h : (program m o).init c) :
    Inv m c := by
  obtain ⟨hstate, hdump⟩ := h
  refine ⟨fun d hd => ?_, fun _ => ?_⟩
  · rw [hdump] at hd
    cases hd
  · rw [hstate]
    exact .inl rfl

/-- The name and the position after a turn of the loop. -/
theorem TurnCases.keeps {m : Master} {o : Options} {c : Calls} {logname : Bytes} {oldOff : ℕ}
    {s : State} {sent : Sent} {rest : List Sent} {t : Turn}
    (h : TurnCases o c logname oldOff s sent.ev t)
    (hnext : Next m logname s.currentLogName sent rest) (hevpos : PosOk s.evpos)
    (hresult : t.result = none ∨ t.result = some .okContinue) :
    t.state.currentLogName = currentName logname s.currentLogName sent.ev ∧
      PosOk t.state.evpos := by
  cases h with
  | failed _ herror =>
    rw [herror] at hresult
    rcases hresult with h | h <;> cases h
  | skipped _ hstate =>
    rw [hstate]
    exact ⟨rfl, hevpos⟩
  | processed _ hevent hok =>
    obtain rfl := hok hresult
    obtain ⟨hname, hpos, -⟩ := processEvent_saves hevent
    refine ⟨hname, ?_⟩
    rw [hpos]
    split
    · exact hevpos
    · exact hnext.posOk

/-- No dump is under way when one is over. -/
theorem inv_finish {m : Master} {c : Config m} {s : State} (h : PosOk s.evpos) :
    Inv m (c.finish s) :=
  ⟨nofun, fun _ => h⟩

/-- Nor when the program has ended. -/
theorem inv_exit {m : Master} {c : Config m} {s : State} : Inv m (c.exit s) := by
  refine ⟨nofun, ?_⟩
  rintro (h | h) <;> exact absurd rfl h

/-- Every step keeps it. -/
theorem inv_step {m : Master} {o : Options} {c c' : Config m} {a : Act} (h : Inv m c)
    (hstep : (program m o).step c a = some c') : Inv m c' := by
  obtain ⟨s, dump, args⟩ := c
  change Config.step o _ a = some c' at hstep
  unfold Config.step at hstep
  cases a with
  | start version =>
    dsimp only at hstep
    split at hstep
    · rename_i arg args
      have hevpos : PosOk s.evpos := h.evpos (.inr (List.cons_ne_nil _ _))
      split at hstep
      · obtain rfl := Option.some.inj hstep
        exact inv_exit
      · split at hstep
        · cases hstep
        · obtain rfl := Option.some.inj hstep
          refine ⟨fun d hd => ?_, fun _ => hevpos⟩
          obtain rfl := Option.some.inj hd
          exact .start _ _
    · cases hstep
  | event calls =>
    dsimp only at hstep
    split at hstep
    · rename_i logname oldOff sent stream
      have hon := (h.onStream _ rfl).next
      have hevpos : PosOk s.evpos := h.evpos (.inl (Option.some_ne_none _))
      have hturn := dumpEvent_cases o calls logname oldOff s sent.ev
      generalize dumpEvent o calls logname oldOff s sent.ev = t at hstep hturn
      split at hstep
      · rename_i hresult
        obtain ⟨hname, hpos⟩ := hturn.keeps hon hevpos (.inl hresult)
        obtain rfl := Option.some.inj hstep
        refine ⟨fun d hd => ?_, fun _ => hpos⟩
        obtain rfl := Option.some.inj hd
        dsimp only
        rw [hname]
        exact hon.onStream
      · rename_i hresult
        obtain rfl := Option.some.inj hstep
        exact inv_finish (hturn.keeps hon hevpos (.inr hresult)).2
      · obtain rfl := Option.some.inj hstep
        exact inv_exit
    · cases hstep
  | eof =>
    dsimp only at hstep
    split at hstep
    · obtain rfl := Option.some.inj hstep
      exact inv_finish (h.evpos (.inl (Option.some_ne_none _)))
    · cases hstep

/-- A checkpoint is a resume point if and only if the name and the position fit together: in every
run, whenever `process_event` returns `OK_CONTINUE` and the file is rewritten. -/
theorem resumePoint_iff {m : Master} {o : Options} {c : Config m}
    (hc : (program m o).Reachable c) {d : Dump} (hd : c.dump = some d) {sent : Sent}
    {rest : List Sent} (hstream : d.stream = sent :: rest) {calls : Calls} {name : Bytes} {pos : ℕ}
    (h : Saves o calls d c.state sent name pos) :
    ResumePoint m (unprocessed rest) name pos ↔ Consistent o d c.state sent := by
  have hinv : Inv m c := hc.invariant (fun _ => inv_init) fun _ _ _ hi _ => inv_step hi
  have hon := hinv.onStream d hd
  rw [hstream] at hon
  exact h.correct_iff hon.next (hinv.evpos (.inl (by rw [hd]; exact Option.some_ne_none d)))

/-! ## A run over two files -/

instance (o : Options) (d : Dump) (s : State) (sent : Sent) :
    Decidable (Consistent o d s sent) := by
  unfold Consistent
  infer_instance

/-- The options `--to-last-log` and `--force-if-open`. -/
def toLastLog : Options where
  offset := 0
  startDatetime := 0
  startPosition := 4
  stopPosition := 2^64 - 1
  serverId := 0
  stopDatetime := 2^63 - 1
  shortForm := false
  base64OutputAlways := false
  database := none
  forceIfOpen := true
  toLastRemoteLog := true

/-- Calls that succeed. -/
def succeed : Calls := ⟨.okContinue, .okContinue, false, true, true, true, .okContinue⟩

/-- A format description event at the beginning of a file. -/
def formatDescription : Event := ⟨1, 1, 100, 104, .formatDescription 4 false⟩

/-- A statement behind it. -/
def statement : Event := ⟨2, 1, 50, 154, .query none false⟩

/-- A ROTATE event to the file `bin.2` behind that. -/
def rotate : Event := ⟨3, 1, 30, 184, .rotate (text "bin.2")⟩

/-- A file with these events. -/
def bin1 : LogFile where
  name := text "bin.1"
  events := [formatDescription, statement, rotate]
  len_pos := by decide
  logPos := by decide
  when_rotate := by decide
  rotate_last := by decide

/-- The next file. -/
def bin2 : LogFile where
  name := text "bin.2"
  events := [formatDescription, statement]
  len_pos := by decide
  logPos := by decide
  when_rotate := by decide
  rotate_last := by decide

/-- A master with the two files. -/
def master : Master where
  files := [bin1, bin2]
  nodup := by decide
  serverId := 1
  formatDescription _ := ⟨1, 1, 100, 0, .formatDescription 4 false⟩
  isFormatDescription _ := rfl
  logPos _ := rfl

/-- The place behind the first `k` events of `bin.1`. -/
def inBin1 (k : ℕ) (hk : k ≤ 3) : master.Place where
  before := []
  seg := bin1
  after := [bin2]
  idx := k
  split := rfl
  le := hk

/-- The program is called for `bin.1`. -/
def called : Config master where
  state := .init toLastLog
  dump := none
  args := [⟨text "bin.1", inBin1 0 (by decide)⟩]

/-- The static variables when the statement in `bin.1` is read. -/
def beforeStatement : State :=
  { State.init toLastLog with
    recCount := 2
    binlogVersion := 4
    currentLogName := text "bin.1"
    npfp := true
    nameAndPos := some (text "bin.1", 0) }

/-- The static variables when the ROTATE event in `bin.1` is read. -/
def beforeRotate : State :=
  { beforeStatement with recCount := 3, evpos := 154, nameAndPos := some (text "bin.1", 154) }

/-- The dump when the event behind the first `k` of `bin.1` is read. -/
def dumpInBin1 (oldOff k : ℕ) (hk : k ≤ 3) : Dump :=
  ⟨text "bin.1", oldOff, master.sendFrom (inBin1 k hk)⟩

/-- The program starts so. -/
theorem init_called : (program master toLastLog).init called := ⟨rfl, rfl⟩

/-- The statement is reached. -/
theorem reachable_statement : (program master toLastLog).Reachable
    ⟨beforeStatement, some (dumpInBin1 104 1 (by decide)), []⟩ := by
  have hrun : (program master toLastLog).run called
      [.start 53, .event succeed, .event succeed] =
        some ⟨beforeStatement, some (dumpInBin1 104 1 (by decide)), []⟩ := rfl
  exact (Lts.Reach.init init_called).run (Lts.runOk_of_forall (fun _ _ _ => trivial) _) hrun

/-- What is saved behind the statement. -/
theorem saves_statement : Saves toLastLog succeed (dumpInBin1 104 1 (by decide)) beforeStatement
    ⟨statement, bin1, 2, false⟩ (text "bin.1") 154 :=
  ⟨rfl, rfl, rfl⟩

/-- It is a resume point. -/
theorem resumePoint_statement :
    ResumePoint master [rotate, formatDescription, statement] (text "bin.1") 154 :=
  (resumePoint_iff reachable_statement rfl rfl saves_statement).mpr (by decide)

/-- The ROTATE event is reached. -/
theorem reachable_rotate : (program master toLastLog).Reachable
    ⟨beforeRotate, some (dumpInBin1 154 2 (by decide)), []⟩ := by
  have hrun : (program master toLastLog).run called
      [.start 53, .event succeed, .event succeed, .event succeed] =
        some ⟨beforeRotate, some (dumpInBin1 154 2 (by decide)), []⟩ := rfl
  exact (Lts.Reach.init init_called).run (Lts.runOk_of_forall (fun _ _ _ => trivial) _) hrun

/-- What is saved behind the ROTATE event: the name of the next file, and the position behind the
event in this one. -/
theorem saves_rotate : Saves toLastLog succeed (dumpInBin1 154 2 (by decide)) beforeRotate
    ⟨rotate, bin1, 3, false⟩ (text "bin.2") 184 :=
  ⟨rfl, rfl, rfl⟩

/-- It is not a resume point. -/
theorem not_resumePoint_rotate :
    (program master toLastLog).Reachable ⟨beforeRotate, some (dumpInBin1 154 2 (by decide)), []⟩ ∧
      Saves toLastLog succeed (dumpInBin1 154 2 (by decide)) beforeRotate
        ⟨rotate, bin1, 3, false⟩ (text "bin.2") 184 ∧
      ¬ResumePoint master [formatDescription, statement] (text "bin.2") 184 := by
  have hon : OnStream master (text "bin.1") beforeRotate.currentLogName
      (dumpInBin1 154 2 (by decide)).stream := .inFile (inBin1 2 (by decide)) fun _ => rfl
  refine ⟨reachable_rotate, saves_rotate, fun h => ?_⟩
  exact absurd ((saves_rotate.correct_iff hon.next (.inr (by decide))).mp h) (by decide)

end MgCommonUtils.Myreplicator
