import MgCommonUtils.Lib.Framing
import MgCommonUtils.Ebinlog.Parser

/-!
# The listener

`BinlogListener.get_event` (`ebinlog/BinlogListener.py`) appends what it receives to the bytes that
the parser left over, calls the parser, and drops the bytes that were parsed. The stream is a
sequence of events, which their length fields delimit (`framing`), and what the listener does with
it is told event by event: `Runs` are the parser's runs over the events of a stream, whatever the
pieces that the stream arrived in, and `runEvents` is the run in which each event is parsed on its
own bytes.

`Listener.feedAll_runs` says that the listener runs over the events, for every cut into pieces.
`Listener.feedAll_refines` says that where the events decode within their own bytes, the listener
is the consumer of the framing (`Framing.feed`), whose end does not depend on the cut.
-/

namespace MgCommonUtils.Ebinlog

open MgCommonUtils.Lib

/-- `wrap_Process`: Python refuses a string whose length is no `int`. -/
def wrapProcess (p : RowLogParser) (pBuf : Bytes) : Except Stop (RowLogParser × ProcessResult) :=
  if pBuf.length < 2147483648 then p.process pBuf else .error .overflow

/-- `BinlogListener`, with the parser that it calls. -/
structure Listener where
  /-- `__data`, what the parser left over. -/
  data : Bytes
  /-- The parser. -/
  parser : RowLogParser

/-- A turn of `get_event` on the next piece: the listener, and the rows that it returns. Without
rows `get_event` takes another turn. -/
def Listener.feed (l : Listener) (piece : Bytes) : Except Stop (Listener × List Row) := do
  let data := l.data ++ piece
  let (parser, ret) ← wrapProcess l.parser data
  return ({ data := data.drop ret.nBufOffSet, parser }, if ret.found = 1 then ret.rows else [])

/-- The listener after all the pieces, and the rows that it has returned. -/
def Listener.feedAll : Listener → List Bytes → Except Stop (Listener × List Row)
  | l, [] => .ok (l, [])
  | l, piece :: pieces => do
    let (l, rows) ← l.feed piece
    let (l, rest) ← l.feedAll pieces
    return (l, rows ++ rest)

/-! ## Events -/

/-- The length field of the header that the bytes start with. -/
def eventLength (s : Bytes) : ℕ := headerField s 9 4

/-- The type code in the header that the bytes start with. -/
def eventType (s : Bytes) : ℕ := headerField s 4 1

/-- A whole event. -/
structure IsEvent (e : Bytes) : Prop where
  /-- It has a header. -/
  header : 19 ≤ e.length
  /-- Its length field is its length. -/
  length : eventLength e = e.length

/-- The start of an event that is not whole, or nothing. -/
def Incomplete (s : Bytes) : Prop := s.length < 19 ∨ s.length < eventLength s

instance (e : Bytes) : Decidable (IsEvent e) :=
  decidable_of_iff (19 ≤ e.length ∧ eventLength e = e.length)
    ⟨fun h => ⟨h.1, h.2⟩, fun h => ⟨h.header, h.length⟩⟩

instance (s : Bytes) : Decidable (Incomplete s) := inferInstanceAs (Decidable (_ ∨ _))

/-- A header field is in the header. -/
theorem headerField_append {s : Bytes} {p n : ℕ} (h : p + n ≤ s.length) (t : Bytes) :
    headerField (s ++ t) p n = headerField s p n := by
  unfold headerField
  rw [List.drop_append_of_le_length (by omega), List.take_append_of_le_length (by simp; omega)]

theorem eventLength_append {s : Bytes} (h : 19 ≤ s.length) (t : Bytes) :
    eventLength (s ++ t) = eventLength s :=
  headerField_append (by omega) t

theorem eventType_append {s : Bytes} (h : 19 ≤ s.length) (t : Bytes) :
    eventType (s ++ t) = eventType s :=
  headerField_append (by omega) t

/-- The fields of an event's header that the parser reads and does not use. -/
structure EventHeader where
  /-- `nTimeStamp`. -/
  nTimeStamp : ℕ
  /-- `nServerID`. -/
  nServerID : ℕ
  /-- `nNextPos`. -/
  nNextPos : ℕ
  /-- `nFlag`. -/
  nFlag : ℕ

/-- The event with the given type and body, as the master encodes it. -/
def encodeEvent (h : EventHeader) (nTypeCode : ℕ) (body : Bytes) : Bytes :=
  (leBytes 4 h.nTimeStamp ++ leBytes 1 nTypeCode ++ leBytes 4 h.nServerID ++
    leBytes 4 (19 + body.length) ++ leBytes 4 h.nNextPos ++ leBytes 2 h.nFlag) ++ body

@[simp]
theorem length_encodeEvent (h : EventHeader) (nTypeCode : ℕ) (body : Bytes) :
    (encodeEvent h nTypeCode body).length = 19 + body.length := by
  simp only [encodeEvent, List.length_append, length_leBytes]

/-- The body of an encoded event. -/
theorem drop_encodeEvent (h : EventHeader) (nTypeCode : ℕ) (body : Bytes) :
    (encodeEvent h nTypeCode body).drop 19 = body := by
  unfold encodeEvent
  exact List.drop_left' (by simp)

/-- The type of an encoded event. -/
theorem eventType_encodeEvent (h : EventHeader) {nTypeCode : ℕ} (htype : nTypeCode < 256)
    (body : Bytes) : eventType (encodeEvent h nTypeCode body) = nTypeCode := by
  unfold eventType headerField encodeEvent
  simp only [List.append_assoc]
  rw [List.drop_left' (length_leBytes 4 _), List.take_left' (length_leBytes 1 _),
    leNat_leBytes (by omega)]

/-- The encoding of an event is an event. -/
theorem isEvent_encodeEvent (h : EventHeader) (nTypeCode : ℕ) {body : Bytes}
    (hbody : 19 + body.length < 4294967296) : IsEvent (encodeEvent h nTypeCode body) := by
  refine ⟨by simp, ?_⟩
  rw [length_encodeEvent]
  unfold eventLength headerField encodeEvent
  simp only [List.append_assoc]
  rw [← List.append_assoc (leBytes 4 _), ← List.append_assoc (leBytes 4 _ ++ _),
    List.drop_left' (by simp), List.take_left' (length_leBytes 4 _), leNat_leBytes (by omega)]

/-- The events of a stream, delimited by their length fields. -/
def framing : Framing UInt8 where
  next s :=
    if 19 ≤ s.length ∧ 19 ≤ eventLength s ∧ eventLength s ≤ s.length then some (eventLength s)
    else none
  next_pos h := by
    obtain ⟨hs, ⟨⟩⟩ := Option.ite_none_right_eq_some.mp h
    omega
  next_le h := by
    obtain ⟨hs, ⟨⟩⟩ := Option.ite_none_right_eq_some.mp h
    omega
  next_append t h := by
    obtain ⟨hs, ⟨⟩⟩ := Option.ite_none_right_eq_some.mp h
    simp only [List.length_append, eventLength_append hs.1]
    exact if_pos ⟨by omega, hs.2.1, by omega⟩

/-- The first event of a stream. -/
theorem next_eq_some {s : Bytes} {n : ℕ} : framing.next s = some n ↔
    19 ≤ s.length ∧ 19 ≤ n ∧ n ≤ s.length ∧ eventLength s = n := by
  change (if _ then some (eventLength s) else none) = some n ↔ _
  rw [Option.ite_none_right_eq_some]
  constructor
  · rintro ⟨⟨h1, h2, h3⟩, ⟨⟩⟩
    exact ⟨h1, h2, h3, rfl⟩
  · rintro ⟨h1, h2, h3, rfl⟩
    exact ⟨⟨h1, h2, h3⟩, rfl⟩

/-- A stream that starts with no whole event of legal length. -/
theorem next_eq_none {s : Bytes} : framing.next s = none ↔
    ¬(19 ≤ s.length ∧ 19 ≤ eventLength s ∧ eventLength s ≤ s.length) := by
  change (if _ then some (eventLength s) else none) = none ↔ _
  rw [ite_eq_right_iff]
  simp

theorem Incomplete.next {s : Bytes} (h : Incomplete s) : framing.next s = none := by
  rw [next_eq_none]
  rcases h with h | h <;> omega

/-- When the start of a stream has no event of legal length, and the stream has none but incomplete
ones, then so has its start. -/
theorem incomplete_of_rest_append {s t : Bytes} (hs : framing.next s = none)
    (h : Incomplete (framing.rest (s ++ t))) : Incomplete s := by
  by_contra hc
  obtain ⟨h1, h2⟩ := not_or.mp hc
  have hlen : ¬ 19 ≤ eventLength s := fun h19 =>
    next_eq_none.mp hs ⟨by omega, h19, by omega⟩
  have happ := eventLength_append (s := s) (by omega) t
  have hnone : framing.next (s ++ t) = none := next_eq_none.mpr fun h => hlen (happ ▸ h.2.1)
  rw [Framing.rest_none hnone] at h
  -- The length field is the one of the start, which is too short.
  rcases h with h | h
  · rw [List.length_append] at h
    omega
  · rw [happ, List.length_append] at h
    omega

theorem IsEvent.next {e : Bytes} (h : IsEvent e) (t : Bytes) :
    framing.next (e ++ t) = some e.length := by
  rw [next_eq_some, List.length_append, eventLength_append h.header, h.length]
  exact ⟨by have := h.header; omega, h.header, by omega, rfl⟩

/-- The events of a stream that is made of events and the start of one. -/
theorem frames_flatten {events : List Bytes} (h : ∀ e ∈ events, IsEvent e) {tail : Bytes}
    (ht : framing.next tail = none) : framing.frames (events.flatten ++ tail) = events := by
  induction events with
  | nil => rw [List.flatten_nil, List.nil_append, Framing.frames_none ht]
  | cons e events ih =>
    have he := h e List.mem_cons_self
    rw [List.flatten_cons, List.append_assoc, Framing.frames_some (he.next _),
      List.take_left, List.drop_left, ih fun e' he' => h e' (List.mem_cons_of_mem _ he')]

/-- What such a stream leaves over. -/
theorem rest_flatten {events : List Bytes} (h : ∀ e ∈ events, IsEvent e) {tail : Bytes}
    (ht : framing.next tail = none) : framing.rest (events.flatten ++ tail) = tail := by
  induction events with
  | nil => rw [List.flatten_nil, List.nil_append, Framing.rest_none ht]
  | cons e events ih =>
    have he := h e List.mem_cons_self
    rw [List.flatten_cons, List.append_assoc, Framing.rest_some (he.next _),
      List.drop_left, ih fun e' he' => h e' (List.mem_cons_of_mem _ he')]

/-! ## Runs over events -/

/-- The parser with an event of `n` bytes taken from the buffer. -/
def LogState.advance (s : LogState) (n : ℕ) : LogState := { s with nCurPos := u32 (s.nCurPos + n) }

/-- An event taken from a buffer and processed, with the memory from its body on. -/
def stepEvent (s : LogState) (e memory : Bytes) : Except Stop (LogState × List Row) :=
  processRowEvent (s.advance e.length) (eventType e) e.length memory

/-- An event processed on its own bytes. -/
def handleEvent (s : LogState) (e : Bytes) : Except Stop (LogState × List Row) :=
  stepEvent s e (e.drop 19)

/-- The run over events, each of which is processed on its own bytes. -/
def runEvents : LogState → List Bytes → Except Stop (LogState × List Row)
  | s, [] => .ok (s, [])
  | s, e :: events => do
    let (s, rows) ← handleEvent s e
    let (s, rest) ← runEvents s events
    return (s, rows ++ rest)

/-- The run over an event and others. -/
theorem runEvents_cons {s s' : LogState} {e : Bytes} {events : List Bytes} {rows : List Row} :
    runEvents s (e :: events) = .ok (s', rows) ↔ ∃ s₁ r r', handleEvent s e = .ok (s₁, r) ∧
      runEvents s₁ events = .ok (s', r') ∧ rows = r ++ r' := by
  constructor
  · intro h
    obtain ⟨⟨s₁, r⟩, he, h⟩ := except_bind_eq_ok.mp h
    obtain ⟨⟨s₂, r'⟩, hr, h⟩ := except_bind_eq_ok.mp h
    obtain ⟨rfl, rfl⟩ := Prod.mk.inj (Except.ok.inj h)
    exact ⟨s₁, r, r', he, hr, rfl⟩
  · rintro ⟨s₁, r, r', he, hr, rfl⟩
    exact except_bind_eq_ok.mpr ⟨_, he, except_bind_eq_ok.mpr ⟨_, hr, rfl⟩⟩

/-- The runs over events, each of which is processed with its own bytes and perhaps more in
memory. -/
inductive Runs : LogState → List Bytes → LogState → List Row → Prop
  | nil (s : LogState) : Runs s [] s []
  | cons {s s₁ s₂ : LogState} {e memory : Bytes} {events : List Bytes} {rows rest : List Row}
      (hm : e.drop 19 <+: memory) (h : stepEvent s e memory = .ok (s₁, rows))
      (hr : Runs s₁ events s₂ rest) : Runs s (e :: events) s₂ (rows ++ rest)

/-- A run over events followed by one over others. -/
theorem Runs.append {s s₁ s₂ : LogState} {es es' : List Bytes} {rows rows' : List Row}
    (h : Runs s es s₁ rows) (h' : Runs s₁ es' s₂ rows') :
    Runs s (es ++ es') s₂ (rows ++ rows') := by
  induction h with
  | nil => exact h'
  | cons hm he _ ih =>
    rw [List.append_assoc]
    exact .cons hm he (ih h')

/-- A run over events and others is a run over the events and one over the others. -/
theorem Runs.split {s s₂ : LogState} {es es' : List Bytes} {rows : List Row}
    (h : Runs s (es ++ es') s₂ rows) :
    ∃ s₁ r r', Runs s es s₁ r ∧ Runs s₁ es' s₂ r' ∧ rows = r ++ r' := by
  induction es generalizing s rows with
  | nil => exact ⟨s, [], rows, .nil s, h, rfl⟩
  | cons e es ih =>
    cases h with
    | cons hm he hr =>
      obtain ⟨s₁, r, r', h1, h2, rfl⟩ := ih hr
      exact ⟨s₁, _, r', .cons hm he h1, h2, (List.append_assoc _ _ _).symm⟩

/-- The run in which each event is processed on its own bytes. -/
theorem runs_of_runEvents {s s' : LogState} {events : List Bytes} {rows : List Row}
    (h : runEvents s events = .ok (s', rows)) : Runs s events s' rows := by
  induction events generalizing s rows with
  | nil =>
    obtain ⟨rfl, rfl⟩ := Prod.mk.inj (Except.ok.inj h)
    exact .nil s
  | cons e events ih =>
    obtain ⟨s₁, r, r', he, hr, rfl⟩ := runEvents_cons.mp h
    exact .cons (List.prefix_refl _) he (ih hr)

/-- Where the events decode within their own bytes, that is the only run. -/
theorem Runs.eq {s s₁ s₂ : LogState} {events : List Bytes} {rows rows' : List Row}
    (h : Runs s events s₁ rows) (h' : runEvents s events = .ok (s₂, rows')) :
    s₁ = s₂ ∧ rows = rows' := by
  induction h generalizing rows' with
  | nil =>
    obtain ⟨rfl, rfl⟩ := Prod.mk.inj (Except.ok.inj h')
    exact ⟨rfl, rfl⟩
  | cons hm he _ ih =>
    obtain ⟨t, r, r', he', hr', rfl⟩ := runEvents_cons.mp h'
    have hsame := (stable_processRowEvent _ _ _ hm he').symm.trans he
    obtain ⟨rfl, rfl⟩ := Prod.mk.inj (Except.ok.inj hsame)
    obtain ⟨rfl, rfl⟩ := ih hr'
    exact ⟨rfl, rfl⟩

/-- The run over events and others, each on its own bytes. -/
theorem runEvents_append {s s₁ s₂ : LogState} {es es' : List Bytes} {rows rows' : List Row}
    (h : runEvents s es = .ok (s₁, rows)) (h' : runEvents s₁ es' = .ok (s₂, rows')) :
    runEvents s (es ++ es') = .ok (s₂, rows ++ rows') := by
  induction es generalizing s rows with
  | nil =>
    obtain ⟨rfl, rfl⟩ := Prod.mk.inj (Except.ok.inj h)
    exact h'
  | cons e es ih =>
    obtain ⟨t, r, r', he, hr, rfl⟩ := runEvents_cons.mp h
    exact runEvents_cons.mpr ⟨t, r, r' ++ rows', he, ih hr, List.append_assoc _ _ _⟩

/-- The part over the first events of a run in which each is processed on its own bytes. -/
theorem runEvents_split {s s₂ : LogState} {es es' : List Bytes} {rows : List Row}
    (h : runEvents s (es ++ es') = .ok (s₂, rows)) : ∃ s₁ r r',
    runEvents s es = .ok (s₁, r) ∧ runEvents s₁ es' = .ok (s₂, r') ∧ rows = r ++ r' := by
  induction es generalizing s rows with
  | nil => exact ⟨s, [], rows, rfl, h, rfl⟩
  | cons e es ih =>
    obtain ⟨t, r, r', he, hr, rfl⟩ := runEvents_cons.mp h
    obtain ⟨s₁, q, q', h1, h2, rfl⟩ := ih hr
    exact ⟨s₁, r ++ q, q', runEvents_cons.mpr ⟨t, r, q, he, h1, rfl⟩, h2,
      (List.append_assoc _ _ _).symm⟩

/-! ## The loop over a buffer -/

/-- The parser after `_getEvent` has taken an event of `n` bytes. -/
def RowLogParser.taken (p : RowLogParser) (n : ℕ) : RowLogParser :=
  { p with
    nCurEvent := headerOf p.pBuf (p.pBuf.drop 19)
    pBuf := p.pBuf.drop n
    nCurPos := u32 (p.nCurPos + n)
    nBufOffSet := u32 (p.nBufOffSet + n) }

/-- `_getEvent` takes a whole event, whatever its length. -/
theorem getEvent_of_whole {p : RowLogParser} (h : ¬Incomplete p.pBuf) :
    p.getEvent = (true, p.taken (eventLength p.pBuf)) := by
  obtain ⟨h19, hlen⟩ := not_or.mp h
  unfold RowLogParser.getEvent
  rw [if_neg h19]
  exact if_neg hlen

/-- `_getEvent` takes the event that the buffer starts with. -/
theorem getEvent_of_next {p : RowLogParser} {n : ℕ} (h : framing.next p.pBuf = some n) :
    p.getEvent = (true, p.taken n) := by
  obtain ⟨h19, -, hn, rfl⟩ := next_eq_some.mp h
  exact getEvent_of_whole fun hinc => by rcases hinc with h | h <;> omega

/-- `_getEvent` without a whole event leaves everything but `_nCurEvent` as it is. -/
theorem getEvent_of_incomplete {p : RowLogParser} (h : Incomplete p.pBuf) :
    ∃ e, p.getEvent = (false, { p with nCurEvent := e }) := by
  unfold RowLogParser.getEvent
  by_cases h19 : p.pBuf.length < 19
  · exact ⟨p.nCurEvent, if_pos h19⟩
  · rw [if_neg h19]
    exact ⟨_, if_pos (h.resolve_left h19)⟩

/-- The event that was taken, as the code sees it in `_nCurEvent`. -/
theorem processRowEvent_taken {p : RowLogParser} {n : ℕ} (h : framing.next p.pBuf = some n) :
    processRowEvent (p.taken n).toLogState (p.taken n).nCurEvent.nTypeCode
      (p.taken n).nCurEvent.nEventLen (p.taken n).nCurEvent.pBuf =
    stepEvent p.toLogState (p.pBuf.take n) (p.pBuf.drop 19) := by
  obtain ⟨h19, hn19, hn, hlen⟩ := next_eq_some.mp h
  have htake : (p.pBuf.take n).length = n := List.length_take_of_le hn
  have htype : eventType (p.pBuf.take n) = eventType p.pBuf := by
    conv_rhs => rw [← List.take_append_drop n p.pBuf]
    rw [eventType_append (by omega)]
  unfold stepEvent
  rw [htake, htype]
  change processRowEvent _ (eventType p.pBuf) (eventLength p.pBuf) _ = _
  rw [hlen]
  rfl

/-- A turn of the loop takes an event and processes it. -/
theorem processLoop_succ {turns n : ℕ} {p p' : RowLogParser} {rows : List Row}
    (h : framing.next p.pBuf = some n) :
    processLoop (turns + 1) p = .ok (p', rows) ↔ ∃ s r r',
      stepEvent p.toLogState (p.pBuf.take n) (p.pBuf.drop 19) = .ok (s, r) ∧
      processLoop turns { p.taken n with toLogState := s } = .ok (p', r') ∧ rows = r ++ r' := by
  have hne : p.pBuf ≠ [] := by
    rintro h0
    simp [h0, next_eq_some] at h
  rw [processLoop, if_neg hne, getEvent_of_next h]
  dsimp only
  rw [processRowEvent_taken h, except_bind_eq_ok]
  constructor
  · rintro ⟨⟨s, r⟩, hs, h⟩
    obtain ⟨⟨q, r'⟩, hq, h⟩ := except_bind_eq_ok.mp h
    obtain ⟨rfl, rfl⟩ := Prod.mk.inj (Except.ok.inj h)
    exact ⟨s, r, r', hs, hq, rfl⟩
  · rintro ⟨s, r, r', hs, hq, rfl⟩
    exact ⟨(s, r), hs, except_bind_eq_ok.mpr ⟨(p', r'), hq, rfl⟩⟩

/-- Without a whole event the loop is over. -/
theorem processLoop_of_incomplete {p : RowLogParser} (h : Incomplete p.pBuf) {turns : ℕ}
    (hturns : p.pBuf.length ≤ turns) :
    ∃ e, processLoop turns p = .ok ({ p with nCurEvent := e }, []) := by
  by_cases h0 : p.pBuf = []
  · refine ⟨p.nCurEvent, ?_⟩
    cases turns with
    | zero => exact if_pos h0
    | succ turns => exact if_pos h0
  · cases turns with
    | zero => exact absurd (List.eq_nil_of_length_eq_zero (by omega)) h0
    | succ turns =>
      obtain ⟨e, he⟩ := getEvent_of_incomplete h
      refine ⟨e, ?_⟩
      rw [processLoop, if_neg h0, he]

/-- The loop runs over the events of the buffer, and leaves over what follows them. -/
theorem processLoop_runs {turns : ℕ} {p p' : RowLogParser} {rows : List Row}
    (h : processLoop turns p = .ok (p', rows)) (hturns : p.pBuf.length ≤ turns)
    (hrest : Incomplete (framing.rest p.pBuf)) (hfit : p.nBufOffSet + p.pBuf.length < 4294967296) :
    Runs p.toLogState (framing.frames p.pBuf) p'.toLogState rows ∧
      p'.pBuf = framing.rest p.pBuf ∧
      p'.nBufOffSet + p'.pBuf.length = p.nBufOffSet + p.pBuf.length := by
  induction turns generalizing p rows with
  | zero =>
    have h0 : p.pBuf = [] := List.eq_nil_of_length_eq_zero (by omega)
    have hnone : framing.next p.pBuf = none := by rw [h0]; exact Incomplete.next (.inl (by simp))
    rw [processLoop, if_pos h0] at h
    obtain ⟨rfl, rfl⟩ := Prod.mk.inj (Except.ok.inj h)
    rw [Framing.frames_none hnone, Framing.rest_none hnone]
    exact ⟨.nil _, rfl, rfl⟩
  | succ turns ih =>
    cases hn : framing.next p.pBuf with
    | none =>
      rw [Framing.rest_none hn] at hrest
      obtain ⟨e, he⟩ := processLoop_of_incomplete hrest hturns
      rw [he] at h
      obtain ⟨rfl, rfl⟩ := Prod.mk.inj (Except.ok.inj h)
      rw [Framing.frames_none hn, Framing.rest_none hn]
      exact ⟨.nil _, rfl, rfl⟩
    | some n =>
      obtain ⟨h19, hn19, hle, -⟩ := next_eq_some.mp hn
      obtain ⟨s, r, r', hs, hq, rfl⟩ := (processLoop_succ hn).mp h
      have hdrop : (p.pBuf.drop n).length = p.pBuf.length - n := List.length_drop
      have hoff : u32 (p.nBufOffSet + n) = p.nBufOffSet + n := u32_of_lt (by omega)
      rw [Framing.rest_some hn] at hrest ⊢
      obtain ⟨h1, h2, h3⟩ := ih hq (by change (p.pBuf.drop n).length ≤ turns; omega) hrest (by
        change u32 (p.nBufOffSet + n) + (p.pBuf.drop n).length < _
        omega)
      rw [Framing.frames_some hn]
      refine ⟨.cons ?_ hs h1, h2, h3.trans ?_⟩
      · -- the event's bytes are at the front of the buffer
        exact (List.take_prefix n p.pBuf).drop 19
      · change u32 (p.nBufOffSet + n) + (p.pBuf.drop n).length = _
        omega

/-- Where the events of the buffer decode within their own bytes, the loop returns. -/
theorem processLoop_returns {turns : ℕ} {p : RowLogParser} {s' : LogState} {rows : List Row}
    (h : runEvents p.toLogState (framing.frames p.pBuf) = .ok (s', rows))
    (hturns : p.pBuf.length ≤ turns) (hrest : Incomplete (framing.rest p.pBuf)) :
    ∃ p', processLoop turns p = .ok (p', rows) := by
  induction turns generalizing p rows with
  | zero =>
    have h0 : p.pBuf = [] := List.eq_nil_of_length_eq_zero (by omega)
    have hnone : framing.next p.pBuf = none := by rw [h0]; exact Incomplete.next (.inl (by simp))
    rw [Framing.frames_none hnone] at h
    obtain ⟨-, rfl⟩ := Prod.mk.inj (Except.ok.inj h)
    exact ⟨p, if_pos h0⟩
  | succ turns ih =>
    cases hn : framing.next p.pBuf with
    | none =>
      rw [Framing.rest_none hn] at hrest
      rw [Framing.frames_none hn] at h
      obtain ⟨-, rfl⟩ := Prod.mk.inj (Except.ok.inj h)
      obtain ⟨e, he⟩ := processLoop_of_incomplete hrest hturns
      exact ⟨_, he⟩
    | some n =>
      obtain ⟨h19, hn19, hle, -⟩ := next_eq_some.mp hn
      rw [Framing.frames_some hn] at h
      obtain ⟨⟨s, r⟩, hs, h⟩ := except_bind_eq_ok.mp h
      obtain ⟨⟨s₂, r'⟩, hr, h⟩ := except_bind_eq_ok.mp h
      obtain ⟨rfl, rfl⟩ := Prod.mk.inj (Except.ok.inj h)
      rw [Framing.rest_some hn] at hrest
      have hturns' : (p.pBuf.drop n).length ≤ turns := by
        rw [List.length_drop]
        omega
      obtain ⟨q, hq⟩ := ih (p := { p.taken n with toLogState := s }) hr hturns' hrest
      have hprefix : (p.pBuf.take n).drop 19 <+: p.pBuf.drop 19 :=
        (List.take_prefix n p.pBuf).drop 19
      exact ⟨q, (processLoop_succ hn).mpr
        ⟨s, r, r', stable_processRowEvent _ _ _ hprefix hs, hq, rfl⟩⟩

/-! ## Pieces -/

/-- A turn of `get_event` runs over the events that are whole, and keeps what follows them. -/
theorem Listener.feed_runs {l l' : Listener} {piece : Bytes} {rows : List Row}
    (h : l.feed piece = .ok (l', rows)) (hrest : Incomplete (framing.rest (l.data ++ piece))) :
    Runs l.parser.toLogState (framing.frames (l.data ++ piece)) l'.parser.toLogState rows ∧
      l'.data = framing.rest (l.data ++ piece) := by
  obtain ⟨⟨parser, ret⟩, hp, h⟩ := except_bind_eq_ok.mp h
  obtain ⟨rfl, rfl⟩ := Prod.mk.inj (Except.ok.inj h)
  unfold wrapProcess at hp
  split at hp
  · rename_i hfit
    obtain ⟨⟨p', pRows⟩, hloop, hp⟩ := except_bind_eq_ok.mp hp
    obtain ⟨rfl, rfl⟩ := Prod.mk.inj (Except.ok.inj hp)
    obtain ⟨hruns, hbuf, hoff⟩ := processLoop_runs hloop le_rfl hrest
      (by change 0 + (l.data ++ piece).length < _; omega)
    refine ⟨?_, ?_⟩
    · convert hruns using 1
      by_cases h0 : pRows = [] <;> simp [h0]
    · -- the offset that is returned is where the rest starts
      have hcut := framing.flatten_frames (l.data ++ piece)
      change p'.pBuf = framing.rest (l.data ++ piece) at hbuf
      change p'.nBufOffSet + p'.pBuf.length = 0 + (l.data ++ piece).length at hoff
      rw [hbuf] at hoff
      have hlen : (framing.frames (l.data ++ piece)).flatten.length = p'.nBufOffSet := by
        have := congrArg List.length hcut
        rw [List.length_append] at this
        omega
      change (l.data ++ piece).drop p'.nBufOffSet = _
      conv_lhs => rw [← hcut]
      exact List.drop_left' hlen
  · cases hp

/-- The listener runs over the events of the stream, whatever the pieces. -/
theorem Listener.feedAll_runs {l l' : Listener} {pieces : List Bytes} {rows : List Row}
    (h : l.feedAll pieces = .ok (l', rows)) (hl : framing.next l.data = none)
    (hrest : Incomplete (framing.rest (l.data ++ pieces.flatten))) :
    Runs l.parser.toLogState (framing.frames (l.data ++ pieces.flatten)) l'.parser.toLogState rows ∧
      l'.data = framing.rest (l.data ++ pieces.flatten) := by
  induction pieces generalizing l rows with
  | nil =>
    obtain ⟨rfl, rfl⟩ := Prod.mk.inj (Except.ok.inj h)
    rw [List.flatten_nil, List.append_nil, Framing.frames_none hl, Framing.rest_none hl]
    exact ⟨.nil _, rfl⟩
  | cons piece pieces ih =>
    obtain ⟨⟨l₁, r⟩, hfeed, h⟩ := except_bind_eq_ok.mp h
    obtain ⟨⟨l₂, r'⟩, hall, h⟩ := except_bind_eq_ok.mp h
    obtain ⟨rfl, rfl⟩ := Prod.mk.inj (Except.ok.inj h)
    rw [List.flatten_cons, ← List.append_assoc, Framing.rest_append] at hrest ⊢
    obtain ⟨hruns, hdata⟩ :=
      feed_runs hfeed (incomplete_of_rest_append (framing.next_rest _) hrest)
    rw [← hdata] at hrest ⊢
    obtain ⟨hruns', hdata'⟩ := ih hall (hdata ▸ framing.next_rest _) hrest
    rw [Framing.frames_append, ← hdata]
    exact ⟨hruns.append hruns', hdata'⟩

/-- The handling of an event by the consumer of the framing: the parser and the rows so far, or why
there are none. -/
def consume (x : Except Stop (LogState × List Row)) (e : Bytes) :
    Except Stop (LogState × List Row) := do
  let (s, rows) ← x
  let (s, rest) ← handleEvent s e
  return (s, rows ++ rest)

/-- A consumer that has stopped stays so. -/
theorem foldl_consume_error (events : List Bytes) (err : Stop) :
    events.foldl consume (.error err) = .error err := by
  induction events with
  | nil => rfl
  | cons e events ih => exact ih

/-- The handling of all events is the run over them. -/
theorem foldl_consume {events : List Bytes} {s s' : LogState} {rows rows' : List Row} :
    events.foldl consume (.ok (s, rows)) = .ok (s', rows') ↔
      ∃ r, runEvents s events = .ok (s', r) ∧ rows' = rows ++ r := by
  induction events generalizing s rows with
  | nil =>
    constructor
    · intro h
      obtain ⟨rfl, rfl⟩ := Prod.mk.inj (Except.ok.inj h)
      exact ⟨[], rfl, (List.append_nil _).symm⟩
    · rintro ⟨r, h, rfl⟩
      obtain ⟨rfl, rfl⟩ := Prod.mk.inj (Except.ok.inj h)
      rw [List.append_nil, List.foldl_nil]
  | cons e events ih =>
    rw [List.foldl_cons]
    cases he : handleEvent s e with
    | error err =>
      have hfail : consume (.ok (s, rows)) e = .error err := by
        simp [consume, he, bind, Except.bind]
      rw [hfail, foldl_consume_error]
      simp [runEvents, he, bind, Except.bind]
    | ok x =>
      obtain ⟨s₁, r₁⟩ := x
      have hok : consume (.ok (s, rows)) e = .ok (s₁, rows ++ r₁) := by
        simp [consume, he, bind, Except.bind, pure, Except.pure]
      rw [hok, ih]
      constructor
      · rintro ⟨r, hr, rfl⟩
        refine ⟨r₁ ++ r, ?_, List.append_assoc _ _ _⟩
        exact except_bind_eq_ok.mpr ⟨_, he, except_bind_eq_ok.mpr ⟨_, hr, rfl⟩⟩
      · rintro ⟨r, hr, rfl⟩
        obtain ⟨⟨t, q⟩, he', hr⟩ := except_bind_eq_ok.mp hr
        obtain ⟨rfl, rfl⟩ := Prod.mk.inj (Except.ok.inj (he.symm.trans he'))
        obtain ⟨⟨t', q'⟩, hr', hr⟩ := except_bind_eq_ok.mp hr
        obtain ⟨rfl, rfl⟩ := Prod.mk.inj (Except.ok.inj hr)
        exact ⟨q', hr', (List.append_assoc _ _ _).symm⟩

/-- A turn of `get_event` does what the consumer of the framing does with the piece. -/
theorem Listener.feed_refines {l : Listener} {piece d : Bytes} {s : LogState}
    {rows rows' : List Row}
    (h : framing.feed consume (.ok (l.parser.toLogState, rows), l.data) piece = (.ok (s, rows'), d))
    (hd : Incomplete d) (hfit : (l.data ++ piece).length < 2147483648) :
    ∃ l' r, l.feed piece = .ok (l', r) ∧ rows' = rows ++ r ∧ l'.parser.toLogState = s ∧
      l'.data = d := by
  obtain ⟨hrun, rfl⟩ := Prod.mk.inj h
  obtain ⟨r, hr, rfl⟩ := foldl_consume.mp hrun
  obtain ⟨p', hloop⟩ := processLoop_returns
    (p := { l.parser with pBuf := l.data ++ piece, nBufOffSet := 0 }) hr le_rfl hd
  let ret : ProcessResult :=
    { found := if r = [] then 0 else 1, nBufOffSet := p'.nBufOffSet, rows := r }
  have hprocess : wrapProcess l.parser (l.data ++ piece) = .ok (p', ret) :=
    (if_pos hfit).trans (except_bind_eq_ok.mpr ⟨_, hloop, rfl⟩)
  have hfeed : l.feed piece = .ok (⟨(l.data ++ piece).drop p'.nBufOffSet, p'⟩, r) := by
    refine except_bind_eq_ok.mpr ⟨_, hprocess, ?_⟩
    by_cases h0 : r = [] <;> simp [ret, h0, pure, Except.pure]
  obtain ⟨hruns, hdata⟩ := feed_runs hfeed hd
  exact ⟨_, r, hfeed, rfl, (hruns.eq hr).1, hdata⟩

/-- Python passes the bytes that are left over, with the next piece, to the parser in every
turn. -/
def Fits : Bytes → List Bytes → Prop
  | _, [] => True
  | d, piece :: pieces =>
    (d ++ piece).length < 2147483648 ∧ Fits (framing.rest (d ++ piece)) pieces

/-- A stream that can be passed in one call can be passed in pieces. -/
theorem fits_of_length_lt {d : Bytes} {pieces : List Bytes}
    (h : (d ++ pieces.flatten).length < 2147483648) : Fits d pieces := by
  induction pieces generalizing d with
  | nil => trivial
  | cons piece pieces ih =>
    have hcut := congrArg List.length (framing.flatten_frames (d ++ piece))
    simp only [List.flatten_cons, List.length_append] at h hcut
    refine ⟨?_, ih ?_⟩
    · rw [List.length_append]
      omega
    · rw [List.length_append]
      omega

/-- Events that can each be passed in a call can be received one by one. -/
theorem fits_events {events : List Bytes}
    (h : ∀ e ∈ events, IsEvent e ∧ e.length < 2147483648) : Fits [] events := by
  induction events with
  | nil => trivial
  | cons e events ih =>
    obtain ⟨he, hlen⟩ := h e List.mem_cons_self
    have hrest : framing.rest ([] ++ e) = [] := by
      have hsome := he.next []
      rw [List.append_nil] at hsome
      rw [List.nil_append, Framing.rest_some hsome, List.drop_length]
      exact Framing.rest_none (Incomplete.next (.inl (by simp)))
    refine ⟨hlen, ?_⟩
    rw [hrest]
    exact ih fun x hx => h x (List.mem_cons_of_mem _ hx)

/-- The listener does what the consumer of the framing does with the pieces. -/
theorem Listener.feedAll_refines {l : Listener} {pieces : List Bytes} {d : Bytes} {s : LogState}
    {rows rows' : List Row}
    (h : framing.feedAll consume (.ok (l.parser.toLogState, rows), l.data) pieces =
      (.ok (s, rows'), d))
    (hd : Incomplete d) (hfit : Fits l.data pieces) :
    ∃ l' r, l.feedAll pieces = .ok (l', r) ∧ rows' = rows ++ r ∧ l'.parser.toLogState = s ∧
      l'.data = d := by
  induction pieces generalizing l rows with
  | nil =>
    obtain ⟨hs, rfl⟩ := Prod.mk.inj h
    obtain ⟨rfl, rfl⟩ := Prod.mk.inj (Except.ok.inj hs)
    exact ⟨l, [], rfl, (List.append_nil _).symm, rfl, rfl⟩
  | cons piece pieces ih =>
    obtain ⟨hfit₁, hfits⟩ := hfit
    obtain ⟨y, d₁, hy⟩ : ∃ y d₁, framing.feed consume
        (.ok (l.parser.toLogState, rows), l.data) piece = (y, d₁) := ⟨_, _, rfl⟩
    have hnext : framing.next d₁ = none := (Prod.mk.inj hy).2 ▸ framing.next_rest _
    have hall : framing.feedAll consume (y, d₁) pieces = (.ok (s, rows'), d) := hy ▸ h
    have hwhole := hall
    rw [Framing.feedAll_eq consume _ hnext] at hwhole
    obtain ⟨hrun, hrest⟩ := Prod.mk.inj hwhole
    -- What the first piece leaves over is the start of an event, since the rest is.
    have hd₁ : Incomplete d₁ := incomplete_of_rest_append hnext (hrest ▸ hd)
    cases y with
    | error err =>
      rw [foldl_consume_error] at hrun
      cases hrun
    | ok x =>
      obtain ⟨s₁, rows₁⟩ := x
      obtain ⟨l₁, r, hfeed, rfl, rfl, rfl⟩ := feed_refines hy hd₁ hfit₁
      have hdata : framing.rest (l.data ++ piece) = l₁.data := (Prod.mk.inj hy).2
      obtain ⟨l', r', hall', rfl, hs, hl'⟩ := ih hall (hdata ▸ hfits)
      exact ⟨l', r ++ r', except_bind_eq_ok.mpr ⟨_, hfeed, except_bind_eq_ok.mpr ⟨_, hall', rfl⟩⟩,
        List.append_assoc _ _ _, hs, hl'⟩

/-- Where the events of the stream decode within their own bytes, the listener returns, whatever
the pieces, and ends like the run over the events. -/
theorem Listener.feedAll_returns {l : Listener} {pieces : List Bytes} {s : LogState}
    {rows : List Row} (hl : framing.next l.data = none)
    (h : runEvents l.parser.toLogState (framing.frames (l.data ++ pieces.flatten)) = .ok (s, rows))
    (hrest : Incomplete (framing.rest (l.data ++ pieces.flatten))) (hfit : Fits l.data pieces) :
    ∃ l', l.feedAll pieces = .ok (l', rows) ∧ l'.parser.toLogState = s ∧
      l'.data = framing.rest (l.data ++ pieces.flatten) := by
  have hfeed : framing.feedAll consume (.ok (l.parser.toLogState, []), l.data) pieces =
      (.ok (s, rows), framing.rest (l.data ++ pieces.flatten)) := by
    rw [Framing.feedAll_eq consume _ hl]
    exact Prod.ext (foldl_consume.mpr ⟨rows, h, rfl⟩) rfl
  obtain ⟨l', r, hall, rfl, hs, hd⟩ := feedAll_refines hfeed hrest hfit
  exact ⟨l', hall, hs, hd⟩

/-- The end does not depend on the cut: for a stream of events that decode within their own bytes,
and perhaps the start of another, the rows, the bytes left over and the parser are those of one
call with the whole stream. -/
theorem feedAll_eq_feed {events : List Bytes} {tail : Bytes} {pieces : List Bytes}
    {p : RowLogParser} (hevents : ∀ e ∈ events, IsEvent e) (htail : Incomplete tail)
    (hcut : pieces.flatten = events.flatten ++ tail)
    (hfit : (events.flatten ++ tail).length < 2147483648)
    (hdecode : ∃ r, runEvents p.toLogState events = .ok r) :
    ∃ l l' rows, Listener.feedAll ⟨[], p⟩ pieces = .ok (l, rows) ∧
      Listener.feed ⟨[], p⟩ (events.flatten ++ tail) = .ok (l', rows) ∧
      l.data = tail ∧ l'.data = tail ∧ l.parser.toLogState = l'.parser.toLogState := by
  obtain ⟨⟨s, rows⟩, hrun⟩ := hdecode
  have hframes := frames_flatten hevents htail.next
  have hrest := rest_flatten hevents htail.next
  have hnil : framing.next ([] : Bytes) = none := Incomplete.next (.inl (by simp))
  have hfeed : framing.feed consume (.ok (p.toLogState, []), []) (events.flatten ++ tail) =
      (.ok (s, rows), tail) := by
    refine Prod.ext ?_ hrest
    change (framing.frames (events.flatten ++ tail)).foldl consume _ = _
    rw [hframes]
    exact foldl_consume.mpr ⟨rows, hrun, rfl⟩
  obtain ⟨l', r, hl', hr, hs', hd'⟩ :=
    Listener.feed_refines (l := ⟨[], p⟩) hfeed htail hfit
  obtain rfl : rows = r := hr
  obtain ⟨l, hl, hs, hd⟩ := Listener.feedAll_returns (l := ⟨[], p⟩) hnil
    (by rw [List.nil_append, hcut, hframes]; exact hrun)
    (by rw [List.nil_append, hcut, hrest]; exact htail)
    (fits_of_length_lt (by rw [List.nil_append, hcut]; exact hfit))
  refine ⟨l, l', rows, hl, hl', ?_, hd', hs.trans hs'.symm⟩
  rw [hd, List.nil_append, hcut, hrest]

/-- A parser in memory that holds zeros. -/
def zeroParser : RowLogParser :=
  { nTablePos := 0, nCurPos := 0, nStartPos := 0, nCurStat := 0, nItemIndex := 0, nStartIndex := 0
    szCurLogName := List.replicate 128 0, tableMap := .empty, pBuf := [], nBufOffSet := 0
    nCurEvent := headerOf [] [] }

/-- The TABLE_MAP event of the table `d.t`, with table id 1 and a TINYINT column. -/
def mapEvent : Bytes :=
  encodeEvent ⟨0, 1, 0, 0⟩ tableMapEvent [1, 0, 0, 0, 0, 0, 1, 0, 1, 100, 0, 1, 116, 0, 1, 1, 0, 0]

/-- The event of the insert of 7 into the table with id 1. -/
def insertEvent : Bytes :=
  encodeEvent ⟨0, 1, 0, 0⟩ writeRowsEvent [1, 0, 0, 0, 0, 0, 1, 0, 1, 255, 254, 7]

/-- The two events and the start of a third, cut in the header of the first and in the body of the
second. -/
theorem feedAll_eq_feed_insert : ∃ l l' rows,
    Listener.feedAll ⟨[], zeroParser⟩
      [mapEvent.take 5, mapEvent.drop 5 ++ insertEvent.take 25, insertEvent.drop 25 ++ [9, 9]] =
        .ok (l, rows) ∧
    Listener.feed ⟨[], zeroParser⟩ ([mapEvent, insertEvent].flatten ++ [9, 9]) = .ok (l', rows) ∧
    l.data = [9, 9] ∧ l'.data = [9, 9] ∧ l.parser.toLogState = l'.parser.toLogState :=
  feedAll_eq_feed (by decide) (by decide) (by decide) (by decide)
    (exists_ok_of_isSome (by decide +kernel))

end MgCommonUtils.Ebinlog
