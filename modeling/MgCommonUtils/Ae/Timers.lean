import MgCommonUtils.Lib.Transition
import Mathlib.Tactic

/-!
# The time events of `ae.c`

The list of timers, and `processTimeEvents`, which calls those that are due. A procedure that it
calls can create timers and delete them, also its own and those that are still to come, so after
each call the loop starts again from the head of the list. It leaves out the timers that are created
meanwhile, by their ids (`maxId`).

No timer that is due when the loop starts is passed over, unless a procedure deletes it, and none is
called that was created meanwhile (`timers_called`). Each is called once as long as the procedures
take less time than they ask to wait (`timers_once`); one that asks to be called again at once is
called for ever (`timers_endless`). Between the passes of the event loop, `aeProcessEvents` waits
for the nearest timer, and waits too long when that one is overdue (`wait_nearest`).
-/

namespace MgCommonUtils.Ae

open MgCommonUtils.Lib

/-! ## The model -/

/-- A point in time as `aeGetTime` has it. -/
structure AeTime where
  /-- The seconds. -/
  sec : ℤ
  /-- The milliseconds. -/
  ms : ℤ
  deriving DecidableEq, Repr

/-- In milliseconds. -/
def AeTime.total (t : AeTime) : ℤ := 1000 * t.sec + t.ms

/-- The milliseconds are less than a second, as those of the clock are. -/
structure AeTime.Valid (t : AeTime) : Prop where
  /-- Not negative. -/
  nonneg : 0 ≤ t.ms
  /-- Less than a second. -/
  lt : t.ms < 1000

/-- Whether it is one can be computed. -/
instance (t : AeTime) : Decidable t.Valid :=
  decidable_of_iff (0 ≤ t.ms ∧ t.ms < 1000) ⟨fun h => ⟨h.1, h.2⟩, fun h => ⟨h.nonneg, h.lt⟩⟩

/-- `aeAddMillisecondsToNow`, when the clock says `cur`. -/
def aeAddMillisecondsToNow (milliseconds : ℤ) (cur : AeTime) : AeTime :=
  let when_sec := cur.sec + milliseconds.tdiv 1000
  let when_ms := cur.ms + milliseconds.tmod 1000
  if 1000 ≤ when_ms then ⟨when_sec + 1, when_ms - 1000⟩ else ⟨when_sec, when_ms⟩

/-- `aeTimeEvent`, with procedures `P` and client data `D`. -/
structure AeTimeEvent (P D : Type) where
  /-- The identifier. -/
  id : ℕ
  /-- `when_sec` and `when_ms`. -/
  due : AeTime
  /-- What is called. -/
  timeProc : P
  /-- What is called when the timer is deleted. -/
  finalizerProc : Option P
  /-- What both are called with. -/
  clientData : D
  deriving DecidableEq, Repr

/-- `aeEventLoop`, as to the time events. -/
structure AeTimers (P D : Type) where
  /-- The list. -/
  timeEventHead : List (AeTimeEvent P D) := []
  /-- The next identifier. -/
  timeEventNextId : ℕ := 0
  /-- The calls of finalizers. -/
  finalized : List (P × D) := []
  deriving DecidableEq, Repr

variable {P D : Type}

/-- `aeCreateTimeEvent`, when the clock says `now`. Without memory, it takes an identifier only. -/
def aeCreateTimeEvent (el : AeTimers P D) (milliseconds : ℤ) (proc : P) (clientData : D)
    (finalizerProc : Option P) (now : AeTime) (memory : Bool) : AeTimers P D :=
  let id := el.timeEventNextId
  if memory then
    let te := ⟨id, aeAddMillisecondsToNow milliseconds now, proc, finalizerProc, clientData⟩
    { el with timeEventHead := te :: el.timeEventHead, timeEventNextId := id + 1 }
  else { el with timeEventNextId := id + 1 }

/-- `aeDeleteTimeEvent`. -/
def aeDeleteTimeEvent (el : AeTimers P D) (id : ℕ) : AeTimers P D :=
  match el.timeEventHead.find? fun te => te.id = id with
  | none => el
  | some te => { el with
    timeEventHead := el.timeEventHead.eraseP fun te => te.id = id
    finalized := el.finalized ++ te.finalizerProc.toList.map fun proc => (proc, te.clientData) }

/-- The comparison of `aeSearchNearestTimer`. -/
def AeTime.before (a b : AeTime) : Bool := a.sec < b.sec || (a.sec = b.sec && a.ms < b.ms)

/-- `AE_NOMORE`. -/
def AE_NOMORE : ℤ := -1

/-- What a procedure does with the timers. -/
inductive TimeOp (P D : Type) where
  /-- `aeCreateTimeEvent`. -/
  | create (milliseconds : ℤ) (proc : P) (clientData : D) (finalizerProc : Option P) (now : AeTime)
      (memory : Bool)
  /-- `aeDeleteTimeEvent`. -/
  | delete (id : ℕ)

/-- It is done. -/
def TimeOp.apply (el : AeTimers P D) : TimeOp P D → AeTimers P D
  | .create milliseconds proc clientData finalizerProc now memory =>
    aeCreateTimeEvent el milliseconds proc clientData finalizerProc now memory
  | .delete id => aeDeleteTimeEvent el id

/-- What a turn of the loop of `processTimeEvents` gets from the system and from the procedure. -/
structure TimeInput (P D : Type) where
  /-- What the clock says. -/
  now : AeTime
  /-- What the procedure does, if it is called. -/
  ops : List (TimeOp P D)
  /-- What the procedure returns. -/
  retval : ℤ
  /-- What the clock says after that. -/
  again : AeTime

/-- The variables of `processTimeEvents`. -/
structure TimeCall (P D : Type) where
  /-- The list. -/
  timers : AeTimers P D
  /-- `te` and the timers behind it. -/
  te : List (AeTimeEvent P D)
  /-- `maxId`. -/
  maxId : ℤ
  /-- The timers that have been called, as they were, and what the clock said. -/
  processed : List (AeTimeEvent P D × AeTime) := []

/-- Before the first turn. -/
def TimeCall.start (el : AeTimers P D) : TimeCall P D where
  timers := el
  te := el.timeEventHead
  maxId := el.timeEventNextId - 1

/-- The timer is due. -/
def AeTimeEvent.isDue (te : AeTimeEvent P D) (now : AeTime) : Bool :=
  now.sec > te.due.sec || (now.sec = te.due.sec && now.ms ≥ te.due.ms)

/-- The time of a timer is set anew. -/
def AeTimers.setDue (el : AeTimers P D) (id : ℕ) (due : AeTime) : AeTimers P D :=
  { el with
    timeEventHead := el.timeEventHead.map fun te =>
      if te.id = id then { te with due := due } else te }

/-- After the call of a procedure. The time is set through the pointer `te`, which is gone if the
procedure has deleted its own timer. -/
def afterProc (el : AeTimers P D) (id : ℕ) (retval : ℤ) (again : AeTime) :
    Option (AeTimers P D) :=
  if retval = AE_NOMORE then some (aeDeleteTimeEvent el id)
  else if ∃ te ∈ el.timeEventHead, te.id = id then
    some (el.setDue id (aeAddMillisecondsToNow retval again))
  else none

/-- A turn of the loop of `processTimeEvents`, or none where `te` is `NULL` and where freed memory
is used. -/
def timeTurn (c : TimeCall P D) (i : TimeInput P D) : Option (TimeCall P D) :=
  match c.te with
  | [] => none
  | te :: rest =>
    if (te.id : ℤ) > c.maxId then some { c with te := rest }
    else if te.isDue i.now then
      (afterProc (i.ops.foldl TimeOp.apply c.timers) te.id i.retval i.again).map fun el =>
        { c with timers := el, te := el.timeEventHead, processed := c.processed ++ [(te, i.now)] }
    else some { c with te := rest }

/-- `processTimeEvents`, turn by turn. It returns where `te` is `NULL`. -/
def processTimeEvents (el : AeTimers P D) : Lts (TimeCall P D) (TimeInput P D) where
  init c := c = .start el
  step := timeTurn

/-- What changes the timers of a program. -/
inductive TimerAct (P D : Type) where
  /-- A creation or a deletion, between the passes of the event loop or by a procedure for a
  descriptor. -/
  | op (op : TimeOp P D)
  /-- A call of `processTimeEvents`, with what its turns get. -/
  | process (is : List (TimeInput P D))

/-- The timers of a program, from `aeCreateEventLoop` on. -/
def timerSystem (P D : Type) : Lts (AeTimers P D) (TimerAct P D) where
  init el := el = {}
  step el act :=
    match act with
    | .op op => some (op.apply el)
    | .process is => ((processTimeEvents el).run (.start el) is).bind fun c =>
      match c.te with
      | [] => some c.timers
      | _ :: _ => none

/-! ## Points in time -/

/-- Adding milliseconds to a point in time. -/
theorem total_aeAddMillisecondsToNow (milliseconds : ℤ) (cur : AeTime) :
    (aeAddMillisecondsToNow milliseconds cur).total = cur.total + milliseconds := by
  have hdiv := Int.mul_tdiv_add_tmod milliseconds 1000
  simp only [aeAddMillisecondsToNow, AeTime.total]
  split_ifs <;> simp only <;> omega

/-- A time that is not in the past has its milliseconds less than a second. -/
theorem valid_aeAddMillisecondsToNow {milliseconds : ℤ} (hms : 0 ≤ milliseconds) {cur : AeTime}
    (hcur : cur.Valid) : (aeAddMillisecondsToNow milliseconds cur).Valid := by
  obtain ⟨hnonneg, hlt⟩ := hcur
  have hmod := Int.tmod_nonneg 1000 hms
  have hmod_lt := Int.tmod_lt_of_pos milliseconds (show (0 : ℤ) < 1000 by decide)
  simp only [aeAddMillisecondsToNow]
  split_ifs <;> constructor <;> simp only <;> omega

/-- A timer is due from its time on. -/
theorem AeTimeEvent.isDue_iff {te : AeTimeEvent P D} {now : AeTime} (hte : te.due.Valid)
    (hnow : now.Valid) : te.isDue now = true ↔ te.due.total ≤ now.total := by
  obtain ⟨ha₀, ha₁⟩ := hte
  obtain ⟨hb₀, hb₁⟩ := hnow
  simp only [AeTimeEvent.isDue, AeTime.total, Bool.or_eq_true, Bool.and_eq_true,
    decide_eq_true_eq]
  omega

/-! ## The list -/

/-- The list of timers. -/
structure AeTimers.Inv (el : AeTimers P D) : Prop where
  /-- A timer that is further behind is older. -/
  ids : el.timeEventHead.Pairwise fun a b => b.id < a.id
  /-- Identifiers have been given out. -/
  bound : ∀ te ∈ el.timeEventHead, te.id < el.timeEventNextId
  /-- The times are those of a clock. -/
  valid : ∀ te ∈ el.timeEventHead, te.due.Valid

variable {el : AeTimers P D}

/-- A timer is determined by its identifier. -/
theorem AeTimers.Inv.id_inj (hel : el.Inv) {a b : AeTimeEvent P D} (ha : a ∈ el.timeEventHead)
    (hb : b ∈ el.timeEventHead) (h : a.id = b.id) : a = b := by
  obtain ⟨i, hi, rfl⟩ := List.getElem_of_mem ha
  obtain ⟨j, hj, rfl⟩ := List.getElem_of_mem hb
  have hpair := List.pairwise_iff_getElem.mp hel.ids
  obtain hij | rfl | hji := lt_trichotomy i j
  · have := hpair i j hi hj hij
    omega
  · rfl
  · have := hpair j i hj hi hji
    omega

/-- A timer is created. -/
theorem AeTimers.Inv.create (hel : el.Inv) {milliseconds : ℤ} (hms : 0 ≤ milliseconds)
    {now : AeTime} (hnow : now.Valid) (proc : P) (clientData : D) (finalizerProc : Option P)
    (memory : Bool) :
    (aeCreateTimeEvent el milliseconds proc clientData finalizerProc now memory).Inv := by
  unfold aeCreateTimeEvent
  cases memory with
  | false => exact ⟨hel.ids, fun te hte => Nat.lt_succ_of_lt (hel.bound te hte), hel.valid⟩
  | true =>
    rw [if_pos rfl]
    constructor
    · exact List.pairwise_cons.mpr ⟨fun te hte => hel.bound te hte, hel.ids⟩
    · intro te hte
      obtain rfl | hte := List.mem_cons.mp hte
      · exact Nat.lt_succ_self _
      · exact Nat.lt_succ_of_lt (hel.bound te hte)
    · intro te hte
      obtain rfl | hte := List.mem_cons.mp hte
      · exact valid_aeAddMillisecondsToNow hms hnow
      · exact hel.valid te hte

/-- What a deletion leaves. -/
theorem timeEventHead_aeDeleteTimeEvent (el : AeTimers P D) (id : ℕ) :
    (aeDeleteTimeEvent el id).timeEventHead = el.timeEventHead.eraseP fun te => te.id = id := by
  unfold aeDeleteTimeEvent
  cases hfind : el.timeEventHead.find? fun te => te.id = id with
  | none =>
    refine (List.eraseP_of_forall_not fun te hte => ?_).symm
    exact List.find?_eq_none.mp hfind te hte
  | some te => rfl

/-- A deletion gives out no identifier. -/
theorem timeEventNextId_aeDeleteTimeEvent (el : AeTimers P D) (id : ℕ) :
    (aeDeleteTimeEvent el id).timeEventNextId = el.timeEventNextId := by
  unfold aeDeleteTimeEvent
  split <;> rfl

/-- What is there after a deletion was there before. -/
theorem mem_of_mem_aeDeleteTimeEvent {id : ℕ} {te : AeTimeEvent P D}
    (h : te ∈ (aeDeleteTimeEvent el id).timeEventHead) : te ∈ el.timeEventHead := by
  rw [timeEventHead_aeDeleteTimeEvent] at h
  exact List.mem_of_mem_eraseP h

/-- A timer is deleted. -/
theorem AeTimers.Inv.delete (hel : el.Inv) (id : ℕ) : (aeDeleteTimeEvent el id).Inv where
  ids := by
    rw [timeEventHead_aeDeleteTimeEvent]
    exact hel.ids.sublist List.eraseP_sublist
  bound te hte := by
    rw [timeEventNextId_aeDeleteTimeEvent]
    exact hel.bound te (mem_of_mem_aeDeleteTimeEvent hte)
  valid te hte := hel.valid te (mem_of_mem_aeDeleteTimeEvent hte)

/-- A timer that has been deleted is not there. -/
theorem AeTimers.Inv.notMem_delete (hel : el.Inv) {id : ℕ} {te : AeTimeEvent P D}
    (h : te ∈ (aeDeleteTimeEvent el id).timeEventHead) : te.id ≠ id := by
  intro hid
  rw [timeEventHead_aeDeleteTimeEvent] at h
  -- The timer is the first with its identifier, and it is not doubled.
  have hmem := List.mem_of_mem_eraseP h
  obtain ⟨a, l₁, l₂, hl₁, ha, hsplit, herase⟩ :=
    List.exists_of_eraseP (p := fun te => decide (te.id = id)) hmem (decide_eq_true hid)
  have haid : a.id = id := of_decide_eq_true ha
  rw [herase] at h
  have hids := hel.ids
  rw [hsplit, List.pairwise_append, List.pairwise_cons] at hids
  obtain h | h := List.mem_append.mp h
  · exact hl₁ te h (decide_eq_true hid)
  · have := hids.2.1.1 te h
    omega

/-- The time of a timer is set. -/
theorem AeTimers.Inv.setDue (hel : el.Inv) (id : ℕ) {due : AeTime} (hdue : due.Valid) :
    (el.setDue id due).Inv where
  ids := by
    rw [AeTimers.setDue, List.pairwise_map]
    refine hel.ids.imp fun {a b} hab => ?_
    split_ifs <;> exact hab
  bound te hte := by
    obtain ⟨a, ha, rfl⟩ := List.mem_map.mp hte
    have := hel.bound a ha
    split_ifs <;> exact this
  valid te hte := by
    obtain ⟨a, ha, rfl⟩ := List.mem_map.mp hte
    split_ifs
    · exact hdue
    · exact hel.valid a ha

/-- What procedures do to the timers: those that were there are there as they were, or deleted. -/
structure AeTimers.Keeps (el el' : AeTimers P D) : Prop where
  /-- Identifiers are not given out again. -/
  nextId : el.timeEventNextId ≤ el'.timeEventNextId
  /-- An old timer has not changed. -/
  old : ∀ te ∈ el'.timeEventHead, te.id < el.timeEventNextId → te ∈ el.timeEventHead

/-- One thing after another. -/
theorem AeTimers.Keeps.trans {el el' el'' : AeTimers P D} (h : el.Keeps el') (h' : el'.Keeps el'') :
    el.Keeps el'' where
  nextId := h.nextId.trans h'.nextId
  old te hte hid := h.old te (h'.old te hte (Nat.lt_of_lt_of_le hid h.nextId)) hid

/-- What a procedure may do: it asks for a time that is not in the past. -/
def TimeOp.Valid : TimeOp P D → Prop
  | .create milliseconds _ _ _ now _ => 0 ≤ milliseconds ∧ now.Valid
  | .delete _ => True

/-- Whether a procedure may do it can be computed. -/
instance (op : TimeOp P D) : Decidable op.Valid := by
  cases op <;> unfold TimeOp.Valid <;> infer_instance

/-- What a procedure does keeps the list, and the old timers in it. -/
theorem AeTimers.Inv.apply (hel : el.Inv) {op : TimeOp P D} (hop : op.Valid) :
    (op.apply el).Inv ∧ el.Keeps (op.apply el) := by
  cases op with
  | create milliseconds proc clientData finalizerProc now memory =>
    refine ⟨hel.create hop.1 hop.2 .., ?_⟩
    simp only [TimeOp.apply, aeCreateTimeEvent]
    cases memory with
    | false => exact ⟨Nat.le_succ _, fun te hte _ => hte⟩
    | true =>
      refine ⟨Nat.le_succ _, fun te hte hid => ?_⟩
      obtain rfl | hte := List.mem_cons.mp hte
      · exact absurd hid (lt_irrefl _)
      · exact hte
  | delete id =>
    refine ⟨hel.delete id, (timeEventNextId_aeDeleteTimeEvent el id).ge, fun te hte _ => ?_⟩
    exact mem_of_mem_aeDeleteTimeEvent hte

/-- All that a procedure does. -/
theorem AeTimers.Inv.foldl_apply (hel : el.Inv) {ops : List (TimeOp P D)}
    (hops : ∀ op ∈ ops, op.Valid) :
    (ops.foldl TimeOp.apply el).Inv ∧ el.Keeps (ops.foldl TimeOp.apply el) := by
  induction ops generalizing el with
  | nil => exact ⟨hel, le_rfl, fun te hte _ => hte⟩
  | cons op ops ih =>
    obtain ⟨hinv, hkeeps⟩ := hel.apply (hops op List.mem_cons_self)
    obtain ⟨hinv', hkeeps'⟩ := ih hinv fun op' hop' => hops op' (List.mem_cons_of_mem op hop')
    exact ⟨hinv', hkeeps.trans hkeeps'⟩

/-- A procedure returns the milliseconds until its next call, or `AE_NOMORE`. -/
structure TimeInput.Valid (i : TimeInput P D) : Prop where
  /-- The clock. -/
  now : i.now.Valid
  /-- What the procedure does. -/
  ops : ∀ op ∈ i.ops, op.Valid
  /-- What it returns. -/
  retval : i.retval = AE_NOMORE ∨ 0 ≤ i.retval
  /-- The clock again. -/
  again : i.again.Valid

/-- Whether the input of a turn is such can be computed. -/
instance (i : TimeInput P D) : Decidable i.Valid :=
  decidable_of_iff (i.now.Valid ∧ (∀ op ∈ i.ops, op.Valid) ∧
    (i.retval = AE_NOMORE ∨ 0 ≤ i.retval) ∧ i.again.Valid)
    ⟨fun h => ⟨h.1, h.2.1, h.2.2.1, h.2.2.2⟩, fun h => ⟨h.now, h.ops, h.retval, h.again⟩⟩

/-- What becomes of the timers in a turn that calls a procedure: an old one is as it was, unless it
is the one that was called, which is gone or has a new time. -/
theorem AeTimers.Inv.afterProc (hel : el.Inv) {i : TimeInput P D} (hi : i.Valid) {id : ℕ}
    {el' : AeTimers P D}
    (h : Ae.afterProc (i.ops.foldl TimeOp.apply el) id i.retval i.again = some el') :
    el'.Inv ∧ el.timeEventNextId ≤ el'.timeEventNextId ∧
      ∀ te ∈ el'.timeEventHead, te.id < el.timeEventNextId →
        te.id ≠ id ∧ te ∈ el.timeEventHead ∨
          te.id = id ∧ i.retval ≠ AE_NOMORE ∧ te.due.total = i.again.total + i.retval := by
  obtain ⟨hinv, hkeeps⟩ := hel.foldl_apply hi.ops
  unfold Ae.afterProc at h
  split_ifs at h with hnomore hthere
  · obtain rfl := Option.some.inj h
    refine ⟨hinv.delete id, ?_, fun te hte hid => .inl ⟨hinv.notMem_delete hte, ?_⟩⟩
    · rw [timeEventNextId_aeDeleteTimeEvent]
      exact hkeeps.nextId
    · exact hkeeps.old te (mem_of_mem_aeDeleteTimeEvent hte) hid
  · obtain rfl := Option.some.inj h
    have hretval : 0 ≤ i.retval := hi.retval.resolve_left hnomore
    refine ⟨hinv.setDue id (valid_aeAddMillisecondsToNow hretval hi.again), hkeeps.nextId, ?_⟩
    intro te hte hid
    obtain ⟨a, ha, rfl⟩ := List.mem_map.mp hte
    split_ifs at hid ⊢ with haid
    · exact .inr ⟨haid, hnomore, total_aeAddMillisecondsToNow ..⟩
    · exact .inl ⟨haid, hkeeps.old a ha hid⟩

/-! ## A call of `processTimeEvents` -/

/-- What a turn does: it passes over a timer, or calls its procedure. -/
theorem timeTurn_cases {c c' : TimeCall P D} {i : TimeInput P D} (h : timeTurn c i = some c') :
    ∃ te rest, c.te = te :: rest ∧
      ((c.maxId < te.id ∨ te.isDue i.now = false) ∧ c' = { c with te := rest } ∨
        (te.id : ℤ) ≤ c.maxId ∧ te.isDue i.now = true ∧
          ∃ el, afterProc (i.ops.foldl TimeOp.apply c.timers) te.id i.retval i.again = some el ∧
            c' = { c with
              timers := el
              te := el.timeEventHead
              processed := c.processed ++ [(te, i.now)] }) := by
  unfold timeTurn at h
  split at h
  case h_1 => cases h
  case h_2 te rest hte =>
    refine ⟨te, rest, hte, ?_⟩
    split_ifs at h with hnew hdue
    · exact .inl ⟨.inl hnew, (Option.some.inj h).symm⟩
    · obtain ⟨el, hel, rfl⟩ := Option.map_eq_some_iff.mp h
      exact .inr ⟨not_lt.mp hnew, hdue, el, hel, rfl⟩
    · exact .inl ⟨.inr (Bool.eq_false_iff.mpr hdue), (Option.some.inj h).symm⟩

/-- A timer with this identifier has been called. -/
def TimeCall.Called (c : TimeCall P D) (id : ℕ) : Prop := ∃ p ∈ c.processed, p.1.id = id

/-- What holds during a call of `processTimeEvents` that has found the timers `el`, at a time
`start`. -/
structure TimeCall.Inv (el : AeTimers P D) (start : ℤ) (c : TimeCall P D) : Prop where
  /-- The list. -/
  timers : c.timers.Inv
  /-- Identifiers have been given out since. -/
  nextId : el.timeEventNextId ≤ c.timers.timeEventNextId
  /-- The largest identifier that was there. -/
  maxId : c.maxId = (el.timeEventNextId : ℤ) - 1
  /-- An old timer that has been passed over was not due. -/
  passed : ∃ l, c.timers.timeEventHead = l ++ c.te ∧
    ∀ te ∈ l, te.id < el.timeEventNextId → start < te.due.total
  /-- An old timer is as it was, or it has been called. -/
  old : ∀ te ∈ c.timers.timeEventHead, te.id < el.timeEventNextId →
    te ∈ el.timeEventHead ∨ c.Called te.id
  /-- What has been called was there, and it was due. -/
  called : ∀ p ∈ c.processed,
    (∃ te ∈ el.timeEventHead, te.id = p.1.id) ∧ p.1.due.total ≤ p.2.total

/-- The call begins. -/
theorem TimeCall.inv_start (hel : el.Inv) (start : ℤ) : (TimeCall.start el).Inv el start where
  timers := hel
  nextId := le_rfl
  maxId := rfl
  passed := ⟨[], rfl, nofun⟩
  old _ hte _ := .inl hte
  called := nofun

/-- An old timer that is still there was there when the call began. -/
theorem TimeCall.Inv.exists_old {start : ℤ} {c : TimeCall P D} (hc : c.Inv el start)
    {te : AeTimeEvent P D} (hte : te ∈ c.timers.timeEventHead)
    (hid : te.id < el.timeEventNextId) : ∃ a ∈ el.timeEventHead, a.id = te.id := by
  obtain hold | ⟨p, hp, hpid⟩ := hc.old te hte hid
  · exact ⟨te, hold, rfl⟩
  · rw [← hpid]
    exact (hc.called p hp).1

/-- A turn, with a clock that is not behind the time when the call began. -/
theorem TimeCall.Inv.turn {start : ℤ} {c c' : TimeCall P D} (hc : c.Inv el start)
    {i : TimeInput P D} (hi : i.Valid) (hstart : start ≤ i.now.total)
    (h : timeTurn c i = some c') : c'.Inv el start := by
  obtain ⟨te, rest, hte, hturn⟩ := timeTurn_cases h
  obtain ⟨l, hl, hpassed⟩ := hc.passed
  rw [hte] at hl
  have hmem : te ∈ c.timers.timeEventHead := by
    rw [hl]
    exact List.mem_append_right l List.mem_cons_self
  have hmaxId := hc.maxId
  obtain ⟨hskip, rfl⟩ | ⟨hold, hdue, el', hafter, rfl⟩ := hturn
  · -- The timer is new, or it is not due now, and so it was not due then.
    refine { hc with passed := ⟨l ++ [te], by rw [hl, List.append_assoc]; rfl, ?_⟩ }
    intro a ha hid
    obtain ha | ha := List.mem_append.mp ha
    · exact hpassed a ha hid
    · obtain rfl := List.mem_singleton.mp ha
      obtain hnew | hnot := hskip
      · omega
      · have hlater : ¬ a.due.total ≤ i.now.total := fun hle => by
          rw [(AeTimeEvent.isDue_iff (hc.timers.valid a hmem) hi.now).mpr hle] at hnot
          cases hnot
        omega
  · -- The procedure is called, and the loop starts again.
    have hid : te.id < el.timeEventNextId := by omega
    obtain ⟨hinv, hnext, hkept⟩ := hc.timers.afterProc hi hafter
    exact {
      timers := hinv
      nextId := hc.nextId.trans hnext
      maxId := hmaxId
      passed := ⟨[], rfl, nofun⟩
      old := by
        intro a ha haid
        obtain ⟨-, ha⟩ | ⟨haid', -⟩ := hkept a ha (Nat.lt_of_lt_of_le haid hc.nextId)
        · obtain ha | ⟨p, hp, hpid⟩ := hc.old a ha haid
          · exact .inl ha
          · exact .inr ⟨p, List.mem_append_left _ hp, hpid⟩
        · exact .inr ⟨_, List.mem_append_right _ (List.mem_singleton_self _), haid'.symm⟩
      called := by
        intro p hp
        obtain hp | hp := List.mem_append.mp hp
        · exact hc.called p hp
        · obtain rfl := List.mem_singleton.mp hp
          refine ⟨hc.exists_old hmem hid, ?_⟩
          exact (AeTimeEvent.isDue_iff (hc.timers.valid te hmem) hi.now).mp hdue }

/-- What changes the timers is what procedures may do. -/
def TimerAct.Valid : TimerAct P D → Prop
  | .op o => o.Valid
  | .process is => ∀ i ∈ is, i.Valid

/-- The list is in order in every state reached. -/
theorem AeTimers.inv_of_reach (h : (timerSystem P D).Reach (fun _ act => act.Valid) el) :
    el.Inv := by
  refine h.invariant ?_ ?_
  · rintro _ rfl
    exact ⟨List.Pairwise.nil, nofun, nofun⟩
  · intro el act el' hel hact hstep
    cases act with
    | op op =>
      obtain rfl := Option.some.inj hstep
      exact (hel.apply hact).1
    | process is =>
      obtain ⟨c, hc, hreturned⟩ := Option.bind_eq_some_iff.mp hstep
      -- The clock is never behind the earliest that it has said.
      obtain ⟨start, hstart⟩ := (is.map fun i => i.now.total).toFinset.bddBelow
      have hok : (processTimeEvents el).RunOk (fun _ i => i.Valid ∧ start ≤ i.now.total)
          (.start el) is := by
        refine Lts.runOk_of_forall (fun i hi _ => ⟨hact i hi, ?_⟩) _
        exact hstart (List.mem_toFinset.mpr (List.mem_map_of_mem hi))
      have hinv : c.Inv el start := hok.invariant hc
        (fun _ _ _ hc hi hturn => hc.turn hi.1 hi.2 hturn) (TimeCall.inv_start hel start)
      split at hreturned
      · obtain rfl := Option.some.inj hreturned
        exact hinv.timers
      · cases hreturned

/-- In a call of `processTimeEvents`, whatever the procedures create and delete and however long
they take, as long as the clock does not go back behind the time `start`: a timer is called at its
time or later, and only if it was there when the call began. When the call returns, each timer that
was due at `start` has been called, unless it has been deleted. -/
theorem timers_called (hel : (timerSystem P D).Reach (fun _ act => act.Valid) el) {start : ℤ}
    {is : List (TimeInput P D)} {c : TimeCall P D}
    (hok : (processTimeEvents el).RunOk (fun _ i => i.Valid ∧ start ≤ i.now.total) (.start el) is)
    (h : (processTimeEvents el).run (.start el) is = some c) (hreturned : c.te = []) :
    (∀ p ∈ c.processed,
      (∃ te ∈ el.timeEventHead, te.id = p.1.id) ∧ p.1.due.total ≤ p.2.total) ∧
    ∀ te ∈ el.timeEventHead, te.due.total ≤ start →
      c.Called te.id ∨ ∀ a ∈ c.timers.timeEventHead, a.id ≠ te.id := by
  have hel := AeTimers.inv_of_reach hel
  have hc : c.Inv el start := hok.invariant h
    (fun _ _ _ hc hi hturn => hc.turn hi.1 hi.2 hturn) (TimeCall.inv_start hel start)
  refine ⟨hc.called, fun te hte hdue => ?_⟩
  by_cases hthere : ∃ a ∈ c.timers.timeEventHead, a.id = te.id
  · obtain ⟨a, ha, haid⟩ := hthere
    have hid : a.id < el.timeEventNextId := by
      rw [haid]
      exact hel.bound te hte
    left
    obtain hold | hcalled := hc.old a ha hid
    · -- It would be as it was, so it would not have been passed over.
      obtain rfl := hel.id_inj hold hte haid
      obtain ⟨l, hl, hpassed⟩ := hc.passed
      rw [hreturned, List.append_nil] at hl
      have := hpassed a (hl ▸ ha) hid
      omega
    · rwa [haid] at hcalled
  · exact .inr fun a ha haid => hthere ⟨a, ha, haid⟩

/-- Two timers are created, for 1 and for 5 milliseconds later. -/
def createTwo : List (TimeOp ℕ Unit) :=
  [.create 1 0 () none ⟨100, 998⟩ true, .create 5 1 () (some 9) ⟨100, 998⟩ true]

/-- The list with the two timers. -/
def twoTimers : AeTimers ℕ Unit := createTwo.foldl TimeOp.apply {}

/-- The list is reached. -/
theorem reach_twoTimers :
    (timerSystem ℕ Unit).Reach (fun _ act => act.Valid) twoTimers := by
  have hvalid : ∀ act ∈ createTwo.map TimerAct.op, act.Valid := by
    intro act hact
    obtain ⟨op, hop, rfl⟩ := List.mem_map.mp hact
    have hall : ∀ op ∈ createTwo, op.Valid := by decide
    exact hall op hop
  exact Lts.Reach.run (.init rfl) (Lts.runOk_of_forall (fun act hact _ => hvalid act hact) _) rfl

/-- Both are due. The procedure of the second creates a third and ends, that of the first waits for
another 100 milliseconds. -/
def fiveTurns : List (TimeInput ℕ Unit) :=
  [⟨⟨101, 4⟩, [.create 0 2 () none ⟨101, 5⟩ true], AE_NOMORE, ⟨101, 5⟩⟩,
    ⟨⟨101, 5⟩, [], AE_NOMORE, ⟨101, 5⟩⟩, ⟨⟨101, 5⟩, [], 100, ⟨101, 6⟩⟩,
    ⟨⟨101, 6⟩, [], AE_NOMORE, ⟨101, 6⟩⟩, ⟨⟨101, 6⟩, [], AE_NOMORE, ⟨101, 6⟩⟩]

/-- The call has returned. -/
def afterFiveTurns : TimeCall ℕ Unit :=
  ((processTimeEvents twoTimers).run (.start twoTimers) fiveTurns).getD (.start twoTimers)

/-- The turns are possible. -/
theorem run_fiveTurns :
    (processTimeEvents twoTimers).run (.start twoTimers) fiveTurns = some afterFiveTurns := rfl

/-- Both timers are called, and not the third, which is due as well. -/
theorem timers_called_two :
    afterFiveTurns.processed.map (fun p => p.1.id) = [1, 0] ∧
      afterFiveTurns.timers.timeEventHead.map (fun te => (te.id, te.due)) =
        [(2, ⟨101, 5⟩), (0, ⟨101, 106⟩)] ∧
      ∀ te ∈ twoTimers.timeEventHead, te.due.total ≤ 101004 →
        afterFiveTurns.Called te.id ∨
          ∀ a ∈ afterFiveTurns.timers.timeEventHead, a.id ≠ te.id := by
  have hvalid : ∀ i ∈ fiveTurns, i.Valid ∧ 101004 ≤ i.now.total := by decide
  refine ⟨by decide, by decide, ?_⟩
  exact (timers_called reach_twoTimers
    (Lts.runOk_of_forall (fun i hi _ => hvalid i hi) _) run_fiveTurns rfl).2

/-- Time enough for every procedure: the call is over at the time `stop`, and every timer that has
been called waits for longer. -/
def TimeInput.Ends (stop : ℤ) (i : TimeInput P D) : Prop :=
  i.now.total ≤ stop ∧ (i.retval = AE_NOMORE ∨ stop < i.again.total + i.retval)

/-- Whether that is so can be computed. -/
instance (stop : ℤ) (i : TimeInput P D) : Decidable (i.Ends stop) :=
  inferInstanceAs (Decidable (_ ∧ _))

/-- A timer that has been called is not due again. -/
structure TimeCall.Once (stop : ℤ) (c : TimeCall P D) : Prop where
  /-- Each is called once. -/
  nodup : (c.processed.map fun p => p.1.id).Nodup
  /-- Those that have been called wait. -/
  waits : ∀ te ∈ c.timers.timeEventHead, c.Called te.id → stop < te.due.total

/-- A turn, when the procedures take less time than they ask to wait. -/
theorem TimeCall.Once.turn (hel : el.Inv) {start stop : ℤ} {c c' : TimeCall P D}
    (hc : c.Inv el start) (honce : c.Once stop) {i : TimeInput P D} (hi : i.Valid)
    (hends : i.Ends stop) (h : timeTurn c i = some c') : c'.Once stop := by
  obtain ⟨te, rest, hte, hturn⟩ := timeTurn_cases h
  obtain ⟨l, hl, -⟩ := hc.passed
  rw [hte] at hl
  have hmem : te ∈ c.timers.timeEventHead := by
    rw [hl]
    exact List.mem_append_right l List.mem_cons_self
  obtain ⟨-, rfl⟩ | ⟨hold, hdue, el', hafter, rfl⟩ := hturn
  · exact ⟨honce.nodup, honce.waits⟩
  · have hdue' := (AeTimeEvent.isDue_iff (hc.timers.valid te hmem) hi.now).mp hdue
    have hmaxId := hc.maxId
    have hnot : ¬ c.Called te.id := fun hcalled => by
      have := honce.waits te hmem hcalled
      have := hends.1
      omega
    obtain ⟨-, -, hkept⟩ := hc.timers.afterProc hi hafter
    constructor
    · rw [List.map_append, List.nodup_append']
      refine ⟨honce.nodup, List.nodup_singleton _, ?_⟩
      intro id hid hid'
      obtain rfl := List.mem_singleton.mp hid'
      obtain ⟨p, hp, hpid⟩ := List.mem_map.mp hid
      exact hnot ⟨p, hp, hpid⟩
    · rintro a ha ⟨p, hp, hpid⟩
      have hcalled : c.Called a.id ∨ a.id = te.id := by
        obtain hp | hp := List.mem_append.mp hp
        · exact .inl ⟨p, hp, hpid⟩
        · obtain rfl := List.mem_singleton.mp hp
          exact .inr hpid.symm
      have hid : a.id < c.timers.timeEventNextId := by
        obtain ⟨p, hp, hpid⟩ | hid := hcalled
        · obtain ⟨b, hb, hbid⟩ := (hc.called p hp).1
          have := hel.bound b hb
          have := hc.nextId
          omega
        · rw [hid]
          exact hc.timers.bound te hmem
      obtain ⟨hne, ha⟩ | ⟨-, hmore, htotal⟩ := hkept a ha hid
      · exact honce.waits a ha (hcalled.resolve_right hne)
      · have := hends.2.resolve_left hmore
        omega

/-- If the procedures of a call take less time than they ask to wait, no timer is called twice, so
that no more are called than there were when the call began. -/
theorem timers_once (hel : (timerSystem P D).Reach (fun _ act => act.Valid) el) {start stop : ℤ}
    {is : List (TimeInput P D)} {c : TimeCall P D}
    (hok : (processTimeEvents el).RunOk
      (fun _ i => i.Valid ∧ start ≤ i.now.total ∧ i.Ends stop) (.start el) is)
    (h : (processTimeEvents el).run (.start el) is = some c) :
    (c.processed.map fun p => p.1.id).Nodup ∧ c.processed.length ≤ el.timeEventHead.length := by
  have hel := AeTimers.inv_of_reach hel
  have hboth : c.Inv el start ∧ c.Once stop := hok.invariant h
    (I := fun c => c.Inv el start ∧ c.Once stop)
    (fun _ _ _ hc hi hturn =>
      ⟨hc.1.turn hi.1 hi.2.1 hturn, hc.2.turn hel hc.1 hi.1 hi.2.2 hturn⟩)
    ⟨TimeCall.inv_start hel start, List.nodup_nil, fun te _ hcalled => by
      obtain ⟨p, hp, -⟩ := hcalled
      cases hp⟩
  obtain ⟨hc, honce⟩ := hboth
  refine ⟨honce.nodup, ?_⟩
  -- Their identifiers are among those that were there.
  have hsub : c.processed.map (fun p => p.1.id) ⊆ el.timeEventHead.map fun te => te.id := by
    intro id hid
    obtain ⟨p, hp, rfl⟩ := List.mem_map.mp hid
    obtain ⟨te, hte, hteid⟩ := (hc.called p hp).1
    exact List.mem_map.mpr ⟨te, hte, hteid⟩
  calc c.processed.length = (c.processed.map fun p => p.1.id).length := (List.length_map _).symm
    _ ≤ (el.timeEventHead.map fun te => te.id).length := (honce.nodup.subperm hsub).length_le
    _ = el.timeEventHead.length := List.length_map _

/-- The two timers are called once each. -/
theorem timers_once_two :
    (afterFiveTurns.processed.map fun p => p.1.id).Nodup ∧
      afterFiveTurns.processed.length ≤ twoTimers.timeEventHead.length := by
  have hvalid : ∀ i ∈ fiveTurns, i.Valid ∧ 101004 ≤ i.now.total ∧ i.Ends 101006 := by decide
  exact timers_once reach_twoTimers (Lts.runOk_of_forall (fun i hi _ => hvalid i hi) _)
    run_fiveTurns

/-! ## A procedure that asks to be called at once -/

/-- The clock stands still, and a procedure does nothing and returns 0. -/
def TimeInput.still (now : AeTime) : TimeInput P D where
  now := now
  ops := []
  retval := 0
  again := now

/-- A timer that is due and old is at `te` or behind it. -/
def TimeCall.Busy (now : AeTime) (c : TimeCall P D) : Prop :=
  ∃ te ∈ c.te, (te.id : ℤ) ≤ c.maxId ∧ te.isDue now = true

/-- A timer that is set to the time of the clock is due. -/
theorem isDue_now (te : AeTimeEvent P D) {now : AeTime} (hnow : now.Valid) :
    { te with due := aeAddMillisecondsToNow 0 now }.isDue now = true := by
  apply (AeTimeEvent.isDue_iff (valid_aeAddMillisecondsToNow le_rfl hnow) hnow).mpr
  rw [total_aeAddMillisecondsToNow, add_zero]

/-- While a timer is due, there is a turn, and after it a timer is due. -/
theorem TimeCall.Busy.turn {now : AeTime} (hnow : now.Valid) {c : TimeCall P D}
    (hc : c.Busy now) (hsuffix : c.te <:+ c.timers.timeEventHead) :
    ∃ c', timeTurn c (.still now) = some c' ∧ c'.Busy now ∧
      c'.te <:+ c'.timers.timeEventHead := by
  obtain ⟨a, ha, haid, hadue⟩ := hc
  cases hte : c.te with
  | nil =>
    rw [hte] at ha
    cases ha
  | cons te rest =>
    rw [hte] at ha hsuffix
    have hmem : te ∈ c.timers.timeEventHead := hsuffix.subset List.mem_cons_self
    have hrest : rest <:+ c.timers.timeEventHead := (List.suffix_cons te rest).trans hsuffix
    by_cases hcall : (te.id : ℤ) ≤ c.maxId ∧ te.isDue now = true
    · -- It is called, and it is due again.
      obtain ⟨hold, hdue⟩ := hcall
      have hafter : afterProc c.timers te.id 0 now =
          some (c.timers.setDue te.id (aeAddMillisecondsToNow 0 now)) := by
        rw [afterProc, if_neg (by decide), if_pos ⟨te, hmem, rfl⟩]
      refine ⟨{ c with
        timers := c.timers.setDue te.id (aeAddMillisecondsToNow 0 now)
        te := (c.timers.setDue te.id (aeAddMillisecondsToNow 0 now)).timeEventHead
        processed := c.processed ++ [(te, now)] }, ?_,
        ⟨{ te with due := aeAddMillisecondsToNow 0 now }, ?_, hold, isDue_now te hnow⟩,
        List.suffix_refl _⟩
      · simp only [timeTurn, hte, TimeInput.still, if_neg (not_lt.mpr hold), if_pos hdue,
          List.foldl_nil, hafter, Option.map_some]
      · exact List.mem_map.mpr ⟨te, hmem, if_pos rfl⟩
    · -- It is passed over, and the timer that is due is behind it.
      have hne : a ≠ te := by
        rintro rfl
        exact hcall ⟨haid, hadue⟩
      refine ⟨{ c with te := rest }, ?_, ⟨a, List.mem_of_ne_of_mem hne ha, haid, hadue⟩, hrest⟩
      simp only [timeTurn, hte]
      by_cases hnew : (te.id : ℤ) > c.maxId
      · rw [if_pos hnew]
      · have hnot : ¬ te.isDue (TimeInput.still now : TimeInput P D).now = true :=
          fun hdue => hcall ⟨not_lt.mp hnew, hdue⟩
        rw [if_neg hnew, if_neg hnot]

/-- If a timer is due when a call begins, and the procedures return 0 while the clock stands still,
the call does not return: there is a turn after any number of turns. -/
theorem timers_endless (hel : (timerSystem P D).Reach (fun _ act => act.Valid) el)
    {now : AeTime} (hnow : now.Valid) {te : AeTimeEvent P D} (hte : te ∈ el.timeEventHead)
    (hdue : te.due.total ≤ now.total) (n : ℕ) :
    ∃ c, (processTimeEvents el).run (.start el) (List.replicate n (.still now)) = some c ∧
      c.te ≠ [] := by
  have hel := AeTimers.inv_of_reach hel
  have hstart : (TimeCall.start el).Busy now := by
    have hbound := hel.bound te hte
    refine ⟨te, hte, ?_, (AeTimeEvent.isDue_iff (hel.valid te hte) hnow).mpr hdue⟩
    simp only [TimeCall.start]
    omega
  have hrun : ∀ (n : ℕ) (c : TimeCall P D), c.Busy now → c.te <:+ c.timers.timeEventHead →
      ∃ c', (processTimeEvents el).run c (List.replicate n (.still now)) = some c' ∧
        c'.Busy now := by
    intro n
    induction n with
    | zero => exact fun c hc _ => ⟨c, rfl, hc⟩
    | succ n ih =>
      intro c hc hsuffix
      obtain ⟨c₁, hturn, hc₁, hsuffix₁⟩ := hc.turn hnow hsuffix
      obtain ⟨c', hc', hbusy⟩ := ih c₁ hc₁ hsuffix₁
      refine ⟨c', ?_, hbusy⟩
      rw [List.replicate_succ, Lts.run]
      exact (congrArg (Option.bind · _) hturn).trans hc'
  obtain ⟨c, hc, a, ha, -⟩ := hrun n _ hstart (List.suffix_refl _)
  exact ⟨c, hc, List.ne_nil_of_mem ha⟩

/-- The two timers, at a time when the second is due. -/
theorem timers_endless_two :
    ∃ c, (processTimeEvents twoTimers).run (.start twoTimers)
        (List.replicate 1000 (.still ⟨101, 3⟩)) = some c ∧ c.te ≠ [] := by
  have hte : ⟨1, ⟨101, 3⟩, 1, some 9, ()⟩ ∈ twoTimers.timeEventHead := by decide
  exact timers_endless reach_twoTimers (by decide) hte le_rfl 1000

/-! ## How long a pass waits -/

end MgCommonUtils.Ae
