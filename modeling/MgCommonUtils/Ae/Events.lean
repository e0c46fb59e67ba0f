import MgCommonUtils.Lib.Transition
import Mathlib.Tactic

/-!
# The file events of `ae.c`

The events that a program has registered, and the interest list of `epoll` that the functions of
`ae_epoll.c` keep. The two agree at all times, and `maxfd` is the largest descriptor that is
registered (`fileEvents_inv`). It takes that a program closes no descriptor which is still
registered: the kernel takes a closed descriptor off the list by itself, and the table does not
know.
-/

namespace MgCommonUtils.Ae

open MgCommonUtils.Lib

/-- `AE_SETSIZE`. -/
def AE_SETSIZE : ℕ := 1024 * 10

/-- `AE_READABLE` and `AE_WRITABLE` in a mask. -/
structure AeMask where
  /-- `AE_READABLE`. -/
  readable : Bool
  /-- `AE_WRITABLE`. -/
  writable : Bool
  deriving DecidableEq, Repr

/-- `AE_NONE`. -/
def AE_NONE : AeMask := ⟨false, false⟩

/-- `AE_READABLE`. -/
def AE_READABLE : AeMask := ⟨true, false⟩

/-- `AE_WRITABLE`. -/
def AE_WRITABLE : AeMask := ⟨false, true⟩

/-- `mask | other`. -/
def AeMask.or (mask other : AeMask) : AeMask :=
  ⟨mask.readable || other.readable, mask.writable || other.writable⟩

/-- `mask & (~other)`. -/
def AeMask.without (mask other : AeMask) : AeMask :=
  ⟨mask.readable && !other.readable, mask.writable && !other.writable⟩

/-- `mask & other`. -/
def AeMask.and (mask other : AeMask) : AeMask :=
  ⟨mask.readable && other.readable, mask.writable && other.writable⟩

/-- `aeFileEvent`, with procedures `P` and client data `D`. -/
structure AeFileEvent (P D : Type) where
  /-- What the descriptor is registered for. -/
  mask : AeMask
  /-- What is called when it is readable. -/
  rfileProc : P
  /-- What is called when it is writable. -/
  wfileProc : P
  /-- What it is called with. -/
  clientData : D

/-- The interest list of the kernel, with the events of each descriptor on it. -/
abbrev InterestList := ℕ → Option AeMask

/-- `aeEventLoop`, without the time events. -/
structure AeEventLoop (P D : Type) where
  /-- The largest descriptor that is registered. -/
  maxfd : ℤ
  /-- The events that are registered. -/
  events : ℕ → AeFileEvent P D
  /-- `apidata`. -/
  epoll : InterestList

/-- The operations of `epoll_ctl`. -/
inductive EpollOp where
  | add
  | mod
  | del
  deriving DecidableEq, Repr

/-- `epoll_ctl`, or none where it fails: what is added is not on the list, what is changed or
deleted is on it, and the kernel has memory for an addition or a change. -/
def epollCtl (epoll : InterestList) (op : EpollOp) (fd : ℕ) (ee : AeMask) (memory : Bool) :
    Option InterestList :=
  match op with
  | .add => if epoll fd = none ∧ memory then some (Function.update epoll fd (some ee)) else none
  | .mod => if epoll fd ≠ none ∧ memory then some (Function.update epoll fd (some ee)) else none
  | .del => if epoll fd ≠ none then some (Function.update epoll fd none) else none

variable {P D : Type}

/-- `aeCreateEventLoop`, where memory holds anything but the masks. -/
def aeCreateEventLoop (events : ℕ → AeFileEvent P D) : AeEventLoop P D where
  maxfd := -1
  events fd := { events fd with mask := AE_NONE }
  epoll _ := none

/-- `aeApiAddEvent`. -/
def aeApiAddEvent (el : AeEventLoop P D) (fd : ℕ) (mask : AeMask) (memory : Bool) :
    Option (AeEventLoop P D) :=
  let op := if (el.events fd).mask = AE_NONE then .add else .mod
  (epollCtl el.epoll op fd (mask.or (el.events fd).mask) memory).map fun epoll => { el with epoll }

/-- `aeApiDelEvent`, which does not look at what `epoll_ctl` returns. -/
def aeApiDelEvent (el : AeEventLoop P D) (fd : ℕ) (delmask : AeMask) (memory : Bool) :
    AeEventLoop P D :=
  let mask := (el.events fd).mask.without delmask
  let op := if mask ≠ AE_NONE then .mod else .del
  { el with epoll := (epollCtl el.epoll op fd mask memory).getD el.epoll }

/-- `aeCreateFileEvent`, or none where it returns `AE_ERR`. -/
def aeCreateFileEvent (el : AeEventLoop P D) (fd : ℕ) (mask : AeMask) (proc : P) (clientData : D)
    (memory : Bool) : Option (AeEventLoop P D) :=
  if AE_SETSIZE ≤ fd then none
  else
    (aeApiAddEvent el fd mask memory).map fun el =>
      let fe := el.events fd
      { el with
        events := Function.update el.events fd
          { mask := fe.mask.or mask
            rfileProc := if mask.readable then proc else fe.rfileProc
            wfileProc := if mask.writable then proc else fe.wfileProc
            clientData }
        maxfd := max el.maxfd fd }

/-- The loop of `aeDeleteFileEvent` that looks for the largest descriptor below `fd`. -/
def lastRegistered (events : ℕ → AeFileEvent P D) : ℕ → ℤ
  | 0 => -1
  | j + 1 => if (events j).mask ≠ AE_NONE then j else lastRegistered events j

/-- `aeDeleteFileEvent`. -/
def aeDeleteFileEvent (el : AeEventLoop P D) (fd : ℕ) (mask : AeMask) (memory : Bool) :
    AeEventLoop P D :=
  if AE_SETSIZE ≤ fd then el
  else
    let fe := el.events fd
    if fe.mask = AE_NONE then el
    else
      let events := Function.update el.events fd { fe with mask := fe.mask.without mask }
      let maxfd :=
        if (fd : ℤ) = el.maxfd ∧ fe.mask.without mask = AE_NONE then lastRegistered events fd
        else el.maxfd
      aeApiDelEvent { el with events, maxfd } fd mask memory

/-- `close`, with which the kernel takes a descriptor off its list. -/
def closeFd (el : AeEventLoop P D) (fd : ℕ) : AeEventLoop P D :=
  { el with epoll := Function.update el.epoll fd none }

/-- What a program does to its events. -/
inductive EventAct (P D : Type) where
  /-- `aeCreateFileEvent`. -/
  | create (fd : ℕ) (mask : AeMask) (proc : P) (clientData : D) (memory : Bool)
  /-- `aeDeleteFileEvent`. -/
  | delete (fd : ℕ) (mask : AeMask) (memory : Bool)
  /-- `close`. -/
  | close (fd : ℕ)

/-- The event loop of a program. -/
def eventSystem (P D : Type) : Lts (AeEventLoop P D) (EventAct P D) where
  init el := ∃ events, el = aeCreateEventLoop events
  step el
    | .create fd mask proc clientData memory =>
      some ((aeCreateFileEvent el fd mask proc clientData memory).getD el)
    | .delete fd mask memory => some (aeDeleteFileEvent el fd mask memory)
    | .close fd => some (closeFd el fd)

/-- What is asked of a program: it registers a descriptor for something, and closes none that is
registered. The kernel has memory for a change that takes an event away. -/
def AeEventLoop.ValidAct (el : AeEventLoop P D) : EventAct P D → Prop
  | .create _ mask _ _ _ => mask ≠ AE_NONE
  | .delete _ _ memory => memory = true
  | .close fd => (el.events fd).mask = AE_NONE

/-- Whether a program may do it can be computed. -/
instance (el : AeEventLoop P D) (act : EventAct P D) : Decidable (el.ValidAct act) := by
  cases act <;> unfold AeEventLoop.ValidAct <;> infer_instance

/-- What the kernel is interested in at a descriptor with a mask. -/
def AeMask.interest (mask : AeMask) : Option AeMask := if mask = AE_NONE then none else some mask

/-- What holds of the events at all times. -/
structure AeEventLoop.Inv (el : AeEventLoop P D) : Prop where
  /-- The kernel is interested in what is registered, and in nothing else. -/
  interest : ∀ fd, el.epoll fd = (el.events fd).mask.interest
  /-- What is registered is in the table. -/
  size : ∀ fd, (el.events fd).mask ≠ AE_NONE → fd < AE_SETSIZE
  /-- No descriptor above `maxfd` is registered. -/
  le_maxfd : ∀ fd : ℕ, (el.events fd).mask ≠ AE_NONE → (fd : ℤ) ≤ el.maxfd
  /-- `maxfd` is registered, if anything is. -/
  maxfd_registered : el.maxfd = -1 ∨ ∃ fd : ℕ, el.maxfd = fd ∧ (el.events fd).mask ≠ AE_NONE

/-! ## Masks -/

/-- What a mask is added to is not empty. -/
theorem AeMask.or_ne_none {mask other : AeMask} (h : mask ≠ AE_NONE) : other.or mask ≠ AE_NONE := by
  revert mask other
  rintro ⟨_ | _, _ | _⟩ ⟨_ | _, _ | _⟩ h <;> first | exact absurd rfl h | decide

theorem AeMask.or_comm (mask other : AeMask) : mask.or other = other.or mask := by
  rw [AeMask.or, AeMask.or, Bool.or_comm, Bool.or_comm mask.writable]

/-- Taking away the same twice is taking it away once. -/
theorem AeMask.without_without (mask other : AeMask) :
    (mask.without other).without other = mask.without other := by
  simp [AeMask.without]

/-- A mask is on the kernel's list if it is not empty. -/
theorem AeMask.interest_of_ne {mask : AeMask} (h : mask ≠ AE_NONE) : mask.interest = some mask :=
  if_neg h

/-- Nothing is left of an empty mask. -/
theorem AeMask.none_without (mask : AeMask) : AE_NONE.without mask = AE_NONE := rfl

/-! ## The largest descriptor -/

/-- The loop finds the largest descriptor below `fd` that is registered, if there is one. -/
theorem lastRegistered_spec (events : ℕ → AeFileEvent P D) (fd : ℕ) :
    (∀ j < fd, (events j).mask ≠ AE_NONE → (j : ℤ) ≤ lastRegistered events fd) ∧
      (lastRegistered events fd = -1 ∨
        ∃ j : ℕ, lastRegistered events fd = j ∧ (events j).mask ≠ AE_NONE) := by
  induction fd with
  | zero => exact ⟨fun j hj => absurd hj (Nat.not_lt_zero j), .inl rfl⟩
  | succ fd ih =>
    rw [lastRegistered]
    split_ifs with hfd
    · exact ⟨fun j hj _ => by omega, .inr ⟨fd, rfl, hfd⟩⟩
    · refine ⟨fun j hj hmask => ih.1 j (lt_of_le_of_ne (Nat.lt_succ_iff.mp hj) ?_) hmask, ih.2⟩
      rintro rfl
      exact hfd hmask

/-! ## Steps -/

variable {el : AeEventLoop P D} {fd : ℕ} {mask : AeMask} {proc : P} {clientData : D}
  {memory : Bool}

/-- The event of a descriptor that is registered for more. -/
def AeFileEvent.register (fe : AeFileEvent P D) (mask : AeMask) (proc : P) (clientData : D) :
    AeFileEvent P D where
  mask := fe.mask.or mask
  rfileProc := if mask.readable then proc else fe.rfileProc
  wfileProc := if mask.writable then proc else fe.wfileProc
  clientData := clientData

/-- `aeCreateFileEvent` fails if the descriptor is too large, or the kernel is out of memory. It
adds the event to both lists otherwise. -/
theorem AeEventLoop.Inv.create (hel : el.Inv) (proc : P) (clientData : D) (memory : Bool) :
    aeCreateFileEvent el fd mask proc clientData memory =
      if fd < AE_SETSIZE ∧ memory then some
        { events := Function.update el.events fd ((el.events fd).register mask proc clientData)
          epoll := Function.update el.epoll fd (some ((el.events fd).mask.or mask))
          maxfd := max el.maxfd fd }
      else none := by
  have hop : epollCtl el.epoll (if (el.events fd).mask = AE_NONE then .add else .mod) fd
      (mask.or (el.events fd).mask) memory = if memory then
        some (Function.update el.epoll fd (some ((el.events fd).mask.or mask))) else none := by
    have hfd := hel.interest fd
    rw [AeMask.or_comm]
    by_cases hmask : (el.events fd).mask = AE_NONE
    · rw [hmask] at hfd
      simp [hmask, epollCtl, hfd, AeMask.interest]
    · rw [AeMask.interest_of_ne hmask] at hfd
      simp [hmask, epollCtl, hfd]
  unfold aeCreateFileEvent aeApiAddEvent
  dsimp only
  rw [hop]
  by_cases hsize : AE_SETSIZE ≤ fd
  · rw [if_pos hsize, if_neg (by omega)]
  · have hlt : fd < AE_SETSIZE := by omega
    cases memory <;> simp [hsize, hlt, AeFileEvent.register]

/-- Registering an event keeps the lists in agreement. -/
theorem AeEventLoop.Inv.created (hel : el.Inv) (hmask : mask ≠ AE_NONE) {el' : AeEventLoop P D}
    (h : aeCreateFileEvent el fd mask proc clientData memory = some el') : el'.Inv := by
  rw [hel.create] at h
  split_ifs at h with hfd
  obtain rfl := Option.some.inj h
  have hnone : (el.events fd).mask.or mask ≠ AE_NONE := AeMask.or_ne_none hmask
  refine ⟨fun k => ?_, fun k hk => ?_, fun k hk => ?_, ?_⟩
  all_goals dsimp only at *
  · by_cases hkfd : k = fd
    · subst hkfd
      rw [Function.update_self, Function.update_self, AeFileEvent.register,
        AeMask.interest_of_ne hnone]
    · rw [Function.update_of_ne hkfd, Function.update_of_ne hkfd]
      exact hel.interest k
  · by_cases hkfd : k = fd
    · rw [hkfd]
      exact hfd.1
    · rw [Function.update_of_ne hkfd] at hk
      exact hel.size k hk
  · by_cases hkfd : k = fd
    · rw [hkfd]
      exact le_max_right ..
    · rw [Function.update_of_ne hkfd] at hk
      exact (hel.le_maxfd k hk).trans (le_max_left ..)
  · right
    rcases le_total el.maxfd fd with hle | hle
    · exact ⟨fd, max_eq_right hle, by rw [Function.update_self]; exact hnone⟩
    · obtain ⟨k, hk, hkmask⟩ := hel.maxfd_registered.resolve_left (by omega)
      refine ⟨k, (max_eq_left hle).trans hk, ?_⟩
      by_cases hkfd : k = fd
      · rw [hkfd, Function.update_self]
        exact hnone
      · rw [Function.update_of_ne hkfd]
        exact hkmask

/-- `aeApiDelEvent` brings the kernel's list to what the table says by now. -/
theorem aeApiDelEvent_spec (hfd : el.epoll fd ≠ none)
    (hmask : (el.events fd).mask.without mask = (el.events fd).mask) :
    aeApiDelEvent el fd mask true =
      { el with epoll := Function.update el.epoll fd (el.events fd).mask.interest } := by
  unfold aeApiDelEvent
  dsimp only
  rw [hmask]
  by_cases hnone : (el.events fd).mask = AE_NONE
  · simp [hnone, epollCtl, hfd, AeMask.interest]
  · simp [hnone, epollCtl, hfd, AeMask.interest]

/-- The event of a descriptor that is registered for less. -/
def AeFileEvent.unregister (fe : AeFileEvent P D) (mask : AeMask) : AeFileEvent P D :=
  { fe with mask := fe.mask.without mask }

/-- `aeDeleteFileEvent` takes the event off both lists. If it was the last one of the largest
descriptor, it looks for the next. -/
theorem AeEventLoop.Inv.delete (hel : el.Inv) (fd : ℕ) (mask : AeMask) :
    aeDeleteFileEvent el fd mask true =
      let events := Function.update el.events fd ((el.events fd).unregister mask)
      { events
        epoll := Function.update el.epoll fd ((el.events fd).mask.without mask).interest
        maxfd :=
          if (fd : ℤ) = el.maxfd ∧ (el.events fd).mask.without mask = AE_NONE then
            lastRegistered events fd
          else el.maxfd } := by
  have hinterest := hel.interest fd
  unfold aeDeleteFileEvent
  by_cases hnone : (el.events fd).mask = AE_NONE
  · -- Nothing is registered, and nothing happens.
    have hself : (el.events fd).unregister mask = el.events fd := by
      rw [AeFileEvent.unregister, hnone, AeMask.none_without, ← hnone]
    have hepoll : (AE_NONE.without mask).interest = el.epoll fd := by
      rw [hinterest, hnone]
      rfl
    have hne : (fd : ℤ) ≠ el.maxfd := by
      intro heq
      obtain ⟨k, hk, hkmask⟩ := hel.maxfd_registered.resolve_left (by omega)
      obtain rfl : fd = k := by omega
      exact hkmask hnone
    dsimp only
    rw [hself, hnone, hepoll, Function.update_eq_self, Function.update_eq_self]
    simp only [hne, false_and, if_false, if_true, ite_self]
  · have hsize : ¬ AE_SETSIZE ≤ fd := Nat.not_le.mpr (hel.size fd hnone)
    rw [if_neg hsize]
    dsimp only
    rw [if_neg hnone, aeApiDelEvent_spec]
    · dsimp only
      rw [Function.update_self]
      rfl
    · dsimp only
      rw [hinterest, AeMask.interest_of_ne hnone]
      exact Option.some_ne_none _
    · dsimp only
      rw [Function.update_self]
      exact AeMask.without_without ..

/-- The events that are left. -/
theorem AeEventLoop.Inv.events_delete (hel : el.Inv) (fd : ℕ) (mask : AeMask) :
    (aeDeleteFileEvent el fd mask true).events =
      Function.update el.events fd ((el.events fd).unregister mask) := by
  rw [hel.delete]

/-- Taking an event off keeps the lists in agreement. -/
theorem AeEventLoop.Inv.deleted (hel : el.Inv) (fd : ℕ) (mask : AeMask) :
    (aeDeleteFileEvent el fd mask true).Inv := by
  rw [hel.delete]
  dsimp only
  -- What is registered afterwards was registered before.
  have hwas : ∀ k,
      (Function.update el.events fd ((el.events fd).unregister mask) k).mask ≠ AE_NONE →
      (el.events k).mask ≠ AE_NONE := by
    intro k hk
    by_cases hkfd : k = fd
    · rw [hkfd, Function.update_self] at hk
      rw [hkfd]
      intro hnone
      rw [AeFileEvent.unregister, hnone] at hk
      exact hk (AeMask.none_without mask)
    · rwa [Function.update_of_ne hkfd] at hk
  have hlast :=
    lastRegistered_spec (Function.update el.events fd ((el.events fd).unregister mask)) fd
  refine ⟨fun k => ?_, fun k hk => hel.size k (hwas k hk), fun k hk => ?_, ?_⟩
  · dsimp only
    by_cases hkfd : k = fd
    · rw [hkfd, Function.update_self, Function.update_self]
      rfl
    · rw [Function.update_of_ne hkfd, Function.update_of_ne hkfd]
      exact hel.interest k
  · dsimp only at hk ⊢
    have hle := hel.le_maxfd k (hwas k hk)
    split_ifs with hfd
    · refine hlast.1 k (lt_of_le_of_ne (by omega) ?_) hk
      rintro rfl
      rw [Function.update_self] at hk
      exact hk hfd.2
    · exact hle
  · dsimp only
    split_ifs with hfd
    · exact hlast.2
    · refine hel.maxfd_registered.imp id fun ⟨k, hk, hkmask⟩ => ⟨k, hk, ?_⟩
      by_cases hkfd : k = fd
      · rw [hkfd, Function.update_self]
        exact fun hnone => hfd ⟨by omega, hnone⟩
      · rw [Function.update_of_ne hkfd]
        exact hkmask

/-- Closing a descriptor that is not registered changes nothing. -/
theorem AeEventLoop.Inv.closed (hel : el.Inv) (hfd : (el.events fd).mask = AE_NONE) :
    closeFd el fd = el := by
  have hinterest := hel.interest fd
  rw [hfd] at hinterest
  rw [closeFd, show (none : Option AeMask) = el.epoll fd from hinterest.symm,
    Function.update_eq_self]

/-- A new event loop has no events. -/
theorem inv_aeCreateEventLoop (events : ℕ → AeFileEvent P D) : (aeCreateEventLoop events).Inv where
  interest _ := rfl
  size _ h := absurd rfl h
  le_maxfd _ h := absurd rfl h
  maxfd_registered := .inl rfl

/-- What a program does to its events keeps the lists in agreement. -/
theorem AeEventLoop.Inv.step (hel : el.Inv) {act : EventAct P D} (hact : el.ValidAct act)
    {el' : AeEventLoop P D} (h : (eventSystem P D).step el act = some el') : el'.Inv := by
  cases act with
  | create fd mask proc clientData memory =>
    obtain rfl := Option.some.inj h
    cases hc : aeCreateFileEvent el fd mask proc clientData memory with
    | none => exact hel
    | some el' => exact hel.created hact hc
  | delete fd mask memory =>
    obtain rfl := Option.some.inj h
    obtain rfl : memory = true := hact
    exact hel.deleted fd mask
  | close fd =>
    obtain rfl := Option.some.inj h
    rw [hel.closed hact]
    exact hel

end MgCommonUtils.Ae
