import MgCommonUtils.Lib.CString
import Mathlib.Logic.Function.Basic

/-!
# Sockets and the event table

What the servers that are built on `ae.c` share: the results of `read` and `write` on a non-blocking
socket, and the event table. The event loop calls a handler for a descriptor when the table says,
at that moment, that the descriptor is registered for what has happened, and gives it the client
data that the table has at that moment.
-/

namespace MgCommonUtils.EventLoop

open MgCommonUtils.Lib

/-! ## Sockets -/

/-- The result of `read` on a non-blocking socket. -/
inductive ReadResult where
  /-- One byte or more. -/
  | data (bytes : Bytes)
  /-- `-1` with `EAGAIN`. -/
  | eagain
  /-- `-1` with another error. -/
  | error
  /-- `0`. -/
  | eof
  deriving DecidableEq, Repr

/-- What `read` can return when asked for `n` bytes. -/
def ReadResult.Valid (n : ℕ) : ReadResult → Prop
  | .data bytes => bytes ≠ [] ∧ bytes.length ≤ n
  | _ => True

/-- Whether a read can return it can be computed. -/
instance (n : ℕ) (r : ReadResult) : Decidable (r.Valid n) := by
  cases r <;> unfold ReadResult.Valid <;> infer_instance

/-- The result of `write` on a non-blocking socket. -/
inductive WriteResult where
  /-- The number of bytes accepted. -/
  | wrote (n : ℕ)
  /-- `-1` with `EAGAIN`. -/
  | eagain
  /-- `-1` with another error. -/
  | error
  deriving DecidableEq, Repr

/-- What `write` can return when given `n` bytes. -/
def WriteResult.Valid (n : ℕ) : WriteResult → Prop
  | .wrote k => k ≤ n
  | _ => True

/-- Whether a write can return it can be computed. -/
instance (n : ℕ) (r : WriteResult) : Decidable (r.Valid n) := by
  cases r <;> unfold WriteResult.Valid <;> infer_instance

/-! ## The event table -/

/-- The address of a client. -/
abbrev Addr := ℕ

/-- `aeFileEvent` of a client's descriptor: for what it is registered, and for which client. -/
structure FileEvent where
  /-- `mask & AE_READABLE`. -/
  readable : Bool := false
  /-- `mask & AE_WRITABLE`. -/
  writable : Bool := false
  /-- `clientData`. -/
  clientData : Addr := 0
  deriving DecidableEq, Repr

/-- `AE_READABLE` or `AE_WRITABLE`. -/
inductive Mask where
  | readable
  | writable
  deriving DecidableEq, Repr

/-- The events by descriptor. -/
abbrev EventTable := ℕ → FileEvent

/-- `aeCreateFileEvent`, where it succeeds. -/
def aeCreateFileEvent (events : EventTable) (fd : ℕ) (mask : Mask) (a : Addr) : EventTable :=
  Function.update events fd <|
    match mask with
    | .readable => { events fd with readable := true, clientData := a }
    | .writable => { events fd with writable := true, clientData := a }

/-- `aeDeleteFileEvent`. -/
def aeDeleteFileEvent (events : EventTable) (fd : ℕ) (mask : Mask) : EventTable :=
  Function.update events fd <|
    match mask with
    | .readable => { events fd with readable := false }
    | .writable => { events fd with writable := false }

variable {events : EventTable} {fd k : ℕ} {mask : Mask} {a : Addr}

/-- Registering a descriptor changes nothing at the others. -/
@[simp]
theorem aeCreateFileEvent_of_ne (h : k ≠ fd) : aeCreateFileEvent events fd mask a k = events k :=
  Function.update_of_ne h ..

/-- Unregistering a descriptor changes nothing at the others. -/
@[simp]
theorem aeDeleteFileEvent_of_ne (h : k ≠ fd) : aeDeleteFileEvent events fd mask k = events k :=
  Function.update_of_ne h ..

/-- A descriptor that is registered for reading. -/
@[simp]
theorem aeCreateFileEvent_readable :
    aeCreateFileEvent events fd .readable a fd =
      { events fd with readable := true, clientData := a } := Function.update_self ..

/-- A descriptor that is registered for writing. -/
@[simp]
theorem aeCreateFileEvent_writable :
    aeCreateFileEvent events fd .writable a fd =
      { events fd with writable := true, clientData := a } := Function.update_self ..

/-- A descriptor that is not registered for reading any more. -/
@[simp]
theorem aeDeleteFileEvent_readable :
    aeDeleteFileEvent events fd .readable fd = { events fd with readable := false } :=
  Function.update_self ..

/-- A descriptor that is not registered for writing any more. -/
@[simp]
theorem aeDeleteFileEvent_writable :
    aeDeleteFileEvent events fd .writable fd = { events fd with writable := false } :=
  Function.update_self ..

/-- The client registered at a descriptor. -/
def FileEvent.client (e : FileEvent) : Option Addr :=
  if e.readable || e.writable then some e.clientData else none

/-- No client is registered. -/
theorem FileEvent.client_eq_none {e : FileEvent} :
    e.client = none ↔ e.readable = false ∧ e.writable = false := by
  simp [FileEvent.client]

/-- A client is registered. -/
theorem FileEvent.client_eq_some {e : FileEvent} :
    e.client = some a ↔ (e.readable = true ∨ e.writable = true) ∧ e.clientData = a := by
  simp [FileEvent.client]

end MgCommonUtils.EventLoop
