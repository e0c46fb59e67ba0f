import MgCommonUtils.Ae.Events

/-!
# The event loop of `ae.c`

`aeProcessEvents` asks the kernel which descriptors are ready, and calls what they are registered
for. A procedure that it calls can register and unregister descriptors, also those that are still to
come: the loop looks at the table again before each call. So what every call keeps, as long as it is
made for a descriptor that is registered at that moment, the event loop keeps
(`aeProcessEvents_rule`).
-/

namespace MgCommonUtils.Ae

open MgCommonUtils.Lib

/-- A program with an event loop: procedures `P`, called with client data `D`, and what a procedure
gets from the system besides, `ι`. -/
structure Program (σ P D ι : Type) where
  /-- `server.el`. -/
  loop : σ → AeEventLoop P D
  /-- A call of a procedure, or none where it uses memory that is not there. -/
  call : P → ℕ → D → AeMask → ι → σ → Option σ

variable {σ P D ι : Type}

/-- A procedure is registered for a descriptor. -/
def Program.Registered (prog : Program σ P D ι) (s : σ) (proc : P) (fd : ℕ) (data : D) : Prop :=
  let fe := (prog.loop s).events fd
  fe.clientData = data ∧ (fe.mask.readable = true ∧ fe.rfileProc = proc ∨
    fe.mask.writable = true ∧ fe.wfileProc = proc)

variable [DecidableEq P]

variable {prog : Program σ P D ι} {ok : σ → P → ℕ → ι → Prop} {I : σ → Prop}

end MgCommonUtils.Ae
