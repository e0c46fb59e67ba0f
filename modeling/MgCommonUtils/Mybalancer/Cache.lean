import Mathlib.Data.Int.Notation
import MgCommonUtils.Lib.Lease

/-!
# The lock of the cache

`sql_select` of `DB.py`, run by any number of clients on one statement. A client that does not find
the result in the cache adds a lock in memcached, queries the database, saves the result and deletes
the lock. A client that does not get the lock sleeps and tries again, ten times in all.

The lock expires after a second, however long the query takes, and `unlock_cache` deletes whatever
lock there is. So a client whose lock has expired deletes the lock of another client
(`unlock_other`). `unlock_own` is what the code does guarantee: as long as no lock expires on a
client that is still between its `lock_cache` and its `unlock_cache`, every client deletes its own
lock, and one client at most is between the two.
-/

namespace MgCommonUtils.Mybalancer

open MgCommonUtils.Lib

variable {C Val : Type*}

/-! ## The model -/

/-- Where a client is. -/
inductive Pc (Val : Type*) where
  /-- It is not in `sql_select`. -/
  | idle
  /-- It is before `get_from_cache` in round `i` of the loop. -/
  | get (i : ℕ)
  /-- It is before `lock_cache` in round `i` of the loop. -/
  | lock (i : ℕ)
  /-- It has the lock, and is before `sql_execute`. -/
  | execute
  /-- It has the lock, and is before `save_to_cache`. -/
  | save (res : Val)
  /-- It has the lock, and is before `unlock_cache`. -/
  | unlock (res : Val)
  /-- It is before `sql_execute` with a negative `expire`. -/
  | direct
  /-- It has returned a result, or `False` after ten rounds. -/
  | returned (res : Option Val)
  /-- It was left by an exception. -/
  | raised
  deriving DecidableEq

/-- `sql_select` can be called. -/
def Pc.CanCall : Pc Val → Bool
  | .idle => true
  | .returned _ => true
  | .raised => true
  | _ => false

/-- The client is between its `lock_cache` and its `unlock_cache`. -/
def Pc.locked : Pc Val → Bool
  | .execute => true
  | .save _ => true
  | .unlock _ => true
  | _ => false

/-- The loop after a round in which the client did not get the lock. -/
def nextRound (i : ℕ) : Pc Val := if i + 1 < 10 then .get (i + 1) else .returned none

/-- The items of a statement in memcached, and the clients. -/
structure State (C Val : Type*) where
  /-- The item `cachekey`. -/
  cache : Option Val
  /-- The item `lockkey`. Its value is 0, and the client that has added it is not part of it. -/
  lock : Option C
  /-- Where the clients are. -/
  pc : C → Pc Val

/-- A step of a client or memcached. -/
inductive Label (C Val : Type*) where
  /-- A client calls `sql_select`. -/
  | call (c : C) (expire : ℤ)
  /-- `get_from_cache`. -/
  | getFromCache (c : C)
  /-- `lock_cache`, and the sleep if there is a lock. -/
  | lockCache (c : C)
  /-- `sql_execute`, which gives a result, or raises an exception. -/
  | sqlExecute (c : C) (res : Option Val)
  /-- `save_to_cache`. -/
  | saveToCache (c : C)
  /-- `unlock_cache`. -/
  | unlockCache (c : C)
  /-- The item `cachekey` expires. -/
  | cacheExpires
  /-- The item `lockkey` expires. -/
  | lockExpires

variable [DecidableEq C]

/-- The client goes on. -/
def State.goto (s : State C Val) (c : C) (pc : Pc Val) : State C Val :=
  { s with pc := Function.update s.pc c pc }

/-- The state after a step. -/
def State.step (s : State C Val) : Label C Val → Option (State C Val)
  | .call c expire =>
    if (s.pc c).CanCall then some (s.goto c (if expire < 0 then .direct else .get 0)) else none
  | .getFromCache c =>
    match s.pc c with
    | .get i =>
      match s.cache with
      -- A result is a pair of a count and rows, so it counts as true.
      | some res => some (s.goto c (.returned (some res)))
      | none => some (s.goto c (.lock i))
    | _ => none
  | .lockCache c =>
    match s.pc c with
    | .lock i =>
      match s.lock with
      | some _ => some (s.goto c (nextRound i))
      | none => some { s.goto c .execute with lock := some c }
    | _ => none
  | .sqlExecute c res =>
    match s.pc c with
    | .execute =>
      match res with
      | some res => some (s.goto c (.save res))
      | none => some (s.goto c .raised)
    | .direct =>
      match res with
      | some res => some (s.goto c (.returned (some res)))
      | none => some (s.goto c .raised)
    | _ => none
  | .saveToCache c =>
    match s.pc c with
    | .save res => some { s.goto c (.unlock res) with cache := some res }
    | _ => none
  | .unlockCache c =>
    match s.pc c with
    | .unlock res => some { s.goto c (.returned (some res)) with lock := none }
    | _ => none
  | .cacheExpires => some { s with cache := none }
  | .lockExpires => some { s with lock := none }

/-- The clients before their first call, and an empty memcached. -/
def State.empty : State C Val := ⟨none, none, fun _ => .idle⟩

variable (C Val) in
/-- The clients and memcached as a transition system. -/
def system : Lts (State C Val) (Label C Val) where
  init s := s = .empty
  step := State.step

omit [DecidableEq C] in
/-- A client is between its `lock_cache` and its `unlock_cache`. -/
def State.Holds (s : State C Val) (c : C) : Prop := (s.pc c).locked = true

omit [DecidableEq C] in
/-- A lock expires while the client that has added it is between its `lock_cache` and its
`unlock_cache`. -/
def HeldExpiry (s : State C Val) (a : Label C Val) : Prop :=
  a = .lockExpires ∧ ∃ c, s.lock = some c ∧ s.Holds c

/-! ## The lock -/

omit [DecidableEq C] in
/-- What there is of a state for the lock. -/
def State.lease (s : State C Val) : Lease C := ⟨s.lock, fun c => (s.pc c).locked⟩

omit [DecidableEq C] in
/-- What a step is for the lock. -/
def State.leaseAct (s : State C Val) : Label C Val → Lease.Act C
  | .lockCache c =>
    match s.lock with
    | some _ => .other
    | none => .add c
  | .sqlExecute c res =>
    match s.pc c, res with
    | .execute, none => .abandon c
    | _, _ => .other
  | .unlockCache c => .release c
  | .lockExpires => .expire
  | _ => .other

/-- The client goes on, whatever becomes of the items. -/
theorem State.lease_update (s : State C Val) (cache : Option Val) (lock : Option C) (c : C)
    (pc : Pc Val) : State.lease ⟨cache, lock, Function.update s.pc c pc⟩ =
      ⟨lock, Function.update s.lease.holds c pc.locked⟩ := by
  have hholds : (fun d => (Function.update s.pc c pc d).locked) =
      Function.update s.lease.holds c pc.locked := by
    funext d
    by_cases hd : d = c
    · rw [hd, Function.update_self, Function.update_self]
    · rw [Function.update_of_ne hd, Function.update_of_ne hd]
      rfl
  rw [State.lease, hholds]

/-- A client that goes on without getting the lock or giving it away. -/
theorem State.lease_goto_same {s : State C Val} {c : C} {pc : Pc Val}
    (h : pc.locked = (s.pc c).locked) : (s.goto c pc).lease = s.lease := by
  have hsame : Function.update s.lease.holds c pc.locked = s.lease.holds := by
    rw [h]
    exact Function.update_eq_self c s.lease.holds
  calc (s.goto c pc).lease = ⟨s.lock, Function.update s.lease.holds c pc.locked⟩ :=
        s.lease_update s.cache s.lock c pc
    _ = s.lease := by rw [hsame]; rfl

/-- A client that can call `sql_select` does not have the lock. -/
theorem Pc.locked_of_canCall {pc : Pc Val} (h : pc.CanCall = true) : pc.locked = false := by
  cases pc <;> first | rfl | cases h

/-- A client that did not get the lock does not have it. -/
theorem locked_nextRound (i : ℕ) : (nextRound i : Pc Val).locked = false := by
  rw [nextRound]
  split_ifs <;> rfl

/-- Every step is one of the lock. -/
theorem State.lease_step {s t : State C Val} {a : Label C Val} (h : s.step a = some t) :
    s.lease.step (s.leaseAct a) = some t.lease := by
  cases a with
  | call c expire =>
    simp only [State.step, Option.ite_none_right_eq_some, Option.some.injEq] at h
    obtain ⟨hcall, rfl⟩ := h
    have hnew : (if expire < 0 then Pc.direct else Pc.get 0 : Pc Val).locked =
        (s.pc c).locked := by
      rw [Pc.locked_of_canCall hcall]
      split_ifs <;> rfl
    exact congrArg some (State.lease_goto_same hnew).symm
  | getFromCache c =>
    simp only [State.step] at h
    split at h
    case h_1 i hpc =>
      split at h <;> obtain rfl := Option.some.inj h <;>
        exact congrArg some (State.lease_goto_same (by rw [hpc]; rfl)).symm
    case h_2 => cases h
  | lockCache c =>
    simp only [State.step] at h
    split at h
    case h_1 i hpc =>
      cases hlock : s.lock with
      | some d =>
        -- The lock of another client, or one that was left behind.
        rw [hlock] at h
        obtain rfl := Option.some.inj h
        simp only [State.leaseAct, hlock]
        exact congrArg some (State.lease_goto_same (by rw [hpc, locked_nextRound]; rfl)).symm
      | none =>
        rw [hlock] at h
        obtain rfl := Option.some.inj h
        have hitem : s.lease.item = none := hlock
        simp only [State.leaseAct, hlock, Lease.step, hitem]
        exact congrArg some (s.lease_update s.cache (some c) c .execute).symm
    case h_2 => cases h
  | sqlExecute c res =>
    simp only [State.step] at h
    split at h
    case h_1 hpc =>
      cases res with
      | some res =>
        obtain rfl := Option.some.inj h
        simp only [State.leaseAct, hpc]
        exact congrArg some (State.lease_goto_same (by rw [hpc]; rfl)).symm
      | none =>
        -- The exception leaves the lock behind.
        obtain rfl := Option.some.inj h
        have hheld : s.lease.holds c = true := by simp only [State.lease, hpc]; rfl
        simp only [State.leaseAct, hpc, Lease.step, hheld, if_true]
        exact congrArg some (s.lease_update s.cache s.lock c .raised).symm
    case h_2 hpc =>
      cases res <;> obtain rfl := Option.some.inj h <;> simp only [State.leaseAct, hpc] <;>
        exact congrArg some (State.lease_goto_same (by rw [hpc]; rfl)).symm
    case h_3 => cases h
  | saveToCache c =>
    simp only [State.step] at h
    split at h
    case h_1 res hpc =>
      obtain rfl := Option.some.inj h
      have hsame : (s.goto c (.unlock res)).lease = s.lease :=
        State.lease_goto_same (by rw [hpc]; rfl)
      exact congrArg some hsame.symm
    case h_2 => cases h
  | unlockCache c =>
    simp only [State.step] at h
    split at h
    case h_1 res hpc =>
      obtain rfl := Option.some.inj h
      have hheld : s.lease.holds c = true := by simp only [State.lease, hpc]; rfl
      simp only [State.leaseAct, Lease.step, hheld, if_true]
      exact congrArg some (s.lease_update s.cache none c (.returned (some res))).symm
    case h_2 => cases h
  | cacheExpires =>
    obtain rfl := Option.some.inj h
    rfl
  | lockExpires =>
    obtain rfl := Option.some.inj h
    rfl

variable (C Val) in
/-- The clients use the lock. -/
def leaseSimulation : (system C Val).Simulation (Lease.system C) where
  view := State.lease
  act := State.leaseAct
  init s hs := by
    obtain rfl : s = State.empty := hs
    exact fun _ => rfl
  step _ _ _ h := State.lease_step h

omit [DecidableEq C] in
/-- A lock that expires on its holder. -/
theorem heldExpiry_of_lease {s : State C Val} {a : Label C Val}
    (h : s.lease.HeldExpiry (s.leaseAct a)) : HeldExpiry s a := by
  obtain ⟨hact, c, hitem, hholds⟩ := h
  refine ⟨?_, c, hitem, hholds⟩
  cases a with
  | lockExpires => rfl
  | call c expire => cases hact
  | getFromCache c => cases hact
  | lockCache c =>
    simp only [State.leaseAct] at hact
    split at hact <;> cases hact
  | sqlExecute c res =>
    simp only [State.leaseAct] at hact
    split at hact <;> cases hact
  | saveToCache c => cases hact
  | unlockCache c => cases hact
  | cacheExpires => cases hact

/-- In a run that starts when no client is between its `lock_cache` and its `unlock_cache`, and in
which no lock expires on a client that is, `unlock_cache` deletes the lock of the client that runs
it, and no other client is between the two. -/
theorem unlock_own {s t u : State C Val} {as : List (Label C Val)} {c : C}
    (hs : ∀ d, ¬ s.Holds d)
    (hok : (system C Val).RunOk (fun s a => ¬ HeldExpiry s a) s as)
    (hrun : (system C Val).run s as = some t)
    (hunlock : (system C Val).step t (.unlockCache c) = some u) :
    t.lock = some c ∧ u.lock = none ∧ ∀ d, t.Holds d → d = c := by
  have hinit : s.lease.Own := Lease.own_of_init fun d => eq_false_of_ne_true (hs d)
  have hguard := (leaseSimulation C Val).runOk (fun l a => ¬ l.HeldExpiry a)
    (fun _ _ h hl => h (heldExpiry_of_lease hl)) hok
  have hown : t.lease.Own := hinit.run hguard ((leaseSimulation C Val).run hrun)
  -- The client is between the two, for it is before `unlock_cache`.
  have hstep : t.step (.unlockCache c) = some u := hunlock
  simp only [State.step] at hstep
  split at hstep
  case h_1 res hpc =>
    have hc : t.lease.holds c = true := by simp only [State.lease, hpc]; rfl
    obtain rfl := Option.some.inj hstep
    exact ⟨hown c hc, rfl, fun d hd => hown.unique hd hc⟩
  case h_2 => cases hstep

/-- The second client asks for the lock of the first one in vain. -/
theorem unlock_own_two :
    ∃ t u : State (Fin 2) ℕ,
      (system (Fin 2) ℕ).run State.empty [.call 0 1, .call 1 1, .getFromCache 0, .getFromCache 1,
        .lockCache 0, .lockCache 1, .sqlExecute 0 (some 7), .saveToCache 0] = some t ∧
      (system (Fin 2) ℕ).step t (.unlockCache 0) = some u ∧
      (t.lock = some 0 ∧ u.lock = none ∧ ∀ d, t.Holds d → d = 0) := by
  have hidle : ∀ d, ¬ (State.empty : State (Fin 2) ℕ).Holds d := fun d h => by cases h
  have hok : (system (Fin 2) ℕ).RunOk (fun s a => ¬ HeldExpiry s a) State.empty
      [.call 0 1, .call 1 1, .getFromCache 0, .getFromCache 1, .lockCache 0, .lockCache 1,
        .sqlExecute 0 (some 7), .saveToCache 0] := by
    refine Lts.runOk_of_forall (fun a ha s h => ?_) _
    rw [h.1] at ha
    simp at ha
  exact ⟨_, _, rfl, rfl, unlock_own hidle hok rfl rfl⟩

/-- The lock of the first client expires during its query, the second client adds one, and the first
deletes it while the second is still querying. -/
theorem unlock_other :
    ∃ as : List (Label (Fin 2) ℕ), ∃ t u : State (Fin 2) ℕ,
      (system (Fin 2) ℕ).run State.empty as = some t ∧
      (system (Fin 2) ℕ).step t (.unlockCache 0) = some u ∧
      t.lock = some 1 ∧ t.Holds 1 ∧ u.lock = none ∧ u.Holds 1 := by
  refine ⟨[.call 0 1, .getFromCache 0, .lockCache 0, .lockExpires, .call 1 1, .getFromCache 1,
    .lockCache 1, .sqlExecute 0 (some 7), .saveToCache 0], _, _, rfl, rfl, rfl, rfl, rfl, rfl⟩

end MgCommonUtils.Mybalancer
