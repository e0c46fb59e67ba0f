import MgCommonUtils.Lib.Transition

/-!
# Handing items over with tokens

Producers append items to a queue, and after each item put one token into a channel. The consumer
receives a token, takes the oldest item, and delivers it. The two are not one step for either side,
so between them the queue is ahead of the channel. `Balanced` says by how much: by the producers
that have not put their token yet, and by one while the consumer has a token and no item yet. So the
consumer always finds an item, and the items are delivered once and in order (`fifo`).
-/

namespace MgCommonUtils.Lib

/-- Where the consumer is. -/
inductive Consumer (α : Type*) where
  /-- It has no token. -/
  | idle
  /-- It has received a token. -/
  | taking
  /-- It has taken an item. -/
  | holding (a : α)
  deriving DecidableEq

/-- The item that the consumer has taken. -/
def Consumer.item {α : Type*} : Consumer α → Option α
  | .holding a => some a
  | _ => none

/-- The state of a handover. -/
structure Handoff (α : Type*) where
  /-- The items that have not been taken, the oldest first. -/
  queue : List α
  /-- The producers that have appended an item and have not put its token. -/
  unsignalled : ℕ
  /-- The tokens in the channel. -/
  tokens : ℕ
  /-- The consumer. -/
  consumer : Consumer α

namespace Handoff

/-- A step of the producers or the consumer. -/
inductive Act (α : Type*) where
  /-- A producer appends an item. -/
  | append (a : α)
  /-- A producer puts a token. -/
  | signal
  /-- The consumer receives a token. -/
  | receive
  /-- The consumer takes the oldest item. -/
  | take
  /-- The consumer delivers its item. -/
  | deliver (a : α)
  /-- Nothing that concerns the handover. -/
  | other

variable {α : Type*} [DecidableEq α]

/-- The state after a step. Taking from an empty queue is no step. -/
def step (h : Handoff α) : Act α → Option (Handoff α)
  | .append a => some { h with queue := h.queue ++ [a], unsignalled := h.unsignalled + 1 }
  | .signal =>
    if 0 < h.unsignalled then
      some { h with unsignalled := h.unsignalled - 1, tokens := h.tokens + 1 }
    else none
  | .receive =>
    if h.consumer = .idle ∧ 0 < h.tokens then
      some { h with tokens := h.tokens - 1, consumer := .taking }
    else none
  | .take =>
    if h.consumer = .taking then
      match h.queue with
      | [] => none
      | a :: rest => some { h with queue := rest, consumer := .holding a }
    else none
  | .deliver a => if h.consumer = .holding a then some { h with consumer := .idle } else none
  | .other => some h

variable (α) in
/-- The handover as a system, which starts with nothing to hand over. -/
def system : Lts (Handoff α) (Act α) where
  init h := h = { queue := [], unsignalled := 0, tokens := 0, consumer := .idle }
  step := step

/-- The queue is ahead of the channel by the producers that have not put their token, and by one
while the consumer has a token and no item. -/
def Balanced (h : Handoff α) : Prop :=
  h.queue.length = h.tokens + h.unsignalled + if h.consumer = .taking then 1 else 0

/-- Every step keeps the balance. -/
theorem Balanced.step {h h' : Handoff α} {act : Act α} (hb : h.Balanced)
    (hs : h.step act = some h') : h'.Balanced := by
  unfold Balanced at hb ⊢
  cases act with
  | append a =>
    obtain rfl := Option.some.inj hs
    rw [List.length_append, List.length_singleton]
    dsimp only
    omega
  | signal =>
    simp only [Handoff.step] at hs
    split_ifs at hs with hpos
    obtain rfl := Option.some.inj hs
    dsimp only
    omega
  | receive =>
    simp only [Handoff.step] at hs
    split_ifs at hs with hcond
    obtain rfl := Option.some.inj hs
    rw [hcond.1, if_neg (by simp)] at hb
    rw [if_pos rfl]
    dsimp only
    omega
  | take =>
    simp only [Handoff.step] at hs
    split_ifs at hs with hcond
    split at hs
    case h_1 => cases hs
    case h_2 a rest hq =>
      obtain rfl := Option.some.inj hs
      rw [if_pos hcond, hq, List.length_cons] at hb
      rw [if_neg (by simp)]
      dsimp only
      omega
  | deliver a =>
    simp only [Handoff.step] at hs
    split_ifs at hs with hcond
    obtain rfl := Option.some.inj hs
    rw [hcond, if_neg (by simp)] at hb
    rw [if_neg (by simp)]
    exact hb
  | other =>
    obtain rfl := Option.some.inj hs
    exact hb

/-- Every state reached is balanced. -/
theorem balanced_of_reachable {h : Handoff α} (hr : (system α).Reachable h) : h.Balanced := by
  refine hr.invariant ?_ fun h a h' hb _ hs => hb.step hs
  rintro h rfl
  rfl

/-- A consumer with a token finds an item. -/
theorem Balanced.queue_ne_nil {h : Handoff α} (hb : h.Balanced) (hc : h.consumer = .taking) :
    h.queue ≠ [] := by
  intro hnil
  unfold Balanced at hb
  rw [hc, if_pos rfl, hnil] at hb
  simp only [List.length_nil] at hb
  omega

/-! ## Order -/

/-- The item that a step appends. -/
def Act.appended : Act α → Option α
  | .append a => some a
  | _ => none

/-- The item that a step delivers. -/
def Act.delivered : Act α → Option α
  | .deliver a => some a
  | _ => none

/-- The items that have been appended and not delivered, the oldest first. -/
def pending (h : Handoff α) : List α := h.consumer.item.toList ++ h.queue

omit [DecidableEq α] in
theorem Act.filterMap_cons {β : Type*} (f : Act α → Option β) (act : Act α) (acts : List (Act α)) :
    (act :: acts).filterMap f = (f act).toList ++ acts.filterMap f := by
  rw [List.filterMap_cons]
  cases f act with
  | none => rfl
  | some b => rfl

/-- A step appends at the end of what is pending, and delivers from its front. -/
theorem pending_step {h h' : Handoff α} {act : Act α} (hs : h.step act = some h') :
    h.pending ++ act.appended.toList = act.delivered.toList ++ h'.pending := by
  unfold pending
  cases act with
  | append a =>
    obtain rfl := Option.some.inj hs
    simp [Act.appended, Act.delivered]
  | signal =>
    simp only [step] at hs
    split_ifs at hs
    obtain rfl := Option.some.inj hs
    simp [Act.appended, Act.delivered]
  | receive =>
    simp only [step] at hs
    split_ifs at hs with hcond
    obtain rfl := Option.some.inj hs
    simp [Act.appended, Act.delivered, hcond.1, Consumer.item]
  | take =>
    simp only [step] at hs
    split_ifs at hs with hcond
    split at hs
    case h_1 => cases hs
    case h_2 a rest hq =>
      obtain rfl := Option.some.inj hs
      simp [Act.appended, Act.delivered, hcond, hq, Consumer.item]
  | deliver a =>
    simp only [step] at hs
    split_ifs at hs with hcond
    obtain rfl := Option.some.inj hs
    simp [Act.appended, Act.delivered, hcond, Consumer.item]
  | other =>
    obtain rfl := Option.some.inj hs
    simp [Act.appended, Act.delivered]

/-- The items are delivered once and in the order in which they were appended: what was pending and
what a run appends is what it delivers and what is pending then. -/
theorem fifo {h h' : Handoff α} {acts : List (Act α)} (hrun : (system α).run h acts = some h') :
    h.pending ++ acts.filterMap Act.appended = acts.filterMap Act.delivered ++ h'.pending := by
  induction acts generalizing h with
  | nil =>
    obtain rfl := Option.some.inj hrun
    rw [List.filterMap_nil, List.filterMap_nil, List.append_nil, List.nil_append]
  | cons act acts ih =>
    obtain ⟨h₁, hstep, hrest⟩ := Option.bind_eq_some_iff.mp hrun
    rw [Act.filterMap_cons, Act.filterMap_cons, ← List.append_assoc, pending_step hstep,
      List.append_assoc, ih hrest, List.append_assoc]

end Handoff

end MgCommonUtils.Lib
