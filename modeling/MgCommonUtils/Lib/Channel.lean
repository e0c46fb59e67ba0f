import Mathlib.Data.List.Infix

/-!
# Channels and relays

A channel delivers what is sent on it, in order, and in pieces of any size. A relay takes what one
channel delivers, translates it item by item, and sends it on another. While it works, what it has
sent, with what it still holds, is the translation of what it has taken; once it has stopped, what
it has sent is a prefix of that. Either way, what comes out of the second channel is a prefix of the
translation of what went into the first (`Relays.delivered_prefix`). A relay that starts late works
on the channels as they look from behind their first items (`skip`).
-/

namespace MgCommonUtils.Lib

/-- A channel. -/
structure Channel (α : Type*) where
  /-- What has been delivered. -/
  delivered : List α := []
  /-- What is under way. -/
  inFlight : List α := []

namespace Channel

variable {α β : Type*}

/-- What has been sent. -/
def sent (c : Channel α) : List α := c.delivered ++ c.inFlight

/-- More is sent. -/
def send (c : Channel α) (l : List α) : Channel α := { c with inFlight := c.inFlight ++ l }

/-- The next `n` items are delivered. -/
def deliver (c : Channel α) (n : ℕ) : Channel α where
  delivered := c.delivered ++ c.inFlight.take n
  inFlight := c.inFlight.drop n

@[simp]
theorem sent_send (c : Channel α) (l : List α) : (c.send l).sent = c.sent ++ l :=
  (List.append_assoc ..).symm

@[simp]
theorem delivered_send (c : Channel α) (l : List α) : (c.send l).delivered = c.delivered := rfl

/-- Nothing is lost on the way. -/
@[simp]
theorem sent_deliver (c : Channel α) (n : ℕ) : (c.deliver n).sent = c.sent := by
  simp [sent, deliver]

/-- What has been delivered was sent. -/
theorem delivered_prefix (c : Channel α) : c.delivered <+: c.sent := List.prefix_append _ _

/-! ## A channel without its first items -/

/-- The channel as it looks from behind its first `n` items. -/
def skip (c : Channel α) (n : ℕ) : Channel α where
  delivered := c.delivered.drop n
  inFlight := c.inFlight.drop (n - c.delivered.length)

@[simp]
theorem sent_skip (c : Channel α) (n : ℕ) : (c.skip n).sent = c.sent.drop n :=
  List.drop_append.symm

/-- Once the first items have been delivered, nothing of what is under way is skipped. -/
theorem inFlight_skip {c : Channel α} {n : ℕ} (h : n ≤ c.delivered.length) :
    (c.skip n).inFlight = c.inFlight := by
  rw [skip, Nat.sub_eq_zero_of_le h, List.drop_zero]

theorem skip_deliver {c : Channel α} {n : ℕ} (h : n ≤ c.delivered.length) (m : ℕ) :
    (c.deliver m).skip n = (c.skip n).deliver m := by
  have h' : n ≤ (c.delivered ++ c.inFlight.take m).length := by
    rw [List.length_append]
    omega
  simp only [skip, deliver, Nat.sub_eq_zero_of_le h, Nat.sub_eq_zero_of_le h', List.drop_zero,
    List.drop_append_of_le_length h]

theorem skip_send {c : Channel α} {n : ℕ} (h : n ≤ c.sent.length) (l : List α) :
    (c.send l).skip n = (c.skip n).send l := by
  have h' : n - c.delivered.length ≤ c.inFlight.length := by
    rw [sent, List.length_append] at h
    omega
  simp only [skip, send, List.drop_append_of_le_length h']

/-! ## Relays -/

/-- A relay with the translation `f` between two channels, that holds the given items, or that has
stopped. -/
def Relays (f : α → β) (c : Channel α) (d : Channel β) : Option (List β) → Prop
  | some held => d.sent ++ held = c.delivered.map f
  | none => d.sent <+: c.delivered.map f

variable {f : α → β} {c : Channel α} {d : Channel β} {held : List β}

/-- A relay that holds nothing takes the next `n` items. -/
theorem Relays.take (h : Relays f c d (some [])) (n : ℕ) :
    Relays f (c.deliver n) d (some ((c.inFlight.take n).map f)) := by
  have hsent : d.sent = c.delivered.map f := by
    rw [← h, List.append_nil]
  change d.sent ++ _ = (c.delivered ++ c.inFlight.take n).map f
  rw [hsent, List.map_append]

/-- A relay sends the first `n` items it holds. -/
theorem Relays.send (h : Relays f c d (some held)) (n : ℕ) :
    Relays f c (d.send (held.take n)) (some (held.drop n)) := by
  change (d.send _).sent ++ held.drop n = c.delivered.map f
  rw [sent_send, List.append_assoc, List.take_append_drop]
  exact h

/-- A relay stops, whatever it holds. -/
theorem Relays.stop {held : Option (List β)} (h : Relays f c d held) : Relays f c d none := by
  cases held with
  | none => exact h
  | some held => exact ⟨held, h⟩

/-- The other ends of the channels may send more to a relay, and take what it has sent. -/
theorem Relays.congr {c' : Channel α} {d' : Channel β} {held : Option (List β)}
    (h : Relays f c d held) (hc : c'.delivered = c.delivered) (hd : d'.sent = d.sent) :
    Relays f c' d' held := by
  cases held with
  | none =>
    change d'.sent <+: c'.delivered.map f
    rw [hc, hd]
    exact h
  | some held =>
    change d'.sent ++ held = c'.delivered.map f
    rw [hc, hd]
    exact h

/-- What a relay has sent is a prefix of the translation of what was sent to it. -/
theorem Relays.sent_prefix {held : Option (List β)} (h : Relays f c d held) :
    d.sent <+: c.sent.map f :=
  List.IsPrefix.trans h.stop (c.delivered_prefix.map f)

/-- What is delivered behind a relay is a prefix of the translation of what was sent to it. -/
theorem Relays.delivered_prefix {held : Option (List β)} (h : Relays f c d held) :
    d.delivered <+: c.sent.map f :=
  d.delivered_prefix.trans h.sent_prefix

end Channel

end MgCommonUtils.Lib
