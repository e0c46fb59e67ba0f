import Mathlib.Data.List.Basic

/-!
# Frames of a stream

A framing cuts a stream into frames one after the other: `next` says how long the first frame is,
once the stream has all of it. What comes after a frame does not change it (`next_append`), so the
frames of a stream that grows are found in any order of arrival: `frames_append` splits the frames
of `s ++ t` at what `s` leaves over, and `feedAll_eq` says that a consumer that keeps what is left
over, appends each piece to it and handles the frames that are whole then ends as if it had the
stream in one piece.
-/

namespace MgCommonUtils.Lib

/-- A framing of streams of `α`. -/
structure Framing (α : Type*) where
  /-- The length of the first frame, once it is whole. -/
  next : List α → Option ℕ
  /-- A frame is not empty. -/
  next_pos : ∀ {s n}, next s = some n → 0 < n
  /-- A frame is in the stream. -/
  next_le : ∀ {s n}, next s = some n → n ≤ s.length
  /-- A frame stays what it is when the stream grows. -/
  next_append : ∀ {s n} (t), next s = some n → next (s ++ t) = some n

namespace Framing

variable {α σ : Type*} (F : Framing α)

/-- What follows a frame is shorter than the stream. -/
theorem length_drop_lt {s : List α} {n : ℕ} (h : F.next s = some n) :
    (s.drop n).length < s.length := by
  have h1 := F.next_pos h
  have h2 := F.next_le h
  rw [List.length_drop]
  omega

/-- The frames of a stream. -/
def frames (s : List α) : List (List α) :=
  match _h : F.next s with
  | none => []
  | some n => s.take n :: frames (s.drop n)
termination_by s.length
decreasing_by exact F.length_drop_lt _h

/-- What is left of a stream after its frames. -/
def rest (s : List α) : List α :=
  match _h : F.next s with
  | none => s
  | some n => rest (s.drop n)
termination_by s.length
decreasing_by exact F.length_drop_lt _h

variable {F}

/-- Induction over the frames of a stream. -/
theorem frame_induction {P : List α → Prop} (stop : ∀ s, F.next s = none → P s)
    (frame : ∀ s n, F.next s = some n → P (s.drop n) → P s) (s : List α) : P s :=
  match h : F.next s with
  | none => stop s h
  | some n => frame s n h (frame_induction stop frame (s.drop n))
termination_by s.length
decreasing_by exact F.length_drop_lt h

/-- A stream that starts with no whole frame has none. -/
theorem frames_none {s : List α} (h : F.next s = none) : F.frames s = [] := by
  rw [frames]
  split
  · rfl
  · simp_all

/-- A stream that starts with no whole frame is left over. -/
theorem rest_none {s : List α} (h : F.next s = none) : F.rest s = s := by
  rw [rest]
  split
  · rfl
  · simp_all

/-- The frames of a stream that starts with one. -/
theorem frames_some {s : List α} {n : ℕ} (h : F.next s = some n) :
    F.frames s = s.take n :: F.frames (s.drop n) := by
  rw [frames]
  split <;> simp_all

/-- What is left of a stream that starts with a frame. -/
theorem rest_some {s : List α} {n : ℕ} (h : F.next s = some n) :
    F.rest s = F.rest (s.drop n) := by
  rw [rest]
  split <;> simp_all

/-- No frame is left over. -/
theorem next_rest (s : List α) : F.next (F.rest s) = none := by
  induction s using F.frame_induction with
  | stop s h => rw [rest_none h, h]
  | frame s n h ih => rw [rest_some h, ih]

/-- The frames and what is left over make up the stream. -/
theorem flatten_frames (s : List α) : (F.frames s).flatten ++ F.rest s = s := by
  induction s using F.frame_induction with
  | stop s h => rw [frames_none h, rest_none h, List.flatten_nil, List.nil_append]
  | frame s n h ih =>
    rw [frames_some h, rest_some h, List.flatten_cons, List.append_assoc, ih,
      List.take_append_drop]

/-- A frame in front of a stream. -/
theorem drop_append_of_next {s : List α} {n : ℕ} (h : F.next s = some n) (t : List α) :
    (s ++ t).drop n = s.drop n ++ t :=
  List.drop_append_of_le_length (F.next_le h)

/-- The frames of a stream that grows: first those it had, then those of what was left over with
what came. -/
theorem frames_append (s t : List α) :
    F.frames (s ++ t) = F.frames s ++ F.frames (F.rest s ++ t) := by
  induction s using F.frame_induction with
  | stop s h => rw [frames_none h, rest_none h, List.nil_append]
  | frame s n h ih =>
    rw [frames_some (F.next_append t h), drop_append_of_next h, ih, frames_some h, rest_some h,
      List.take_append_of_le_length (F.next_le h), List.cons_append]

/-- What is left of a stream that grows. -/
theorem rest_append (s t : List α) : F.rest (s ++ t) = F.rest (F.rest s ++ t) := by
  induction s using F.frame_induction with
  | stop s h => rw [rest_none h]
  | frame s n h ih => rw [rest_some (F.next_append t h), drop_append_of_next h, ih, rest_some h]

/-- A consumer that handles the frames of a stream as they become whole: its state, and what was
left over of the pieces so far. -/
def feed (F : Framing α) (handle : σ → List α → σ) (x : σ × List α) (piece : List α) :
    σ × List α :=
  ((F.frames (x.2 ++ piece)).foldl handle x.1, F.rest (x.2 ++ piece))

/-- The consumer after all the pieces. -/
def feedAll (F : Framing α) (handle : σ → List α → σ) (x : σ × List α) (pieces : List (List α)) :
    σ × List α :=
  pieces.foldl (F.feed handle) x

/-- A piece that is followed by another can be joined with it. -/
theorem feed_feed (handle : σ → List α → σ) (x : σ × List α) (p q : List α) :
    F.feed handle (F.feed handle x p) q = F.feed handle x (p ++ q) := by
  simp only [feed]
  rw [← List.append_assoc x.2 p q, frames_append (x.2 ++ p) q, List.foldl_append,
    rest_append (x.2 ++ p) q]

/-- A consumer fed in pieces ends as one fed the whole. -/
theorem feedAll_eq (handle : σ → List α → σ) (x : σ × List α) (hx : F.next x.2 = none)
    (pieces : List (List α)) :
    F.feedAll handle x pieces = F.feed handle x pieces.flatten := by
  induction pieces generalizing x with
  | nil => simp [feedAll, feed, frames_none hx, rest_none hx]
  | cons p pieces ih =>
    calc F.feedAll handle x (p :: pieces)
        = F.feedAll handle (F.feed handle x p) pieces := rfl
      _ = F.feed handle (F.feed handle x p) pieces.flatten := ih _ (next_rest _)
      _ = F.feed handle x (p :: pieces).flatten := by rw [feed_feed, List.flatten_cons]

end Framing

end MgCommonUtils.Lib
