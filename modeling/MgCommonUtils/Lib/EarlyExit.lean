import Mathlib.Data.List.Basic

/-!
# Procedures that return when a call fails

A procedure that makes one call after the other and checks each: when one fails, it makes the calls
of that check's own and returns false. What the calls do is a parameter, and so is which of them
fail. What every call keeps is kept by the procedure (`Calls.exec_invariant`), whichever call it
ends at.
-/

namespace MgCommonUtils.Lib

/-- A call whose result is checked. -/
structure Checked (α : Type*) where
  /-- The call. -/
  call : α
  /-- The calls that are made when it fails, before the procedure returns. -/
  cleanup : List α

/-- What calls do to the state. -/
structure Calls (α σ : Type*) where
  /-- The call fails. -/
  fails : α → Bool
  /-- The state after the call, if it succeeds. -/
  done : α → σ → σ
  /-- The state after the call, if it fails. -/
  failed : α → σ → σ

namespace Calls

variable {α σ : Type*} (e : Calls α σ)

/-- The state after a call. -/
def after (s : σ) (c : α) : σ := if e.fails c then e.failed c s else e.done c s

/-- What the procedure returns, and the state that it leaves. -/
def exec : σ → List (Checked α) → Bool × σ
  | s, [] => (true, s)
  | s, x :: xs =>
    if e.fails x.call then (false, x.cleanup.foldl e.after (e.after s x.call))
    else exec (e.after s x.call) xs

/-- The first call fails. -/
theorem exec_cons_of_fails {c : α} (h : e.fails c = true) (cleanup : List α) (s : σ)
    (xs : List (Checked α)) :
    e.exec s (⟨c, cleanup⟩ :: xs) = (false, cleanup.foldl e.after (e.failed c s)) := by
  rw [exec, if_pos h, after, if_pos h]

/-- The first call succeeds. -/
theorem exec_cons_of_not_fails {c : α} (h : e.fails c = false) (cleanup : List α) (s : σ)
    (xs : List (Checked α)) : e.exec s (⟨c, cleanup⟩ :: xs) = e.exec (e.done c s) xs := by
  rw [exec, if_neg (Bool.eq_false_iff.mp h), after, if_neg (Bool.eq_false_iff.mp h)]

/-- A procedure of two parts. -/
theorem exec_append (s : σ) (xs ys : List (Checked α)) : e.exec s (xs ++ ys) =
    if (e.exec s xs).1 then e.exec (e.exec s xs).2 ys else e.exec s xs := by
  induction xs generalizing s with
  | nil => rfl
  | cons x xs ih =>
    obtain ⟨c, cleanup⟩ := x
    cases hc : e.fails c with
    | true =>
      rw [List.cons_append, e.exec_cons_of_fails hc, e.exec_cons_of_fails hc]
      rfl
    | false =>
      rw [List.cons_append, e.exec_cons_of_not_fails hc, e.exec_cons_of_not_fails hc]
      exact ih _

/-- What each call keeps, the procedure keeps. -/
theorem exec_invariant {P : σ → Prop} {xs : List (Checked α)}
    (hstep : ∀ x ∈ xs, ∀ c ∈ x.call :: x.cleanup, ∀ s, P s → P (e.after s c)) {s : σ} (h : P s) :
    P (e.exec s xs).2 := by
  induction xs generalizing s with
  | nil => exact h
  | cons x xs ih =>
    have hx := hstep x List.mem_cons_self
    have hcall : P (e.after s x.call) := hx x.call List.mem_cons_self s h
    rw [exec]
    split
    · -- the calls of the check, one after the other
      have hcleanup : ∀ cs ⊆ x.cleanup, ∀ s, P s → P (cs.foldl e.after s) := by
        intro cs
        induction cs with
        | nil => exact fun _ s hs => hs
        | cons c cs ihcs =>
          intro hsub s hs
          have hc := hx c (List.mem_cons_of_mem _ (hsub List.mem_cons_self)) s hs
          exact ihcs (fun c hc => hsub (List.mem_cons_of_mem _ hc)) _ hc
      exact hcleanup _ (List.Subset.refl _) _ hcall
    · exact ih (fun y hy => hstep y (List.mem_cons_of_mem _ hy)) hcall

/-- Calls that change nothing, with the same cleanup behind each. -/
theorem exec_quiet {cs : List α} (hquiet : ∀ c ∈ cs, ∀ s, e.after s c = s) (cleanup : List α)
    (s : σ) : e.exec s (cs.map fun c => ⟨c, cleanup⟩) =
      if cs.any e.fails then (false, cleanup.foldl e.after s) else (true, s) := by
  induction cs with
  | nil => rfl
  | cons c cs ih =>
    have hc := hquiet c List.mem_cons_self s
    rw [List.map_cons, exec, hc, ih fun c hc => hquiet c (List.mem_cons_of_mem _ hc), List.any_cons]
    cases e.fails c <;> rfl

/-- The procedure succeeds if every call does. -/
theorem exec_of_not_fails {xs : List (Checked α)} (h : ∀ x ∈ xs, e.fails x.call = false) (s : σ) :
    e.exec s xs = (true, xs.foldl (fun s x => e.done x.call s) s) := by
  induction xs generalizing s with
  | nil => rfl
  | cons x xs ih =>
    obtain ⟨c, cleanup⟩ := x
    rw [e.exec_cons_of_not_fails (h _ List.mem_cons_self),
      ih fun y hy => h y (List.mem_cons_of_mem _ hy), List.foldl_cons]

/-- The procedure fails if one of its calls does. -/
theorem exec_of_fails {xs : List (Checked α)} {x : Checked α} (hx : x ∈ xs)
    (h : e.fails x.call = true) (s : σ) : (e.exec s xs).1 = false := by
  induction xs generalizing s with
  | nil => cases hx
  | cons y ys ih =>
    obtain ⟨c, cleanup⟩ := y
    cases hc : e.fails c with
    | true => rw [e.exec_cons_of_fails hc]
    | false =>
      obtain rfl | hx := List.mem_cons.mp hx
      · rw [h] at hc
        cases hc
      · rw [e.exec_cons_of_not_fails hc]
        exact ih hx _

end Calls

end MgCommonUtils.Lib
