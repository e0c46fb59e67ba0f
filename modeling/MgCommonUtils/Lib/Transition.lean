import Mathlib.Data.List.Basic
import Mathlib.Logic.Function.Basic

/-!
# Transition systems

A system whose steps are computed from a label. The label carries everything the environment
chooses, so a run is determined by its labels (`run`). A run is judged under a guard on its steps:
`Reach ok` are the states of the runs all of whose steps meet `ok`, and `Reachable` those of all
runs. The rule `Reach.invariant` is the induction over a run.
-/

namespace MgCommonUtils.Lib

/-- A transition system with states `σ` and labels `α`. -/
structure Lts (σ α : Type*) where
  /-- The states that a run starts in. -/
  init : σ → Prop
  /-- The state after a step, or none when the step is impossible. -/
  step : σ → α → Option σ

namespace Lts

variable {σ α : Type*} {M : Lts σ α} {ok ok' : σ → α → Prop}

/-- The states of the runs all of whose steps meet `ok`. -/
inductive Reach (M : Lts σ α) (ok : σ → α → Prop) : σ → Prop
  | init {s : σ} (h : M.init s) : Reach M ok s
  | step {s t : σ} {a : α} (hs : Reach M ok s) (ha : ok s a) (h : M.step s a = some t) :
      Reach M ok t

/-- The states of all runs. -/
abbrev Reachable (M : Lts σ α) : σ → Prop := M.Reach fun _ _ => True

/-- A property of the initial states that every step under the guard keeps holds in every state
reached. -/
theorem Reach.invariant {I : σ → Prop} {s : σ} (h : M.Reach ok s) (hinit : ∀ s, M.init s → I s)
    (hstep : ∀ s a t, I s → ok s a → M.step s a = some t → I t) : I s := by
  induction h with
  | init h => exact hinit _ h
  | step _ ha h ih => exact hstep _ _ _ ih ha h

/-- A weaker guard reaches more states. -/
theorem Reach.mono {s : σ} (h : M.Reach ok s) (hok : ∀ s a, ok s a → ok' s a) : M.Reach ok' s := by
  induction h with
  | init h => exact .init h
  | step _ ha h ih => exact .step ih (hok _ _ ha) h

/-- The state after the steps with the given labels. -/
def run (M : Lts σ α) (s : σ) : List α → Option σ
  | [] => some s
  | a :: rest => (M.step s a).bind fun t => M.run t rest

/-- The steps with the given labels meet the guard. -/
def RunOk (M : Lts σ α) (ok : σ → α → Prop) (s : σ) : List α → Prop
  | [] => True
  | a :: rest => ok s a ∧ ∀ t ∈ M.step s a, M.RunOk ok t rest

/-- A guard that looks at the labels only. -/
theorem runOk_of_forall {as : List α} (h : ∀ a ∈ as, ∀ s, ok s a) (s : σ) : M.RunOk ok s as := by
  induction as generalizing s with
  | nil => trivial
  | cons a as ih =>
    exact ⟨h a (by simp) s, fun t _ => ih (fun b hb => h b (by simp [hb])) t⟩

/-- A run that meets two guards. -/
theorem RunOk.and {as : List α} {s : σ} (h : M.RunOk ok s as) (h' : M.RunOk ok' s as) :
    M.RunOk (fun s a => ok s a ∧ ok' s a) s as := by
  induction as generalizing s with
  | nil => trivial
  | cons a as ih => exact ⟨⟨h.1, h'.1⟩, fun t ht => ih (h.2 t ht) (h'.2 t ht)⟩

/-- A run that meets a guard meets a weaker one. -/
theorem RunOk.mono {as : List α} {s : σ} (h : M.RunOk ok s as)
    (hok : ∀ s a, ok s a → ok' s a) : M.RunOk ok' s as := by
  induction as generalizing s with
  | nil => trivial
  | cons a as ih => exact ⟨hok s a h.1, fun t ht => ih (h.2 t ht)⟩

/-- Whether a run meets a guard can be computed. -/
instance decidableRunOk [∀ s a, Decidable (ok s a)] :
    ∀ (s : σ) (as : List α), Decidable (M.RunOk ok s as)
  | _, [] => .isTrue trivial
  | s, a :: rest =>
    match h : M.step s a with
    | none => decidable_of_iff (ok s a) (by simp [RunOk, h])
    | some t =>
      have := decidableRunOk t rest
      decidable_of_iff (ok s a ∧ M.RunOk ok t rest) (by simp [RunOk, h])

/-- The state after a run that meets the guard is reached. -/
theorem Reach.run {s t : σ} (hs : M.Reach ok s) {as : List α} (hok : M.RunOk ok s as)
    (h : M.run s as = some t) : M.Reach ok t := by
  induction as generalizing s with
  | nil =>
    obtain rfl := Option.some.inj h
    exact hs
  | cons a as ih =>
    obtain ⟨s', hstep, hrun⟩ := Option.bind_eq_some_iff.mp h
    exact ih (hs.step hok.1 hstep) (hok.2 s' hstep) hrun

/-- A property that every step under the guard keeps is kept by a run that meets the guard. -/
theorem RunOk.invariant {I : σ → Prop} {s t : σ} {as : List α} (hok : M.RunOk ok s as)
    (h : M.run s as = some t) (hstep : ∀ s a t, I s → ok s a → M.step s a = some t → I t)
    (hs : I s) : I t := by
  induction as generalizing s with
  | nil =>
    obtain rfl := Option.some.inj h
    exact hs
  | cons a as ih =>
    obtain ⟨s', hs', hrun⟩ := Option.bind_eq_some_iff.mp h
    exact ih (hok.2 s' hs') hrun (hstep s a s' hs hok.1 hs')

/-- A run of two parts. -/
theorem run_append (s : σ) (as bs : List α) :
    M.run s (as ++ bs) = (M.run s as).bind fun t => M.run t bs := by
  induction as generalizing s with
  | nil => rfl
  | cons a as ih => simp [run, ih, Option.bind_assoc]

/-- The first step of a run counts, or not. -/
theorem countP_cons_toNat (p : α → Bool) (a : α) (as : List α) :
    (a :: as).countP p = (p a).toNat + as.countP p := by
  rw [List.countP_cons, Nat.add_comm]
  cases p a <;> rfl

/-- Something happens in a run, if it must happen before as many steps of a kind as a rank says. -/
theorem exists_prefix_of_rank {I Q : σ → Prop} {r : σ → ℕ} {p : α → Bool}
    (hpos : ∀ s, I s → 0 < r s)
    (hstep : ∀ s a t, I s → M.step s a = some t → Q t ∨ I t ∧ r t + (p a).toNat ≤ r s) {s t : σ}
    {as : List α} (hs : I s) (h : M.run s as = some t) (hcount : r s ≤ as.countP p) :
    ∃ (bs : List α) (u : σ), bs <+: as ∧ M.run s bs = some u ∧ Q u := by
  induction as generalizing s with
  | nil =>
    have := hpos s hs
    rw [List.countP_nil] at hcount
    omega
  | cons a as ih =>
    obtain ⟨s', hs', hrun⟩ := Option.bind_eq_some_iff.mp h
    obtain hQ | ⟨hI, hrank⟩ := hstep s a s' hs hs'
    · refine ⟨[a], s', ⟨as, rfl⟩, ?_, hQ⟩
      rw [Lts.run, hs', Option.bind_some, Lts.run]
    · rw [countP_cons_toNat] at hcount
      obtain ⟨bs, u, hbs, hu, hQ⟩ := ih hI hrun (by omega)
      refine ⟨a :: bs, u, List.cons_prefix_cons.mpr ⟨rfl, hbs⟩, ?_, hQ⟩
      rw [Lts.run, hs', Option.bind_some, hu]

/-! ## Bisimulation -/

/-- Two systems whose steps go together under a guard have runs that go together: one run is
possible if and only if the other is, and the states at their ends are related. -/
theorem run_rel {τ β : Type*} {N : Lts τ β} {R : σ → τ → Prop} {f : α → β}
    (hstep : ∀ s t a, R s t → ok s a → Option.Rel R (M.step s a) (N.step t (f a))) {s : σ} {t : τ}
    (hR : R s t) {as : List α} (hok : M.RunOk ok s as) :
    Option.Rel R (M.run s as) (N.run t (as.map f)) := by
  induction as generalizing s t with
  | nil => exact .some hR
  | cons a as ih =>
    have h := hstep s t a hR hok.1
    rw [Lts.run, List.map_cons, Lts.run]
    cases hs : M.step s a with
    | none =>
      rw [hs] at h
      cases ht : N.step t (f a) with
      | none => exact .none
      | some t' =>
        rw [ht] at h
        cases h
    | some s' =>
      rw [hs] at h
      cases ht : N.step t (f a) with
      | none =>
        rw [ht] at h
        cases h
      | some t' =>
        rw [ht] at h
        cases h with
        | some hR' => exact ih hR' (hok.2 s' hs)

/-! ## Simulation -/

variable {τ β : Type*} {N : Lts τ β}

/-- One system follows the steps of another. -/
structure Simulation (M : Lts σ α) (N : Lts τ β) where
  /-- The state of `N` that goes with a state. -/
  view : σ → τ
  /-- The label of `N` that goes with a step. -/
  act : σ → α → β
  /-- Runs start together. -/
  init : ∀ s, M.init s → N.init (view s)
  /-- The systems stay together. -/
  step : ∀ s a t, M.step s a = some t → N.step (view s) (act s a) = some (view t)

/-- The labels of `N` that go with the steps of a run. -/
def Simulation.acts (S : M.Simulation N) (s : σ) : List α → List β
  | [] => []
  | a :: rest => S.act s a :: (M.step s a).elim [] fun t => S.acts t rest

/-- A run is followed by a run. -/
theorem Simulation.run (S : M.Simulation N) {s t : σ} {as : List α} (h : M.run s as = some t) :
    N.run (S.view s) (S.acts s as) = some (S.view t) := by
  induction as generalizing s with
  | nil =>
    obtain rfl := Option.some.inj h
    rfl
  | cons a as ih =>
    obtain ⟨s', hstep, hrun⟩ := Option.bind_eq_some_iff.mp h
    rw [Simulation.acts, Lts.run, S.step s a s' hstep, hstep]
    exact ih hrun

/-- A run is followed under a guard that its own guard implies. -/
theorem Simulation.runOk (S : M.Simulation N) (okN : τ → β → Prop)
    (hok : ∀ s a, ok s a → okN (S.view s) (S.act s a)) {s : σ} {as : List α}
    (h : M.RunOk ok s as) : N.RunOk okN (S.view s) (S.acts s as) := by
  induction as generalizing s with
  | nil => trivial
  | cons a as ih =>
    refine ⟨hok s a h.1, fun t ht => ?_⟩
    cases hstep : M.step s a with
    | none => trivial
    | some s' =>
      rw [S.step s a s' hstep] at ht
      obtain rfl := Option.some.inj ht
      exact ih (h.2 s' hstep)

/-- What is reached is seen to be reached. -/
theorem Simulation.reach (S : M.Simulation N) {s : σ} (h : M.Reach ok s) :
    N.Reachable (S.view s) := by
  induction h with
  | init h => exact .init (S.init _ h)
  | step _ _ h ih => exact .step ih trivial (S.step _ _ _ h)

end Lts

end MgCommonUtils.Lib
