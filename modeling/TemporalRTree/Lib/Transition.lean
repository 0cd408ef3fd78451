import Mathlib.Tactic

/-!
# `Lib.Transition` — runs of a transition function

A system is a function `step` from a state and an action to the next state, or to `none` where the action is
not possible. `run` carries out a list of actions; `Guarded` are the runs all of whose actions meet a
condition on the state they start from. A property that every step preserves holds after every run
(`run_invariant`), one that every guarded step preserves in every state of a guarded run (`Guarded.invariant`).
-/

namespace Transition

variable {S A : Type*}

/-- Carry out a list of actions. -/
def run (step : S → A → Option S) : S → List A → Option S
  | s, [] => some s
  | s, a :: as => (step s a).bind fun s' => run step s' as

/-- `s'` is reached from `s` by actions that meet the guard. -/
inductive Guarded (step : S → A → Option S) (guard : S → A → Prop) (s : S) : S → Prop where
  | refl : Guarded step guard s s
  | tail {s' s'' : S} {a : A} :
      Guarded step guard s s' → guard s' a → step s' a = some s'' → Guarded step guard s s''

variable {step : S → A → Option S} {guard : S → A → Prop} {s s' : S}

/-- **What every guarded step preserves holds throughout a guarded run.** -/
theorem Guarded.invariant (h : Guarded step guard s s') (Inv : S → Prop)
    (hstep : ∀ s a s', Inv s → guard s a → step s a = some s' → Inv s') (h₀ : Inv s) : Inv s' := by
  induction h with
  | refl => exact h₀
  | tail _ hg hs ih => exact hstep _ _ _ ih hg hs

/-- **What every step preserves holds after a run.** -/
theorem run_invariant (Inv : S → Prop) (hstep : ∀ s a s', Inv s → step s a = some s' → Inv s') {as : List A}
    (h : run step s as = some s') (h₀ : Inv s) : Inv s' := by
  induction as generalizing s with
  | nil =>
      obtain rfl := Option.some.inj h
      exact h₀
  | cons a as ih =>
      obtain ⟨s₁, hs, h⟩ := Option.bind_eq_some_iff.mp h
      exact ih h (hstep s a s₁ h₀ hs)

/-- Carry out a list of actions while each meets the guard. -/
def runGuarded (step : S → A → Option S) (guard : S → A → Prop) [∀ s a, Decidable (guard s a)] :
    S → List A → Option S
  | s, [] => some s
  | s, a :: as => if guard s a then (step s a).bind fun s' => runGuarded step guard s' as else none

theorem Guarded.trans {s'' : S} (h : Guarded step guard s s') (h' : Guarded step guard s' s'') :
    Guarded step guard s s'' := by
  induction h' with
  | refl => exact h
  | tail _ hg hs ih => exact .tail ih hg hs

theorem guarded_of_runGuarded [∀ s a, Decidable (guard s a)] {as : List A}
    (h : runGuarded step guard s as = some s') : Guarded step guard s s' := by
  induction as generalizing s with
  | nil =>
      obtain rfl := Option.some.inj h
      exact .refl
  | cons a as ih =>
      simp only [runGuarded] at h
      split at h
      · next hg =>
        obtain ⟨s₁, hs, h⟩ := Option.bind_eq_some_iff.mp h
        exact (Guarded.tail .refl hg hs).trans (ih h)
      · exact absurd h (by simp)

end Transition
