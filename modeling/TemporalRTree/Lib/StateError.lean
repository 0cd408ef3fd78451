import Mathlib.Tactic

/-!
# `Lib.StateError` — reasoning about runs of state-and-error computations

A computation `x : EStateM ε σ α` applied to a state is a run: it ends in `ok` with a value or in `error`,
and in a state either way. These are the rules for taking a run of a sequence apart: forwards when the
first part's run is known (`bind_of_ok`, `bind_of_error`), backwards from the outcome of the whole
(`bind_eq_ok`, `bind_eq_error`). `Ends` states what a run ends with either way, and composes along sequences
(`Ends.bind`). `Keeps` is the special case of an invariant that a computation keeps whether or not it succeeds.
`Simulates` compares runs over two kinds of state, one of which says less than the other.
-/

namespace EStateM

variable {ε σ α β : Type}

@[simp] theorem pure_apply (a : α) (s : σ) : (pure a : EStateM ε σ α) s = .ok a s := rfl

@[simp] theorem throw_apply (e : ε) (s : σ) : (throw e : EStateM ε σ α) s = .error e s := rfl

@[simp] theorem get_apply (s : σ) : (get : EStateM ε σ σ) s = .ok s s := rfl

@[simp] theorem modify_apply (f : σ → σ) (s : σ) :
    (modify f : EStateM ε σ PUnit) s = .ok PUnit.unit (f s) := rfl

@[simp] theorem set_apply (s s' : σ) : (set s' : EStateM ε σ PUnit) s = .ok PUnit.unit s' := rfl

/-- A sequence runs its first part, then the rest on what it gave. -/
theorem bind_apply (x : EStateM ε σ α) (f : α → EStateM ε σ β) (s : σ) :
    (x >>= f) s = match x s with
      | .ok a s' => f a s'
      | .error e s' => .error e s' := rfl

theorem bind_of_ok {x : EStateM ε σ α} {f : α → EStateM ε σ β} {s s' : σ} {a : α}
    (h : x s = .ok a s') : (x >>= f) s = f a s' := by
  rw [bind_apply, h]

theorem bind_of_error {x : EStateM ε σ α} {f : α → EStateM ε σ β} {s s' : σ} {e : ε}
    (h : x s = .error e s') : (x >>= f) s = .error e s' := by
  rw [bind_apply, h]

/-- A sequence succeeds when both parts do. -/
theorem bind_eq_ok {x : EStateM ε σ α} {f : α → EStateM ε σ β} {s s'' : σ} {b : β} :
    (x >>= f) s = .ok b s'' ↔ ∃ a s', x s = .ok a s' ∧ f a s' = .ok b s'' := by
  rw [bind_apply]
  cases hx : x s with
  | ok a s' => simp
  | error e s' => simp

/-- A sequence fails in its first part or in the rest. -/
theorem bind_eq_error {x : EStateM ε σ α} {f : α → EStateM ε σ β} {s s'' : σ} {e : ε} :
    (x >>= f) s = .error e s'' ↔
      x s = .error e s'' ∨ ∃ a s', x s = .ok a s' ∧ f a s' = .error e s'' := by
  rw [bind_apply]
  cases hx : x s with
  | ok a s' => simp
  | error e s' => simp

/-- A sequence whose rest cannot fail fails in its first part. -/
theorem error_of_bind {x : EStateM ε σ α} {f : α → EStateM ε σ β} {s s'' : σ} {e : ε}
    (h : (x >>= f) s = .error e s'') (hf : ∀ a s', f a s' ≠ .error e s'') : x s = .error e s'' := by
  rcases bind_eq_error.mp h with h | ⟨a, s', -, h⟩
  · exact h
  · exact absurd h (hf a s')

/-- A run ends in `ok` with `P` or in `error` with `E`. -/
def Ends (P : α → σ → Prop) (E : σ → Prop) : Result ε σ α → Prop
  | .ok a s => P a s
  | .error _ s => E s

theorem Ends.trivial (r : Result ε σ α) : Ends (fun _ _ => True) (fun _ => True) r := by
  cases r <;> exact True.intro

theorem Ends.of_ok {P : α → σ → Prop} {E : σ → Prop} {r : Result ε σ α} {a : α} {s : σ} (h : Ends P E r)
    (hr : r = .ok a s) : P a s := by
  rw [hr] at h
  exact h

theorem Ends.imp {P Q : α → σ → Prop} {E : σ → Prop} {r : Result ε σ α} (h : Ends P E r)
    (hPQ : ∀ a s, P a s → Q a s) : Ends Q E r := by
  cases r with
  | ok a s => exact hPQ a s h
  | error e s => exact h

theorem Ends.mono {P Q : α → σ → Prop} {E F : σ → Prop} {r : Result ε σ α} (h : Ends P E r)
    (hPQ : ∀ a s, P a s → Q a s) (hEF : ∀ s, E s → F s) : Ends Q F r := by
  cases r with
  | ok a s => exact hPQ a s h
  | error e s => exact hEF s h

/-- **The rule for sequences**: what the first part ends with is what the rest starts from. -/
theorem Ends.bind {x : EStateM ε σ α} {f : α → EStateM ε σ β} {s : σ} {P : α → σ → Prop}
    {Q : β → σ → Prop} {E : σ → Prop} (h : Ends P E (x s))
    (hf : ∀ a s', P a s' → Ends Q E (f a s')) : Ends Q E ((x >>= f) s) := by
  rw [bind_apply]
  cases hx : x s with
  | ok a s' =>
      rw [hx] at h
      exact hf a s' h
  | error e s' =>
      rw [hx] at h
      exact h

/-! ## Invariants -/

/-- The state a run ends in. -/
def endState : Result ε σ α → σ
  | .ok _ s => s
  | .error _ s => s

/-- Every run from a state with `I` ends in one, and a result meets `Q`. -/
def Keeps (I : σ → Prop) (x : EStateM ε σ α) (Q : α → Prop) : Prop :=
  ∀ s, I s → Ends (fun a s' => I s' ∧ Q a) I (x s)

section Keeps
variable {I : σ → Prop} {x : EStateM ε σ α} {f : α → EStateM ε σ β} {Q : α → Prop} {R : β → Prop} {s : σ}

theorem Keeps.endState (h : Keeps I x Q) (hs : I s) : I (endState (x s)) := by
  have hx := h s hs
  cases hr : x s with
  | ok a s' =>
      rw [hr] at hx
      exact hx.1
  | error e s' =>
      rw [hr] at hx
      exact hx

theorem Keeps.pure {a : α} (h : Q a) : Keeps I (Pure.pure a : EStateM ε σ α) Q := fun _ hs => ⟨hs, h⟩

theorem Keeps.throw (e : ε) : Keeps I (throw e : EStateM ε σ α) Q := fun _ hs => hs

/-- The state read meets the invariant. -/
theorem Keeps.get : Keeps I (get : EStateM ε σ σ) I := fun _ hs => ⟨hs, hs⟩

theorem Keeps.modify {g : σ → σ} (h : ∀ s, I s → I (g s)) :
    Keeps I (modify g : EStateM ε σ PUnit) fun _ => True := fun s hs => ⟨h s hs, True.intro⟩

theorem Keeps.set (h : I s) : Keeps I (set s : EStateM ε σ PUnit) fun _ => True := fun _ _ => ⟨h, True.intro⟩

/-- **The rule for sequences.** -/
theorem Keeps.bind (h : Keeps I x Q) (hf : ∀ a, Q a → Keeps I (f a) R) : Keeps I (x >>= f) R :=
  fun s hs => (h s hs).bind fun a s' ha => hf a ha.2 s' ha.1

end Keeps

/-! ## Simulation -/

section Simulates
variable {τ : Type} {f : σ → τ}

/-- A run with its state seen through `f`. -/
def Result.seen (f : σ → τ) : Result ε σ α → Result ε τ α
  | .ok a s => .ok a (f s)
  | .error e s => .error e (f s)

/-- Seen through `f`, the runs of `x` are those of `y`. -/
def Simulates (f : σ → τ) (x : EStateM ε σ α) (y : EStateM ε τ α) : Prop := ∀ s, (x s).seen f = y (f s)

theorem Simulates.pure (a : α) : Simulates f (Pure.pure a : EStateM ε σ α) (Pure.pure a) := fun _ => rfl

theorem Simulates.throw (e : ε) : Simulates f (throw e : EStateM ε σ α) (throw e) := fun _ => rfl

/-- **The rule for sequences.** -/
theorem Simulates.bind {x : EStateM ε σ α} {y : EStateM ε τ α} {g : α → EStateM ε σ β} {h : α → EStateM ε τ β}
    (hxy : Simulates f x y) (hgh : ∀ a, Simulates f (g a) (h a)) : Simulates f (x >>= g) (y >>= h) := by
  intro s
  rw [bind_apply, bind_apply, ← hxy s]
  cases x s with
  | ok a s' => exact hgh a s'
  | error e s' => rfl

/-- Where `y` succeeds, so does `x`. -/
theorem Simulates.of_ok {x : EStateM ε σ α} {y : EStateM ε τ α} (h : Simulates f x y) {s : σ} {t : τ} {a : α}
    (hy : y (f s) = .ok a t) : ∃ s', x s = .ok a s' ∧ f s' = t := by
  have hseen := (h s).trans hy
  cases hx : x s with
  | ok a' s' =>
      rw [hx] at hseen
      cases hseen
      exact ⟨s', rfl, rfl⟩
  | error e s' =>
      rw [hx] at hseen
      cases hseen

end Simulates

/-- Whether a run succeeded with an outcome that passes a check. -/
def okWith (check : α → σ → Bool) : Result ε σ α → Bool
  | .ok a s => check a s
  | .error _ _ => false

theorem exists_of_okWith {check : α → σ → Bool} {r : Result ε σ α} (h : okWith check r = true) :
    ∃ a s, r = .ok a s ∧ check a s = true := by
  cases r with
  | ok a s => exact ⟨a, s, rfl, h⟩
  | error e s => exact absurd h (by simp [okWith])

/-- Whether a run failed with an error and a state that pass a check. -/
def errorWith (check : ε → σ → Bool) : Result ε σ α → Bool
  | .ok _ _ => false
  | .error e s => check e s

theorem exists_of_errorWith {check : ε → σ → Bool} {r : Result ε σ α} (h : errorWith check r = true) :
    ∃ e s, r = .error e s ∧ check e s = true := by
  cases r with
  | ok a s => exact absurd h (by simp [errorWith])
  | error e s => exact ⟨e, s, rfl, h⟩

end EStateM
