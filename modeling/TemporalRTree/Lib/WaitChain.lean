import Mathlib.Logic.Relation
import Mathlib.Order.WellFounded

/-!
# `Lib.WaitChain` — who waits for whom, when locks are taken in the order of a rank

Parties hold locks and may want one more; a party waits for another that holds a conflicting lock. If what a
party wants always ranks below everything it holds, ranks fall along every chain of waiting parties, so each chain
ends with a party that does not wait (`exists_not_waiting`): nobody is in a deadlock, and nobody waits behind one.
-/

namespace WaitChain

variable {T L R : Type*} (wants : T → Option L) (holds : T → L → Prop) (conflict : L → L → Prop)

/-- `t` wants a lock that conflicts with one that `t'` holds. -/
def Waits (t t' : T) : Prop := ∃ l l', wants t = some l ∧ holds t' l' ∧ conflict l l'

variable {wants holds conflict} [Preorder R] [WellFoundedLT R] (rank : L → R)

/-- **Locks taken in the order of a rank**: from every party a chain of waiting parties leads to one that does not
    wait. -/
theorem exists_not_waiting (hrank : ∀ l l', conflict l l' → rank l' ≤ rank l)
    (hdown : ∀ t l l', wants t = some l → holds t l' → rank l < rank l') (t : T) :
    ∃ t', Relation.ReflTransGen (Waits wants holds conflict) t t' ∧ ∀ t'', ¬ Waits wants holds conflict t' t'' := by
  -- by induction on the rank of the lock wanted
  have hchain : ∀ r : R, ∀ t l, wants t = some l → rank l = r →
      ∃ t', Relation.ReflTransGen (Waits wants holds conflict) t t' ∧ ∀ t'', ¬ Waits wants holds conflict t' t'' := by
    intro r
    induction r using WellFoundedLT.induction with
    | ind r ih =>
        intro t l hwants hr
        by_cases hwait : ∃ t₁, Waits wants holds conflict t t₁
        · obtain ⟨t₁, hstep⟩ := hwait
          have hwaits := hstep
          obtain ⟨l', l₁, hwants', hholds, hconf⟩ := hwaits
          obtain rfl : l = l' := Option.some.inj (hwants.symm.trans hwants')
          cases hnext : wants t₁ with
          | none =>
              refine ⟨t₁, .single hstep, ?_⟩
              rintro t₂ ⟨l₂, -, hl₂, -⟩
              rw [hnext] at hl₂
              exact absurd hl₂ (by simp)
          | some l₂ =>
              have hlt : rank l₂ < r := hr ▸ lt_of_lt_of_le (hdown t₁ l₂ l₁ hnext hholds) (hrank l l₁ hconf)
              obtain ⟨t', hrun, hend⟩ := ih (rank l₂) hlt t₁ l₂ hnext rfl
              exact ⟨t', .head hstep hrun, hend⟩
        · exact ⟨t, .refl, fun t'' h => hwait ⟨t'', h⟩⟩
  cases hwants : wants t with
  | none =>
      refine ⟨t, .refl, ?_⟩
      rintro t'' ⟨l, -, hl, -⟩
      rw [hwants] at hl
      exact absurd hl (by simp)
  | some l => exact hchain (rank l) t l hwants rfl

end WaitChain
