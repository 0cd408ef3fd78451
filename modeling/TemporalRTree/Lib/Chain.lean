import Mathlib.Data.List.Nodup

/-!
# `Lib.Chain` — following links from cell to cell

Each cell `b` holds a link `next b` to another cell, or `stop`. `Follows next stop start path` says that going
from `start` along the links passes the cells of `path` in order and then ends. A path only depends on the links
of its own cells (`Follows.congr`), and a new cell is put behind another by redirecting one link
(`Follows.insertAfter`).
-/

namespace Chain

variable {α : Type}

/-- From `start` the links lead through the cells of `path` to `stop`. -/
inductive Follows (next : α → α) (stop : α) : α → List α → Prop where
  | nil : Follows next stop stop []
  | cons {b : α} {path : List α} (hne : b ≠ stop) (h : Follows next stop (next b) path) :
      Follows next stop b (b :: path)

namespace Follows

variable {next next' : α → α} {stop start b new : α} {path : List α}

theorem congr (h : Follows next stop start path) (hnext : ∀ x ∈ path, next' x = next x) :
    Follows next' stop start path := by
  induction h with
  | nil => exact .nil
  | @cons b path hne _ ih =>
      refine .cons hne ?_
      rw [hnext b List.mem_cons_self]
      exact ih fun x hx => hnext x (List.mem_cons_of_mem _ hx)

/-- **A cell is put behind `b`**: `b` links to it, and it takes over the link of `b`. -/
theorem insertAfter (h : Follows next stop start path) (hnodup : path.Nodup) (hb : b ∈ path)
    (hnew : new ≠ stop) (hfirst : next' b = new) (hsecond : next' new = next b)
    (hrest : ∀ x ∈ path, x ≠ b → next' x = next x) :
    ∃ path', path'.Perm (new :: path) ∧ Follows next' stop start path' := by
  induction h with
  | nil => exact absurd hb List.not_mem_nil
  | @cons c path hne htail ih =>
      obtain ⟨hc, hnodup⟩ := List.nodup_cons.mp hnodup
      rcases eq_or_ne c b with rfl | hcb
      · -- the rest of the path keeps its links
        have htail' : Follows next' stop (next c) path := htail.congr fun x hx =>
          hrest x (List.mem_cons_of_mem _ hx) fun he => hc (he ▸ hx)
        refine ⟨c :: new :: path, .swap _ _ _, .cons hne ?_⟩
        rw [hfirst]
        refine .cons hnew ?_
        rw [hsecond]
        exact htail'
      · have hb' : b ∈ path := (List.mem_cons.mp hb).resolve_left fun he => hcb he.symm
        obtain ⟨path', hperm, hfollows⟩ := ih hnodup hb' fun x hx => hrest x (List.mem_cons_of_mem _ hx)
        refine ⟨c :: path', (hperm.cons c).trans (.swap _ _ _), .cons hne ?_⟩
        rw [hrest c List.mem_cons_self hcb]
        exact hfollows

end Follows

end Chain
