import Mathlib.Tactic

/-!
# `Lib.WriteBack` — a write-back cache

Each block has a copy in memory and a copy on disk, and may be marked dirty. The cache manager writes dirty
blocks back and drops clean ones, whose next reader gets the disk copy. The cache is coherent when every block
whose copies differ is marked: then neither of the two changes what memory holds.
-/

namespace WriteBack

variable {B V : Type*} [DecidableEq B] {memory memory' disk : B → V} {dirty marks : List B} {b : B}

/-- Every block whose copies differ is marked. -/
def Coherent (memory disk : B → V) (dirty : List B) : Prop := ∀ b, memory b ≠ disk b → b ∈ dirty

omit [DecidableEq B] in
theorem Coherent.refl : Coherent memory memory dirty := fun _ h => absurd rfl h

omit [DecidableEq B] in
/-- The copies of a clean block are the same. -/
theorem Coherent.clean (h : Coherent memory disk dirty) (hb : b ∉ dirty) : memory b = disk b := by
  by_contra hne
  exact hb (h b hne)

/-- Writing a block back. -/
theorem Coherent.writeBack (h : Coherent memory disk dirty) :
    Coherent memory (Function.update disk b (memory b)) (dirty.filter (· ≠ b)) := by
  intro x hx
  have hne : x ≠ b := by
    rintro rfl
    simp at hx
  rw [Function.update_of_ne hne] at hx
  simpa [hne] using h x hx

omit [DecidableEq B] in
/-- Changing blocks in memory, and marking them. -/
theorem Coherent.change (h : Coherent memory disk dirty) (hmarks : ∀ x, memory' x ≠ memory x → x ∈ marks) :
    Coherent memory' disk (dirty ++ marks) := by
  intro x hx
  by_cases hsame : memory' x = memory x
  · exact List.mem_append_left _ (h x (hsame ▸ hx))
  · exact List.mem_append_right _ (hmarks x hsame)

end WriteBack
