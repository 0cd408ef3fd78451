import TemporalRTree.Correctness.VacuumRoot

/-!
# `Correctness.Effects` — what runs do to the pages, against what they report

Several results compare the pages a run has changed with the events of its trace: whether each was logged, whether
each was marked dirty. `R pages evs pages'` stands for such a relation. If locks do not matter to it and it
composes (`EffectRel`), then it holds of the runs of a computation as soon as it holds of those of its parts
(`Effects.bind`); the parts that only move locks around the page changes are treated here once for all.
-/

namespace TemporalRTree
open EStateM

/-! ## Blocks that a write leaves alone -/

theorem getD_set_ne {pages : List Page} {q : Page} {blk x : BlockNumber} (h : x ≠ blk) :
    (pages.set blk q).getD x .zero = pages.getD x .zero := by
  simp [List.getD_eq_getElem?_getD, List.getElem?_set_ne h.symm]

theorem getD_append {pages : List Page} {q : Page} {x : BlockNumber} (h : x ≠ pages.length) :
    (pages ++ [q]).getD x .zero = pages.getD x .zero := by
  simp only [List.getD_eq_getElem?_getD]
  rcases Nat.lt_or_gt_of_ne h with h | h
  · rw [List.getElem?_append_left h]
  · rw [List.getElem?_eq_none (by simp; omega), List.getElem?_eq_none (by omega)]

/-! ## Runs -/

/-- A relation between the pages before, the events, and the pages after, that composes along runs. -/
structure EffectRel (R : List Page → List Event → List Page → Prop) : Prop where
  refl : ∀ pages, R pages [] pages
  trans : ∀ {pages pages₁ pages' : List Page} {evs evs' : List Event},
    R pages evs pages₁ → R pages₁ evs' pages' → R pages (evs ++ evs') pages'
  lock : ∀ pages b mode, R pages [Event.lock b mode] pages
  unlock : ∀ pages b, R pages [Event.unlock b] pages

/-- A run that, if it completes, meets `R`. -/
def Effects (R : List Page → List Event → List Page → Prop) {α : Type} (s : Rel) :
    Result RTreeError Rel α → Prop
  | .ok _ s' => ∃ evs, s'.trace = s.trace ++ evs ∧ R s.pages evs s'.pages
  | .error _ _ => True

section Runs
variable {R : List Page → List Event → List Page → Prop} {α β : Type} {env : Env} {s : Rel}

theorem Effects.of_ok {r : Result RTreeError Rel α} {a : α} {s' : Rel} (h : Effects R s r) (hr : r = .ok a s') :
    ∃ evs, s'.trace = s.trace ++ evs ∧ R s.pages evs s'.pages := by
  rw [hr] at h
  exact h

variable (hR : EffectRel R)
include hR

theorem Effects.pure (a : α) : Effects R s (.ok a s : Result RTreeError Rel α) :=
  ⟨[], by simp, hR.refl _⟩

/-- **The rule for sequences.** -/
theorem Effects.bind {x : IndexM α} {f : α → IndexM β} (h : Effects R s (x s))
    (hf : ∀ a s', x s = .ok a s' → Effects R s' (f a s')) : Effects R s ((x >>= f) s) := by
  cases hx : x s with
  | error e s' =>
      rw [bind_of_error hx]
      trivial
  | ok a s' =>
      rw [bind_of_ok hx]
      obtain ⟨evs, htrace, hrel⟩ := h.of_ok hx
      have hrun := hf a s' hx
      cases hy : f a s' with
      | error e s'' => trivial
      | ok b s'' =>
          obtain ⟨evs', htrace', hrel'⟩ := hrun.of_ok hy
          exact ⟨evs ++ evs', by rw [htrace', htrace, List.append_assoc], hR.trans hrel hrel'⟩

theorem readBuffer_effects (blk : BlockNumber) : Effects R s (readBuffer blk s) := by
  by_cases h : blk < s.pages.length
  · rw [readBuffer_run_of_lt h]
    exact Effects.pure hR ()
  · rw [readBuffer_run_of_not_lt h]
    trivial

theorem lockBuffer_effects (blk : BlockNumber) (mode : LockMode) : Effects R s (lockBuffer blk mode s) := by
  rw [lockBuffer_run]
  exact ⟨_, rfl, hR.lock _ _ _⟩

theorem unlockBuffer_effects (blk : BlockNumber) : Effects R s (unlockBuffer blk s) := by
  rw [unlockBuffer_run]
  exact ⟨_, rfl, hR.unlock _ _⟩

/-- Locking changes no page. -/
theorem Effects.locking {blk : BlockNumber} {mode : LockMode} {f : Unit → IndexM β}
    (h : ∀ trace, Effects R { s with trace := trace } (f () { s with trace := trace })) :
    Effects R s ((lockBuffer blk mode >>= f) s) := by
  refine Effects.bind hR (lockBuffer_effects hR blk mode) fun _ s' hs' => ?_
  rw [lockBuffer_run] at hs'
  injection hs' with _ hs'
  subst hs'
  exact h _

/-- Reading a block changes nothing. -/
theorem Effects.reading {blk : BlockNumber} {f : Unit → IndexM β} (h : Effects R s (f () s)) :
    Effects R s ((readBuffer blk >>= f) s) := by
  refine Effects.bind hR (readBuffer_effects hR blk) fun _ s' hs' => ?_
  obtain ⟨-, rfl⟩ := readBuffer_eq_ok.mp hs'
  exact h

/-! ## The meta page -/

theorem readMeta_effects : Effects R s (readMeta s) :=
  Effects.reading hR (Effects.locking hR fun _ => Effects.bind hR (Effects.pure hR _) fun _ _ _ =>
    Effects.bind hR (unlockBuffer_effects hR 0) fun _ _ _ => Effects.pure hR _)

theorem readMetaRoot_effects : Effects R s (readMetaRoot s) := by
  refine Effects.reading hR (Effects.locking hR fun trace => ?_)
  rw [bind_of_ok (get_apply _)]
  split
  · trivial
  · exact Effects.bind hR (unlockBuffer_effects hR 0) fun _ _ _ => Effects.pure hR _

/-! ## Vacuum -/

theorem vacuumChildren_effects {child : BlockNumber → IndexBulkDeleteResult →
      IndexM (Option RTreeTemporalBox × IndexBulkDeleteResult)}
    (hchild : ∀ blk stats s, Effects R s (child blk stats s)) (items : List IndexTuple) (acc : VacuumItems) :
    Effects R s (vacuumChildren child items acc s) := by
  induction items generalizing acc s with
  | nil => exact Effects.pure hR _
  | cons itup rest ih =>
      refine Effects.bind hR (hchild _ _ _) fun res s' _ => ?_
      obtain ⟨box, stats⟩ := res
      cases box with
      | none => exact ih _
      | some box => exact ih _

/-- A walk, if rebuilding a page meets `R`. -/
theorem rtreeVacuumPage_effects
    (hrebuild : ∀ blk page kept s, Effects R s (rebuildPage env blk page kept s))
    (callback : IndexBulkDeleteCallback) (fuel : Nat) (blk : BlockNumber) (stats : IndexBulkDeleteResult) :
    Effects R s (rtreeVacuumPage env callback fuel blk stats s) := by
  induction fuel generalizing blk stats s with
  | zero => trivial
  | succ fuel ih =>
      refine Effects.reading hR (Effects.locking hR fun trace => ?_)
      rw [bind_of_ok (bufferGetPage_run _ _)]
      dsimp only
      split
      · exact hrebuild _ _ _ _
      · exact Effects.bind hR (vacuumChildren_effects hR (fun b st s => ih b st) _ _) fun kept s₃ _ =>
          hrebuild _ _ _ _

/-- The root is shrunk: nothing happens, an only child moves up, or an inner root without downlinks is reset. -/
theorem shrinkLockedRoot_effects {rootblk : BlockNumber} {level : Nat}
    (hcollapse : ∀ pages p q, R pages ([Event.dirty rootblk, Event.dirty 0] ++
      walRecord env [(rootblk, ((pages.set rootblk p).set 0 q).getD rootblk .zero),
        (0, ((pages.set rootblk p).set 0 q).getD 0 .zero)]) ((pages.set rootblk p).set 0 q))
    (hkeep : (pageAt s.pages rootblk).special.flags.leaf = true ∨ level = 0 ∨
      (pageAt s.pages rootblk).items ≠ []) : Effects R s (shrinkLockedRoot env rootblk level s) := by
  by_cases hinner : (pageAt s.pages rootblk).special.flags.leaf = true ∨ level = 0
  · rw [shrinkLockedRoot_run_leaf hinner]
    exact Effects.pure hR _
  · have hne := hkeep.elim (fun h => absurd (Or.inl h) hinner) fun h =>
      h.elim (fun h => absurd (Or.inr h) hinner) id
    rw [shrinkLockedRoot, bind_of_ok (bufferGetPage_run _ _), if_neg hinner]
    cases hitems : (pageAt s.pages rootblk).items with
    | nil => exact absurd hitems hne
    | cons childitup rest =>
        cases rest with
        | cons second rest => exact Effects.pure hR _
        | nil =>
            refine Effects.reading hR (Effects.locking hR fun trace => ?_)
            simp only [bind_apply, bufferGetPage_run, putPage_run, get_apply, markBufferDirty_run,
              genericXLog_run, unlockBuffer_run, pure_apply, List.map_cons, List.map_nil, List.append_assoc]
            refine ⟨_, rfl, ?_⟩
            rw [← List.append_assoc, ← List.append_assoc]
            exact hR.trans (hcollapse _ _ _) (hR.unlock _ _)

theorem rtreeVacuumShrinkRoot_effects {rootblk : BlockNumber} {level : Nat}
    (hcollapse : ∀ pages p q, R pages ([Event.dirty rootblk, Event.dirty 0] ++
      walRecord env [(rootblk, ((pages.set rootblk p).set 0 q).getD rootblk .zero),
        (0, ((pages.set rootblk p).set 0 q).getD 0 .zero)]) ((pages.set rootblk p).set 0 q))
    (hkeep : (pageAt s.pages rootblk).special.flags.leaf = true ∨ level = 0 ∨
      (pageAt s.pages rootblk).items ≠ []) : Effects R s (rtreeVacuumShrinkRoot env rootblk level s) := by
  rw [rtreeVacuumShrinkRoot]
  split
  · exact Effects.pure hR _
  · refine Effects.reading hR (Effects.locking hR fun trace => ?_)
    rw [bind_of_ok (get_apply _)]
    split
    · exact Effects.bind hR (unlockBuffer_effects hR 0) fun _ _ _ => Effects.pure hR _
    · exact Effects.reading hR (Effects.locking hR fun trace =>
        Effects.bind hR (shrinkLockedRoot_effects hR hcollapse hkeep) fun _ _ _ =>
        Effects.bind hR (unlockBuffer_effects hR _) fun _ _ _ =>
        Effects.bind hR (unlockBuffer_effects hR _) fun _ _ _ => Effects.pure hR _)

end Runs

end TemporalRTree
