import TemporalRTree.Correctness.VacuumTree

/-!
# `Correctness.VacuumRoot` — shrinking the root, and bulk deletion as a whole

After the walk the root may be an inner page without downlinks (`Emptied`): that is the one state between
two operations of a bulk deletion that is not `WF`. `rtree_vacuum_shrink_root` turns it into an empty leaf,
or moves an only child up into the root's block; either way the contents stay.
-/

namespace TemporalRTree
open EStateM Layout

/-- An index whose root lost all its tuples and is still tagged with its old level. -/
structure Emptied (pages : List Page) : Prop where
  magic : (metaAt pages).magic = trtreeMetaMagic
  nblocks_le : pages.length ≤ invalidBlockNumber
  root_pos : 0 < (metaAt pages).root
  root_lt : (metaAt pages).root < pages.length
  level_eq : (pageAt pages (metaAt pages).root).special.level = (metaAt pages).rootLevel
  leaf_iff : (pageAt pages (metaAt pages).root).special.flags.leaf = true ↔ (metaAt pages).rootLevel = 0
  items : (pageAt pages (metaAt pages).root).items = []

/-- Nothing is reachable from an emptied root. -/
theorem Emptied.contents_eq {pages : List Page} (h : Emptied pages) : contents pages = 0 := by
  rw [contents]
  cases (metaAt pages).rootLevel with
  | zero => simp [nodes, h.items]
  | succ l => simp [leaves_succ, nodes, h.items]

/-- An emptied leaf root is an empty index. -/
theorem Emptied.wf {pages : List Page} (h : Emptied pages) (hl : (metaAt pages).rootLevel = 0) :
    WF pages := by
  refine ⟨h.magic, h.nblocks_le, ?_, ?_⟩
  · rw [hl]
    refine ⟨fun c hc => ?_, by simp⟩
    rw [List.mem_singleton.mp hc]
    exact ⟨h.level_eq.trans hl, ⟨fun _ => rfl, fun _ => h.leaf_iff.mpr hl⟩, by simp [h.items],
      fun h => absurd rfl h⟩
  · rw [hl]
    simpa using ⟨h.root_pos, h.root_lt⟩

/-! ## After the walk -/

/-- **A walk from the root leaves a well-formed index of the live tuples, or an emptied root.** -/
theorem VacuumSpec.root {callback : IndexBulkDeleteCallback} {pages pages' : List Page} {kept : Bool}
    (hwf : WF pages)
    (h : VacuumSpec callback pages (metaAt pages).root (metaAt pages).rootLevel
      (if kept then [(metaAt pages).root] else []) pages') :
    (WF pages' ∨ Emptied pages') ∧
      contents pages' = (contents pages).filter (fun t => isAlive callback t = true) ∧
      metaAt pages' = metaAt pages := by
  have hmeta := h.meta_eq (by simpa using hwf.zero_notMem)
  have hleaves := h.leaves
  rw [forestLeaves_cons, forestLeaves_nil, List.append_nil] at hleaves
  have hp := (hwf.tree.holds _ (List.mem_singleton.mpr rfl)).node
  cases kept with
  | true =>
      have hf := h.update.forest
      simp only [if_true] at hf hleaves
      refine ⟨Or.inl ⟨hmeta ▸ hwf.magic, h.length_eq ▸ hwf.nblocks_le, hmeta ▸ hf, ?_⟩, ?_, hmeta⟩
      · rw [hmeta]
        intro x hx
        rcases h.update.mem x (by simpa using hx) with hx | hx
        · rw [h.length_eq]
          exact hwf.range x (by simpa using hx)
        · exact absurd hx.1 hx.2
      · rw [forestLeaves_cons, forestLeaves_nil, List.append_nil] at hleaves
        simp only [contents, hmeta, Multiset.filter_coe, Bool.decide_eq_true, hleaves]
  | false =>
      have hitems := h.emptied rfl
      have hempty : Emptied pages' := by
        refine ⟨hmeta ▸ hwf.magic, h.length_eq ▸ hwf.nblocks_le, hmeta ▸ hwf.root_range.1, ?_, ?_, ?_, ?_⟩
        · rw [hmeta, h.length_eq]
          exact hwf.root_range.2
        · rw [hmeta, h.special]
          exact hp.level_eq
        · rw [hmeta, h.special]
          exact hp.leaf_iff
        · rw [hmeta]
          exact hitems
      refine ⟨Or.inr hempty, ?_, hmeta⟩
      simp only [Bool.false_eq_true, if_false, forestLeaves_nil] at hleaves
      rw [hempty.contents_eq]
      simp only [contents, Multiset.filter_coe, Bool.decide_eq_true, ← hleaves]
      rfl

/-! ## Shrinking the root -/

/-- The pages after an inner root without downlinks became an empty leaf. -/
def emptyRootPages (pages : List Page) (rootblk : BlockNumber) : List Page :=
  metaPages (pages.set rootblk (.data (rtreeInitDatapage { leaf := true, root := true } 0))) rootblk 0

/-- The pages after an only child moved up into the root's block. -/
def collapsedPages (pages : List Page) (rootblk childblk : BlockNumber) : List Page :=
  metaPages (pages.set rootblk (.data (collapsedRoot (pageAt pages childblk)))) rootblk
    (pageAt pages childblk).special.level

/-- The trace of that move. -/
def collapseTrace (env : Env) (pages : List Page) (rootblk childblk : BlockNumber) : List Event :=
  [Event.lock childblk .share, Event.dirty rootblk, Event.dirty 0] ++
    walRecord env [(rootblk, (collapsedPages pages rootblk childblk).getD rootblk .zero),
      (0, (collapsedPages pages rootblk childblk).getD 0 .zero)] ++
    [Event.unlock childblk]

section Shrink
variable {env : Env} {s : Rel} {rootblk : BlockNumber} {level : Nat}

/-- A leaf root stays, and so does any root taken for one. -/
theorem shrinkLockedRoot_run_leaf
    (h : (pageAt s.pages rootblk).special.flags.leaf = true ∨ level = 0) :
    shrinkLockedRoot env rootblk level s = .ok false s := by
  rw [shrinkLockedRoot, bind_of_ok (bufferGetPage_run _ _), if_pos h, pure_apply]

section Inner
variable (hinner : ¬ ((pageAt s.pages rootblk).special.flags.leaf = true ∨ level = 0))
include hinner

theorem shrinkLockedRoot_run_empty (hroot : (metaAt s.pages).root = rootblk) (h0 : rootblk ≠ 0)
    (hitems : (pageAt s.pages rootblk).items = []) :
    shrinkLockedRoot env rootblk level s =
      .ok true { s with pages := emptyRootPages s.pages rootblk } := by
  rw [shrinkLockedRoot, bind_of_ok (bufferGetPage_run _ _), if_neg hinner, hitems]
  simp only [bind_apply, putPage_run, get_apply, pure_apply, metaAt_set_ne h0, emptyRootPages, metaPages,
    hroot]

theorem shrinkLockedRoot_run_single (hroot : (metaAt s.pages).root = rootblk) (h0 : rootblk ≠ 0)
    {childitup : IndexTuple} (hitems : (pageAt s.pages rootblk).items = [childitup])
    (hchild : childitup.tTid.blkno < s.pages.length) :
    shrinkLockedRoot env rootblk level s = .ok true
      { pages := collapsedPages s.pages rootblk childitup.tTid.blkno
        trace := s.trace ++ collapseTrace env s.pages rootblk childitup.tTid.blkno } := by
  rw [shrinkLockedRoot, bind_of_ok (bufferGetPage_run _ _), if_neg hinner, hitems]
  dsimp only
  rw [bind_of_ok (readBuffer_run_of_lt hchild)]
  simp only [bind_apply, lockBuffer_run, bufferGetPage_run, putPage_run, get_apply, markBufferDirty_run,
    genericXLog_run, unlockBuffer_run, pure_apply, metaAt_set_ne h0, collapsedPages, metaPages,
    collapseTrace, List.map_cons, List.map_nil, List.append_assoc, List.cons_append, List.nil_append, hroot]

/-- A root with two downlinks or more stays. -/
theorem shrinkLockedRoot_run_many (h : 2 ≤ (pageAt s.pages rootblk).items.length) :
    shrinkLockedRoot env rootblk level s = .ok false s := by
  rw [shrinkLockedRoot, bind_of_ok (bufferGetPage_run _ _), if_neg hinner]
  match hitems : (pageAt s.pages rootblk).items with
  | [] => simp [hitems] at h
  | [_] => simp [hitems] at h
  | _ :: _ :: _ => rfl

end Inner

/-- The checks and locks around `shrinkLockedRoot`. -/
theorem rtreeVacuumShrinkRoot_run {b : Bool} {pages' : List Page} {evs : List Event}
    (hne : rootblk ≠ invalidBlockNumber) (hmagic : (metaAt s.pages).magic = trtreeMetaMagic)
    (hroot : (metaAt s.pages).root = rootblk) (hlen : rootblk < s.pages.length)
    (h : ∀ trace, shrinkLockedRoot env rootblk level ⟨s.pages, trace⟩ = .ok b ⟨pages', trace ++ evs⟩) :
    rtreeVacuumShrinkRoot env rootblk level s = .ok b
      { pages := pages'
        trace := s.trace ++ ([Event.lock 0 .exclusive, Event.lock rootblk .exclusive] ++ evs ++
          [Event.unlock rootblk, Event.unlock 0]) } := by
  rw [rtreeVacuumShrinkRoot, if_neg hne, bind_of_ok (readBuffer_run_of_lt (Nat.zero_lt_of_lt hlen)),
    bind_of_ok (lockBuffer_run _ _ _), bind_of_ok (get_apply _), if_neg (by simp [hmagic, hroot]),
    bind_of_ok (readBuffer_run_of_lt hlen), bind_of_ok (lockBuffer_run _ _ _), bind_of_ok (h _),
    bind_of_ok (unlockBuffer_run _ _), bind_of_ok (unlockBuffer_run _ _), pure_apply]
  simp

/-- When the meta page has moved on to another root, nothing is done. -/
theorem rtreeVacuumShrinkRoot_run_moved (hlen : 0 < s.pages.length)
    (hroot : (metaAt s.pages).root ≠ rootblk) :
    ∃ evs, rtreeVacuumShrinkRoot env rootblk level s = .ok false { s with trace := s.trace ++ evs } := by
  by_cases hne : rootblk = invalidBlockNumber
  · exact ⟨[], by rw [rtreeVacuumShrinkRoot, if_pos hne, pure_apply, List.append_nil]⟩
  · refine ⟨[Event.lock 0 .exclusive, Event.unlock 0], ?_⟩
    rw [rtreeVacuumShrinkRoot, if_neg hne, bind_of_ok (readBuffer_run_of_lt hlen),
      bind_of_ok (lockBuffer_run _ _ _), bind_of_ok (get_apply _), if_pos (Or.inr hroot),
      bind_of_ok (unlockBuffer_run _ _), pure_apply]
    simp

/-- What `rtree_vacuum_shrink_root` can have done, whatever the index and the block it was called with. -/
inductive RootShrinks (pages : List Page) (rootblk : BlockNumber) (level : Nat) : List Page → Prop where
  | stay : RootShrinks pages rootblk level pages
  | emptied (hroot : (metaAt pages).root = rootblk)
      (hinner : ¬ ((pageAt pages rootblk).special.flags.leaf = true ∨ level = 0))
      (hitems : (pageAt pages rootblk).items = []) :
      RootShrinks pages rootblk level (emptyRootPages pages rootblk)
  | collapsed {childitup : IndexTuple} (hroot : (metaAt pages).root = rootblk)
      (hinner : ¬ ((pageAt pages rootblk).special.flags.leaf = true ∨ level = 0))
      (hitems : (pageAt pages rootblk).items = [childitup]) (hchild : childitup.tTid.blkno < pages.length) :
      RootShrinks pages rootblk level (collapsedPages pages rootblk childitup.tTid.blkno)

theorem shrinkLockedRoot_eq_ok {s' : Rel} {b : Bool} (h : shrinkLockedRoot env rootblk level s = .ok b s')
    (hroot : (metaAt s.pages).root = rootblk) (h0 : rootblk ≠ 0) :
    RootShrinks s.pages rootblk level s'.pages := by
  by_cases hinner : (pageAt s.pages rootblk).special.flags.leaf = true ∨ level = 0
  · rw [shrinkLockedRoot_run_leaf hinner] at h
    injection h with _ h
    exact h ▸ .stay
  · match hitems : (pageAt s.pages rootblk).items with
    | [] =>
        rw [shrinkLockedRoot_run_empty hinner hroot h0 hitems] at h
        injection h with _ h
        exact h ▸ .emptied hroot hinner hitems
    | [childitup] =>
        by_cases hchild : childitup.tTid.blkno < s.pages.length
        · rw [shrinkLockedRoot_run_single hinner hroot h0 hitems hchild] at h
          injection h with _ h
          exact h ▸ .collapsed hroot hinner hitems hchild
        · rw [shrinkLockedRoot, bind_of_ok (bufferGetPage_run _ _), if_neg hinner, hitems] at h
          dsimp only at h
          rw [bind_of_error (readBuffer_run_of_not_lt hchild)] at h
          exact absurd h (by simp)
    | _ :: _ :: _ =>
        rw [shrinkLockedRoot_run_many hinner (by simp [hitems])] at h
        injection h with _ h
        exact h ▸ .stay

/-- **Every completed `rtree_vacuum_shrink_root` is one of these.** -/
theorem rtreeVacuumShrinkRoot_eq_ok {s' : Rel} {b : Bool} (h0 : (metaAt s.pages).root ≠ 0)
    (h : rtreeVacuumShrinkRoot env rootblk level s = .ok b s') :
    RootShrinks s.pages rootblk level s'.pages := by
  rw [rtreeVacuumShrinkRoot] at h
  by_cases hne : rootblk = invalidBlockNumber
  · rw [if_pos hne] at h
    injection h with _ h
    exact h ▸ .stay
  · rw [if_neg hne] at h
    by_cases hlen : 0 < s.pages.length
    · rw [bind_of_ok (readBuffer_run_of_lt hlen), bind_of_ok (lockBuffer_run _ _ _),
        bind_of_ok (get_apply _)] at h
      by_cases hmoved : (metaAt s.pages).magic ≠ trtreeMetaMagic ∨ (metaAt s.pages).root ≠ rootblk
      · rw [if_pos hmoved, bind_of_ok (unlockBuffer_run _ _)] at h
        injection h with _ h
        exact h ▸ .stay
      · rw [if_neg hmoved] at h
        have hroot : (metaAt s.pages).root = rootblk := by
          by_contra hroot
          exact hmoved (Or.inr hroot)
        obtain ⟨u, s₁, hread, h⟩ := bind_eq_ok.mp h
        obtain ⟨-, rfl⟩ := readBuffer_eq_ok.mp hread
        rw [bind_of_ok (lockBuffer_run _ _ _)] at h
        obtain ⟨changed, s₂, hshrink, h⟩ := bind_eq_ok.mp h
        rw [bind_of_ok (unlockBuffer_run _ _), bind_of_ok (unlockBuffer_run _ _)] at h
        injection h with _ h
        have hshrinks := shrinkLockedRoot_eq_ok hshrink hroot (hroot ▸ h0)
        exact h ▸ hshrinks
    · rw [bind_of_error (readBuffer_run_of_not_lt hlen)] at h
      exact absurd h (by simp)

/-! ### It keeps the contents -/

theorem emptyRootPages_wf {pages : List Page} (h : Emptied pages) :
    WF (emptyRootPages pages (metaAt pages).root) ∧
      contents (emptyRootPages pages (metaAt pages).root) = contents pages := by
  have h0 := Nat.pos_iff_ne_zero.mp h.root_pos
  have hself : pageAt (pages.set (metaAt pages).root
      (.data (rtreeInitDatapage { leaf := true, root := true } 0))) (metaAt pages).root =
      rtreeInitDatapage { leaf := true, root := true } 0 := pageAt_set_self h.root_lt
  obtain ⟨hwf, hcont⟩ := WF.ofMeta (pages.set (metaAt pages).root
      (.data (rtreeInitDatapage { leaf := true, root := true } 0))) (metaAt pages).root 0
    (by rw [List.length_set]; exact h.nblocks_le) (by rw [metaAt_set_ne h0]; exact h.magic)
    ⟨by
      intro c hc
      rw [List.mem_singleton.mp hc]
      show NodeOk 0 _
      rw [hself]
      exact ⟨rfl, by simp [rtreeInitDatapage], by simp [rtreeInitDatapage], fun h => absurd rfl h⟩, by simp⟩
    (by simpa using ⟨h.root_pos, h.root_lt⟩)
  refine ⟨hwf, ?_⟩
  rw [h.contents_eq]
  refine hcont.trans ?_
  rw [leaves_zero, hself]
  rfl

/-- The tree at the root's block once the only child has moved up into it. -/
theorem collapsedRoot_tree {P : Nat → DataPage → Prop} {pages : List Page} {root : BlockNumber} {l : Nat}
    {childitup : IndexTuple} (hf : nodes.Forest P (pageAt pages) (l + 1) [root]) (hroot : root < pages.length)
    (hitems : (pageAt pages root).items = [childitup])
    (hP : ∀ page, P l page → P l (collapsedRoot page)) :
    let child := pageAt pages childitup.tTid.blkno
    let st := pageAt (pages.set root (.data (collapsedRoot child)))
    P l child ∧ st root = collapsedRoot child ∧ nodes.Forest P st l [root] ∧
      nodes.leaves st l root = nodes.leaves (pageAt pages) (l + 1) root ∧
      nodes.blocks st l root ⊆ nodes.blocks (pageAt pages) (l + 1) root := by
  intro child st
  have hkid : nodes.kids (pageAt pages root) = [childitup.tTid.blkno] := by
    simp [nodes, hitems]
  have hchild : P l child := (hf.kids.2.1.holds _ (by simp [hkid])).node
  have hself : st root = collapsedRoot child := pageAt_set_self hroot
  obtain ⟨hf', hleaves, hblocks⟩ := hf.hoist st hkid (by rw [hself]; rfl) (by rw [hself]; rfl)
    (by rw [hself]; exact hP child hchild) fun x hx => pageAt_set_ne hx
  refine ⟨hchild, hself, hf', ?_, ?_⟩
  · rw [hleaves, leaves_succ, hkid, forestLeaves_cons, forestLeaves_nil, List.append_nil]
  · intro x hx
    rcases List.mem_cons.mp (hblocks hx) with rfl | hx
    · exact self_mem_blocks
    · refine List.mem_cons_of_mem _ ?_
      rw [hkid]
      simpa using hx

theorem WF.hoist {pages : List Page} (h : WF pages) {l : Nat} {childitup : IndexTuple}
    (hl : (metaAt pages).rootLevel = l + 1)
    (hitems : (pageAt pages (metaAt pages).root).items = [childitup]) :
    let child := pageAt pages childitup.tTid.blkno
    let st := pageAt (pages.set (metaAt pages).root (.data (collapsedRoot child)))
    child.special.level = l ∧ st (metaAt pages).root = collapsedRoot child ∧
      nodes.Forest NodeOk st l [(metaAt pages).root] ∧
      nodes.leaves st l (metaAt pages).root = nodes.leaves (pageAt pages) (l + 1) (metaAt pages).root ∧
      nodes.blocks st l (metaAt pages).root ⊆ nodes.blocks (pageAt pages) (l + 1) (metaAt pages).root := by
  intro child st
  have hf := h.tree
  rw [hl] at hf
  obtain ⟨hchild, htree⟩ := collapsedRoot_tree hf h.root_range.2 hitems fun page hp =>
    ⟨hp.level_eq, hp.leaf_iff, hp.keys, hp.inner_ne⟩
  exact ⟨hchild.level_eq, htree⟩

theorem collapsedPages_wf {pages : List Page} (h : WF pages) {l : Nat} {childitup : IndexTuple}
    (hl : (metaAt pages).rootLevel = l + 1)
    (hitems : (pageAt pages (metaAt pages).root).items = [childitup]) :
    WF (collapsedPages pages (metaAt pages).root childitup.tTid.blkno) ∧
      contents (collapsedPages pages (metaAt pages).root childitup.tTid.blkno) = contents pages := by
  obtain ⟨hlevel, -, hf, hleaves, hblocks⟩ := h.hoist hl hitems
  have hrange := h.range
  rw [hl] at hrange
  obtain ⟨hwf, hcont⟩ := WF.ofMeta _ _ l (by rw [List.length_set]; exact h.nblocks_le)
    (by rw [metaAt_set_ne (Nat.pos_iff_ne_zero.mp h.root_range.1)]; exact h.magic) hf (by
      intro x hx
      rw [List.length_set]
      exact hrange x (hblocks hx))
  rw [collapsedPages, hlevel]
  refine ⟨hwf, hcont.trans ?_⟩
  rw [hleaves, contents, hl]

/-- Whatever the root is shrunk to, the index is one whose inner pages may be empty if it was. -/
theorem RootShrinks.fits {pages pages' : List Page} (hs : RootShrinks pages rootblk level pages')
    (h : Fits pages) : Fits pages' := by
  obtain ⟨hpos, hlt⟩ := h.root_range
  have hmagic : ∀ q, (metaAt (pages.set (metaAt pages).root q)).magic = trtreeMetaMagic := fun q => by
    rw [metaAt_set_ne (Nat.pos_iff_ne_zero.mp hpos)]
    exact h.magic
  cases hs with
  | stay => exact h
  | emptied hroot hinner hitems =>
      subst hroot
      refine Fits.ofMeta _ _ 0 (by rw [List.length_set]; exact h.nblocks_le) (hmagic _) ⟨fun c hc => ?_, by simp⟩
        (by simpa using ⟨hpos, hlt⟩)
      rw [List.mem_singleton.mp hc]
      show NodeFits 0 _
      rw [pageAt_set_self hlt]
      exact ⟨rfl, by simp [rtreeInitDatapage], by simp [Keyed, rtreeInitDatapage]⟩
  | collapsed hroot hinner hitems hchild =>
      subst hroot
      have hf := h.tree
      have hrange := h.range
      obtain ⟨l, hl⟩ : ∃ l, (metaAt pages).rootLevel = l + 1 := by
        refine Nat.exists_eq_succ_of_ne_zero fun hzero => hinner (Or.inl ?_)
        exact h.holds.node.leaf_iff.mpr hzero
      rw [hl] at hf hrange
      obtain ⟨hfits, -, hf', -, hblocks⟩ := collapsedRoot_tree hf hlt hitems fun page hp =>
        ⟨hp.level_eq, hp.leaf_iff, hp.keys⟩
      rw [collapsedPages, hfits.level_eq]
      refine Fits.ofMeta _ _ l (by rw [List.length_set]; exact h.nblocks_le) (hmagic _) hf' fun x hx => ?_
      rw [List.length_set]
      exact hrange x (hblocks hx)

/-- A completed `rtree_vacuum_shrink_root` on the root that the meta page names: pages before and after, and the
    trace in between the locks. -/
inductive ShrinksRoot (env : Env) (pages : List Page) : List Page → List Event → Prop where
  | stay (h : (metaAt pages).rootLevel = 0 ∨ 2 ≤ (pageAt pages (metaAt pages).root).items.length) :
      ShrinksRoot env pages pages []
  | emptied {l : Nat} (hl : (metaAt pages).rootLevel = l + 1)
      (hitems : (pageAt pages (metaAt pages).root).items = []) :
      ShrinksRoot env pages (emptyRootPages pages (metaAt pages).root) []
  | collapsed {l : Nat} {childitup : IndexTuple} (hl : (metaAt pages).rootLevel = l + 1)
      (hitems : (pageAt pages (metaAt pages).root).items = [childitup]) :
      ShrinksRoot env pages (collapsedPages pages (metaAt pages).root childitup.tTid.blkno)
        (collapseTrace env pages (metaAt pages).root childitup.tTid.blkno)

/-- What happens to the locked root, whatever the trace so far. -/
theorem shrinkLockedRoot_shrinks (env : Env) {pages : List Page} (h : WF pages ∨ Emptied pages) :
    ∃ b pages' evs, (∀ trace, shrinkLockedRoot env (metaAt pages).root (metaAt pages).rootLevel
        ⟨pages, trace⟩ = .ok b ⟨pages', trace ++ evs⟩) ∧ ShrinksRoot env pages pages' evs := by
  cases hl : (metaAt pages).rootLevel with
  | zero =>
      refine ⟨false, pages, [], fun trace => ?_, .stay (Or.inl hl)⟩
      rw [shrinkLockedRoot_run_leaf (Or.inr rfl), List.append_nil]
  | succ l =>
      have hleaf : (pageAt pages (metaAt pages).root).special.flags.leaf = true ↔
          (metaAt pages).rootLevel = 0 :=
        h.elim (fun h => (h.tree.holds _ (List.mem_singleton.mpr rfl)).node.leaf_iff) Emptied.leaf_iff
      have hinner : ¬ ((pageAt pages (metaAt pages).root).special.flags.leaf = true ∨ l + 1 = 0) := by
        rw [hleaf, hl]
        simp
      have h0 : (metaAt pages).root ≠ 0 :=
        Nat.pos_iff_ne_zero.mp (h.elim (fun h => h.root_range.1) Emptied.root_pos)
      match hitems : (pageAt pages (metaAt pages).root).items with
      | [] =>
          refine ⟨true, _, [], fun trace => ?_, .emptied hl hitems⟩
          rw [shrinkLockedRoot_run_empty (s := ⟨pages, trace⟩) hinner rfl h0 hitems, List.append_nil]
      | [childitup] =>
          have hwf : WF pages := h.resolve_right fun he => by simp [he.items] at hitems
          have hchild : childitup.tTid.blkno < pages.length := by
            refine (hwf.range _ ?_).2
            rw [hl, blocks_succ]
            refine List.mem_cons_of_mem _ (blocks_subset_forest ?_ self_mem_blocks)
            simp [nodes, hitems]
          refine ⟨true, _, _, fun trace => ?_, .collapsed hl hitems⟩
          exact shrinkLockedRoot_run_single (s := ⟨pages, trace⟩) hinner rfl h0 hitems hchild
      | t :: u :: rest =>
          refine ⟨false, pages, [], fun trace => ?_, .stay (Or.inr (by simp [hitems]))⟩
          rw [shrinkLockedRoot_run_many (s := ⟨pages, trace⟩) hinner (by simp [hitems]), List.append_nil]

/-- **Shrinking the root mends an emptied root and keeps the contents.** -/
theorem ShrinksRoot.wf {pages pages' : List Page} {evs : List Event} (hs : ShrinksRoot env pages pages' evs)
    (h : WF pages ∨ Emptied pages) : WF pages' ∧ contents pages' = contents pages := by
  cases hs with
  | stay hstay =>
      refine ⟨?_, rfl⟩
      rcases h with h | h
      · exact h
      · exact h.wf (hstay.resolve_right (by simp [h.items]))
  | emptied hl hitems =>
      refine emptyRootPages_wf (h.resolve_left fun hwf => ?_)
      refine (hwf.tree.holds _ (List.mem_singleton.mpr rfl)).node.inner_ne ?_ hitems
      rw [hl]
      exact Nat.succ_ne_zero _
  | collapsed hl hitems =>
      exact collapsedPages_wf (h.resolve_right fun he => by simp [he.items] at hitems) hl hitems

theorem rtreeVacuumShrinkRoot_shrinks (env : Env) {s : Rel} (h : WF s.pages ∨ Emptied s.pages) :
    ∃ b pages' evs, rtreeVacuumShrinkRoot env (metaAt s.pages).root (metaAt s.pages).rootLevel s =
        .ok b
          { pages := pages'
            trace := s.trace ++ ([Event.lock 0 .exclusive, Event.lock (metaAt s.pages).root .exclusive] ++ evs ++
              [Event.unlock (metaAt s.pages).root, Event.unlock 0]) } ∧
      ShrinksRoot env s.pages pages' evs := by
  have hlt : (metaAt s.pages).root < s.pages.length := h.elim (fun h => h.root_range.2) Emptied.root_lt
  have hle : s.pages.length ≤ invalidBlockNumber := h.elim WF.nblocks_le Emptied.nblocks_le
  obtain ⟨b, pages', evs, hrun, hshrinks⟩ := shrinkLockedRoot_shrinks env h
  exact ⟨b, pages', evs, rtreeVacuumShrinkRoot_run (Nat.ne_of_lt (Nat.lt_of_lt_of_le hlt hle))
    (h.elim WF.magic Emptied.magic) rfl hlt hrun, hshrinks⟩

theorem rtreeVacuumShrinkRoot_spec (env : Env) {s : Rel} (h : WF s.pages ∨ Emptied s.pages) :
    ∃ b s' evs, rtreeVacuumShrinkRoot env (metaAt s.pages).root (metaAt s.pages).rootLevel s = .ok b s' ∧
      WF s'.pages ∧ contents s'.pages = contents s.pages ∧ s'.trace = s.trace ++ evs := by
  obtain ⟨b, pages', evs, hrun, hshrinks⟩ := rtreeVacuumShrinkRoot_shrinks env h
  obtain ⟨hwf, hcont⟩ := hshrinks.wf h
  exact ⟨b, _, _, hrun, hwf, hcont, rfl⟩

end Shrink

end TemporalRTree
