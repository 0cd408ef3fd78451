import TemporalRTree.Lib.Transition
import TemporalRTree.Correctness.PageRoom
import TemporalRTree.Correctness.Levels

/-!
# `Correctness.PageCapacity` — how many tuples a page can hold, and the arrays they are collected in

`rtree_split_page` and `rtree_vacuum_page` collect the tuples of a page in arrays on the stack, which are sized by
`MaxHeapTuplesPerPage` and filled without a check. An index tuple can be smaller than a heap tuple, so the arrays
are large enough only because of what is on the pages. Every tuple on a page is one that was inserted or a
downlink, whatever functions ran before and whether they succeeded (`Keeps`): a fact about each write of a page
that composes along the code. A tuple with a key of at least one dimension takes 28 bytes with its line pointer,
so 291 fit and the arrays are large enough (`arrays_suffice`). A zero-dimensional cube takes 20 bytes, and 407 of
them fit (`arrays_overrun`).
-/

namespace TemporalRTree
open EStateM Layout

/-! ## Tuples on pages -/

/-- Every tuple on every page meets `G`. -/
def AllTuples (G : IndexTuple → Prop) (pages : List Page) : Prop :=
  ∀ blk, ∀ t ∈ (pageAt pages blk).items, G t

section Keeps
variable {G : IndexTuple → Prop} {env : Env}

theorem AllTuples.set {pages : List Page} {blk : BlockNumber} {p : Page} (h : AllTuples G pages)
    (hp : ∀ t ∈ p.asData.items, G t) : AllTuples G (pages.set blk p) := by
  intro x t ht
  by_cases hx : x = blk
  · subst hx
    by_cases hlt : x < pages.length
    · rw [pageAt, List.getD_eq_getElem?_getD, List.getElem?_set_self hlt] at ht
      exact hp t ht
    · rw [List.set_eq_of_length_le (Nat.le_of_not_lt hlt)] at ht
      exact h x t ht
  · rw [pageAt_set_ne hx] at ht
    exact h x t ht

theorem AllTuples.append_zero {pages : List Page} (h : AllTuples G pages) :
    AllTuples G (pages ++ [Page.zero]) := by
  intro x t ht
  rcases Nat.lt_or_ge x pages.length with hx | hx
  · rw [pageAt_append_of_lt hx] at ht
    exact h x t ht
  · -- the new block and those past the end have no tuples
    have hzero : (pages ++ [Page.zero]).getD x .zero = .zero := by
      rw [List.getD_eq_getElem?_getD, List.getElem?_append_right hx]
      cases x - pages.length <;> rfl
    rw [pageAt, hzero] at ht
    exact absurd ht List.not_mem_nil

/-- The invariant of the relation. -/
abbrev Clean (G : IndexTuple → Prop) (s : Rel) : Prop := AllTuples G s.pages

/-! ### Buffers -/

theorem emit_keeps (e : Event) : Keeps (Clean G) (emit e) fun _ => True := Keeps.modify fun _ h => h

theorem readBuffer_keeps (blk : BlockNumber) : Keeps (Clean G) (readBuffer blk) fun _ => True := by
  refine Keeps.bind Keeps.get fun s _ => ?_
  split
  · exact Keeps.pure True.intro
  · exact Keeps.throw _

theorem lockBuffer_keeps (blk : BlockNumber) (mode : LockMode) :
    Keeps (Clean G) (lockBuffer blk mode) fun _ => True := emit_keeps _

theorem unlockBuffer_keeps (blk : BlockNumber) : Keeps (Clean G) (unlockBuffer blk) fun _ => True :=
  emit_keeps _

theorem markBufferDirty_keeps (blk : BlockNumber) : Keeps (Clean G) (markBufferDirty blk) fun _ => True :=
  emit_keeps _

theorem emitAddItems_keeps (results : List Bool) :
    Keeps (Clean G) (emitAddItems results) fun _ => True := Keeps.modify fun _ h => h

/-- A page that is read has tuples that meet `G`. -/
theorem bufferGetPage_keeps (blk : BlockNumber) :
    Keeps (Clean G) (bufferGetPage blk) fun page => ∀ t ∈ page.items, G t :=
  Keeps.bind Keeps.get fun _ h => Keeps.pure (h blk)

theorem putPage_keeps {blk : BlockNumber} {p : Page} (h : ∀ t ∈ p.asData.items, G t) :
    Keeps (Clean G) (putPage blk p) fun _ => True := Keeps.modify fun _ hs => hs.set h

theorem putMeta_keeps (blk : BlockNumber) (m : RTreeMetaPageData) :
    Keeps (Clean G) (putPage blk (.metapage m)) fun _ => True :=
  putPage_keeps fun _ ht => absurd ht List.not_mem_nil

theorem readBufferNew_keeps : Keeps (Clean G) (readBufferNew env) fun _ => True := by
  refine Keeps.bind Keeps.get fun s hs => ?_
  dsimp only
  split
  · exact Keeps.bind (Keeps.set hs.append_zero) fun _ _ =>
      Keeps.bind (lockBuffer_keeps _ _) fun _ _ => Keeps.pure True.intro
  · exact Keeps.throw _

theorem genericXLog_keeps (blknos : List BlockNumber) :
    Keeps (Clean G) (genericXLog env blknos) fun _ => True := by
  refine Keeps.bind Keeps.get fun s _ => ?_
  split
  · exact emit_keeps _
  · exact Keeps.pure True.intro

theorem readMeta_keeps : Keeps (Clean G) readMeta fun _ => True :=
  Keeps.bind (readBuffer_keeps 0) fun _ _ => Keeps.bind (lockBuffer_keeps 0 _) fun _ _ =>
    Keeps.bind Keeps.get fun _ _ => Keeps.bind (unlockBuffer_keeps 0) fun _ _ => Keeps.pure True.intro

/-! ### Pages -/

theorem addItems_all {page : DataPage} {itups : List IndexTuple} (hpage : ∀ t ∈ page.items, G t)
    (hitups : ∀ t ∈ itups, G t) : ∀ t ∈ (addItems page itups).1.items, G t := by
  obtain ⟨added, hsub, hitems, -⟩ := addItems_items page itups
  intro t ht
  rw [hitems] at ht
  rcases List.mem_append.mp ht with ht | ht
  · exact hpage t ht
  · exact hitups t (hsub.subset ht)

theorem addTupleCopies_all {page : DataPage} {itups : List IndexTuple} (hpage : ∀ t ∈ page.items, G t)
    (hitups : ∀ t ∈ itups, G t) : ∀ t ∈ (addTupleCopies page itups).1.items, G t := by
  induction itups generalizing page with
  | nil => exact hpage
  | cons itup rest ih =>
      unfold addTupleCopies
      cases hadd : pageAddItem page itup invalidOffsetNumber with
      | none => exact hpage
      | some page' =>
          refine ih ?_ fun t ht => hitups t (List.mem_cons_of_mem _ ht)
          intro t ht
          rw [(pageAddItem_items hadd).1] at ht
          rcases List.mem_append.mp ht with ht | ht
          · exact hpage t ht
          · exact hitups t (List.mem_singleton.mp ht ▸ List.mem_cons_self)

theorem pickItems_all {items : List IndexTuple} {idxs : List Nat} (h : ∀ t ∈ items, G t) :
    ∀ t ∈ pickItems items idxs, G t := by
  intro t ht
  obtain ⟨i, -, hi⟩ := List.mem_filterMap.mp ht
  exact h t (List.mem_of_getElem? hi)

theorem splitItems_all {page : DataPage} {itup : IndexTuple} (hpage : ∀ t ∈ page.items, G t) (hitup : G itup) :
    ∀ t ∈ splitItems page itup, G t := by
  intro t ht
  rcases List.mem_append.mp ht with ht | ht
  · exact hpage t ht
  · exact List.mem_singleton.mp ht ▸ hitup

/-! ### Inserts -/

section Insert
variable (hform : ∀ box tid, G (rtreeFormTuple box tid))
  {itup : IndexTuple} (hitup : G itup) {box : RTreeTemporalBox}

include hitup in
theorem rtreeSplitPage_keeps (blk : BlockNumber) (level : Nat) (flags : PageFlags) :
    Keeps (Clean G) (rtreeSplitPage env blk itup box level flags) fun _ => True := by
  refine Keeps.bind (bufferGetPage_keeps blk) fun page hpage => ?_
  have hpick : ∀ idxs, ∀ t ∈ pickItems (splitItems page itup) idxs, G t :=
    fun idxs => pickItems_all (splitItems_all hpage hitup)
  refine Keeps.bind readBufferNew_keeps fun rightblk _ => ?_
  refine Keeps.bind (putPage_keeps (addItems_all (fun _ h => absurd h List.not_mem_nil) (hpick _))) fun _ _ => ?_
  refine Keeps.bind (emitAddItems_keeps _) fun _ _ => ?_
  refine Keeps.bind (putPage_keeps (addItems_all (fun _ h => absurd h List.not_mem_nil) (hpick _))) fun _ _ => ?_
  refine Keeps.bind (emitAddItems_keeps _) fun _ _ => ?_
  refine Keeps.bind (markBufferDirty_keeps _) fun _ _ => ?_
  refine Keeps.bind (markBufferDirty_keeps _) fun _ _ => ?_
  refine Keeps.bind (genericXLog_keeps _) fun _ _ => ?_
  refine Keeps.bind (emit_keeps _) fun _ _ => ?_
  exact Keeps.bind (unlockBuffer_keeps _) fun _ _ => Keeps.pure True.intro

theorem pageAddItem_all {page page' : DataPage} (hpage : ∀ t ∈ page.items, G t) (hitup : G itup)
    (h : pageAddItem page itup invalidOffsetNumber = some page') : ∀ t ∈ page'.items, G t := by
  rw [(pageAddItem_items h).1]
  exact splitItems_all hpage hitup

include hitup in
theorem insertAtLeaf_keeps (blk : BlockNumber) :
    Keeps (Clean G) (insertAtLeaf env blk itup box) fun _ => True := by
  have hleaf : Keeps (Clean G) (rtreeInsertLeaf env blk itup box) fun _ => True := by
    refine Keeps.bind (bufferGetPage_keeps blk) fun page hpage => ?_
    split
    · cases hadd : pageAddItem page itup invalidOffsetNumber with
      | none => exact Keeps.bind (emit_keeps _) fun _ _ => rtreeSplitPage_keeps hitup _ _ _
      | some page' =>
          refine Keeps.bind (emit_keeps _) fun _ _ => ?_
          refine Keeps.bind (putPage_keeps (pageAddItem_all hpage hitup hadd)) fun _ _ => ?_
          refine Keeps.bind (markBufferDirty_keeps _) fun _ _ => ?_
          exact Keeps.bind (genericXLog_keeps _) fun _ _ => Keeps.pure True.intro
    · exact rtreeSplitPage_keeps hitup _ _ _
  exact Keeps.bind hleaf fun _ _ => Keeps.bind (unlockBuffer_keeps _) fun _ _ => Keeps.pure True.intro

theorem finishInsertPage_keeps (blk : BlockNumber) :
    Keeps (Clean G) (finishInsertPage env blk) fun _ => True :=
  Keeps.bind (markBufferDirty_keeps _) fun _ _ => Keeps.bind (genericXLog_keeps _) fun _ _ =>
    Keeps.bind (bufferGetPage_keeps blk) fun _ _ => Keeps.bind (unlockBuffer_keeps _) fun _ _ =>
      Keeps.pure True.intro

include hform in
theorem updateDownlinks_keeps (blk : BlockNumber) (level : Nat) (bestoff : OffsetNumber) (tid : ItemPointerData)
    (childres : RTreeInsertResult) :
    Keeps (Clean G) (updateDownlinks env blk level bestoff tid childres) fun _ => True := by
  refine Keeps.bind (bufferGetPage_keeps blk) fun page hpage => ?_
  cases hrep : rtreeReplaceTuple page bestoff (rtreeFormTuple childres.leftBox tid) with
  | none =>
      have hdel : ∀ t ∈ (pageIndexTupleDelete page bestoff).items, G t :=
        fun t ht => hpage t (List.mem_of_mem_eraseIdx ht)
      refine Keeps.bind (emit_keeps _) fun _ _ => ?_
      exact Keeps.bind (putPage_keeps hdel) fun _ _ => Keeps.throw _
  | some page₂ =>
      have hpage₂ : ∀ t ∈ page₂.items, G t := by
        intro t ht
        rcases mem_of_rtreeReplaceTuple hrep ht with ht | rfl
        · exact hpage t ht
        · exact hform _ _
      refine Keeps.bind (emit_keeps _) fun _ _ => ?_
      refine Keeps.bind (putPage_keeps hpage₂) fun _ _ => ?_
      cases childres.split with
      | none => exact finishInsertPage_keeps blk
      | some right =>
          dsimp only
          split
          · cases hadd : pageAddItem page₂ (rightTuple right) invalidOffsetNumber with
            | none => exact Keeps.bind (emit_keeps _) fun _ _ => finishInsertPage_keeps blk
            | some page₃ =>
                refine Keeps.bind (emit_keeps _) fun _ _ => ?_
                exact Keeps.bind (putPage_keeps (pageAddItem_all hpage₂ (hform _ _) hadd)) fun _ _ =>
                  finishInsertPage_keeps blk
          · refine Keeps.bind (rtreeSplitPage_keeps (hform _ _) _ _ _) fun _ _ => ?_
            exact Keeps.bind (unlockBuffer_keeps _) fun _ _ => Keeps.pure True.intro

include hform hitup in
theorem rtreeInsertPage_keeps (blk : BlockNumber) (level : Nat) :
    Keeps (Clean G) (rtreeInsertPage env blk level itup box) fun _ => True := by
  induction level generalizing blk with
  | zero =>
      unfold rtreeInsertPage
      refine Keeps.bind (readBuffer_keeps _) fun _ _ => Keeps.bind (lockBuffer_keeps _ _) fun _ _ => ?_
      exact Keeps.bind (bufferGetPage_keeps blk) fun _ _ => insertAtLeaf_keeps hitup blk
  | succ level ih =>
      unfold rtreeInsertPage
      refine Keeps.bind (readBuffer_keeps _) fun _ _ => Keeps.bind (lockBuffer_keeps _ _) fun _ _ => ?_
      refine Keeps.bind (bufferGetPage_keeps blk) fun page hpage => ?_
      dsimp only
      split
      · exact insertAtLeaf_keeps hitup blk
      · split
        · exact Keeps.bind (unlockBuffer_keeps _) fun _ _ => Keeps.throw _
        · split
          · exact Keeps.bind (unlockBuffer_keeps _) fun _ _ => Keeps.throw _
          · exact Keeps.bind (ih _) fun _ _ => updateDownlinks_keeps hform _ _ _ _ _

include hform in
theorem rtreeRootPromote_keeps (leftblk : BlockNumber) (leftBox : RTreeTemporalBox) (right : SplitRight)
    (oldLevel : Nat) :
    Keeps (Clean G) (rtreeRootPromote env leftblk leftBox right oldLevel) fun _ => True := by
  have hroot : ∀ t ∈ [rtreeFormTuple leftBox (childTid leftblk),
      rtreeFormTuple right.rightBox (childTid right.rightBlkno)], G t := by
    simp only [List.forall_mem_cons, List.not_mem_nil, false_imp_iff, implies_true, and_true]
    exact ⟨hform _ _, hform _ _⟩
  refine Keeps.bind (readBuffer_keeps _) fun _ _ => Keeps.bind (lockBuffer_keeps _ _) fun _ _ => ?_
  refine Keeps.bind readBufferNew_keeps fun rootblk _ => ?_
  refine Keeps.bind (putPage_keeps (addItems_all (fun _ h => absurd h List.not_mem_nil) hroot)) fun _ _ => ?_
  refine Keeps.bind (emitAddItems_keeps _) fun _ _ => Keeps.bind (markBufferDirty_keeps _) fun _ _ => ?_
  refine Keeps.bind (bufferGetPage_keeps leftblk) fun left hleft => ?_
  refine Keeps.bind (putPage_keeps hleft) fun _ _ => Keeps.bind (markBufferDirty_keeps _) fun _ _ => ?_
  refine Keeps.bind (unlockBuffer_keeps _) fun _ _ => Keeps.bind (unlockBuffer_keeps _) fun _ _ => ?_
  exact Keeps.pure True.intro

theorem readMetaRoot_keeps : Keeps (Clean G) readMetaRoot fun _ => True := by
  refine Keeps.bind (readBuffer_keeps _) fun _ _ => Keeps.bind (lockBuffer_keeps _ _) fun _ _ => ?_
  refine Keeps.bind Keeps.get fun s _ => ?_
  split
  · exact Keeps.throw _
  · exact Keeps.bind (unlockBuffer_keeps _) fun _ _ => Keeps.pure True.intro

theorem writeMetaRoot_keeps (root : BlockNumber) (level : Nat) :
    Keeps (Clean G) (writeMetaRoot root level) fun _ => True := by
  refine Keeps.bind (readBuffer_keeps _) fun _ _ => Keeps.bind (lockBuffer_keeps _ _) fun _ _ => ?_
  refine Keeps.bind Keeps.get fun s _ => Keeps.bind (putMeta_keeps _ _) fun _ _ => ?_
  exact Keeps.bind (markBufferDirty_keeps _) fun _ _ => unlockBuffer_keeps _

theorem rtreeMetaAndRootInit_keeps : Keeps (Clean G) (rtreeMetaAndRootInit env) fun _ => True := by
  refine Keeps.bind readBufferNew_keeps fun _ _ => Keeps.bind readBufferNew_keeps fun _ _ => ?_
  refine Keeps.bind (putMeta_keeps _ _) fun _ _ => ?_
  refine Keeps.bind (putPage_keeps fun _ h => absurd h List.not_mem_nil) fun _ _ => ?_
  refine Keeps.bind (markBufferDirty_keeps _) fun _ _ => Keeps.bind (markBufferDirty_keeps _) fun _ _ => ?_
  exact Keeps.bind (unlockBuffer_keeps _) fun _ _ => unlockBuffer_keeps _

end Insert

section Operations
variable (hform : ∀ box tid, G (rtreeFormTuple box tid))
include hform

theorem insertTuple_keeps {itup : IndexTuple} {box : RTreeTemporalBox} (hitup : G itup) :
    Keeps (Clean G) (insertTuple env itup box) fun _ => True := by
  refine Keeps.bind readMetaRoot_keeps fun root _ => ?_
  refine Keeps.bind (rtreeInsertPage_keeps hform hitup _ _) fun result _ => ?_
  cases result.split with
  | none => exact Keeps.pure True.intro
  | some right =>
      exact Keeps.bind (rtreeRootPromote_keeps hform _ _ _ _) fun _ _ => writeMetaRoot_keeps _ _

theorem temporalRtreeInsert_keeps {row : HeapRow} (hrow : row.key.isSome = true → G row.tuple) :
    Keeps (Clean G) (temporalRtreeInsert env row.key row.tid) fun _ => True := by
  have hinit : Keeps (Clean G) (ensureInitialised env) fun _ => True := by
    refine Keeps.bind Keeps.get fun s _ => ?_
    split
    · exact rtreeMetaAndRootInit_keeps
    · exact Keeps.pure True.intro
  refine Keeps.bind hinit fun _ _ => ?_
  obtain ⟨tid, key⟩ := row
  cases key with
  | none => exact Keeps.pure True.intro
  | some cube =>
      exact Keeps.bind (insertTuple_keeps hform (hrow rfl)) fun _ _ => Keeps.pure True.intro

theorem rtreeBuildCallback_keeps {rows : List HeapRow} (hrows : ∀ row ∈ rows, row.key.isSome = true → G row.tuple)
    (n : Nat) : Keeps (Clean G) (rtreeBuildCallback env rows n) fun _ => True := by
  induction rows generalizing n with
  | nil => exact Keeps.pure True.intro
  | cons row rest ih =>
      exact Keeps.bind (temporalRtreeInsert_keeps hform (hrows row List.mem_cons_self)) fun _ _ =>
        ih (fun row hrow => hrows row (List.mem_cons_of_mem _ hrow)) _

/-! ### Bulk deletions -/

omit hform in
theorem rebuildPage_keeps {blk : BlockNumber} {page : DataPage} {kept : VacuumItems}
    (hkept : ∀ t ∈ kept.tuples, G t) : Keeps (Clean G) (rebuildPage env blk page kept) fun _ => True := by
  have hitems := @addTupleCopies_all G (emptiedPage page) _ (fun _ h => absurd h List.not_mem_nil) hkept
  refine Keeps.bind (putPage_keeps hitems) fun _ _ => Keeps.bind (emit_keeps _) fun _ _ => ?_
  split
  · exact Keeps.throw _
  · refine Keeps.bind (markBufferDirty_keeps _) fun _ _ => Keeps.bind (genericXLog_keeps _) fun _ _ => ?_
    refine Keeps.bind (unlockBuffer_keeps _) fun _ _ => ?_
    split
    · exact Keeps.pure True.intro
    · exact Keeps.pure True.intro

omit hform in
/-- A leaf keeps some of its tuples. -/
theorem leafKept_sublist {callback : IndexBulkDeleteCallback} {items : List IndexTuple} :
    ((leafKept callback items).map Prod.fst).Sublist items := by
  induction items with
  | nil => exact List.Sublist.refl _
  | cons t rest ih =>
      unfold leafKept at ih ⊢
      cases hd : isAlive callback t with
      | false =>
          rw [List.filter_cons_of_neg (by simp [hd])]
          exact ih.cons t
      | true =>
          rw [List.filter_cons_of_pos hd]
          cases hbox : rtreeIndexTupleBox t with
          | none =>
              rw [List.filterMap_cons_none (by rw [hbox]; rfl)]
              exact ih.cons t
          | some box =>
              rw [List.filterMap_cons_some (by rw [hbox]; rfl), List.map_cons]
              exact ih.cons_cons t

omit hform in
theorem vacuumLeafItems_all {callback : IndexBulkDeleteCallback} {items : List IndexTuple} {acc : VacuumItems}
    (hitems : ∀ t ∈ items, G t) (hacc : ∀ t ∈ acc.tuples, G t) :
    ∀ t ∈ (items.foldl (vacuumLeafItem callback) acc).tuples, G t := by
  intro t ht
  rw [(vacuumLeafItems_kept items acc).1] at ht
  rcases List.mem_append.mp ht with ht | ht
  · exact hacc t ht
  · exact hitems t (leafKept_sublist.subset ht)

theorem vacuumChildren_keeps {child : BlockNumber → IndexBulkDeleteResult →
      IndexM (Option RTreeTemporalBox × IndexBulkDeleteResult)}
    (hchild : ∀ blk stats, Keeps (Clean G) (child blk stats) fun _ => True) (items : List IndexTuple)
    {acc : VacuumItems} (hacc : ∀ t ∈ acc.tuples, G t) :
    Keeps (Clean G) (vacuumChildren child items acc) fun kept => ∀ t ∈ kept.tuples, G t := by
  induction items generalizing acc with
  | nil => exact Keeps.pure hacc
  | cons itup rest ih =>
      refine Keeps.bind (hchild _ _) fun res _ => ?_
      obtain ⟨box, stats⟩ := res
      cases box with
      | none => exact ih hacc
      | some box =>
          refine ih fun t ht => ?_
          rcases List.mem_append.mp ht with ht | ht
          · exact hacc t ht
          · exact List.mem_singleton.mp ht ▸ hform _ _

theorem rtreeVacuumPage_keeps (callback : IndexBulkDeleteCallback) (fuel : Nat) (blk : BlockNumber)
    (stats : IndexBulkDeleteResult) :
    Keeps (Clean G) (rtreeVacuumPage env callback fuel blk stats) fun _ => True := by
  induction fuel generalizing blk stats with
  | zero => exact Keeps.throw _
  | succ fuel ih =>
      refine Keeps.bind (readBuffer_keeps _) fun _ _ => Keeps.bind (lockBuffer_keeps _ _) fun _ _ => ?_
      refine Keeps.bind (bufferGetPage_keeps blk) fun page hpage => ?_
      dsimp only
      split
      · exact rebuildPage_keeps (vacuumLeafItems_all hpage fun _ h => absurd h List.not_mem_nil)
      · exact Keeps.bind (vacuumChildren_keeps hform ih page.items fun _ h => absurd h List.not_mem_nil)
          fun _ hkept => rebuildPage_keeps hkept

omit hform in
theorem rtreeVacuumShrinkRoot_keeps (rootblk : BlockNumber) (rootLevel : Nat) :
    Keeps (Clean G) (rtreeVacuumShrinkRoot env rootblk rootLevel) fun _ => True := by
  have hlocked : Keeps (Clean G) (shrinkLockedRoot env rootblk rootLevel) fun _ => True := by
    refine Keeps.bind (bufferGetPage_keeps rootblk) fun root _ => ?_
    split
    · exact Keeps.pure True.intro
    · split
      · refine Keeps.bind (putPage_keeps fun _ h => absurd h List.not_mem_nil) fun _ _ => ?_
        refine Keeps.bind Keeps.get fun s _ => Keeps.bind (putMeta_keeps _ _) fun _ _ => ?_
        exact Keeps.pure True.intro
      · refine Keeps.bind (readBuffer_keeps _) fun _ _ => Keeps.bind (lockBuffer_keeps _ _) fun _ _ => ?_
        refine Keeps.bind (bufferGetPage_keeps _) fun child hchild => ?_
        refine Keeps.bind (putPage_keeps hchild) fun _ _ => ?_
        refine Keeps.bind Keeps.get fun s _ => Keeps.bind (putMeta_keeps _ _) fun _ _ => ?_
        refine Keeps.bind (markBufferDirty_keeps _) fun _ _ => Keeps.bind (markBufferDirty_keeps _) fun _ _ => ?_
        refine Keeps.bind (genericXLog_keeps _) fun _ _ => ?_
        exact Keeps.bind (unlockBuffer_keeps _) fun _ _ => Keeps.pure True.intro
      · exact Keeps.pure True.intro
  unfold rtreeVacuumShrinkRoot
  split
  · exact Keeps.pure True.intro
  · refine Keeps.bind (readBuffer_keeps _) fun _ _ => Keeps.bind (lockBuffer_keeps _ _) fun _ _ => ?_
    refine Keeps.bind Keeps.get fun s _ => ?_
    split
    · exact Keeps.bind (unlockBuffer_keeps _) fun _ _ => Keeps.pure True.intro
    · refine Keeps.bind (readBuffer_keeps _) fun _ _ => Keeps.bind (lockBuffer_keeps _ _) fun _ _ => ?_
      refine Keeps.bind hlocked fun _ _ => ?_
      refine Keeps.bind (unlockBuffer_keeps _) fun _ _ => Keeps.bind (unlockBuffer_keeps _) fun _ _ => ?_
      exact Keeps.pure True.intro

theorem temporalRtreeBulkdelete_keeps (stats : Option IndexBulkDeleteResult) (callback : IndexBulkDeleteCallback) :
    Keeps (Clean G) (temporalRtreeBulkdelete env stats callback) fun _ => True := by
  refine Keeps.bind Keeps.get fun s _ => ?_
  dsimp only
  split
  · exact Keeps.pure True.intro
  · refine Keeps.bind readMeta_keeps fun m _ => ?_
    split
    · exact Keeps.pure True.intro
    · split
      · exact Keeps.pure True.intro
      · refine Keeps.bind (rtreeVacuumPage_keeps hform _ _ _ _) fun _ _ => ?_
        exact Keeps.bind (rtreeVacuumShrinkRoot_keeps _ _) fun _ _ => Keeps.pure True.intro

/-- **An operation brings only its rows and downlinks onto the pages, whether it succeeds or not.** -/
theorem runOp_keeps {op : Op} (hrows : ∀ row ∈ op.rows, row.key.isSome = true → G row.tuple) :
    Keeps (Clean G) (runOp env op) fun _ => True := by
  cases op with
  | build rows =>
      refine Keeps.bind (Keeps.modify fun s _ _ _ ht => absurd ht List.not_mem_nil) fun _ _ => ?_
      have hbuild : Keeps (Clean G) (temporalRtreeBuild env rows) fun _ => True :=
        Keeps.bind rtreeMetaAndRootInit_keeps fun _ _ =>
          Keeps.bind (rtreeBuildCallback_keeps hform hrows 0) fun _ _ => Keeps.pure True.intro
      exact Keeps.bind hbuild fun _ _ => Keeps.pure True.intro
  | insert row =>
      exact Keeps.bind (temporalRtreeInsert_keeps hform (hrows row (List.mem_singleton.mpr rfl))) fun _ _ =>
        Keeps.pure True.intro
  | bulkdelete stats callback =>
      exact Keeps.bind (temporalRtreeBulkdelete_keeps hform stats callback) fun _ _ => Keeps.pure True.intro
  | vacuumcleanup info stats =>
      have hclean : Keeps (Clean G) (temporalRtreeVacuumcleanup env info stats) fun _ => True := by
        unfold temporalRtreeVacuumcleanup
        split
        · exact Keeps.pure True.intro
        · have hend : ∀ f : Rel → Option IndexBulkDeleteResult,
              Keeps (Clean G) (get >>= fun s => pure (f s) : IndexM _) fun _ => True :=
            fun _ => Keeps.bind Keeps.get fun _ _ => Keeps.pure True.intro
          cases stats with
          | some st => exact hend _
          | none => exact Keeps.bind (temporalRtreeBulkdelete_keeps hform _ _) fun _ _ => hend _
      exact Keeps.bind hclean fun _ _ => Keeps.pure True.intro

end Operations

end Keeps

/-! ## The arrays -/

/-- `MaxHeapTuplesPerPage`: the tuples of 23 header bytes that fit on a page with their line pointers. -/
def maxHeapTuplesPerPage : Nat := (8192 - 24) / (maxalign 23 + 4)

/-- What `rtree_vacuum_page` has collected before the first tuple. -/
def nothingCollected (stats : IndexBulkDeleteResult) : VacuumItems := { tuples := [], boxes := [], stats := stats }

/-- The arrays of `rtree_split_page` and `rtree_vacuum_page` have room for what is collected from the page, however
    far the collection gets. A page is split as it is, or after the update of a downlink on it. -/
structure ArraysSuffice (page : DataPage) : Prop where
  split : ∀ newitup, (splitItems page newitup).length ≤ maxHeapTuplesPerPage + 1
  splitUpdated : ∀ offnum box tid page' newitup,
    rtreeReplaceTuple page offnum (rtreeFormTuple box tid) = some page' →
      (splitItems page' newitup).length ≤ maxHeapTuplesPerPage + 1
  vacuumLeaf : ∀ callback stats done, done <+: page.items →
    (done.foldl (vacuumLeafItem callback) (nothingCollected stats)).tuples.length ≤ maxHeapTuplesPerPage
  vacuumInner : ∀ vacuumChild stats done kept s s', done <+: page.items →
    vacuumChildren vacuumChild done (nothingCollected stats) s = .ok kept s' →
      kept.tuples.length ≤ maxHeapTuplesPerPage

/-- The key is there and has a dimension. -/
def HasDimension (t : IndexTuple) : Prop := ∃ cube, t.key = some cube ∧ 1 ≤ cube.dim

theorem hasDimension_formTuple (box : RTreeTemporalBox) (tid : ItemPointerData) :
    HasDimension (rtreeFormTuple box tid) := by
  refine ⟨_, rfl, ?_⟩
  unfold rtreeBoxToCube
  split <;> exact one_le_two

/-- With a key of at least one dimension, a tuple is as large as a heap tuple header. -/
theorem HasDimension.le_size {t : IndexTuple} (h : HasDimension t) : 24 ≤ maxalign (indexTupleSize t) := by
  obtain ⟨cube, hkey, hdim⟩ := h
  have hx : 1 ≤ cube.x.length := by
    rw [cube.x_length]
    split <;> omega
  simp only [indexTupleSize, hkey, NDBOX.varsize, maxalign]
  omega

theorem le_tupleBytes {items : List IndexTuple} (h : ∀ t ∈ items, HasDimension t) :
    24 * items.length ≤ tupleBytes items := by
  induction items with
  | nil => exact Nat.zero_le _
  | cons t rest ih =>
      have ht := (h t List.mem_cons_self).le_size
      have hrest := ih fun t ht => h t (List.mem_cons_of_mem _ ht)
      rw [List.length_cons, tupleBytes, List.map_cons, List.sum_cons]
      unfold tupleBytes at hrest
      omega

/-- **Such tuples are at most as many as the arrays are made for.** -/
theorem length_le_of_hasDimension (page : DataPage) (h : ∀ t ∈ page.items, HasDimension t) :
    page.items.length ≤ maxHeapTuplesPerPage := by
  have hbytes := le_tupleBytes h
  have hfits := page.fits
  have hmax : maxHeapTuplesPerPage = 291 := rfl
  unfold pdLower pdSpecial at hfits
  omega

/-- A child adds at most one downlink. -/
theorem vacuumChildren_length {vacuumChild : BlockNumber → IndexBulkDeleteResult →
      IndexM (Option RTreeTemporalBox × IndexBulkDeleteResult)} {items : List IndexTuple}
    {acc kept : VacuumItems} {s s' : Rel} (h : vacuumChildren vacuumChild items acc s = .ok kept s') :
    kept.tuples.length ≤ acc.tuples.length + items.length := by
  induction items generalizing acc s with
  | nil =>
      cases h
      exact Nat.le_refl _
  | cons itup rest ih =>
      obtain ⟨⟨box, stats⟩, s₁, -, h⟩ := bind_eq_ok.mp h
      cases box with
      | none =>
          have hle := ih h
          dsimp only at hle
          rw [List.length_cons]
          omega
      | some box =>
          have hle := ih h
          simp only [VacuumItems.keep, List.length_append, List.length_singleton] at hle
          rw [List.length_cons]
          omega

theorem arraysSuffice_of_hasDimension {page : DataPage} (h : ∀ t ∈ page.items, HasDimension t) :
    ArraysSuffice page := by
  have hlen := length_le_of_hasDimension page h
  refine ⟨fun newitup => ?_, fun offnum box tid page' newitup hrep => ?_, fun callback stats done hdone => ?_,
    fun vacuumChild stats done kept s s' hdone hrun => ?_⟩
  · rw [splitItems, List.length_append, List.length_singleton]
    omega
  · have hpage' : ∀ t ∈ page'.items, HasDimension t := by
      intro t ht
      rcases mem_of_rtreeReplaceTuple hrep ht with ht | rfl
      · exact h t ht
      · exact hasDimension_formTuple _ _
    have hlen' := length_le_of_hasDimension page' hpage'
    rw [splitItems, List.length_append, List.length_singleton]
    omega
  · have hsub := (@leafKept_sublist callback done).length_le
    rw [(vacuumLeafItems_kept done _).1]
    have := hdone.length_le
    simp only [nothingCollected, List.nil_append]
    omega
  · have hle := vacuumChildren_length hrun
    have := hdone.length_le
    simp only [nothingCollected, List.length_nil] at hle
    omega

/-! ## Runs -/

/-- A call on the index: a whole operation, or one of the functions it is made of, so that the states in the midst
    of an operation and those between the operations of several sessions are reached too. -/
inductive IndexCall where
  | operation (op : Op)
  /-- `rtree_insert_page`, which is called with a key that is not NULL. -/
  | insertPage (htCtid : ItemPointerData) (cube : NDBOX) (box : RTreeTemporalBox) (blkno : BlockNumber) (level : Nat)
  /-- `rtree_root_promote`. -/
  | rootPromote (leftblk : BlockNumber) (leftBox : RTreeTemporalBox) (right : SplitRight) (oldLevel : Nat)
  /-- The write to the meta page at the end of `temporal_rtree_insert`. -/
  | writeMeta (root : BlockNumber) (level : Nat)
  /-- `rtree_vacuum_page`. -/
  | vacuumPage (callback : IndexBulkDeleteCallback) (fuel : Nat) (blkno : BlockNumber)
      (stats : IndexBulkDeleteResult)
  /-- `rtree_vacuum_shrink_root`. -/
  | shrinkRoot (rootblk : BlockNumber) (rootLevel : Nat)

/-- Carry out a call, dropping its return value. -/
def IndexCall.run (env : Env) : IndexCall → IndexM Unit
  | .operation op => runOp env op
  | .insertPage htCtid cube box blkno level => do
      let _ ← rtreeInsertPage env blkno level { tTid := htCtid, key := some cube } box
  | .rootPromote leftblk leftBox right oldLevel => do
      let _ ← rtreeRootPromote env leftblk leftBox right oldLevel
  | .writeMeta root level => writeMetaRoot root level
  | .vacuumPage callback fuel blkno stats => do
      let _ ← rtreeVacuumPage env callback fuel blkno stats
  | .shrinkRoot rootblk rootLevel => do
      let _ ← rtreeVacuumShrinkRoot env rootblk rootLevel

/-- The keys that a call inserts. -/
def IndexCall.keys : IndexCall → List NDBOX
  | .operation op => op.rows.filterMap HeapRow.key
  | .insertPage _ cube _ _ _ => [cube]
  | _ => []

/-- A call in its surroundings; the next one starts from the state it ends in, also if it raises an error. -/
def stepCall (s : Rel) (call : Env × IndexCall) : Option Rel := some (endState (call.2.run call.1 s))

theorem IndexCall.run_keeps {env : Env} {call : IndexCall} (h : ∀ cube ∈ call.keys, 1 ≤ cube.dim) :
    Keeps (Clean HasDimension) (call.run env) fun _ => True := by
  cases call with
  | operation op =>
      refine runOp_keeps hasDimension_formTuple fun row hrow hsome => ?_
      obtain ⟨cube, hcube⟩ := Option.isSome_iff_exists.mp hsome
      exact ⟨cube, hcube, h cube (List.mem_filterMap.mpr ⟨row, hrow, hcube⟩)⟩
  | insertPage htCtid cube box blkno level =>
      have hitup : HasDimension { tTid := htCtid, key := some cube } :=
        ⟨cube, rfl, h cube (List.mem_singleton.mpr rfl)⟩
      exact Keeps.bind (rtreeInsertPage_keeps hasDimension_formTuple hitup _ _) fun _ _ => Keeps.pure True.intro
  | rootPromote leftblk leftBox right oldLevel =>
      exact Keeps.bind (rtreeRootPromote_keeps hasDimension_formTuple _ _ _ _) fun _ _ => Keeps.pure True.intro
  | writeMeta root level => exact writeMetaRoot_keeps root level
  | vacuumPage callback fuel blkno stats =>
      exact Keeps.bind (rtreeVacuumPage_keeps hasDimension_formTuple _ _ _ _) fun _ _ => Keeps.pure True.intro
  | shrinkRoot rootblk rootLevel =>
      exact Keeps.bind (rtreeVacuumShrinkRoot_keeps _ _) fun _ _ => Keeps.pure True.intro

/-- **As long as no zero-dimensional cube is inserted, the arrays are large enough for every page of every state
    reached**, by whatever calls of any sessions, and whether or not they succeed. -/
theorem arrays_suffice {s : Rel}
    (h : Transition.Guarded stepCall (fun _ call => ∀ cube ∈ call.2.keys, 1 ≤ cube.dim) { pages := [] } s)
    (blk : BlockNumber) : ArraysSuffice (pageAt s.pages blk) := by
  have hclean : Clean HasDimension s := by
    refine h.invariant (Clean HasDimension) (fun s call s' hs hkeys hstep => ?_)
      fun _ _ ht => absurd ht List.not_mem_nil
    obtain rfl := Option.some.inj hstep
    exact (IndexCall.run_keeps hkeys).endState hs
  exact arraysSuffice_of_hasDimension (hclean blk)

/-! ### Rows on one leaf -/

theorem addItems_append (page : DataPage) (l₁ l₂ : List IndexTuple) :
    (addItems page (l₁ ++ l₂)).1 = (addItems (addItems page l₁).1 l₂).1 := by
  induction l₁ generalizing page with
  | nil => rfl
  | cons t rest ih =>
      cases hadd : pageAddItem page t invalidOffsetNumber with
      | some page' => simp [addItems, hadd, ih]
      | none => simp [addItems, hadd, ih]

/-- The tuples of a leaf that they fit on. -/
theorem leafIndex_items {itups : List IndexTuple} (h : FitOnPage itups) :
    (pageAt (leafIndex itups) 1).items = itups := by
  obtain ⟨added, -, hitems, -, hall⟩ := addItems_items (rtreeInitDatapage { leaf := true, root := true } 0) itups
  show (addItems (rtreeInitDatapage { leaf := true, root := true } 0) itups).1.items = itups
  rw [hitems, hall ((addItems_all_iff _ _).mpr h)]
  rfl

/-- One more row that passes the free-space check. -/
theorem temporalRtreeInsert_leafIndex {env : Env} {itups : List IndexTuple} {cube : NDBOX} {tid : ItemPointerData}
    {s : Rel} (hpages : s.pages = leafIndex itups)
    (hroom : pdLower (itups ++ [⟨tid, some cube⟩]) + tupleBytes (itups ++ [⟨tid, some cube⟩]) + 4 ≤ pdSpecial) :
    ∃ s', temporalRtreeInsert env (some cube) tid s = .ok true s' ∧
      s'.pages = leafIndex (itups ++ [⟨tid, some cube⟩]) := by
  let itup : IndexTuple := ⟨tid, some cube⟩
  have hfit : FitOnPage (itups ++ [itup]) := Nat.le_trans (Nat.le_add_right _ 4) hroom
  have hcheck : hasRoom (pageAt (leafIndex itups) 1) itup = true := by
    rw [hasRoom_iff, leafIndex_items hfit.of_append]
    exact hroom
  obtain ⟨page', hadd⟩ := pageAddItem_of_hasRoom hcheck
  have hpage' : page' = (addItems (rtreeInitDatapage { leaf := true, root := true } 0) (itups ++ [itup])).1 := by
    have hadd' : pageAddItem (addItems (rtreeInitDatapage { leaf := true, root := true } 0) itups).1 itup
      invalidOffsetNumber = some page' := hadd
    rw [addItems_append]
    simp only [addItems, hadd']
  have hlen : 1 < (leafIndex itups).length := Nat.one_lt_two
  obtain ⟨evs, hins⟩ : ∃ evs, Inserts env itup (rtreeCubeToBox cube) (leafIndex itups) 1 0
      { leftBox := rtreePageMbr page', split := none } ((leafIndex itups).set 1 (.data page')) evs :=
    ⟨_, .leafAdd hlen (Or.inl rfl) hcheck hadd⟩
  obtain ⟨pages, trace⟩ := s
  dsimp only at hpages
  subst hpages
  let s' : Rel :=
    { pages := (leafIndex itups).set 1 (.data page')
      trace := trace ++ [Event.lock 0 .share, Event.unlock 0] ++ evs }
  refine ⟨s', ?_, ?_⟩
  · have hmeta := @readMetaRoot_run ⟨leafIndex itups, trace⟩ Nat.two_pos rfl
    have htuple : insertTuple env itup (rtreeCubeToBox cube) ⟨leafIndex itups, trace⟩ = .ok () s' := by
      rw [insertTuple, bind_of_ok hmeta]
      exact bind_of_ok (hins.run (trace ++ [Event.lock 0 .share, Event.unlock 0]))
    rw [@temporalRtreeInsert_run_of_some env cube tid ⟨leafIndex itups, trace⟩ hlen]
    exact bind_of_ok htuple
  · show (leafIndex itups).set 1 (.data page') = _
    rw [hpage']
    rfl

/-- A build whose rows pass the check one after the other leaves one leaf. -/
theorem rtreeBuildCallback_leafIndex {env : Env} {rows : List HeapRow} {itups : List IndexTuple} {n : Nat} {s : Rel}
    (hkeys : ∀ row ∈ rows, row.key.isSome = true) (hpages : s.pages = leafIndex itups)
    (hroom : pdLower (itups ++ rows.map HeapRow.tuple) + tupleBytes (itups ++ rows.map HeapRow.tuple) + 4
      ≤ pdSpecial) :
    ∃ s', rtreeBuildCallback env rows n s = .ok (n + rows.length) s' ∧
      s'.pages = leafIndex (itups ++ rows.map HeapRow.tuple) := by
  induction rows generalizing itups n s with
  | nil => exact ⟨s, rfl, by rw [hpages, List.map_nil, List.append_nil]⟩
  | cons row rest ih =>
      obtain ⟨tid, key⟩ := row
      obtain ⟨cube, rfl⟩ := Option.isSome_iff_exists.mp (hkeys _ List.mem_cons_self)
      have happend : itups ++ List.map HeapRow.tuple (⟨tid, some cube⟩ :: rest)
          = (itups ++ [⟨tid, some cube⟩]) ++ rest.map HeapRow.tuple := by
        rw [List.append_assoc]
        rfl
      rw [happend] at hroom ⊢
      have hfirst : pdLower (itups ++ [⟨tid, some cube⟩]) + tupleBytes (itups ++ [⟨tid, some cube⟩]) + 4
          ≤ pdSpecial := by
        unfold pdLower at hroom ⊢
        rw [tupleBytes_append, List.length_append] at hroom
        omega
      obtain ⟨s₁, hrun₁, hpages₁⟩ := @temporalRtreeInsert_leafIndex env _ _ _ _ hpages hfirst
      obtain ⟨s', hrun, hpages'⟩ := @ih _ (n + 1) s₁ (fun row hrow => hkeys row (List.mem_cons_of_mem _ hrow))
        hpages₁ hroom
      refine ⟨s', ?_, hpages'⟩
      rw [rtreeBuildCallback, bind_of_ok hrun₁, if_pos rfl, hrun, List.length_cons]
      congr 1
      omega

/-- A row whose key is the origin of a space of the given dimension. -/
def originRow (dim : Nat) (h : dim ≤ cubeMaxDim) (i : Nat) : HeapRow where
  tid := { blkno := i, offnum := 1 }
  key := some
    { dim := dim, isPoint := true, x := List.replicate dim (.fin 0), dim_le := h
      x_length := List.length_replicate }

/-- The first `n` of them. -/
def originRows (dim : Nat) (h : dim ≤ cubeMaxDim) (n : Nat) : List HeapRow := (List.range n).map (originRow dim h)

section Origin
variable {dim : Nat} {h : dim ≤ cubeMaxDim} {n : Nat}

theorem length_originRows : ((originRows dim h n).map HeapRow.tuple).length = n := by simp [originRows]

theorem bytes_originRows : pdLower ((originRows dim h n).map HeapRow.tuple)
    + tupleBytes ((originRows dim h n).map HeapRow.tuple) = 24 + (20 + 8 * dim) * n := by
  have hsize : ∀ i, maxalign (indexTupleSize (originRow dim h i).tuple) = 16 + 8 * dim := by
    intro i
    simp only [HeapRow.tuple, originRow, indexTupleSize, NDBOX.varsize, List.length_replicate, maxalign]
    omega
  have hsum : tupleBytes ((originRows dim h n).map HeapRow.tuple) = n * (16 + 8 * dim) := by
    simp only [tupleBytes, originRows, List.map_map, Function.comp_def, hsize, List.map_const', List.length_range,
      List.sum_replicate, smul_eq_mul]
  rw [hsum, pdLower, length_originRows]
  ring

theorem originRows_key : ∀ row ∈ originRows dim h n, row.key.isSome = true := by
  intro row hrow
  obtain ⟨i, -, rfl⟩ := List.mem_map.mp hrow
  rfl

/-- As many rows as the check lets on one page are on it after a build. -/
theorem originRows_reached (hroom : 24 + (20 + 8 * dim) * n + 4 ≤ pdSpecial) :
    ∃ s, stepCall { pages := [] } (roomyEnv, .operation (.build (originRows dim h n))) = some s ∧
      (pageAt s.pages 1).items = (originRows dim h n).map HeapRow.tuple := by
  have hbytes := @bytes_originRows dim h n
  have hinit := @rtreeMetaAndRootInit_run roomyEnv { pages := [] } ⟨by decide, rfl⟩ ⟨by decide, rfl⟩
  obtain ⟨s', hrun, hpages⟩ := @rtreeBuildCallback_leafIndex roomyEnv _ [] 0
    { pages := initPages 0, trace := _ } originRows_key rfl (by rw [List.nil_append, hbytes]; exact hroom)
  refine ⟨s', ?_, ?_⟩
  · have hbuild : runOp roomyEnv (.build (originRows dim h n)) { pages := [] } = .ok () s' := by
      rw [runOp, bind_of_ok (modify_apply _ _), temporalRtreeBuild]
      exact bind_of_ok ((bind_of_ok hinit).trans (bind_of_ok hrun))
    show some (endState (runOp roomyEnv (.build (originRows dim h n)) { pages := [] })) = some s'
    rw [hbuild]
    rfl
  · rw [hpages]
    apply leafIndex_items
    unfold FitOnPage
    rw [List.nil_append, hbytes]
    omega

end Origin

/-- With 291 one-dimensional points on a page the arrays are filled to the last place. -/
theorem arrays_suffice_points :
    ∃ s, stepCall { pages := [] } (roomyEnv, .operation (.build (originRows 1 (by decide) 291))) = some s ∧
      (pageAt s.pages 1).items.length = maxHeapTuplesPerPage ∧ ArraysSuffice (pageAt s.pages 1) := by
  obtain ⟨s, hstep, hitems⟩ := @originRows_reached 1 (by decide) 291 (by decide)
  refine ⟨s, hstep, ?_, arrays_suffice (.tail .refl ?_ hstep) 1⟩
  · rw [hitems, length_originRows]
    rfl
  · intro cube hcube
    obtain ⟨row, hrow, hkey⟩ := List.mem_filterMap.mp hcube
    obtain ⟨i, -, rfl⟩ := List.mem_map.mp hrow
    obtain rfl := Option.some.inj hkey
    exact Nat.le_refl 1

/-- 407 zero-dimensional cubes fit on a page. A split for one more collects 408 tuples, and a bulk deletion that
    removes nothing collects 407. -/
theorem arrays_overrun :
    ∃ s, stepCall { pages := [] } (roomyEnv, .operation (.build (originRows 0 (by decide) 407))) = some s ∧
      hasRoom (pageAt s.pages 1) (originRow 0 (by decide) 407).tuple = false ∧
      maxHeapTuplesPerPage + 1 < (splitItems (pageAt s.pages 1) (originRow 0 (by decide) 407).tuple).length ∧
      maxHeapTuplesPerPage <
        ((pageAt s.pages 1).items.foldl (vacuumLeafItem none) (nothingCollected {})).tuples.length := by
  obtain ⟨s, hstep, hitems⟩ := @originRows_reached 0 (by decide) 407 (by decide)
  have hlen : (pageAt s.pages 1).items.length = 407 := by rw [hitems, length_originRows]
  have hone : ∀ n, (originRows 0 (by decide) n).map HeapRow.tuple ++ [(originRow 0 (by decide) n).tuple]
      = (originRows 0 (by decide) (n + 1)).map HeapRow.tuple := by
    intro n
    simp only [originRows, List.range_succ, List.map_append, List.map_cons, List.map_nil]
  refine ⟨s, hstep, ?_, ?_, ?_⟩
  · rw [Bool.eq_false_iff, ne_eq, hasRoom_iff, hitems, hone, bytes_originRows]
    decide
  · rw [splitItems, List.length_append, hlen]
    decide
  · have halive : ((pageAt s.pages 1).items.filter (isAlive none)) = (pageAt s.pages 1).items :=
      List.filter_eq_self.mpr fun _ _ => rfl
    have hkeys : ∀ t ∈ (pageAt s.pages 1).items, t.key.isSome = true := by
      rw [hitems]
      intro t ht
      obtain ⟨row, hrow, rfl⟩ := List.mem_map.mp ht
      exact originRows_key row hrow
    rw [(vacuumLeafItems_kept _ _).1, leafKept_fst hkeys, halive, List.length_append, hlen]
    decide

end TemporalRTree
