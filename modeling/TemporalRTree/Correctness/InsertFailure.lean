import TemporalRTree.Correctness.InsertRun
import TemporalRTree.Correctness.InsertForesight

/-!
# `Correctness.InsertFailure` — what a failed insert leaves behind

Nothing undoes the changes a failing insert has made to shared buffers. They are confined to one tree: that of
the child whose call had completed when its parent could not take the result. Until the parent is rewritten,
the right half of a split child is in nobody's reach; and when `rtree_replace_tuple` fails, the child itself is
not either. Where a call fails is foreseen from the pages before it (`insertFailure`), and so is what is lost.
-/

namespace TemporalRTree
open EStateM Layout

section Descent
variable {env : Env} {itup : IndexTuple} {box : RTreeTemporalBox} {pages pages₁ pages' : List Page}
  {blk : BlockNumber} {level : Nat} {e : RTreeError} {evs : List Event}

/-- The error that is raised there. -/
def FailurePoint.error : FailurePoint → RTreeError
  | .leaf => .couldNotExtend
  | .replacing _ _ => .failedToReplace
  | .extending _ _ _ => .couldNotExtend

/-- The tuples in reach before the insert are still in reach after it has failed there: no page has been changed, or the
    child that was cut off had no tuples, or the left half of the split child has kept those of the child. -/
def FailurePoint.Kept (pages : List Page) : FailurePoint → Prop
  | .leaf => True
  | .replacing level child => nodes.leaves (pageAt pages) level child = []
  | .extending level child left => (nodes.leaves (pageAt pages) level child : Multiset IndexTuple) ≤ left

instance (pages : List Page) (point : FailurePoint) : Decidable (point.Kept pages) :=
  match point with
  | .leaf => .isTrue trivial
  | .replacing level child => inferInstanceAs (Decidable (nodes.leaves (pageAt pages) level child = []))
  | .extending level child left =>
      inferInstanceAs (Decidable ((nodes.leaves (pageAt pages) level child : Multiset IndexTuple) ≤ left))

/-- A failed descent leaves the pages outside its tree alone. -/
theorem InsertFails.frame (h : InsertFails env itup box pages blk level e pages' evs)
    (hkey : itup.key.isSome = true) (hf : nodes.Forest NodeOk (pageAt pages) level [blk])
    (halloc : ∀ x ∈ nodes.forestBlocks (pageAt pages) level [blk], x ∈ allocated pages) :
    ∀ x ∈ allocated pages, x ∉ nodes.blocks (pageAt pages) level blk → pageAt pages' x = pageAt pages x := by
  induction h with
  | unreadable => exact fun _ _ _ => rfl
  | leafSplit => exact fun _ _ _ => rfl
  | noDownlinks => exact fun _ _ _ => rfl
  | child hblk hchild hrec ih =>
      obtain ⟨hf', halloc'⟩ := hchild.forest hf halloc
      intro x hx hn
      exact ih hf' halloc' x hx fun hc => hn (hchild.blocks_subset hc)
  | @replace pages₁ blk level pos childitup childres evs hblk hchild hrec hrep =>
      intro x hx hn
      have hne : x ≠ blk := fun he => hn (he ▸ self_mem_blocks)
      rw [pageAt_set_ne hne]
      exact (hchild.spec hrec hkey hf halloc).2.1 x hx fun hc => hn (hchild.blocks_subset hc)
  | @innerSplit pages₁ blk level pos childitup childBox right page₂ evs hblk hchild hrec hrep hfull hext =>
      intro x hx hn
      have hne : x ≠ blk := fun he => hn (he ▸ self_mem_blocks)
      rw [pageAt_set_ne hne]
      exact (hchild.spec hrec hkey hf halloc).2.1 x hx fun hc => hn (hchild.blocks_subset hc)

/-- The blocks beside the child's tree are blocks of the relation, and not the page itself. -/
theorem rest_blocks {c : BlockNumber} {rest : List BlockNumber}
    (hf : nodes.Forest NodeOk (pageAt pages) (level + 1) [blk])
    (halloc : ∀ x ∈ nodes.forestBlocks (pageAt pages) (level + 1) [blk], x ∈ allocated pages)
    (hrest : (c :: rest).Perm (nodes.kids (pageAt pages blk))) :
    ∀ x ∈ nodes.forestBlocks (pageAt pages) level rest, x ∈ allocated pages ∧ x ≠ blk := by
  intro x hx
  have hkids : x ∈ nodes.forestBlocks (pageAt pages) level (nodes.kids (pageAt pages blk)) :=
    (hrest.flatMap_right (nodes.blocks (pageAt pages) level)).subset (List.mem_append_right _ hx)
  refine ⟨halloc x ?_, fun he => hf.kids.2.2 (he ▸ hkids)⟩
  rw [forestBlocks_singleton, blocks_succ]
  exact List.mem_cons_of_mem _ hkids

/-- Deleting the followed downlink leaves the other ones. -/
theorem ChoosesChild.delete {page : DataPage} {pos : Nat} {childitup : IndexTuple} {rest : List BlockNumber}
    (h : ChoosesChild page box pos childitup) (hrest : (childitup.tTid.blkno :: rest).Perm (nodes.kids page)) :
    (nodes.kids (pageIndexTupleDelete page (pos + 1))).Perm rest := by
  obtain ⟨hpos, hget⟩ := List.getElem?_eq_some_iff.mp h.item
  have hperm : (childitup :: page.items.eraseIdx pos).Perm page.items := by
    rw [← hget]
    exact List.getElem_cons_eraseIdx_perm hpos
  have hkids : (childitup.tTid.blkno :: nodes.kids (pageIndexTupleDelete page (pos + 1))).Perm
      (nodes.kids page) := hperm.map fun t : IndexTuple => t.tTid.blkno
  exact (hkids.trans hrest.symm).cons_inv

/-- **A failed descent was foreseen, and keeps the tuples of its tree in reach exactly if those of the child it
    completed are.** -/
theorem InsertFails.kept_iff (h : InsertFails env itup box pages blk level e pages' evs)
    (hkey : itup.key.isSome = true) (hle : pages.length ≤ invalidBlockNumber)
    (hf : nodes.Forest NodeOk (pageAt pages) level [blk])
    (halloc : ∀ x ∈ nodes.forestBlocks (pageAt pages) level [blk], x ∈ allocated pages) :
    ∃ point, foresee env pages itup box level blk = .error point ∧ e = point.error ∧
      ((nodes.leaves (pageAt pages) level blk : Multiset IndexTuple) ≤
        nodes.leaves (pageAt pages') level blk ↔ point.Kept pages) := by
  induction h with
  | unreadable hblk => exact absurd (halloc _ (by simp [self_mem_blocks])) hblk
  | @leafSplit blk level hblk hleaf hfull hext =>
      obtain rfl := level_eq_zero_of_leaf hf hleaf
      refine ⟨.leaf, ?_, rfl, iff_true_intro le_rfl⟩
      rw [foresee, foreseeAdd_of_cannot hfull hext, Option.elim_none]
  | noDownlinks hblk hinner hnone =>
      rw [forestBlocks_singleton] at halloc
      exact absurd hnone (chooseSubtreeInsert_valid hle (hf.holds _ (List.mem_singleton.mpr rfl)) halloc)
  | @child pages' blk level pos childitup e evs hblk hchild hrec ih =>
      obtain ⟨hf', halloc'⟩ := hchild.forest hf halloc
      obtain ⟨rest, hrest⟩ := hchild.kids_perm
      obtain ⟨point, hforesee, he, hiff⟩ := ih hf' halloc'
      have hframe := hrec.frame hkey hf' halloc'
      -- the page itself has not been touched
      have hself : pageAt pages' blk = pageAt pages blk := hframe blk hblk fun hx =>
        hf.kids.2.2 (blocks_subset_forest hchild.mem_kids hx)
      refine ⟨point, by rw [foresee_succ hchild, hforesee, Except.bind], he, ?_⟩
      rw [hf.leaves_le_iff hrest (fun x hx => hframe x (rest_blocks hf halloc hrest x hx).1) (by rw [hself])]
      exact hiff
  | @replace pages₁ blk level pos childitup childres evs hblk hchild hrec hrep =>
      obtain ⟨hf', halloc'⟩ := hchild.forest hf halloc
      obtain ⟨rest, hrest⟩ := hchild.kids_perm
      obtain ⟨c, hforesee, hc⟩ := hrec.foreseen hkey hf' halloc'
      obtain ⟨hself, hframe, -⟩ := hchild.spec hrec hkey hf halloc
      have hblk₁ : blk < pages₁.length := Nat.lt_of_lt_of_le hblk hrec.length_le
      refine ⟨.replacing level childitup.tTid.blkno, ?_, rfl, ?_⟩
      · rw [hself, hc.leftBox] at hrep
        rw [foresee_succ hchild, hforesee, Except.bind, foreseeParent, hrep]
      · -- the old downlink has been deleted, and the child with all its tuples is out of reach
        refine hf.leaves_le_iff_of_drop hrest (fun x hx hn => ?_) ?_
        · obtain ⟨hx, hne⟩ := rest_blocks hf halloc hrest x hx
          rw [pageAt_set_ne hne, hframe x hx hn]
        · rw [pageAt_set_self hblk₁, hself]
          exact hchild.delete hrest
  | @innerSplit pages₁ blk level pos childitup childBox right page₂ evs hblk hchild hrec hrep hfull hext =>
      obtain ⟨hf', halloc'⟩ := hchild.forest hf halloc
      obtain ⟨rest, hrest⟩ := hchild.kids_perm
      obtain ⟨c, hforesee, hc⟩ := hrec.foreseen hkey hf' halloc'
      obtain ⟨hself, hframe, hblocks⟩ := hchild.spec hrec hkey hf halloc
      obtain ⟨hrep', -⟩ := hc.replaced hchild hrec hkey hf halloc hrep
      have hblk₁ : blk < pages₁.length := Nat.lt_of_lt_of_le hblk hrec.length_le
      refine ⟨.extending level childitup.tTid.blkno c.below, ?_, rfl, ?_⟩
      · rw [foresee_succ hchild, hforesee, Except.bind, hc.parent_split rfl hrep', foreseeAdd_of_cannot hfull hext,
          Option.elim_none]
      · -- the page leads to the left half of the child, and to no right one
        have hchildren : nodes.leaves (pageAt (pages₁.set blk (.data page₂))) level childitup.tTid.blkno = c.below := by
          rw [← hc.below]
          exact leaves_congr fun x hx =>
            pageAt_set_ne (hblocks x (blocks_subset_forest (by simp [resultBlocks]) hx)).1
        rw [hself] at hrep
        obtain ⟨-, hkids, -⟩ := hchild.replace (hf.holds blk (by simp)).node hrep
        rw [FailurePoint.Kept, ← hchildren]
        refine hf.leaves_le_iff hrest (fun x hx hn => ?_) (by rw [pageAt_set_self hblk₁, hkids])
        obtain ⟨hx, hne⟩ := rest_blocks hf halloc hrest x hx
        rw [pageAt_set_ne hne, hframe x hx hn]

end Descent

/-! ## The whole call -/

/-- A failed descent into a tree without block 0 leaves the meta page alone. -/
theorem InsertFails.metaAt_eq {env : Env} {itup : IndexTuple} {box : RTreeTemporalBox}
    {pages pages' : List Page} {blk : BlockNumber} {level : Nat} {e : RTreeError} {evs : List Event}
    (h : InsertFails env itup box pages blk level e pages' evs)
    (h0 : 0 ∉ nodes.blocks (pageAt pages) level blk) : metaAt pages' = metaAt pages := by
  induction h with
  | unreadable => rfl
  | leafSplit => rfl
  | noDownlinks => rfl
  | child hblk hchild hrec ih => exact ih fun hx => h0 (hchild.blocks_subset hx)
  | replace hblk hchild hrec hrep =>
      rw [metaAt_set_ne fun he => h0 (he ▸ self_mem_blocks),
        hrec.metaAt_eq fun hx => h0 (hchild.blocks_subset hx)]
  | innerSplit hblk hchild hrec hrep hfull hext =>
      rw [metaAt_set_ne fun he => h0 (he ▸ self_mem_blocks),
        hrec.metaAt_eq fun hx => h0 (hchild.blocks_subset hx)]

/-- Where an insert into the index will fail, read off its pages: in the descent, or when the root has been split and no
    page for the new root can be allocated. -/
def insertFailure (env : Env) (pages : List Page) (itup : IndexTuple) (box : RTreeTemporalBox) : Option FailurePoint :=
  let m := metaAt pages
  match foresee env pages itup box m.rootLevel m.root with
  | .error point => some point
  | .ok f =>
      if f.right.isSome ∧ ¬ canExtend env (pages.length + m.rootLevel + 1) then
        some (.extending m.rootLevel m.root f.below)
      else none

/-- **A failed insert has failed where its pages foresaw it, and every tuple that was in reach still is exactly if that
    point keeps them.** -/
theorem failed_insert_keeps_iff {env : Env} {cube : NDBOX} {htCtid : ItemPointerData} {s s' : Rel}
    {e : RTreeError} (hwf : WF s.pages)
    (h : temporalRtreeInsert env (some cube) htCtid s = .error e s') :
    ∃ point, insertFailure env s.pages { tTid := htCtid, key := some cube } (rtreeCubeToBox cube) = some point ∧
      e = point.error ∧ (contents s.pages ≤ contents s'.pages ↔ point.Kept s.pages) := by
  rw [temporalRtreeInsert_run_of_some hwf.two_le_length] at h
  have h := error_of_bind h fun a t => by simp
  obtain ⟨evs, hfail, -⟩ := insertTuple_fails h
  generalize s'.pages = pages' at hfail
  cases hfail with
  | unreadable hlen => exact absurd (Nat.lt_of_lt_of_le Nat.two_pos hwf.two_le_length) hlen
  | missingMeta hlen hmagic => exact absurd hwf.magic hmagic
  | descent hlen hmagic hfail =>
      obtain ⟨point, hforesee, he, hiff⟩ := hfail.kept_iff rfl hwf.nblocks_le hwf.tree hwf.halloc
      have hmeta : metaAt pages' = metaAt s.pages := hfail.metaAt_eq hwf.zero_notMem
      refine ⟨point, by simp only [insertFailure, hforesee], he, ?_⟩
      rw [contents, contents, hmeta]
      exact hiff
  | promote hlen hmagic hins hext =>
      obtain ⟨f, hforesee, hf⟩ := hins.foreseen rfl hwf.tree hwf.halloc
      obtain ⟨-, hlength, -, hright⟩ := hf.split _ rfl
      rw [hlength] at hext
      refine ⟨.extending (metaAt s.pages).rootLevel (metaAt s.pages).root f.below, ?_, rfl, ?_⟩
      · simp only [insertFailure, hforesee, hright, Option.isSome_some, true_and]
        rw [if_pos hext]
      · rw [contents, contents, hins.metaAt_eq hwf.zero_notMem, hf.below]
        rfl

/-- The root is split and the new root cannot be allocated; but the split has moved the new tuple alone. -/
theorem failed_insert_keeps_wide_rows :
    ∃ e s', temporalRtreeInsert (diskOf 3) wideKey ⟨0, 6⟩ { pages := leafIndex ([1, 2, 3, 4, 5].map wideTuple) } =
        .error e s' ∧ contents (leafIndex ([1, 2, 3, 4, 5].map wideTuple)) ≤ contents s'.pages := by
  have herror : errorWith (fun _ _ => true) (temporalRtreeInsert (diskOf 3) wideKey ⟨0, 6⟩
      { pages := leafIndex ([1, 2, 3, 4, 5].map wideTuple) }) = true := by decide +kernel
  have hpoint : insertFailure (diskOf 3) (leafIndex ([1, 2, 3, 4, 5].map wideTuple)) (wideTuple 6)
      (rtreeCubeToBox wideKey) = some (.extending 0 1 ([1, 2, 3, 4, 5].map wideTuple)) := by decide +kernel
  have hkept : (FailurePoint.extending 0 1 ([1, 2, 3, 4, 5].map wideTuple)).Kept
      (leafIndex ([1, 2, 3, 4, 5].map wideTuple)) := by decide +kernel
  obtain ⟨e, s', hrun, -⟩ := exists_of_errorWith herror
  obtain ⟨point, hfailure, -, hiff⟩ := failed_insert_keeps_iff (leafIndex_wf (by decide +kernel)) hrun
  obtain rfl : point = .extending 0 1 ([1, 2, 3, 4, 5].map wideTuple) :=
    Option.some.inj (hfailure.symm.trans hpoint)
  exact ⟨e, s', hrun, hiff.mpr hkept⟩

/-- The root is split and the new root cannot be allocated: the tuples moved to the right half are lost. -/
theorem failed_promotion_loses_tuples :
    WF (stairs 5).pages ∧
      ∃ e s', temporalRtreeInsert (diskOf 3) (stair 5).key (stair 5).tTid (stairs 5) = .error e s' ∧
        stair 4 ∈ contents (stairs 5).pages ∧ stair 4 ∉ contents s'.pages := by
  have herror : errorWith
      (fun _ s' => decide (stair 4 ∈ contents (stairs 5).pages ∧ stair 4 ∉ contents s'.pages))
      (temporalRtreeInsert (diskOf 3) (stair 5).key (stair 5).tTid (stairs 5)) = true := by decide +kernel
  obtain ⟨e, s', hrun, hlost⟩ := exists_of_errorWith herror
  exact ⟨stairs_wf 5, e, s', hrun, of_decide_eq_true hlost⟩

end TemporalRTree
