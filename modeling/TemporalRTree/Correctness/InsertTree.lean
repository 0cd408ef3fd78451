import TemporalRTree.Correctness.Tree

/-!
# `Correctness.InsertTree` — what a descent does to the tree

A completed descent rewrites the tree it was started at into one tree, or two of the same level if it
returned a split. Nothing outside changes, and the leaf tuples afterwards are the old ones and the new one:
at most these in any case, exactly these when no `PageAddItem` failed. Each case of `Inserts` writes its page over
that page's block and at most one new one (`Tops`), and shares the tuples or downlinks out among them; this is read
off once for leaves and once for inner pages (`Inserts.leaf_tops`, `Inserts.inner_tops`), and what a descent does
follows by induction on the level.
-/

namespace TemporalRTree
open Layout

/-- The trees a descent leaves: the one it was started at and the right half of a split. -/
def resultBlocks (blk : BlockNumber) (res : RTreeInsertResult) : List BlockNumber :=
  blk :: (res.split.map SplitRight.rightBlkno).toList

/-- A descent for `itup` turned the tree of level `level` at `blk` into the trees `ts`. -/
structure InsertSpec (itup : IndexTuple) (pages : List Page) (blk : BlockNumber) (level : Nat)
    (ts : List BlockNumber) (pages' : List Page) (evs : List Event) : Prop where
  update : nodes.Update NodeOk (allocated pages) (allocated pages') (pageAt pages) (pageAt pages') level
    [blk] ts
  leaves_le : (nodes.forestLeaves (pageAt pages') level ts).Subperm
    (itup :: nodes.leaves (pageAt pages) level blk)
  leaves_perm : AddsOk evs → (nodes.forestLeaves (pageAt pages') level ts).Perm
    (itup :: nodes.leaves (pageAt pages) level blk)
  blocks_subset : AddsOk evs → nodes.blocks (pageAt pages) level blk ⊆
    nodes.forestBlocks (pageAt pages') level ts
  levels : ∀ x ∈ allocated pages, (pageAt pages' x).special.level = (pageAt pages x).special.level

theorem allocated_mono {pages pages' : List Page} (h : pages.length ≤ pages'.length) :
    allocated pages ⊆ allocated pages' := fun _ hx => Nat.lt_of_lt_of_le hx h

variable {env : Env} {itup : IndexTuple} {box : RTreeTemporalBox} {pages pages₁ pages' : List Page}
  {blk : BlockNumber} {level : Nat} {evs evs' : List Event}

/-- A descent that takes its start page for a leaf is at level 0. -/
theorem level_eq_zero_of_leaf (hf : nodes.Forest NodeOk (pageAt pages) level [blk])
    (h : level = 0 ∨ (pageAt pages blk).special.flags.leaf = true) : level = 0 :=
  h.elim id (hf.holds blk (List.mem_singleton.mpr rfl)).node.leaf_iff.mp

/-! ## Rewriting a page -/

/-- The page `blk` of `pages` was written over the blocks `ts`: its own and new ones. -/
structure Tops (level : Nat) (pages : List Page) (blk : BlockNumber) (ts : List BlockNumber)
    (pages' : List Page) : Prop where
  length_le : pages.length ≤ pages'.length
  nodup : ts.Nodup
  self_mem : blk ∈ ts
  new : ∀ t ∈ ts, t = blk ∨ (t < pages'.length ∧ pages.length ≤ t)
  nodeOk : ∀ t ∈ ts, NodeOk level (pageAt pages' t)
  frame : ∀ x, x ∉ ts → x ≠ blk → pageAt pages' x = pageAt pages x

section Tops
variable {ts : List BlockNumber}

theorem Tops.new_alloc (h : Tops level pages blk ts pages') :
    ∀ t ∈ ts, t = blk ∨ (t ∈ allocated pages' ∧ t ∉ allocated pages) := fun t ht =>
  (h.new t ht).imp_right fun ht => ⟨ht.1, Nat.not_lt.mpr ht.2⟩

theorem Tops.set {page' : DataPage} (hblk : blk < pages.length) (hp : NodeOk level page') :
    Tops level pages blk [blk] (pages.set blk (.data page')) where
  length_le := by rw [List.length_set]
  nodup := List.nodup_singleton blk
  self_mem := List.mem_singleton.mpr rfl
  new _ ht := Or.inl (List.mem_singleton.mp ht)
  nodeOk t ht := by
    rw [List.mem_singleton.mp ht, pageAt_set_self hblk]
    exact hp
  frame _ _ hx := pageAt_set_ne hx

/-- The page may have been changed in place before. -/
theorem Tops.of_set {q : Page} (h : Tops level (pages.set blk q) blk ts pages') : Tops level pages blk ts pages' where
  length_le := by simpa using h.length_le
  nodup := h.nodup
  self_mem := h.self_mem
  new t ht := by simpa using h.new t ht
  nodeOk := h.nodeOk
  frame x hx hne := by rw [h.frame x hx hne, pageAt_set_ne hne]

end Tops

/-! ## At a leaf -/

/-- A leaf written over its own block and new ones. -/
theorem insertSpec_leaf {ts : List BlockNumber} (hblk : blk < pages.length) (hp : NodeOk 0 (pageAt pages blk))
    (htops : Tops 0 pages blk ts pages')
    (hle : (ts.flatMap fun t => (pageAt pages' t).items).Subperm ((pageAt pages blk).items ++ [itup]))
    (hperm : AddsOk evs →
      (ts.flatMap fun t => (pageAt pages' t).items).Perm ((pageAt pages blk).items ++ [itup])) :
    InsertSpec itup pages blk 0 ts pages' evs where
  update := Update.leafTops hblk (allocated_mono htops.length_le) htops.nodup htops.new_alloc htops.nodeOk htops.frame
  leaves_le := hle.trans (List.perm_append_singleton _ _).subperm
  leaves_perm h := (hperm h).trans (List.perm_append_singleton _ _)
  blocks_subset _ x hx := by
    obtain rfl := List.mem_singleton.mp hx
    rw [forestBlocks_zero]
    exact htops.self_mem
  levels x hx := by
    by_cases hxb : x = blk
    · rw [hxb, (htops.nodeOk blk htops.self_mem).level_eq, hp.level_eq]
    · rw [htops.frame x (fun ht => ((htops.new x ht).resolve_left hxb).2.not_gt hx) hxb]

/-! ## At an inner page -/

theorem ChoosesChild.mem_kids {page : DataPage} {pos : Nat} {childitup : IndexTuple}
    (h : ChoosesChild page box pos childitup) : childitup.tTid.blkno ∈ nodes.kids page :=
  List.mem_map_of_mem (List.mem_of_getElem? h.item)

theorem ChoosesChild.blocks_subset {pos : Nat} {childitup : IndexTuple}
    (h : ChoosesChild (pageAt pages blk) box pos childitup) :
    nodes.blocks (pageAt pages) level childitup.tTid.blkno ⊆ nodes.blocks (pageAt pages) (level + 1) blk :=
  fun _ hx => List.mem_cons_of_mem _ (blocks_subset_forest h.mem_kids hx)

/-- The followed downlink and the other ones. -/
theorem ChoosesChild.kids_perm {page : DataPage} {pos : Nat} {childitup : IndexTuple}
    (h : ChoosesChild page box pos childitup) :
    ∃ rest, (childitup.tTid.blkno :: rest).Perm (nodes.kids page) := by
  obtain ⟨l₁, l₂, he⟩ := List.append_of_mem h.mem_kids
  exact ⟨l₁ ++ l₂, he ▸ List.perm_middle.symm⟩

/-- The tree the recursive call of an inner page starts from. -/
theorem ChoosesChild.forest {pos : Nat} {childitup : IndexTuple}
    (hchild : ChoosesChild (pageAt pages blk) box pos childitup)
    (hf : nodes.Forest NodeOk (pageAt pages) (level + 1) [blk])
    (halloc : ∀ x ∈ nodes.forestBlocks (pageAt pages) (level + 1) [blk], x ∈ allocated pages) :
    nodes.Forest NodeOk (pageAt pages) level [childitup.tTid.blkno] ∧
      ∀ x ∈ nodes.forestBlocks (pageAt pages) level [childitup.tTid.blkno], x ∈ allocated pages := by
  have hsub : [childitup.tTid.blkno].Subperm (nodes.kids (pageAt pages blk)) :=
    (List.singleton_sublist.mpr hchild.mem_kids).subperm
  refine ⟨hf.kids.2.1.subperm hsub, fun x hx => halloc x ?_⟩
  simpa [blocks_succ] using Or.inr ((forestBlocks_subperm hsub).subset hx)

/-- The other children of an inner page, beside the trees the recursive call made of the followed one. -/
theorem InsertSpec.siblings {new rest : List BlockNumber} {c : BlockNumber}
    (ih : InsertSpec itup pages c level (c :: new) pages₁ evs)
    (hf : nodes.Forest NodeOk (pageAt pages) (level + 1) [blk])
    (halloc : ∀ x ∈ nodes.forestBlocks (pageAt pages) (level + 1) [blk], x ∈ allocated pages)
    (hrest : (c :: rest).Perm (nodes.kids (pageAt pages blk))) :
    nodes.Forest NodeOk (pageAt pages) level ([c] ++ rest) ∧
      (∀ x ∈ nodes.forestBlocks (pageAt pages) level rest, x ∈ allocated pages) ∧
      nodes.Update NodeOk (allocated pages) (allocated pages₁) (pageAt pages) (pageAt pages₁) level
        (nodes.kids (pageAt pages blk)) ((c :: new) ++ rest) := by
  have hf' : nodes.Forest NodeOk (pageAt pages) level ([c] ++ rest) := hf.kids.2.1.subperm hrest.subperm
  have hin : ∀ x ∈ nodes.forestBlocks (pageAt pages) level rest, x ∈ allocated pages := by
    intro x hx
    refine halloc x ?_
    simp only [forestBlocks_cons, forestBlocks_nil, List.append_nil, blocks_succ]
    refine List.mem_cons_of_mem _ ((hrest.flatMap_right (nodes.blocks (pageAt pages) level)).subset ?_)
    exact List.mem_append_right _ hx
  exact ⟨hf', hin, (ih.update.append hf' hin).perm_left hrest.symm⟩

/-- The leaf tuples below an inner page, before and after: those of the child's trees and of the untouched
    siblings. -/
theorem InsertSpec.inner_leaves {ts new rest : List BlockNumber} {c : BlockNumber}
    (ih : InsertSpec itup pages c level (c :: new) pages₁ evs)
    (hf : nodes.Forest NodeOk (pageAt pages) (level + 1) [blk])
    (halloc : ∀ x ∈ nodes.forestBlocks (pageAt pages) (level + 1) [blk], x ∈ allocated pages)
    (hrest : (c :: rest).Perm (nodes.kids (pageAt pages blk)))
    (htops : Tops (level + 1) pages₁ blk ts pages')
    (hle : (ts.flatMap fun t => nodes.kids (pageAt pages' t)).Subperm ((c :: new) ++ rest)) :
    (nodes.leaves (pageAt pages) (level + 1) blk).Perm
        (nodes.leaves (pageAt pages) level c ++ nodes.forestLeaves (pageAt pages) level rest) ∧
      nodes.forestLeaves (pageAt pages') (level + 1) ts =
        nodes.forestLeaves (pageAt pages₁) level (ts.flatMap fun t => nodes.kids (pageAt pages' t)) ∧
      nodes.forestLeaves (pageAt pages₁) level ((c :: new) ++ rest) =
        nodes.forestLeaves (pageAt pages₁) level (c :: new) ++
          nodes.forestLeaves (pageAt pages) level rest := by
  obtain ⟨hf', hin, hupd⟩ := ih.siblings hf halloc hrest
  exact ⟨forestLeaves_perm hrest.symm,
    forestLeaves_ofTops hle (hupd.tops_frame hf halloc htops.new_alloc htops.frame),
    ih.update.append_leaves hf' hin⟩

theorem kids_perm_siblings {new rest : List BlockNumber} {c : BlockNumber}
    (hrest : (c :: rest).Perm (nodes.kids (pageAt pages blk))) :
    (nodes.kids (pageAt pages blk) ++ new).Perm ((c :: new) ++ rest) :=
  (hrest.symm.append_right _).trans (List.perm_append_comm.cons c)

/-- **The inner step.** The child's tree became `c :: new`; the page, rewritten over `ts`, keeps downlinks to
    at most its old kids and `new`, and to all of them when no `PageAddItem` failed. -/
theorem insertSpec_inner {ts new rest : List BlockNumber} {c : BlockNumber}
    (hf : nodes.Forest NodeOk (pageAt pages) (level + 1) [blk])
    (halloc : ∀ x ∈ nodes.forestBlocks (pageAt pages) (level + 1) [blk], x ∈ allocated pages)
    (hrest : (c :: rest).Perm (nodes.kids (pageAt pages blk)))
    (ih : InsertSpec itup pages c level (c :: new) pages₁ evs)
    (htops : Tops (level + 1) pages₁ blk ts pages')
    (hle : (ts.flatMap fun t => nodes.kids (pageAt pages' t)).Subperm
      (nodes.kids (pageAt pages blk) ++ new))
    (hperm : AddsOk evs' → AddsOk evs ∧ (ts.flatMap fun t => nodes.kids (pageAt pages' t)).Perm
      (nodes.kids (pageAt pages blk) ++ new)) :
    InsertSpec itup pages blk (level + 1) ts pages' evs' := by
  have hkids : (nodes.kids (pageAt pages blk) ++ new).Perm ((c :: new) ++ rest) := kids_perm_siblings hrest
  have hk := hle.trans hkids.subperm
  obtain ⟨hf', hin, hupd⟩ := ih.siblings hf halloc hrest
  have hframe := hupd.tops_frame hf halloc htops.new_alloc htops.frame
  obtain ⟨hbefore, hleaves, hafter⟩ := ih.inner_leaves hf halloc hrest htops hk
  refine ⟨hupd.upTops hf halloc (allocated_mono htops.length_le) htops.new_alloc htops.frame htops.nodup
    htops.nodeOk hk, ?_, ?_, ?_, ?_⟩
  · rw [hleaves]
    refine (forestLeaves_subperm hk).trans ?_
    rw [hafter]
    exact ((List.subperm_append_right _).mpr ih.leaves_le).trans (hbefore.symm.cons itup).subperm
  · intro hok
    obtain ⟨hok₁, hshared⟩ := hperm hok
    rw [hleaves]
    refine (forestLeaves_perm (hshared.trans hkids)).trans ?_
    rw [hafter]
    exact ((ih.leaves_perm hok₁).append_right _).trans (hbefore.symm.cons itup)
  · intro hok x hx
    obtain ⟨hok₁, hshared⟩ := hperm hok
    refine (forestBlocks_succ_perm ts).mem_iff.mpr (List.mem_append.mpr ?_)
    rcases List.mem_cons.mp hx with rfl | hx
    · exact Or.inl htops.self_mem
    · refine Or.inr ?_
      rw [forestBlocks_congr (tops_congr hk hframe)]
      refine ((hshared.trans hkids).flatMap_right (nodes.blocks (pageAt pages₁) level)).mem_iff.mpr ?_
      have hx' := (hrest.symm.flatMap_right (nodes.blocks (pageAt pages) level)).subset hx
      rw [List.flatMap_append]
      rcases List.mem_append.mp hx' with hx' | hx'
      · exact List.mem_append_left _ (ih.blocks_subset hok₁ hx')
      · refine List.mem_append_right _ ?_
        show x ∈ nodes.forestBlocks (pageAt pages₁) level rest
        rw [forestBlocks_congr (ih.update.frame_rest hf' hin)]
        exact hx'
  · intro x hx
    by_cases hxb : x = blk
    · rw [hxb, (htops.nodeOk blk htops.self_mem).level_eq, hf.kids.1.level_eq]
    · have hx₁ : x ∈ allocated pages₁ := ih.update.alloc_le hx
      rw [htops.frame x (fun ht => ((htops.new_alloc x ht).resolve_left hxb).2 hx₁) hxb, ih.levels x hx]

/-- What the recursive call of an inner page starts from and leaves alone. -/
theorem ChoosesChild.descend {pos : Nat} {childitup : IndexTuple} {ts : List BlockNumber}
    (hchild : ChoosesChild (pageAt pages blk) box pos childitup)
    (hf : nodes.Forest NodeOk (pageAt pages) (level + 1) [blk])
    (halloc : ∀ x ∈ nodes.forestBlocks (pageAt pages) (level + 1) [blk], x ∈ allocated pages)
    (ih : nodes.Forest NodeOk (pageAt pages) level [childitup.tTid.blkno] →
      (∀ x ∈ nodes.forestBlocks (pageAt pages) level [childitup.tTid.blkno], x ∈ allocated pages) →
      InsertSpec itup pages childitup.tTid.blkno level ts pages₁ evs) :
    InsertSpec itup pages childitup.tTid.blkno level ts pages₁ evs ∧
      pageAt pages₁ blk = pageAt pages blk := by
  obtain ⟨hf', halloc'⟩ := hchild.forest hf halloc
  have hspec := ih hf' halloc'
  refine ⟨hspec, hspec.update.frame blk (halloc blk (by simp [self_mem_blocks])) fun hx => ?_⟩
  exact hf.kids.2.2 (blocks_subset_forest hchild.mem_kids (by simpa using hx))

/-! ## Pages of a node after the change -/

/-- A page with other tuples, as long as they have keys, is as good for its level. -/
theorem NodeOk.of_items {page page' : DataPage} (h : NodeOk level page)
    (hspecial : page'.special = page.special) (hkeys : ∀ t ∈ page'.items, t.key.isSome = true)
    (hne : page'.items ≠ []) : NodeOk level page' where
  level_eq := by rw [hspecial]; exact h.level_eq
  leaf_iff := by rw [hspecial]; exact h.leaf_iff
  keys := hkeys
  inner_ne _ := hne

theorem rtreeFormTuple_key (b : RTreeTemporalBox) (tid : ItemPointerData) :
    (rtreeFormTuple b tid).key.isSome = true := rfl

/-- The two halves of a page fit its level. -/
theorem SplitSpec.nodeOk {page left right : DataPage} {newitup : IndexTuple} {results : List Bool}
    (h : SplitSpec page newitup level page.special.flags.leaf left right results)
    (hp : NodeOk level page) (hkey : newitup.key.isSome = true) :
    NodeOk level left ∧ NodeOk level right := by
  have hkeys : ∀ t ∈ left.items ++ right.items, t.key.isSome = true := by
    intro t ht
    rcases List.mem_append.mp (h.items_le.subset ht) with ht | ht
    · exact hp.keys t ht
    · rw [List.mem_singleton.mp ht]
      exact hkey
  exact ⟨⟨h.level_left, by rw [h.leaf_left]; exact hp.leaf_iff,
      fun t ht => hkeys t (List.mem_append_left _ ht), fun hl => h.left_ne (hp.inner_ne hl)⟩,
    ⟨h.level_right, by rw [h.leaf_right]; exact hp.leaf_iff,
      fun t ht => hkeys t (List.mem_append_right _ ht), fun hl => h.right_ne (hp.inner_ne hl)⟩⟩

/-- Refreshing the followed downlink keeps the page fit and its kids the same. -/
theorem ChoosesChild.replace {page page₂ : DataPage} {pos : Nat} {childitup : IndexTuple}
    {childBox : RTreeTemporalBox} (h : ChoosesChild page box pos childitup) (hp : NodeOk level page)
    (hrep : rtreeReplaceTuple page (pos + 1) (rtreeFormTuple childBox childitup.tTid) = some page₂) :
    NodeOk level page₂ ∧ nodes.kids page₂ = nodes.kids page ∧ page₂.special = page.special := by
  obtain ⟨hpos, hget⟩ := List.getElem?_eq_some_iff.mp h.item
  obtain ⟨hitems, hspecial⟩ := rtreeReplaceTuple_items hpos hrep
  refine ⟨hp.of_items hspecial ?_ ?_, ?_, hspecial⟩
  · intro t ht
    rw [hitems] at ht
    rcases List.mem_or_eq_of_mem_set ht with ht | rfl
    · exact hp.keys t ht
    · exact rtreeFormTuple_key _ _
  · rw [hitems, ← List.length_pos_iff, List.length_set]
    exact Nat.lt_of_le_of_lt (Nat.zero_le _) hpos
  · have hself := List.set_getElem_self
      (show pos < (page.items.map fun t => t.tTid.blkno).length by simpa using hpos)
    rw [List.getElem_map, hget] at hself
    simp only [nodes, hitems, List.map_set]
    exact hself

/-- The child's tree and the page after the recursive call, once the downlink is refreshed. -/
theorem ChoosesChild.refreshed {pos : Nat} {childitup : IndexTuple} {childBox : RTreeTemporalBox}
    {page₂ : DataPage} {ts : List BlockNumber} (hchild : ChoosesChild (pageAt pages blk) box pos childitup)
    (hf : nodes.Forest NodeOk (pageAt pages) (level + 1) [blk])
    (halloc : ∀ x ∈ nodes.forestBlocks (pageAt pages) (level + 1) [blk], x ∈ allocated pages)
    (ih : nodes.Forest NodeOk (pageAt pages) level [childitup.tTid.blkno] →
      (∀ x ∈ nodes.forestBlocks (pageAt pages) level [childitup.tTid.blkno], x ∈ allocated pages) →
      InsertSpec itup pages childitup.tTid.blkno level ts pages₁ evs)
    (hrep : rtreeReplaceTuple (pageAt pages₁ blk) (pos + 1)
      (rtreeFormTuple childBox childitup.tTid) = some page₂) :
    InsertSpec itup pages childitup.tTid.blkno level ts pages₁ evs ∧ NodeOk (level + 1) page₂ ∧
      nodes.kids page₂ = nodes.kids (pageAt pages blk) := by
  obtain ⟨hspec, hsame⟩ := hchild.descend hf halloc ih
  rw [hsame] at hrep
  obtain ⟨hp₂, hkids, -⟩ := hchild.replace (hf.holds blk (by simp)).node hrep
  exact ⟨hspec, hp₂, hkids⟩

/-- The tuple of a new downlink links to the new page. -/
theorem kids_append_rightTuple (items : List IndexTuple) (right : SplitRight) :
    (items ++ [rightTuple right]).map (fun t => t.tTid.blkno) =
      items.map (fun t => t.tTid.blkno) ++ [right.rightBlkno] := by
  simp [rtreeFormTuple, childTid]

/-- Adding a downlink to a page keeps it fit. -/
theorem NodeOk.addLink {page₂ page₃ : DataPage} {right : SplitRight} (h : NodeOk level page₂)
    (hadd : pageAddItem page₂ (rightTuple right) invalidOffsetNumber = some page₃) :
    NodeOk level page₃ ∧ nodes.kids page₃ = nodes.kids page₂ ++ [right.rightBlkno] := by
  obtain ⟨hitems, hspecial⟩ := pageAddItem_items hadd
  refine ⟨h.of_items hspecial ?_ (by simp [hitems]), ?_⟩
  · intro t ht
    rw [hitems, List.mem_append, List.mem_singleton] at ht
    exact ht.elim (h.keys t) fun h => h ▸ rtreeFormTuple_key _ _
  · show page₃.items.map _ = _
    rw [hitems]
    exact kids_append_rightTuple _ _

@[simp] theorem addsOk_walRecord {images : List (BlockNumber × Page)} : AddsOk (walRecord env images) := by
  unfold walRecord
  split <;> simp

theorem addsOk_splitTrace_iff {newitup : IndexTuple} {newbox : RTreeTemporalBox} {flags : PageFlags} :
    AddsOk (splitTrace env pages blk newitup newbox level flags) ↔
      ∀ ok ∈ (splitLeft (pageAt pages blk) newitup newbox level flags pages.length).2 ++
        (splitRight (pageAt pages blk) newitup newbox level flags).2, ok = true := by
  rw [List.forall_mem_append]
  simp [splitTrace, addsOk_map_addItem, addsOk_walRecord]

/-- A page split over its block and a new one: both halves are fit and share out the tuples. -/
theorem splitPages_spec (env : Env) (pages : List Page) {newitup : IndexTuple} (newbox : RTreeTemporalBox)
    (hblk : blk < pages.length)
    (hp : NodeOk level (pageAt pages blk)) (hkey : newitup.key.isSome = true) :
    let pages' := splitPages pages blk newitup newbox level (pageAt pages blk).special.flags
    Tops level pages blk [blk, pages.length] pages' ∧
      ([blk, pages.length].flatMap fun t => (pageAt pages' t).items).Subperm
        ((pageAt pages blk).items ++ [newitup]) ∧
      (AddsOk (splitTrace env pages blk newitup newbox level (pageAt pages blk).special.flags) ↔
        ([blk, pages.length].flatMap fun t => (pageAt pages' t).items).Perm
          ((pageAt pages blk).items ++ [newitup])) := by
  intro pages'
  have hspec := split_spec (pageAt pages blk) newitup newbox level (pageAt pages blk).special.flags
    pages.length
  have hl : pageAt pages' blk = _ := pageAt_splitPages_left hblk
  have hr : pageAt pages' pages.length = _ := pageAt_splitPages_right
  obtain ⟨hleft, hright⟩ := hspec.nodeOk hp hkey
  refine ⟨⟨by simp [pages'], by simpa using Nat.ne_of_lt hblk, by simp, by simp [pages'], ?_, ?_⟩, ?_, ?_⟩
  · simp only [List.mem_cons, List.not_mem_nil, or_false, forall_eq_or_imp, forall_eq, hl, hr]
    exact ⟨hleft, hright⟩
  · intro x hx hne
    exact pageAt_splitPages_of_ne hne fun he => hx (by simp [he])
  · simpa [hl, hr] using hspec.items_le
  · simpa [hl, hr] using addsOk_splitTrace_iff.trans (split_perm_iff _ _ _ _ _ _).symm

/-! ## The cases of a descent -/

theorem subperm_perm_map_iff {α β : Type} {l l' : List α} (h : l.Subperm l') (f : α → β) :
    l.Perm l' ↔ (l.map f).Perm (l'.map f) := by
  refine ⟨fun hp => hp.map f, fun hp => h.perm_of_length_le ?_⟩
  have hlen := hp.length_eq
  rw [List.length_map, List.length_map] at hlen
  exact hlen.ge

/-- A page that is written and split for one more downlink: the halves share out the downlinks. -/
theorem splitPages_kids (env : Env) (pages : List Page) {page₂ : DataPage} (right : SplitRight)
    (hblk : blk < pages.length) (hp : NodeOk level page₂) :
    let pages₂ := pages.set blk (.data page₂)
    let pages' := splitPages pages₂ blk (rightTuple right) right.rightBox level page₂.special.flags
    Tops level pages blk [blk, pages.length] pages' ∧
      ([blk, pages.length].flatMap fun t => nodes.kids (pageAt pages' t)).Subperm
        (nodes.kids page₂ ++ [right.rightBlkno]) ∧
      (AddsOk (splitTrace env pages₂ blk (rightTuple right) right.rightBox level page₂.special.flags) ↔
        ([blk, pages.length].flatMap fun t => nodes.kids (pageAt pages' t)).Perm
          (nodes.kids page₂ ++ [right.rightBlkno])) := by
  intro pages₂ pages'
  have hself : pageAt pages₂ blk = page₂ := pageAt_set_self hblk
  have hlen : pages₂.length = pages.length := List.length_set
  obtain ⟨htops, hle, hiff⟩ := splitPages_spec env pages₂ right.rightBox (by rwa [hlen])
    (hself.symm ▸ hp) (rtreeFormTuple_key right.rightBox (childTid right.rightBlkno))
  rw [hself, hlen] at htops hle hiff
  have hkids : nodes.kids page₂ ++ [right.rightBlkno] =
      (page₂.items ++ [rightTuple right]).map fun t => t.tTid.blkno :=
    (kids_append_rightTuple _ _).symm
  refine ⟨htops.of_set, ?_, ?_⟩
  · rw [hkids, flatMap_kids]
    obtain ⟨l, hl, hs⟩ := hle
    exact ⟨l.map _, hl.map _, hs.map _⟩
  · -- a lost tuple is a lost downlink, since the tuples are no more than before
    rw [hkids, flatMap_kids, ← subperm_perm_map_iff hle fun t => t.tTid.blkno]
    exact hiff

/-- **A completed descent into a leaf** writes it over its block and at most one new one. -/
theorem Inserts.leaf_tops {res : RTreeInsertResult} (h : Inserts env itup box pages blk 0 res pages' evs)
    (hkey : itup.key.isSome = true) (hp : NodeOk 0 (pageAt pages blk)) :
    blk < pages.length ∧ Tops 0 pages blk (resultBlocks blk res) pages' ∧
      ((resultBlocks blk res).flatMap fun t => (pageAt pages' t).items).Subperm
        ((pageAt pages blk).items ++ [itup]) ∧
      (AddsOk evs ↔ ((resultBlocks blk res).flatMap fun t => (pageAt pages' t).items).Perm
        ((pageAt pages blk).items ++ [itup])) := by
  cases h with
  | @leafAdd _ _ page' hblk hleaf hroom hadd =>
      obtain ⟨hitems, hspecial⟩ := pageAddItem_items hadd
      have hself : pageAt (pages.set blk (.data page')) blk = page' := pageAt_set_self hblk
      have hp' : NodeOk 0 page' := by
        refine hp.of_items hspecial ?_ (by simp [hitems])
        intro t ht
        rw [hitems, List.mem_append, List.mem_singleton] at ht
        exact ht.elim (hp.keys t) fun h => h ▸ hkey
      refine ⟨hblk, Tops.set hblk hp', ?_, ?_⟩
      · simpa [resultBlocks, hself, hitems] using List.Subperm.refl _
      · simp [resultBlocks, hself, hitems, changeTrace]
  | leafSplit hblk hleaf hfull hext =>
      rw [hp.level_eq]
      obtain ⟨htops, hle, hiff⟩ := splitPages_spec env pages box hblk hp hkey
      refine ⟨hblk, htops, hle, ?_⟩
      rw [show resultBlocks blk (splitResult pages blk itup box 0 (pageAt pages blk).special.flags)
        = [blk, pages.length] from rfl, ← hiff]
      simp

/-- **A completed descent into an inner page** goes into a child; what becomes of the child's tree given, the page
    is written over its block and at most one new one. -/
theorem Inserts.inner_tops {res : RTreeInsertResult} (h : Inserts env itup box pages blk (level + 1) res pages' evs)
    (hf : nodes.Forest NodeOk (pageAt pages) (level + 1) [blk])
    (halloc : ∀ x ∈ nodes.forestBlocks (pageAt pages) (level + 1) [blk], x ∈ allocated pages)
    (ih : ∀ {c childres pages₁ evs₁}, Inserts env itup box pages c level childres pages₁ evs₁ →
      nodes.Forest NodeOk (pageAt pages) level [c] →
      (∀ x ∈ nodes.forestBlocks (pageAt pages) level [c], x ∈ allocated pages) →
      InsertSpec itup pages c level (resultBlocks c childres) pages₁ evs₁) :
    ∃ c new rest pages₁ evs₁ childres, Inserts env itup box pages c level childres pages₁ evs₁ ∧
      resultBlocks c childres = c :: new ∧ (c :: rest).Perm (nodes.kids (pageAt pages blk)) ∧
      InsertSpec itup pages c level (c :: new) pages₁ evs₁ ∧
      Tops (level + 1) pages₁ blk (resultBlocks blk res) pages' ∧
      ((resultBlocks blk res).flatMap fun t => nodes.kids (pageAt pages' t)).Subperm
        (nodes.kids (pageAt pages blk) ++ new) ∧
      (AddsOk evs ↔ AddsOk evs₁ ∧ ((resultBlocks blk res).flatMap fun t => nodes.kids (pageAt pages' t)).Perm
        (nodes.kids (pageAt pages blk) ++ new)) := by
  have hp := (hf.holds blk (by simp)).node
  have hinner : ¬ (level + 1 = 0 ∨ (pageAt pages blk).special.flags.leaf = true) := by
    rintro (h | h)
    · exact Nat.succ_ne_zero _ h
    · exact Nat.succ_ne_zero _ (hp.leaf_iff.mp h)
  cases h with
  | leafAdd hblk hleaf => exact absurd hleaf hinner
  | leafSplit hblk hleaf => exact absurd hleaf hinner
  | @innerKeep pages₁ _ _ pos childitup childBox page₂ evs hblk hchild hrec hrep =>
      obtain ⟨rest, hrest⟩ := hchild.kids_perm
      obtain ⟨hspec, hp₂, hkids⟩ := hchild.refreshed hf halloc (ih hrec) hrep
      have hblk₁ : blk < pages₁.length := Nat.lt_of_lt_of_le hblk hrec.length_le
      have hself : pageAt (pages₁.set blk (.data page₂)) blk = page₂ := pageAt_set_self hblk₁
      refine ⟨_, [], rest, pages₁, evs, _, hrec, rfl, hrest, hspec, Tops.set hblk₁ hp₂, ?_, ?_⟩
      · simpa [resultBlocks, hself, hkids] using List.Subperm.refl _
      · simp [resultBlocks, hself, hkids, changeTrace]
  | @innerAdd pages₁ _ _ pos childitup childBox right page₂ page₃ evs hblk hchild hrec hrep hroom hadd =>
      obtain ⟨rest, hrest⟩ := hchild.kids_perm
      obtain ⟨hspec, hp₂, hkids⟩ := hchild.refreshed hf halloc (ih hrec) hrep
      obtain ⟨hp₃, hkids₃⟩ := hp₂.addLink hadd
      rw [hkids] at hkids₃
      have hblk₁ : blk < pages₁.length := Nat.lt_of_lt_of_le hblk hrec.length_le
      have hself : pageAt (pages₁.set blk (.data page₃)) blk = page₃ := pageAt_set_self hblk₁
      refine ⟨_, [right.rightBlkno], rest, pages₁, evs, _, hrec, rfl, hrest, hspec, Tops.set hblk₁ hp₃, ?_, ?_⟩
      · simpa [resultBlocks, hself, hkids₃] using List.Subperm.refl _
      · simp [resultBlocks, hself, hkids₃, changeTrace]
  | @innerSplit pages₁ _ _ pos childitup childBox right page₂ evs hblk hchild hrec hrep hfull hext =>
      obtain ⟨rest, hrest⟩ := hchild.kids_perm
      obtain ⟨hspec, hp₂, hkids⟩ := hchild.refreshed hf halloc (ih hrec) hrep
      have hblk₁ : blk < pages₁.length := Nat.lt_of_lt_of_le hblk hrec.length_le
      obtain ⟨htops, hle, hiff⟩ := splitPages_kids env pages₁ right hblk₁ hp₂
      have hts : resultBlocks blk (splitResult (pages₁.set blk (.data page₂)) blk (rightTuple right)
          right.rightBox (level + 1) page₂.special.flags) = [blk, pages₁.length] := by
        simp [resultBlocks, splitResult]
      rw [hkids] at hle hiff
      rw [hts]
      refine ⟨_, [right.rightBlkno], rest, pages₁, evs, _, hrec, rfl, hrest, hspec, htops, hle, ?_⟩
      rw [← hiff]
      simp

/-! ## The induction -/

/-- **A completed descent inserts one tuple into the tree it was started at.** -/
theorem Inserts.spec {res : RTreeInsertResult} (h : Inserts env itup box pages blk level res pages' evs)
    (hkey : itup.key.isSome = true)
    (hf : nodes.Forest NodeOk (pageAt pages) level [blk])
    (halloc : ∀ x ∈ nodes.forestBlocks (pageAt pages) level [blk], x ∈ allocated pages) :
    InsertSpec itup pages blk level (resultBlocks blk res) pages' evs := by
  induction level generalizing blk res pages' evs with
  | zero =>
      have hp := (hf.holds blk (by simp)).node
      obtain ⟨hblk, htops, hle, hiff⟩ := h.leaf_tops hkey hp
      exact insertSpec_leaf hblk hp htops hle hiff.mp
  | succ level ih =>
      obtain ⟨c, new, rest, pages₁, evs₁, childres, -, -, hrest, hspec, htops, hle, hiff⟩ :=
        h.inner_tops hf halloc fun hrec => ih hrec
      exact insertSpec_inner hf halloc hrest hspec htops hle hiff.mp

end TemporalRTree
