import TemporalRTree.Correctness.Operations

/-!
# `Correctness.PageRoom` — where the bytes of a page run out

Two places of the code count on room that nothing guarantees.

- **Splits.** `rtree_split_page` refills two pages and ignores the results of `PageAddItem`. `tr_picksplit`
  may leave a single tuple on one side, so with tuples of different sizes the other side need not fit
  (`split_keeps_tuples_iff`).
- **Downlinks.** `rtree_replace_tuple` puts a new downlink in the place of the old one. A downlink to a point takes
  32 bytes and any other 48, so the first time a child is no longer a point sixteen bytes are needed that the
  free-space check does not keep free (`downlink_update_iff`).
-/

namespace TemporalRTree
open EStateM Layout

/-! ## Bytes -/

/-- The tuples fit on an empty page. -/
def FitOnPage (items : List IndexTuple) : Prop := pdLower items + tupleBytes items ≤ pdSpecial

instance (items : List IndexTuple) : Decidable (FitOnPage items) := inferInstanceAs (Decidable (_ ≤ _))

theorem fitOnPage_concat {items : List IndexTuple} {t : IndexTuple} :
    FitOnPage (items ++ [t]) ↔
      pdLower items + 4 + (tupleBytes items + maxalign (indexTupleSize t)) ≤ pdSpecial := by
  unfold FitOnPage pdLower
  rw [tupleBytes_append, List.length_append, List.length_singleton]
  show _ + (_ + tupleBytes [t]) ≤ _ ↔ _
  simp only [tupleBytes, List.map_cons, List.map_nil, List.sum_cons, List.sum_nil]
  omega

theorem FitOnPage.of_append {items more : List IndexTuple} (h : FitOnPage (items ++ more)) :
    FitOnPage items := by
  unfold FitOnPage pdLower at *
  rw [tupleBytes_append, List.length_append] at h
  omega

/-- The free-space check passes exactly if four bytes would be left. -/
theorem hasRoom_iff {page : DataPage} {t : IndexTuple} :
    hasRoom page t = true ↔
      pdLower (page.items ++ [t]) + tupleBytes (page.items ++ [t]) + 4 ≤ pdSpecial := by
  have hbytes : tupleBytes (page.items ++ [t]) = tupleBytes page.items + maxalign (indexTupleSize t) := by
    rw [tupleBytes_append]
    simp [tupleBytes]
  have hlower : pdLower (page.items ++ [t]) = pdLower page.items + 4 := by
    unfold pdLower
    rw [List.length_append, List.length_singleton]
    omega
  rw [hbytes, hlower]
  simp only [hasRoom, pageGetFreeSpace, ge_iff_le, decide_eq_true_eq]
  split <;> omega

/-- `PageAddItem` at the end fails exactly if the tuple does not fit. -/
theorem pageAddItem_eq_none_iff {page : DataPage} {t : IndexTuple} :
    pageAddItem page t invalidOffsetNumber = none ↔ ¬ FitOnPage (page.items ++ [t]) := by
  rw [fitOnPage_concat]
  simp [pageAddItem]

/-- A run of `PageAddItem` calls succeeds throughout exactly if all the tuples fit. -/
theorem addItems_all_iff (page : DataPage) (itups : List IndexTuple) :
    (∀ ok ∈ (addItems page itups).2, ok = true) ↔ FitOnPage (page.items ++ itups) := by
  induction itups generalizing page with
  | nil =>
      rw [List.append_nil]
      exact ⟨fun _ => page.fits, fun _ ok hok => absurd hok List.not_mem_nil⟩
  | cons t rest ih =>
      have happend : page.items ++ t :: rest = (page.items ++ [t]) ++ rest := by simp
      cases hadd : pageAddItem page t invalidOffsetNumber with
      | some page' =>
          rw [happend, ← (pageAddItem_items hadd).1, ← ih page']
          simp [addItems, hadd]
      | none =>
          rw [happend]
          constructor
          · intro hall
            exact absurd (hall false (by simp [addItems, hadd])) (by decide)
          · intro hfit
            exact absurd hfit.of_append (pageAddItem_eq_none_iff.mp hadd)

/-! ## Splits -/

section Split
variable (page : DataPage) (newitup : IndexTuple) (newbox : RTreeTemporalBox)

/-- The tuples `tr_picksplit` puts on the left. -/
def leftItems : List IndexTuple := pickItems (splitItems page newitup) (splitIdxs page newbox).1

/-- The tuples `tr_picksplit` puts on the right. -/
def rightItems : List IndexTuple := pickItems (splitItems page newitup) (splitIdxs page newbox).2

variable (level : Nat) (flags : PageFlags) (rightblk : BlockNumber)

/-- The refill loops succeed exactly if either side fits. -/
theorem split_results_iff :
    (∀ ok ∈ (splitLeft page newitup newbox level flags rightblk).2 ++
      (splitRight page newitup newbox level flags).2, ok = true) ↔
      FitOnPage (leftItems page newitup newbox) ∧ FitOnPage (rightItems page newitup newbox) := by
  have hleft := addItems_all_iff (linkedDatapage { flags with root := false } level rightblk)
    (leftItems page newitup newbox)
  have hright := addItems_all_iff (linkedDatapage { flags with root := false } level page.special.rightlink)
    (rightItems page newitup newbox)
  rw [show ∀ r, (linkedDatapage { flags with root := false } level r).items = [] from fun _ => rfl,
    List.nil_append] at hleft hright
  rw [← hleft, ← hright, List.forall_mem_append]
  rfl

end Split

/-- **A completed `rtree_split_page` keeps every tuple, and no `PageAddItem` of its refill loops fails, exactly
    if the tuples picked for each side fit on a page.** It completes whenever a block can be had; that its work arrays
    hold the tuples is not part of this. -/
theorem split_keeps_tuples_iff (env : Env) (s : Rel) (blk : BlockNumber) (newitup : IndexTuple)
    (newbox : RTreeTemporalBox) (level : Nat) (flags : PageFlags) (hblk : blk < s.pages.length)
    (hext : canExtend env s.pages.length) :
    ∃ res right s' evs, rtreeSplitPage env blk newitup newbox level flags s = .ok res s' ∧
      res.split = some right ∧ s'.trace = s.trace ++ evs ∧
      (((pageAt s'.pages blk).items ++ (pageAt s'.pages right.rightBlkno).items).Perm
          ((pageAt s.pages blk).items ++ [newitup]) ∧ AddsOk evs ↔
        FitOnPage (leftItems (pageAt s.pages blk) newitup newbox) ∧
          FitOnPage (rightItems (pageAt s.pages blk) newitup newbox)) := by
  refine ⟨_, _, _, _, rtreeSplitPage_run_of_can hblk hext, rfl, rfl, ?_⟩
  dsimp only [splitResult]
  rw [pageAt_splitPages_left hblk, pageAt_splitPages_right, split_perm_iff, addsOk_splitTrace_iff, and_self,
    split_results_iff]

/-- Each side lacks a tuple of the other, so a new tuple no larger than the old ones is never too much: what
    is picked for a side takes no more room than the page did. -/
theorem split_fits_of_smallest {page : DataPage} {newitup : IndexTuple} (newbox : RTreeTemporalBox)
    (hne : page.items ≠ [])
    (hsize : ∀ t ∈ page.items, maxalign (indexTupleSize newitup) ≤ maxalign (indexTupleSize t)) :
    FitOnPage (leftItems page newitup newbox) ∧ FitOnPage (rightItems page newitup newbox) := by
  have hperm := splitIdxs_perm page newitup newbox
  obtain ⟨hleft, hright⟩ := splitIdxs_ne_nil page newitup newbox hne
  have hside : ∀ {side other : List IndexTuple}, other ≠ [] →
      (side ++ other).Perm (splitItems page newitup) → FitOnPage side := by
    intro side other hother hp
    obtain ⟨t, rest, rfl⟩ := List.exists_cons_of_ne_nil hother
    have hmem : t ∈ splitItems page newitup := hp.subset (by simp)
    have hlarge : maxalign (indexTupleSize newitup) ≤ maxalign (indexTupleSize t) := by
      rcases List.mem_append.mp hmem with h | h
      · exact hsize t h
      · rw [List.mem_singleton.mp h]
    have hlen := hp.length_eq
    have hbytes : tupleBytes (side ++ t :: rest) = tupleBytes (splitItems page newitup) := (hp.map _).sum_eq
    have hfits := page.fits
    unfold FitOnPage
    simp only [splitItems, tupleBytes_append, List.length_append, List.length_cons, List.length_nil] at hlen hbytes
    simp only [pdLower, tupleBytes, List.map_cons, List.map_nil, List.sum_cons, List.sum_nil] at hfits hbytes ⊢
    omega
  exact ⟨hside hright hperm, hside hleft (List.perm_append_comm.trans hperm)⟩

/-- Five wide tuples and a sixth: all of one size. -/
theorem split_keeps_tuples_stairs :
    hasRoom (pageAt (stairs 5).pages 1) (stair 5) = false ∧
      ∃ res right s', rtreeSplitPage roomyEnv 1 (stair 5) (rtreeCubeToBox (wideKeyFrom 50)) 0 { leaf := true }
          (stairs 5) = .ok res s' ∧ res.split = some right ∧
        ((pageAt s'.pages 1).items ++ (pageAt s'.pages right.rightBlkno).items).Perm
          ((pageAt (stairs 5).pages 1).items ++ [stair 5]) := by
  obtain ⟨res, right, s', evs, hrun, hright, -, hiff⟩ := split_keeps_tuples_iff roomyEnv (stairs 5) 1
    (stair 5) (rtreeCubeToBox (wideKeyFrom 50)) 0 { leaf := true } (by decide) ⟨by decide, rfl⟩
  refine ⟨by decide +kernel, res, right, s', hrun, hright, (hiff.mpr ?_).1⟩
  exact split_fits_of_smallest _ (by decide +kernel) (by decide +kernel)

/-- The key of a single instant. -/
def instantKey (attr : ℤ) (t : ℚ) : NDBOX where
  dim := 2
  isPoint := true
  x := [.fin attr, .fin t]
  dim_le := two_le_cubeMaxDim
  x_length := rfl

/-- An instant long ago and the first `n` stairs. -/
def instantAndStairs (n : Nat) : List HeapRow :=
  ⟨{ blkno := 1, offnum := 1 }, some (instantKey 0 (-1000))⟩ :: stairRows n

/-- A page built from an instant and five wide tuples has no room for a sixth. The split leaves the instant
    alone on the left; the six wide tuples do not fit on the right, and one of them is lost. -/
theorem split_loses_tuple :
    ∃ s res right s', runOps roomyEnv [.build (instantAndStairs 5)] { pages := [] } = .ok () s ∧
      hasRoom (pageAt s.pages 1) (stair 5) = false ∧
      rtreeSplitPage roomyEnv 1 (stair 5) (rtreeCubeToBox (wideKeyFrom 50)) 0 { leaf := true } s = .ok res s' ∧
      res.split = some right ∧
      ¬ ((pageAt s'.pages 1).items ++ (pageAt s'.pages right.rightBlkno).items).Perm
        ((pageAt s.pages 1).items ++ [stair 5]) ∧
      Event.addItem false ∈ s'.trace := by
  have hok : okWith (fun _ s => decide (hasRoom (pageAt s.pages 1) (stair 5) = false) &&
      decide ((pageAt s.pages 1).items.length = 6) &&
      okWith (fun res s' => res.split.any (fun right =>
          decide (((pageAt s'.pages 1).items ++ (pageAt s'.pages right.rightBlkno).items).length = 6)) &&
        decide (Event.addItem false ∈ s'.trace))
        (rtreeSplitPage roomyEnv 1 (stair 5) (rtreeCubeToBox (wideKeyFrom 50)) 0 { leaf := true } s))
      (runOps roomyEnv [.build (instantAndStairs 5)] { pages := [] }) = true := by decide +kernel
  obtain ⟨u, s, hbuild, hs⟩ := exists_of_okWith hok
  simp only [Bool.and_eq_true, decide_eq_true_eq] at hs
  obtain ⟨⟨hfull, hlen⟩, hsplit⟩ := hs
  obtain ⟨res, s', hrun, hcheck⟩ := exists_of_okWith hsplit
  simp only [Bool.and_eq_true, decide_eq_true_eq, Option.any_eq_true] at hcheck
  obtain ⟨⟨right, hright, hlen'⟩, hlost⟩ := hcheck
  refine ⟨s, res, right, s', hbuild, hfull, hrun, hright, fun hperm => ?_, hlost⟩
  have hlength := hperm.length_eq
  rw [hlen', List.length_append, hlen] at hlength
  exact absurd hlength (by decide)

/-! ## Downlinks -/

/-- The bytes between `pd_lower` and `pd_upper`. -/
def freeBytes (page : DataPage) : Nat := pdSpecial - (pdLower page.items + tupleBytes page.items)

/-- A tuple as `rtree_form_tuple` makes it. -/
def IsDownlink (t : IndexTuple) : Prop := ∃ box tid, t = rtreeFormTuple box tid

/-- A tuple whose key is stored as a point. -/
def hasPointKey (t : IndexTuple) : Bool := t.key.any NDBOX.isPoint

/-- Downlinks come in two sizes. -/
theorem indexTupleSize_formTuple (box : RTreeTemporalBox) (tid : ItemPointerData) :
    maxalign (indexTupleSize (rtreeFormTuple box tid)) = if isPointBox box then 32 else 48 := by
  show maxalign (maxalign (8 + (rtreeBoxToCube box).varsize)) = _
  unfold rtreeBoxToCube
  split <;> simp [NDBOX.varsize, maxalign]

theorem hasPointKey_formTuple (box : RTreeTemporalBox) (tid : ItemPointerData) :
    hasPointKey (rtreeFormTuple box tid) = isPointBox box := by
  unfold hasPointKey rtreeFormTuple rtreeBoxToCube
  cases isPointBox box <;> rfl

theorem tupleBytes_eraseIdx {items : List IndexTuple} {pos : Nat} {t : IndexTuple} (h : items[pos]? = some t) :
    tupleBytes (items.eraseIdx pos) + maxalign (indexTupleSize t) = tupleBytes items := by
  obtain ⟨hpos, hget⟩ := List.getElem?_eq_some_iff.mp h
  have hperm : items.Perm (t :: items.eraseIdx pos) := by
    rw [← hget]
    exact (List.getElem_cons_eraseIdx_perm hpos).symm
  have hsum : tupleBytes items = tupleBytes (t :: items.eraseIdx pos) := (hperm.map _).sum_eq
  rw [hsum, Nat.add_comm]
  rfl

/-- `rtree_replace_tuple` succeeds exactly if the new tuple is at most the free bytes larger than the old. -/
theorem rtreeReplaceTuple_isSome_iff {page : DataPage} {pos : Nat} {t itup : IndexTuple}
    (h : page.items[pos]? = some t) :
    (∃ page', rtreeReplaceTuple page (pos + 1) itup = some page') ↔
      maxalign (indexTupleSize itup) ≤ maxalign (indexTupleSize t) + freeBytes page := by
  have hpos : pos < page.items.length := (List.getElem?_eq_some_iff.mp h).1
  have hbytes := tupleBytes_eraseIdx h
  have hfits := page.fits
  have hlen : (page.items.eraseIdx pos).length = page.items.length - 1 := List.length_eraseIdx_of_lt hpos
  simp only [rtreeReplaceTuple, pageAddItem, invalidOffsetNumber, Nat.add_eq_zero_iff, one_ne_zero, and_false,
    if_false, Nat.add_sub_cancel, pageIndexTupleDelete, Option.dite_none_right_eq_some, Option.some.injEq,
    freeBytes]
  simp only [pdLower, hlen] at hfits ⊢
  constructor
  · rintro ⟨page', ⟨-, hroom⟩, -⟩
    omega
  · intro hroom
    exact ⟨_, ⟨by omega, by omega⟩, rfl⟩

/-- **An insert below a child that is not split can update the downlink of the child, and so completes,
    exactly if the downlink does not grow from a point to a box on a page with fewer than 16 bytes free.** -/
theorem downlink_update_iff {env : Env} {itup : IndexTuple} {box : RTreeTemporalBox} {s : Rel}
    {blk : BlockNumber} {level pos : Nat} {childitup : IndexTuple} {childBox : RTreeTemporalBox}
    {pages₁ : List Page} {evs : List Event} (hkey : itup.key.isSome = true)
    (hf : nodes.Forest NodeOk (pageAt s.pages) (level + 1) [blk])
    (halloc : ∀ x ∈ nodes.forestBlocks (pageAt s.pages) (level + 1) [blk], x ∈ allocated s.pages)
    (hchild : ChoosesChild (pageAt s.pages blk) box pos childitup) (hdown : IsDownlink childitup)
    (hrec : Inserts env itup box s.pages childitup.tTid.blkno level { leftBox := childBox, split := none }
      pages₁ evs) :
    ((∃ page₂, rtreeReplaceTuple (pageAt pages₁ blk) (pos + 1) (rtreeFormTuple childBox childitup.tTid)
        = some page₂) ∧
      ∃ res s', rtreeInsertPage env blk (level + 1) itup box s = .ok res s') ↔
      (hasPointKey childitup = true → isPointBox childBox = false →
        16 ≤ freeBytes (pageAt s.pages blk)) := by
  have hblk : blk < s.pages.length := halloc blk (by simp [self_mem_blocks])
  -- the page itself is not touched by the insert below it
  have hsame : pageAt pages₁ blk = pageAt s.pages blk :=
    (hchild.descend hf halloc (hrec.spec hkey)).2
  obtain ⟨downBox, tid, rfl⟩ := hdown
  have hroom := @rtreeReplaceTuple_isSome_iff (pageAt s.pages blk) pos _ (rtreeFormTuple childBox
    (rtreeFormTuple downBox tid).tTid) hchild.item
  rw [indexTupleSize_formTuple, indexTupleSize_formTuple] at hroom
  rw [hsame, hroom, hasPointKey_formTuple]
  -- a page that took the update is written and logged
  have hrun : (∃ page₂, rtreeReplaceTuple (pageAt s.pages blk) (pos + 1)
      (rtreeFormTuple childBox (rtreeFormTuple downBox tid).tTid) = some page₂) →
      ∃ res s', rtreeInsertPage env blk (level + 1) itup box s = .ok res s' := by
    rintro ⟨page₂, hrep⟩
    exact ⟨_, _, (Inserts.innerKeep hblk hchild hrec (hsame ▸ hrep)).run s.trace⟩
  rw [and_iff_left_of_imp fun h => hrun (hroom.mpr h)]
  cases isPointBox downBox <;> cases isPointBox childBox <;> simp <;> omega

/-- When the new downlink does not fit, the insert ends with the error. -/
theorem updateDownlinks_run_of_none {env : Env} {s : Rel} {blk : BlockNumber} {level : Nat}
    {bestoff : OffsetNumber} {tid : ItemPointerData} {childres : RTreeInsertResult}
    (h : rtreeReplaceTuple (pageAt s.pages blk) bestoff (rtreeFormTuple childres.leftBox tid) = none) :
    ∃ s', updateDownlinks env blk level bestoff tid childres s = .error .failedToReplace s' := by
  simp only [updateDownlinks, bind_apply, bufferGetPage_run, h, emit_run, putPage_run]
  exact ⟨_, rfl⟩

/-! ### A root over leaves of one row each -/

/-- The only tuple of leaf `i`. -/
def rowOf (i : Nat) (key : NDBOX) : IndexTuple := { tTid := { blkno := i, offnum := 1 }, key := some key }

theorem fitOnPage_singleton (t : IndexTuple) : FitOnPage [t] := by
  have hsize := indexTupleSize_le t
  unfold FitOnPage pdLower pdSpecial tupleBytes
  simp only [List.length_singleton, List.map_cons, List.map_nil, List.sum_cons, List.sum_nil]
  omega

/-- A leaf with one tuple. -/
def leafOf (i : Nat) (key : NDBOX) : DataPage :=
  { special := (rtreeInitDatapage { leaf := true } 0).special
    items := [rowOf i key]
    fits := fitOnPage_singleton _ }

/-- The downlinks to such leaves from block 2 on. -/
def downlinksOver (keys : List NDBOX) : List IndexTuple :=
  keys.mapIdx fun i key => rtreeFormTuple (rtreePageMbr (leafOf i key)) (childTid (i + 2))

/-- The root page over them. -/
def rootOver (keys : List NDBOX) : DataPage :=
  (addItems (rtreeInitDatapage { root := true } 1) (downlinksOver keys)).1

/-- An index of two levels with a leaf for each key. -/
def parentIndex (keys : List NDBOX) : List Page :=
  .metapage (rtreeInitMetapage 1 1) :: .data (rootOver keys) :: keys.mapIdx fun i key => .data (leafOf i key)

section ParentIndex
variable {keys : List NDBOX}

theorem rootOver_items (hfit : FitOnPage (downlinksOver keys)) : (rootOver keys).items = downlinksOver keys := by
  obtain ⟨added, -, hitems, -, hall⟩ :=
    addItems_items (rtreeInitDatapage { root := true } 1) (downlinksOver keys)
  rw [rootOver, hitems, hall ((addItems_all_iff _ _).mpr hfit)]
  rfl

theorem rootOver_special : (rootOver keys).special = (rtreeInitDatapage { root := true } 1).special := by
  obtain ⟨added, -, -, hspecial, -⟩ :=
    addItems_items (rtreeInitDatapage { root := true } 1) (downlinksOver keys)
  exact hspecial

theorem kids_rootOver (hfit : FitOnPage (downlinksOver keys)) :
    nodes.kids (rootOver keys) = (List.range keys.length).map (· + 2) := by
  apply List.ext_getElem
  · simp [nodes, rootOver_items hfit, downlinksOver]
  · intro i _ _
    simp [nodes, rootOver_items hfit, downlinksOver, rtreeFormTuple, childTid]

theorem pageAt_parentIndex {i : Nat} {key : NDBOX} (h : keys[i]? = some key) :
    pageAt (parentIndex keys) (i + 2) = leafOf i key := by
  simp [pageAt, parentIndex, List.getD_eq_getElem?_getD, h, Page.asData]

theorem parentIndex_length : (parentIndex keys).length = keys.length + 2 := by simp [parentIndex]

theorem leafOf_nodeOk (i : Nat) (key : NDBOX) : NodeOk 0 (leafOf i key) := by
  refine ⟨rfl, by simp [leafOf, rtreeInitDatapage], ?_, fun h => absurd rfl h⟩
  intro t ht
  rw [List.mem_singleton.mp ht]
  rfl

/-- Such an index is well-formed when the downlinks fit on the root. -/
theorem parentIndex_wf (hne : keys ≠ []) (hlen : keys.length + 2 ≤ invalidBlockNumber)
    (hfit : FitOnPage (downlinksOver keys)) : WF (parentIndex keys) := by
  have hroot : pageAt (parentIndex keys) 1 = rootOver keys := rfl
  have hmeta : metaAt (parentIndex keys) = rtreeInitMetapage 1 1 := rfl
  have hkids := kids_rootOver hfit
  have hblocks : nodes.blocks (pageAt (parentIndex keys)) 1 1 = 1 :: (List.range keys.length).map (· + 2) := by
    rw [blocks_succ, hroot, hkids]
    simp
  refine ⟨rfl, parentIndex_length ▸ hlen, ⟨?_, ?_⟩, ?_⟩
  · intro c hc
    obtain rfl : c = 1 := List.mem_singleton.mp hc
    refine ⟨⟨?_, ?_, ?_, ?_⟩, ?_⟩
    · rw [hroot, rootOver_special]
      rfl
    · rw [hroot, rootOver_special]
      simp [rtreeInitDatapage]
    · rw [hroot, rootOver_items hfit]
      intro t ht
      obtain ⟨i, hi, rfl⟩ := List.mem_mapIdx.mp ht
      rfl
    · intro _
      rw [hroot, rootOver_items hfit, ← List.length_pos_iff]
      simpa [downlinksOver, List.length_pos_iff] using hne
    · rw [hroot, hkids]
      intro k hk
      obtain ⟨i, hi, rfl⟩ := List.mem_map.mp hk
      show NodeOk 0 (pageAt (parentIndex keys) (i + 2))
      rw [pageAt_parentIndex (List.getElem?_eq_getElem (List.mem_range.mp hi))]
      exact leafOf_nodeOk _ _
  · rw [hmeta]
    show (nodes.forestBlocks (pageAt (parentIndex keys)) 1 [1]).Nodup
    rw [forestBlocks_singleton, hblocks, List.nodup_cons]
    refine ⟨by simp, ?_⟩
    exact List.nodup_range.map fun i j hij => Nat.add_right_cancel hij
  · rw [hmeta]
    show ∀ x ∈ nodes.blocks (pageAt (parentIndex keys)) 1 1, _
    rw [hblocks, parentIndex_length]
    intro x hx
    rcases List.mem_cons.mp hx with rfl | hx
    · exact ⟨Nat.one_pos, Nat.succ_lt_succ (Nat.succ_pos _)⟩
    · obtain ⟨i, hi, rfl⟩ := List.mem_map.mp hx
      exact ⟨Nat.succ_pos _, Nat.add_lt_add_right (List.mem_range.mp hi) 2⟩

/-- A child that no later one undercuts stays the choice. -/
theorem foldl_chooseStep_of_ge {box : RTreeTemporalBox} {best : ℚ × BlockNumber} {items : List IndexTuple}
    (h : ∀ t ∈ items, ∀ childBox, rtreeIndexTupleBox t = some childBox →
      ¬ subtreePenalty childBox box < best.1) : items.foldl (chooseStep box) best = best := by
  induction items with
  | nil => rfl
  | cons t rest ih =>
      have hstep : chooseStep box best t = best := by
        unfold chooseStep
        cases hbox : rtreeIndexTupleBox t with
        | none => rfl
        | some childBox => exact if_neg (h t List.mem_cons_self childBox hbox)
      rw [List.foldl_cons, hstep]
      exact ih fun t ht => h t (List.mem_cons_of_mem _ ht)

/-- The box a downlink is decoded to. -/
def downBox (key : NDBOX) : RTreeTemporalBox := rtreeCubeToBox (rtreeBoxToCube (rtreeCubeToBox key))

/-- The first leaf is chosen when its penalty is finite and no other is smaller. -/
theorem choosesChild_first {key : NDBOX} {rest : List NDBOX} {box : RTreeTemporalBox}
    (hfit : FitOnPage (downlinksOver (key :: rest)))
    (hfirst : subtreePenalty (downBox key) box < dblMax)
    (hrest : ∀ k ∈ rest, ¬ subtreePenalty (downBox k) box < subtreePenalty (downBox key) box) :
    ChoosesChild (rootOver (key :: rest)) box 0 (rtreeFormTuple (rtreePageMbr (leafOf 0 key)) (childTid 2)) := by
  have hitems : (rootOver (key :: rest)).items = rtreeFormTuple (rtreePageMbr (leafOf 0 key)) (childTid 2) ::
      rest.mapIdx fun i k => rtreeFormTuple (rtreePageMbr (leafOf (i + 1) k)) (childTid (i + 1 + 2)) := by
    rw [rootOver_items hfit, downlinksOver, List.mapIdx_cons]
  have hbest : (rootOver (key :: rest)).items.foldl (chooseStep box) (dblMax, invalidBlockNumber)
      = (subtreePenalty (downBox key) box, 2) := by
    rw [hitems, List.foldl_cons]
    show List.foldl (chooseStep box) (if subtreePenalty (downBox key) box < dblMax then _ else _) _ = _
    rw [if_pos hfirst]
    apply foldl_chooseStep_of_ge
    intro t ht childBox hbox
    obtain ⟨i, hi, rfl⟩ := List.mem_mapIdx.mp ht
    obtain rfl := Option.some.inj hbox
    exact hrest _ (List.getElem_mem _)
  have hchoose : chooseSubtreeInsert (rootOver (key :: rest)) box = 2 := by
    unfold chooseSubtreeInsert
    rw [hbest]
    rfl
  refine ⟨by rw [rootOver_special]; rfl, by rw [hchoose]; decide, by rw [hitems]; rfl, ?_, ?_⟩
  · rw [hchoose]
    rfl
  · rw [hitems, hchoose, List.findIdx?_cons]
    rfl

/-- The size of the downlink to a leaf with this key. -/
def linkBytes (key : NDBOX) : Nat := if isPointBox (rtreeCubeToBox key) then 32 else 48

theorem tupleBytes_downlinksOver : tupleBytes (downlinksOver keys) = (keys.map linkBytes).sum := by
  unfold tupleBytes
  congr 1
  apply List.ext_getElem
  · simp [downlinksOver]
  · intro i _ _
    simp only [downlinksOver, List.getElem_map, List.getElem_mapIdx, indexTupleSize_formTuple]
    rfl

theorem pdLower_downlinksOver : pdLower (downlinksOver keys) = 24 + 4 * keys.length := by
  simp [pdLower, downlinksOver]

theorem freeBytes_rootOver (hfit : FitOnPage (downlinksOver keys)) :
    freeBytes (rootOver keys) = pdSpecial - (24 + 4 * keys.length + (keys.map linkBytes).sum) := by
  unfold freeBytes
  rw [rootOver_items hfit, tupleBytes_downlinksOver, pdLower_downlinksOver]

end ParentIndex

/-- A tuple added to a page as `rtree_insert_page` does: under the free-space check. -/
def addUnderCheck (page : DataPage) (t : IndexTuple) : Option DataPage :=
  if hasRoom page t then pageAddItem page t invalidOffsetNumber else none

/-- A page filled in this way. -/
def fillPage (page : DataPage) (itups : List IndexTuple) : Option DataPage := itups.foldlM addUnderCheck page

/-- The check asks for a line pointer too many, so a page can be filled up to the last four bytes. -/
theorem fillPage_of_le {page : DataPage} {itups : List IndexTuple}
    (h : pdLower (page.items ++ itups) + tupleBytes (page.items ++ itups) + 4 ≤ pdSpecial) :
    fillPage page itups = some (addItems page itups).1 := by
  induction itups generalizing page with
  | nil => rfl
  | cons t rest ih =>
      have hroom : hasRoom page t = true := by
        rw [hasRoom_iff]
        simp only [pdLower, tupleBytes, List.map_append, List.map_cons, List.map_nil, List.sum_append,
          List.sum_cons, List.sum_nil, List.length_append, List.length_cons, List.length_nil] at h ⊢
        omega
      obtain ⟨page', hadd⟩ := pageAddItem_of_hasRoom hroom
      have hitems : page'.items ++ rest = page.items ++ t :: rest := by
        rw [(pageAddItem_items hadd).1, List.append_assoc, List.singleton_append]
      show (addUnderCheck page t).bind (fun page => fillPage page rest) = _
      rw [addUnderCheck, if_pos hroom, hadd, Option.bind_some, ih (by rw [hitems]; exact h)]
      simp only [addItems, hadd]

/-- A row that lies apart from the instant 5 of attribute 0. -/
def apartRow : IndexTuple := rowOf 500 (instantKey 40 7)

/-- An insert below the leaf of an instant makes its bounding box a box with extent. -/
theorem insert_below_instant {rest : List NDBOX} (hfit : FitOnPage (downlinksOver (instantKey 0 5 :: rest)))
    (hrest : ∀ k ∈ rest, ¬ subtreePenalty (downBox k) (rtreeCubeToBox (instantKey 40 7))
      < subtreePenalty (downBox (instantKey 0 5)) (rtreeCubeToBox (instantKey 40 7))) :
    ChoosesChild (pageAt (parentIndex (instantKey 0 5 :: rest)) 1) (rtreeCubeToBox (instantKey 40 7)) 0
        (rtreeFormTuple (rtreePageMbr (leafOf 0 (instantKey 0 5))) (childTid 2)) ∧
      ∃ childBox pages₁ evs, isPointBox childBox = false ∧
        Inserts roomyEnv apartRow (rtreeCubeToBox (instantKey 40 7)) (parentIndex (instantKey 0 5 :: rest)) 2 0
          { leftBox := childBox, split := none } pages₁ evs ∧
        pageAt pages₁ 1 = rootOver (instantKey 0 5 :: rest) := by
  refine ⟨choosesChild_first hfit (by decide +kernel) hrest, ?_⟩
  have hleaf : pageAt (parentIndex (instantKey 0 5 :: rest)) 2 = leafOf 0 (instantKey 0 5) :=
    pageAt_parentIndex (show (instantKey 0 5 :: rest)[0]? = some _ from rfl)
  have hroom : hasRoom (leafOf 0 (instantKey 0 5)) apartRow = true := by decide +kernel
  obtain ⟨page', hadd⟩ := pageAddItem_of_hasRoom hroom
  have hbox : isPointBox (rtreePageMbr page') = false := by
    rw [rtreePageMbr, (pageAddItem_items hadd).1]
    decide +kernel
  refine ⟨_, _, _, hbox, .leafAdd ?_ (Or.inl rfl) (hleaf ▸ hroom) (hleaf ▸ hadd), ?_⟩
  · rw [parentIndex_length]
    exact Nat.lt_of_lt_of_le (by decide : 2 < 3) (Nat.add_le_add_right (Nat.succ_le_succ (Nat.zero_le _)) 2)
  · exact pageAt_set_ne (by decide)

/-- With fewer than 16 bytes left on the root its downlink cannot be updated. -/
theorem insert_below_instant_fails {rest : List NDBOX}
    (hfit : FitOnPage (downlinksOver (instantKey 0 5 :: rest)))
    (hrest : ∀ k ∈ rest, ¬ subtreePenalty (downBox k) (rtreeCubeToBox (instantKey 40 7))
      < subtreePenalty (downBox (instantKey 0 5)) (rtreeCubeToBox (instantKey 40 7)))
    (hfree : freeBytes (rootOver (instantKey 0 5 :: rest)) < 16) :
    ∃ s', rtreeInsertPage roomyEnv 1 1 apartRow (rtreeCubeToBox (instantKey 40 7))
      { pages := parentIndex (instantKey 0 5 :: rest) } = .error .failedToReplace s' := by
  obtain ⟨hchild, childBox, pages₁, evs, hbox, hrec, hroot⟩ := insert_below_instant hfit hrest
  have hblk : 1 < (parentIndex (instantKey 0 5 :: rest)).length := by
    rw [parentIndex_length]
    exact Nat.succ_lt_succ (Nat.succ_pos _)
  rw [rtreeInsertPage_run_of_inner (s := { pages := parentIndex (instantKey 0 5 :: rest) }) hblk hchild
    (hrec.run _)]
  apply updateDownlinks_run_of_none
  -- 48 bytes in place of 32
  by_contra hsome
  obtain ⟨page₂, hrep⟩ := Option.ne_none_iff_exists'.mp hsome
  rw [hroot] at hrep
  have hroom := (rtreeReplaceTuple_isSome_iff hchild.item).mp ⟨page₂, hrep⟩
  rw [indexTupleSize_formTuple, indexTupleSize_formTuple, if_neg (by rw [hbox]; decide),
    if_pos (by decide +kernel)] at hroom
  have hroom : 48 ≤ 32 + freeBytes (rootOver (instantKey 0 5 :: rest)) := hroom
  omega

/-- On a root with one downlink there is room for it to grow. -/
theorem downlink_update_single :
    ∃ res s', rtreeInsertPage roomyEnv 1 1 apartRow (rtreeCubeToBox (instantKey 40 7))
      { pages := parentIndex [instantKey 0 5] } = .ok res s' := by
  have hfit : FitOnPage (downlinksOver [instantKey 0 5]) := fitOnPage_singleton _
  have hwf := parentIndex_wf (List.cons_ne_nil _ _) (by decide) hfit
  obtain ⟨hchild, childBox, pages₁, evs, -, hrec, -⟩ := insert_below_instant hfit (by simp)
  refine ((downlink_update_iff (s := { pages := parentIndex [instantKey 0 5] }) rfl hwf.tree hwf.halloc hchild
    ⟨_, _, rfl⟩ hrec).mpr fun _ _ => ?_).2
  show 16 ≤ freeBytes (rootOver [instantKey 0 5])
  rw [freeBytes_rootOver hfit]
  decide +kernel

/-- An instant and `n` periods. -/
def crowdedKeys (n : Nat) : List NDBOX := instantKey 0 5 :: List.replicate n (rowCube 0 0 (.fin 9))

section Crowded
variable {n : Nat}

theorem bytes_crowdedKeys : pdLower (downlinksOver (crowdedKeys n)) + tupleBytes (downlinksOver (crowdedKeys n))
    = 60 + 52 * n := by
  have hinstant : linkBytes (instantKey 0 5) = 32 := by decide +kernel
  have hperiod : linkBytes (rowCube 0 0 (.fin 9)) = 48 := by decide +kernel
  rw [tupleBytes_downlinksOver, pdLower_downlinksOver, crowdedKeys, List.map_cons, List.map_replicate,
    List.sum_cons, List.sum_replicate, List.length_cons, List.length_replicate, hinstant, hperiod, smul_eq_mul]
  omega

/-- The instant is the child nearest to the row apart from it. -/
theorem crowdedKeys_penalty : ∀ k ∈ List.replicate n (rowCube 0 0 (.fin 9)),
    ¬ subtreePenalty (downBox k) (rtreeCubeToBox (instantKey 40 7))
      < subtreePenalty (downBox (instantKey 0 5)) (rtreeCubeToBox (instantKey 40 7)) := by
  intro k hk
  rw [List.eq_of_mem_replicate hk]
  decide +kernel

/-- When so many downlinks leave between four and fifteen bytes on the root, they pass the free-space check and
    the first cannot be updated. -/
theorem crowdedKeys_fails (hlow : 60 + 52 * n + 4 ≤ pdSpecial) (hhigh : pdSpecial < 60 + 52 * n + 16) :
    WF (parentIndex (crowdedKeys n)) ∧
      fillPage (rtreeInitDatapage { root := true } 1) (downlinksOver (crowdedKeys n))
        = some (rootOver (crowdedKeys n)) ∧
      (∃ childBox s₁, rtreeInsertPage roomyEnv 2 0 apartRow (rtreeCubeToBox (instantKey 40 7))
        { pages := parentIndex (crowdedKeys n) } = .ok { leftBox := childBox, split := none } s₁) ∧
      ∃ s', rtreeInsertPage roomyEnv 1 1 apartRow (rtreeCubeToBox (instantKey 40 7))
        { pages := parentIndex (crowdedKeys n) } = .error .failedToReplace s' := by
  have hbytes := @bytes_crowdedKeys n
  have hfit : FitOnPage (downlinksOver (crowdedKeys n)) := by
    unfold FitOnPage
    omega
  have hfree : freeBytes (rootOver (crowdedKeys n)) < 16 := by
    unfold freeBytes
    rw [rootOver_items hfit, hbytes]
    omega
  have hlen : (crowdedKeys n).length + 2 ≤ invalidBlockNumber := by
    have hspecial : pdSpecial ≤ invalidBlockNumber := by decide
    rw [crowdedKeys, List.length_cons, List.length_replicate]
    omega
  obtain ⟨-, childBox, pages₁, evs, -, hrec, -⟩ := insert_below_instant hfit crowdedKeys_penalty
  refine ⟨parentIndex_wf (List.cons_ne_nil _ _) hlen hfit, ?_, ⟨childBox, _, hrec.run []⟩,
    insert_below_instant_fails hfit crowdedKeys_penalty hfree⟩
  apply fillPage_of_le
  rw [show (rtreeInitDatapage { root := true } 1).items = [] from rfl, List.nil_append, hbytes]
  exact hlow

end Crowded

/-- The downlinks to an instant and 156 periods, added to the root under the free-space check, leave four bytes.
    An insert below the instant makes its downlink a box, for which there is no room. -/
theorem downlink_update_fails :
    WF (parentIndex (crowdedKeys 156)) ∧
      fillPage (rtreeInitDatapage { root := true } 1) (downlinksOver (crowdedKeys 156))
        = some (rootOver (crowdedKeys 156)) ∧
      (∃ childBox s₁, rtreeInsertPage roomyEnv 2 0 apartRow (rtreeCubeToBox (instantKey 40 7))
        { pages := parentIndex (crowdedKeys 156) } = .ok { leftBox := childBox, split := none } s₁) ∧
      ∃ s', rtreeInsertPage roomyEnv 1 1 apartRow (rtreeCubeToBox (instantKey 40 7))
        { pages := parentIndex (crowdedKeys 156) } = .error .failedToReplace s' :=
  crowdedKeys_fails (by decide) (by decide)

end TemporalRTree
