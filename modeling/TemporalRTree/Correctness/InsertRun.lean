import TemporalRTree.Correctness.InsertTree

/-!
# `Correctness.InsertRun` — `temporal_rtree_insert` as a whole

The steps around the descent (reading the meta page, promoting a new root, writing the meta page,
initialising an empty relation), each as one run equation, and the specification of the whole call: it
keeps the index well-formed and adds the tuple to its contents; when it fails although no `PageAddItem`
failed, the relation could not be extended.
-/

namespace TemporalRTree
open EStateM Layout

/-! ## Run equations -/

/-- The pages after `rtree_root_promote`. -/
def promotedPages (pages : List Page) (leftblk : BlockNumber) (leftBox : RTreeTemporalBox)
    (right : SplitRight) (oldLevel : Nat) : List Page :=
  pages.set leftblk (.data (clearRootFlag (pageAt pages leftblk))) ++
    [.data (promotedRoot leftblk leftBox right oldLevel).1]

/-- The trace of `rtree_root_promote`. -/
def promoteTrace (pages : List Page) (leftblk : BlockNumber) (leftBox : RTreeTemporalBox)
    (right : SplitRight) (oldLevel : Nat) : List Event :=
  [Event.lock leftblk .exclusive, Event.lock pages.length .exclusive] ++
    (promotedRoot leftblk leftBox right oldLevel).2.map Event.addItem ++
    [Event.dirty pages.length, Event.dirty leftblk, Event.unlock pages.length, Event.unlock leftblk]

section Promote
variable {env : Env} {s : Rel} {leftblk : BlockNumber} {leftBox : RTreeTemporalBox} {right : SplitRight}
  {oldLevel : Nat}

theorem rtreeRootPromote_run_of_can (hblk : leftblk < s.pages.length)
    (hext : canExtend env s.pages.length) :
    rtreeRootPromote env leftblk leftBox right oldLevel s =
      .ok s.pages.length
        { pages := promotedPages s.pages leftblk leftBox right oldLevel
          trace := s.trace ++ promoteTrace s.pages leftblk leftBox right oldLevel } := by
  have hnew : ∀ q : Page, (s.pages ++ [Page.zero]).set s.pages.length q = s.pages ++ [q] := by
    intro q
    rw [List.set_append_right _ _ (Nat.le_refl _)]
    simp
  simp only [rtreeRootPromote, bind_of_ok (readBuffer_run_of_lt hblk)]
  simp only [bind_apply, lockBuffer_run]
  rw [readBufferNew_run_of_can hext]
  simp only [putPage_run, emitAddItems_run, markBufferDirty_run, bufferGetPage_run, unlockBuffer_run,
    pure_apply, hnew, pageAt_append_of_lt hblk, List.set_append_left _ _ hblk, promotedPages,
    promoteTrace, List.append_assoc, List.cons_append, List.nil_append]

theorem rtreeRootPromote_run_of_cannot (hblk : leftblk < s.pages.length)
    (hext : ¬ canExtend env s.pages.length) :
    rtreeRootPromote env leftblk leftBox right oldLevel s =
      .error .couldNotExtend { s with trace := s.trace ++ [Event.lock leftblk .exclusive] } := by
  simp only [rtreeRootPromote, bind_of_ok (readBuffer_run_of_lt hblk)]
  simp only [bind_apply, lockBuffer_run]
  rw [readBufferNew_run_of_cannot hext]

end Promote

theorem readMetaRoot_run {s : Rel} (hlen : 0 < s.pages.length)
    (hmagic : (metaAt s.pages).magic = trtreeMetaMagic) :
    readMetaRoot s = .ok ((metaAt s.pages).root, (metaAt s.pages).rootLevel)
      { s with trace := s.trace ++ [Event.lock 0 .share, Event.unlock 0] } := by
  simp only [readMetaRoot, bind_of_ok (readBuffer_run_of_lt hlen)]
  simp only [bind_apply, lockBuffer_run, get_apply, hmagic, ne_eq, not_true_eq_false, if_false,
    unlockBuffer_run, pure_apply, List.append_assoc, List.cons_append, List.nil_append]

theorem writeMetaRoot_run {s : Rel} {root : BlockNumber} {level : Nat} (hlen : 0 < s.pages.length) :
    writeMetaRoot root level s = .ok ()
      { pages := s.pages.set 0 (.metapage { metaAt s.pages with root := root, rootLevel := level })
        trace := s.trace ++ [Event.lock 0 .exclusive, Event.dirty 0, Event.unlock 0] } := by
  simp only [writeMetaRoot, bind_of_ok (readBuffer_run_of_lt hlen)]
  simp only [bind_apply, lockBuffer_run, get_apply, putPage_run, markBufferDirty_run, unlockBuffer_run,
    List.append_assoc, List.cons_append, List.nil_append]

/-- The pages after the meta page was given a new root. -/
def metaPages (pages : List Page) (root : BlockNumber) (level : Nat) : List Page :=
  pages.set 0 (.metapage { metaAt pages with root := root, rootLevel := level })

/-! ## Completed and failed calls -/

/-- A completed `insertTuple`: pages before and after, trace. -/
inductive InsertsTuple (env : Env) (itup : IndexTuple) (box : RTreeTemporalBox) :
    List Page → List Page → List Event → Prop where
  | keep {pages pages' : List Page} {leftBox : RTreeTemporalBox} {evs : List Event}
      (hlen : 0 < pages.length) (hmagic : (metaAt pages).magic = trtreeMetaMagic)
      (hins : Inserts env itup box pages (metaAt pages).root (metaAt pages).rootLevel
        { leftBox := leftBox, split := none } pages' evs) :
      InsertsTuple env itup box pages pages' ([Event.lock 0 .share, Event.unlock 0] ++ evs)
  | promote {pages pages₁ : List Page} {leftBox : RTreeTemporalBox} {right : SplitRight}
      {evs : List Event}
      (hlen : 0 < pages.length) (hmagic : (metaAt pages).magic = trtreeMetaMagic)
      (hins : Inserts env itup box pages (metaAt pages).root (metaAt pages).rootLevel
        { leftBox := leftBox, split := some right } pages₁ evs)
      (hext : canExtend env pages₁.length) :
      InsertsTuple env itup box pages
        (metaPages (promotedPages pages₁ (metaAt pages).root leftBox right (metaAt pages).rootLevel)
          pages₁.length ((metaAt pages).rootLevel + 1))
        ([Event.lock 0 .share, Event.unlock 0] ++ evs ++
          promoteTrace pages₁ (metaAt pages).root leftBox right (metaAt pages).rootLevel ++
          [Event.lock 0 .exclusive, Event.dirty 0, Event.unlock 0])

/-- A failed `insertTuple`: pages before, error, pages left behind, trace. -/
inductive InsertTupleFails (env : Env) (itup : IndexTuple) (box : RTreeTemporalBox) :
    List Page → RTreeError → List Page → List Event → Prop where
  | unreadable {pages : List Page} (hlen : ¬ 0 < pages.length) :
      InsertTupleFails env itup box pages .couldNotReadBlock pages []
  | missingMeta {pages : List Page} (hlen : 0 < pages.length)
      (hmagic : (metaAt pages).magic ≠ trtreeMetaMagic) :
      InsertTupleFails env itup box pages .missingMetaPage pages [Event.lock 0 .share]
  | descent {pages pages' : List Page} {e : RTreeError} {evs : List Event}
      (hlen : 0 < pages.length) (hmagic : (metaAt pages).magic = trtreeMetaMagic)
      (hfail : InsertFails env itup box pages (metaAt pages).root (metaAt pages).rootLevel e pages' evs) :
      InsertTupleFails env itup box pages e pages' ([Event.lock 0 .share, Event.unlock 0] ++ evs)
  | promote {pages pages₁ : List Page} {leftBox : RTreeTemporalBox} {right : SplitRight}
      {evs : List Event}
      (hlen : 0 < pages.length) (hmagic : (metaAt pages).magic = trtreeMetaMagic)
      (hins : Inserts env itup box pages (metaAt pages).root (metaAt pages).rootLevel
        { leftBox := leftBox, split := some right } pages₁ evs)
      (hext : ¬ canExtend env pages₁.length) :
      InsertTupleFails env itup box pages .couldNotExtend pages₁
        ([Event.lock 0 .share, Event.unlock 0] ++ evs ++ [Event.lock (metaAt pages).root .exclusive])

theorem Inserts.lt_length {env : Env} {itup : IndexTuple} {box : RTreeTemporalBox} {pages pages' : List Page}
    {blk : BlockNumber} {level : Nat} {res : RTreeInsertResult} {evs : List Event}
    (h : Inserts env itup box pages blk level res pages' evs) : blk < pages.length := by
  cases h <;> assumption

/-- Reading the meta page succeeds when there is one. -/
theorem readMetaRoot_cases (s : Rel) :
    (¬ 0 < s.pages.length ∧ readMetaRoot s = .error .couldNotReadBlock s) ∨
      (0 < s.pages.length ∧ (metaAt s.pages).magic ≠ trtreeMetaMagic ∧
        readMetaRoot s = .error .missingMetaPage { s with trace := s.trace ++ [Event.lock 0 .share] }) ∨
      (0 < s.pages.length ∧ (metaAt s.pages).magic = trtreeMetaMagic ∧
        readMetaRoot s = .ok ((metaAt s.pages).root, (metaAt s.pages).rootLevel)
          { s with trace := s.trace ++ [Event.lock 0 .share, Event.unlock 0] }) := by
  by_cases hlen : 0 < s.pages.length
  · by_cases hmagic : (metaAt s.pages).magic = trtreeMetaMagic
    · exact Or.inr (Or.inr ⟨hlen, hmagic, readMetaRoot_run hlen hmagic⟩)
    · refine Or.inr (Or.inl ⟨hlen, hmagic, ?_⟩)
      simp only [readMetaRoot, bind_of_ok (readBuffer_run_of_lt hlen)]
      simp only [bind_apply, lockBuffer_run, get_apply, ne_eq, hmagic, not_false_eq_true, if_true,
        throw_apply]
  · refine Or.inl ⟨hlen, ?_⟩
    simp only [readMetaRoot, bind_of_error (readBuffer_run_of_not_lt hlen)]

/-- **Every completed `insertTuple` is one of these.** -/
theorem insertTuple_inserts {env : Env} {itup : IndexTuple} {box : RTreeTemporalBox} {s s' : Rel} {u : Unit}
    (h : insertTuple env itup box s = .ok u s') :
    ∃ evs, InsertsTuple env itup box s.pages s'.pages evs ∧ s'.trace = s.trace ++ evs := by
  simp only [insertTuple, bind_apply] at h
  rcases readMetaRoot_cases s with ⟨-, hm⟩ | ⟨-, -, hm⟩ | ⟨hlen, hmagic, hm⟩
  · simp [hm] at h
  · simp [hm] at h
  · simp only [hm] at h
    cases hrun : rtreeInsertPage env (metaAt s.pages).root (metaAt s.pages).rootLevel itup box
        { s with trace := s.trace ++ [Event.lock 0 .share, Event.unlock 0] } with
    | error e s₁ => simp [hrun] at h
    | ok res s₁ =>
        obtain ⟨evs, hins, htrace⟩ := rtreeInsertPage_inserts hrun
        simp only [hrun] at h
        obtain ⟨leftBox, split⟩ := res
        cases split with
        | none =>
            simp only [pure_apply] at h
            injection h with h1 h2
            subst h2
            exact ⟨_, .keep hlen hmagic hins, by simp [htrace]⟩
        | some right =>
            have hroot : (metaAt s.pages).root < s₁.pages.length :=
              Nat.lt_of_lt_of_le hins.lt_length hins.length_le
            by_cases hext : canExtend env s₁.pages.length
            · simp only [bind_apply, rtreeRootPromote_run_of_can hroot hext] at h
              rw [writeMetaRoot_run (by simp [promotedPages])] at h
              injection h with h1 h2
              subst h2
              exact ⟨_, .promote hlen hmagic hins hext, by simp [htrace]⟩
            · simp only [bind_apply, rtreeRootPromote_run_of_cannot hroot hext] at h
              exact absurd h (by simp)

/-- **Every failed `insertTuple` is one of these.** -/
theorem insertTuple_fails {env : Env} {itup : IndexTuple} {box : RTreeTemporalBox} {s s' : Rel}
    {e : RTreeError} (h : insertTuple env itup box s = .error e s') :
    ∃ evs, InsertTupleFails env itup box s.pages e s'.pages evs ∧ s'.trace = s.trace ++ evs := by
  simp only [insertTuple, bind_apply] at h
  rcases readMetaRoot_cases s with ⟨hlen, hm⟩ | ⟨hlen, hmagic, hm⟩ | ⟨hlen, hmagic, hm⟩
  · simp only [hm] at h
    injection h with h1 h2
    subst h1; subst h2
    exact ⟨_, .unreadable hlen, by simp⟩
  · simp only [hm] at h
    injection h with h1 h2
    subst h1; subst h2
    exact ⟨_, .missingMeta hlen hmagic, rfl⟩
  · simp only [hm] at h
    cases hrun : rtreeInsertPage env (metaAt s.pages).root (metaAt s.pages).rootLevel itup box
        { s with trace := s.trace ++ [Event.lock 0 .share, Event.unlock 0] } with
    | error e' s₁ =>
        obtain ⟨evs, hfail, htrace⟩ := rtreeInsertPage_fails hrun
        simp only [hrun] at h
        injection h with h1 h2
        subst h1; subst h2
        exact ⟨_, .descent hlen hmagic hfail, by simp [htrace]⟩
    | ok res s₁ =>
        obtain ⟨evs, hins, htrace⟩ := rtreeInsertPage_inserts hrun
        simp only [hrun] at h
        obtain ⟨leftBox, split⟩ := res
        cases split with
        | none => simp [pure_apply] at h
        | some right =>
            have hroot : (metaAt s.pages).root < s₁.pages.length :=
              Nat.lt_of_lt_of_le hins.lt_length hins.length_le
            by_cases hext : canExtend env s₁.pages.length
            · simp only [bind_apply, rtreeRootPromote_run_of_can hroot hext] at h
              rw [writeMetaRoot_run (by simp [promotedPages])] at h
              exact absurd h (by simp)
            · simp only [bind_apply, rtreeRootPromote_run_of_cannot hroot hext] at h
              injection h with h1 h2
              subst h1; subst h2
              exact ⟨_, .promote hlen hmagic hins hext, by simp [htrace]⟩

/-! ## Promotion keeps the trees -/

/-- The two downlinks of a new root always fit. -/
theorem promotedRoot_spec (leftblk : BlockNumber) (leftBox : RTreeTemporalBox) (right : SplitRight)
    (level : Nat) :
    NodeOk (level + 1) (promotedRoot leftblk leftBox right level).1 ∧
      nodes.kids (promotedRoot leftblk leftBox right level).1 = [leftblk, right.rightBlkno] ∧
      (promotedRoot leftblk leftBox right level).2 = [true, true] := by
  let page := rtreeInitDatapage { root := true } (level + 1)
  obtain ⟨page₁, hadd₁⟩ := pageAddItem_of_le page (rtreeFormTuple leftBox (childTid leftblk))
    (by simp [page, rtreeInitDatapage, pdLower, tupleBytes, pdSpecial])
  obtain ⟨hitems₁, hspecial₁⟩ := pageAddItem_items hadd₁
  have hsize := indexTupleSize_le (rtreeFormTuple leftBox (childTid leftblk))
  obtain ⟨page₂, hadd₂⟩ := pageAddItem_of_le page₁ (rightTuple right) (by
    simp only [hitems₁, page, rtreeInitDatapage, pdLower, tupleBytes, pdSpecial, List.nil_append,
      List.length_singleton, List.map_cons, List.map_nil, List.sum_cons, List.sum_nil]
    omega)
  obtain ⟨hitems₂, hspecial₂⟩ := pageAddItem_items hadd₂
  have hrun : promotedRoot leftblk leftBox right level = (page₂, [true, true]) := by
    simp only [promotedRoot, addItems, page] at hadd₁ hadd₂ ⊢
    rw [hadd₁]
    simp only [hadd₂]
  rw [hrun]
  have hitems : page₂.items = [rtreeFormTuple leftBox (childTid leftblk), rightTuple right] := by
    rw [hitems₂, hitems₁]
    rfl
  refine ⟨⟨?_, ?_, ?_, ?_⟩, ?_, rfl⟩
  · rw [hspecial₂, hspecial₁]
    rfl
  · rw [hspecial₂, hspecial₁]
    simp [page, rtreeInitDatapage]
  · rw [hitems]
    simp [rtreeFormTuple]
  · simp [hitems]
  · simp [nodes, hitems, rtreeFormTuple, childTid]

@[simp] theorem addsOk_promoteTrace {pages : List Page} {leftblk : BlockNumber} {leftBox : RTreeTemporalBox}
    {right : SplitRight} {level : Nat} : AddsOk (promoteTrace pages leftblk leftBox right level) := by
  simp [promoteTrace, (promotedRoot_spec leftblk leftBox right level).2.2]

/-- Clearing the ROOT flag changes neither downlinks nor tuples. -/
theorem pageAt_clearRootFlag {pages : List Page} {leftblk : BlockNumber} (hblk : leftblk < pages.length)
    (x : BlockNumber) :
    pageAt (pages.set leftblk (.data (clearRootFlag (pageAt pages leftblk)))) x =
      if x = leftblk then clearRootFlag (pageAt pages leftblk) else pageAt pages x := by
  split
  · next h => rw [h, pageAt_set_self hblk]
  · next h => rw [pageAt_set_ne h]

theorem pageAt_promotedPages_self {pages : List Page} {leftblk : BlockNumber} {leftBox : RTreeTemporalBox}
    {right : SplitRight} {level : Nat} : pageAt (promotedPages pages leftblk leftBox right level) pages.length =
      (promotedRoot leftblk leftBox right level).1 := by
  simp [promotedPages, pageAt, List.getD_eq_getElem?_getD, Page.asData]

section ClearRootFlag
variable {pages : List Page} {leftblk : BlockNumber}

/-- Without the root flag, the old root has the tuples it had. -/
theorem items_clearRootFlag (hblk : leftblk < pages.length) (x : BlockNumber) :
    (pageAt (pages.set leftblk (.data (clearRootFlag (pageAt pages leftblk)))) x).items = (pageAt pages x).items := by
  rw [pageAt_clearRootFlag hblk]
  split
  · next h => rw [h]; rfl
  · rfl

theorem NodeOk.clearRootFlag (hblk : leftblk < pages.length) {level : Nat} {x : BlockNumber}
    (hp : NodeOk level (pageAt pages x)) :
    NodeOk level (pageAt (pages.set leftblk (.data (clearRootFlag (pageAt pages leftblk)))) x) := by
  rw [pageAt_clearRootFlag hblk]
  split
  · next h => exact ⟨(h ▸ hp).level_eq, (h ▸ hp).leaf_iff, (h ▸ hp).keys, (h ▸ hp).inner_ne⟩
  · exact hp

end ClearRootFlag

/-- **Promotion puts a new top over the two halves of the old root.** -/
theorem promotedPages_spec {pages : List Page} {level : Nat} {leftblk : BlockNumber}
    (leftBox : RTreeTemporalBox) {right : SplitRight}
    (hf : nodes.Forest NodeOk (pageAt pages) level [leftblk, right.rightBlkno])
    (halloc : ∀ x ∈ nodes.forestBlocks (pageAt pages) level [leftblk, right.rightBlkno],
      x ∈ allocated pages) :
    let pages' := promotedPages pages leftblk leftBox right level
    nodes.Forest NodeOk (pageAt pages') (level + 1) [pages.length] ∧
      nodes.leaves (pageAt pages') (level + 1) pages.length =
        nodes.forestLeaves (pageAt pages) level [leftblk, right.rightBlkno] ∧
      nodes.blocks (pageAt pages') (level + 1) pages.length =
        pages.length :: nodes.forestBlocks (pageAt pages) level [leftblk, right.rightBlkno] := by
  intro pages'
  have hblk : leftblk < pages.length := halloc leftblk (by simp [self_mem_blocks])
  obtain ⟨hroot, hkids, -⟩ := promotedRoot_spec leftblk leftBox right level
  -- first the flag, then the new page
  let st₁ := pageAt (pages.set leftblk (.data (clearRootFlag (pageAt pages leftblk))))
  have hitems : ∀ x, (st₁ x).items = (pageAt pages x).items := items_clearRootFlag hblk
  have hk₁ : ∀ x, nodes.kids (st₁ x) = nodes.kids (pageAt pages x) := fun x => by simp [nodes, hitems]
  have hv₁ : ∀ x, nodes.vals (st₁ x) = nodes.vals (pageAt pages x) := hitems
  have hP₁ : ∀ l x, NodeOk l (pageAt pages x) → NodeOk l (st₁ x) := fun l x hp => hp.clearRootFlag hblk
  have hblocks₁ : nodes.forestBlocks st₁ level [leftblk, right.rightBlkno] =
      nodes.forestBlocks (pageAt pages) level [leftblk, right.rightBlkno] :=
    List.flatMap_congr fun _ _ => blocks_relabel hk₁
  have hleaves₁ : nodes.forestLeaves st₁ level [leftblk, right.rightBlkno] =
      nodes.forestLeaves (pageAt pages) level [leftblk, right.rightBlkno] :=
    List.flatMap_congr fun _ _ => leaves_relabel hk₁ hv₁
  have hself : pageAt pages' pages.length = (promotedRoot leftblk leftBox right level).1 :=
    pageAt_promotedPages_self
  have hnew : pages.length ∉ nodes.forestBlocks st₁ level [leftblk, right.rightBlkno] := by
    rw [hblocks₁]
    exact fun h => Nat.lt_irrefl _ (halloc _ h)
  have hframe : ∀ x ∈ nodes.forestBlocks st₁ level [leftblk, right.rightBlkno],
      pageAt pages' x = st₁ x := fun x hx =>
    pageAt_append_of_ne (by
      rw [List.length_set]
      exact fun he => hnew (he ▸ hx))
  have hsub : ([pages.length].flatMap fun t => nodes.kids (pageAt pages' t)).Subperm
      [leftblk, right.rightBlkno] := by
    simpa [hself, hkids] using List.Subperm.refl _
  refine ⟨?_, ?_, ?_⟩
  · refine Forest.ofTops (by simpa using hnew) hsub hframe (hf.relabel hk₁ hP₁)
      (List.nodup_singleton _) ?_
    simpa [hself] using hroot
  · rw [leaves_succ, hself, hkids, forestLeaves_congr hframe, hleaves₁]
  · rw [blocks_succ, hself, hkids, forestBlocks_congr hframe, hblocks₁]

/-! ## The meta page -/

theorem metaAt_splitPages {pages : List Page} {blk : BlockNumber} {itup : IndexTuple}
    {box : RTreeTemporalBox} {level : Nat} {flags : PageFlags} (hblk : blk < pages.length) (h0 : blk ≠ 0) :
    metaAt (splitPages pages blk itup box level flags) = metaAt pages := by
  rw [splitPages, metaAt_append (by rw [List.length_set]; exact Nat.zero_lt_of_lt hblk), metaAt_set_ne h0]

theorem metaAt_promotedPages {pages : List Page} {leftblk : BlockNumber} {leftBox : RTreeTemporalBox}
    {right : SplitRight} {level : Nat} (hblk : leftblk < pages.length) (h0 : 0 < leftblk) :
    metaAt (promotedPages pages leftblk leftBox right level) = metaAt pages := by
  rw [promotedPages, metaAt_append (by rw [List.length_set]; exact Nat.zero_lt_of_lt hblk),
    metaAt_set_ne (Nat.pos_iff_ne_zero.mp h0)]

theorem length_promotedPages {pages : List Page} {leftblk : BlockNumber} {leftBox : RTreeTemporalBox}
    {right : SplitRight} {level : Nat} :
    (promotedPages pages leftblk leftBox right level).length = pages.length + 1 := by
  simp [promotedPages]

/-- Promotion leaves the level tags of the pages alone. -/
theorem level_promotedPages {pages : List Page} {leftblk x : BlockNumber} {leftBox : RTreeTemporalBox}
    {right : SplitRight} {level : Nat} (hblk : leftblk < pages.length) (hx : x < pages.length) :
    (pageAt (promotedPages pages leftblk leftBox right level) x).special.level =
      (pageAt pages x).special.level := by
  rw [promotedPages, pageAt_append_of_lt (by simpa using hx), pageAt_clearRootFlag hblk]
  split
  · next h => rw [h]; rfl
  · rfl

section Descent
variable {env : Env} {itup : IndexTuple} {box : RTreeTemporalBox} {pages pages' : List Page}
  {blk : BlockNumber} {level : Nat} {res : RTreeInsertResult} {evs : List Event}

/-- A descent into a tree without block 0 leaves the meta page alone. -/
theorem Inserts.metaAt_eq (h : Inserts env itup box pages blk level res pages' evs)
    (h0 : 0 ∉ nodes.blocks (pageAt pages) level blk) : metaAt pages' = metaAt pages := by
  have hne : ∀ {b l}, 0 ∉ nodes.blocks (pageAt pages) l b → b ≠ 0 := fun h he =>
    h (he ▸ self_mem_blocks)
  induction h with
  | leafAdd => exact metaAt_set_ne (hne h0)
  | leafSplit hblk => exact metaAt_splitPages hblk (hne h0)
  | innerKeep hblk hchild hrec hrep ih =>
      rw [metaAt_set_ne (hne h0), ih fun hx => h0 (hchild.blocks_subset hx)]
  | innerAdd hblk hchild hrec hrep hroom hadd ih =>
      rw [metaAt_set_ne (hne h0), ih fun hx => h0 (hchild.blocks_subset hx)]
  | innerSplit hblk hchild hrec hrep hfull hext ih =>
      rw [metaAt_splitPages (by
        rw [List.length_set]
        exact Nat.lt_of_lt_of_le hblk hrec.length_le) (hne h0), metaAt_set_ne (hne h0),
        ih fun hx => h0 (hchild.blocks_subset hx)]

/-- Block numbers stay valid. -/
theorem Inserts.nblocks_le (h : Inserts env itup box pages blk level res pages' evs)
    (hle : pages.length ≤ invalidBlockNumber) : pages'.length ≤ invalidBlockNumber := by
  induction h with
  | leafAdd => simpa using hle
  | leafSplit hblk hleaf hfull hext => simpa using hext.1
  | innerKeep hblk hchild hrec hrep ih => simpa using ih
  | innerAdd hblk hchild hrec hrep hroom hadd ih => simpa using ih
  | innerSplit hblk hchild hrec hrep hfull hext ih => simpa using hext.1

end Descent

/-- The tree at `root` once the meta page names it. -/
theorem metaPages_tree {P : Nat → DataPage → Prop} {pages : List Page} {root : BlockNumber} {level : Nat}
    (hf : nodes.Forest P (pageAt pages) level [root])
    (hrange : ∀ x ∈ nodes.blocks (pageAt pages) level root, 0 < x ∧ x < pages.length) :
    metaAt (metaPages pages root level) = { metaAt pages with root := root, rootLevel := level } ∧
      nodes.Forest P (pageAt (metaPages pages root level)) level [root] ∧
      nodes.blocks (pageAt (metaPages pages root level)) level root = nodes.blocks (pageAt pages) level root ∧
      nodes.leaves (pageAt (metaPages pages root level)) level root =
        nodes.leaves (pageAt pages) level root := by
  have hcongr : ∀ x ∈ nodes.blocks (pageAt pages) level root,
      pageAt (metaPages pages root level) x = pageAt pages x := fun x hx =>
    pageAt_set_ne (Nat.pos_iff_ne_zero.mp (hrange x hx).1)
  exact ⟨metaAt_set_zero (Nat.zero_lt_of_lt (hrange root self_mem_blocks).2),
    hf.congr (by simpa using hcongr), blocks_congr hcongr, leaves_congr hcongr⟩

/-- **A tree apart from the meta page becomes the index when the meta page names its root.** -/
theorem WF.ofMeta (pages : List Page) (root : BlockNumber) (level : Nat)
    (hlen : pages.length ≤ invalidBlockNumber) (hmagic : (metaAt pages).magic = trtreeMetaMagic)
    (hf : nodes.Forest NodeOk (pageAt pages) level [root])
    (hrange : ∀ x ∈ nodes.blocks (pageAt pages) level root, 0 < x ∧ x < pages.length) :
    WF (metaPages pages root level) ∧
      contents (metaPages pages root level) = nodes.leaves (pageAt pages) level root := by
  obtain ⟨hmeta, hf', hblocks, hleaves⟩ := metaPages_tree hf hrange
  refine ⟨⟨by rw [hmeta]; exact hmagic, ?_, by rw [hmeta]; exact hf', fun x hx => ?_⟩, ?_⟩
  · rw [metaPages, List.length_set]
    exact hlen
  · rw [hmeta, hblocks] at hx
    rw [metaPages, List.length_set]
    exact hrange x hx
  · rw [contents, hmeta, hleaves]

/-- The same for an index whose inner pages may be empty. -/
theorem Fits.ofMeta (pages : List Page) (root : BlockNumber) (level : Nat)
    (hlen : pages.length ≤ invalidBlockNumber) (hmagic : (metaAt pages).magic = trtreeMetaMagic)
    (hf : nodes.Forest NodeFits (pageAt pages) level [root])
    (hrange : ∀ x ∈ nodes.blocks (pageAt pages) level root, 0 < x ∧ x < pages.length) :
    Fits (metaPages pages root level) := by
  obtain ⟨hmeta, hf', hblocks, -⟩ := metaPages_tree hf hrange
  refine ⟨by rw [hmeta]; exact hmagic, ?_, by rw [hmeta]; exact hf', fun x hx => ?_⟩
  · rw [metaPages, List.length_set]
    exact hlen
  · rw [hmeta, hblocks] at hx
    rw [metaPages, List.length_set]
    exact hrange x hx

/-! ## The specification -/

section Spec
variable {env : Env} {itup : IndexTuple} {box : RTreeTemporalBox} {pages pages' : List Page}
  {evs : List Event}

theorem WF.halloc (h : WF pages) : ∀ x ∈ nodes.forestBlocks (pageAt pages) (metaAt pages).rootLevel
    [(metaAt pages).root], x ∈ allocated pages := by
  intro x hx
  exact (h.range x (by simpa using hx)).2

theorem WF.zero_notMem (h : WF pages) :
    0 ∉ nodes.blocks (pageAt pages) (metaAt pages).rootLevel (metaAt pages).root :=
  fun hx => Nat.lt_irrefl 0 (h.range 0 hx).1

/-- The blocks of the trees a descent leaves are proper blocks. -/
theorem InsertSpec.range {blk : BlockNumber} {level : Nat} {ts : List BlockNumber}
    (h : InsertSpec itup pages blk level ts pages' evs)
    (hrange : ∀ x ∈ nodes.blocks (pageAt pages) level blk, 0 < x ∧ x < pages.length) :
    ∀ x ∈ nodes.forestBlocks (pageAt pages') level ts, 0 < x ∧ x < pages'.length := by
  intro x hx
  have hpos := hrange blk self_mem_blocks
  rcases h.update.mem x hx with hx | ⟨hx, hn⟩
  · have := hrange x (by simpa using hx)
    exact ⟨this.1, h.update.alloc_le this.2⟩
  · exact ⟨Nat.lt_of_lt_of_le (Nat.zero_lt_of_lt hpos.2) (Nat.not_lt.mp hn), hx⟩

theorem InsertsTuple.length_le (h : InsertsTuple env itup box pages pages' evs) :
    pages.length ≤ pages'.length := by
  cases h with
  | keep hlen hmagic hins => exact hins.length_le
  | promote hlen hmagic hins hext =>
      rw [metaPages, List.length_set, length_promotedPages]
      exact Nat.le_succ_of_le hins.length_le

/-- A split root and the new root over its halves. -/
theorem Inserts.promoted {pages₁ : List Page} {leftBox : RTreeTemporalBox} {right : SplitRight}
    (hins : Inserts env itup box pages (metaAt pages).root (metaAt pages).rootLevel
      { leftBox := leftBox, split := some right } pages₁ evs) (hkey : itup.key.isSome = true) (hwf : WF pages) :
    let halves := [(metaAt pages).root, right.rightBlkno]
    let pages' := promotedPages pages₁ (metaAt pages).root leftBox right (metaAt pages).rootLevel
    InsertSpec itup pages (metaAt pages).root (metaAt pages).rootLevel halves pages₁ evs ∧
      nodes.Forest NodeOk (pageAt pages') ((metaAt pages).rootLevel + 1) [pages₁.length] ∧
      nodes.leaves (pageAt pages') ((metaAt pages).rootLevel + 1) pages₁.length =
        nodes.forestLeaves (pageAt pages₁) (metaAt pages).rootLevel halves ∧
      nodes.blocks (pageAt pages') ((metaAt pages).rootLevel + 1) pages₁.length =
        pages₁.length :: nodes.forestBlocks (pageAt pages₁) (metaAt pages).rootLevel halves ∧
      (∀ x ∈ nodes.forestBlocks (pageAt pages₁) (metaAt pages).rootLevel halves, 0 < x ∧ x < pages₁.length) ∧
      ∀ x ∈ nodes.blocks (pageAt pages') ((metaAt pages).rootLevel + 1) pages₁.length,
        0 < x ∧ x < pages'.length := by
  intro halves pages'
  have hspec : InsertSpec itup pages (metaAt pages).root (metaAt pages).rootLevel halves pages₁ evs :=
    hins.spec hkey hwf.tree hwf.halloc
  have hrange₁ := hspec.range hwf.range
  obtain ⟨hf, hleaves, hblocks⟩ := promotedPages_spec leftBox hspec.update.forest fun x hx => (hrange₁ x hx).2
  refine ⟨hspec, hf, hleaves, hblocks, hrange₁, ?_⟩
  intro x hx
  rw [hblocks, List.mem_cons] at hx
  rw [length_promotedPages]
  rcases hx with rfl | hx
  · exact ⟨Nat.zero_lt_of_lt (Nat.lt_of_lt_of_le hins.lt_length hins.length_le), Nat.lt_succ_self _⟩
  · exact ⟨(hrange₁ x hx).1, Nat.lt_succ_of_lt (hrange₁ x hx).2⟩

/-- The index once the meta page names the new root. -/
theorem Inserts.promoted_wf {pages₁ : List Page} {leftBox : RTreeTemporalBox} {right : SplitRight}
    (hins : Inserts env itup box pages (metaAt pages).root (metaAt pages).rootLevel
      { leftBox := leftBox, split := some right } pages₁ evs) (hext : canExtend env pages₁.length)
    (hkey : itup.key.isSome = true) (hwf : WF pages) :
    let pages' := metaPages (promotedPages pages₁ (metaAt pages).root leftBox right (metaAt pages).rootLevel)
      pages₁.length ((metaAt pages).rootLevel + 1)
    WF pages' ∧ contents pages' =
      nodes.forestLeaves (pageAt pages₁) (metaAt pages).rootLevel [(metaAt pages).root, right.rightBlkno] := by
  obtain ⟨-, hf, hleaves, -, -, hrange⟩ := hins.promoted hkey hwf
  have hmeta : metaAt (promotedPages pages₁ (metaAt pages).root leftBox right
      (metaAt pages).rootLevel) = metaAt pages := by
    rw [metaAt_promotedPages (Nat.lt_of_lt_of_le hins.lt_length hins.length_le)
      (hwf.range _ self_mem_blocks).1, hins.metaAt_eq hwf.zero_notMem]
  rw [← hleaves]
  exact WF.ofMeta _ _ _ (by rw [length_promotedPages]; exact hext.1) (by rw [hmeta]; exact hwf.magic) hf hrange

/-- **A completed insert keeps the index well-formed and adds the tuple to its contents.** -/
theorem InsertsTuple.wf (h : InsertsTuple env itup box pages pages' evs) (hkey : itup.key.isSome = true)
    (hwf : WF pages) :
    WF pages' ∧ contents pages' ≤ itup ::ₘ contents pages ∧
      (AddsOk evs → contents pages' = itup ::ₘ contents pages) := by
  cases h with
  | @keep _ leftBox evs hlen hmagic hins =>
      have hspec := hins.spec hkey hwf.tree hwf.halloc
      have hmeta := hins.metaAt_eq hwf.zero_notMem
      have hts : resultBlocks (metaAt pages).root { leftBox := leftBox, split := none } =
        [(metaAt pages).root] := rfl
      rw [hts] at hspec
      refine ⟨⟨hmeta ▸ hmagic, hins.nblocks_le hwf.nblocks_le, hmeta ▸ hspec.update.forest, ?_⟩, ?_, ?_⟩
      · rw [hmeta]
        simpa using hspec.range hwf.range
      · rw [contents, contents, hmeta, Multiset.cons_coe, Multiset.coe_le]
        simpa using hspec.leaves_le
      · intro hok
        rw [contents, contents, hmeta, Multiset.cons_coe, Multiset.coe_eq_coe]
        simpa using hspec.leaves_perm (by simp_all)
  | @promote pages₁ leftBox right evs hlen hmagic hins hext =>
      have hspec := (hins.promoted hkey hwf).1
      obtain ⟨hwf', hcont⟩ := hins.promoted_wf hext hkey hwf
      refine ⟨hwf', ?_, ?_⟩
      · rw [hcont, contents, Multiset.cons_coe, Multiset.coe_le]
        exact hspec.leaves_le
      · intro hok
        rw [hcont, contents, Multiset.cons_coe, Multiset.coe_eq_coe]
        exact hspec.leaves_perm (by simp_all)

/-- An inner page of a tree has a downlink to follow, and it leads to a block of the relation. -/
theorem chooseSubtreeInsert_valid {blk : BlockNumber} {level : Nat} (hle : pages.length ≤ invalidBlockNumber)
    (hf : nodes.Holds NodeOk (pageAt pages) (level + 1) blk)
    (halloc : ∀ x ∈ nodes.blocks (pageAt pages) (level + 1) blk, x ∈ allocated pages) :
    chooseSubtreeInsert (pageAt pages blk) box ≠ invalidBlockNumber := by
  obtain ⟨t, ht, hblkno⟩ := chooseSubtreeInsert_mem box (hf.node.inner_ne (Nat.succ_ne_zero _))
  have hlt := halloc t.tTid.blkno (List.mem_cons_of_mem _
    (blocks_subset_forest (List.mem_map_of_mem ht) self_mem_blocks))
  rw [hblkno] at hlt
  exact Nat.ne_of_lt (Nat.lt_of_lt_of_le hlt hle)

/-- A failed descent into a tree could not extend the relation, if no `PageAddItem` failed. -/
theorem InsertFails.couldNotExtend {blk : BlockNumber} {level : Nat} {e : RTreeError}
    (h : InsertFails env itup box pages blk level e pages' evs)
    (hle : pages.length ≤ invalidBlockNumber)
    (hf : nodes.Holds NodeOk (pageAt pages) level blk)
    (halloc : ∀ x ∈ nodes.blocks (pageAt pages) level blk, x ∈ allocated pages) (hok : AddsOk evs) :
    e = .couldNotExtend := by
  induction h with
  | unreadable hblk => exact absurd (halloc _ self_mem_blocks) hblk
  | leafSplit => rfl
  | noDownlinks hblk hinner hnone => exact absurd hnone (chooseSubtreeInsert_valid hle hf halloc)
  | child hblk hchild hrec ih =>
      exact ih (hf.2 _ hchild.mem_kids) (fun x hx => halloc x (hchild.blocks_subset hx)) (by simp_all)
  | replace => simp at hok
  | innerSplit => rfl

theorem InsertTupleFails.couldNotExtend {e : RTreeError}
    (h : InsertTupleFails env itup box pages e pages' evs) (hwf : WF pages) (hok : AddsOk evs) :
    e = .couldNotExtend := by
  cases h with
  | unreadable hlen =>
      exact absurd (Nat.zero_lt_of_lt (hwf.range _ self_mem_blocks).2) hlen
  | missingMeta hlen hmagic => exact absurd hwf.magic hmagic
  | descent hlen hmagic hfail =>
      exact hfail.couldNotExtend hwf.nblocks_le (hwf.tree.holds _ (by simp))
        (by simpa using hwf.halloc) (by simp_all)
  | promote => rfl

end Spec

/-! ## Initialisation -/

/-- The meta page and the empty leaf that `rtree_meta_and_root_init` appends to `n` blocks. -/
def initPages (n : Nat) : List Page :=
  [.metapage (rtreeInitMetapage (n + 1) 0), .data (rtreeInitDatapage { leaf := true, root := true } 0)]

theorem rtreeMetaAndRootInit_run {env : Env} {s : Rel} (h : canExtend env s.pages.length)
    (h' : canExtend env (s.pages.length + 1)) :
    rtreeMetaAndRootInit env s = .ok ()
      { pages := s.pages ++ initPages s.pages.length
        trace := s.trace ++ [Event.lock s.pages.length .exclusive,
          Event.lock (s.pages.length + 1) .exclusive, Event.dirty s.pages.length,
          Event.dirty (s.pages.length + 1), Event.unlock (s.pages.length + 1),
          Event.unlock s.pages.length] } := by
  have h₂ : canExtend env (s.pages ++ [Page.zero]).length := by simpa using h'
  have hpages : ∀ p q : Page, ((s.pages ++ [Page.zero, Page.zero]).set s.pages.length p).set
      (s.pages.length + 1) q = s.pages ++ [p, q] := by
    intro p q
    rw [List.set_append_right _ _ (Nat.le_refl _), List.set_append_right _ _ (Nat.le_succ _)]
    simp
  simp only [rtreeMetaAndRootInit, bind_apply]
  rw [readBufferNew_run_of_can h]
  dsimp only
  rw [readBufferNew_run_of_can h₂]
  simp only [putPage_run, markBufferDirty_run, unlockBuffer_run, List.length_append,
    List.length_singleton, hpages, initPages, List.append_assoc, List.cons_append, List.nil_append]

/-- A failed initialisation could not extend the relation. -/
theorem rtreeMetaAndRootInit_eq_error {env : Env} {s : Rel}
    (h : ¬ (canExtend env s.pages.length ∧ canExtend env (s.pages.length + 1))) :
    ∃ s' evs, rtreeMetaAndRootInit env s = .error .couldNotExtend s' ∧ s'.trace = s.trace ++ evs := by
  by_cases h₁ : canExtend env s.pages.length
  · have h₂ : ¬ canExtend env (s.pages ++ [Page.zero]).length := by
      simpa using fun h' => h ⟨h₁, h'⟩
    refine ⟨⟨s.pages ++ [Page.zero], s.trace ++ [Event.lock s.pages.length .exclusive]⟩, _, ?_, rfl⟩
    simp only [rtreeMetaAndRootInit, bind_apply]
    rw [readBufferNew_run_of_can h₁]
    dsimp only
    rw [readBufferNew_run_of_cannot h₂]
  · refine ⟨s, [], ?_, by simp⟩
    simp only [rtreeMetaAndRootInit, bind_apply]
    rw [readBufferNew_run_of_cannot h₁]

/-- An index of one leaf with the given tuples. -/
def leafIndex (itups : List IndexTuple) : List Page :=
  [.metapage (rtreeInitMetapage 1 0),
    .data (addItems (rtreeInitDatapage { leaf := true, root := true } 0) itups).1]

theorem leafIndex_wf {itups : List IndexTuple} (hkeys : ∀ t ∈ itups, t.key.isSome = true) :
    WF (leafIndex itups) := by
  obtain ⟨added, hsub, hitems, hspecial, -⟩ :=
    addItems_items (rtreeInitDatapage { leaf := true, root := true } 0) itups
  have hpage : pageAt (leafIndex itups) 1 =
      (addItems (rtreeInitDatapage { leaf := true, root := true } 0) itups).1 := rfl
  have hmeta : metaAt (leafIndex itups) = rtreeInitMetapage 1 0 := rfl
  refine ⟨rfl, Nat.le_of_ble_eq_true rfl, ⟨?_, ?_⟩, ?_⟩
  · intro c hc
    obtain rfl : c = 1 := List.mem_singleton.mp hc
    refine ⟨?_, ?_, ?_, fun h => absurd rfl h⟩
    · rw [hpage, hspecial]
      rfl
    · rw [hpage, hspecial]
      simp [rtreeInitDatapage]
    · rw [hpage, hitems]
      simpa [rtreeInitDatapage] using fun t ht => hkeys t (hsub.subset ht)
  · simp [hmeta, rtreeInitMetapage]
  · rw [hmeta]
    simp [rtreeInitMetapage, leafIndex]

/-- A freshly initialised relation is an empty index. -/
theorem initPages_wf : WF (initPages 0) ∧ contents (initPages 0) = 0 :=
  ⟨leafIndex_wf (fun _ h => absurd h List.not_mem_nil), rfl⟩

/-- A NULL key is not stored in an initialised index. -/
theorem temporalRtreeInsert_run_of_none {env : Env} {htCtid : ItemPointerData} {s : Rel}
    (hlen : 2 ≤ s.pages.length) : temporalRtreeInsert env none htCtid s = .ok true s := by
  have hinit : ensureInitialised env s = .ok () s := by
    rw [ensureInitialised, bind_of_ok (get_apply s), if_neg (Nat.not_lt.mpr hlen)]
    rfl
  rw [temporalRtreeInsert, bind_of_ok hinit]
  rfl

theorem temporalRtreeInsert_run_of_some {env : Env} {cube : NDBOX} {htCtid : ItemPointerData} {s : Rel}
    (hlen : 2 ≤ s.pages.length) :
    temporalRtreeInsert env (some cube) htCtid s =
      (insertTuple env { tTid := htCtid, key := some cube } (rtreeCubeToBox cube) >>= fun _ => pure true) s := by
  have hinit : ensureInitialised env s = .ok () s := by
    rw [ensureInitialised, bind_of_ok (get_apply s), if_neg (Nat.not_lt.mpr hlen)]
    rfl
  rw [temporalRtreeInsert, bind_of_ok hinit]
  rfl

/-- A completed `temporal_rtree_insert` into an initialised index. -/
theorem temporalRtreeInsert_eq_ok {env : Env} {key : Option NDBOX} {htCtid : ItemPointerData} {s s' : Rel}
    {b : Bool} (hlen : 2 ≤ s.pages.length) (h : temporalRtreeInsert env key htCtid s = .ok b s') :
    (key = none ∧ s' = s) ∨
      ∃ box evs, key.isSome = true ∧ key.map rtreeCubeToBox = some box ∧ s'.trace = s.trace ++ evs ∧
        InsertsTuple env { tTid := htCtid, key := key } box s.pages s'.pages evs := by
  cases key with
  | none =>
      rw [temporalRtreeInsert_run_of_none hlen] at h
      injection h with _ h
      exact Or.inl ⟨rfl, h.symm⟩
  | some cube =>
      rw [temporalRtreeInsert_run_of_some hlen, bind_eq_ok] at h
      obtain ⟨u, s₁, hrun, h⟩ := h
      injection h with _ h
      obtain ⟨evs, hins, htrace⟩ := insertTuple_inserts hrun
      exact Or.inr ⟨_, evs, rfl, rfl, h ▸ htrace, h ▸ hins⟩

/-! ### Tuples that fill a page -/

/-- An open-ended key of the largest dimension, whose period starts at `lower`. -/
def wideKeyFrom (lower : ℚ) : NDBOX where
  dim := cubeMaxDim
  isPoint := false
  x := [.fin 0, .fin lower] ++ List.replicate 99 (.fin 0) ++ [.posInf] ++ List.replicate 98 (.fin 0)
  dim_le := Nat.le_refl _
  x_length := by
    rw [List.length_append, List.length_append, List.length_append, List.length_replicate,
      List.length_replicate]
    rfl

/-- An open-ended key of the largest dimension. -/
def wideKey : NDBOX := wideKeyFrom 0

/-- A tuple with this key: five of them fill a page, and of such a page a split moves only the tuple it was
    made for. -/
def wideTuple (offnum : OffsetNumber) : IndexTuple :=
  { tTid := { blkno := 0, offnum := offnum }, key := wideKey }

/-- A wide tuple whose period starts at `10 * i`. -/
def stair (i : Nat) : IndexTuple :=
  { tTid := { blkno := 0, offnum := i + 1 }, key := wideKeyFrom (10 * i) }

/-- An index of such tuples. -/
def stairs (n : Nat) : Rel where
  pages := leafIndex ((List.range n).map stair)

theorem stairs_wf (n : Nat) : WF (stairs n).pages := leafIndex_wf (by simp [stair])

/-- A WAL-logged relation on a disk with room. -/
def roomyEnv : Env where
  needsWal := true
  extendOk _ := true

/-- A disk with room for `n` blocks of the relation. -/
def diskOf (n : Nat) : Env where
  needsWal := true
  extendOk blkno := blkno < n

end TemporalRTree
