import TemporalRTree.Correctness.BufferRun

/-!
# `Correctness.InsertCases` — what a completed descent can have done

`Inserts` is the big-step reading of `rtree_insert_page`: one constructor per way the function can return,
with the pages before and after, the result, and the trace it leaves. The completed runs of the function are
exactly these (`rtreeInsertPage_inserts`, `Inserts.run`); every later fact about insertion is an induction over
`Inserts` and never opens the function again.
-/

namespace TemporalRTree
open EStateM

/-! ## Splitting a page -/

/-- The pages after `rtree_split_page` on `blk`. -/
def splitPages (pages : List Page) (blk : BlockNumber) (newitup : IndexTuple)
    (newbox : RTreeTemporalBox) (level : Nat) (flags : PageFlags) : List Page :=
  pages.set blk (.data (splitLeft (pageAt pages blk) newitup newbox level flags pages.length).1) ++
    [.data (splitRight (pageAt pages blk) newitup newbox level flags).1]

/-- What `rtree_split_page` returns. -/
def splitResult (pages : List Page) (blk : BlockNumber) (newitup : IndexTuple)
    (newbox : RTreeTemporalBox) (level : Nat) (flags : PageFlags) : RTreeInsertResult :=
  { leftBox := rtreePageMbr (splitLeft (pageAt pages blk) newitup newbox level flags pages.length).1
    split := some
      { rightBlkno := pages.length
        rightBox := rtreePageMbr (splitRight (pageAt pages blk) newitup newbox level flags).1 } }

/-- The trace of `rtree_split_page`. -/
def splitTrace (env : Env) (pages : List Page) (blk : BlockNumber) (newitup : IndexTuple)
    (newbox : RTreeTemporalBox) (level : Nat) (flags : PageFlags) : List Event :=
  let left := splitLeft (pageAt pages blk) newitup newbox level flags pages.length
  let right := splitRight (pageAt pages blk) newitup newbox level flags
  [Event.lock pages.length .exclusive] ++ left.2.map Event.addItem ++ right.2.map Event.addItem ++
    [Event.dirty blk, Event.dirty pages.length] ++
    walRecord env [(blk, .data left.1), (pages.length, .data right.1)] ++
    [Event.split blk pages.length, Event.unlock pages.length]

section Split
variable {env : Env} {s : Rel} {blk : BlockNumber} {newitup : IndexTuple} {newbox : RTreeTemporalBox}
  {level : Nat} {flags : PageFlags}

theorem rtreeSplitPage_run_of_can (hblk : blk < s.pages.length) (h : canExtend env s.pages.length) :
    rtreeSplitPage env blk newitup newbox level flags s =
      .ok (splitResult s.pages blk newitup newbox level flags)
        { pages := splitPages s.pages blk newitup newbox level flags
          trace := s.trace ++ splitTrace env s.pages blk newitup newbox level flags } := by
  have hne : blk ≠ s.pages.length := Nat.ne_of_lt hblk
  -- both page writes on the extended relation, as one list
  have hpages : ∀ p q : Page, ((s.pages ++ [Page.zero]).set blk p).set s.pages.length q =
      s.pages.set blk p ++ [q] := by
    intro p q
    rw [List.set_append_left _ _ hblk, List.set_append_right _ _ (by simp)]
    simp
  simp only [rtreeSplitPage, bind_apply, bufferGetPage_run, readBufferNew_run_of_can h, putPage_run,
    emitAddItems_run, markBufferDirty_run, rtreeWalSplit, genericXLog_run, emit_run, unlockBuffer_run,
    pure_apply, hpages]
  congr 2
  simp only [splitTrace, List.map_cons, List.map_nil, List.append_assoc, List.cons_append,
    List.nil_append]
  have hl : ∀ p q : Page, (s.pages.set blk p ++ [q]).getD blk .zero = p := by
    intro p q
    rw [List.getD_eq_getElem?_getD, List.getElem?_append_left (by simpa using hblk)]
    simp [hblk]
  have hr : ∀ p q : Page, (s.pages.set blk p ++ [q]).getD s.pages.length .zero = q := by
    intro p q
    rw [List.getD_eq_getElem?_getD, List.getElem?_append_right (by simp)]
    simp
  rw [hl, hr]

theorem rtreeSplitPage_run_of_cannot (h : ¬ canExtend env s.pages.length) :
    rtreeSplitPage env blk newitup newbox level flags s = .error .couldNotExtend s := by
  simp only [rtreeSplitPage, bind_apply, bufferGetPage_run, readBufferNew_run_of_cannot h]

/-- A completed split could extend the relation. -/
theorem rtreeSplitPage_eq_ok {s' : Rel} {res : RTreeInsertResult} (hblk : blk < s.pages.length)
    (h : rtreeSplitPage env blk newitup newbox level flags s = .ok res s') :
    canExtend env s.pages.length ∧ res = splitResult s.pages blk newitup newbox level flags ∧
      s' = { pages := splitPages s.pages blk newitup newbox level flags
             trace := s.trace ++ splitTrace env s.pages blk newitup newbox level flags } := by
  by_cases hext : canExtend env s.pages.length
  · rw [rtreeSplitPage_run_of_can hblk hext] at h
    injection h with h1 h2
    exact ⟨hext, h1.symm, h2.symm⟩
  · rw [rtreeSplitPage_run_of_cannot hext] at h
    exact absurd h (by simp)

end Split

/-! ## The big-step relation -/

/-- The trace of a page that was changed in place and logged. -/
def changeTrace (env : Env) (blk : BlockNumber) (page : DataPage) : List Event :=
  [Event.dirty blk] ++ walRecord env [(blk, .data page)]

/-- `ChoosesChild page box pos childitup`: the downlink that `rtree_insert_page` follows on `page`. -/
structure ChoosesChild (page : DataPage) (box : RTreeTemporalBox) (pos : Nat) (childitup : IndexTuple) :
    Prop where
  inner : page.special.flags.leaf = false
  valid : chooseSubtreeInsert page box ≠ invalidBlockNumber
  item : page.items[pos]? = some childitup
  blkno : childitup.tTid.blkno = chooseSubtreeInsert page box
  first : page.items.findIdx? (fun t => t.tTid.blkno = chooseSubtreeInsert page box) = some pos

/-- The downlink of a split child's right half. -/
abbrev rightTuple (right : SplitRight) : IndexTuple :=
  rtreeFormTuple right.rightBox (childTid right.rightBlkno)

/-- A completed `rtree_insert_page`: pages before, block, level counter, result, pages after, trace. -/
inductive Inserts (env : Env) (itup : IndexTuple) (box : RTreeTemporalBox) :
    List Page → BlockNumber → Nat → RTreeInsertResult → List Page → List Event → Prop where
  | leafAdd {pages : List Page} {blk : BlockNumber} {level : Nat} {page' : DataPage}
      (hblk : blk < pages.length)
      (hleaf : level = 0 ∨ (pageAt pages blk).special.flags.leaf = true)
      (hroom : hasRoom (pageAt pages blk) itup = true)
      (hadd : pageAddItem (pageAt pages blk) itup invalidOffsetNumber = some page') :
      Inserts env itup box pages blk level { leftBox := rtreePageMbr page', split := none }
        (pages.set blk (.data page'))
        ([Event.lock blk .exclusive, Event.addItem true] ++ changeTrace env blk page' ++ [Event.unlock blk])
  | leafSplit {pages : List Page} {blk : BlockNumber} {level : Nat}
      (hblk : blk < pages.length)
      (hleaf : level = 0 ∨ (pageAt pages blk).special.flags.leaf = true)
      (hfull : hasRoom (pageAt pages blk) itup = false)
      (hext : canExtend env pages.length) :
      Inserts env itup box pages blk level
        (splitResult pages blk itup box (pageAt pages blk).special.level (pageAt pages blk).special.flags)
        (splitPages pages blk itup box (pageAt pages blk).special.level (pageAt pages blk).special.flags)
        ([Event.lock blk .exclusive] ++
          splitTrace env pages blk itup box (pageAt pages blk).special.level
            (pageAt pages blk).special.flags ++ [Event.unlock blk])
  | innerKeep {pages pages₁ : List Page} {blk : BlockNumber} {level pos : Nat} {childitup : IndexTuple}
      {childBox : RTreeTemporalBox} {page₂ : DataPage} {evs : List Event}
      (hblk : blk < pages.length)
      (hchild : ChoosesChild (pageAt pages blk) box pos childitup)
      (hrec : Inserts env itup box pages childitup.tTid.blkno level
        { leftBox := childBox, split := none } pages₁ evs)
      (hrep : rtreeReplaceTuple (pageAt pages₁ blk) (pos + 1)
        (rtreeFormTuple childBox childitup.tTid) = some page₂) :
      Inserts env itup box pages blk (level + 1) { leftBox := rtreePageMbr page₂, split := none }
        (pages₁.set blk (.data page₂))
        ([Event.lock blk .exclusive] ++ evs ++ [Event.addItem true] ++ changeTrace env blk page₂ ++
          [Event.unlock blk])
  | innerAdd {pages pages₁ : List Page} {blk : BlockNumber} {level pos : Nat} {childitup : IndexTuple}
      {childBox : RTreeTemporalBox} {right : SplitRight} {page₂ page₃ : DataPage} {evs : List Event}
      (hblk : blk < pages.length)
      (hchild : ChoosesChild (pageAt pages blk) box pos childitup)
      (hrec : Inserts env itup box pages childitup.tTid.blkno level
        { leftBox := childBox, split := some right } pages₁ evs)
      (hrep : rtreeReplaceTuple (pageAt pages₁ blk) (pos + 1)
        (rtreeFormTuple childBox childitup.tTid) = some page₂)
      (hroom : hasRoom page₂ (rightTuple right) = true)
      (hadd : pageAddItem page₂ (rightTuple right) invalidOffsetNumber = some page₃) :
      Inserts env itup box pages blk (level + 1) { leftBox := rtreePageMbr page₃, split := none }
        (pages₁.set blk (.data page₃))
        ([Event.lock blk .exclusive] ++ evs ++ [Event.addItem true, Event.addItem true] ++
          changeTrace env blk page₃ ++ [Event.unlock blk])
  | innerSplit {pages pages₁ : List Page} {blk : BlockNumber} {level pos : Nat} {childitup : IndexTuple}
      {childBox : RTreeTemporalBox} {right : SplitRight} {page₂ : DataPage} {evs : List Event}
      (hblk : blk < pages.length)
      (hchild : ChoosesChild (pageAt pages blk) box pos childitup)
      (hrec : Inserts env itup box pages childitup.tTid.blkno level
        { leftBox := childBox, split := some right } pages₁ evs)
      (hrep : rtreeReplaceTuple (pageAt pages₁ blk) (pos + 1)
        (rtreeFormTuple childBox childitup.tTid) = some page₂)
      (hfull : hasRoom page₂ (rightTuple right) = false)
      (hext : canExtend env pages₁.length) :
      Inserts env itup box pages blk (level + 1)
        (splitResult (pages₁.set blk (.data page₂)) blk (rightTuple right) right.rightBox (level + 1)
          page₂.special.flags)
        (splitPages (pages₁.set blk (.data page₂)) blk (rightTuple right) right.rightBox (level + 1)
          page₂.special.flags)
        ([Event.lock blk .exclusive] ++ evs ++ [Event.addItem true] ++
          splitTrace env (pages₁.set blk (.data page₂)) blk (rightTuple right) right.rightBox (level + 1)
            page₂.special.flags ++ [Event.unlock blk])

variable {env : Env} {itup : IndexTuple} {box : RTreeTemporalBox}

@[simp] theorem splitPages_length {pages : List Page} {blk : BlockNumber} {newbox : RTreeTemporalBox}
    {level : Nat} {flags : PageFlags} :
    (splitPages pages blk itup newbox level flags).length = pages.length + 1 := by
  simp [splitPages]

/-- A descent never shortens the relation. -/
theorem Inserts.length_le {pages pages' : List Page} {blk : BlockNumber} {level : Nat}
    {res : RTreeInsertResult} {evs : List Event}
    (h : Inserts env itup box pages blk level res pages' evs) : pages.length ≤ pages'.length := by
  induction h with
  | leafAdd => simp
  | leafSplit => simp
  | innerKeep _ _ _ _ ih => simpa using ih
  | innerAdd _ _ _ _ _ _ ih => simpa using ih
  | innerSplit _ _ _ _ _ _ ih => simpa using Nat.le_succ_of_le ih

/-- A descent that returns a split has recorded it. -/
theorem Inserts.split_mem {pages pages' : List Page} {blk : BlockNumber} {level : Nat}
    {res : RTreeInsertResult} {evs : List Event} {right : SplitRight}
    (h : Inserts env itup box pages blk level res pages' evs) (hs : res.split = some right) :
    Event.split blk right.rightBlkno ∈ evs := by
  cases h with
  | leafAdd => simp at hs
  | leafSplit =>
      obtain rfl := Option.some.inj hs
      simp [splitTrace]
  | innerKeep => simp at hs
  | innerAdd => simp at hs
  | innerSplit =>
      obtain rfl := Option.some.inj hs
      simp [splitTrace]

/-! ## Completed runs are big steps -/

theorem getD_set_self {pages : List Page} {b : BlockNumber} {p : Page} (h : b < pages.length) :
    (pages.set b p).getD b .zero = p := by
  simp [List.getD_eq_getElem?_getD, h]

/-- `rtree_insert_leaf` with room on the page. -/
theorem rtreeInsertLeaf_run_of_room {s : Rel} {blk : BlockNumber} {page' : DataPage}
    (hblk : blk < s.pages.length) (hroom : hasRoom (pageAt s.pages blk) itup = true)
    (hadd : pageAddItem (pageAt s.pages blk) itup invalidOffsetNumber = some page') :
    rtreeInsertLeaf env blk itup box s =
      .ok { leftBox := rtreePageMbr page', split := none }
        { pages := s.pages.set blk (.data page')
          trace := s.trace ++ ([Event.addItem true] ++ changeTrace env blk page') } := by
  simp only [rtreeInsertLeaf, bind_apply, bufferGetPage_run, hroom, if_true, hadd, emit_run, putPage_run,
    markBufferDirty_run, rtreeWalInsert, genericXLog_run, pure_apply, List.map_cons, List.map_nil,
    getD_set_self hblk, changeTrace, List.append_assoc]

/-- `rtree_insert_leaf` on a full page is `rtree_split_page`. -/
theorem rtreeInsertLeaf_run_of_full {s : Rel} {blk : BlockNumber}
    (hfull : hasRoom (pageAt s.pages blk) itup = false) :
    rtreeInsertLeaf env blk itup box s =
      rtreeSplitPage env blk itup box (pageAt s.pages blk).special.level
        (pageAt s.pages blk).special.flags s := by
  simp only [rtreeInsertLeaf, bind_apply, bufferGetPage_run, hfull, Bool.false_eq_true, if_false]

/-- The leaf branch, once the page is locked. -/
theorem insertAtLeaf_inserts {s s' : Rel} {blk : BlockNumber} {res : RTreeInsertResult}
    (h : insertAtLeaf env blk itup box s = .ok res s') (hblk : blk < s.pages.length) (level : Nat)
    (hleaf : level = 0 ∨ (pageAt s.pages blk).special.flags.leaf = true) :
    ∃ evs, Inserts env itup box s.pages blk level res s'.pages (Event.lock blk .exclusive :: evs) ∧
      s'.trace = s.trace ++ evs := by
  simp only [insertAtLeaf, bind_eq_ok] at h
  obtain ⟨r, s₁, hins, h⟩ := h
  simp only [unlockBuffer_run, Result.ok.injEq, pure_apply] at h
  obtain ⟨u, s₂, ⟨-, rfl⟩, rfl, rfl⟩ := h
  cases hroom : hasRoom (pageAt s.pages blk) itup with
  | true =>
      obtain ⟨page', hadd⟩ := pageAddItem_of_hasRoom hroom
      injection (rtreeInsertLeaf_run_of_room hblk hroom hadd).symm.trans hins with h1 h2
      subst h1; subst h2
      exact ⟨_, .leafAdd hblk hleaf hroom hadd, by simp [changeTrace]⟩
  | false =>
      have hsplit := (rtreeInsertLeaf_run_of_full hroom).symm.trans hins
      obtain ⟨hext, rfl, rfl⟩ := rtreeSplitPage_eq_ok hblk hsplit
      exact ⟨_, .leafSplit hblk hleaf hroom hext, by simp⟩

theorem finishInsertPage_run {s : Rel} {blk : BlockNumber} :
    finishInsertPage env blk s =
      .ok { leftBox := rtreePageMbr (pageAt s.pages blk), split := none }
        { s with trace := s.trace ++
            ([Event.dirty blk] ++ walRecord env [(blk, s.pages.getD blk .zero)] ++ [Event.unlock blk]) } := by
  simp only [finishInsertPage, bind_apply, markBufferDirty_run, rtreeWalInsert, genericXLog_run,
    bufferGetPage_run, unlockBuffer_run, pure_apply, List.map_cons, List.map_nil, List.append_assoc]

/-- The inner branch after the recursive call, when it succeeds: the three ways to carry the child's result
    into the page. -/
theorem updateDownlinks_eq_ok {s s' : Rel} {blk : BlockNumber} {level pos : Nat} {tid : ItemPointerData}
    {childres res : RTreeInsertResult} (hblk : blk < s.pages.length)
    (h : updateDownlinks env blk level (pos + 1) tid childres s = .ok res s') :
    ∃ page₂, rtreeReplaceTuple (pageAt s.pages blk) (pos + 1)
        (rtreeFormTuple childres.leftBox tid) = some page₂ ∧
      ((childres.split = none ∧ res = { leftBox := rtreePageMbr page₂, split := none } ∧
          s' = { pages := s.pages.set blk (.data page₂)
                 trace := s.trace ++
                  ([Event.addItem true] ++ changeTrace env blk page₂ ++ [Event.unlock blk]) }) ∨
       (∃ right page₃, childres.split = some right ∧ hasRoom page₂ (rightTuple right) = true ∧
          pageAddItem page₂ (rightTuple right) invalidOffsetNumber = some page₃ ∧
          res = { leftBox := rtreePageMbr page₃, split := none } ∧
          s' = { pages := s.pages.set blk (.data page₃)
                 trace := s.trace ++
                  ([Event.addItem true, Event.addItem true] ++ changeTrace env blk page₃ ++
                    [Event.unlock blk]) }) ∨
       (∃ right, childres.split = some right ∧ hasRoom page₂ (rightTuple right) = false ∧
          canExtend env s.pages.length ∧
          res = splitResult (s.pages.set blk (.data page₂)) blk (rightTuple right) right.rightBox level
            page₂.special.flags ∧
          s' = { pages := splitPages (s.pages.set blk (.data page₂)) blk (rightTuple right) right.rightBox
                  level page₂.special.flags
                 trace := s.trace ++ ([Event.addItem true] ++
                  splitTrace env (s.pages.set blk (.data page₂)) blk (rightTuple right) right.rightBox level
                    page₂.special.flags ++ [Event.unlock blk]) })) := by
  simp only [updateDownlinks, bind_apply, bufferGetPage_run] at h
  cases hrep : rtreeReplaceTuple (pageAt s.pages blk) (pos + 1)
      (rtreeFormTuple childres.leftBox tid) with
  | none =>
      rw [hrep] at h
      simp [bind_apply] at h
  | some page₂ =>
      rw [hrep] at h
      simp only [bind_apply, emit_run, putPage_run] at h
      refine ⟨page₂, rfl, ?_⟩
      have hset : ∀ p, (s.pages.set blk (.data p)).getD blk .zero = .data p := fun p => getD_set_self hblk
      cases hsplit : childres.split with
      | none =>
          rw [hsplit] at h
          simp only [finishInsertPage_run, pageAt_set_self hblk, hset] at h
          injection h with h1 h2
          exact Or.inl ⟨rfl, h1.symm, by rw [← h2]; simp [changeTrace]⟩
      | some right =>
          rw [hsplit] at h
          dsimp only at h
          by_cases hroom : hasRoom page₂ (rightTuple right) = true
          · obtain ⟨page₃, hadd⟩ := pageAddItem_of_hasRoom hroom
            rw [if_pos hroom, hadd] at h
            simp only [bind_apply, emit_run, putPage_run, List.set_set, finishInsertPage_run,
              pageAt_set_self hblk, hset] at h
            injection h with h1 h2
            exact Or.inr (Or.inl ⟨right, page₃, rfl, hroom, hadd, h1.symm,
              by rw [← h2]; simp [changeTrace]⟩)
          · rw [if_neg hroom, bind_eq_ok] at h
            obtain ⟨r, s₁, hs, h⟩ := h
            obtain ⟨hext, rfl, rfl⟩ := rtreeSplitPage_eq_ok (by simpa using hblk) hs
            simp only [bind_eq_ok, unlockBuffer_run, Result.ok.injEq, pure_apply] at h
            obtain ⟨u, s₂, ⟨-, rfl⟩, rfl, rfl⟩ := h
            exact Or.inr (Or.inr ⟨right, rfl, by simpa using hroom, by simpa using hext, rfl, by simp⟩)

/-- The located downlink is the one that is followed. -/
theorem choosesChild_of_findIdx {page : DataPage} {pos : Nat}
    (hinner : page.special.flags.leaf = false) (hvalid : chooseSubtreeInsert page box ≠ invalidBlockNumber)
    (hpos : page.items.findIdx? (fun t => t.tTid.blkno = chooseSubtreeInsert page box) = some pos) :
    ∃ childitup, ChoosesChild page box pos childitup := by
  obtain ⟨hlt, hmatch, -⟩ := List.findIdx?_eq_some_iff_getElem.mp hpos
  exact ⟨page.items[pos], hinner, hvalid, List.getElem?_eq_getElem hlt, by simpa using hmatch, hpos⟩

/-- **Every completed run of `rtree_insert_page` is a big step.** -/
theorem rtreeInsertPage_inserts : ∀ {level : Nat} {s s' : Rel} {blk : BlockNumber}
    {res : RTreeInsertResult}, rtreeInsertPage env blk level itup box s = .ok res s' →
    ∃ evs, Inserts env itup box s.pages blk level res s'.pages evs ∧ s'.trace = s.trace ++ evs := by
  intro level
  induction level with
  | zero =>
      intro s₀ s' blk res h
      rw [rtreeInsertPage, bind_eq_ok] at h
      obtain ⟨u, s, hread, h⟩ := h
      obtain ⟨hblk, rfl⟩ := readBuffer_eq_ok.mp hread
      simp only [bind_apply, lockBuffer_run, bufferGetPage_run] at h
      obtain ⟨evs, hins, htrace⟩ := insertAtLeaf_inserts h hblk 0 (Or.inl rfl)
      exact ⟨_, hins, by simp [htrace]⟩
  | succ level ih =>
      intro s₀ s' blk res h
      rw [rtreeInsertPage, bind_eq_ok] at h
      obtain ⟨u, s, hread, h⟩ := h
      obtain ⟨hblk, rfl⟩ := readBuffer_eq_ok.mp hread
      simp only [bind_apply, lockBuffer_run, bufferGetPage_run] at h
      split at h
      · next hleaf =>
        obtain ⟨evs, hins, htrace⟩ := insertAtLeaf_inserts h hblk (level + 1) (Or.inr hleaf)
        exact ⟨_, hins, by simp [htrace]⟩
      · next hinner =>
        split at h
        · simp [bind_apply] at h
        · next hvalid =>
          cases hpos : (pageAt s.pages blk).items.findIdx?
              (fun t => t.tTid.blkno = chooseSubtreeInsert (pageAt s.pages blk) box) with
          | none =>
              rw [hpos] at h
              simp [bind_apply] at h
          | some pos =>
              rw [hpos] at h
              obtain ⟨childitup, hchild⟩ := choosesChild_of_findIdx (by simpa using hinner) hvalid hpos
              simp only [hchild.item, Option.map_some, Option.getD_some] at h
              rw [← hchild.blkno, bind_eq_ok] at h
              obtain ⟨childres, s₁, hrec, h⟩ := h
              obtain ⟨evs, hins, htrace⟩ := ih hrec
              have hblk₁ : blk < s₁.pages.length := Nat.lt_of_lt_of_le hblk hins.length_le
              obtain ⟨page₂, hrep, hcase⟩ := updateDownlinks_eq_ok hblk₁ h
              obtain ⟨childBox, split⟩ := childres
              rcases hcase with ⟨rfl, rfl, rfl⟩ | ⟨right, page₃, rfl, hroom, hadd, rfl, rfl⟩ |
                ⟨right, rfl, hroom, hext, rfl, rfl⟩
              · exact ⟨_, .innerKeep hblk hchild hins hrep, by simp [htrace]⟩
              · exact ⟨_, .innerAdd hblk hchild hins hrep hroom hadd, by simp [htrace]⟩
              · exact ⟨_, .innerSplit hblk hchild hins hrep hroom hext, by simp [htrace]⟩

/-! ## Big steps are completed runs -/

section Run
variable {s : Rel} {blk : BlockNumber} {level pos : Nat}

/-- The run of `rtree_insert_page` at a leaf. -/
theorem rtreeInsertPage_run_of_leaf {res : RTreeInsertResult} {s' : Rel} (hblk : blk < s.pages.length)
    (hleaf : level = 0 ∨ (pageAt s.pages blk).special.flags.leaf = true)
    (h : rtreeInsertLeaf env blk itup box { s with trace := s.trace ++ [Event.lock blk .exclusive] } =
      .ok res s') :
    rtreeInsertPage env blk level itup box s = .ok res { s' with trace := s'.trace ++ [Event.unlock blk] } := by
  have hat : insertAtLeaf env blk itup box { s with trace := s.trace ++ [Event.lock blk .exclusive] } =
      .ok res { s' with trace := s'.trace ++ [Event.unlock blk] } := by
    rw [insertAtLeaf, bind_of_ok h, bind_of_ok (unlockBuffer_run _ _), pure_apply]
  cases level with
  | zero =>
      rw [rtreeInsertPage, bind_of_ok (readBuffer_run_of_lt hblk)]
      simp only [bind_apply, lockBuffer_run, bufferGetPage_run]
      exact hat
  | succ level =>
      have hleaf : (pageAt s.pages blk).special.flags.leaf = true := hleaf.resolve_left (Nat.succ_ne_zero _)
      rw [rtreeInsertPage, bind_of_ok (readBuffer_run_of_lt hblk)]
      simp only [bind_apply, lockBuffer_run, bufferGetPage_run, hleaf, if_true]
      exact hat

/-- The run of `rtree_insert_page` at an inner page: the call for the child, then the downlinks. -/
theorem rtreeInsertPage_run_of_inner {childitup : IndexTuple} {childres : RTreeInsertResult} {s₁ : Rel}
    (hblk : blk < s.pages.length) (hchild : ChoosesChild (pageAt s.pages blk) box pos childitup)
    (h : rtreeInsertPage env childitup.tTid.blkno level itup box
      { s with trace := s.trace ++ [Event.lock blk .exclusive] } = .ok childres s₁) :
    rtreeInsertPage env blk (level + 1) itup box s =
      updateDownlinks env blk (level + 1) (pos + 1) childitup.tTid childres s₁ := by
  rw [rtreeInsertPage, bind_of_ok (readBuffer_run_of_lt hblk)]
  simp only [bind_apply, lockBuffer_run, bufferGetPage_run, hchild.inner, Bool.false_eq_true, if_false,
    if_neg hchild.valid, hchild.first, hchild.item, Option.map_some, Option.getD_some]
  rw [← hchild.blkno, h]

end Run

/-- **A big step is a completed run of `rtree_insert_page`.** -/
theorem Inserts.run {pages pages' : List Page} {blk : BlockNumber} {level : Nat} {res : RTreeInsertResult}
    {evs : List Event} (h : Inserts env itup box pages blk level res pages' evs) (trace : List Event) :
    rtreeInsertPage env blk level itup box { pages := pages, trace := trace } =
      .ok res { pages := pages', trace := trace ++ evs } := by
  induction h generalizing trace with
  | @leafAdd blk level page' hblk hleaf hroom hadd =>
      let s : Rel := { pages := pages, trace := trace ++ [Event.lock blk .exclusive] }
      have hrun : rtreeInsertLeaf env blk itup box s = _ :=
        rtreeInsertLeaf_run_of_room (s := s) hblk hroom hadd
      rw [rtreeInsertPage_run_of_leaf (s := { pages := pages, trace := trace }) hblk hleaf hrun]
      simp [s]
  | @leafSplit blk level hblk hleaf hfull hext =>
      let s : Rel := { pages := pages, trace := trace ++ [Event.lock blk .exclusive] }
      have hrun : rtreeInsertLeaf env blk itup box s = _ :=
        (rtreeInsertLeaf_run_of_full (s := s) hfull).trans (rtreeSplitPage_run_of_can (s := s) hblk hext)
      rw [rtreeInsertPage_run_of_leaf (s := { pages := pages, trace := trace }) hblk hleaf hrun]
      simp [s]
  | @innerKeep pages₁ blk level pos childitup childBox page₂ evs hblk hchild hrec hrep ih =>
      have hblk₁ : blk < pages₁.length := Nat.lt_of_lt_of_le hblk hrec.length_le
      rw [rtreeInsertPage_run_of_inner (s := { pages := pages, trace := trace }) hblk hchild (ih _),
        updateDownlinks]
      simp only [bind_apply, bufferGetPage_run, hrep, emit_run, putPage_run, finishInsertPage_run,
        pageAt_set_self hblk₁, getD_set_self hblk₁]
      simp [changeTrace]
  | @innerAdd pages₁ blk level pos childitup childBox right page₂ page₃ evs hblk hchild hrec hrep hroom
      hadd ih =>
      have hblk₁ : blk < pages₁.length := Nat.lt_of_lt_of_le hblk hrec.length_le
      rw [rtreeInsertPage_run_of_inner (s := { pages := pages, trace := trace }) hblk hchild (ih _),
        updateDownlinks]
      simp only [bind_apply, bufferGetPage_run, hrep, emit_run, putPage_run, if_pos hroom, hadd,
        List.set_set, finishInsertPage_run, pageAt_set_self hblk₁, getD_set_self hblk₁]
      simp [changeTrace]
  | @innerSplit pages₁ blk level pos childitup childBox right page₂ evs hblk hchild hrec hrep hfull hext
      ih =>
      have hblk₁ : blk < pages₁.length := Nat.lt_of_lt_of_le hblk hrec.length_le
      rw [rtreeInsertPage_run_of_inner (s := { pages := pages, trace := trace }) hblk hchild (ih _),
        updateDownlinks]
      simp only [bind_apply, bufferGetPage_run, hrep, emit_run, putPage_run, hfull, Bool.false_eq_true,
        if_false]
      rw [rtreeSplitPage_run_of_can (by simpa using hblk₁) (by simpa using hext)]
      simp

/-- So a descent has one outcome. -/
theorem Inserts.unique {pages pages₁ pages₂ : List Page} {blk : BlockNumber} {level : Nat}
    {res₁ res₂ : RTreeInsertResult} {evs₁ evs₂ : List Event}
    (h₁ : Inserts env itup box pages blk level res₁ pages₁ evs₁)
    (h₂ : Inserts env itup box pages blk level res₂ pages₂ evs₂) : pages₁ = pages₂ := by
  have h := (h₁.run []).symm.trans (h₂.run [])
  simp only [Result.ok.injEq, Rel.mk.injEq] at h
  exact h.2.1

/-! ## Failed runs -/

/-- The block `choose_subtree_insert` returns is that of a downlink, unless there is none. -/
theorem chooseSubtreeInsert_mem {page : DataPage} (box : RTreeTemporalBox) (hne : page.items ≠ []) :
    ∃ t ∈ page.items, t.tTid.blkno = chooseSubtreeInsert page box := by
  -- the accumulator holds the initial block or the block of a tuple already seen
  have hfold : ∀ (items : List IndexTuple) (best : ℚ × BlockNumber),
      (items.foldl (chooseStep box) best).2 = best.2 ∨
        ∃ t ∈ items, t.tTid.blkno = (items.foldl (chooseStep box) best).2 := by
    intro items
    induction items with
    | nil => exact fun best => Or.inl rfl
    | cons t items ih =>
        intro best
        rw [List.foldl_cons]
        have hstep : (chooseStep box best t).2 = best.2 ∨ t.tTid.blkno = (chooseStep box best t).2 := by
          unfold chooseStep
          split
          · exact Or.inl rfl
          · split
            · exact Or.inr rfl
            · exact Or.inl rfl
        rcases ih (chooseStep box best t) with h | ⟨u, hu, h⟩
        · rcases hstep with h' | h'
          · exact Or.inl (h.trans h')
          · exact Or.inr ⟨t, List.mem_cons_self, h'.trans h.symm⟩
        · exact Or.inr ⟨u, List.mem_cons_of_mem _ hu, h⟩
  simp only [chooseSubtreeInsert]
  split
  · cases hitems : page.items with
    | nil => exact absurd hitems hne
    | cons first rest => exact ⟨first, List.mem_cons_self, rfl⟩
  · next hvalid =>
    rcases hfold page.items (dblMax, invalidBlockNumber) with h | h
    · exact absurd h hvalid
    · exact h

/-- A failed `rtree_insert_page`: pages before, block, level counter, error, pages left behind, trace. -/
inductive InsertFails (env : Env) (itup : IndexTuple) (box : RTreeTemporalBox) :
    List Page → BlockNumber → Nat → RTreeError → List Page → List Event → Prop where
  | unreadable {pages : List Page} {blk : BlockNumber} {level : Nat} (hblk : ¬ blk < pages.length) :
      InsertFails env itup box pages blk level .couldNotReadBlock pages []
  | leafSplit {pages : List Page} {blk : BlockNumber} {level : Nat}
      (hblk : blk < pages.length)
      (hleaf : level = 0 ∨ (pageAt pages blk).special.flags.leaf = true)
      (hfull : hasRoom (pageAt pages blk) itup = false)
      (hext : ¬ canExtend env pages.length) :
      InsertFails env itup box pages blk level .couldNotExtend pages [Event.lock blk .exclusive]
  | noDownlinks {pages : List Page} {blk : BlockNumber} {level : Nat}
      (hblk : blk < pages.length)
      (hinner : (pageAt pages blk).special.flags.leaf = false)
      (hnone : chooseSubtreeInsert (pageAt pages blk) box = invalidBlockNumber) :
      InsertFails env itup box pages blk (level + 1) .noDownlinks pages
        [Event.lock blk .exclusive, Event.unlock blk]
  | child {pages pages' : List Page} {blk : BlockNumber} {level pos : Nat} {childitup : IndexTuple}
      {e : RTreeError} {evs : List Event}
      (hblk : blk < pages.length)
      (hchild : ChoosesChild (pageAt pages blk) box pos childitup)
      (hrec : InsertFails env itup box pages childitup.tTid.blkno level e pages' evs) :
      InsertFails env itup box pages blk (level + 1) e pages' ([Event.lock blk .exclusive] ++ evs)
  | replace {pages pages₁ : List Page} {blk : BlockNumber} {level pos : Nat} {childitup : IndexTuple}
      {childres : RTreeInsertResult} {evs : List Event}
      (hblk : blk < pages.length)
      (hchild : ChoosesChild (pageAt pages blk) box pos childitup)
      (hrec : Inserts env itup box pages childitup.tTid.blkno level childres pages₁ evs)
      (hrep : rtreeReplaceTuple (pageAt pages₁ blk) (pos + 1)
        (rtreeFormTuple childres.leftBox childitup.tTid) = none) :
      InsertFails env itup box pages blk (level + 1) .failedToReplace
        (pages₁.set blk (.data (pageIndexTupleDelete (pageAt pages₁ blk) (pos + 1))))
        ([Event.lock blk .exclusive] ++ evs ++ [Event.addItem false])
  | innerSplit {pages pages₁ : List Page} {blk : BlockNumber} {level pos : Nat} {childitup : IndexTuple}
      {childBox : RTreeTemporalBox} {right : SplitRight} {page₂ : DataPage} {evs : List Event}
      (hblk : blk < pages.length)
      (hchild : ChoosesChild (pageAt pages blk) box pos childitup)
      (hrec : Inserts env itup box pages childitup.tTid.blkno level
        { leftBox := childBox, split := some right } pages₁ evs)
      (hrep : rtreeReplaceTuple (pageAt pages₁ blk) (pos + 1)
        (rtreeFormTuple childBox childitup.tTid) = some page₂)
      (hfull : hasRoom page₂ (rightTuple right) = false)
      (hext : ¬ canExtend env pages₁.length) :
      InsertFails env itup box pages blk (level + 1) .couldNotExtend (pages₁.set blk (.data page₂))
        ([Event.lock blk .exclusive] ++ evs ++ [Event.addItem true])

theorem rtreeSplitPage_eq_error {s s' : Rel} {blk : BlockNumber} {newitup : IndexTuple}
    {newbox : RTreeTemporalBox} {level : Nat} {flags : PageFlags} {e : RTreeError}
    (hblk : blk < s.pages.length)
    (h : rtreeSplitPage env blk newitup newbox level flags s = .error e s') :
    ¬ canExtend env s.pages.length ∧ e = .couldNotExtend ∧ s' = s := by
  by_cases hext : canExtend env s.pages.length
  · rw [rtreeSplitPage_run_of_can hblk hext] at h
    exact absurd h (by simp)
  · rw [rtreeSplitPage_run_of_cannot hext] at h
    injection h with h1 h2
    exact ⟨hext, h1.symm, h2.symm⟩

/-- The leaf branch fails only for want of a new page. -/
theorem insertAtLeaf_eq_error {s s' : Rel} {blk : BlockNumber} {e : RTreeError}
    (h : insertAtLeaf env blk itup box s = .error e s') (hblk : blk < s.pages.length) :
    hasRoom (pageAt s.pages blk) itup = false ∧ ¬ canExtend env s.pages.length ∧
      e = .couldNotExtend ∧ s' = s := by
  have h := error_of_bind h fun r t => by simp [bind_apply]
  cases hroom : hasRoom (pageAt s.pages blk) itup with
  | true =>
      obtain ⟨page', hadd⟩ := pageAddItem_of_hasRoom hroom
      rw [rtreeInsertLeaf_run_of_room hblk hroom hadd] at h
      exact absurd h (by simp)
  | false =>
      rw [rtreeInsertLeaf_run_of_full hroom] at h
      exact ⟨rfl, rtreeSplitPage_eq_error hblk h⟩

/-- The inner branch after the recursive call fails to put the refreshed downlink back, or for want of a
    new page. -/
theorem updateDownlinks_eq_error {s s' : Rel} {blk : BlockNumber} {level pos : Nat} {tid : ItemPointerData}
    {childres : RTreeInsertResult} {e : RTreeError} (hblk : blk < s.pages.length)
    (h : updateDownlinks env blk level (pos + 1) tid childres s = .error e s') :
    (rtreeReplaceTuple (pageAt s.pages blk) (pos + 1) (rtreeFormTuple childres.leftBox tid) = none ∧
        e = .failedToReplace ∧
        s' = { pages := s.pages.set blk
                (.data (pageIndexTupleDelete (pageAt s.pages blk) (pos + 1)))
               trace := s.trace ++ [Event.addItem false] }) ∨
      (∃ right page₂, childres.split = some right ∧
        rtreeReplaceTuple (pageAt s.pages blk) (pos + 1)
          (rtreeFormTuple childres.leftBox tid) = some page₂ ∧
        hasRoom page₂ (rightTuple right) = false ∧ ¬ canExtend env s.pages.length ∧ e = .couldNotExtend ∧
        s' = { pages := s.pages.set blk (.data page₂), trace := s.trace ++ [Event.addItem true] }) := by
  simp only [updateDownlinks, bind_apply, bufferGetPage_run] at h
  cases hrep : rtreeReplaceTuple (pageAt s.pages blk) (pos + 1)
      (rtreeFormTuple childres.leftBox tid) with
  | none =>
      rw [hrep] at h
      simp only [bind_apply, emit_run, putPage_run, throw_apply] at h
      injection h with h1 h2
      exact Or.inl ⟨rfl, h1.symm, h2.symm⟩
  | some page₂ =>
      rw [hrep] at h
      simp only [bind_apply, emit_run, putPage_run] at h
      cases hsplit : childres.split with
      | none =>
          rw [hsplit] at h
          simp [finishInsertPage_run] at h
      | some right =>
          rw [hsplit] at h
          dsimp only at h
          by_cases hroom : hasRoom page₂ (rightTuple right) = true
          · obtain ⟨page₃, hadd⟩ := pageAddItem_of_hasRoom hroom
            rw [if_pos hroom, hadd] at h
            simp [bind_apply, finishInsertPage_run] at h
          · rw [if_neg hroom] at h
            have h := error_of_bind h fun r t => by simp [bind_apply]
            obtain ⟨hext, rfl, rfl⟩ := rtreeSplitPage_eq_error (by simpa using hblk) h
            exact Or.inr ⟨right, page₂, rfl, rfl, by simpa using hroom, by simpa using hext, rfl, rfl⟩

/-- A block beyond the end of the relation is not read. -/
theorem rtreeInsertPage_unreadable {level : Nat} {s s' : Rel} {blk : BlockNumber} {e : RTreeError}
    (hblk : ¬ blk < s.pages.length) (h : rtreeInsertPage env blk level itup box s = .error e s') :
    ∃ evs, InsertFails env itup box s.pages blk level e s'.pages evs ∧ s'.trace = s.trace ++ evs := by
  have hrun : rtreeInsertPage env blk level itup box s = .error .couldNotReadBlock s := by
    cases level with
    | zero =>
        rw [rtreeInsertPage]
        exact bind_of_error (readBuffer_run_of_not_lt hblk)
    | succ level =>
        rw [rtreeInsertPage]
        exact bind_of_error (readBuffer_run_of_not_lt hblk)
  rw [hrun] at h
  injection h with h1 h2
  subst h1; subst h2
  exact ⟨[], .unreadable hblk, by simp⟩

/-- The chosen block is that of a downlink, so it is found. -/
theorem findIdx?_chooseSubtreeInsert_ne_none {page : DataPage}
    (hvalid : chooseSubtreeInsert page box ≠ invalidBlockNumber) :
    page.items.findIdx? (fun t => t.tTid.blkno = chooseSubtreeInsert page box) ≠ none := by
  intro hnone
  have hne : page.items ≠ [] := by
    intro hnil
    exact hvalid (by simp [chooseSubtreeInsert, hnil])
  obtain ⟨t, ht, hblkno⟩ := chooseSubtreeInsert_mem box hne
  have hmiss := List.findIdx?_eq_none_iff.mp hnone t ht
  simp [hblkno] at hmiss

/-- **Every failed run of `rtree_insert_page` is one of these.** -/
theorem rtreeInsertPage_fails : ∀ {level : Nat} {s s' : Rel} {blk : BlockNumber} {e : RTreeError},
    rtreeInsertPage env blk level itup box s = .error e s' →
    ∃ evs, InsertFails env itup box s.pages blk level e s'.pages evs ∧ s'.trace = s.trace ++ evs := by
  intro level
  induction level with
  | zero =>
      intro s s' blk e h
      by_cases hblk : blk < s.pages.length
      · rw [rtreeInsertPage, bind_of_ok (readBuffer_run_of_lt hblk)] at h
        simp only [bind_apply, lockBuffer_run, bufferGetPage_run] at h
        obtain ⟨hfull, hext, rfl, rfl⟩ := insertAtLeaf_eq_error h hblk
        exact ⟨_, .leafSplit hblk (Or.inl rfl) hfull hext, rfl⟩
      · exact rtreeInsertPage_unreadable hblk h
  | succ level ih =>
      intro s s' blk e h
      by_cases hblk : blk < s.pages.length
      · rw [rtreeInsertPage, bind_of_ok (readBuffer_run_of_lt hblk)] at h
        simp only [bind_apply, lockBuffer_run, bufferGetPage_run] at h
        split at h
        · next hleaf =>
          obtain ⟨hfull, hext, rfl, rfl⟩ := insertAtLeaf_eq_error h hblk
          exact ⟨_, .leafSplit hblk (Or.inr hleaf) hfull hext, rfl⟩
        · next hinner =>
          have hinner' : (pageAt s.pages blk).special.flags.leaf = false := by simpa using hinner
          split at h
          · next hnone =>
            simp only [bind_apply, unlockBuffer_run, throw_apply] at h
            injection h with h1 h2
            subst h1; subst h2
            exact ⟨_, .noDownlinks hblk hinner' hnone, by simp⟩
          · next hvalid =>
            cases hpos : (pageAt s.pages blk).items.findIdx?
                (fun t => t.tTid.blkno = chooseSubtreeInsert (pageAt s.pages blk) box) with
            | none => exact absurd hpos (findIdx?_chooseSubtreeInsert_ne_none hvalid)
            | some pos =>
                rw [hpos] at h
                obtain ⟨childitup, hchild⟩ := choosesChild_of_findIdx hinner' hvalid hpos
                simp only [hchild.item, Option.map_some, Option.getD_some] at h
                rw [← hchild.blkno, bind_eq_error] at h
                rcases h with h | ⟨childres, s₁, hrec, h⟩
                · obtain ⟨evs, hf, htrace⟩ := ih h
                  exact ⟨_, .child hblk hchild hf, by simp [htrace]⟩
                · obtain ⟨evs, hins, htrace⟩ := rtreeInsertPage_inserts hrec
                  have hblk₁ : blk < s₁.pages.length := Nat.lt_of_lt_of_le hblk hins.length_le
                  obtain ⟨childBox, split⟩ := childres
                  rcases updateDownlinks_eq_error hblk₁ h with
                    ⟨hrep, rfl, rfl⟩ | ⟨right, page₂, rfl, hrep, hfull, hext, rfl, rfl⟩
                  · exact ⟨_, .replace hblk hchild hins hrep, by simp [htrace]⟩
                  · exact ⟨_, .innerSplit hblk hchild hins hrep hfull hext, by simp [htrace]⟩
      · exact rtreeInsertPage_unreadable hblk h

end TemporalRTree
