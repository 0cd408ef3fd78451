import TemporalRTree.Model.Buffer

/-!
# `Model.Insert` — insertion (`temporal_rtree_insert.c`, and the initialisation of
`temporal_rtree_build.c`)

The descent `rtreeInsertPage` recurses on the level counter it is called with, as the source does. A page
is read again after the recursive call, since in the source it is a pointer into the shared buffer.
-/

namespace TemporalRTree

/-- The right half of a split: `right_blkno` and `right_box` of `RTreeInsertResult`. -/
structure SplitRight where
  rightBlkno : BlockNumber
  rightBox : RTreeTemporalBox
  deriving DecidableEq

/-- `RTreeInsertResult`; `split` is `none` where the C field is false and the right half unset. -/
structure RTreeInsertResult where
  leftBox : RTreeTemporalBox
  split : Option SplitRight
  deriving DecidableEq

/-- The free-space test made before a tuple is added; the line pointer is counted here and in
    `PageGetFreeSpace`. -/
def hasRoom (page : DataPage) (itup : IndexTuple) : Bool :=
  pageGetFreeSpace page ≥ maxalign (indexTupleSize itup) + 4

/-! ## Page split -/

/-- The tuples `rtree_split_page` distributes: those of the page, then the new one. -/
def splitItems (page : DataPage) (newitup : IndexTuple) : List IndexTuple := page.items ++ [newitup]

/-- The index lists `tr_picksplit` returns for them. -/
def splitIdxs (page : DataPage) (newbox : RTreeTemporalBox) : List Nat × List Nat :=
  trPicksplit (page.items.map rtreePageTupleBox ++ [newbox])

/-- The tuples picked by an index list. -/
def pickItems (items : List IndexTuple) (idxs : List Nat) : List IndexTuple := idxs.filterMap (items[·]?)

/-- `rtree_init_datapage` followed by setting the right link. -/
def linkedDatapage (flags : PageFlags) (level : Nat) (rightlink : BlockNumber) : DataPage :=
  { rtreeInitDatapage flags level with
    special := { rightlink := rightlink, flags := flags, level := level, nsn := 0 } }

/-- The left page after the split, with the outcomes of its `PageAddItem` calls. -/
def splitLeft (page : DataPage) (newitup : IndexTuple) (newbox : RTreeTemporalBox) (level : Nat)
    (flags : PageFlags) (rightblk : BlockNumber) : DataPage × List Bool :=
  addItems (linkedDatapage { flags with root := false } level rightblk)
    (pickItems (splitItems page newitup) (splitIdxs page newbox).1)

/-- The right page after the split, which takes over the old right link. -/
def splitRight (page : DataPage) (newitup : IndexTuple) (newbox : RTreeTemporalBox) (level : Nat)
    (flags : PageFlags) : DataPage × List Bool :=
  addItems (linkedDatapage { flags with root := false } level page.special.rightlink)
    (pickItems (splitItems page newitup) (splitIdxs page newbox).2)

/-- `rtree_split_page`. -/
def rtreeSplitPage (env : Env) (blkno : BlockNumber) (newitup : IndexTuple) (newbox : RTreeTemporalBox)
    (level : Nat) (flags : PageFlags) : IndexM RTreeInsertResult := do
  let page ← bufferGetPage blkno
  let rightblk ← readBufferNew env
  let left := splitLeft page newitup newbox level flags rightblk
  let right := splitRight page newitup newbox level flags
  putPage blkno (.data left.1)
  emitAddItems left.2
  putPage rightblk (.data right.1)
  emitAddItems right.2
  markBufferDirty blkno
  markBufferDirty rightblk
  rtreeWalSplit env blkno rightblk
  emit (.split blkno rightblk)
  unlockBuffer rightblk
  return { leftBox := rtreePageMbr left.1,
           split := some { rightBlkno := rightblk, rightBox := rtreePageMbr right.1 } }

/-! ## The descent -/

/-- `rtree_insert_leaf`. -/
def rtreeInsertLeaf (env : Env) (blkno : BlockNumber) (itup : IndexTuple) (box : RTreeTemporalBox) :
    IndexM RTreeInsertResult := do
  let page ← bufferGetPage blkno
  if hasRoom page itup then
    match pageAddItem page itup invalidOffsetNumber with
    | none =>
        emit (.addItem false)
        rtreeSplitPage env blkno itup box page.special.level page.special.flags
    | some page' =>
        emit (.addItem true)
        putPage blkno (.data page')
        markBufferDirty blkno
        rtreeWalInsert env blkno
        return { leftBox := rtreePageMbr page', split := none }
  else rtreeSplitPage env blkno itup box page.special.level page.special.flags

/-- The end of `rtree_insert_page` for a page that took its downlink updates without splitting. -/
def finishInsertPage (env : Env) (blkno : BlockNumber) : IndexM RTreeInsertResult := do
  markBufferDirty blkno
  rtreeWalInsert env blkno
  let page ← bufferGetPage blkno
  unlockBuffer blkno
  return { leftBox := rtreePageMbr page, split := none }

/-- The part of `rtree_insert_page` after the recursive call: refresh the downlink at `bestoff` and, if the
    child was split, add the downlink of its right half, splitting this page when there is no room. -/
def updateDownlinks (env : Env) (blkno : BlockNumber) (level : Nat) (bestoff : OffsetNumber)
    (tid : ItemPointerData) (childres : RTreeInsertResult) : IndexM RTreeInsertResult := do
  let page ← bufferGetPage blkno
  match rtreeReplaceTuple page bestoff (rtreeFormTuple childres.leftBox tid) with
  | none =>
      -- the old downlink is already gone from the shared page when the error is raised
      emit (.addItem false)
      putPage blkno (.data (pageIndexTupleDelete page bestoff))
      throw .failedToReplace
  | some page =>
      emit (.addItem true)
      putPage blkno (.data page)
      match childres.split with
      | none => finishInsertPage env blkno
      | some right =>
          let righttuple := rtreeFormTuple right.rightBox (childTid right.rightBlkno)
          if hasRoom page righttuple then
            match pageAddItem page righttuple invalidOffsetNumber with
            | some page' =>
                emit (.addItem true)
                putPage blkno (.data page')
                finishInsertPage env blkno
            | none =>
                emit (.addItem false)
                finishInsertPage env blkno
          else
            let result ← rtreeSplitPage env blkno righttuple right.rightBox level page.special.flags
            unlockBuffer blkno
            return result

/-- The leaf branch of `rtree_insert_page`. -/
def insertAtLeaf (env : Env) (blkno : BlockNumber) (itup : IndexTuple) (box : RTreeTemporalBox) :
    IndexM RTreeInsertResult := do
  let result ← rtreeInsertLeaf env blkno itup box
  unlockBuffer blkno
  return result

/-- `rtree_insert_page`. -/
def rtreeInsertPage (env : Env) (blkno : BlockNumber) (level : Nat) (itup : IndexTuple)
    (box : RTreeTemporalBox) : IndexM RTreeInsertResult := do
  readBuffer blkno
  lockBuffer blkno .exclusive
  let page ← bufferGetPage blkno
  match level with
  | 0 => insertAtLeaf env blkno itup box
  | level' + 1 =>
      if page.special.flags.leaf then insertAtLeaf env blkno itup box
      else
        let childblk := chooseSubtreeInsert page box
        if childblk = invalidBlockNumber then
          unlockBuffer blkno
          throw .noDownlinks
        else
          match page.items.findIdx? (fun t => t.tTid.blkno = childblk) with
          | none =>
              unlockBuffer blkno
              throw .childNotLocated
          | some pos =>
              let tid := ((page.items[pos]?).map IndexTuple.tTid).getD (childTid childblk)
              let childres ← rtreeInsertPage env childblk level' itup box
              updateDownlinks env blkno (level' + 1) (pos + 1) tid childres

/-! ## The root -/

/-- The new root page: downlinks to the two halves of the old root. -/
def promotedRoot (leftblk : BlockNumber) (leftBox : RTreeTemporalBox) (right : SplitRight)
    (oldLevel : Nat) : DataPage × List Bool :=
  addItems (rtreeInitDatapage { root := true } (oldLevel + 1))
    [rtreeFormTuple leftBox (childTid leftblk), rtreeFormTuple right.rightBox (childTid right.rightBlkno)]

/-- A page with the ROOT flag cleared. -/
def clearRootFlag (page : DataPage) : DataPage :=
  { page with special := { page.special with flags := { page.special.flags with root := false } } }

/-- `rtree_root_promote`; returns `new_rootblk`. -/
def rtreeRootPromote (env : Env) (leftblk : BlockNumber) (leftBox : RTreeTemporalBox) (right : SplitRight)
    (oldLevel : Nat) : IndexM BlockNumber := do
  readBuffer leftblk
  lockBuffer leftblk .exclusive
  let rootblk ← readBufferNew env
  let root := promotedRoot leftblk leftBox right oldLevel
  putPage rootblk (.data root.1)
  emitAddItems root.2
  markBufferDirty rootblk
  let left ← bufferGetPage leftblk
  putPage leftblk (.data (clearRootFlag left))
  markBufferDirty leftblk
  unlockBuffer rootblk
  unlockBuffer leftblk
  return rootblk

/-- The first half of `temporal_rtree_insert`: root block and level, read under a share lock on the meta
    page that is released at once. -/
def readMetaRoot : IndexM (BlockNumber × Nat) := do
  readBuffer 0
  lockBuffer 0 .share
  let s ← get
  if (metaAt s.pages).magic ≠ trtreeMetaMagic then throw .missingMetaPage
  else
    unlockBuffer 0
    return ((metaAt s.pages).root, (metaAt s.pages).rootLevel)

/-- The last part of `temporal_rtree_insert`: the new root and its level go to the meta page. -/
def writeMetaRoot (root : BlockNumber) (level : Nat) : IndexM Unit := do
  readBuffer 0
  lockBuffer 0 .exclusive
  let s ← get
  putPage 0 (.metapage { metaAt s.pages with root := root, rootLevel := level })
  markBufferDirty 0
  unlockBuffer 0

/-- `rtree_meta_and_root_init`. -/
def rtreeMetaAndRootInit (env : Env) : IndexM Unit := do
  let metablk ← readBufferNew env
  let rootblk ← readBufferNew env
  putPage metablk (.metapage (rtreeInitMetapage rootblk 0))
  putPage rootblk (.data (rtreeInitDatapage { leaf := true, root := true } 0))
  markBufferDirty metablk
  markBufferDirty rootblk
  unlockBuffer rootblk
  unlockBuffer metablk

/-- `temporal_rtree_buildempty`. -/
def temporalRtreeBuildempty (env : Env) : IndexM Unit := rtreeMetaAndRootInit env

/-- The guard at the start of `temporal_rtree_insert`. -/
def ensureInitialised (env : Env) : IndexM Unit := do
  if (← get).pages.length < 2 then temporalRtreeBuildempty env else pure ()

/-- `temporal_rtree_insert` from the meta page on, for a tuple with a box. -/
def insertTuple (env : Env) (itup : IndexTuple) (box : RTreeTemporalBox) : IndexM Unit := do
  let root ← readMetaRoot
  let result ← rtreeInsertPage env root.1 root.2 itup box
  match result.split with
  | none => pure ()
  | some right =>
      let newRoot ← rtreeRootPromote env root.1 result.leftBox right root.2
      writeMetaRoot newRoot (root.2 + 1)

/-- `temporal_rtree_insert`: the result is true on every path, also for a NULL key, which is not stored. -/
def temporalRtreeInsert (env : Env) (key : Option NDBOX) (htCtid : ItemPointerData) : IndexM Bool := do
  ensureInitialised env
  let itup : IndexTuple := { tTid := htCtid, key := key }
  match rtreeIndexTupleBox itup with
  | none => return true
  | some box =>
      insertTuple env itup box
      return true

end TemporalRTree
