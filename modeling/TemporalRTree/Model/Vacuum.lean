import TemporalRTree.Model.Insert

/-!
# `Model.Vacuum` — bulk deletion and cleanup (`temporal_rtree_vacuum.c`)

`rtreeVacuumPage` recurses from a page into the children its downlinks name, with no level counter; the
model bounds the recursion by `fuel`. Every page on the way down stays exclusively locked, so a descent
longer than the number of blocks has come back to a page it holds and waits for itself: running out of a
fuel of that size is `selfDeadlock`.
-/

namespace TemporalRTree

/-- `IndexBulkDeleteResult`. The counters are doubles holding whole numbers. -/
structure IndexBulkDeleteResult where
  numPages : Nat := 0
  estimatedCount : Bool := false
  numIndexTuples : Nat := 0
  tuplesRemoved : Nat := 0
  pagesNewlyDeleted : Nat := 0
  pagesDeleted : Nat := 0
  pagesFree : Nat := 0
  deriving DecidableEq, Repr

/-- `IndexBulkDeleteCallback`; `none` is the NULL callback, which removes nothing. -/
abbrev IndexBulkDeleteCallback := Option (ItemPointerData → Bool)

/-- Whether the callback says that the heap tuple is dead. -/
def isDead (callback : IndexBulkDeleteCallback) (tid : ItemPointerData) : Bool :=
  match callback with
  | none => false
  | some dead => dead tid

/-- What `rtree_vacuum_page` collects from one page: the tuples it will hold, their boxes, and the
    counters. -/
structure VacuumItems where
  tuples : List IndexTuple
  boxes : List RTreeTemporalBox
  stats : IndexBulkDeleteResult

/-- Keep one tuple with its box. -/
def VacuumItems.keep (acc : VacuumItems) (itup : IndexTuple) (box : RTreeTemporalBox) : VacuumItems :=
  { tuples := acc.tuples ++ [itup], boxes := acc.boxes ++ [box],
    stats := { acc.stats with numIndexTuples := acc.stats.numIndexTuples + 1 } }

/-- One turn of the leaf loop of `rtree_vacuum_page`. -/
def vacuumLeafItem (callback : IndexBulkDeleteCallback) (acc : VacuumItems) (itup : IndexTuple) :
    VacuumItems :=
  if isDead callback itup.tTid then
    { acc with stats := { acc.stats with tuplesRemoved := acc.stats.tuplesRemoved + 1 } }
  else
    match rtreeIndexTupleBox itup with
    | none => acc
    | some box => acc.keep itup box

/-- The inner loop of `rtree_vacuum_page` over the downlinks; `vacuumChild` is the recursive call, which
    returns the child's bounding box unless the child is empty. -/
def vacuumChildren
    (vacuumChild : BlockNumber → IndexBulkDeleteResult →
      IndexM (Option RTreeTemporalBox × IndexBulkDeleteResult)) :
    List IndexTuple → VacuumItems → IndexM VacuumItems
  | [], acc => pure acc
  | itup :: rest, acc => do
      let res ← vacuumChild itup.tTid.blkno acc.stats
      let acc := { acc with stats := res.2 }
      match res.1 with
      | none => vacuumChildren vacuumChild rest acc
      | some childBox =>
          let downlink := rtreeFormTuple childBox (childTid itup.tTid.blkno)
          vacuumChildren vacuumChild rest (acc.keep downlink childBox)

/-- `rtree_add_tuple_copy` for each tuple in turn: the page reached and whether every call succeeded. The
    first failing call raises an error, so the tuples after it are not tried. -/
def addTupleCopies : DataPage → List IndexTuple → DataPage × Bool
  | page, [] => (page, true)
  | page, itup :: rest =>
      match pageAddItem page itup invalidOffsetNumber with
      | some page' => addTupleCopies page' rest
      | none => (page, false)

/-- One turn of the aggregation of `rtree_vacuum_page`. -/
def aggregateStep (aggregate box : RTreeTemporalBox) : RTreeTemporalBox :=
  if aggregate.flags.empty then box else trUnion aggregate box

/-- The page `rtree_vacuum_page` rebuilds into: emptied, its special space kept. -/
def emptiedPage (page : DataPage) : DataPage :=
  { rtreeInitDatapage page.special.flags page.special.level with special := page.special }

/-- The second half of `rtree_vacuum_page`: rebuild the page from the tuples kept. -/
def rebuildPage (env : Env) (blkno : BlockNumber) (page : DataPage) (kept : VacuumItems) :
    IndexM (Option RTreeTemporalBox × IndexBulkDeleteResult) := do
  let rebuilt := addTupleCopies (emptiedPage page) kept.tuples
  putPage blkno (.data rebuilt.1)
  emit (.addItem rebuilt.2)
  if !rebuilt.2 then throw .failedToRebuild
  else
    markBufferDirty blkno
    rtreeWalVacuum env blkno
    unlockBuffer blkno
    if kept.tuples = [] then
      return (none, { kept.stats with
        pagesDeleted := kept.stats.pagesDeleted + 1
        pagesNewlyDeleted := kept.stats.pagesNewlyDeleted + 1 })
    else return (some (kept.boxes.foldl aggregateStep emptyBox), kept.stats)

/-- `rtree_vacuum_page`: the bounding box of what is left, or `none` for an empty page. -/
def rtreeVacuumPage (env : Env) (callback : IndexBulkDeleteCallback) :
    Nat → BlockNumber → IndexBulkDeleteResult → IndexM (Option RTreeTemporalBox × IndexBulkDeleteResult)
  | 0, _, _ => throw .selfDeadlock
  | fuel + 1, blkno, stats => do
      readBuffer blkno
      lockBuffer blkno .exclusive
      let page ← bufferGetPage blkno
      let start : VacuumItems := { tuples := [], boxes := [], stats := stats }
      if page.special.flags.leaf then
        rebuildPage env blkno page (page.items.foldl (vacuumLeafItem callback) start)
      else
        let kept ← vacuumChildren (rtreeVacuumPage env callback fuel) page.items start
        rebuildPage env blkno page kept

/-! ## The root -/

/-- The root page after it has swallowed its only child. -/
def collapsedRoot (child : DataPage) : DataPage :=
  { child with special := { child.special with flags := { child.special.flags with root := true } } }

/-- `rtree_vacuum_shrink_root` once the meta page has been checked and the root locked. The branch that
    turns an emptied inner root into a leaf neither marks buffers dirty nor logs. -/
def shrinkLockedRoot (env : Env) (rootblk : BlockNumber) (rootLevel : Nat) : IndexM Bool := do
  let root ← bufferGetPage rootblk
  if root.special.flags.leaf ∨ rootLevel = 0 then return false
  else
    match root.items with
    | [] =>
        putPage rootblk (.data (rtreeInitDatapage { leaf := true, root := true } 0))
        let s ← get
        putPage 0 (.metapage { metaAt s.pages with rootLevel := 0 })
        return true
    | [childitup] =>
        let childblk := childitup.tTid.blkno
        readBuffer childblk
        lockBuffer childblk .share
        let child ← bufferGetPage childblk
        putPage rootblk (.data (collapsedRoot child))
        let s ← get
        putPage 0 (.metapage { metaAt s.pages with rootLevel := child.special.level })
        markBufferDirty rootblk
        markBufferDirty 0
        genericXLog env [rootblk, 0]
        unlockBuffer childblk
        return true
    | _ => return false

/-- `rtree_vacuum_shrink_root`. -/
def rtreeVacuumShrinkRoot (env : Env) (rootblk : BlockNumber) (rootLevel : Nat) : IndexM Bool := do
  if rootblk = invalidBlockNumber then return false
  else
    readBuffer 0
    lockBuffer 0 .exclusive
    let s ← get
    if (metaAt s.pages).magic ≠ trtreeMetaMagic ∨ (metaAt s.pages).root ≠ rootblk then
      unlockBuffer 0
      return false
    else
      readBuffer rootblk
      lockBuffer rootblk .exclusive
      let changed ← shrinkLockedRoot env rootblk rootLevel
      unlockBuffer rootblk
      unlockBuffer 0
      return changed

/-! ## The callbacks -/

/-- The counters `temporal_rtree_bulkdelete` starts from: those it is given, with these reset. -/
def bulkdeleteStats (nblocks : Nat) (stats : Option IndexBulkDeleteResult) : IndexBulkDeleteResult :=
  { stats.getD {} with
    numPages := nblocks, estimatedCount := false, numIndexTuples := 0, pagesDeleted := 0, pagesFree := 0 }

/-- `temporal_rtree_bulkdelete`. -/
def temporalRtreeBulkdelete (env : Env) (stats : Option IndexBulkDeleteResult)
    (callback : IndexBulkDeleteCallback) : IndexM IndexBulkDeleteResult := do
  let nblocks := (← get).pages.length
  let stats := bulkdeleteStats nblocks stats
  if nblocks < 2 then return stats
  else
    let m ← readMeta
    if m.magic ≠ trtreeMetaMagic then return stats
    else if m.root = invalidBlockNumber then return stats
    else
      let res ← rtreeVacuumPage env callback nblocks m.root stats
      let _ ← rtreeVacuumShrinkRoot env m.root m.rootLevel
      return res.2

/-- The fields of `IndexVacuumInfo` that the AM reads. -/
structure IndexVacuumInfo where
  analyzeOnly : Bool
  estimatedCount : Bool
  numHeapTuples : Nat

/-- The adjustment of the tuple count at the end of `temporal_rtree_vacuumcleanup`. -/
def clampIndexTuples (info : IndexVacuumInfo) (stats : IndexBulkDeleteResult) : IndexBulkDeleteResult :=
  if !info.estimatedCount && stats.numIndexTuples > info.numHeapTuples then
    { stats with numIndexTuples := info.numHeapTuples }
  else stats

/-- `temporal_rtree_vacuumcleanup`. -/
def temporalRtreeVacuumcleanup (env : Env) (info : IndexVacuumInfo)
    (stats : Option IndexBulkDeleteResult) : IndexM (Option IndexBulkDeleteResult) := do
  if info.analyzeOnly then return stats
  else
    let stats ← match stats with
      | some st => pure st
      | none => do
          let st ← temporalRtreeBulkdelete env (some {}) none
          pure { st with estimatedCount := true }
    let nblocks := (← get).pages.length
    return some { clampIndexTuples info stats with numPages := nblocks }

end TemporalRTree
