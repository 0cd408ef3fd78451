import TemporalRTree.Model.Buffer

/-!
# `Model.Search` — index scans (`temporal_rtree_search.c`)

A scan keeps a stack of frames (block, level, next offset) and the page it stands on, which stays share
locked between calls of `temporal_rtree_gettuple`. The loop of `rtree_scan_next` is `rtreeScanTurn`, one
turn, iterated with `fuel`; each turn locks the page of the top frame unless it is the page the scan stands
on, and ends with a tuple to return, one frame more, or one frame less.

`cur_buf` and `cur_blkno` are always set and reset together, so one field stands for both. `cur_offset` is
only written and is left out, as is the size of the stack's allocation.

The callbacks are written once, over the calls of the buffer manager that they make (`BufferManager`). On a `Rel` these
leave their locks in the trace, and a pin leaves nothing; `Model.ScanBuffers` counts the pins as well.
-/

namespace TemporalRTree

/-! ## Scan keys and scan state -/

/-- A scan key; an argument of `none` is `SK_ISNULL`. -/
structure ScanKey where
  strategy : StrategyNumber
  argument : Option NDBOX
  deriving DecidableEq

/-- `RTreeScanFrameData`. -/
structure RTreeScanFrameData where
  blkno : BlockNumber
  level : Nat
  nextOffset : OffsetNumber
  deriving DecidableEq

/-- `RTreeScanOpaqueData`, with the values `temporal_rtree_beginscan` gives it. -/
structure RTreeScanOpaqueData where
  curBuf : Option BlockNumber := none
  firstCall : Bool := true
  queryBox : RTreeTemporalBox :=
    { lowerUs := 0, upperUs := 0, attrLo := 0, attrHi := 0, dims := 0, flags := {} }
  strategy : StrategyNumber := 0
  haveQuery : Bool := false
  stack : List RTreeScanFrameData := []
  deriving DecidableEq

/-- `IndexScanDesc`: the room for keys that was asked for (without any, `keyData` is NULL), the keys, the
    scan's own state, and the tuple last returned. -/
structure IndexScanDesc where
  keySpace : Nat
  keyData : List ScanKey := []
  so : RTreeScanOpaqueData := {}
  xsHeaptid : ItemPointerData := { blkno := 0, offnum := 0 }
  xsRecheck : Bool := false
  deriving DecidableEq

/-- `temporal_rtree_beginscan`. -/
def temporalRtreeBeginscan (nkeys : Nat) : IndexScanDesc := { keySpace := nkeys }

/-! ## The query -/

/-- One turn of the loop of `rtree_parse_query`: the query of a key that is usable. -/
def parseKey (key : ScanKey) : Option (RTreeTemporalBox × StrategyNumber) :=
  match key.argument with
  | none => none
  | some cube =>
      if key.strategy < trtreeStrategyOverlap ∨ trtreeStrategyContained < key.strategy then none
      else some (rtreeCubeToBox cube, key.strategy)

/-- `rtree_parse_query`: the first usable key is the query. -/
def rtreeParseQuery (keyData : List ScanKey) : Option (RTreeTemporalBox × StrategyNumber) :=
  keyData.findSome? parseKey

/-- `rtree_ensure_query`; `none` is the return value false. -/
def rtreeEnsureQuery (scan : IndexScanDesc) : Option IndexScanDesc :=
  if scan.so.haveQuery then some scan
  else
    match rtreeParseQuery scan.keyData with
    | none => none
    | some query =>
        some { scan with so :=
          { scan.so with queryBox := query.1, strategy := query.2, haveQuery := true } }

/-! ## The buffer manager -/

/-- Computations of a scan, on a state of the buffer manager. -/
abbrev ScanM (σ : Type) := EStateM RTreeError σ

/-- The calls of the buffer manager that a scan makes. -/
class BufferManager (σ : Type) where
  /-- `ReadBufferExtended(rel, MAIN_FORKNUM, blkno, RBM_NORMAL, NULL)`. -/
  readBuffer : BlockNumber → ScanM σ Unit
  /-- `RTREE_LOCK_FOR_READ`. -/
  lockForRead : BlockNumber → ScanM σ Unit
  /-- `RTREE_UNLOCK`. -/
  unlock : BlockNumber → ScanM σ Unit
  /-- `ReleaseBuffer`. -/
  releaseBuffer : BlockNumber → ScanM σ Unit
  /-- `BufferGetPage`, as a data page. -/
  getPage : BlockNumber → ScanM σ DataPage
  /-- `BufferGetPage` of block 0, as the meta page. -/
  getMeta : ScanM σ RTreeMetaPageData

/-- An index whose trace has the locks. -/
instance : BufferManager Rel where
  readBuffer := readBuffer
  lockForRead blkno := lockBuffer blkno .share
  unlock := unlockBuffer
  releaseBuffer _ := pure ()
  getPage := bufferGetPage
  getMeta := do return metaAt (← get).pages

section Callbacks
variable {σ : Type} [BufferManager σ]

/-! ## The page the scan stands on -/

/-- `rtree_release_current_page`. -/
def rtreeReleaseCurrentPage (so : RTreeScanOpaqueData) : ScanM σ RTreeScanOpaqueData :=
  match so.curBuf with
  | none => pure so
  | some blkno => do
      BufferManager.unlock blkno
      BufferManager.releaseBuffer blkno
      return { so with curBuf := none }

/-- `rtree_stack_push`. -/
def rtreeStackPush (so : RTreeScanOpaqueData) (blkno : BlockNumber) (level : Nat)
    (nextOffset : OffsetNumber) : RTreeScanOpaqueData :=
  { so with stack := { blkno := blkno, level := level, nextOffset := nextOffset } :: so.stack }

/-- The start of a turn: stand on the page of the top frame. -/
def standOnFrame (so : RTreeScanOpaqueData) (blkno : BlockNumber) : ScanM σ RTreeScanOpaqueData := do
  if so.curBuf = some blkno then return so
  else
    let so ← rtreeReleaseCurrentPage so
    BufferManager.readBuffer blkno
    BufferManager.lockForRead blkno
    return { so with curBuf := some blkno }

/-! ## The loop -/

/-- How the loop over the offsets of a page ends. -/
inductive OffsetHit where
  /-- At a leaf tuple to return. -/
  | returns (offset : OffsetNumber) (itup : IndexTuple)
  /-- At a downlink to follow. -/
  | descends (offset : OffsetNumber) (childblk : BlockNumber)
  /-- Past the last offset. -/
  | exhausted
  deriving DecidableEq

/-- The loop over the offsets, on the tuples from `offset` on. Every downlink is followed, whatever its
    box. -/
def scanOffsets (level : Nat) (queryBox : RTreeTemporalBox) (strategy : StrategyNumber) :
    List IndexTuple → OffsetNumber → OffsetHit
  | [], _ => .exhausted
  | itup :: rest, offset =>
      match rtreeIndexTupleBox itup with
      | none => scanOffsets level queryBox strategy rest (offset + 1)
      | some box =>
          if level = 0 then
            if rtreeBoxMatchesStrategy box queryBox strategy then .returns offset itup
            else scanOffsets level queryBox strategy rest (offset + 1)
          else .descends offset itup.tTid.blkno

/-- How a turn of the loop of `rtree_scan_next` ends. -/
inductive Turn where
  /-- `return true`. -/
  | returned
  /-- On to the next turn. -/
  | again
  /-- The stack was empty. -/
  | finished
  deriving DecidableEq

/-- One turn of the loop of `rtree_scan_next`. -/
def rtreeScanTurn (scan : IndexScanDesc) : ScanM σ (Turn × IndexScanDesc) :=
  match scan.so.stack with
  | [] => pure (.finished, scan)
  | frame :: below => do
      let so ← standOnFrame scan.so frame.blkno
      let page ← BufferManager.getPage frame.blkno
      match scanOffsets frame.level so.queryBox so.strategy (page.items.drop (frame.nextOffset - 1))
          frame.nextOffset with
      | .returns offset itup =>
          return (.returned,
            { scan with
              so := { so with stack := { frame with nextOffset := offset + 1 } :: below }
              xsHeaptid := itup.tTid
              xsRecheck := false })
      | .descends offset childblk =>
          let so ← rtreeReleaseCurrentPage
            { so with stack := { frame with nextOffset := offset + 1 } :: below }
          return (.again, { scan with so := rtreeStackPush so childblk (frame.level - 1) firstOffsetNumber })
      | .exhausted =>
          let so ← rtreeReleaseCurrentPage so
          return (.again, { scan with so := { so with stack := below } })

/-- `rtree_scan_next`. -/
def rtreeScanNext : Nat → IndexScanDesc → ScanM σ (Bool × IndexScanDesc)
  | 0, _ => throw .outOfFuel
  | fuel + 1, scan => do
      let turn ← rtreeScanTurn scan
      match turn.1 with
      | .returned => return (true, turn.2)
      | .finished => return (false, turn.2)
      | .again => rtreeScanNext fuel turn.2

/-! ## The callbacks -/

/-- `rtree_read_meta`. -/
def rtreeReadMeta : ScanM σ RTreeMetaPageData := do
  BufferManager.readBuffer 0
  BufferManager.lockForRead 0
  let m ← BufferManager.getMeta
  BufferManager.unlock 0
  BufferManager.releaseBuffer 0
  return m

/-- `rtree_initialize_scan`. -/
def rtreeInitializeScan (scan : IndexScanDesc) : ScanM σ (Bool × IndexScanDesc) :=
  match rtreeEnsureQuery scan with
  | none => pure (false, scan)
  | some scan => do
      let m ← rtreeReadMeta
      if m.magic ≠ trtreeMetaMagic then return (false, scan)
      else
        let so ← rtreeReleaseCurrentPage { scan.so with stack := [] }
        let so := { so with firstCall := false }
        if m.root = invalidBlockNumber then return (false, { scan with so := so })
        else return (true, { scan with so := rtreeStackPush so m.root m.rootLevel firstOffsetNumber })

/-- `temporal_rtree_gettuple`; `forward` is `ScanDirectionIsForward`. -/
def temporalRtreeGettuple (fuel : Nat) (scan : IndexScanDesc) (forward : Bool) :
    ScanM σ (Bool × IndexScanDesc) := do
  if !forward then return (false, scan)
  else if scan.so.firstCall then
    let init ← rtreeInitializeScan scan
    if !init.1 then return (false, init.2)
    else rtreeScanNext fuel init.2
  else rtreeScanNext fuel scan

/-- `temporal_rtree_rescan`; no order-by keys are supported. -/
def temporalRtreeRescan (scan : IndexScanDesc) (keys : List ScanKey) : ScanM σ IndexScanDesc := do
  if keys ≠ [] ∧ scan.keySpace = 0 then throw .keyDataNull
  else
    let keyData := if keys = [] then scan.keyData else keys
    let so ← rtreeReleaseCurrentPage scan.so
    return { scan with
      keyData := keyData
      so := { so with stack := [], firstCall := true, haveQuery := false } }

/-- `temporal_rtree_endscan`: the page the scan stands on is released. -/
def temporalRtreeEndscan (scan : IndexScanDesc) : ScanM σ Unit := do
  let _ ← rtreeReleaseCurrentPage scan.so

end Callbacks

end TemporalRTree
