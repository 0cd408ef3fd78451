import TemporalRTree.Model.Page

/-!
# `Model.Buffer` — the index relation in shared buffers

The state of the index is the list of its blocks' contents in shared buffers (`Rel.pages`) together with
the trace of what the running operation has done that somebody else can observe: content locks taken and
released, buffers marked dirty, WAL records emitted (`GenericXLog` with full-page images), the outcome of
every `PageAddItem`, and the page splits. An operation is a computation `IndexM` over that state; a raised
`ERROR` keeps the state it was raised in, since nothing undoes changes to shared buffers.

What the surroundings decide is in `Env`: whether the relation is WAL-logged, and whether extending the
file at a given block succeeds (`ReadBufferExtended` with `P_NEW` fails when the disk is full).
-/

namespace TemporalRTree

/-! ## State, trace and errors -/

/-- `BUFFER_LOCK_SHARE` and `BUFFER_LOCK_EXCLUSIVE`. -/
inductive LockMode where
  | share
  | exclusive
  deriving DecidableEq, Repr

/-- One observable action of a backend on the index. -/
inductive Event where
  /-- `LockBuffer` (or the lock a new page comes with). -/
  | lock (blkno : BlockNumber) (mode : LockMode)
  /-- `LockBuffer(.., BUFFER_LOCK_UNLOCK)`. -/
  | unlock (blkno : BlockNumber)
  /-- `MarkBufferDirty`. -/
  | dirty (blkno : BlockNumber)
  /-- A generic WAL record with the full images of its registered pages. -/
  | xlog (images : List (BlockNumber × Page))
  /-- A call of `PageAddItem`, and whether it returned a valid offset. -/
  | addItem (ok : Bool)
  /-- A completed `rtree_split_page`: the page split and the page it was given. -/
  | split (left right : BlockNumber)
  deriving DecidableEq

/-- The index relation: block contents and trace. -/
structure Rel where
  pages : List Page
  trace : List Event := []

/-- What the surroundings decide. -/
structure Env where
  /-- `RelationNeedsWAL`. -/
  needsWal : Bool
  /-- Whether extending the relation by this block succeeds. -/
  extendOk : BlockNumber → Bool

/-- The errors an operation can raise. -/
inductive RTreeError where
  /-- `ReadBufferExtended` on a block the relation does not have. -/
  | couldNotReadBlock
  /-- `ReadBufferExtended` with `P_NEW` cannot extend the relation. -/
  | couldNotExtend
  /-- "temporal_rtree: missing meta page" -/
  | missingMetaPage
  /-- "temporal_rtree: internal page without downlinks" -/
  | noDownlinks
  /-- "temporal_rtree: could not locate chosen child on page" -/
  | childNotLocated
  /-- "failed to replace index tuple on page" -/
  | failedToReplace
  /-- "failed to rebuild index page during vacuum" -/
  | failedToRebuild
  /-- "temporal_rtree: scan keyData is NULL" -/
  | keyDataNull
  /-- Not an error report: the bound the model puts on a loop was too small. -/
  | outOfFuel
  /-- Not an error report: a descent that returns to a page it has locked waits for itself forever. -/
  | selfDeadlock
  deriving DecidableEq, Repr

/-- Computations over the index; an error keeps the state. -/
abbrev IndexM := EStateM RTreeError Rel

/-! ## Page access -/

/-- A block read as a data page. A block that was never initialised has no line pointers and a zero special
    space; so does the meta page have no line pointers. -/
def Page.asData : Page → DataPage
  | .data p => p
  | _ => { special := { rightlink := 0, flags := {}, level := 0, nsn := 0 }, items := [], fits := fits_nil }

/-- The meta data of a block; a block that is no meta page has no valid magic. -/
def Page.asMeta : Page → RTreeMetaPageData
  | .metapage m => m
  | _ => { magic := 0, root := 0, rootLevel := 0, flags := {} }

/-- The data page in block `blkno` (blocks past the end read as never initialised). -/
def pageAt (pages : List Page) (blkno : BlockNumber) : DataPage := (pages.getD blkno .zero).asData

/-- The meta data in block 0. -/
def metaAt (pages : List Page) : RTreeMetaPageData := (pages.getD 0 .zero).asMeta

/-! ## The buffer manager -/

/-- Record an action. -/
def emit (e : Event) : IndexM Unit := modify (fun s => { s with trace := s.trace ++ [e] })

/-- `ReadBufferExtended(rel, blkno, RBM_NORMAL)`: the block must exist. -/
def readBuffer (blkno : BlockNumber) : IndexM Unit := do
  let s ← get
  if blkno < s.pages.length then pure () else throw .couldNotReadBlock

/-- `LockBuffer`. -/
def lockBuffer (blkno : BlockNumber) (mode : LockMode) : IndexM Unit := emit (.lock blkno mode)

/-- `LockBuffer(.., BUFFER_LOCK_UNLOCK)`. -/
def unlockBuffer (blkno : BlockNumber) : IndexM Unit := emit (.unlock blkno)

/-- `MarkBufferDirty`. -/
def markBufferDirty (blkno : BlockNumber) : IndexM Unit := emit (.dirty blkno)

/-- `BufferGetPage`, as a data page. -/
def bufferGetPage (blkno : BlockNumber) : IndexM DataPage := do return pageAt (← get).pages blkno

/-- Write a page in place in its shared buffer. -/
def putPage (blkno : BlockNumber) (page : Page) : IndexM Unit :=
  modify (fun s => { s with pages := s.pages.set blkno page })

/-- `ReadBufferExtended(rel, P_NEW, RBM_ZERO_AND_LOCK)`: extend by one zeroed block and lock it. A block
    number stays below `InvalidBlockNumber`. -/
def readBufferNew (env : Env) : IndexM BlockNumber := do
  let s ← get
  let blkno := s.pages.length
  if blkno < invalidBlockNumber && env.extendOk blkno then
    set { s with pages := s.pages ++ [Page.zero] }
    lockBuffer blkno .exclusive
    return blkno
  else throw .couldNotExtend

/-- The meta data, read under a share lock that is released at once. -/
def readMeta : IndexM RTreeMetaPageData := do
  readBuffer 0
  lockBuffer 0 .share
  let s ← get
  unlockBuffer 0
  return metaAt s.pages

/-- `PageAddItem` for each tuple in turn, ignoring the return values, which are also given back. -/
def addItems : DataPage → List IndexTuple → DataPage × List Bool
  | page, [] => (page, [])
  | page, itup :: rest =>
      match pageAddItem page itup invalidOffsetNumber with
      | some page' => ((addItems page' rest).1, true :: (addItems page' rest).2)
      | none => ((addItems page rest).1, false :: (addItems page rest).2)

/-- Record the outcomes of a run of `PageAddItem` calls. -/
def emitAddItems (results : List Bool) : IndexM Unit :=
  modify (fun s => { s with trace := s.trace ++ results.map .addItem })

/-! ## WAL (`temporal_rtree_wal.c`) -/

/-- A generic WAL record of the given buffers as they are now, when the relation is WAL-logged. -/
def genericXLog (env : Env) (blknos : List BlockNumber) : IndexM Unit := do
  let s ← get
  if env.needsWal then emit (.xlog (blknos.map (fun b => (b, s.pages.getD b .zero)))) else pure ()

/-- `rtree_wal_insert`. -/
def rtreeWalInsert (env : Env) (blkno : BlockNumber) : IndexM Unit := genericXLog env [blkno]

/-- `rtree_wal_split`. -/
def rtreeWalSplit (env : Env) (left right : BlockNumber) : IndexM Unit := genericXLog env [left, right]

/-- `rtree_wal_vacuum`. -/
def rtreeWalVacuum (env : Env) (blkno : BlockNumber) : IndexM Unit := genericXLog env [blkno]

end TemporalRTree
