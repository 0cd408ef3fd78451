import TemporalRTree.Model.Build

/-!
# `Model.BufferPool` — operations above a buffer manager that evicts pages

The pages of `Rel` are the copies in shared buffers. Here each block has a copy on disk as well and may be marked
dirty. Between the moments at which an operation holds no lock, the buffer manager leaves its pages alone; at such
a moment it may write back any dirty page and drop any clean one, which is then read from disk again.

`CallPhase` are the moments without a lock of the operations, `startCall` and `nextSegment` what they do from one
to the next. The rest of an operation from such a moment on is `finish`.
-/

namespace TemporalRTree

/-- The moments at which an operation holds no lock. -/
inductive CallPhase where
  /-- No call is running. -/
  | idle
  /-- Rows are still to be inserted. -/
  | rows (todo : List HeapRow)
  /-- `temporal_rtree_insert` has seen to it that there is a meta page. -/
  | reading (itup : IndexTuple) (box : RTreeTemporalBox) (todo : List HeapRow)
  /-- It has read the meta page. -/
  | located (itup : IndexTuple) (box : RTreeTemporalBox) (root : BlockNumber) (level : Nat)
      (todo : List HeapRow)
  /-- `rtree_insert_page` has returned a split of the root. -/
  | split (root : BlockNumber) (level : Nat) (leftBox : RTreeTemporalBox) (right : SplitRight)
      (todo : List HeapRow)
  /-- `rtree_root_promote` has returned the new root. -/
  | promoted (root : BlockNumber) (level : Nat) (todo : List HeapRow)
  /-- `temporal_rtree_bulkdelete` has read the meta page. -/
  | walking (callback : IndexBulkDeleteCallback) (nblocks : Nat) (root : BlockNumber) (level : Nat)
      (stats : IndexBulkDeleteResult)
  /-- `rtree_vacuum_page` has returned. -/
  | walked (root : BlockNumber) (level : Nat)

/-- Whether no call is running. -/
def CallPhase.isIdle : CallPhase → Bool
  | .idle => true
  | _ => false

/-- `temporal_rtree_bulkdelete` up to the release of the meta page. -/
def startBulkdelete (stats : Option IndexBulkDeleteResult) (callback : IndexBulkDeleteCallback) :
    IndexM CallPhase := do
  let nblocks := (← get).pages.length
  if nblocks < 2 then return .idle
  else
    let m ← readMeta
    if m.magic ≠ trtreeMetaMagic then return .idle
    else if m.root = invalidBlockNumber then return .idle
    else return .walking callback nblocks m.root m.rootLevel (bulkdeleteStats nblocks stats)

/-- An operation up to the first moment without a lock; a build on the emptied relation. -/
def startCall (env : Env) : Op → IndexM CallPhase
  | .build rows => do
      rtreeMetaAndRootInit env
      return .rows rows
  | .insert row => return .rows [row]
  | .bulkdelete stats callback => startBulkdelete stats callback
  | .vacuumcleanup info stats =>
      if info.analyzeOnly || stats.isSome then return .idle else startBulkdelete (some {}) none

/-- What the running call does until it holds no lock again. -/
def nextSegment (env : Env) : CallPhase → IndexM CallPhase
  | .idle => return .idle
  | .rows [] => return .idle
  | .rows (row :: todo) => do
      ensureInitialised env
      let itup : IndexTuple := { tTid := row.tid, key := row.key }
      match rtreeIndexTupleBox itup with
      | none => return .rows todo
      | some box => return .reading itup box todo
  | .reading itup box todo => do
      let root ← readMetaRoot
      return .located itup box root.1 root.2 todo
  | .located itup box root level todo => do
      let result ← rtreeInsertPage env root level itup box
      match result.split with
      | none => return .rows todo
      | some right => return .split root level result.leftBox right todo
  | .split root level leftBox right todo => do
      let newRoot ← rtreeRootPromote env root leftBox right level
      return .promoted newRoot (level + 1) todo
  | .promoted root level todo => do
      writeMetaRoot root level
      return .rows todo
  | .walking callback nblocks root level stats => do
      let _ ← rtreeVacuumPage env callback nblocks root stats
      return .walked root level
  | .walked root level => do
      let _ ← rtreeVacuumShrinkRoot env root level
      return .idle

/-- The rest of a run of inserts. -/
def finishRows (env : Env) : List HeapRow → IndexM Unit
  | [] => pure ()
  | row :: todo => do
      let _ ← temporalRtreeInsert env row.key row.tid
      finishRows env todo

/-- The rest of a call from a moment without a lock on. -/
def finish (env : Env) : CallPhase → IndexM Unit
  | .idle => pure ()
  | .rows todo => finishRows env todo
  | .reading itup box todo => do
      insertTuple env itup box
      finishRows env todo
  | .located itup box root level todo => do
      let result ← rtreeInsertPage env root level itup box
      match result.split with
      | none => finishRows env todo
      | some right => do
          let newRoot ← rtreeRootPromote env root result.leftBox right level
          writeMetaRoot newRoot (level + 1)
          finishRows env todo
  | .split root level leftBox right todo => do
      let newRoot ← rtreeRootPromote env root leftBox right level
      writeMetaRoot newRoot (level + 1)
      finishRows env todo
  | .promoted root level todo => do
      writeMetaRoot root level
      finishRows env todo
  | .walking callback nblocks root level stats => do
      let _ ← rtreeVacuumPage env callback nblocks root stats
      let _ ← rtreeVacuumShrinkRoot env root level
  | .walked root level => do
      let _ ← rtreeVacuumShrinkRoot env root level

/-! ## The buffer manager -/

/-- The blocks that a trace marks dirty. -/
def dirtied (trace : List Event) : List BlockNumber :=
  trace.filterMap fun
    | .dirty blkno => some blkno
    | _ => none

/-- The index in shared buffers, its blocks on disk, the dirty ones, and the calls begun so far. -/
structure PoolWorld where
  rel : Rel
  disk : BlockNumber → Page := fun _ => .zero
  dirty : List BlockNumber := []
  phase : CallPhase := .idle
  calls : List Op := []

/-- A step of the session or of the buffer manager. -/
inductive PoolAction where
  /-- Begin a call. -/
  | call (op : Op)
  /-- Go on to the next moment without a lock. -/
  | next
  /-- Write a dirty page back. -/
  | writeBack (blkno : BlockNumber)
  /-- Drop a clean page. -/
  | drop (blkno : BlockNumber)

/-- The relation a call starts from: a build gets a new file. -/
def PoolWorld.prepare (w : PoolWorld) : Op → PoolWorld
  | .build _ => { w with rel := { w.rel with pages := [] }, disk := fun _ => .zero, dirty := [] }
  | _ => w

/-- The world after the session has run from `w.rel` to `rel`. -/
def PoolWorld.after (w : PoolWorld) (phase : CallPhase) (rel : Rel) : PoolWorld :=
  { w with rel := rel, phase := phase, dirty := w.dirty ++ dirtied (rel.trace.drop w.rel.trace.length) }

/-- One step; `none` if it is not possible or raises an error. -/
def stepPool (env : Env) (w : PoolWorld) : PoolAction → Option PoolWorld
  | .call op =>
      if w.phase.isIdle then
        match startCall env op (w.prepare op).rel with
        | .ok phase rel => some { (w.prepare op).after phase rel with calls := w.calls ++ [op] }
        | .error _ _ => none
      else none
  | .next =>
      if w.phase.isIdle then none
      else
        match nextSegment env w.phase w.rel with
        | .ok phase rel => some (w.after phase rel)
        | .error _ _ => none
  | .writeBack blkno =>
      if blkno ∈ w.dirty then
        some { w with
          disk := Function.update w.disk blkno (w.rel.pages.getD blkno .zero)
          dirty := w.dirty.filter (· ≠ blkno) }
      else none
  | .drop blkno =>
      if blkno ∈ w.dirty then none
      else some { w with rel := { w.rel with pages := w.rel.pages.set blkno (w.disk blkno) } }

end TemporalRTree
