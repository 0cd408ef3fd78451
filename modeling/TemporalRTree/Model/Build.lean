import TemporalRTree.Model.Vacuum

/-!
# `Model.Build` — index build (`temporal_rtree_build.c`) and runs of operations

A build gets a relation without blocks: `index_build` is only called on a new or truncated file. The heap
scan `table_index_build_scan` is the list of the rows it hands to the callback.
-/

namespace TemporalRTree

/-- A heap row as the build callback and `aminsert` see it: its TID and its key, possibly NULL. -/
structure HeapRow where
  tid : ItemPointerData
  key : Option NDBOX
  deriving DecidableEq

/-- `IndexBuildResult`. -/
structure IndexBuildResult where
  heapTuples : Nat
  indexTuples : Nat
  deriving DecidableEq, Repr

/-- `rtree_build_callback` over the rows of the heap scan, counting in `indexTuples`. -/
def rtreeBuildCallback (env : Env) : List HeapRow → Nat → IndexM Nat
  | [], indexTuples => pure indexTuples
  | row :: rest, indexTuples => do
      let inserted ← temporalRtreeInsert env row.key row.tid
      rtreeBuildCallback env rest (if inserted then indexTuples + 1 else indexTuples)

/-- `temporal_rtree_build`. -/
def temporalRtreeBuild (env : Env) (rows : List HeapRow) : IndexM IndexBuildResult := do
  rtreeMetaAndRootInit env
  let indexTuples ← rtreeBuildCallback env rows 0
  return { heapTuples := rows.length, indexTuples := indexTuples }

/-! ## Operations -/

/-- One call of the access method that changes the index. -/
inductive Op where
  /-- `ambuild`, on a relation emptied for it. -/
  | build (rows : List HeapRow)
  /-- `aminsert`. -/
  | insert (row : HeapRow)
  /-- `ambulkdelete`. -/
  | bulkdelete (stats : Option IndexBulkDeleteResult) (callback : IndexBulkDeleteCallback)
  /-- `amvacuumcleanup`. -/
  | vacuumcleanup (info : IndexVacuumInfo) (stats : Option IndexBulkDeleteResult)

/-- Carry out one operation, dropping its return value. -/
def runOp (env : Env) : Op → IndexM Unit
  | .build rows => do
      modify (fun s => { s with pages := [] })
      let _ ← temporalRtreeBuild env rows
  | .insert row => do
      let _ ← temporalRtreeInsert env row.key row.tid
  | .bulkdelete stats callback => do
      let _ ← temporalRtreeBulkdelete env stats callback
  | .vacuumcleanup info stats => do
      let _ ← temporalRtreeVacuumcleanup env info stats

/-- Carry out a run of operations. -/
def runOps (env : Env) : List Op → IndexM Unit
  | [] => pure ()
  | op :: ops => do
      runOp env op
      runOps env ops

end TemporalRTree
