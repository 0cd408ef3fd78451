import Mathlib.Data.Multiset.Basic
import TemporalRTree.Model.Insert
import TemporalRTree.Model.Search
import TemporalRTree.Model.Vacuum

/-!
# `Model.Sessions` — calls of several sessions, as the atomic steps their buffer locks give

`temporal_rtree_insert` releases the meta page after reading it and locks it again only to write it, so the
calls of several sessions interleave between these steps: reading root and level; the descent, atomic
because the lock on the start block is held throughout; the promotion of a new root when the start block was
split; and the write to the meta page. An insert of a NULL key takes none of them.

A scan holds at most one page at a time: its steps are the read of the meta page and the visits of pages, from
lock to release, however many calls of `temporal_rtree_gettuple` a visit spans. The steps of a bulk deletion
are the read of the meta page, the walk, atomic because it holds the root's lock throughout, and the shrinking
of the root. Beside a scan, and beside the one bulk deletion whose result is followed, inserts run as wholes; for
what the root's level is taken to be, the steps of inserts and bulk deletions interleave with each other.

A session can also be in a scan and insert between the calls that fetch its tuples. The trace then tells which
pages it has locked, and whether it asks for a lock that it keeps from itself.
-/

namespace TemporalRTree

/-- Where a session stands in `temporal_rtree_insert`. -/
inductive InsertPhase where
  /-- Not in a call. -/
  | idle
  /-- The meta page has been read and released. -/
  | located (itup : IndexTuple) (box : RTreeTemporalBox) (root : BlockNumber) (level : Nat)
  /-- The descent has returned a split of `root`. -/
  | split (root : BlockNumber) (level : Nat) (leftBox : RTreeTemporalBox) (right : SplitRight)
  /-- `rtree_root_promote` has returned the new root. -/
  | promoted (root : BlockNumber) (level : Nat)
  deriving DecidableEq

/-- Whether a session has split a root that it has not yet entered into the meta page. -/
def InsertPhase.pending : InsertPhase → Bool
  | .split .. => true
  | .promoted .. => true
  | _ => false

/-- Where a session stands when the descent from `root` has returned: without a split the call is over. -/
def InsertPhase.afterDescent (root : BlockNumber) (level : Nat) (res : RTreeInsertResult) : InsertPhase :=
  match res.split with
  | none => .idle
  | some right => .split root level res.leftBox right

/-- The index, the sessions, and the tuples that are or have been indexed. -/
structure InsertWorld where
  rel : Rel
  sessions : List InsertPhase
  indexed : Multiset IndexTuple

/-- A step of session `i`. -/
inductive InsertAction where
  /-- Begin to insert a tuple: read the meta page. -/
  | read (i : Nat) (itup : IndexTuple)
  /-- `rtree_insert_page`. -/
  | insert (i : Nat)
  /-- `rtree_root_promote`. -/
  | promote (i : Nat)
  /-- Write the meta page. -/
  | writeMeta (i : Nat)

/-- One step; `none` if the session is not there or the step raises an error. -/
def stepInsert (env : Env) (w : InsertWorld) : InsertAction → Option InsertWorld
  | .read i itup =>
      match w.sessions[i]?, rtreeIndexTupleBox itup, readMetaRoot w.rel with
      | some .idle, some box, .ok root rel =>
          some { w with rel := rel, sessions := w.sessions.set i (.located itup box root.1 root.2) }
      | _, _, _ => none
  | .insert i =>
      match w.sessions[i]? with
      | some (.located itup box root level) =>
          match rtreeInsertPage env root level itup box w.rel with
          | .ok res rel =>
              some
                { rel := rel
                  sessions := w.sessions.set i (.afterDescent root level res)
                  indexed := itup ::ₘ w.indexed }
          | .error _ _ => none
      | _ => none
  | .promote i =>
      match w.sessions[i]? with
      | some (.split root level leftBox right) =>
          match rtreeRootPromote env root leftBox right level w.rel with
          | .ok newRoot rel =>
              some { w with rel := rel, sessions := w.sessions.set i (.promoted newRoot (level + 1)) }
          | .error _ _ => none
      | _ => none
  | .writeMeta i =>
      match w.sessions[i]? with
      | some (.promoted root level) =>
          match writeMetaRoot root level w.rel with
          | .ok _ rel => some { w with rel := rel, sessions := w.sessions.set i .idle }
          | .error _ _ => none
      | _ => none

/-! ## Whole inserts -/

/-- A whole `temporal_rtree_insert`; `inserted` collects the tuples stored so far. -/
def wholeInsert (env : Env) (key : Option NDBOX) (htCtid : ItemPointerData) (rel : Rel)
    (inserted : Multiset IndexTuple) : Option (Rel × Multiset IndexTuple) :=
  match temporalRtreeInsert env key htCtid rel with
  | .ok _ rel' =>
      let itup : IndexTuple := { tTid := htCtid, key := key }
      some (rel', if key.isSome then itup ::ₘ inserted else inserted)
  | .error _ _ => none

/-! ## A scan beside inserts -/

/-- A page visit: turns of the loop of `rtree_scan_next` until the page is released. Returns the TIDs handed
    out on the way and whether the scan was at its end. -/
def rtreeScanVisit : Nat → IndexScanDesc → IndexM ((List ItemPointerData × Bool) × IndexScanDesc)
  | 0, _ => throw .outOfFuel
  | fuel + 1, scan => do
      let turn ← rtreeScanTurn scan
      match turn.1 with
      | .returned =>
          let rest ← rtreeScanVisit fuel turn.2
          return ((turn.2.xsHeaptid :: rest.1.1, rest.1.2), rest.2)
      | .again => return (([], false), turn.2)
      | .finished => return (([], true), turn.2)

/-- The index, a scan with the TIDs it has returned, the pages as they were when it read the meta page, and
    the tuples inserted since. -/
structure ScanWorld where
  rel : Rel
  scan : IndexScanDesc
  returned : List ItemPointerData := []
  ended : Bool := false
  startPages : List Page := []
  inserted : Multiset IndexTuple := 0

/-- A step of the scan, or a whole insert by another session. -/
inductive ScanAction where
  /-- The start of the first `temporal_rtree_gettuple`: read the meta page. -/
  | start
  /-- Visit the page of the top frame. -/
  | visit (fuel : Nat)
  /-- `temporal_rtree_insert`. -/
  | insert (key : Option NDBOX) (htCtid : ItemPointerData)

/-- One step; `none` if it is not its turn or it raises an error. -/
def stepScan (env : Env) (w : ScanWorld) : ScanAction → Option ScanWorld
  | .start =>
      if w.scan.so.firstCall && !w.ended then
        match rtreeInitializeScan w.scan w.rel with
        | .ok res rel =>
            some { w with
              rel := rel, scan := res.2, ended := !res.1, startPages := w.rel.pages, inserted := 0 }
        | .error _ _ => none
      else none
  | .visit fuel =>
      if !w.scan.so.firstCall && !w.ended then
        match rtreeScanVisit fuel w.scan w.rel with
        | .ok res rel =>
            some { w with rel := rel, scan := res.2, returned := w.returned ++ res.1.1, ended := res.1.2 }
        | .error _ _ => none
      else none
  | .insert key htCtid =>
      (wholeInsert env key htCtid w.rel w.inserted).map fun res =>
        { w with rel := res.1, inserted := res.2 }

/-! ## A bulk deletion beside inserts -/

/-- Where a session stands in `temporal_rtree_bulkdelete`. -/
inductive VacuumPhase where
  /-- Not in a call. -/
  | idle
  /-- The meta page has been read and released. -/
  | located (root : BlockNumber) (level : Nat) (stats : IndexBulkDeleteResult)
  /-- `rtree_vacuum_page` has returned. -/
  | walked (root : BlockNumber) (level : Nat) (stats : IndexBulkDeleteResult)
  /-- The call has returned. -/
  | returned (stats : IndexBulkDeleteResult)

/-- Whether the call has returned. -/
def VacuumPhase.isReturned : VacuumPhase → Bool
  | .returned _ => true
  | _ => false

/-- The index, a bulk deletion, and the tuples inserted since it began. -/
structure VacuumWorld where
  rel : Rel
  phase : VacuumPhase := .idle
  inserted : Multiset IndexTuple := 0

/-- A step of the bulk deletion, or a whole insert by another session. -/
inductive VacuumAction where
  /-- Read the meta page. -/
  | start (stats : Option IndexBulkDeleteResult)
  /-- `rtree_vacuum_page` on the root block read. -/
  | walk
  /-- `rtree_vacuum_shrink_root`. -/
  | shrink
  /-- `temporal_rtree_insert`. -/
  | insert (key : Option NDBOX) (htCtid : ItemPointerData)

/-- One step; `none` if it is not its turn or it raises an error. -/
def stepVacuum (env : Env) (callback : IndexBulkDeleteCallback) (w : VacuumWorld) :
    VacuumAction → Option VacuumWorld
  | .start stats =>
      match w.phase with
      | .idle =>
          let st := bulkdeleteStats w.rel.pages.length stats
          if w.rel.pages.length < 2 then some { w with phase := .returned st, inserted := 0 }
          else
            match readMeta w.rel with
            | .ok m rel =>
                let phase := if m.magic ≠ trtreeMetaMagic then .returned st
                  else if m.root = invalidBlockNumber then .returned st
                  else .located m.root m.rootLevel st
                some { rel := rel, phase := phase, inserted := 0 }
            | .error _ _ => none
      | _ => none
  | .walk =>
      match w.phase with
      | .located root level stats =>
          match rtreeVacuumPage env callback w.rel.pages.length root stats w.rel with
          | .ok res rel => some { w with rel := rel, phase := .walked root level res.2 }
          | .error _ _ => none
      | _ => none
  | .shrink =>
      match w.phase with
      | .walked root level stats =>
          match rtreeVacuumShrinkRoot env root level w.rel with
          | .ok _ rel => some { w with rel := rel, phase := .returned stats }
          | .error _ _ => none
      | _ => none
  | .insert key htCtid =>
      (wholeInsert env key htCtid w.rel w.inserted).map fun res =>
        { w with rel := res.1, inserted := res.2 }

/-! ## Inserts beside bulk deletions, step by step -/

/-- The index, the sessions that insert, and the sessions that delete. -/
structure MaintenanceWorld where
  rel : Rel
  inserts : List InsertPhase
  deletions : List VacuumPhase

/-- A step of an insert, or of the bulk deletion `j`. -/
inductive MaintenanceAction where
  /-- A step of `temporal_rtree_insert`. -/
  | insert (act : InsertAction)
  /-- Read the meta page. -/
  | start (j : Nat) (stats : Option IndexBulkDeleteResult)
  /-- `rtree_vacuum_page` on the root block read. -/
  | walk (j : Nat) (callback : IndexBulkDeleteCallback)
  /-- `rtree_vacuum_shrink_root`. -/
  | shrink (j : Nat)

/-- One step of the bulk deletion `j`. -/
def stepDeletion (env : Env) (w : MaintenanceWorld) (j : Nat) (callback : IndexBulkDeleteCallback)
    (act : VacuumAction) : Option MaintenanceWorld :=
  match w.deletions[j]? with
  | none => none
  | some phase =>
      (stepVacuum env callback { rel := w.rel, phase := phase } act).map fun v =>
        { w with rel := v.rel, deletions := w.deletions.set j v.phase }

/-- One step; `none` if the session is not there, it is not its turn, or the step raises an error. -/
def stepMaintenance (env : Env) (w : MaintenanceWorld) : MaintenanceAction → Option MaintenanceWorld
  | .insert act =>
      (stepInsert env { rel := w.rel, sessions := w.inserts, indexed := 0 } act).map fun v =>
        { w with rel := v.rel, inserts := v.sessions }
  | .start j stats => stepDeletion env w j none (.start stats)
  | .walk j callback => stepDeletion env w j callback .walk
  | .shrink j => stepDeletion env w j none .shrink

/-! ## A session that scans and inserts -/

/-- The pages a session has share locked, and whether it has asked for an exclusive lock on one of them. -/
structure LockState where
  shared : List BlockNumber := []
  waitsForItself : Bool := false
  deriving DecidableEq

/-- The locks after one more action. -/
def LockState.after (locks : LockState) : Event → LockState
  | .lock blkno .share => { locks with shared := blkno :: locks.shared }
  | .lock blkno .exclusive =>
      { locks with waitsForItself := locks.waitsForItself || decide (blkno ∈ locks.shared) }
  | .unlock blkno => { locks with shared := locks.shared.erase blkno }
  | _ => locks

/-- The locks after the actions of a trace. -/
def locksOf (trace : List Event) : LockState := trace.foldl LockState.after {}

/-- The index and the scan of a session, which an error ends. -/
structure UpdateWorld where
  rel : Rel
  scan : IndexScanDesc
  failed : Bool := false

/-- A call of the session. -/
inductive UpdateAction where
  /-- `temporal_rtree_gettuple`. -/
  | gettuple (fuel : Nat) (forward : Bool)
  /-- `temporal_rtree_insert`. -/
  | insert (key : Option NDBOX) (htCtid : ItemPointerData)

/-- One call; `none` after an error. -/
def stepUpdate (env : Env) (w : UpdateWorld) (act : UpdateAction) : Option UpdateWorld :=
  if w.failed then none
  else
    match act with
    | .gettuple fuel forward =>
        match temporalRtreeGettuple fuel w.scan forward w.rel with
        | .ok res rel => some { w with rel := rel, scan := res.2 }
        | .error _ rel => some { w with rel := rel, failed := true }
    | .insert key htCtid =>
        match temporalRtreeInsert env key htCtid w.rel with
        | .ok _ rel => some { w with rel := rel }
        | .error _ rel => some { w with rel := rel, failed := true }

end TemporalRTree
