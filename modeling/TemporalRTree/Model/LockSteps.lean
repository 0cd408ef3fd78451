import TemporalRTree.Model.VacuumWalk

/-!
# `Model.LockSteps` — calls of several sessions, cut at every page lock they may wait for

A content lock has no deadlock detection: two sessions that each wait for a page the other has locked wait
forever. Here every session is inside at most one call, an insert, a bulk deletion or a scan, and a call advances
from one lock that it may have to wait for to the next.

* `rtree_insert_page` keeps the pages of its active calls locked and goes on to the child (`InsertFrame`,
  `insertEnter`); on the way back it locks new blocks only, which nobody else knows (`insertLeave`).
* `rtree_vacuum_page` is cut as in `Model.VacuumWalk`. `rtree_vacuum_shrink_root` locks the meta page, then the
  root, then its only child.
* A scan has at most the page it stands on locked, also between two calls of `temporal_rtree_gettuple`.

What a session has locked and what it asks for next are functions of where it stands (`Activity.locked`,
`Activity.wants`). It advances only when no session has a conflicting lock. An error ends the call and gives up its
locks.

`ReadBufferExtended` with `P_NEW` takes no extension lock of its own, so two sessions that extend the relation at the
same moment could be given the same block. Such overlapping extensions are left out: an extension belongs to one step.
-/

namespace TemporalRTree

/-! ## The descent of an insert -/

/-- An active call of `rtree_insert_page` on an inner page: its block and level, and the downlink it follows. -/
structure InsertFrame where
  blkno : BlockNumber
  level : Nat
  bestoff : OffsetNumber
  tid : ItemPointerData

/-- Where a descent stands: about to lock a page, or with the result of a call for the one around it. -/
inductive DescentState where
  | entering (blkno : BlockNumber) (level : Nat) (frames : List InsertFrame)
  | returning (res : RTreeInsertResult) (frames : List InsertFrame)

/-- A call of `rtree_insert_page` up to its recursive call; for a leaf, the whole call. -/
def insertEnter (env : Env) (itup : IndexTuple) (box : RTreeTemporalBox) (blkno : BlockNumber) (level : Nat)
    (frames : List InsertFrame) : IndexM DescentState := do
  readBuffer blkno
  lockBuffer blkno .exclusive
  let page ← bufferGetPage blkno
  match level with
  | 0 =>
      let res ← insertAtLeaf env blkno itup box
      return .returning res frames
  | level' + 1 =>
      if page.special.flags.leaf then
        let res ← insertAtLeaf env blkno itup box
        return .returning res frames
      else
        let childblk := chooseSubtreeInsert page box
        if childblk = invalidBlockNumber then
          unlockBuffer blkno
          throw .noDownlinks
        else
          match page.items.findIdx? (fun t => t.tTid.blkno = childblk) with
          | none =>
              unlockBuffer blkno
              throw .childNotLocated
          | some pos =>
              let tid := ((page.items[pos]?).map IndexTuple.tTid).getD (childTid childblk)
              return .entering childblk level'
                ({ blkno := blkno, level := level' + 1, bestoff := pos + 1, tid := tid } :: frames)

/-- The rest of the innermost call, once its recursive call has returned. -/
def insertLeave (env : Env) (res : RTreeInsertResult) (top : InsertFrame) (below : List InsertFrame) :
    IndexM DescentState := do
  let res ← updateDownlinks env top.blkno top.level top.bestoff top.tid res
  return .returning res below

/-! ## Shrinking the root -/

/-- The only child of a root that is to swallow it. -/
def onlyChild (root : DataPage) (rootLevel : Nat) : Option BlockNumber :=
  if root.special.flags.leaf ∨ rootLevel = 0 then none
  else
    match root.items with
    | [childitup] => some childitup.tTid.blkno
    | _ => none

/-- The end of `rtree_vacuum_shrink_root`, with meta page and root locked. -/
def finishShrink (env : Env) (root : BlockNumber) (level : Nat) : IndexM Unit := do
  let _ ← shrinkLockedRoot env root level
  unlockBuffer root
  unlockBuffer 0

/-! ## Sessions -/

/-- What a session is doing. -/
inductive Activity where
  /-- Not in a call. -/
  | idle
  /-- `temporal_rtree_insert`, about to read the meta page. -/
  | insertMeta (itup : IndexTuple) (box : RTreeTemporalBox)
  /-- In `rtree_insert_page` from `root`. -/
  | descent (itup : IndexTuple) (box : RTreeTemporalBox) (root : BlockNumber) (level : Nat) (state : DescentState)
  /-- About to lock the old root in `rtree_root_promote`. -/
  | promote (root : BlockNumber) (level : Nat) (leftBox : RTreeTemporalBox) (right : SplitRight)
  /-- About to write the new root to the meta page. -/
  | metaWrite (root : BlockNumber) (level : Nat)
  /-- `temporal_rtree_bulkdelete`, about to read the meta page. -/
  | deleteMeta (callback : IndexBulkDeleteCallback) (stats : Option IndexBulkDeleteResult)
  /-- About to lock the root in `rtree_vacuum_page`. -/
  | walkRoot (callback : IndexBulkDeleteCallback) (root : BlockNumber) (level : Nat) (stats : IndexBulkDeleteResult)
  /-- In `rtree_vacuum_page` from `root`. -/
  | walking (callback : IndexBulkDeleteCallback) (root : BlockNumber) (level : Nat) (top : VacuumFrame)
      (below : List VacuumFrame)
  /-- About to lock the meta page in `rtree_vacuum_shrink_root`. -/
  | shrinkMeta (root : BlockNumber) (level : Nat)
  /-- About to lock the root there, with the meta page locked. -/
  | shrinkRoot (root : BlockNumber) (level : Nat)
  /-- About to lock the only child there, with meta page and root locked. -/
  | shrinkChild (root : BlockNumber) (level : Nat) (child : BlockNumber)
  /-- In a scan. -/
  | scanning (scan : IndexScanDesc)

/-- A page lock. -/
abbrev PageLock := BlockNumber × LockMode

/-- Two locks on one page that cannot be held together. -/
def PageLock.conflicts (l l' : PageLock) : Bool := l.1 = l'.1 && !(l.2 = .share && l'.2 = .share)

/-- The page locks of a session. -/
def Activity.locked : Activity → List PageLock
  | .descent _ _ _ _ (.entering _ _ frames) => frames.map fun f => (f.blkno, .exclusive)
  | .descent _ _ _ _ (.returning _ frames) => frames.map fun f => (f.blkno, .exclusive)
  | .walking _ _ _ top below => (top :: below).map fun f => (f.blkno, .exclusive)
  | .shrinkRoot _ _ => [(0, .exclusive)]
  | .shrinkChild root _ _ => [(root, .exclusive), (0, .exclusive)]
  | .scanning scan => scan.so.curBuf.toList.map fun b => (b, .share)
  | _ => []

/-- The page lock a scan asks for next: the meta page once it has a query, then the page of the top frame unless it
    stands on it. -/
def scanWants (scan : IndexScanDesc) : Option PageLock :=
  if scan.so.firstCall then (rtreeEnsureQuery scan).map fun _ => (0, .share)
  else
    match scan.so.stack with
    | [] => none
    | frame :: _ => if scan.so.curBuf = some frame.blkno then none else some (frame.blkno, .share)

/-- The page lock a session asks for next, if its next step waits for one. -/
def Activity.wants : Activity → Option PageLock
  | .insertMeta _ _ => some (0, .share)
  | .descent _ _ _ _ (.entering blkno _ _) => some (blkno, .exclusive)
  | .promote root _ _ _ => some (root, .exclusive)
  | .metaWrite _ _ => some (0, .exclusive)
  | .deleteMeta _ _ => some (0, .share)
  | .walkRoot _ root _ _ => some (root, .exclusive)
  | .walking _ _ _ top _ => top.nextBlock.map fun b => (b, .exclusive)
  | .shrinkMeta _ _ => some (0, .exclusive)
  | .shrinkRoot root _ => some (root, .exclusive)
  | .shrinkChild _ _ child => some (child, .share)
  | .scanning scan => scanWants scan
  | _ => none

/-- Where a session stands when the descent has returned. -/
def Activity.afterDescent (root : BlockNumber) (level : Nat) (res : RTreeInsertResult) : Activity :=
  match res.split with
  | none => .idle
  | some right => .promote root level res.leftBox right

/-- Where a session stands in a walk. -/
def Activity.ofWalk (callback : IndexBulkDeleteCallback) (root : BlockNumber) (level : Nat) : WalkState → Activity
  | .walking top below => .walking callback root level top below
  | .done _ => .shrinkMeta root level

/-- The next step of a call. -/
def Activity.advance (env : Env) : Activity → IndexM Activity
  | .idle => return .idle
  | .insertMeta itup box => do
      let root ← readMetaRoot
      return .descent itup box root.1 root.2 (.entering root.1 root.2 [])
  | .descent itup box root level (.entering blkno l frames) => do
      let state ← insertEnter env itup box blkno l frames
      return .descent itup box root level state
  | .descent itup box root level (.returning res (top :: below)) => do
      let state ← insertLeave env res top below
      return .descent itup box root level state
  | .descent _ _ root level (.returning res []) => return .afterDescent root level res
  | .promote root level leftBox right => do
      let newRoot ← rtreeRootPromote env root leftBox right level
      return .metaWrite newRoot (level + 1)
  | .metaWrite root level => do
      writeMetaRoot root level
      return .idle
  | .deleteMeta callback stats => do
      let nblocks := (← get).pages.length
      if nblocks < 2 then return .idle
      else
        let m ← readMeta
        if m.magic ≠ trtreeMetaMagic then return .idle
        else if m.root = invalidBlockNumber then return .idle
        else return .walkRoot callback m.root m.rootLevel (bulkdeleteStats nblocks stats)
  | .walkRoot callback root level stats => do
      let state ← vacuumEnter env callback root stats []
      return .ofWalk callback root level state
  | .walking callback root level top below => do
      let state ← vacuumAdvance env callback top below
      return .ofWalk callback root level state
  | .shrinkMeta root level => do
      readBuffer 0
      lockBuffer 0 .exclusive
      let s ← get
      if (metaAt s.pages).magic ≠ trtreeMetaMagic ∨ (metaAt s.pages).root ≠ root then
        unlockBuffer 0
        return .idle
      else return .shrinkRoot root level
  | .shrinkRoot root level => do
      readBuffer root
      lockBuffer root .exclusive
      let page ← bufferGetPage root
      match onlyChild page level with
      | some child => return .shrinkChild root level child
      | none =>
          finishShrink env root level
          return .idle
  | .shrinkChild root level _ => do
      finishShrink env root level
      return .idle
  | .scanning scan =>
      if scan.so.firstCall then do
        let init ← rtreeInitializeScan scan
        if init.1 then return .scanning init.2
        else
          temporalRtreeEndscan init.2
          return .idle
      else do
        let turn ← rtreeScanTurn scan
        match turn.1 with
        | .finished =>
            temporalRtreeEndscan turn.2
            return .idle
        | _ => return .scanning turn.2

/-! ## The system -/

/-- A call a session can begin. -/
inductive SessionCall where
  /-- `temporal_rtree_insert` of a tuple. -/
  | insert (itup : IndexTuple)
  /-- `temporal_rtree_bulkdelete`. -/
  | bulkdelete (callback : IndexBulkDeleteCallback) (stats : Option IndexBulkDeleteResult)
  /-- `temporal_rtree_beginscan` and `temporal_rtree_rescan`. -/
  | scan (keys : List ScanKey)

/-- Where a session stands at the start of a call; a NULL key is not inserted. -/
def SessionCall.start : SessionCall → Activity
  | .insert itup =>
      match rtreeIndexTupleBox itup with
      | none => .idle
      | some box => .insertMeta itup box
  | .bulkdelete callback stats => .deleteMeta callback stats
  | .scan keys => .scanning { temporalRtreeBeginscan keys.length with keyData := keys }

/-- The index and what the sessions are doing. -/
structure LockWorld where
  rel : Rel
  sessions : List Activity

/-- What session `i` is doing. -/
def LockWorld.at (w : LockWorld) (i : Nat) : Activity := w.sessions.getD i .idle

/-- Session `i` goes on with `act` on the index `rel`. -/
def LockWorld.put (w : LockWorld) (i : Nat) (rel : Rel) (act : Activity) : LockWorld :=
  { rel := rel, sessions := w.sessions.set i act }

/-- The world after the step of session `i` that ended so. -/
def LockWorld.after (w : LockWorld) (i : Nat) : EStateM.Result RTreeError Rel Activity → LockWorld
  | .ok act rel => w.put i rel act
  | .error _ rel => w.put i rel .idle

/-- Whether some session, the one that asks included, has a lock that conflicts with `l`. -/
def LockWorld.blocked (w : LockWorld) (l : PageLock) : Bool :=
  w.sessions.any fun act => act.locked.any l.conflicts

/-- What can happen next. -/
inductive LockAction where
  /-- Session `i` begins a call. -/
  | begin (i : Nat) (call : SessionCall)
  /-- Session `i` goes on with its call. -/
  | advance (i : Nat)
  /-- Session `i` ends its scan early: `temporal_rtree_endscan`. -/
  | endscan (i : Nat)

/-- One step; `none` if there is no such session, it is not in the state for it, or it has to wait for a lock. An
    error ends the call, and its locks are given up. A step that extends the relation is given a block that no other
    session has been given: extensions do not overlap. -/
def stepLock (env : Env) (w : LockWorld) : LockAction → Option LockWorld
  | .begin i call =>
      match w.sessions[i]? with
      | some .idle => some (w.put i w.rel call.start)
      | _ => none
  | .advance i =>
      match w.sessions[i]? with
      | none => none
      | some .idle => none
      | some act =>
          if act.wants.any w.blocked then none
          else some (w.after i (act.advance env w.rel))
  | .endscan i =>
      match w.sessions[i]? with
      | some (.scanning scan) => some (w.after i ((temporalRtreeEndscan scan >>= fun _ => pure .idle) w.rel))
      | _ => none

/-- Session `i` waits for a lock that session `j` has. -/
def WaitsFor (w : LockWorld) (i j : Nat) : Prop :=
  ∃ l l', (w.at i).wants = some l ∧ l' ∈ (w.at j).locked ∧ l.conflicts l' = true

end TemporalRTree
