import TemporalRTree.Model.Sessions

/-!
# `Model.VacuumWalk` — `rtree_vacuum_page` page by page, beside a scan

`rtree_vacuum_page` keeps an inner page exclusively locked while it calls itself on the children, so a walk has the
pages from its root to the current one locked and no others: another session reads the rest of the tree in
between. Here the recursion of `rtreeVacuumPage` is cut at these points. The frames are its active calls, with the
loop variables of each; a step enters a page, which is the whole call if the page is a leaf, or rebuilds and
releases the page of the innermost call once its children are done.

Beside the walk a scan makes its steps, the read of the meta page and the visits of pages. It waits for a page
that the walk has locked. Between its visits it has no page locked, so the walk never waits for it.
-/

namespace TemporalRTree

/-- An active call on an inner page: the page as it was read, the downlinks from the current one on, and what has
    been collected. -/
structure VacuumFrame where
  blkno : BlockNumber
  page : DataPage
  todo : List IndexTuple
  kept : VacuumItems

/-- The call for the current downlink has returned. -/
def VacuumFrame.receive (f : VacuumFrame) (res : Option RTreeTemporalBox × IndexBulkDeleteResult) : VacuumFrame :=
  match f.todo with
  | [] => f
  | itup :: rest =>
      let acc := { f.kept with stats := res.2 }
      match res.1 with
      | none => { f with todo := rest, kept := acc }
      | some childBox =>
          { f with todo := rest, kept := acc.keep (rtreeFormTuple childBox (childTid itup.tTid.blkno)) childBox }

/-- Where a walk stands: in calls, the innermost first, or returned. -/
inductive WalkState where
  | walking (top : VacuumFrame) (below : List VacuumFrame)
  | done (res : Option RTreeTemporalBox × IndexBulkDeleteResult)

/-- A call returns to the one around it. -/
def WalkState.deliver : List VacuumFrame → Option RTreeTemporalBox × IndexBulkDeleteResult → WalkState
  | [], res => .done res
  | f :: below, res => .walking (f.receive res) below

/-- A call of `rtree_vacuum_page` up to its first recursive call; for a leaf, the whole call. -/
def vacuumEnter (env : Env) (callback : IndexBulkDeleteCallback) (blkno : BlockNumber)
    (stats : IndexBulkDeleteResult) (frames : List VacuumFrame) : IndexM WalkState := do
  readBuffer blkno
  lockBuffer blkno .exclusive
  let page ← bufferGetPage blkno
  let start : VacuumItems := { tuples := [], boxes := [], stats := stats }
  if page.special.flags.leaf then
    let res ← rebuildPage env blkno page (page.items.foldl (vacuumLeafItem callback) start)
    return .deliver frames res
  else return .walking { blkno := blkno, page := page, todo := page.items, kept := start } frames

/-- The next step of a walk: the call for the current downlink begins, or the innermost call returns. -/
def vacuumAdvance (env : Env) (callback : IndexBulkDeleteCallback) (top : VacuumFrame)
    (below : List VacuumFrame) : IndexM WalkState :=
  match top.todo with
  | itup :: _ => vacuumEnter env callback itup.tTid.blkno top.kept.stats (top :: below)
  | [] => do
      let res ← rebuildPage env top.blkno top.page top.kept
      return .deliver below res

/-! ## A scan beside a bulk deletion -/

/-- Where the bulk deletion stands: in a walk from `root`, or outside of it. -/
inductive PurgePhase where
  | outside (phase : VacuumPhase)
  | walking (root : BlockNumber) (level : Nat) (top : VacuumFrame) (below : List VacuumFrame)

/-- The pages the bulk deletion has locked. -/
def PurgePhase.locked : PurgePhase → List BlockNumber
  | .outside _ => []
  | .walking _ _ top below => (top :: below).map VacuumFrame.blkno

/-- The phase that a walk from `root` is in. -/
def PurgePhase.ofWalk (root : BlockNumber) (level : Nat) : WalkState → PurgePhase
  | .walking top below => .walking root level top below
  | .done res => .outside (.walked root level res.2)

/-- The index with a scan, and the bulk deletion of another session. -/
structure PurgeWorld where
  reader : ScanWorld
  phase : PurgePhase := .outside .idle

/-- A step of the scan or of the bulk deletion. -/
inductive PurgeAction where
  /-- The scan reads the meta page. -/
  | start
  /-- The scan visits the page of the top frame. -/
  | visit (fuel : Nat)
  /-- A bulk deletion begins and reads the meta page. -/
  | bulkdelete (stats : Option IndexBulkDeleteResult)
  /-- A step of its walk. -/
  | walk
  /-- `rtree_vacuum_shrink_root`. -/
  | shrink

/-- The pages changed by the bulk deletion. -/
def PurgeWorld.write (w : PurgeWorld) (rel : Rel) (phase : PurgePhase) : PurgeWorld :=
  { reader := { w.reader with rel := rel }, phase := phase }

/-- The page the scan is about to visit. -/
def ScanWorld.nextBlock (w : ScanWorld) : Option BlockNumber := w.scan.so.stack.head?.map (·.blkno)

/-- The page the walk is about to lock. -/
def VacuumFrame.nextBlock (f : VacuumFrame) : Option BlockNumber := f.todo.head?.map (·.tTid.blkno)

/-- One step; `none` if it is not its turn, the page it needs is locked, or it raises an error. A session may begin
    one bulk deletion after the other. -/
def stepPurge (env : Env) (callback : IndexBulkDeleteCallback) (w : PurgeWorld) : PurgeAction → Option PurgeWorld
  | .start => (stepScan env w.reader .start).map fun r => { w with reader := r }
  | .visit fuel =>
      if w.reader.nextBlock.any (w.phase.locked.contains ·) then none
      else (stepScan env w.reader (.visit fuel)).map fun r => { w with reader := r }
  | .bulkdelete stats =>
      match w.phase with
      | .outside phase =>
          let phase := if phase.isReturned then .idle else phase
          (stepVacuum env callback { rel := w.reader.rel, phase := phase } (.start stats)).map fun v =>
            w.write v.rel (.outside v.phase)
      | .walking .. => none
  | .walk =>
      match w.phase with
      | .outside (.located root level stats) =>
          match vacuumEnter env callback root stats [] w.reader.rel with
          | .ok state rel => some (w.write rel (.ofWalk root level state))
          | .error _ _ => none
      | .walking root level top below =>
          if top.nextBlock.any (w.phase.locked.contains ·) then none
          else
            match vacuumAdvance env callback top below w.reader.rel with
            | .ok state rel => some (w.write rel (.ofWalk root level state))
            | .error _ _ => none
      | .outside _ => none
  | .shrink =>
      match w.phase with
      | .outside phase =>
          (stepVacuum env callback { rel := w.reader.rel, phase := phase } .shrink).map fun v =>
            w.write v.rel (.outside v.phase)
      | .walking .. => none

end TemporalRTree
