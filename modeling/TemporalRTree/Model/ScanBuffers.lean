import TemporalRTree.Lib.Ledger
import TemporalRTree.Model.Search

/-!
# `Model.ScanBuffers` — the buffers of index scans (`temporal_rtree_search.c`)

The callbacks of `Model.Search` on a buffer manager that records every call: a page is read, which pins it, locked,
unlocked and released. This is the level at which pins are counted.

A session may have several scans open. Each has a descriptor, whose opaque state `temporal_rtree_endscan` frees
and sets to NULL, and the buffer calls made for it (`ScanSlot`).
-/

namespace TemporalRTree.Pinned
open Ledger

/-- The blocks of the index, and the calls of the buffer manager for one scan. -/
structure Buffers where
  pages : List Page
  calls : List (Access BlockNumber) := []

/-- Computations that call the buffer manager. -/
abbrev BufferM := ScanM Buffers

/-! ## The buffer manager -/

/-- Record a call. -/
def record (call : Access BlockNumber) : BufferM Unit :=
  modify (fun s => { s with calls := s.calls ++ [call] })

/-- Every call is recorded; a block that is read must exist. -/
instance : BufferManager Buffers where
  readBuffer blkno := do
    let s ← get
    if blkno < s.pages.length then record (.pin blkno) else throw .couldNotReadBlock
  lockForRead blkno := record (.lock blkno)
  unlock blkno := record (.unlock blkno)
  releaseBuffer blkno := record (.unpin blkno)
  getPage blkno := do return pageAt (← get).pages blkno
  getMeta := do return metaAt (← get).pages

/-! ## Sessions -/

/-- A scan between two calls: its descriptor, `none` where the opaque state is NULL, and the buffer calls made
    for it. -/
structure ScanSlot where
  scan : Option IndexScanDesc
  calls : List (Access BlockNumber) := []

/-- `cur_buf`; a freed state has none. -/
def ScanSlot.curBuf (slot : ScanSlot) : Option BlockNumber := slot.scan.bind fun scan => scan.so.curBuf

/-- A call on a scan. -/
inductive Request where
  | rescan (keys : List ScanKey)
  | gettuple (forward : Bool)
  | endscan
  deriving DecidableEq

/-- A call of a session, on the scan with this number where there is one. -/
inductive ScanCall where
  | beginscan (nkeys : Nat)
  | on (scan : Nat) (request : Request)
  deriving DecidableEq

/-- A call that has returned: what it was, what `temporal_rtree_gettuple` returned (false for the others), and
    the scan it left. -/
structure ScanReturn where
  call : ScanCall
  found : Bool
  slot : ScanSlot

/-- A callback. Each of them returns at once where the opaque state is NULL. -/
def serve (fuel : Nat) : Option IndexScanDesc → Request → BufferM (Bool × Option IndexScanDesc)
  | none, _ => pure (false, none)
  | some scan, .rescan keys => do
      let scan ← temporalRtreeRescan scan keys
      return (false, some scan)
  | some scan, .gettuple forward => do
      let res ← temporalRtreeGettuple fuel scan forward
      return (res.1, some res.2)
  | some scan, .endscan => do
      temporalRtreeEndscan scan
      return (false, none)

/-- The calls of a session on an index, from the scans it has: those that returned, in order, and the error that
    ended it, if one did. -/
def runSession (fuel : Nat) (pages : List Page) :
    List ScanCall → List ScanSlot → List ScanReturn × Option RTreeError
  | [], _ => ([], none)
  | .beginscan nkeys :: rest, slots =>
      let slot : ScanSlot := { scan := some (temporalRtreeBeginscan nkeys) }
      let run := runSession fuel pages rest (slots ++ [slot])
      (⟨.beginscan nkeys, false, slot⟩ :: run.1, run.2)
  | .on i request :: rest, slots =>
      match slots[i]? with
      | none => runSession fuel pages rest slots
      | some slot =>
          match serve fuel slot.scan request { pages := pages, calls := slot.calls } with
          | .error e _ => ([], some e)
          | .ok res s =>
              let slot : ScanSlot := { scan := res.2, calls := s.calls }
              let run := runSession fuel pages rest (slots.set i slot)
              (⟨.on i request, res.1, slot⟩ :: run.1, run.2)

end TemporalRTree.Pinned
