import TemporalRTree.Lib.RedoLog
import TemporalRTree.Model.BufferPool

/-!
# `Model.Server` — a server that checkpoints, crashes and recovers

The pages of an index are in shared buffers; each block has a copy on disk as well and may be marked dirty. Dirty
pages are written back one by one at any time, and all of them at a checkpoint; a page that was changed without being
marked is not written. After a crash the shared buffers are gone: the pages are those on disk, with the full-page
images logged since the last checkpoint redone. Recovery ends with a checkpoint of its own.
-/

namespace TemporalRTree
open RedoLog

/-- The records of a trace. -/
def walLog (trace : List Event) : List (List (BlockNumber × Page)) :=
  trace.filterMap fun
    | .xlog images => some images
    | _ => none

/-- The pages after crash recovery: those of the checkpoint, with the records logged since redone. -/
def recover (checkpoint : List Page) (trace : List Event) : List Page :=
  replay .zero checkpoint (walLog trace)

/-- The index on a server: its pages in shared buffers with the trace, its blocks on disk, the dirty ones, and what was
    reported since the last checkpoint. -/
structure Server where
  rel : Rel
  disk : BlockNumber → Page := fun _ => .zero
  dirty : List BlockNumber := []
  since : List Event := []

/-- What happens to the server. -/
inductive Incident where
  | op (op : Op)
  /-- Write a dirty page back. -/
  | writeBack (blkno : BlockNumber)
  /-- Drop a clean page, whose next reader gets the copy on disk. -/
  | drop (blkno : BlockNumber)
  | checkpoint
  /-- The server stops at once, and recovers when it starts again. -/
  | crash

/-- The file on disk; it is extended when the relation is. -/
def Server.file (v : Server) : List Page := (List.range v.rel.pages.length).map v.disk

/-- The relation an operation starts from: a build gets a new file. -/
def Server.prepare (v : Server) : Op → Server
  | .build _ => { rel := { v.rel with pages := [] } }
  | _ => v

/-- The server after an operation has run to `rel`. -/
def Server.after (v : Server) (rel : Rel) : Server :=
  { v with
    rel := rel
    dirty := v.dirty ++ dirtied (rel.trace.drop v.rel.trace.length)
    since := v.since ++ rel.trace.drop v.rel.trace.length }

/-- The server with what a checkpoint writes: the dirty pages, and no others. -/
def Server.checkpointed (v : Server) : Server :=
  { rel := v.rel
    disk := fun blkno => if blkno ∈ v.dirty then v.rel.pages.getD blkno .zero else v.disk blkno }

/-- The server after recovery, which has written the pages it restored. -/
def Server.recovered (v : Server) : Server :=
  let pages := recover v.file v.since
  { rel := { v.rel with pages := pages }, disk := fun blkno => pages.getD blkno .zero }

/-- One incident; an operation runs to its end. -/
def stepServer (env : Env) (v : Server) : Incident → Option Server
  | .op op =>
      match runOp env op (v.prepare op).rel with
      | .ok _ rel => some ((v.prepare op).after rel)
      | .error _ _ => none
  | .writeBack blkno =>
      if blkno ∈ v.dirty then
        some { v with
          disk := Function.update v.disk blkno (v.rel.pages.getD blkno .zero)
          dirty := v.dirty.filter (· ≠ blkno) }
      else none
  | .drop blkno =>
      if blkno ∈ v.dirty then none
      else some { v with rel := { v.rel with pages := v.rel.pages.set blkno (v.disk blkno) } }
  | .checkpoint => some v.checkpointed
  | .crash => some v.recovered

end TemporalRTree
