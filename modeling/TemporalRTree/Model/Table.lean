import TemporalRTree.Model.Build
import TemporalRTree.Model.TsRange

/-!
# `Model.Table` — a table with a temporal_rtree index, under the statements that change it

The access method knows rows only by their TIDs. What ties its entries to rows is the order in which the server calls
it: a new row version is stored in the heap first and then inserted into the index; a version that no transaction can
see any more stays in the heap until a bulk deletion has been told of its TID, and only then may the TID be used
again. Here this order is written out, for one session, whose statements may be rolled back: a rolled back insert
leaves a dead version and its index entry behind.

An update stores a new version at another TID and inserts it into the index, also if the key is the same. A HOT update
does neither: the new version hangs on the line pointer of the old one, whose TID is the one the index goes on using. A
row is named by that TID here, and a fetch of it gives the row as the last update left it.
-/

namespace TemporalRTree

/-- A version of a row in the heap; `dead` when no transaction can see it. -/
structure RowVersion (α : Type) where
  tid : ItemPointerData
  row : α
  dead : Bool

/-- A table and the relation of its index, if there is one. -/
structure Table (α : Type) where
  heap : List (RowVersion α) := []
  indexed : Bool := false
  rel : Rel := { pages := [] }

/-- What a session does to the table. -/
inductive TableOp (α : Type) where
  /-- INSERT of a row, stored at `tid`. -/
  | insert (tid : ItemPointerData) (row : α) (commit : Bool)
  /-- DELETE of the row at `tid`. -/
  | delete (tid : ItemPointerData) (commit : Bool)
  /-- UPDATE of the row at `old`; the new version is stored at `new`. -/
  | update (old new : ItemPointerData) (row : α) (commit : Bool)
  /-- UPDATE of the row at `tid` within its heap page (HOT). -/
  | hotUpdate (tid : ItemPointerData) (row : α) (commit : Bool)
  /-- A pass of VACUUM over index and heap for those of the dead TIDs that it has collected. -/
  | vacuumPass (stats : Option IndexBulkDeleteResult) (collected : ItemPointerData → Bool)
  /-- The end of VACUUM: `amvacuumcleanup`. -/
  | vacuumCleanup (info : IndexVacuumInfo) (stats : Option IndexBulkDeleteResult)
  /-- CREATE INDEX or REINDEX, over the live rows. -/
  | createIndex
  /-- DROP INDEX. -/
  | dropIndex

section Statements
variable {α : Type}

/-- Whether a TID is in use. -/
def Table.used (t : Table α) (tid : ItemPointerData) : Bool := t.heap.any fun v => v.tid = tid

/-- The live version at a TID: what a heap fetch gives. -/
def Table.fetch (t : Table α) (tid : ItemPointerData) : Option (RowVersion α) :=
  t.heap.find? fun v => v.tid = tid && !v.dead

/-- The version at a TID is dead from now on. -/
def Table.kill (t : Table α) (tid : ItemPointerData) : Table α :=
  { t with heap := t.heap.map fun v => if v.tid = tid then { v with dead := true } else v }

/-- The TID leads to another row from now on. -/
def Table.rewrite (t : Table α) (tid : ItemPointerData) (row : α) : Table α :=
  { t with heap := t.heap.map fun v => if v.tid = tid then { v with row := row } else v }

variable (env : Env) (expr : α → Option (Option NDBOX))

/-- A call of the access method, if there is an index; `none` if it raises an error. -/
def Table.call (t : Table α) (op : Op) : Option (Table α) :=
  if t.indexed then
    match runOp env op t.rel with
    | .ok _ rel => some { t with rel := rel }
    | .error _ _ => none
  else some t

/-- Whether the index expression can be evaluated on a row. `expr` gives `none` for an error and `some none` for
    NULL. -/
def Table.accepts (t : Table α) (row : α) : Bool := !t.indexed || (expr row).isSome

/-- A new version: into the heap, then into the index. An error in the expression rolls the statement back. -/
def Table.store (t : Table α) (v : RowVersion α) : Option (Table α) :=
  if t.used v.tid then none
  else if t.accepts expr v.row then
    ({ t with heap := t.heap ++ [v] } : Table α).call env (.insert { tid := v.tid, key := (expr v.row).join })
  else some { t with heap := t.heap ++ [{ v with dead := true }] }

/-- Whether a pass of VACUUM removes a version. -/
def RowVersion.removed (collected : ItemPointerData → Bool) (v : RowVersion α) : Bool := v.dead && collected v.tid

/-- The TIDs it hands to `ambulkdelete`. -/
def Table.deadTids (t : Table α) (collected : ItemPointerData → Bool) : IndexBulkDeleteCallback :=
  some fun tid => t.heap.any fun v => v.removed collected && decide (v.tid = tid)

/-- The live versions: what a sequential scan reads. -/
def Table.live (t : Table α) : List (RowVersion α) := t.heap.filter fun v => !v.dead

/-- Whether an update may be HOT. The server asks for more: that no column of the index expression is modified. -/
def Table.hotSafe (t : Table α) (old new : α) : Bool := !t.indexed || decide (expr new = expr old)

/-- The rows that the heap scan of an index build hands out; `none` if the expression raises an error. -/
def Table.buildRows (t : Table α) : Option (List HeapRow) :=
  if t.live.all fun v => (expr v.row).isSome then
    some (t.live.map fun v => { tid := v.tid, key := (expr v.row).join })
  else none

/-- One statement; `none` if it cannot happen, or a call of the access method raises an error. -/
def stepTable (t : Table α) : TableOp α → Option (Table α)
  | .insert tid row commit => t.store env expr { tid := tid, row := row, dead := !commit }
  | .delete tid commit =>
      match t.fetch tid with
      | none => none
      | some _ => some (if commit then t.kill tid else t)
  | .update old new row commit =>
      match t.fetch old with
      | none => none
      | some _ =>
          (t.store env expr { tid := new, row := row, dead := !commit }).map fun t' =>
            if commit && t.accepts expr row then t'.kill old else t'
  | .hotUpdate tid row commit =>
      match t.fetch tid with
      | none => none
      | some v => if t.hotSafe expr v.row row then some (if commit then t.rewrite tid row else t) else none
  | .vacuumPass stats collected =>
      (t.call env (.bulkdelete stats (t.deadTids collected))).map fun t' =>
        { t' with heap := t'.heap.filter fun v => !v.removed collected }
  | .vacuumCleanup info stats => t.call env (.vacuumcleanup info stats)
  | .createIndex =>
      match t.buildRows expr with
      | none => none
      | some rows => ({ t with indexed := true } : Table α).call env (.build rows)
  | .dropIndex => some { t with indexed := false }

end Statements

/-! ## `temporal_data` -/

/-- A row of `temporal_data`, as far as index and queries read it. -/
structure DataRow where
  attr : ℤ
  validPeriod : TsRange

/-- `upper_inf(valid_period)`. -/
def DataRow.upperInf (row : DataRow) : Bool := row.validPeriod.upper.val.isNone

/-! ## Queries of the benchmark (`run_benchmark_matrix.sh`)

A condition that is NULL or raises an error holds of no row here. -/

/-- The plan that reads the heap: what a query with forced sequential scans gives. -/
def Table.seqScan {α : Type} (t : Table α) (cond : α → Bool) : List (RowVersion α) :=
  t.live.filter fun v => cond v.row

/-- `temporalbox(attr, valid_period) @> temporalbox_point(a, ts)`. -/
def containsPoint (a : ℤ) (ts : Timestamp) (row : DataRow) : Bool :=
  (temporalbox row.attr row.validPeriod).any fun k => (temporalboxPoint a ts).any fun q => cubeContainsV0 k q

/-- `upper_inf(valid_period) AND attr = a AND lower(valid_period) <= ts`. -/
def activeSince (a : ℤ) (ts : Timestamp) (row : DataRow) : Bool :=
  row.upperInf && decide (row.attr = a) && row.validPeriod.lower.val.any fun l => decide (l ≤ ts)

/-- The point query decomposed: the history by its boxes, then the current rows by attribute and start. -/
def Table.hybridDecomposed (t : Table DataRow) (a : ℤ) (ts : Timestamp) : List (RowVersion DataRow) :=
  t.seqScan (fun row => !row.upperInf && containsPoint a ts row) ++ t.seqScan (activeSince a ts)

end TemporalRTree
