import TemporalRTree.Lib.Binary64
import Mathlib.Data.Finset.Basic

/-!
# `Model.Planner` — what the planner is told about the index, and what it makes of it

`temporal_rtree_costestimate` prices a scan of the index; the planner prices every other way to read the table, and
`set_cheapest` picks the path it will use. Costs, row counts and page counts are doubles in the source and exact
rationals here; `rint` rounds ties to even.

What the estimate gets from other parts of the planner is passed in: the selectivity of the index conditions
(`clauselist_selectivity`) and the cost of evaluating their other operands (`index_other_operands_eval_cost`).
-/

namespace TemporalRTree

/-- An object identifier. -/
abbrev Oid := Nat

/-- `InvalidOid`. -/
def invalidOid : Oid := 0

/-! ## The estimate -/

/-- The planner's settings, and the pages of all tables of the query. No setting of a cost is accepted below 0. -/
structure CostSettings where
  randomPageCost : ℚ
  cpuIndexTupleCost : ℚ
  cpuOperatorCost : ℚ
  effectiveCacheSize : Nat
  totalTablePages : ℚ
  page_nonneg : 0 ≤ randomPageCost
  tuple_nonneg : 0 ≤ cpuIndexTupleCost
  operator_nonneg : 0 ≤ cpuOperatorCost

/-- What the planner knows about an index: `IndexOptInfo`. -/
structure IndexOptInfo where
  pages : Nat
  tuples : ℚ

/-- The index conditions of a path: how many there are, the share of rows that meet them, and what it costs to
    evaluate their other operands. -/
structure IndexQuals where
  length : Nat
  selectivity : ℚ
  argCost : ℚ

/-- What `temporal_rtree_costestimate` returns. -/
structure CostEstimate where
  startupCost : ℚ
  totalCost : ℚ
  selectivity : ℚ
  correlation : ℚ
  pages : ℚ
  deriving DecidableEq

/-- The pages of a table that `index_pages_fetched` counts with. -/
def tablePages (pages : Nat) : ℚ := if 1 < pages then pages else 1

/-- The share of the cache it grants them: positive and integral. -/
def cacheShare (cost : CostSettings) (pages : Nat) (indexPages : ℚ) : ℚ :=
  let totalPages := max (cost.totalTablePages + indexPages) 1
  let b := cost.effectiveCacheSize * tablePages pages / totalPages
  if b ≤ 1 then 1 else ⌈b⌉

/-- The Mackert and Lohman formula: `N` fetches from `T` pages with a cache of `b`. -/
def mackertLohman (T b N : ℚ) : ℚ :=
  if T ≤ b then
    let fetched := (2 * T * N) / (2 * T + N)
    if T ≤ fetched then T else ⌈fetched⌉
  else
    let lim := (2 * T * b) / (2 * T - b)
    if N ≤ lim then ⌈(2 * T * N) / (2 * T + N)⌉
    else ⌈b + (N - lim) * (T - b) / T⌉

/-- `index_pages_fetched`. -/
def indexPagesFetched (cost : CostSettings) (tuplesFetched : ℚ) (pages : Nat) (indexPages : ℚ) : ℚ :=
  mackertLohman (tablePages pages) (cacheShare cost pages indexPages) tuplesFetched

/-- The selectivity, kept in range. -/
def clampSelectivity (selectivity : ℚ) : ℚ := max 0 (min selectivity 1)

/-- The number of tuples of the index, not less than one. -/
def IndexOptInfo.someTuples (index : IndexOptInfo) : ℚ := max index.tuples 1

/-- `numIndexTuples`. -/
def numIndexTuples (index : IndexOptInfo) (selectivity : ℚ) : ℚ :=
  let n : ℚ := Binary64.roundHalfEven (index.someTuples * selectivity)
  let n := if n < 1 then 1 else n
  if index.someTuples < n then index.someTuples else n

/-- `numIndexPages`. -/
def numIndexPages (index : IndexOptInfo) (selectivity : ℚ) : ℚ :=
  let n : ℚ :=
    if 1 < index.pages ∧ 1 < index.someTuples then
      ⌈numIndexTuples index selectivity * index.pages / index.someTuples⌉
    else 1
  max 1 (min n (max index.pages 1))

/-- `page_cost`: the pages of one scan, or their share in the pages that `loop_count` scans find outside the cache. -/
def pageCost (cost : CostSettings) (index : IndexOptInfo) (selectivity loopCount : ℚ) : ℚ :=
  let n := numIndexPages index selectivity
  if 1 < loopCount ∧ 1 < n then
    (indexPagesFetched cost (n * loopCount) index.pages index.pages * cost.randomPageCost) / loopCount
  else n * cost.randomPageCost

/-- `temporal_rtree_costestimate`. -/
def temporalRtreeCostestimate (cost : CostSettings) (index : IndexOptInfo) (quals : IndexQuals) (loopCount : ℚ) :
    CostEstimate :=
  let selectivity := clampSelectivity quals.selectivity
  let qualOpCost := cost.cpuOperatorCost * quals.length
  { startupCost := quals.argCost
    totalCost := quals.argCost + pageCost cost index selectivity loopCount +
      numIndexTuples index selectivity * (cost.cpuIndexTupleCost + qualOpCost)
    selectivity := selectivity
    correlation := 0
    pages := numIndexPages index selectivity }

/-! ## Paths -/

/-- How a path reads its table. -/
inductive PathKind where
  | seqScan
  /-- `IndexPath`, with the `indexoid` of its index. -/
  | index (indexoid : Oid)
  | other
  deriving DecidableEq

/-- A path: its costs, the order of its rows, and the relations it takes parameters from (`param_info`). -/
structure Path where
  kind : PathKind
  startupCost : ℚ
  totalCost : ℚ
  pathkeys : List Nat := []
  paramInfo : Option (Finset Nat) := none
  deriving DecidableEq

/-- `CostSelector`. -/
inductive CostSelector where
  | startupCost
  | totalCost

/-- `compare_path_costs`. -/
def comparePathCosts (path1 path2 : Path) : CostSelector → Ordering
  | .startupCost =>
      if path1.startupCost < path2.startupCost then .lt
      else if path2.startupCost < path1.startupCost then .gt
      else if path1.totalCost < path2.totalCost then .lt
      else if path2.totalCost < path1.totalCost then .gt
      else .eq
  | .totalCost =>
      if path1.totalCost < path2.totalCost then .lt
      else if path2.totalCost < path1.totalCost then .gt
      else if path1.startupCost < path2.startupCost then .lt
      else if path2.startupCost < path1.startupCost then .gt
      else .eq

/-- `PathKeysComparison`. -/
inductive PathKeysComparison where
  | equal
  | better1
  | better2
  | different
  deriving DecidableEq

/-- `compare_pathkeys`; path keys are canonical, so comparing their pointers is comparing them. -/
def comparePathkeys : List Nat → List Nat → PathKeysComparison
  | [], [] => .equal
  | _ :: _, [] => .better1
  | [], _ :: _ => .better2
  | key1 :: keys1, key2 :: keys2 => if key1 ≠ key2 then .different else comparePathkeys keys1 keys2

/-- `BMS_Comparison`. -/
inductive BmsComparison where
  | equal
  | subset1
  | subset2
  | different
  deriving DecidableEq

/-- `bms_subset_compare`. -/
def bmsSubsetCompare (a b : Finset Nat) : BmsComparison :=
  if a = b then .equal
  else if a ⊆ b then .subset1
  else if b ⊆ a then .subset2
  else .different

/-- `PATH_REQ_OUTER`. -/
def Path.reqOuter (path : Path) : Finset Nat := path.paramInfo.getD ∅

/-! ## The cheapest path -/

/-- The variables of `set_cheapest`. -/
structure Cheapest where
  startup : Option Path := none
  total : Option Path := none
  bestParam : Option Path := none
  parameterized : List Path := []

/-- Whether `path` takes the place of `best` in a slot for the cheapest path. -/
def supersedes (criterion : CostSelector) (best path : Path) : Bool :=
  match comparePathCosts best path criterion with
  | .gt => true
  | .eq => comparePathkeys best.pathkeys path.pathkeys = .better2
  | .lt => false

/-- Whether `path` takes the place of `best` as the best parameterized path. -/
def betterParam (best path : Path) : Bool :=
  match bmsSubsetCompare path.reqOuter best.reqOuter with
  | .equal => comparePathCosts path best .totalCost = .lt
  | .subset1 => true
  | .subset2 => false
  | .different => false

/-- One turn of the loop of `set_cheapest`. -/
def considerPath (c : Cheapest) (path : Path) : Cheapest :=
  if path.paramInfo.isSome then
    let c := { c with parameterized := c.parameterized ++ [path] }
    if c.total.isSome then c
    else
      match c.bestParam with
      | none => { c with bestParam := some path }
      | some best => if betterParam best path then { c with bestParam := some path } else c
  else
    match c.startup, c.total with
    | some startup, some total =>
        { c with
          startup := some (if supersedes .startupCost startup path then path else startup)
          total := some (if supersedes .totalCost total path then path else total) }
    | _, _ => { c with startup := some path, total := some path }

/-- `set_cheapest`; `none` is the error for an empty list. The best parameterized path stands in if every path is
    parameterized. -/
def setCheapest (pathlist : List Path) : Option Cheapest :=
  if pathlist = [] then none
  else
    let c := pathlist.foldl considerPath {}
    match c.total with
    | some total => some { c with parameterized := total :: c.parameterized }
    | none => some { c with total := c.bestParam }

end TemporalRTree
