import TemporalRTree.Model.Planner

/-!
# `Model.Hooks` — the hooks of the module

The module hangs itself into the planner, into the start of the executor and into the making of paths
(`temporal_rtree_hooks.c`). Two of the hooks only count and log; the third makes the paths of a temporal_rtree index
cheaper when `temporal_rtree.force_rtree_paths` is set. Lookups in the system caches are given by a `Catalog`; a lookup
that fails is `none`.

A hook passes control to the hook that was installed before it, or to the server's own function. The planner's result
is that function's; a list of paths is the one it leaves.
-/

namespace TemporalRTree

/-! ## The catalog -/

/-- What the hooks look up: `RelationGetIndexList` and the system caches. -/
structure Catalog where
  indexList : Oid → List Oid
  relam : Oid → Option Oid
  amname : Oid → Option String
  proname : Oid → Option String
  oprname : Oid → Option String

/-- Whether an index is one of the access method temporal_rtree. -/
def Catalog.isRtreeIndex (cat : Catalog) (indexOid : Oid) : Bool :=
  match cat.relam indexOid with
  | none => false
  | some amOid => amOid ≠ invalidOid && cat.amname amOid = some "temporal_rtree"

/-- `trtree_has_temporal_rtree_index`. -/
def trtreeHasTemporalRtreeIndex (cat : Catalog) (relationOid : Oid) : Bool :=
  (cat.indexList relationOid).any cat.isRtreeIndex

/-- `trtree_get_rtree_index_oid`: the first one, or `InvalidOid`. -/
def trtreeGetRtreeIndexOid (cat : Catalog) (relationOid : Oid) : Oid :=
  ((cat.indexList relationOid).find? cat.isRtreeIndex).getD invalidOid

/-! ## Expressions -/

/-- `BoolExprType`. -/
inductive BoolExprType where
  | andExpr
  | orExpr
  | notExpr
  deriving DecidableEq

/-- An expression tree, as far as the hooks tell its nodes apart. -/
inductive Node where
  | funcExpr (funcid : Oid) (args : List Node)
  | opExpr (opno : Oid) (args : List Node)
  | boolExpr (boolop : BoolExprType) (args : List Node)
  /-- A sub-`Query`, which `expression_tree_walker` does not enter. -/
  | query
  /-- Any other node, with the children `expression_tree_walker` visits. -/
  | other (children : List Node)

mutual

/-- `trtree_contains_temporalbox`. -/
def trtreeContainsTemporalbox (cat : Catalog) : Node → Bool
  | .funcExpr funcid args => cat.proname funcid = some "temporalbox" || walkTemporalbox cat args
  | .opExpr _ args => walkTemporalbox cat args
  | .boolExpr _ args => walkTemporalbox cat args
  | .query => false
  | .other children => walkTemporalbox cat children

/-- `expression_tree_walker` with it, over the children of a node. -/
def walkTemporalbox (cat : Catalog) : List Node → Bool
  | [] => false
  | node :: nodes => trtreeContainsTemporalbox cat node || walkTemporalbox cat nodes

end

/-- `trtree_is_compatible_operator`. -/
def trtreeIsCompatibleOperator (cat : Catalog) (opoid : Oid) : Bool :=
  match cat.oprname opoid with
  | none => false
  | some opname => opname = "&&" || opname = "@>" || opname = "<@"

/-- The test of `trtree_clause_is_temporal_rtree_compatible` on an operator and its arguments. -/
def compatibleOpExpr (cat : Catalog) (opno : Oid) : List Node → Bool
  | [leftarg, rightarg] =>
      (trtreeContainsTemporalbox cat leftarg && trtreeIsCompatibleOperator cat opno) ||
        (trtreeContainsTemporalbox cat rightarg && trtreeIsCompatibleOperator cat opno)
  | _ => false

mutual

/-- `trtree_clause_is_temporal_rtree_compatible`. -/
def trtreeClauseIsTemporalRtreeCompatible (cat : Catalog) : Node → Bool
  | .opExpr opno args => compatibleOpExpr cat opno args
  | .boolExpr .andExpr args => anyCompatible cat args
  | .boolExpr .orExpr _ => false
  | .boolExpr .notExpr _ => false
  | .funcExpr _ _ => false
  | .query => false
  | .other _ => false

/-- Its loop over the arguments of an AND. -/
def anyCompatible (cat : Catalog) : List Node → Bool
  | [] => false
  | clause :: clauses => trtreeClauseIsTemporalRtreeCompatible cat clause || anyCompatible cat clauses

end

/-- `trtree_has_compatible_clauses`, on the clauses of `baserestrictinfo`. -/
def trtreeHasCompatibleClauses (cat : Catalog) (clauses : List Node) : Bool :=
  clauses.any (trtreeClauseIsTemporalRtreeCompatible cat)

/-! ## Statements -/

/-- `CmdType`. -/
inductive CmdType where
  | unknown
  | select
  | update
  | insert
  | delete
  | merge
  | utility
  | nothing
  deriving DecidableEq

/-- An entry of a range table; `relation` when it is of kind `RTE_RELATION`. -/
structure RangeTblEntry where
  relation : Bool
  relid : Oid

/-- The entry names a relation. -/
def RangeTblEntry.named (rte : RangeTblEntry) : Bool := rte.relation && rte.relid ≠ invalidOid

/-- What the planner hook reads of a `Query`. -/
structure Query where
  targetList : List Node
  quals : Option Node
  rtable : List RangeTblEntry

/-! ## The module's variables -/

/-- The settings of the module. -/
structure HookSettings where
  enableHookDebug : Bool := false
  forceRtreePaths : Bool := false
  logDml : Bool := false

/-- The statistics counters. -/
structure HookStats where
  plannerHits : UInt64 := 0
  plannerRtreeEligibleHits : UInt64 := 0
  executorDmlHits : UInt64 := 0
  executorTargetWithRtreeHits : UInt64 := 0
  pathBiasApplied : UInt64 := 0
  deriving DecidableEq

/-- A message in the server log. -/
structure LogEntry where
  errmsg : String
  errdetail : Option String := none
  deriving DecidableEq

structure HookState where
  settings : HookSettings := {}
  stats : HookStats := {}
  log : List LogEntry := []

/-- `temporal_rtree_hook_stats`: the counters as `int8`. -/
def temporalRtreeHookStats (st : HookState) : List Int64 :=
  [st.stats.plannerHits.toInt64, st.stats.plannerRtreeEligibleHits.toInt64, st.stats.executorDmlHits.toInt64,
    st.stats.executorTargetWithRtreeHits.toInt64, st.stats.pathBiasApplied.toInt64]

/-- `temporal_rtree_hook_reset`. -/
def temporalRtreeHookReset (st : HookState) : HookState := { st with stats := {} }

/-! ## The planner hook -/

/-- The query calls `temporalbox` in its target list or its conditions. -/
def Query.hasTemporalbox (cat : Catalog) (parse : Query) : Bool :=
  walkTemporalbox cat parse.targetList || parse.quals.any (trtreeContainsTemporalbox cat)

/-- One of its relations has a temporal_rtree index. -/
def Query.hasRtreeIndexedRel (cat : Catalog) (parse : Query) : Bool :=
  parse.rtable.any fun rte => rte.named && trtreeHasTemporalRtreeIndex cat rte.relid

/-- `%d` of a bool. -/
def boolDigit (b : Bool) : String := if b then "1" else "0"

/-- `trtree_planner_hook`, up to the call of the planner. -/
def trtreePlannerHook (cat : Catalog) (parse : Query) (queryString : Option String) (st : HookState) : HookState :=
  let hasTemporalbox := parse.hasTemporalbox cat
  let hasRtree := parse.hasRtreeIndexedRel cat
  let hit := hasTemporalbox || hasRtree
  let eligible := hasTemporalbox && hasRtree
  let stats :=
    if hit then
      let stats := { st.stats with plannerHits := st.stats.plannerHits + 1 }
      if eligible then { stats with plannerRtreeEligibleHits := stats.plannerRtreeEligibleHits + 1 } else stats
    else st.stats
  let log :=
    if st.settings.enableHookDebug && hit then
      st.log ++ [{ errmsg := "temporal_rtree planner hook: has_temporalbox=" ++ boolDigit hasTemporalbox ++
                     " has_rtree_idx=" ++ boolDigit hasRtree
                   errdetail := queryString.map ("query: " ++ ·) }]
    else st.log
  { st with stats := stats, log := log }

/-! ## The executor hook -/

/-- One turn of its loop over the range table, with `has_rtree_idx`. -/
def countTarget (cat : Catalog) (operation : CmdType) (acc : HookStats × Bool) (rte : RangeTblEntry) :
    HookStats × Bool :=
  if rte.named && operation ≠ .select then
    let stats := { acc.1 with executorDmlHits := acc.1.executorDmlHits + 1 }
    if trtreeHasTemporalRtreeIndex cat rte.relid then
      ({ stats with executorTargetWithRtreeHits := stats.executorTargetWithRtreeHits + 1 }, true)
    else (stats, acc.2)
  else acc

/-- `cmdname`. -/
def CmdType.cmdname : CmdType → String
  | .select => "SELECT"
  | .insert => "INSERT"
  | .update => "UPDATE"
  | .delete => "DELETE"
  | _ => "OTHER"

/-- `trtree_executor_start_hook`, up to the call of the executor. -/
def trtreeExecutorStartHook (cat : Catalog) (operation : CmdType) (rtable : List RangeTblEntry) (st : HookState) :
    HookState :=
  let counted := rtable.foldl (countTarget cat operation) (st.stats, false)
  let log :=
    if st.settings.enableHookDebug && st.settings.logDml && counted.2 then
      st.log ++ [{ errmsg := "temporal_rtree executor hook: " ++ operation.cmdname ++
                     " statement on temporal_rtree-indexed relation" }]
    else st.log
  { st with stats := counted.1, log := log }

/-! ## The pathlist hook -/

/-- `COST_BIAS_FACTOR`. -/
def costBiasFactor : ℚ := 5 / 100

/-- The bias on one path: only a path of the given index changes. -/
def Path.bias (rtreeIndexOid : Oid) (path : Path) : Path :=
  if path.kind = .index rtreeIndexOid then
    { path with startupCost := path.startupCost * costBiasFactor, totalCost := path.totalCost * costBiasFactor }
  else path

/-- What the loop over `rel->pathlist` does besides, for one path: it logs and counts. -/
def noteBias (rtreeIndexOid : Oid) (st : HookState) (path : Path) : HookState :=
  if path.kind = .index rtreeIndexOid then
    { st with
      stats := { st.stats with pathBiasApplied := st.stats.pathBiasApplied + 1 }
      log :=
        if st.settings.enableHookDebug then
          st.log ++ [{ errmsg := "temporal_rtree set_rel_pathlist: Applied cost bias to temporal_rtree index"
                       errdetail := some "Original cost estimate biased by factor 0.05" }]
        else st.log }
  else st

/-- Whether the hook biases paths at all. -/
def biases (cat : Catalog) (settings : HookSettings) (commandType : CmdType) (rte : RangeTblEntry)
    (clauses : List Node) : Bool :=
  settings.forceRtreePaths && (commandType = .select || commandType = .update || commandType = .delete) &&
    rte.named && trtreeGetRtreeIndexOid cat rte.relid ≠ invalidOid && trtreeHasCompatibleClauses cat clauses

/-- `trtree_set_rel_pathlist_hook`, on the list the previous hook has left. -/
def trtreeSetRelPathlistHook (cat : Catalog) (commandType : CmdType) (rte : RangeTblEntry) (clauses : List Node)
    (pathlist : List Path) (st : HookState) : HookState × List Path :=
  if biases cat st.settings commandType rte clauses then
    (pathlist.foldl (noteBias (trtreeGetRtreeIndexOid cat rte.relid)) st,
      pathlist.map (Path.bias (trtreeGetRtreeIndexOid cat rte.relid)))
  else (st, pathlist)

/-! ## Sessions -/

/-- What happens to the module's variables in a session. -/
inductive HookEvent where
  | set (settings : HookSettings)
  | plan (parse : Query) (queryString : Option String)
  | start (operation : CmdType) (rtable : List RangeTblEntry)
  | paths (commandType : CmdType) (rte : RangeTblEntry) (clauses : List Node) (pathlist : List Path)
  | reset

/-- An event, under the catalog as it then is. -/
def stepHook (st : HookState) (event : Catalog × HookEvent) : HookState :=
  match event with
  | (_, .set settings) => { st with settings := settings }
  | (cat, .plan parse queryString) => trtreePlannerHook cat parse queryString st
  | (cat, .start operation rtable) => trtreeExecutorStartHook cat operation rtable st
  | (cat, .paths commandType rte clauses pathlist) =>
      (trtreeSetRelPathlistHook cat commandType rte clauses pathlist st).1
  | (_, .reset) => temporalRtreeHookReset st

end TemporalRTree
