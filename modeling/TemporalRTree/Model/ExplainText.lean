import TemporalRTree.Lib.Digits

/-!
# `Model.ExplainText` — the plans in the benchmark logs

The input of `collect_experiment_metrics.py`: what `psql` prints for `EXPLAIN (ANALYZE, BUFFERS)`, as
`run_benchmark_matrix.sh` appends it to a results file. A plan is a tree of nodes. Each has a line with the
estimates and the measurements, lines with details, a line with its buffers, and its children, further to the
right and behind an arrow; after the plan come the buffers of planning, if it used any, and the two times. `psql`
prints the lines as the rows of a table with one column.
-/

namespace TemporalRTree.Explain
open Digits

/-- A text on one line, without control characters: `psql` escapes those. -/
structure Line where
  text : List Char
  printable : ∀ c ∈ text, 32 ≤ c.toNat

/-! ## Plans -/

/-- The blocks a node used; a line is printed for it where there are any. -/
structure Usage where
  hit : Nat := 0
  read : Nat := 0
  dirtied : Nat := 0
  written : Nat := 0
  tempRead : Nat := 0
  tempWritten : Nat := 0
  used : hit + read + dirtied + written + tempRead + tempWritten ≠ 0

/-- A counter is printed where it is not zero. -/
def counter (name : String) (n : Nat) : List Char := if n = 0 then [] else name.toList ++ Nat.toDigits 10 n

/-- The counters of shared blocks. -/
def Usage.shared (u : Usage) : List Char :=
  if u.hit + u.read + u.dirtied + u.written = 0 then []
  else " shared".toList ++ (counter " hit=" u.hit ++ (counter " read=" u.read ++
    (counter " dirtied=" u.dirtied ++ counter " written=" u.written)))

/-- The counters of temporary blocks. -/
def Usage.temp (u : Usage) : List Char :=
  if u.tempRead + u.tempWritten = 0 then []
  else (if u.shared = [] then " temp".toList else ", temp".toList) ++
    (counter " read=" u.tempRead ++ counter " written=" u.tempWritten)

def Usage.text (u : Usage) : List Char := "Buffers:".toList ++ (u.shared ++ u.temp)

/-- What the planner expected of a node, with costs in hundredths. -/
structure Estimate where
  startCost : Nat
  totalCost : Nat
  rows : Nat
  width : Nat

/-- What was measured, with times in microseconds. -/
structure Actual where
  startTime : Nat
  totalTime : Nat
  rows : Nat
  loops : Nat

/-- A plan: what the root does and on what, its estimates, its measurements if it was executed, its details, its
    buffers and its children. -/
inductive Plan where
  | node (label : Line) (estimate : Estimate) (actual : Option Actual) (details : List Line) (usage : Usage)
      (children : List Plan)

def Estimate.text (e : Estimate) : List Char :=
  "(cost=".toList ++ fixed 2 e.startCost ++ "..".toList ++ fixed 2 e.totalCost ++ " rows=".toList ++
    Nat.toDigits 10 e.rows ++ " width=".toList ++ Nat.toDigits 10 e.width ++ ")".toList

def actualText : Option Actual → List Char
  | none => "(never executed)".toList
  | some a => "(actual time=".toList ++ fixed 3 a.startTime ++ "..".toList ++ fixed 3 a.totalTime ++
      " rows=".toList ++ Nat.toDigits 10 a.rows ++ " loops=".toList ++ Nat.toDigits 10 a.loops ++ ")".toList

def spaces (n : Nat) : List Char := List.replicate n ' '

/-- The first line of a node. Only the root stands without an arrow. -/
def nodeLine (indent : Nat) (label : Line) (estimate : Estimate) (actual : Option Actual) : List Char :=
  spaces (2 * indent) ++ (if indent = 0 then [] else "->  ".toList) ++ label.text ++ "  ".toList ++
    estimate.text ++ " ".toList ++ actualText actual

/-- The first line of a plan. -/
def Plan.rootLine : Plan → List Char
  | .node label estimate actual _ _ _ => nodeLine 0 label estimate actual

/-- The indentation below a node. -/
def innerIndent (indent : Nat) : Nat := if indent = 0 then 1 else indent + 3

mutual

/-- The lines of a plan. -/
def Plan.lines (indent : Nat) : Plan → List (List Char)
  | .node label estimate actual details usage children =>
      nodeLine indent label estimate actual ::
        (details.map (fun detail => spaces (2 * innerIndent indent) ++ detail.text) ++
          (spaces (2 * innerIndent indent) ++ usage.text) :: forestLines (innerIndent indent) children)

/-- The lines of plans one after the other. -/
def forestLines (indent : Nat) : List Plan → List (List Char)
  | [] => []
  | plan :: rest => plan.lines indent ++ forestLines indent rest

end

mutual

/-- The first line of each node of a plan, with the node's buffers. -/
def Plan.nodes (indent : Nat) : Plan → List (List Char × Usage)
  | .node label estimate actual _ usage children =>
      (nodeLine indent label estimate actual, usage) :: forestNodes (innerIndent indent) children

def forestNodes (indent : Nat) : List Plan → List (List Char × Usage)
  | [] => []
  | plan :: rest => plan.nodes indent ++ forestNodes indent rest

end

/-! ## Blocks -/

/-- What is printed for one query. Before an `INSERT` the sequence of the ids is set, which prints its value. -/
structure Block where
  setval : Option Nat := none
  plan : Plan
  planning : Option Usage
  planningTime : Nat
  executionTime : Nat

/-- The lines after the plan. -/
def Block.summary (b : Block) : List (List Char) :=
  (match b.planning with
    | none => []
    | some usage => ["Planning:".toList, spaces 2 ++ usage.text]) ++
  ["Planning Time: ".toList ++ fixed 3 b.planningTime ++ " ms".toList,
    "Execution Time: ".toList ++ fixed 3 b.executionTime ++ " ms".toList]

/-- The title of a table, in the middle. -/
def titleLine (title : List Char) (width : Nat) : List Char :=
  let left := (width - title.length) / 2
  spaces (left + 1) ++ title ++ spaces (width - title.length - left + 1)

/-- The line below it. -/
def ruleLine (width : Nat) : List Char := List.replicate (width + 2) '-'

/-- The number of rows, below them. -/
def footer (n : Nat) : List Char :=
  "(".toList ++ Nat.toDigits 10 n ++ (if n = 1 then " row)".toList else " rows)".toList)

/-- The width of the column of a table. -/
def columnWidth (title : List Char) (rows : List (List Char)) : Nat :=
  (rows.map List.length).foldr max title.length

/-- A table with one column as `psql` prints it. -/
def psqlTable (title : List Char) (rows : List (List Char)) : List (List Char) :=
  titleLine title (columnWidth title rows) :: ruleLine (columnWidth title rows) ::
    (rows.map (fun row => ' ' :: row) ++ [footer rows.length, []])

/-- The rows of the table with the plan. -/
def Block.rows (b : Block) : List (List Char) := b.plan.lines 0 ++ b.summary

/-- The table of `setval`, with a number to the right of its column. -/
def Block.setvalTable (b : Block) : List (List Char) :=
  match b.setval with
  | none => []
  | some value => psqlTable "setval".toList [List.leftpad 6 ' ' (Nat.toDigits 10 value)]

/-- The lines between the marks of a query in a results file. -/
def Block.lines (b : Block) : List (List Char) :=
  b.setvalTable ++ psqlTable "QUERY PLAN".toList b.rows ++ [[]]

/-- The text of a block. -/
def Block.text (b : Block) : List Char := "\n".toList.intercalate b.lines

end TemporalRTree.Explain
