import TemporalRTree.Lib.Regex

/-!
# `Model.Metrics` — metrics from benchmark logs (`collect_experiment_metrics.py`)

A results file is cut into blocks, one for each query, and each block of text gives one row of the CSV file. Every
column is found by a regular expression of its own: over the lines of the block one by one, over the whole block
from its start, or as the last of all matches in it.

Texts are lists of characters. The logs are ASCII, and `\s`, `\w`, `\d` and the comparison without case are those
of ASCII. The columns that are copied from the maintenance snapshot are left out.
-/

namespace TemporalRTree.Metrics
open Regex

/-- A Python string. -/
abbrev Text := List Char

/-! ## Strings -/

/-- `\s`. -/
def isSpace (c : Char) : Bool := c == ' ' || (9 ≤ c.toNat && c.toNat ≤ 13) || (28 ≤ c.toNat && c.toNat ≤ 31)

/-- `\w`. -/
def isWord (c : Char) : Bool := c.isAlphanum || c == '_'

/-- `.`. -/
def isDot (c : Char) : Bool := c != '\n'

/-- `[0-9.]`. -/
def isNumeric (c : Char) : Bool := c.isDigit || c == '.'

/-- `sub in text`. -/
def hasText (sub text : Text) : Bool := text.tails.any fun rest => sub.isPrefixOf rest

/-- `str.strip`. -/
def strip (text : Text) : Text := ((text.dropWhile isSpace).reverse.dropWhile isSpace).reverse

/-- The characters at which `str.splitlines` ends a line. -/
def isLineBreak (c : Char) : Bool := (10 ≤ c.toNat && c.toNat ≤ 13) || (28 ≤ c.toNat && c.toNat ≤ 30)

/-- `str.splitlines`, after the characters of a line in reverse; `\r\n` is one line break, and the last line does
    not need one. -/
def splitlinesFrom : Text → Text → List Text
  | [], [] => []
  | line, [] => [line.reverse]
  | line, '\r' :: '\n' :: rest => line.reverse :: splitlinesFrom [] rest
  | line, c :: rest =>
      if isLineBreak c then line.reverse :: splitlinesFrom [] rest else splitlinesFrom (c :: line) rest

/-- `str.splitlines`. -/
def splitlines (text : Text) : List Text := splitlinesFrom [] text

/-! ## Expressions -/

/-- A text as it is written. -/
def exact {ν : Type} (text : String) : Re ν := .text (fun c c' => c == c') text.toList

/-- A text under `re.IGNORECASE`. -/
def word {ν : Type} (text : String) : Re ν := .text (fun c c' => c.toLower == c'.toLower) text.toList

/-- The groups of `PLAN_LINE_RE`. -/
inductive PlanGroup where
  | indent
  | node
  | estStart
  | estEnd
  | estRows
  | actStart
  | actEnd
  | actRows
  deriving DecidableEq

/-- The node types that `PLAN_LINE_RE` knows. -/
def planNodeRe : Re PlanGroup :=
  .oneOf [word "Append", word "Aggregate", word "Seq Scan", word "Index Only Scan", word "Index Scan",
    word "Bitmap Heap Scan", word "Bitmap Index Scan", word "Insert on", word "Update on", word "Delete on"]

/-- `PLAN_LINE_RE` after its `^`. -/
def planLineTailRe : Re PlanGroup :=
  .all [.group .indent (.many true isSpace), .group .node planNodeRe, .edge isWord, .many false isDot,
    word "cost=", .group .estStart (.plus isNumeric), word "..", .group .estEnd (.plus isNumeric),
    .plus isSpace, word "rows=", .group .estRows (.plus Char.isDigit), .many false isDot,
    word "actual time=", .group .actStart (.plus isNumeric), word "..", .group .actEnd (.plus isNumeric),
    .plus isSpace, word "rows=", .group .actRows (.plus Char.isDigit)]

/-- `PLAN_LINE_RE`. -/
def planLineRe : Re PlanGroup := .seq .bol planLineTailRe

/-- `PLANNING_RE`. -/
def planningRe : Re Nat :=
  .all [exact "Planning Time:", .plus isSpace, .group 1 (.plus isNumeric), exact " ms"]

/-- `EXECUTION_RE`. -/
def executionRe : Re Nat :=
  .all [exact "Execution Time:", .plus isSpace, .group 1 (.plus isNumeric), exact " ms"]

/-- `BUFFERS_RE`. -/
def buffersRe : Re Nat :=
  .all [exact "Buffers:", .plus isSpace, exact "shared hit=", .group 1 (.plus Char.isDigit),
    .opt (.all [.plus isSpace, exact "read=", .group 2 (.plus Char.isDigit)])]

/-- `HEAP_FETCHES_RE`. -/
def heapFetchesRe : Re Nat := .all [exact "Heap Fetches:", .plus isSpace, .group 1 (.plus Char.isDigit)]

/-- `INDEX_NAME_RE`. -/
def indexNameRe : Re Nat :=
  .all [.oneOf [.all [word "Index", .opt (word " Only"), word " Scan using"], word "Bitmap Index Scan on"],
    .plus isSpace,
    .group 1 (.oneOf [.all [exact "\"", .plus (fun c => c != '"'), exact "\""],
      .seq (.chars fun c => c.isAlpha || c == '_') (.many true fun c => c.isAlphanum || c == '_' || c == '$')])]

/-- The scans that `classify_plan` counts under an `Append`. -/
def scanRe : Re Nat :=
  .all [.edge isWord,
    .oneOf [exact "Index Only Scan", exact "Index Scan", exact "Bitmap Index Scan", exact "Bitmap Heap Scan",
      exact "Seq Scan"], .edge isWord]

/-- `CURRENT_SECTION_RE`. -/
def currentSectionRe : Re Nat :=
  .seq .bol (.all [exact "--", .many true isSpace,
    .group 1 (.oneOf [exact "SELECT", exact "INSERT", exact "UPDATE", exact "DELETE"]), .edge isWord])

/-- `QUERY_LABEL_RE`. -/
def queryLabelRe : Re Nat :=
  .seq .bol (.group 1 (.oneOf [
    .all [exact "Q", .plus Char.isDigit, .edge isWord, .many true isDot],
    .all [exact "Query ", .chars Char.isUpper, .edge isWord, .many true isDot],
    .all [exact "Query HYBRID_DECOMPOSED", .edge isWord, .many true isDot]]))

/-- The text of a group in a match, empty where the group has none. -/
def groupText {ν : Type} [DecidableEq ν] (groups : List (ν × Text)) (name : ν) : Text :=
  ((groups.find? fun g => g.1 = name).map Prod.snd).getD []

/-! ## Blocks -/

/-- `normalize_label`. -/
def normalizeLabel (label : Text) : Text := strip (label.takeWhile fun c => c != '—')

/-- The variables of the loop of `iter_query_blocks`. -/
structure BlockState where
  currentLabel : Option Text := none
  currentLines : List Text := []
  inCurrentSection : Bool := false

/-- The block that is given out where one ends. -/
def BlockState.block (s : BlockState) : List (Text × Text) :=
  match s.currentLabel with
  | none => []
  | some label =>
      if label ≠ [] ∧ s.currentLines ≠ [] then [(label, "\n".toList.intercalate s.currentLines)] else []

/-- One turn of that loop: the blocks given out, and the variables after it. -/
def blockStep (s : BlockState) (line : Text) : List (Text × Text) × BlockState :=
  match matchStart currentSectionRe line with
  | some m => (s.block, { currentLabel := some (groupText m.groups 1), inCurrentSection := true })
  | none =>
      if s.inCurrentSection && "-- END ".toList.isPrefixOf line then (s.block, {})
      else
        match matchStart queryLabelRe line with
        | some m => (s.block, { currentLabel := some (normalizeLabel (groupText m.groups 1)) })
        | none =>
            match s.currentLabel with
            | none => ([], s)
            | some label =>
                if label ≠ [] then ([], { s with currentLines := s.currentLines ++ [line] }) else ([], s)

/-- `iter_query_blocks`, from the variables of its loop on. -/
def iterQueryBlocksFrom (s : BlockState) : List Text → List (Text × Text)
  | [] => s.block
  | line :: rest => (blockStep s line).1 ++ iterQueryBlocksFrom (blockStep s line).2 rest

/-- `iter_query_blocks`, on the lines of a file. -/
def iterQueryBlocks (lines : List Text) : List (Text × Text) := iterQueryBlocksFrom {} lines

/-! ## Columns -/

/-- The line that the loop of `classify_plan` stops at, with its match. -/
def firstPlanLine (text : Text) : Option (Text × Place PlanGroup) :=
  (splitlines text).findSome? fun line => (matchStart planLineRe line).map fun m => (line, m)

/-- `observed` where no line is a plan line. -/
def guessPlan (text : Text) : Text :=
  let observed :=
    if hasText "Insert on".toList text then "Insert on".toList
    else if hasText "Update on".toList text then "Update on".toList
    else if hasText "Delete on".toList text then "Delete on".toList
    else "Unknown".toList
  if hasText "Seq Scan".toList text then "Seq Scan".toList
  else if hasText "Index Only Scan".toList text then "Index Only Scan".toList
  else if hasText "Index Scan".toList text then "Index Scan".toList
  else if hasText "Bitmap Index Scan".toList text || hasText "Bitmap Heap Scan".toList text then "Bitmap".toList
  else if hasText "Append".toList text then "Append".toList
  else observed

/-- `classify_plan`. -/
def classifyPlan (text : Text) : Text × Text :=
  let observed :=
    match firstPlanLine text with
    | some (_, m) => groupText m.groups .node
    | none => guessPlan text
  if observed = "Append".toList ∧ 2 ≤ (findall scanRe text).length then
    (observed, "two-index-branches".toList)
  else (observed, [])

/-- `extract_last`, for an expression with one group. -/
def extractLast (r : Re Nat) (text : Text) (default : Text) : Text :=
  match (findall r text).getLast? with
  | none => default
  | some groups => groupText groups 1

/-- `expected_plan_family`. -/
def expectedPlanFamily (config queryLabel : Text) : Text :=
  let base := normalizeLabel queryLabel
  if base ∈ ["SELECT".toList, "INSERT".toList, "UPDATE".toList, "DELETE".toList] then base
  else if config = "no_index".toList then "Seq Scan".toList
  else if base ∈ ["Q1".toList, "Q2".toList, "Q3".toList, "Q4".toList, "Q6".toList, "Q7".toList] then
    "Index/Bitmap".toList
  else if base = "Q5".toList then "Seq Scan or Index".toList
  else if base = "Query D".toList then "Bitmap Index Scan".toList
  else if base = "Query G".toList then "two index branches".toList
  else if base ∈ ["Query A".toList, "Query B".toList] then "Index/Bitmap".toList
  else "Index/Bitmap".toList

/-- `classify_status`. -/
def classifyStatus (config queryLabel observed notes : Text) : Text :=
  let base := normalizeLabel queryLabel
  let result (ok : Bool) : Text := if ok then "success".toList else "failure".toList
  if base ∈ ["INSERT".toList, "UPDATE".toList, "DELETE".toList] then result (observed ≠ [])
  else if base = "SELECT".toList ∧ config = "no_index".toList then result (observed = "Seq Scan".toList)
  else if config = "no_index".toList then result (observed = "Seq Scan".toList)
  else if base = "Q5".toList then
    if observed = "Seq Scan".toList then "acceptable".toList else "success".toList
  else if base = "Query G".toList then
    result (observed = "Append".toList ∧ notes = "two-index-branches".toList)
  else if base = "Query D".toList then
    result (hasText "Index".toList observed || hasText "Bitmap".toList observed)
  else if base ∈ ["Query A".toList, "Query B".toList] then
    result (observed ∈ ["Index Scan".toList, "Index Only Scan".toList, "Bitmap".toList])
  else result (observed ≠ "Seq Scan".toList)

/-- A row of the CSV file. -/
structure MetricsRow where
  indexConfig : Text
  query : Text
  expectedPlanFamily : Text
  observedPlanFamily : Text
  indexName : Text
  estRows : Text
  actualRows : Text
  planningMs : Text
  executionMs : Text
  sharedHit : Text
  sharedRead : Text
  heapFetches : Text
  status : Text
  notes : Text
  deriving DecidableEq

/-- The row that `main` builds for a block. -/
def collectRow (config queryLabel text : Text) : MetricsRow :=
  let planMatch := search planLineRe text
  let plan := classifyPlan text
  let bufferMatch := (findall buffersRe text).getLast?
  { indexConfig := config
    query := queryLabel
    expectedPlanFamily := expectedPlanFamily config queryLabel
    observedPlanFamily := plan.1
    indexName := ((search indexNameRe text).map fun m => groupText m.groups 1).getD []
    estRows := (planMatch.map fun m => groupText m.groups .estRows).getD []
    actualRows := (planMatch.map fun m => groupText m.groups .actRows).getD []
    planningMs := extractLast planningRe text []
    executionMs := extractLast executionRe text []
    sharedHit := (bufferMatch.map fun groups => groupText groups 1).getD []
    sharedRead :=
      (bufferMatch.map fun groups =>
        if groupText groups 2 ≠ [] then groupText groups 2 else "0".toList).getD []
    heapFetches := extractLast heapFetchesRe text "0".toList
    status := classifyStatus config queryLabel plan.1 plan.2
    notes := plan.2 }

/-- The rows of a results file, from its lines. -/
def collectRows (config : Text) (lines : List Text) : List MetricsRow :=
  (iterQueryBlocks lines).map fun block => collectRow config block.1 block.2

end TemporalRTree.Metrics
