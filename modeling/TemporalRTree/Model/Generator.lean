import Mathlib.Data.Stream.Defs
import TemporalRTree.Lib.Binary64
import TemporalRTree.Lib.Calendar

/-!
# `Model.Generator` — the benchmark's data (`temporal_generator.py`)

The rows of a dataset are drawn one after the other: a position in the ten years the lower bounds run through, a
period from there, open or of a random width, and an attribute. What `random` gives is a stream of natural numbers,
of which each draw takes one and brings it into its range. Python's floats are rationals on the binary64 grid, its
strings are lists of characters, and a `datetime` is the number of microseconds since the first day of the year 1.
-/

namespace TemporalRTree.Generator
open Calendar

/-- A Python string. -/
abbrev Text := List Char

/-! ## Random draws -/

/-- Computations that draw random numbers. -/
abbrev DrawM := StateM (Stream' Nat)

/-- The next number of the stream. -/
def draw : DrawM Nat := do
  let draws ← get
  set draws.tail
  return draws.head

/-- `random.random()`: a multiple of `2 ^ -53` below 1. -/
def random : DrawM ℚ := do return ((← draw) % 2 ^ 53 : Nat) / 2 ^ 53

/-- `random.randint(lo, hi)`. -/
def randint (lo hi : Nat) : DrawM Nat := do return lo + (← draw) % (hi - lo + 1)

/-- The sums that `random.choices` makes of its weights. -/
def cumWeights : ℚ → List ℚ → List ℚ
  | _, [] => []
  | sum, weight :: weights =>
      Binary64.round (sum + weight) :: cumWeights (Binary64.round (sum + weight)) weights

/-- `bisect.bisect(sums, x, 0, hi)` on sums in ascending order. -/
def bisect (sums : List ℚ) (x : ℚ) (hi : Nat) : Nat := ((sums.take hi).takeWhile fun sum => sum ≤ x).length

/-- `random.choices(population, weights)[0]`. -/
def choices (population : List Nat) (weights : List ℚ) : DrawM Nat := do
  let sums := cumWeights 0 weights
  let x := Binary64.round ((← random) * sums.getLastD 0)
  return population.getD (bisect sums x (population.length - 1)) 0

/-! ## Parameters -/

/-- The values of `interval_mode`; `other` is any other string. -/
inductive IntervalMode where
  | short
  | medium
  | longTailed
  | other
  deriving DecidableEq

/-- The values of `attr_mode`. -/
inductive AttrMode where
  | uniform
  | zipf
  | other
  deriving DecidableEq

/-- The values of `order_mode`. -/
inductive OrderMode where
  | chronological
  | reverse
  | mixed
  | other
  deriving DecidableEq

/-- The parameters of `generate_dataset`. -/
structure Config where
  ratioOpenEnded : ℚ
  intervalMode : IntervalMode
  attrMode : AttrMode
  orderMode : OrderMode
  hotCurrentFrac : ℚ

/-- The choices of `--config`. -/
inductive Preset where
  | historySkew
  | currentSkew
  | balanced
  | longTailed
  | zipfUniform
  | zipfHotcurrent
  deriving DecidableEq

/-- `configs` of `main`. -/
def Preset.config : Preset → Config
  | .historySkew => ⟨Binary64.round 0.30, .short, .uniform, .chronological, 0⟩
  | .currentSkew => ⟨Binary64.round 0.80, .short, .uniform, .mixed, 0⟩
  | .balanced => ⟨Binary64.round 0.50, .medium, .uniform, .chronological, 0⟩
  | .longTailed => ⟨Binary64.round 0.30, .longTailed, .uniform, .mixed, 0⟩
  | .zipfUniform => ⟨Binary64.round 0.50, .medium, .zipf, .chronological, 0⟩
  | .zipfHotcurrent => ⟨Binary64.round 0.70, .medium, .zipf, .mixed, Binary64.round 0.15⟩

/-! ## Rows -/

/-- `self.base_ts`. -/
def baseTs : Nat := ofDate 2023 1 1

/-- `width_hours`. -/
def widthHours : IntervalMode → DrawM Nat
  | .short => randint 1 24
  | .medium => randint 24 (365 * 24)
  | .longTailed => do
      let u ← random
      if u < Binary64.round 0.7 then randint 1 72
      else if u < Binary64.round 0.95 then randint 72 (30 * 24)
      else randint (30 * 24) (5 * 365 * 24)
  | .other => pure 24

/-- `generate_timestamp_pair`. -/
def generateTimestampPair (ratioOpenEnded : ℚ) (intervalMode : IntervalMode) (position : Nat) :
    DrawM (Nat × Option Nat) := do
  let lowerTs := baseTs + position % (10 * 365) * day
  if (← random) < ratioOpenEnded then return (lowerTs, none)
  else
    let width ← widthHours intervalMode
    return (lowerTs, some (lowerTs + width * hour))

/-- `int(rank ** (-1.5))`: the integer part of `1 / sqrt (rank ^ 3)`. -/
def zipfValue (rank : Nat) : Nat := Nat.sqrt (1 / rank ^ 3)

/-- Whether a row of a Zipf preset gets one of the hot attributes; only a current row draws for it. -/
def drawHot (hotCurrentFrac : ℚ) (isCurrent : Bool) : DrawM Bool :=
  if isCurrent then do return (← random) < hotCurrentFrac else pure false

/-- `[1/i for i in range(1, 11)]`. -/
def hotWeights : List ℚ := (List.range' 1 10).map fun i : Nat => Binary64.round (1 / (i : ℚ))

/-- `generate_attribute`. -/
def generateAttribute (attrMode : AttrMode) (hotCurrentFrac : ℚ) (isCurrent : Bool) : DrawM Nat :=
  match attrMode with
  | .uniform => randint 1 100
  | .zipf => do
      if ← drawHot hotCurrentFrac isCurrent then choices (List.range' 1 10) hotWeights
      else
        let rank ← randint 1 100
        return zipfValue rank
  | .other => randint 1 100

/-- A row of the dataset. -/
structure Row where
  id : Nat
  attr : Nat
  validPeriod : Text
  payload : Text
  deriving DecidableEq

/-- `period_str`. -/
def periodStr (lowerTs : Nat) : Option Nat → Text
  | some upperTs => "'[".toList ++ isoformat lowerTs ++ ",".toList ++ isoformat upperTs ++ ")'::tsrange".toList
  | none => "'[".toList ++ isoformat lowerTs ++ ",)'::tsrange".toList

/-- `pos`, the position of row `i`. -/
def drawPosition (orderMode : OrderMode) (rowCount i : Nat) : DrawM Nat :=
  match orderMode with
  | .chronological => pure i
  | .reverse => pure (rowCount - 1 - i)
  | .mixed => randint 0 (rowCount - 1)
  | .other => pure i

/-- One turn of the loop of `generate_dataset`. -/
def generateRow (rowCount : Nat) (config : Config) (i : Nat) : DrawM Row := do
  let pos ← drawPosition config.orderMode rowCount i
  let pair ← generateTimestampPair config.ratioOpenEnded config.intervalMode pos
  let attr ← generateAttribute config.attrMode config.hotCurrentFrac pair.2.isNone
  return { id := i + 1
           attr := attr
           validPeriod := periodStr pair.1 pair.2
           payload := "'payload_".toList ++ Nat.toDigits 10 i ++ "'".toList }

/-- The first `n` turns of that loop. -/
def generateRows (rowCount : Nat) (config : Config) : Nat → DrawM (List Row)
  | 0 => pure []
  | n + 1 => do
      let rows ← generateRows rowCount config n
      let row ← generateRow rowCount config n
      return rows ++ [row]

/-- `generate_dataset`. -/
def generateDataset (rowCount : Nat) (config : Config) : DrawM (List Row) := generateRows rowCount config rowCount

/-! ## SQL -/

/-- `value_str`. -/
def valueStr (row : Row) : Text :=
  "  (".toList ++ Nat.toDigits 10 row.id ++ ", ".toList ++ Nat.toDigits 10 row.attr ++ ", ".toList ++
    row.validPeriod ++ ", ".toList ++ row.payload ++ ")".toList

def batchSize : Nat := 1000

/-- The slices `rows[batch_start:batch_end]`. -/
def batches (rows : List Row) : List (List Row) :=
  (List.range ((rows.length + (batchSize - 1)) / batchSize)).map fun k =>
    (rows.drop (k * batchSize)).take (min (k * batchSize + batchSize) rows.length - k * batchSize)

/-- `insert_stmt`. -/
def insertStmt (tableName : Text) (batch : List Row) : Text :=
  "INSERT INTO ".toList ++ tableName ++ " (id, attr, valid_period, payload) VALUES\n".toList ++
    ",\n".toList.intercalate (batch.map valueStr) ++ ";\n".toList

/-- `generate_sql_insert`, at the time `now`. -/
def generateSqlInsert (now : Nat) (rows : List Row) (tableName : Text) : Text :=
  "\n".toList.intercalate
    (("-- Generated temporal dataset: ".toList ++ Nat.toDigits 10 rows.length ++ " rows".toList) ::
      ("-- Timestamp: ".toList ++ isoformat now ++ "\n".toList) :: (batches rows).map (insertStmt tableName))

/-- What `main` writes for a preset. -/
def datasetSql (now : Nat) (preset : Preset) (size : Nat) : DrawM Text := do
  let rows ← generateDataset size preset.config
  return generateSqlInsert now rows "temporal_data".toList

end TemporalRTree.Generator
