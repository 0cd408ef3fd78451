import TemporalRTree.Model.Box

/-!
# `Model.Split` — penalty and picksplit (`temporal_rtree_split.c`)

The penalty is computed in doubles. Every value that occurs is finite, so a double is a rational and each
operation is the exact one followed by a rounding `rnd`; the tree code takes `rnd := Binary64.round`, and
`rnd := id` reads the doubles as exact rationals.

An array of boxes is a list, an index list (`left_idxs[0..nleft)`) a list of positions in it.
-/

namespace TemporalRTree

section Penalty
variable (rnd : ℚ → ℚ)

/-- `RTREE_COORD_NORM_TIME_MAX`: `(double) INT64_MAX`. -/
def coordNormTimeMax : ℚ := rnd 9223372036854775807

/-- `normalize_time`. The guard compares with `(int64) RTREE_COORD_NORM_TIME_MAX`, a constant the compiler
    folds to `INT64_MAX`. -/
def normalizeTime (t : Int) : ℚ :=
  if t < 0 then 0
  else if t > pgInt64Max then 1
  else rnd (rnd t / coordNormTimeMax rnd)

/-- `normalize_attr`. -/
def normalizeAttr (a : Int) : ℚ :=
  if a ≤ 1 then 0
  else if a ≥ 100 then 1
  else rnd (rnd (rnd a - 1) / rnd (100 - 1))

/-- The end `width_time_normalized` gives to an open-ended box: `(int64) (MAX * 0.9)`. -/
def effectiveUpper (lowerUs : Int) : Int :=
  let eff := ⌊rnd (coordNormTimeMax rnd * rnd (9 / 10))⌋
  if lowerUs > eff then wrap64 (lowerUs + 1) else eff

/-- `width_time_normalized`. -/
def widthTimeNormalized (b : RTreeTemporalBox) : ℚ :=
  if b.flags.empty then 0
  else if b.flags.upperInf then
    normalizeTime rnd (wrap64 (effectiveUpper rnd b.lowerUs - b.lowerUs))
  else normalizeTime rnd (wrap64 (b.upperUs - b.lowerUs))

/-- `width_attr_normalized`. -/
def widthAttrNormalized (b : RTreeTemporalBox) : ℚ :=
  if b.dims < 2 then 0 else normalizeAttr rnd (wrap32 (b.attrHi - b.attrLo))

/-- `area_normalized`. -/
def areaNormalized (b : RTreeTemporalBox) : ℚ :=
  rnd (widthTimeNormalized rnd b * widthAttrNormalized rnd b)

/-- `tr_penalty_normalized`. -/
def trPenaltyNormalized (child newb : RTreeTemporalBox) : ℚ :=
  let areaIncrease := rnd (areaNormalized rnd (trUnion child newb) - areaNormalized rnd child)
  if child.flags.upperInf && newb.flags.upperInf then rnd (areaIncrease * (1 / 2))
  else if child.flags.upperInf != newb.flags.upperInf then rnd (areaIncrease * 2)
  else areaIncrease

end Penalty

/-! ## Page type -/

/-- `PAGE_TYPE_CURRENT_ONLY`, `PAGE_TYPE_HISTORY_ONLY`, `PAGE_TYPE_MIXED`. -/
inductive PageType where
  | currentOnly
  | historyOnly
  | mixed
  deriving DecidableEq, Repr

/-- `classify_page_type`. -/
def classifyPageType (items : List RTreeTemporalBox) : PageType :=
  let currentCount := items.countP (fun b => b.flags.upperInf)
  let historyCount := items.countP (fun b => !b.flags.upperInf)
  if currentCount = items.length then .currentOnly
  else if historyCount = items.length then .historyOnly
  else .mixed

/-! ## Seeds -/

/-- The running minimum of a field and its position; the first of equal minima wins. The fold starts from
    the first item's value `init` at position 0 and goes on over the items from position 1. -/
def scanMin (field : RTreeTemporalBox → Int) (init : Int) (rest : List RTreeTemporalBox) : Int × Nat :=
  (rest.zipIdx 1).foldl (fun acc p => if field p.1 < acc.1 then (field p.1, p.2) else acc) (init, 0)

/-- The running maximum of a field and its position. -/
def scanMax (field : RTreeTemporalBox → Int) (init : Int) (rest : List RTreeTemporalBox) : Int × Nat :=
  (rest.zipIdx 1).foldl (fun acc p => if field p.1 > acc.1 then (field p.1, p.2) else acc) (init, 0)

/-! ## Current-only pages -/

/-- `tr_split_current_only` on the array `first :: rest`: cut at the midpoint of the lower bounds, then
    repair an empty side. -/
def trSplitCurrentOnly (first : RTreeTemporalBox) (rest : List RTreeTemporalBox) : List Nat × List Nat :=
  let minScan := scanMin (·.lowerUs) first.lowerUs rest
  let maxScan := scanMax (·.lowerUs) first.lowerUs rest
  let median := (wrap64 (minScan.1 + maxScan.1)).tdiv 2
  let idxs := List.range (rest.length + 1)
  let below := fun i => decide (((first :: rest).getD i first).lowerUs ≤ median)
  let left := idxs.filter below
  let right := idxs.filter (fun i => !below i)
  if left = [] then ([minScan.2], idxs.filter (fun i => i != minScan.2))
  -- the last item of the left side moves to the right
  else if right = [] then (left.dropLast, [left.getLastD 0])
  else (left, right)

/-! ## The linear split -/

/-- The two sides of the greedy assignment: index lists and bounding boxes so far. -/
structure SplitSides where
  left : List Nat
  right : List Nat
  leftUnion : RTreeTemporalBox
  rightUnion : RTreeTemporalBox

/-- One turn of the greedy loop: item `i` goes to the side with the smaller penalty, ties to the right. -/
def assignItem (box : RTreeTemporalBox) (i : Nat) (s : SplitSides) : SplitSides :=
  if trPenaltyNormalized Binary64.round s.leftUnion box
      < trPenaltyNormalized Binary64.round s.rightUnion box then
    { s with left := s.left ++ [i], leftUnion := trUnion s.leftUnion box }
  else
    { s with right := s.right ++ [i], rightUnion := trUnion s.rightUnion box }

/-- The seeds of `tr_picksplit`: farthest apart in `lower_us`, or in `attr` when that distance is larger;
    forced to differ. The running attribute maximum starts at the first item's `attr_lo`. -/
def pickSeeds (first : RTreeTemporalBox) (rest : List RTreeTemporalBox) : Nat × Nat :=
  let minTime := scanMin (·.lowerUs) first.lowerUs rest
  let maxTime := scanMax (·.lowerUs) first.lowerUs rest
  let timeDistance := Binary64.round (wrap64 (maxTime.1 - minTime.1))
  let byTime : ℚ × Nat × Nat :=
    if timeDistance > 0 then (timeDistance, minTime.2, maxTime.2) else (0, 0, 1)
  let minAttr := scanMin (·.attrLo) first.attrLo rest
  let maxAttr := scanMax (·.attrHi) first.attrLo rest
  let attrDistance := Binary64.round (wrap32 (maxAttr.1 - minAttr.1))
  let seeds := if attrDistance > byTime.1 then (minAttr.2, maxAttr.2) else byTime.2
  if seeds.1 = seeds.2 then (seeds.1, (seeds.1 + 1) % (rest.length + 1)) else seeds

/-- The greedy loop over all items but the seeds. -/
def linearSplit (first : RTreeTemporalBox) (rest : List RTreeTemporalBox) : List Nat × List Nat :=
  let items := first :: rest
  let seeds := pickSeeds first rest
  let start : SplitSides :=
    { left := [seeds.1], right := [seeds.2],
      leftUnion := items.getD seeds.1 first, rightUnion := items.getD seeds.2 first }
  let sides := (List.range items.length).foldl
    (fun s i => if i = seeds.1 ∨ i = seeds.2 then s else assignItem (items.getD i first) i s) start
  (sides.left, sides.right)

/-- `tr_picksplit`: the index lists `(left_idxs, right_idxs)`. -/
def trPicksplit (items : List RTreeTemporalBox) : List Nat × List Nat :=
  match items with
  | [] => ([], [])
  | [_] => ([0], [])
  | first :: second :: rest =>
      if classifyPageType items = .currentOnly then trSplitCurrentOnly first (second :: rest)
      else linearSplit first (second :: rest)

end TemporalRTree
