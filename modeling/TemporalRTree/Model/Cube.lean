import TemporalRTree.Model.Box

/-!
# `Model.Cube` — the stored key `NDBOX`, its codec, and the SQL operators on it

`contrib/cube/cubedata.h` gives the layout; `rtree_cube_to_box` and `rtree_box_to_cube`
(`temporal_rtree_page.c`) convert between the stored cube and the box the tree computes with; the SQL
operators are `cube_contains_v0`, `cube_overlap_v0` and `cube_cmp_v0` of `contrib/cube/cube.c`; the
constructors are the SQL functions of `contrib/temporalbox`.
-/

namespace TemporalRTree
open Binary64

/-- `CUBE_MAX_DIM`. -/
def cubeMaxDim : Nat := 100

/-- `NDBOX`: the coordinates of the lower-left corner followed, unless the point bit is set, by those of
    the upper-right corner. The two length facts are what every constructor of the type checks. -/
structure NDBOX where
  dim : Nat
  isPoint : Bool
  x : List Double
  dim_le : dim ≤ cubeMaxDim
  x_length : x.length = if isPoint then dim else 2 * dim
  deriving DecidableEq

/-- A cube with an attribute and a time. -/
theorem two_le_cubeMaxDim : 2 ≤ cubeMaxDim := by decide

namespace NDBOX

/-- `LL_COORD`. A read past the last coordinate (a 0-dimensional cube) yields NaN here; the C code reads
    whatever follows the datum. -/
def llCoord (c : NDBOX) (i : Nat) : Double := c.x.getD i .nan

/-- `UR_COORD`. -/
def urCoord (c : NDBOX) (i : Nat) : Double :=
  if c.isPoint then c.x.getD i .nan else c.x.getD (i + c.dim) .nan

/-- `VARSIZE`: `POINT_SIZE(dim)` or `CUBE_SIZE(dim)`. -/
def varsize (c : NDBOX) : Nat := 8 + 8 * c.x.length

end NDBOX

/-! ## The codec -/

/-- C's `llround` on x86-64: a result outside `int64`, and every non-finite argument, gives `INT64_MIN`. -/
def llround : Double → Int
  | .fin q =>
      if pgInt64Min ≤ roundHalfAway q ∧ roundHalfAway q ≤ pgInt64Max then roundHalfAway q
      else pgInt64Min
  | _ => pgInt64Min

/-- `rtree_cube_to_box`. -/
def rtreeCubeToBox (cube : NDBOX) : RTreeTemporalBox :=
  let attrLoD := cube.llCoord 0
  let attrHiD := if cube.isPoint then cube.llCoord 0 else cube.urCoord 0
  let lowerD := if cube.dim ≥ 2 then cube.llCoord 1 else cube.llCoord 0
  let upperD :=
    if cube.dim ≥ 2 then (if cube.isPoint then cube.llCoord 1 else cube.urCoord 1) else lowerD
  let lowerUs := if lowerD.isNegInf then pgInt64Min else llround lowerD
  let upperUs := if upperD.isPosInf then pgInt64Max else llround upperD
  { dims := if cube.dim ≥ 2 then 2 else 1
    attrLo := wrap32 (llround attrLoD)
    attrHi := wrap32 (llround attrHiD)
    lowerUs := lowerUs
    upperUs := upperUs
    -- the sentinel values set the flags again, whatever coordinate produced them
    flags :=
      { empty := false
        lowerInf := lowerD.isNegInf || lowerUs == pgInt64Min
        upperInf := upperD.isPosInf || upperUs == pgInt64Max } }

/-- Whether `rtree_box_to_cube_internal` writes a point: no extent and no infinite bound. -/
def isPointBox (box : RTreeTemporalBox) : Bool :=
  box.attrLo == box.attrHi && box.lowerUs == box.upperUs &&
    !(box.flags.lowerInf || box.flags.upperInf)

/-- `rtree_box_to_cube`: the box's integers, infinity sentinels included, as doubles. -/
def rtreeBoxToCube (box : RTreeTemporalBox) : NDBOX :=
  if isPointBox box then
    { dim := 2, isPoint := true, x := [.ofInt box.attrLo, .ofInt box.lowerUs],
      dim_le := by decide, x_length := rfl }
  else
    { dim := 2, isPoint := false,
      x := [.ofInt box.attrLo, .ofInt box.lowerUs, .ofInt box.attrHi, .ofInt box.upperUs],
      dim_le := by decide, x_length := rfl }

/-! ## The SQL operators -/

/-- `Min(LL_COORD(c, i), UR_COORD(c, i))`, with C's `Min` (the second argument on a tie or a NaN). -/
def NDBOX.minCoord (c : NDBOX) (i : Nat) : Double :=
  if (c.llCoord i).lt (c.urCoord i) then c.llCoord i else c.urCoord i

/-- `Max(LL_COORD(c, i), UR_COORD(c, i))`. -/
def NDBOX.maxCoord (c : NDBOX) (i : Nat) : Double :=
  if (c.urCoord i).lt (c.llCoord i) then c.llCoord i else c.urCoord i

/-- `cube_contains_v0`: the excess dimensions of `b` must be zero, the common ones nested. -/
def cubeContainsV0 (a b : NDBOX) : Bool :=
  ((List.range b.dim).drop a.dim).all (fun i =>
      !((b.llCoord i).ne (.fin 0)) && !((b.urCoord i).ne (.fin 0))) &&
  (List.range (min a.dim b.dim)).all (fun i =>
      !((b.minCoord i).lt (a.minCoord i)) && !((a.maxCoord i).lt (b.maxCoord i)))

/-- `cube_overlap_v0`, after it has put the cube of more dimensions first. -/
def cubeOverlapOrdered (a b : NDBOX) : Bool :=
  (List.range b.dim).all (fun i =>
      !((b.maxCoord i).lt (a.minCoord i)) && !((a.maxCoord i).lt (b.minCoord i))) &&
  ((List.range a.dim).drop b.dim).all (fun i =>
      !(Double.lt (.fin 0) (a.minCoord i)) && !((a.maxCoord i).lt (.fin 0)))

/-- `cube_overlap_v0`. -/
def cubeOverlapV0 (a b : NDBOX) : Bool :=
  if a.dim < b.dim then cubeOverlapOrdered b a else cubeOverlapOrdered a b

/-- The operator of `temporal_cube_ops` behind a strategy number: `&&`, `@>`, `<@`. -/
def cubeOperator (strategy : StrategyNumber) (k q : NDBOX) : Bool :=
  if strategy = trtreeStrategyContains then cubeContainsV0 k q
  else if strategy = trtreeStrategyContained then cubeContainsV0 q k
  else cubeOverlapV0 k q

/-- One comparison of `cube_cmp_v0`: 1 for `x > y`, -1 for `x < y`, `none` to go on with the next. -/
def cmpCoord (x y : Double) : Option Int :=
  if y.lt x then some 1 else if x.lt y then some (-1) else none

/-- `cube_cmp_v0`: the smaller corners of the common dimensions, the larger corners, then the excess
    dimensions against zero; if all of that is equal, the cube of more dimensions wins. -/
def cubeCmpV0 (a b : NDBOX) : Int :=
  let common := List.range (min a.dim b.dim)
  let byCommon :=
    (common.findSome? fun i => cmpCoord (a.minCoord i) (b.minCoord i)).or
      (common.findSome? fun i => cmpCoord (a.maxCoord i) (b.maxCoord i))
  let byExcess :=
    if a.dim > b.dim then
      let excess := (List.range a.dim).drop b.dim
      ((excess.findSome? fun i => cmpCoord (a.minCoord i) (.fin 0)).or
        (excess.findSome? fun i => cmpCoord (a.maxCoord i) (.fin 0))).getD 1
    else if a.dim < b.dim then
      let excess := (List.range b.dim).drop a.dim
      ((excess.findSome? fun i => cmpCoord (.fin 0) (b.minCoord i)).or
        (excess.findSome? fun i => cmpCoord (.fin 0) (b.maxCoord i))).getD (-1)
    else 0
  byCommon.getD byExcess

/-- `temporalbox`: the key of a row with attribute value `attr` and a period from `lower` to `upper`. -/
def rowCube (attr : ℤ) (lower : ℚ) (upper : Double) : NDBOX where
  dim := 2
  isPoint := false
  x := [.fin attr, .fin lower, .fin attr, upper]
  dim_le := by decide
  x_length := rfl

end TemporalRTree
