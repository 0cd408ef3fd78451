import TemporalRTree.Lib.Binary64

/-!
# `Model.Box` — the decoded key `RTreeTemporalBox` and the predicates on it

`temporal_rtree.h` gives the struct; the predicates are in `temporal_rtree_page.c` and `tr_union` in
`temporal_rtree_split.c`. The `int64`/`int32` fields are integers; the code that could overflow wraps
explicitly (`wrap64`, `wrap32`). The two flag words only ever carry the bits the header names, so each is
the record of its bits.
-/

namespace TemporalRTree

/-! ## Machine integers -/

def pgInt64Min : Int := -9223372036854775808
def pgInt64Max : Int := 9223372036854775807
def pgInt32Min : Int := -2147483648
def pgInt32Max : Int := 2147483647

/-- Two's-complement wrap-around of a 64-bit signed operation (the build uses `-fwrapv`). -/
def wrap64 (n : Int) : Int := n.bmod (2 ^ 64)

/-- Truncation of a wider signed integer to `int32`. -/
def wrap32 (n : Int) : Int := n.bmod (2 ^ 32)

/-- In range nothing wraps. -/
theorem wrap64_of_range {n : Int} (hlo : pgInt64Min ≤ n) (hhi : n ≤ pgInt64Max) : wrap64 n = n := by
  unfold pgInt64Min pgInt64Max at *
  exact Int.bmod_eq_of_le (by omega) (by omega)

theorem wrap32_of_range {n : Int} (hlo : pgInt32Min ≤ n) (hhi : n ≤ pgInt32Max) : wrap32 n = n := by
  unfold pgInt32Min pgInt32Max at *
  exact Int.bmod_eq_of_le (by omega) (by omega)

/-- Past the top of the range a sum or difference comes out at the bottom. -/
theorem wrap64_of_gt {n : Int} (hlo : pgInt64Max < n) (hhi : n ≤ pgInt64Max + 2 ^ 64) :
    wrap64 n = n - 2 ^ 64 := by
  unfold wrap64 pgInt64Max at *
  rw [Int.bmod_def]
  omega

theorem wrap64_of_lt {n : Int} (hlo : pgInt64Min - 2 ^ 64 ≤ n) (hhi : n < pgInt64Min) :
    wrap64 n = n + 2 ^ 64 := by
  unfold wrap64 pgInt64Min at *
  rw [Int.bmod_def]
  omega

theorem wrap32_of_gt {n : Int} (hlo : pgInt32Max < n) (hhi : n ≤ pgInt32Max + 2 ^ 32) :
    wrap32 n = n - 2 ^ 32 := by
  unfold wrap32 pgInt32Max at *
  rw [Int.bmod_def]
  omega

/-! ## The box -/

/-- `RTreeTemporalBox.flags`: `TRTREE_FLAG_EMPTY`, `TRTREE_FLAG_LOWER_INF`, `TRTREE_FLAG_UPPER_INF`. -/
structure BoxFlags where
  empty : Bool := false
  lowerInf : Bool := false
  upperInf : Bool := false
  deriving DecidableEq, Repr

/-- `RTreeTemporalBox`: a rectangle over (attribute, time). -/
structure RTreeTemporalBox where
  lowerUs : Int
  upperUs : Int
  attrLo : Int
  attrHi : Int
  dims : Nat
  flags : BoxFlags
  deriving DecidableEq, Repr

/-- The box `MemSet` to zero with the `EMPTY` flag set, from which the bounding-box folds start. -/
def emptyBox : RTreeTemporalBox :=
  { lowerUs := 0, upperUs := 0, attrLo := 0, attrHi := 0, dims := 0, flags := { empty := true } }

/-- `tr_union`. -/
def trUnion (a b : RTreeTemporalBox) : RTreeTemporalBox :=
  if a.flags.empty then b
  else if b.flags.empty then a
  else
    { dims := max a.dims b.dims
      flags :=
        { empty := false
          lowerInf := a.flags.lowerInf || b.flags.lowerInf
          upperInf := a.flags.upperInf || b.flags.upperInf }
      lowerUs := min a.lowerUs b.lowerUs
      upperUs := max a.upperUs b.upperUs
      attrLo := min a.attrLo b.attrLo
      attrHi := max a.attrHi b.attrHi }

section Union
variable {a b : RTreeTemporalBox}

theorem trUnion_of_empty (h : a.flags.empty = true) : trUnion a b = b := if_pos h

theorem trUnion_of_empty_right (ha : a.flags.empty = false) (hb : b.flags.empty = true) : trUnion a b = a := by
  unfold trUnion
  rw [if_neg (by simp [ha]), if_pos hb]

/-- The union of two boxes that are not `EMPTY`. -/
theorem trUnion_of_nonempty (ha : a.flags.empty = false) (hb : b.flags.empty = false) :
    trUnion a b =
      { dims := max a.dims b.dims
        flags :=
          { empty := false
            lowerInf := a.flags.lowerInf || b.flags.lowerInf
            upperInf := a.flags.upperInf || b.flags.upperInf }
        lowerUs := min a.lowerUs b.lowerUs
        upperUs := max a.upperUs b.upperUs
        attrLo := min a.attrLo b.attrLo
        attrHi := max a.attrHi b.attrHi } := by
  unfold trUnion
  rw [if_neg (by simp [ha]), if_neg (by simp [hb])]

end Union

/-! ## Predicates -/

/-- `rtree_box_overlaps`. -/
def rtreeBoxOverlaps (a b : RTreeTemporalBox) : Bool :=
  if a.flags.empty then false
  else if b.flags.empty then false
  else !(a.attrHi < b.attrLo || b.attrHi < a.attrLo ||
         a.upperUs < b.lowerUs || b.upperUs < a.lowerUs)

/-- `rtree_box_contains`. -/
def rtreeBoxContains (a b : RTreeTemporalBox) : Bool :=
  !a.flags.empty && !b.flags.empty &&
    a.attrLo ≤ b.attrLo && a.attrHi ≥ b.attrHi &&
    a.lowerUs ≤ b.lowerUs && a.upperUs ≥ b.upperUs

theorem rtreeBoxOverlaps_iff {a b : RTreeTemporalBox} :
    rtreeBoxOverlaps a b = true ↔ a.flags.empty = false ∧ b.flags.empty = false ∧
      b.attrLo ≤ a.attrHi ∧ a.attrLo ≤ b.attrHi ∧ b.lowerUs ≤ a.upperUs ∧ a.lowerUs ≤ b.upperUs := by
  unfold rtreeBoxOverlaps
  cases a.flags.empty <;> cases b.flags.empty <;> simp [and_assoc]

theorem rtreeBoxContains_iff {a b : RTreeTemporalBox} :
    rtreeBoxContains a b = true ↔ a.flags.empty = false ∧ b.flags.empty = false ∧
      a.attrLo ≤ b.attrLo ∧ b.attrHi ≤ a.attrHi ∧ a.lowerUs ≤ b.lowerUs ∧ b.upperUs ≤ a.upperUs := by
  unfold rtreeBoxContains
  simp [and_assoc]

/-- `rtree_box_contained`. -/
def rtreeBoxContained (a b : RTreeTemporalBox) : Bool := rtreeBoxContains b a

/-- A `StrategyNumber`; 1 is overlap, 2 contains, 3 contained. -/
abbrev StrategyNumber := Nat

def trtreeStrategyOverlap : StrategyNumber := 1
def trtreeStrategyContains : StrategyNumber := 2
def trtreeStrategyContained : StrategyNumber := 3

/-- `rtree_box_matches_strategy`. -/
def rtreeBoxMatchesStrategy (tupleBox queryBox : RTreeTemporalBox) (strategy : StrategyNumber) : Bool :=
  if strategy = trtreeStrategyOverlap then rtreeBoxOverlaps tupleBox queryBox
  else if strategy = trtreeStrategyContains then rtreeBoxContains tupleBox queryBox
  else if strategy = trtreeStrategyContained then rtreeBoxContained tupleBox queryBox
  else rtreeBoxOverlaps tupleBox queryBox

section Matches
variable (tupleBox queryBox : RTreeTemporalBox)

theorem rtreeBoxMatchesStrategy_contains :
    rtreeBoxMatchesStrategy tupleBox queryBox trtreeStrategyContains = rtreeBoxContains tupleBox queryBox := rfl

theorem rtreeBoxMatchesStrategy_contained :
    rtreeBoxMatchesStrategy tupleBox queryBox trtreeStrategyContained = rtreeBoxContains queryBox tupleBox := rfl

/-- Every other strategy is overlap. -/
theorem rtreeBoxMatchesStrategy_overlap {strategy : StrategyNumber} (h1 : strategy ≠ trtreeStrategyContains)
    (h2 : strategy ≠ trtreeStrategyContained) :
    rtreeBoxMatchesStrategy tupleBox queryBox strategy = rtreeBoxOverlaps tupleBox queryBox := by
  unfold rtreeBoxMatchesStrategy
  rw [if_neg h1, if_neg h2, ite_self]

end Matches

end TemporalRTree
