import TemporalRTree.Model.Cube

/-!
# `Model.TsRange` — timestamp ranges, and the SQL functions of `contrib/temporalbox`

The range operators are those of `rangetypes.c`, on the bounds a `tsrange` is deserialised to; `tsrange` has no
canonical form, so a bound is kept as inclusive or exclusive as it was given. The functions of `contrib/temporalbox`
turn attribute value and period into a cube with the constructors of `cube.c`. `EXTRACT(EPOCH FROM ..)` is exact
here; the conversion to `float8` is left out.
-/

namespace TemporalRTree
open Binary64

/-! ## Ranges -/

/-- A finite `timestamp`: microseconds since 2000-01-01. -/
abbrev Timestamp := ℤ

/-- `RangeBound`; a value of `none` is an infinite bound. -/
structure RangeBound where
  val : Option Timestamp
  inclusive : Bool
  lower : Bool
  deriving DecidableEq

/-- `range_cmp_bounds`. -/
def rangeCmpBounds (b1 b2 : RangeBound) : Ordering :=
  match b1.val, b2.val with
  | none, none => if b1.lower = b2.lower then .eq else if b1.lower then .lt else .gt
  | none, some _ => if b1.lower then .lt else .gt
  | some _, none => if b2.lower then .gt else .lt
  | some v1, some v2 =>
      match compare v1 v2 with
      | .lt => .lt
      | .gt => .gt
      | .eq =>
          if !b1.inclusive && !b2.inclusive then
            if b1.lower = b2.lower then .eq else if b1.lower then .gt else .lt
          else if !b1.inclusive then if b1.lower then .gt else .lt
          else if !b2.inclusive then if b2.lower then .lt else .gt
          else .eq

/-- A non-empty `tsrange`: what `range_serialize` lets pass and does not flag as empty. -/
structure TsRange where
  lower : RangeBound
  upper : RangeBound
  lower_lower : lower.lower = true
  upper_lower : upper.lower = false
  nonempty : ∀ l ∈ lower.val, ∀ u ∈ upper.val,
    l < u ∨ (l = u ∧ lower.inclusive = true ∧ upper.inclusive = true)

/-- `range_overlaps_internal`, on non-empty ranges. -/
def rangeOverlapsInternal (r1 r2 : TsRange) : Bool :=
  ((rangeCmpBounds r1.lower r2.lower).isGE && (rangeCmpBounds r1.lower r2.upper).isLE) ||
    ((rangeCmpBounds r2.lower r1.lower).isGE && (rangeCmpBounds r2.lower r1.upper).isLE)

/-- `range_contains_elem_internal`, on a non-empty range. -/
def rangeContainsElemInternal (r : TsRange) (val : Timestamp) : Bool :=
  (r.lower.val.all fun l => !(val < l) && !(l = val && !r.lower.inclusive)) &&
    (r.upper.val.all fun u => !(u < val) && !(u = val && !r.upper.inclusive))

/-- `tsrange(t1, t2, '[)')`. -/
def tsrangeHalfOpen {t1 t2 : Timestamp} (h : t1 < t2) : TsRange where
  lower := { val := some t1, inclusive := true, lower := true }
  upper := { val := some t2, inclusive := false, lower := false }
  lower_lower := rfl
  upper_lower := rfl
  nonempty := by simpa using h

/-- `[l,)`. -/
def tsrangeFrom (l : Timestamp) : TsRange where
  lower := { val := some l, inclusive := true, lower := true }
  upper := { val := none, inclusive := false, lower := false }
  lower_lower := rfl
  upper_lower := rfl
  nonempty := fun _ _ u hu => absurd hu (Option.not_mem_none u)

/-! ## Cube constructors -/

/-- `cube_a_f8_f8`; `none` is an error report. The C function's names for its two arguments are the wrong way
    round: the first array is the lower-left corner. -/
def cubeAF8F8 (ur ll : List Double) : Option NDBOX :=
  if h : ur.length ≤ cubeMaxDim ∧ ll.length = ur.length then
    if (ur.zip ll).any fun p => p.1.ne p.2 then
      some
        { dim := ur.length, isPoint := false, x := ur ++ ll, dim_le := h.1
          x_length := by simp [h.2, Nat.two_mul] }
    else some { dim := ur.length, isPoint := true, x := ur, dim_le := h.1, x_length := rfl }
  else none

/-- `cube_a_f8`; `none` is an error report. -/
def cubeAF8 (ur : List Double) : Option NDBOX :=
  if h : ur.length ≤ cubeMaxDim then
    some { dim := ur.length, isPoint := true, x := ur, dim_le := h, x_length := rfl }
  else none

/-! ## `contrib/temporalbox` -/

/-- `SetEpochTimestamp`: 1970-01-01 as a `timestamp`. -/
def epochTimestamp : Timestamp := -946684800000000

/-- `EXTRACT(EPOCH FROM t)`. -/
def extractEpoch (t : Timestamp) : ℚ := ((t - epochTimestamp : ℤ) : ℚ) / 1000000

/-- `temporalbox`; `none` is the error `cube` raises for the NULL that `lower` gives without a lower bound. -/
def temporalbox (attr : ℤ) (period : TsRange) : Option NDBOX :=
  match period.lower.val with
  | none => none
  | some lower =>
      cubeAF8F8 [.fin attr, .fin (extractEpoch lower)]
        [.fin attr,
          match period.upper.val with
          | none => .posInf
          | some upper => .fin (extractEpoch upper)]

/-- `temporalbox_point`. -/
def temporalboxPoint (attr : ℤ) (t : Timestamp) : Option NDBOX :=
  cubeAF8 [.fin attr, .fin (extractEpoch t)]

/-- `temporalbox_range`. -/
def temporalboxRange (attr : ℤ) (t1 t2 : Timestamp) : Option NDBOX :=
  cubeAF8F8 [.fin attr, .fin (extractEpoch t1)] [.fin attr, .fin (extractEpoch t2)]

end TemporalRTree
