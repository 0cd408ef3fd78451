import TemporalRTree.Model.Page

/-!
# `Correctness.Codec` — boxes and the cubes that store them

Which boxes come back from `rtree_box_to_cube` and `rtree_cube_to_box` unchanged. Boxes are decoded from the
keys of rows and joined with `tr_union`; all of them meet `DecodedBox`, whose bounds are integers that doubles
represent exactly, except the sentinel of an open end. The encoder writes the sentinel `INT64_MAX` as a
double, which is `2 ^ 63`, and the decoder, expecting an infinity there, gets `INT64_MIN` from `llround`. So a
box survives the round trip exactly if it has no open end.
-/

namespace TemporalRTree
open Binary64

/-! ## Rounding in range -/

theorem llround_of_range {q : ℚ} (hlo : (pgInt64Min : ℚ) ≤ q) (hhi : q ≤ pgInt64Max) :
    llround (.fin q) = roundHalfAway q :=
  if_pos ⟨le_roundHalfAway hlo, roundHalfAway_le hhi⟩

theorem llround_intCast {n : ℤ} (hlo : pgInt64Min ≤ n) (hhi : n ≤ pgInt64Max) : llround (.fin n) = n := by
  rw [llround_of_range (by exact_mod_cast hlo) (by exact_mod_cast hhi), roundHalfAway_intCast]

/-- The largest `int64` is not a double; the conversion rounds it up. -/
theorem ofInt_pgInt64Max : Double.ofInt pgInt64Max = .fin ((9223372036854775808 : ℤ) : ℚ) := by
  decide +kernel

/-- An attribute value of `int32` range comes back from the double it is stored as. -/
theorem wrap32_llround_ofInt {n : ℤ} (hlo : pgInt32Min ≤ n) (hhi : n ≤ pgInt32Max) :
    wrap32 (llround (.ofInt n)) = n := by
  have hlo' := hlo
  have hhi' := hhi
  simp only [pgInt32Min, pgInt32Max] at hlo hhi
  rw [Double.ofInt_of_representable (representable_intCast (by rw [abs_lt]; constructor <;> omega)),
    llround_intCast (by simp only [pgInt64Min]; omega) (by simp only [pgInt64Max]; omega),
    wrap32_of_range hlo' hhi']

/-- A time bound on the grid comes back from the double it is stored as. -/
theorem llround_ofInt {n : ℤ} (hgrid : Representable n) (hlo : pgInt64Min ≤ n) (hhi : n ≤ pgInt64Max) :
    llround (.ofInt n) = n := by
  rw [Double.ofInt_of_representable hgrid, llround_intCast hlo hhi]

/-! ## Keys and their boxes -/

/-- A finite time coordinate: a double of `int64` range. -/
structure TimeCoord (q : ℚ) : Prop where
  grid : Representable q
  lower : (pgInt64Min : ℚ) ≤ q
  upper : q ≤ pgInt64Max

/-- The key of a row: integer attribute values, a finite start, and a finite or open end. -/
structure RowKey (c : NDBOX) : Prop where
  dim_eq : c.dim = 2
  attrLo : ∃ n : ℤ, pgInt32Min ≤ n ∧ n ≤ pgInt32Max ∧ c.llCoord 0 = .fin n
  attrHi : ∃ n : ℤ, pgInt32Min ≤ n ∧ n ≤ pgInt32Max ∧ c.urCoord 0 = .fin n
  lower : ∃ q, TimeCoord q ∧ c.llCoord 1 = .fin q
  upper : c.urCoord 1 = .posInf ∨ ∃ q, TimeCoord q ∧ c.urCoord 1 = .fin q

/-- The boxes of row keys and their unions. -/
inductive KeyBox : RTreeTemporalBox → Prop where
  | row {c : NDBOX} : RowKey c → KeyBox (rtreeCubeToBox c)
  | union {a b : RTreeTemporalBox} : KeyBox a → KeyBox b → KeyBox (trUnion a b)

/-- What every such box meets: the bounds are doubles of their range, save the sentinel of an open end, and
    the flags mark the sentinels. -/
structure DecodedBox (b : RTreeTemporalBox) : Prop where
  dims_eq : b.dims = 2
  nonempty : b.flags.empty = false
  attrLo : pgInt32Min ≤ b.attrLo ∧ b.attrLo ≤ pgInt32Max
  attrHi : pgInt32Min ≤ b.attrHi ∧ b.attrHi ≤ pgInt32Max
  lower : pgInt64Min ≤ b.lowerUs ∧ b.lowerUs ≤ pgInt64Max
  upper : pgInt64Min ≤ b.upperUs ∧ b.upperUs ≤ pgInt64Max
  lower_grid : Representable b.lowerUs
  upper_grid : b.upperUs ≠ pgInt64Max → Representable b.upperUs
  lowerInf : b.flags.lowerInf = true ↔ b.lowerUs = pgInt64Min
  upperInf : b.flags.upperInf = true ↔ b.upperUs = pgInt64Max

/-- A point cube has one corner. -/
theorem urCoord_of_isPoint {c : NDBOX} (h : c.isPoint = true) (i : Nat) : c.urCoord i = c.llCoord i := by
  rw [NDBOX.urCoord, if_pos h, NDBOX.llCoord]

/-- What the decoder reads from a cube of two dimensions. -/
theorem rtreeCubeToBox_of_dim {c : NDBOX} (h : c.dim = 2) :
    rtreeCubeToBox c =
      let lowerUs := if (c.llCoord 1).isNegInf then pgInt64Min else llround (c.llCoord 1)
      let upperUs := if (c.urCoord 1).isPosInf then pgInt64Max else llround (c.urCoord 1)
      { dims := 2
        attrLo := wrap32 (llround (c.llCoord 0))
        attrHi := wrap32 (llround (c.urCoord 0))
        lowerUs := lowerUs
        upperUs := upperUs
        flags :=
          { empty := false
            lowerInf := (c.llCoord 1).isNegInf || lowerUs == pgInt64Min
            upperInf := (c.urCoord 1).isPosInf || upperUs == pgInt64Max } } := by
  have hle : 2 ≤ c.dim := Nat.le_of_eq h.symm
  simp only [rtreeCubeToBox, ge_iff_le, hle, if_true]
  by_cases hp : c.isPoint = true
  · simp [hp, urCoord_of_isPoint hp]
  · simp [hp]

theorem TimeCoord.llround_range {q : ℚ} (h : TimeCoord q) :
    pgInt64Min ≤ llround (.fin q) ∧ llround (.fin q) ≤ pgInt64Max ∧
      Representable (llround (.fin q) : ℤ) := by
  rw [llround_of_range h.lower h.upper]
  exact ⟨le_roundHalfAway h.lower, roundHalfAway_le h.upper, representable_roundHalfAway h.grid⟩

/-- A stored attribute value is the integer it was written as. -/
theorem wrap32_llround_fin {n : ℤ} (hlo : pgInt32Min ≤ n) (hhi : n ≤ pgInt32Max) :
    wrap32 (llround (.fin n)) = n := by
  have h := wrap32_of_range hlo hhi
  simp only [pgInt32Min, pgInt32Max] at hlo hhi
  rw [llround_intCast (by simp only [pgInt64Min]; omega) (by simp only [pgInt64Max]; omega), h]

theorem RowKey.decodedBox {c : NDBOX} (h : RowKey c) : DecodedBox (rtreeCubeToBox c) := by
  obtain ⟨lo, hlo1, hlo2, hlo⟩ := h.attrLo
  obtain ⟨hi, hhi1, hhi2, hhi⟩ := h.attrHi
  obtain ⟨q, hq, hlower⟩ := h.lower
  obtain ⟨hq1, hq2, hq3⟩ := hq.llround_range
  rw [rtreeCubeToBox_of_dim h.dim_eq, hlo, hhi, hlower]
  simp only [Double.isNegInf, wrap32_llround_fin hlo1 hlo2, wrap32_llround_fin hhi1 hhi2,
    Bool.false_eq_true, if_false, Bool.false_or]
  rcases h.upper with hupper | ⟨r, hr, hupper⟩
  · rw [hupper]
    refine ⟨rfl, rfl, ⟨hlo1, hlo2⟩, ⟨hhi1, hhi2⟩, ⟨hq1, hq2⟩, ?_, hq3, ?_, by simp, by simp [Double.isPosInf]⟩
    · exact ⟨(by decide : pgInt64Min ≤ pgInt64Max), le_refl pgInt64Max⟩
    · exact fun hne => absurd rfl hne
  · obtain ⟨hr1, hr2, hr3⟩ := hr.llround_range
    rw [hupper]
    exact ⟨rfl, rfl, ⟨hlo1, hlo2⟩, ⟨hhi1, hhi2⟩, ⟨hq1, hq2⟩, ⟨hr1, hr2⟩, hq3, fun _ => hr3, by simp,
      by simp [Double.isPosInf]⟩

theorem DecodedBox.union {a b : RTreeTemporalBox} (ha : DecodedBox a) (hb : DecodedBox b) :
    DecodedBox (trUnion a b) := by
  obtain ⟨ha1, ha2⟩ := ha.lower
  obtain ⟨hb1, hb2⟩ := hb.lower
  obtain ⟨ha3, ha4⟩ := ha.upper
  obtain ⟨hb3, hb4⟩ := hb.upper
  rw [trUnion_of_nonempty ha.nonempty hb.nonempty]
  refine ⟨by simp [ha.dims_eq, hb.dims_eq], rfl, ?_, ?_, ?_, ?_, ?_, ?_, ?_, ?_⟩
  · exact ⟨le_min ha.attrLo.1 hb.attrLo.1, min_le_of_left_le ha.attrLo.2⟩
  · exact ⟨le_max_of_le_left ha.attrHi.1, max_le ha.attrHi.2 hb.attrHi.2⟩
  · exact ⟨le_min ha1 hb1, min_le_of_left_le ha2⟩
  · exact ⟨le_max_of_le_left ha3, max_le ha4 hb4⟩
  · rcases min_choice a.lowerUs b.lowerUs with h | h
    · simpa only [h] using ha.lower_grid
    · simpa only [h] using hb.lower_grid
  · rcases max_choice a.upperUs b.upperUs with h | h
    · simpa only [h] using ha.upper_grid
    · simpa only [h] using hb.upper_grid
  -- the sentinels are the ends of the range, so a union has one exactly if one of the boxes does
  · dsimp only
    rw [Bool.or_eq_true, ha.lowerInf, hb.lowerInf]
    omega
  · dsimp only
    rw [Bool.or_eq_true, ha.upperInf, hb.upperInf]
    omega

theorem KeyBox.decodedBox {b : RTreeTemporalBox} (h : KeyBox b) : DecodedBox b := by
  induction h with
  | row hc => exact hc.decodedBox
  | union _ _ iha ihb => exact iha.union ihb

/-! ## The round trip -/

/-- The decoder on a stored point. -/
theorem rtreeCubeToBox_point {x y : ℤ} (h : [Double.ofInt x, .ofInt y].length = 2) :
    rtreeCubeToBox { dim := 2, isPoint := true, x := [.ofInt x, .ofInt y], dim_le := by decide, x_length := h } =
      { dims := 2, attrLo := wrap32 (llround (.ofInt x)), attrHi := wrap32 (llround (.ofInt x)),
        lowerUs := llround (.ofInt y), upperUs := llround (.ofInt y),
        flags := { lowerInf := llround (.ofInt y) == pgInt64Min,
                   upperInf := llround (.ofInt y) == pgInt64Max } } := (rfl)

/-- The decoder on a stored box. -/
theorem rtreeCubeToBox_box {x y z w : ℤ} (h : [Double.ofInt x, .ofInt y, .ofInt z, .ofInt w].length = 4) :
    rtreeCubeToBox
        { dim := 2, isPoint := false, x := [.ofInt x, .ofInt y, .ofInt z, .ofInt w],
          dim_le := by decide, x_length := h } =
      { dims := 2, attrLo := wrap32 (llround (.ofInt x)), attrHi := wrap32 (llround (.ofInt z)),
        lowerUs := llround (.ofInt y), upperUs := llround (.ofInt w),
        flags := { lowerInf := llround (.ofInt y) == pgInt64Min,
                   upperInf := llround (.ofInt w) == pgInt64Max } } := (rfl)

section RoundTrip
variable {b : RTreeTemporalBox} (hb : DecodedBox b)
include hb

/-- A box without an open end comes back unchanged. -/
theorem DecodedBox.roundTrip (hinf : b.flags.upperInf = false) : rtreeCubeToBox (rtreeBoxToCube b) = b := by
  have hmax : b.upperUs ≠ pgInt64Max := fun h => by simp [hb.upperInf.mpr h] at hinf
  have hattrLo := wrap32_llround_ofInt hb.attrLo.1 hb.attrLo.2
  have hattrHi := wrap32_llround_ofInt hb.attrHi.1 hb.attrHi.2
  have hlower := llround_ofInt hb.lower_grid hb.lower.1 hb.lower.2
  have hupper := llround_ofInt (hb.upper_grid hmax) hb.upper.1 hb.upper.2
  have hlowerInf : (b.lowerUs == pgInt64Min) = b.flags.lowerInf := by
    rw [Bool.eq_iff_iff, beq_iff_eq, hb.lowerInf]
  have hupperInf : (b.upperUs == pgInt64Max) = b.flags.upperInf := by
    rw [Bool.eq_iff_iff, beq_iff_eq, hb.upperInf]
  have hdims := hb.dims_eq
  have hempty := hb.nonempty
  obtain ⟨lowerUs, upperUs, attrLo, attrHi, dims, ⟨empty, lowerInf, upperInf⟩⟩ := b
  dsimp only at *
  subst hdims; subst hempty
  rw [rtreeBoxToCube]
  split
  · next hpoint =>
    -- a point: both corners are the lower one
    simp only [isPointBox, Bool.and_eq_true, beq_iff_eq] at hpoint
    obtain ⟨⟨rfl, rfl⟩, -⟩ := hpoint
    rw [rtreeCubeToBox_point, hattrLo, hlower, hlowerInf, hupperInf]
  · rw [rtreeCubeToBox_box, hattrLo, hattrHi, hlower, hupper, hlowerInf, hupperInf]

/-- An open end comes back as `INT64_MIN`. -/
theorem DecodedBox.roundTrip_open (hinf : b.flags.upperInf = true) :
    (rtreeCubeToBox (rtreeBoxToCube b)).upperUs = pgInt64Min := by
  rw [rtreeBoxToCube, if_neg (by simp [isPointBox, hinf]), rtreeCubeToBox_box]
  dsimp only
  rw [hb.upperInf.mp hinf, ofInt_pgInt64Max]
  decide +kernel

end RoundTrip

/-- **A box decoded from row keys, or a union of such boxes, survives encoding and decoding exactly if it has
    no open end**; and so does the box of a downlink. -/
theorem keyBox_roundTrip_iff {b : RTreeTemporalBox} (hb : KeyBox b) :
    (rtreeCubeToBox (rtreeBoxToCube b) = b ↔ b.flags.upperInf = false) ∧
      ∀ tid, rtreeIndexTupleBox (rtreeFormTuple b tid) = some b ↔ b.flags.upperInf = false := by
  have hiff : rtreeCubeToBox (rtreeBoxToCube b) = b ↔ b.flags.upperInf = false := by
    refine ⟨fun h => ?_, hb.decodedBox.roundTrip⟩
    by_contra hinf
    have hopen : b.flags.upperInf = true := by simpa using hinf
    have hmin := hb.decodedBox.roundTrip_open hopen
    rw [h, hb.decodedBox.upperInf.mp hopen] at hmin
    exact absurd hmin (by decide)
  refine ⟨hiff, fun tid => ?_⟩
  rw [rtreeIndexTupleBox, rtreeFormTuple, Option.map_some, Option.some_inj, hiff]

/-- Two bounded rows, one with a start between two integers, and the box around them. -/
theorem keyBox_roundTrip_bounded :
    let b := trUnion (rtreeCubeToBox (rowCube 10 (3 / 2) (.fin 9))) (rtreeCubeToBox (rowCube 20 (-4) (.fin 7)))
    KeyBox b ∧ rtreeCubeToBox (rtreeBoxToCube b) = b := by
  intro b
  have hfin : ∀ n : ℤ, |n| < 2 ^ 53 → pgInt64Min ≤ n → n ≤ pgInt64Max → TimeCoord (n : ℚ) :=
    fun n h hlo hhi => ⟨representable_intCast h, by exact_mod_cast hlo, by exact_mod_cast hhi⟩
  have h₁ : RowKey (rowCube 10 (3 / 2) (.fin 9)) :=
    ⟨rfl, ⟨10, by decide, by decide, rfl⟩, ⟨10, by decide, by decide, rfl⟩,
      ⟨3 / 2, ⟨⟨3, -1, by decide, by decide, by decide, by norm_num⟩, by norm_num [pgInt64Min],
        by norm_num [pgInt64Max]⟩, rfl⟩,
      Or.inr ⟨9, by exact_mod_cast hfin 9 (by decide) (by decide) (by decide), rfl⟩⟩
  have h₂ : RowKey (rowCube 20 (-4) (.fin 7)) :=
    ⟨rfl, ⟨20, by decide, by decide, rfl⟩, ⟨20, by decide, by decide, rfl⟩,
      ⟨-4, by exact_mod_cast hfin (-4) (by decide) (by decide) (by decide), rfl⟩,
      Or.inr ⟨7, by exact_mod_cast hfin 7 (by decide) (by decide) (by decide), rfl⟩⟩
  have hb : KeyBox b := .union (.row h₁) (.row h₂)
  exact ⟨hb, (keyBox_roundTrip_iff hb).1.mpr (by decide +kernel)⟩

/-- The box of a current row, whose period has no end, does not come back. -/
theorem open_box_not_roundTrip :
    KeyBox (rtreeCubeToBox (rowCube 10 0 .posInf)) ∧
      rtreeCubeToBox (rtreeBoxToCube (rtreeCubeToBox (rowCube 10 0 .posInf))) ≠
        rtreeCubeToBox (rowCube 10 0 .posInf) := by
  refine ⟨.row ⟨rfl, ⟨10, by decide, by decide, rfl⟩, ⟨10, by decide, by decide, rfl⟩,
    ⟨0, ⟨?_, ?_, ?_⟩, rfl⟩, Or.inl rfl⟩, by decide +kernel⟩
  · exact_mod_cast representable_intCast (by decide : |(0 : ℤ)| < 2 ^ 53)
  · norm_num [pgInt64Min]
  · norm_num [pgInt64Max]

end TemporalRTree
