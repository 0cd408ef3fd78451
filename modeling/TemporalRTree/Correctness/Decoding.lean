import TemporalRTree.Correctness.Strategy

/-!
# `Correctness.Decoding` — what `rtree_cube_to_box` makes of corners and of infinite times

Two questions about the decoder that every comparison of boxes rests on.

- **Extended time.** The lower corner has a special case for `-Infinity` only, the upper corner one for
  `+Infinity` only; any other infinity goes through `llround`. The decoder keeps the order of times, and
  gives a time the same value in either corner, as long as it is not `+Infinity` (`timeDecoding_iff`).
- **Corner order.** A cube may store its two corners in either order, and the cube operators take minimum
  and maximum; the decoder takes the corners as stored. Cubes that are equal under `cube_cmp_v0` are
  indexed alike exactly if they store the corners in the same order, up to rounding
  (`equalCubes_alike_iff`).
-/

namespace TemporalRTree
open Binary64

/-! ## Extended time -/

/-- A finite time in the range of `int64`, or an infinite one. -/
def ExtendedTime (x : Double) : Prop := x = .negInf ∨ InRange x

/-- The cube has `x` as its lower corner in time. -/
def LowerCorner (c : NDBOX) (x : Double) : Prop := 2 ≤ c.dim ∧ c.llCoord 1 = x

/-- The cube has `x` as its upper corner in time. -/
def UpperCorner (c : NDBOX) (x : Double) : Prop := 2 ≤ c.dim ∧ c.urCoord 1 = x

/-- `temporalbox_point`, also of an infinite time. -/
def pointCube (attr : ℤ) (t : Double) : NDBOX where
  dim := 2
  isPoint := true
  x := [.fin attr, t]
  dim_le := two_le_cubeMaxDim
  x_length := rfl

section Time
variable {c d : NDBOX} {x y : Double}

/-- The special case of the lower corner is what `llround` gives anyway. -/
theorem lowerUs_of_lowerCorner (h : LowerCorner c x) : (rtreeCubeToBox c).lowerUs = llround x := by
  obtain ⟨hdim, rfl⟩ := h
  simp only [rtreeCubeToBox, ge_iff_le, hdim, if_true]
  split
  · next hinf =>
    cases hx : c.llCoord 1 with
    | negInf => rfl
    | nan => simp [hx, Double.isNegInf] at hinf
    | fin q => simp [hx, Double.isNegInf] at hinf
    | posInf => simp [hx, Double.isNegInf] at hinf
  · rfl

theorem upperUs_of_upperCorner (h : UpperCorner c x) : (rtreeCubeToBox c).upperUs = boundUs x := by
  obtain ⟨hdim, rfl⟩ := h
  simp only [rtreeCubeToBox, ge_iff_le, hdim, if_true, boundUs]
  by_cases hp : c.isPoint = true
  · rw [if_pos hp, urCoord_of_isPoint hp]
  · rw [if_neg hp]

/-- Any time but `+Infinity` has one value for both corners. -/
theorem boundUs_of_ne_posInf (h : x ≠ .posInf) : boundUs x = llround x := by
  unfold boundUs
  cases x with
  | posInf => exact absurd rfl h
  | nan => rfl
  | negInf => rfl
  | fin q => rfl

theorem llround_mono (hx : ExtendedTime x) (hy : ExtendedTime y) (hxy : y.lt x = false) (hne : y ≠ .posInf) :
    llround x ≤ llround y := by
  rcases hx with rfl | hx
  · -- the least time has the least value
    rcases hy with rfl | rfl | ⟨q, rfl, hlo, hhi⟩
    · exact le_refl _
    · exact absurd rfl hne
    · rw [llround_of_range hlo hhi]
      exact le_roundHalfAway hlo
  · rcases hy with rfl | hy
    · rcases hx with rfl | ⟨q, rfl, -, -⟩
      · exact absurd hxy (by decide)
      · exact absurd hxy (by simp [Double.lt])
    · have hle := boundUs_le_of_not_lt hx hy hxy
      have hxne : x ≠ .posInf := by
        rintro rfl
        rcases hy with rfl | ⟨q, rfl, -, -⟩
        · exact hne rfl
        · exact absurd hxy (by simp [Double.lt])
      rwa [boundUs_of_ne_posInf hxne, boundUs_of_ne_posInf hne] at hle

end Time

/-- **Decoding times `x ≤ y` keeps their order in both corners, with one value for both corners, exactly if
    the later one is not `+Infinity`.** As a lower corner `+Infinity` becomes the least time of all. -/
theorem timeDecoding_iff {x y : Double} (hx : ExtendedTime x) (hy : ExtendedTime y) (hxy : y.lt x = false) :
    ((∀ c d : NDBOX, LowerCorner c x → LowerCorner d y →
        (rtreeCubeToBox c).lowerUs ≤ (rtreeCubeToBox d).lowerUs) ∧
      (∀ c d : NDBOX, UpperCorner c x → UpperCorner d y →
        (rtreeCubeToBox c).upperUs ≤ (rtreeCubeToBox d).upperUs) ∧
      (∀ z ∈ [x, y], ∀ c d : NDBOX, LowerCorner c z → UpperCorner d z →
        (rtreeCubeToBox c).lowerUs = (rtreeCubeToBox d).upperUs)) ↔ y ≠ .posInf := by
  constructor
  · rintro ⟨-, -, hcorner⟩ rfl
    have hpoint : LowerCorner (pointCube 0 .posInf) .posInf ∧ UpperCorner (pointCube 0 .posInf) .posInf :=
      ⟨⟨le_refl _, rfl⟩, ⟨le_refl _, rfl⟩⟩
    have heq := hcorner .posInf (by simp) _ _ hpoint.1 hpoint.2
    exact absurd heq (by decide)
  · intro hne
    have hxne : x ≠ .posInf := by
      rintro rfl
      rcases hy with rfl | rfl | ⟨q, rfl, -, -⟩
      · exact absurd hxy (by decide)
      · exact hne rfl
      · exact absurd hxy (by simp [Double.lt])
    have hmono := llround_mono hx hy hxy hne
    refine ⟨?_, ?_, ?_⟩
    · intro c d hc hd
      rw [lowerUs_of_lowerCorner hc, lowerUs_of_lowerCorner hd]
      exact hmono
    · intro c d hc hd
      rw [upperUs_of_upperCorner hc, upperUs_of_upperCorner hd, boundUs_of_ne_posInf hxne,
        boundUs_of_ne_posInf hne]
      exact hmono
    · intro z hz c d hc hd
      have hzne : z ≠ .posInf := by
        rcases List.mem_pair.mp hz with rfl | rfl
        · exact hxne
        · exact hne
      rw [lowerUs_of_lowerCorner hc, upperUs_of_upperCorner hd, boundUs_of_ne_posInf hzne]

/-- Times 3/2 and 5/2, in any cubes: the order is kept and the corner does not matter. -/
theorem timeDecoding_finite :
    (rtreeCubeToBox (pointCube 10 (.fin (3 / 2)))).lowerUs ≤ (rtreeCubeToBox (pointCube 10 (.fin (5 / 2)))).lowerUs ∧
      (rtreeCubeToBox (pointCube 10 (.fin (3 / 2)))).lowerUs = (rtreeCubeToBox (rowCube 7 0 (.fin (3 / 2)))).upperUs := by
  have hrange : ∀ q : ℚ, 0 ≤ q → q ≤ 10 → ExtendedTime (.fin q) := by
    intro q hlo hhi
    refine Or.inr (Or.inr ⟨q, rfl, ?_, ?_⟩)
    · exact le_trans (by norm_num [pgInt64Min]) hlo
    · exact hhi.trans (by norm_num [pgInt64Max])
  obtain ⟨hlower, -, hcorner⟩ := (timeDecoding_iff (hrange (3 / 2) (by norm_num) (by norm_num))
    (hrange (5 / 2) (by norm_num) (by norm_num)) (by decide +kernel)).mpr (by simp)
  exact ⟨hlower _ _ ⟨le_refl _, rfl⟩ ⟨le_refl _, rfl⟩,
    hcorner (.fin (3 / 2)) (by simp) _ _ ⟨le_refl _, rfl⟩ ⟨le_refl _, rfl⟩⟩

/-- `temporalbox_point(10, 'infinity')` is decoded to all of time: its lower bound is below that of the
    point at 0, and it differs from its upper bound. -/
theorem infinite_point_decodes_to_all_time :
    (rtreeCubeToBox (pointCube 10 .posInf)).lowerUs = pgInt64Min ∧
      (rtreeCubeToBox (pointCube 10 .posInf)).upperUs = pgInt64Max ∧
      (rtreeCubeToBox (pointCube 10 (.fin 0))).lowerUs = 0 := by
  decide +kernel

/-! ## Corner order -/

/-- A two-dimensional cube with finite coordinates in the range of the fields they are decoded to. -/
structure PlaneCube (c : NDBOX) : Prop where
  dim_eq : c.dim = 2
  attrLL : ∃ q : ℚ, c.llCoord 0 = .fin q ∧ (pgInt32Min : ℚ) ≤ q ∧ q ≤ pgInt32Max
  attrUR : ∃ q : ℚ, c.urCoord 0 = .fin q ∧ (pgInt32Min : ℚ) ≤ q ∧ q ≤ pgInt32Max
  timeLL : ∃ q : ℚ, c.llCoord 1 = .fin q ∧ (pgInt64Min : ℚ) ≤ q ∧ q ≤ pgInt64Max
  timeUR : ∃ q : ℚ, c.urCoord 1 = .fin q ∧ (pgInt64Min : ℚ) ≤ q ∧ q ≤ pgInt64Max

/-- The two cubes store the corners of every axis in the same order, or the corners round to the same
    integer. -/
def SameOrder (c c' : NDBOX) : Prop :=
  ∀ i ∈ [0, 1], c.llCoord i = c'.llCoord i ∨ llround (c.llCoord i) = llround (c.urCoord i)

section Compare
variable {c c' : NDBOX}

theorem cmpCoord_ne_zero {x y : Double} {v : Int} (h : cmpCoord x y = some v) : v ≠ 0 := by
  unfold cmpCoord at h
  split_ifs at h
  · cases h; decide
  · cases h; decide

theorem cmpCoord_fin_eq_none {p q : ℚ} : cmpCoord (.fin p) (.fin q) = none ↔ p = q := by
  unfold cmpCoord
  simp only [Double.lt, decide_eq_true_eq]
  split_ifs with hlt hgt
  · exact ⟨fun h => absurd h (by simp), fun h => absurd hlt (by simp [h])⟩
  · exact ⟨fun h => absurd h (by simp), fun h => absurd hgt (by simp [h])⟩
  · exact ⟨fun _ => le_antisymm (not_lt.mp hlt) (not_lt.mp hgt), fun _ => rfl⟩

/-- `cube_cmp_v0` finds no difference exactly if no coordinate differs. -/
theorem cubeCmpV0_eq_zero_iff (hc : c.dim = 2) (hc' : c'.dim = 2) :
    cubeCmpV0 c c' = 0 ↔ ∀ i ∈ [0, 1], cmpCoord (c.minCoord i) (c'.minCoord i) = none ∧
      cmpCoord (c.maxCoord i) (c'.maxCoord i) = none := by
  have hrange : List.range 2 = [0, 1] := rfl
  simp only [cubeCmpV0, hc, hc', min_self, hrange, gt_iff_lt, lt_self_iff_false, if_false]
  constructor
  · intro h
    -- a comparison that is decided has a result other than 0
    cases hmin : [0, 1].findSome? fun i => cmpCoord (c.minCoord i) (c'.minCoord i) with
    | some v =>
        obtain ⟨i, -, hi⟩ := List.exists_of_findSome?_eq_some hmin
        rw [hmin] at h
        exact absurd h (cmpCoord_ne_zero hi)
    | none =>
        cases hmax : [0, 1].findSome? fun i => cmpCoord (c.maxCoord i) (c'.maxCoord i) with
        | some v =>
            obtain ⟨i, -, hi⟩ := List.exists_of_findSome?_eq_some hmax
            rw [hmin, hmax] at h
            exact absurd h (cmpCoord_ne_zero hi)
        | none =>
            intro i hi
            exact ⟨List.findSome?_eq_none_iff.mp hmin i hi, List.findSome?_eq_none_iff.mp hmax i hi⟩
  · intro h
    rw [List.findSome?_eq_none_iff.mpr fun i hi => (h i hi).1,
      List.findSome?_eq_none_iff.mpr fun i hi => (h i hi).2]
    rfl

/-- Every coordinate of such a cube is a finite one. -/
theorem PlaneCube.finite (h : PlaneCube c) :
    ∀ i ∈ [0, 1], ∃ p q : ℚ, c.llCoord i = .fin p ∧ c.urCoord i = .fin q := by
  obtain ⟨a, ha, -⟩ := h.attrLL
  obtain ⟨b, hb, -⟩ := h.attrUR
  obtain ⟨p, hp, -⟩ := h.timeLL
  obtain ⟨q, hq, -⟩ := h.timeUR
  intro i hi
  rcases List.mem_pair.mp hi with rfl | rfl
  · exact ⟨a, b, ha, hb⟩
  · exact ⟨p, q, hp, hq⟩

theorem minCoord_of_fin {i : Nat} {p q : ℚ} (hp : c.llCoord i = .fin p) (hq : c.urCoord i = .fin q) :
    c.minCoord i = .fin (min p q) := by
  unfold NDBOX.minCoord
  rw [hp, hq]
  simp only [Double.lt, decide_eq_true_eq]
  split
  · rw [min_eq_left (le_of_lt ‹_›)]
  · rw [min_eq_right (le_of_not_gt ‹_›)]

theorem maxCoord_of_fin {i : Nat} {p q : ℚ} (hp : c.llCoord i = .fin p) (hq : c.urCoord i = .fin q) :
    c.maxCoord i = .fin (max p q) := by
  unfold NDBOX.maxCoord
  rw [hp, hq]
  simp only [Double.lt, decide_eq_true_eq]
  split
  · rw [max_eq_left (le_of_lt ‹_›)]
  · rw [max_eq_right (le_of_not_gt ‹_›)]

/-- Equal cubes have the same two corner coordinates on every axis, in one order or the other. -/
theorem corners_of_cubeCmpV0 (hc : PlaneCube c) (hc' : PlaneCube c') (h : cubeCmpV0 c c' = 0) :
    ∀ i ∈ [0, 1], (c'.llCoord i = c.llCoord i ∧ c'.urCoord i = c.urCoord i) ∨
      (c'.llCoord i = c.urCoord i ∧ c'.urCoord i = c.llCoord i) := by
  intro i hi
  obtain ⟨p, q, hp, hq⟩ := hc.finite i hi
  obtain ⟨p', q', hp', hq'⟩ := hc'.finite i hi
  obtain ⟨hmin, hmax⟩ := (cubeCmpV0_eq_zero_iff hc.dim_eq hc'.dim_eq).mp h i hi
  rw [minCoord_of_fin hp hq, minCoord_of_fin hp' hq', cmpCoord_fin_eq_none] at hmin
  rw [maxCoord_of_fin hp hq, maxCoord_of_fin hp' hq', cmpCoord_fin_eq_none] at hmax
  rw [hp, hq, hp', hq']
  simp only [Double.fin.injEq]
  rcases le_total p q with h1 | h1 <;> rcases le_total p' q' with h2 | h2 <;>
    simp only [min_eq_left, min_eq_right, max_eq_left, max_eq_right, h1, h2] at hmin hmax <;>
    simp [hmin, hmax]

theorem cubeCmpV0_self (hc : PlaneCube c) : cubeCmpV0 c c = 0 := by
  rw [cubeCmpV0_eq_zero_iff hc.dim_eq hc.dim_eq]
  intro i hi
  obtain ⟨p, q, hp, hq⟩ := hc.finite i hi
  rw [minCoord_of_fin hp hq, maxCoord_of_fin hp hq]
  exact ⟨cmpCoord_fin_eq_none.mpr rfl, cmpCoord_fin_eq_none.mpr rfl⟩

end Compare

section Alike
variable {c c' : NDBOX}

/-- The box decoded from four rounded coordinates. -/
def cornerBox (attrLo attrHi lower upper : Int) : RTreeTemporalBox :=
  { dims := 2, attrLo := attrLo, attrHi := attrHi, lowerUs := lower, upperUs := upper
    flags := { empty := false, lowerInf := lower == pgInt64Min, upperInf := upper == pgInt64Max } }

/-- The decoder rounds the corners as they are stored. -/
theorem PlaneCube.decode (h : PlaneCube c) :
    rtreeCubeToBox c = cornerBox (llround (c.llCoord 0)) (llround (c.urCoord 0)) (llround (c.llCoord 1))
      (llround (c.urCoord 1)) := by
  have hattr : ∀ q : ℚ, (pgInt32Min : ℚ) ≤ q → q ≤ pgInt32Max →
      wrap32 (llround (.fin q)) = llround (.fin q) := by
    intro q hlo hhi
    have hlo64 : (pgInt64Min : ℚ) ≤ pgInt32Min := by norm_num [pgInt64Min, pgInt32Min]
    have hhi64 : (pgInt32Max : ℚ) ≤ pgInt64Max := by norm_num [pgInt64Max, pgInt32Max]
    rw [llround_of_range (hlo64.trans hlo) (hhi.trans hhi64)]
    exact wrap32_of_range (le_roundHalfAway hlo) (roundHalfAway_le hhi)
  obtain ⟨a, ha, ha1, ha2⟩ := h.attrLL
  obtain ⟨b, hb, hb1, hb2⟩ := h.attrUR
  obtain ⟨p, hp, -⟩ := h.timeLL
  obtain ⟨q, hq, -⟩ := h.timeUR
  rw [rtreeCubeToBox_of_dim h.dim_eq, ha, hb, hp, hq, hattr a ha1 ha2, hattr b hb1 hb2]
  rfl

/-- Equal cubes decode to one box exactly if they store their corners in the same order, up to rounding. -/
theorem decode_eq_iff_sameOrder (hc : PlaneCube c) (hc' : PlaneCube c') (h : cubeCmpV0 c c' = 0) :
    rtreeCubeToBox c = rtreeCubeToBox c' ↔ SameOrder c c' := by
  have hcorners := corners_of_cubeCmpV0 hc hc' h
  rw [hc.decode, hc'.decode]
  constructor
  · intro heq i hi
    rcases hcorners i hi with ⟨hll, -⟩ | ⟨hll, -⟩
    · exact Or.inl hll.symm
    · -- the corners are exchanged, so both are decoded to both fields
      refine Or.inr ?_
      rw [← hll]
      rcases List.mem_pair.mp hi with rfl | rfl
      · exact congrArg RTreeTemporalBox.attrLo heq
      · exact congrArg RTreeTemporalBox.lowerUs heq
  · intro hsame
    have haxis : ∀ i ∈ [0, 1], llround (c.llCoord i) = llround (c'.llCoord i) ∧
        llround (c.urCoord i) = llround (c'.urCoord i) := by
      intro i hi
      rcases hcorners i hi with ⟨hll, hur⟩ | ⟨hll, hur⟩
      · rw [hll, hur]
        exact ⟨rfl, rfl⟩
      · rw [hll, hur]
        rcases hsame i hi with heq | hround
        · rw [hll] at heq
          rw [heq]
          exact ⟨rfl, rfl⟩
        · exact ⟨hround, hround.symm⟩
    obtain ⟨ha, hb⟩ := haxis 0 (by simp)
    obtain ⟨hp, hq⟩ := haxis 1 (by simp)
    rw [ha, hb, hp, hq]

theorem matches_contains_iff {a b : RTreeTemporalBox} (ha : a.flags.empty = false) (hb : b.flags.empty = false) :
    rtreeBoxMatchesStrategy a b trtreeStrategyContains = true ↔
      (a.attrLo ≤ b.attrLo ∧ b.attrHi ≤ a.attrHi) ∧ (a.lowerUs ≤ b.lowerUs ∧ b.upperUs ≤ a.upperUs) := by
  rw [rtreeBoxMatchesStrategy_contains, rtreeBoxContains_iff]
  simp [ha, hb, and_assoc]

theorem PlaneCube.contains_iff (hc : PlaneCube c) (hc' : PlaneCube c') :
    rtreeBoxMatchesStrategy (rtreeCubeToBox c) (rtreeCubeToBox c') trtreeStrategyContains = true ↔
      (llround (c.llCoord 0) ≤ llround (c'.llCoord 0) ∧ llround (c'.urCoord 0) ≤ llround (c.urCoord 0)) ∧
      (llround (c.llCoord 1) ≤ llround (c'.llCoord 1) ∧ llround (c'.urCoord 1) ≤ llround (c.urCoord 1)) := by
  rw [hc.decode, hc'.decode]
  exact matches_contains_iff rfl rfl

/-- Boxes that contain each other are one. -/
theorem decode_eq_of_contains (hc : PlaneCube c) (hc' : PlaneCube c')
    (h : rtreeBoxMatchesStrategy (rtreeCubeToBox c) (rtreeCubeToBox c') trtreeStrategyContains = true)
    (h' : rtreeBoxMatchesStrategy (rtreeCubeToBox c') (rtreeCubeToBox c) trtreeStrategyContains = true) :
    rtreeCubeToBox c = rtreeCubeToBox c' := by
  obtain ⟨⟨ha, hb⟩, hp, hq⟩ := (hc.contains_iff hc').mp h
  obtain ⟨⟨ha', hb'⟩, hp', hq'⟩ := (hc'.contains_iff hc).mp h'
  rw [hc.decode, hc'.decode, le_antisymm ha ha', le_antisymm hb' hb, le_antisymm hp hp', le_antisymm hq' hq]

theorem PlaneCube.contains_self (hc : PlaneCube c) :
    rtreeBoxMatchesStrategy (rtreeCubeToBox c) (rtreeCubeToBox c) trtreeStrategyContains = true :=
  (hc.contains_iff hc).mpr ⟨⟨le_refl _, le_refl _⟩, le_refl _, le_refl _⟩

end Alike

/-- **Among the cubes `R` used as keys and queries, equal ones are indexed alike under every strategy
    exactly if equal ones store their corners in the same order, up to rounding.** -/
theorem equalCubes_alike_iff (R : NDBOX → Prop) (hR : ∀ c, R c → PlaneCube c) :
    (∀ k k' q q' : NDBOX, R k → R k' → R q → R q' → cubeCmpV0 k k' = 0 → cubeCmpV0 q q' = 0 →
      ∀ strategy, rtreeBoxMatchesStrategy (rtreeCubeToBox k) (rtreeCubeToBox q) strategy
        = rtreeBoxMatchesStrategy (rtreeCubeToBox k') (rtreeCubeToBox q') strategy) ↔
      ∀ c c' : NDBOX, R c → R c' → cubeCmpV0 c c' = 0 → SameOrder c c' := by
  constructor
  · intro halike c c' hc hc' hcmp
    rw [← decode_eq_iff_sameOrder (hR c hc) (hR c' hc') hcmp]
    -- each of the two, asked whether it contains itself, answers as the other does
    have hself := halike c c' c c hc hc' hc hc hcmp (cubeCmpV0_self (hR c hc)) trtreeStrategyContains
    have hother := halike c c' c' c' hc hc' hc' hc' hcmp (cubeCmpV0_self (hR c' hc')) trtreeStrategyContains
    apply decode_eq_of_contains (hR c hc) (hR c' hc')
    · rw [hother]
      exact (hR c' hc').contains_self
    · rw [← hself]
      exact (hR c hc).contains_self
  · intro hsame k k' q q' hk hk' hq hq' hkeys hqueries strategy
    rw [(decode_eq_iff_sameOrder (hR k hk) (hR k' hk') hkeys).mpr (hsame k k' hk hk' hkeys),
      (decode_eq_iff_sameOrder (hR q hq) (hR q' hq') hqueries).mpr (hsame q q' hq hq' hqueries)]

/-- Cubes with corners in order, as `temporalbox` makes them, meet the condition. -/
theorem OrderedCube.sameOrder {c c' : NDBOX} (hc : OrderedCube c) (hc' : OrderedCube c')
    (hp : PlaneCube c) (hp' : PlaneCube c') (h : cubeCmpV0 c c' = 0) : SameOrder c c' := by
  intro i hi
  obtain ⟨p, q, hll, hur⟩ := hp.finite i hi
  obtain ⟨p', q', hll', hur'⟩ := hp'.finite i hi
  have hmin := ((cubeCmpV0_eq_zero_iff hp.dim_eq hp'.dim_eq).mp h i hi).1
  rw [(hc.corners i hi).1, (hc'.corners i hi).1, hll, hll', cmpCoord_fin_eq_none] at hmin
  rw [hll, hll', hmin]
  exact Or.inl rfl

theorem rowCube_planeCube {attr : ℤ} {lower upper : ℚ} (hattr : pgInt32Min ≤ attr ∧ attr ≤ pgInt32Max)
    (hlower : (pgInt64Min : ℚ) ≤ lower ∧ lower ≤ pgInt64Max)
    (hupper : (pgInt64Min : ℚ) ≤ upper ∧ upper ≤ pgInt64Max) :
    PlaneCube (rowCube attr lower (.fin upper)) := by
  have hlo : (pgInt32Min : ℚ) ≤ attr := by exact_mod_cast hattr.1
  have hhi : (attr : ℚ) ≤ pgInt32Max := by exact_mod_cast hattr.2
  exact ⟨rfl, ⟨attr, rfl, hlo, hhi⟩, ⟨attr, rfl, hlo, hhi⟩, ⟨lower, rfl, hlower⟩, ⟨upper, rfl, hupper⟩⟩

/-- The instant 5 as a point and as a box without extent. -/
theorem equalCubes_alike_point_and_box :
    cubeCmpV0 (pointCube 10 (.fin 5)) (rowCube 10 5 (.fin 5)) = 0 ∧
      rtreeBoxMatchesStrategy (rtreeCubeToBox (pointCube 10 (.fin 5))) (rtreeCubeToBox (rowCube 10 5 (.fin 5)))
          trtreeStrategyContained
        = rtreeBoxMatchesStrategy (rtreeCubeToBox (rowCube 10 5 (.fin 5)))
          (rtreeCubeToBox (pointCube 10 (.fin 5))) trtreeStrategyContained := by
  have hbox : PlaneCube (rowCube 10 5 (.fin 5)) := rowCube_planeCube (by decide)
    (by norm_num [pgInt64Min, pgInt64Max]) (by norm_num [pgInt64Min, pgInt64Max])
  have hpoint : PlaneCube (pointCube 10 (.fin 5)) := ⟨rfl, hbox.attrLL, hbox.attrUR, hbox.timeLL, hbox.timeUR⟩
  have hcmp : cubeCmpV0 (pointCube 10 (.fin 5)) (rowCube 10 5 (.fin 5)) = 0 := by decide +kernel
  have hcmp' : cubeCmpV0 (rowCube 10 5 (.fin 5)) (pointCube 10 (.fin 5)) = 0 := by decide +kernel
  refine ⟨hcmp, (equalCubes_alike_iff
    (fun c => c = pointCube 10 (.fin 5) ∨ c = rowCube 10 5 (.fin 5)) ?_).mpr ?_ _ _ _ _
    (Or.inl rfl) (Or.inr rfl) (Or.inr rfl) (Or.inl rfl) hcmp hcmp' _⟩
  · rintro c (rfl | rfl)
    · exact hpoint
    · exact hbox
  · -- both have the same lower-left corner
    have hll : ∀ c, c = pointCube 10 (.fin 5) ∨ c = rowCube 10 5 (.fin 5) →
        ∀ i ∈ [0, 1], c.llCoord i = (pointCube 10 (.fin 5)).llCoord i := by
      rintro c (rfl | rfl) i hi
      · rfl
      · rcases List.mem_pair.mp hi with rfl | rfl <;> rfl
    intro c c' hc hc' _ i hi
    exact Or.inl ((hll c hc i hi).trans (hll c' hc' i hi).symm)

/-- The period 5 to 10 and the same cube with its corners exchanged, as `temporalbox_range` stores it when
    given 10 and 5: a query at 7 finds the one and not the other. -/
theorem reversed_cube_not_found :
    PlaneCube (rowCube 10 5 (.fin 10)) ∧ PlaneCube (rowCube 10 10 (.fin 5)) ∧
      PlaneCube (rowCube 10 7 (.fin 7)) ∧
      cubeCmpV0 (rowCube 10 5 (.fin 10)) (rowCube 10 10 (.fin 5)) = 0 ∧
      rtreeBoxMatchesStrategy (rtreeCubeToBox (rowCube 10 5 (.fin 10))) (rtreeCubeToBox (rowCube 10 7 (.fin 7)))
        trtreeStrategyOverlap = true ∧
      rtreeBoxMatchesStrategy (rtreeCubeToBox (rowCube 10 10 (.fin 5))) (rtreeCubeToBox (rowCube 10 7 (.fin 7)))
        trtreeStrategyOverlap = false := by
  refine ⟨rowCube_planeCube (by decide) ?_ ?_, rowCube_planeCube (by decide) ?_ ?_,
    rowCube_planeCube (by decide) ?_ ?_, by decide +kernel, by decide +kernel, by decide +kernel⟩
  all_goals norm_num [pgInt64Min, pgInt64Max]

end TemporalRTree
