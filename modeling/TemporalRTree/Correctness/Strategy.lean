import TemporalRTree.Correctness.Codec

/-!
# `Correctness.Strategy` — the index predicate against the SQL operator

Both sides of a comparison are conjunctions of `x ≤ y` over the same pairs of coordinates
(`comparedPairs`): the SQL operator compares the coordinates themselves, the index their values rounded to
integers (`rtreeBoxMatchesStrategy_iff`, `cubeOperator_iff`). Rounding keeps the order, so the index misses no
match; but it hides a pair that is out of order by a fraction, and the scan does not ask for a recheck.
-/

namespace TemporalRTree
open Binary64

/-- The cubes `temporalbox`, `temporalbox_point` and `temporalbox_range` build: integer attribute values, a
    finite start and a finite or open end, in order. -/
structure TemporalCube (c : NDBOX) : Prop where
  dim_eq : c.dim = 2
  attr : ∃ lo hi : ℤ, c.llCoord 0 = .fin lo ∧ c.urCoord 0 = .fin hi ∧
    pgInt32Min ≤ lo ∧ lo ≤ hi ∧ hi ≤ pgInt32Max
  time : ∃ q : ℚ, c.llCoord 1 = .fin q ∧ (pgInt64Min : ℚ) ≤ q ∧ q ≤ pgInt64Max ∧
    (c.urCoord 1 = .posInf ∨ ∃ r : ℚ, c.urCoord 1 = .fin r ∧ q ≤ r ∧ r ≤ pgInt64Max)

/-- A two-dimensional cube whose corners are in order, so that the operators' minimum and maximum are the
    corners. -/
structure OrderedCube (c : NDBOX) : Prop where
  dim_eq : c.dim = 2
  corners : ∀ i ∈ [0, 1], c.minCoord i = c.llCoord i ∧ c.maxCoord i = c.urCoord i

/-- The integer the index keeps of a coordinate. -/
def boundUs (x : Double) : ℤ := if x.isPosInf then pgInt64Max else llround x

/-- The pairs `(x, y)` of coordinates for which a strategy asks `x ≤ y`. -/
def comparedPairs (strategy : StrategyNumber) (k q : NDBOX) : List (Double × Double) :=
  [0, 1].flatMap fun i =>
    if strategy = trtreeStrategyContains then
      [(k.llCoord i, q.llCoord i), (q.urCoord i, k.urCoord i)]
    else if strategy = trtreeStrategyContained then
      [(q.llCoord i, k.llCoord i), (k.urCoord i, q.urCoord i)]
    else [(k.llCoord i, q.urCoord i), (q.llCoord i, k.urCoord i)]

/-! ## Coordinates -/

/-- A coordinate of such a cube. -/
def InRange (x : Double) : Prop :=
  x = .posInf ∨ ∃ q : ℚ, x = .fin q ∧ (pgInt64Min : ℚ) ≤ q ∧ q ≤ pgInt64Max

/-- Rounding keeps the order. -/
theorem boundUs_le_of_lt {x y : Double} (hx : InRange x) (hy : InRange y) (h : y.lt x = true) :
    boundUs y ≤ boundUs x := by
  rcases hy with rfl | ⟨r, rfl, hr1, hr2⟩
  · simp at h
  · have hry : boundUs (.fin r) = roundHalfAway r := llround_of_range hr1 hr2
    rcases hx with rfl | ⟨q, rfl, hq1, hq2⟩
    · rw [hry]
      exact roundHalfAway_le hr2
    · have hqx : boundUs (.fin q) = roundHalfAway q := llround_of_range hq1 hq2
      rw [hry, hqx]
      exact roundHalfAway_mono (of_decide_eq_true h).le

theorem OrderedCube.of_coords {c : NDBOX} {lo hi q : ℚ} (hdim : c.dim = 2) (hlo : c.llCoord 0 = .fin lo)
    (hhi : c.urCoord 0 = .fin hi) (hle : lo ≤ hi) (hq : c.llCoord 1 = .fin q)
    (hupper : c.urCoord 1 = .posInf ∨ ∃ r : ℚ, c.urCoord 1 = .fin r ∧ q ≤ r) : OrderedCube c := by
  have hord : ∀ {x y : Double}, x = y ∨ (x.lt y = true ∧ y.lt x = false) →
      (if x.lt y then x else y) = x ∧ (if y.lt x then x else y) = y := by
    rintro x y (rfl | ⟨hxy, hyx⟩)
    · simp
    · simp [hxy, hyx]
  have hfin : ∀ {p q : ℚ}, p ≤ q → Double.fin p = .fin q ∨
      (Double.lt (.fin p) (.fin q) = true ∧ Double.lt (.fin q) (.fin p) = false) := by
    intro p q hpq
    rcases hpq.eq_or_lt with rfl | hlt
    · exact Or.inl rfl
    · exact Or.inr ⟨by simpa using hlt, by simpa using hpq⟩
  refine ⟨hdim, ?_⟩
  simp only [List.mem_cons, List.not_mem_nil, or_false, forall_eq_or_imp, forall_eq, NDBOX.minCoord,
    NDBOX.maxCoord]
  refine ⟨hord ?_, hord ?_⟩
  · rw [hlo, hhi]
    exact hfin hle
  · rw [hq]
    rcases hupper with hr | ⟨r, hr, hqr⟩
    · exact hr ▸ Or.inr ⟨by simp, by simp⟩
    · exact hr ▸ hfin hqr

section Cube
variable {c : NDBOX} (h : TemporalCube c)
include h

theorem TemporalCube.inRange : ∀ i ∈ [0, 1], InRange (c.llCoord i) ∧ InRange (c.urCoord i) := by
  obtain ⟨lo, hi, hlo, hhi, h1, h2, h3⟩ := h.attr
  obtain ⟨q, hq, hq1, hq2, hupper⟩ := h.time
  have hint : ∀ n : ℤ, pgInt32Min ≤ n → n ≤ pgInt32Max → InRange (.fin n) := by
    intro n hn1 hn2
    simp only [pgInt32Min, pgInt32Max] at hn1 hn2
    have hlow : pgInt64Min ≤ n := by simp only [pgInt64Min]; omega
    have hhigh : n ≤ pgInt64Max := by simp only [pgInt64Max]; omega
    exact Or.inr ⟨n, rfl, by exact_mod_cast hlow, by exact_mod_cast hhigh⟩
  simp only [List.mem_cons, List.not_mem_nil, or_false, forall_eq_or_imp, forall_eq]
  refine ⟨⟨hlo ▸ hint lo h1 (h2.trans h3), hhi ▸ hint hi (h1.trans h2) h3⟩, hq ▸ Or.inr ⟨q, rfl, hq1, hq2⟩, ?_⟩
  rcases hupper with hr | ⟨r, hr, hqr, hr2⟩
  · exact Or.inl hr
  · exact Or.inr ⟨r, hr, hq1.trans hqr, hr2⟩

/-- The corners are in order. -/
theorem TemporalCube.ordered : OrderedCube c := by
  obtain ⟨lo, hi, hlo, hhi, h1, h2, h3⟩ := h.attr
  obtain ⟨q, hq, hq1, hq2, hupper⟩ := h.time
  refine OrderedCube.of_coords h.dim_eq hlo hhi (by exact_mod_cast h2) hq ?_
  rcases hupper with hr | ⟨r, hr, hqr, hr2⟩
  · exact Or.inl hr
  · exact Or.inr ⟨r, hr, hqr⟩

/-- The box the index keeps has the rounded corners. -/
theorem TemporalCube.box_eq :
    (rtreeCubeToBox c).flags.empty = false ∧
      (rtreeCubeToBox c).attrLo = boundUs (c.llCoord 0) ∧ (rtreeCubeToBox c).attrHi = boundUs (c.urCoord 0) ∧
      (rtreeCubeToBox c).lowerUs = boundUs (c.llCoord 1) ∧
      (rtreeCubeToBox c).upperUs = boundUs (c.urCoord 1) := by
  obtain ⟨lo, hi, hlo, hhi, h1, h2, h3⟩ := h.attr
  obtain ⟨q, hq, hq1, hq2, -⟩ := h.time
  have hattr : ∀ n : ℤ, pgInt32Min ≤ n → n ≤ pgInt32Max → wrap32 (llround (.fin n)) = boundUs (.fin n) := by
    intro n hn1 hn2
    rw [wrap32_llround_fin hn1 hn2]
    simp only [pgInt32Min, pgInt32Max] at hn1 hn2
    exact (llround_intCast (by simp only [pgInt64Min]; omega) (by simp only [pgInt64Max]; omega)).symm
  rw [rtreeCubeToBox_of_dim h.dim_eq, hlo, hhi, hq]
  exact ⟨rfl, hattr lo h1 (h2.trans h3), hattr hi (h1.trans h2) h3, rfl, rfl⟩

end Cube

theorem rowCube_temporalCube {attr : ℤ} {lower upper : ℚ} (h1 : pgInt32Min ≤ attr) (h2 : attr ≤ pgInt32Max)
    (h3 : (pgInt64Min : ℚ) ≤ lower) (h4 : lower ≤ upper) (h5 : upper ≤ pgInt64Max) :
    TemporalCube (rowCube attr lower (.fin upper)) :=
  ⟨rfl, ⟨attr, attr, rfl, rfl, h1, le_refl _, h2⟩,
    ⟨lower, rfl, h3, h4.trans h5, Or.inr ⟨upper, rfl, h4, h5⟩⟩⟩

/-! ## Both predicates as conjunctions -/

section Pairs
variable {k q : NDBOX} (hk : TemporalCube k) (hq : TemporalCube q) (strategy : StrategyNumber)
include hk hq

theorem inRange_of_mem_comparedPairs {p : Double × Double} (hp : p ∈ comparedPairs strategy k q) :
    InRange p.1 ∧ InRange p.2 := by
  obtain ⟨i, hi, hp⟩ := List.mem_flatMap.mp hp
  obtain ⟨hk1, hk2⟩ := hk.inRange i hi
  obtain ⟨hq1, hq2⟩ := hq.inRange i hi
  split at hp
  · rcases List.mem_pair.mp hp with rfl | rfl
    · exact ⟨hk1, hq1⟩
    · exact ⟨hq2, hk2⟩
  · split at hp
    · rcases List.mem_pair.mp hp with rfl | rfl
      · exact ⟨hq1, hk1⟩
      · exact ⟨hk2, hq2⟩
    · rcases List.mem_pair.mp hp with rfl | rfl
      · exact ⟨hk1, hq2⟩
      · exact ⟨hq1, hk2⟩

/-- **The index compares rounded coordinates.** -/
theorem rtreeBoxMatchesStrategy_iff :
    rtreeBoxMatchesStrategy (rtreeCubeToBox k) (rtreeCubeToBox q) strategy = true ↔
      ∀ p ∈ comparedPairs strategy k q, boundUs p.1 ≤ boundUs p.2 := by
  obtain ⟨ke, ka, kb, kc, kd⟩ := hk.box_eq
  obtain ⟨qe, qa, qb, qc, qd⟩ := hq.box_eq
  by_cases hcontains : strategy = trtreeStrategyContains
  · rw [hcontains, rtreeBoxMatchesStrategy_contains, rtreeBoxContains_iff, ka, kb, kc, kd, qa, qb, qc, qd]
    simp [comparedPairs, ke, qe]
  · by_cases hcontained : strategy = trtreeStrategyContained
    · rw [hcontained, rtreeBoxMatchesStrategy_contained, rtreeBoxContains_iff, ka, kb, kc, kd, qa, qb, qc, qd]
      simp [comparedPairs, trtreeStrategyContained, trtreeStrategyContains, ke, qe]
    · rw [rtreeBoxMatchesStrategy_overlap _ _ hcontains hcontained, rtreeBoxOverlaps_iff, ka, kb, kc, kd, qa,
        qb, qc, qd]
      simp only [comparedPairs, if_neg hcontains, if_neg hcontained, ke, qe, true_and, List.flatMap_cons,
        List.flatMap_nil, List.append_nil, List.cons_append, List.nil_append, List.forall_mem_cons]
      constructor
      · rintro ⟨h1, h2, h3, h4⟩
        exact ⟨h2, h1, h4, h3, List.forall_mem_nil _⟩
      · rintro ⟨h2, h1, h4, h3, -⟩
        exact ⟨h1, h2, h3, h4⟩

end Pairs

/-- **The SQL operator compares the coordinates.** -/
theorem cubeOperator_iff {k q : NDBOX} (hk : OrderedCube k) (hq : OrderedCube q) (strategy : StrategyNumber) :
    cubeOperator strategy k q = true ↔ ∀ p ∈ comparedPairs strategy k q, p.2.lt p.1 = false := by
  obtain ⟨k0, k0'⟩ := hk.corners 0 (by simp)
  obtain ⟨k1, k1'⟩ := hk.corners 1 (by simp)
  obtain ⟨q0, q0'⟩ := hq.corners 0 (by simp)
  obtain ⟨q1, q1'⟩ := hq.corners 1 (by simp)
  have hrange : List.range 2 = [0, 1] := rfl
  by_cases hcontains : strategy = trtreeStrategyContains
  · subst hcontains
    simp [cubeOperator, cubeContainsV0, comparedPairs, hk.dim_eq, hq.dim_eq, hrange, k0, k0', k1, k1', q0,
      q0', q1, q1']
    tauto
  · by_cases hcontained : strategy = trtreeStrategyContained
    · subst hcontained
      simp [cubeOperator, cubeContainsV0, comparedPairs, trtreeStrategyContains, trtreeStrategyContained,
        hk.dim_eq, hq.dim_eq, hrange, k0, k0', k1, k1', q0, q0', q1, q1']
      tauto
    · simp [cubeOperator, cubeOverlapV0, cubeOverlapOrdered, comparedPairs, hcontains, hcontained, hk.dim_eq,
        hq.dim_eq, hrange, k0, k0', k1, k1', q0, q0', q1, q1']
      tauto

/-! ## No match is missed -/

/-- A pair that is in order stays so. -/
theorem boundUs_le_of_not_lt {x y : Double} (hx : InRange x) (hy : InRange y) (h : y.lt x = false) :
    boundUs x ≤ boundUs y := by
  cases hlt : x.lt y with
  | true => exact boundUs_le_of_lt hy hx hlt
  | false =>
      -- neither is below the other: they are equal
      have heq : x = y := by
        rcases hx with rfl | ⟨p, rfl, -, -⟩ <;> rcases hy with rfl | ⟨q, rfl, -, -⟩
        · rfl
        · exact absurd h (by simp)
        · exact absurd hlt (by simp)
        · have h1 : ¬ q < p := by simpa using h
          have h2 : ¬ p < q := by simpa using hlt
          rw [le_antisymm (not_lt.mp h1) (not_lt.mp h2)]
      rw [heq]

/-- **The index predicate holds wherever the SQL operator does.** -/
theorem cubeOperator_imp_matches {k q : NDBOX} (hk : TemporalCube k) (hq : TemporalCube q)
    (strategy : StrategyNumber) (h : cubeOperator strategy k q = true) :
    rtreeBoxMatchesStrategy (rtreeCubeToBox k) (rtreeCubeToBox q) strategy = true := by
  rw [rtreeBoxMatchesStrategy_iff hk hq]
  rw [cubeOperator_iff hk.ordered hq.ordered] at h
  intro p hp
  obtain ⟨h1, h2⟩ := inRange_of_mem_comparedPairs hk hq strategy hp
  exact boundUs_le_of_not_lt h1 h2 (h p hp)

/-- Periods that share the time from 9/2 to 20: a match of the operator is one of the index. -/
theorem cubeOperator_imp_matches_periods :
    let k := rowCube 10 (3 / 2) (.fin 20)
    let q := rowCube 10 (9 / 2) (.fin 30)
    cubeOperator trtreeStrategyOverlap k q = true ∧
      rtreeBoxMatchesStrategy (rtreeCubeToBox k) (rtreeCubeToBox q) trtreeStrategyOverlap = true := by
  intro k q
  have hk : TemporalCube k := rowCube_temporalCube (by decide) (by decide) (by norm_num [pgInt64Min])
    (by norm_num) (by norm_num [pgInt64Max])
  have hq : TemporalCube q := rowCube_temporalCube (by decide) (by decide) (by norm_num [pgInt64Min])
    (by norm_num) (by norm_num [pgInt64Max])
  have hop : cubeOperator trtreeStrategyOverlap k q = true := by decide +kernel
  exact ⟨hop, cubeOperator_imp_matches hk hq _ hop⟩

/-! ## Matches that are none -/

/-- A pair that is out of order, with nothing of it left after rounding. -/
def HiddenByRounding (p : Double × Double) : Prop := p.2.lt p.1 = true ∧ boundUs p.1 = boundUs p.2

/-- A pair that is out of order by so much that rounding keeps it so. -/
def Apart (p : Double × Double) : Prop := boundUs p.2 < boundUs p.1

instance (p : Double × Double) : Decidable (HiddenByRounding p) := inferInstanceAs (Decidable (_ ∧ _))

instance (p : Double × Double) : Decidable (Apart p) := inferInstanceAs (Decidable (_ < _))

/-- **The index answers a strategy only with rows the operator accepts, exactly if every compared pair hidden
    by rounding comes with one that is apart.** -/
theorem matches_imp_cubeOperator_iff {k q : NDBOX} (hk : TemporalCube k) (hq : TemporalCube q)
    (strategy : StrategyNumber) :
    (rtreeBoxMatchesStrategy (rtreeCubeToBox k) (rtreeCubeToBox q) strategy = true →
        cubeOperator strategy k q = true) ↔
      ∀ p ∈ comparedPairs strategy k q, HiddenByRounding p → ∃ p' ∈ comparedPairs strategy k q, Apart p' := by
  rw [rtreeBoxMatchesStrategy_iff hk hq, cubeOperator_iff hk.ordered hq.ordered]
  constructor
  · intro h p hp hidden
    by_contra hnone
    have hmatch : ∀ p' ∈ comparedPairs strategy k q, boundUs p'.1 ≤ boundUs p'.2 := fun p' hp' =>
      not_lt.mp fun hlt => hnone ⟨p', hp', hlt⟩
    exact absurd hidden.1 (by simp [h hmatch p hp])
  · intro h hmatch p hp
    by_contra hlt
    have hlt : p.2.lt p.1 = true := by simpa using hlt
    obtain ⟨h1, h2⟩ := inRange_of_mem_comparedPairs hk hq strategy hp
    have heq : boundUs p.1 = boundUs p.2 := le_antisymm (hmatch p hp) (boundUs_le_of_lt h1 h2 hlt)
    obtain ⟨p', hp', hapart⟩ := h p hp ⟨hlt, heq⟩
    exact absurd (hmatch p' hp') (not_le.mpr hapart)

/-- Periods that share the time from 9/2 to 7: a match of the index is one of the operator. -/
theorem matches_imp_cubeOperator_periods :
    let k := rowCube 10 (3 / 2) (.fin 7)
    let q := rowCube 10 (9 / 2) (.fin 20)
    rtreeBoxMatchesStrategy (rtreeCubeToBox k) (rtreeCubeToBox q) trtreeStrategyOverlap = true ∧
      cubeOperator trtreeStrategyOverlap k q = true := by
  intro k q
  have hk : TemporalCube k := rowCube_temporalCube (by decide) (by decide) (by norm_num [pgInt64Min])
    (by norm_num) (by norm_num [pgInt64Max])
  have hq : TemporalCube q := rowCube_temporalCube (by decide) (by decide) (by norm_num [pgInt64Min])
    (by norm_num) (by norm_num [pgInt64Max])
  have hmatch : rtreeBoxMatchesStrategy (rtreeCubeToBox k) (rtreeCubeToBox q) trtreeStrategyOverlap = true := by
    decide +kernel
  exact ⟨hmatch, (matches_imp_cubeOperator_iff hk hq _).mpr (by decide +kernel) hmatch⟩

/-- A row that ends at 1.4 and a query that starts at 1.45: both round to 1. -/
theorem index_overlap_not_cubeOverlap :
    let k := rowCube 10 0 (.fin (7 / 5))
    let q := rowCube 10 (29 / 20) (.fin 2)
    TemporalCube k ∧ TemporalCube q ∧
      rtreeBoxMatchesStrategy (rtreeCubeToBox k) (rtreeCubeToBox q) trtreeStrategyOverlap = true ∧
      cubeOperator trtreeStrategyOverlap k q = false := by
  refine ⟨rowCube_temporalCube (by decide) (by decide) ?_ (by norm_num) ?_,
    rowCube_temporalCube (by decide) (by decide) ?_ (by norm_num) ?_, by decide +kernel, by decide +kernel⟩
  · norm_num [pgInt64Min]
  · norm_num [pgInt64Max]
  · norm_num [pgInt64Min]
  · norm_num [pgInt64Max]

end TemporalRTree
