import TemporalRTree.Correctness.Strategy
import TemporalRTree.Correctness.ScanKeys

/-!
# `Correctness.TimeOnly` — keys of one dimension

`rtree_cube_to_box` takes the attribute range of a one-dimensional cube from both of its ends, but the time
range from its start alone: `upper_d` is `lower_d`. The comparisons use all four fields, so to the index two
such keys can only match if they start at the same integer. The SQL operator asks for no such thing.

- `cubeOperator_interval_iff` and `matches_interval_iff` bring both predicates to the ends of the intervals;
- `interval_match_iff` compares them for a pair of keys, `interval_scan_complete_iff` for a whole index.
-/

namespace TemporalRTree
open EStateM Layout Binary64

/-- A one-dimensional cube from `lo` to `hi`, in order and in the range of `int32`. -/
structure IntervalCube (c : NDBOX) (lo hi : ℚ) : Prop where
  dim_eq : c.dim = 1
  lower : c.llCoord 0 = .fin lo
  upper : c.urCoord 0 = .fin hi
  lower_le_upper : lo ≤ hi
  min_le_lower : (pgInt32Min : ℚ) ≤ lo
  upper_le_max : hi ≤ pgInt32Max

/-- What a strategy asks of the ends of two intervals, `k` of the key and `q` of the query. -/
def intervalOperator {α : Type} [LE α] (strategy : StrategyNumber) (kl ku ql qu : α) : Prop :=
  if strategy = trtreeStrategyContains then kl ≤ ql ∧ qu ≤ ku
  else if strategy = trtreeStrategyContained then ql ≤ kl ∧ ku ≤ qu
  else kl ≤ qu ∧ ql ≤ ku

/-- Rounding keeps the order of the ends. -/
theorem intervalOperator.round {strategy : StrategyNumber} {kl ku ql qu : ℚ}
    (h : intervalOperator strategy kl ku ql qu) :
    intervalOperator strategy (roundHalfAway kl) (roundHalfAway ku) (roundHalfAway ql) (roundHalfAway qu) := by
  unfold intervalOperator at h ⊢
  split_ifs at h ⊢
  · exact h.imp roundHalfAway_mono roundHalfAway_mono
  · exact h.imp roundHalfAway_mono roundHalfAway_mono
  · exact h.imp roundHalfAway_mono roundHalfAway_mono

/-! ## The two predicates -/

/-- A coordinate in the range of `int32` is rounded without wrap-around. -/
theorem llround_of_int32_range {x : ℚ} (hlo : (pgInt32Min : ℚ) ≤ x) (hhi : x ≤ pgInt32Max) :
    llround (.fin x) = roundHalfAway x ∧ wrap32 (llround (.fin x)) = roundHalfAway x := by
  have hmin : (pgInt64Min : ℚ) ≤ pgInt32Min := by norm_num [pgInt64Min, pgInt32Min]
  have hmax : (pgInt32Max : ℚ) ≤ pgInt64Max := by norm_num [pgInt64Max, pgInt32Max]
  rw [llround_of_range (hmin.trans hlo) (hhi.trans hmax)]
  exact ⟨rfl, wrap32_of_range (le_roundHalfAway hlo) (roundHalfAway_le hhi)⟩

/-- **What the decoder reads from a cube of one dimension**: the time range is its lower corner alone. -/
theorem rtreeCubeToBox_of_dim_one {c : NDBOX} (h : c.dim = 1) :
    rtreeCubeToBox c =
      let lowerUs := if (c.llCoord 0).isNegInf then pgInt64Min else llround (c.llCoord 0)
      let upperUs := if (c.llCoord 0).isPosInf then pgInt64Max else llround (c.llCoord 0)
      { dims := 1
        attrLo := wrap32 (llround (c.llCoord 0))
        attrHi := wrap32 (llround (c.urCoord 0))
        lowerUs := lowerUs
        upperUs := upperUs
        flags :=
          { empty := false
            lowerInf := (c.llCoord 0).isNegInf || lowerUs == pgInt64Min
            upperInf := (c.llCoord 0).isPosInf || upperUs == pgInt64Max } } := by
  have hlt : ¬ 2 ≤ c.dim := by
    rw [h]
    decide
  simp only [rtreeCubeToBox, ge_iff_le, hlt, if_false]
  by_cases hp : c.isPoint = true
  · simp [hp, urCoord_of_isPoint hp]
  · simp [hp]

section Cube
variable {c : NDBOX} {lo hi : ℚ} (h : IntervalCube c lo hi)
include h

/-- The box of an interval in range. -/
theorem IntervalCube.box_eq :
    rtreeCubeToBox c =
      { lowerUs := roundHalfAway lo
        upperUs := roundHalfAway lo
        attrLo := roundHalfAway lo
        attrHi := roundHalfAway hi
        dims := 1
        flags := {} } := by
  have hmax : lo ≤ pgInt32Max := h.lower_le_upper.trans h.upper_le_max
  obtain ⟨hround, hlo⟩ := llround_of_int32_range h.min_le_lower hmax
  obtain ⟨-, hhi⟩ := llround_of_int32_range (h.min_le_lower.trans h.lower_le_upper) h.upper_le_max
  -- the sentinels of an infinite end are out of reach
  have hge : pgInt32Min ≤ roundHalfAway lo := le_roundHalfAway h.min_le_lower
  have hle : roundHalfAway lo ≤ pgInt32Max := roundHalfAway_le hmax
  have hmin : roundHalfAway lo ≠ pgInt64Min := by
    unfold pgInt32Min at hge
    unfold pgInt64Min
    omega
  have hmax : roundHalfAway lo ≠ pgInt64Max := by
    unfold pgInt32Max at hle
    unfold pgInt64Max
    omega
  rw [rtreeCubeToBox_of_dim_one h.dim_eq, h.lower, h.upper, hlo, hhi]
  simp [Double.isNegInf, Double.isPosInf, hround, hmin, hmax]

theorem IntervalCube.corners : c.minCoord 0 = .fin lo ∧ c.maxCoord 0 = .fin hi := by
  unfold NDBOX.minCoord NDBOX.maxCoord
  rw [h.lower, h.upper]
  rcases h.lower_le_upper.eq_or_lt with heq | hlt
  · rw [heq]
    simp
  · simp [hlt, hlt.le]

end Cube

section Pair
variable {k q : NDBOX} {kl ku ql qu : ℚ} (hk : IntervalCube k kl ku) (hq : IntervalCube q ql qu)
  (strategy : StrategyNumber)
include hk hq

/-- The SQL operator compares the ends. -/
theorem cubeOperator_interval_iff :
    cubeOperator strategy k q = true ↔ intervalOperator strategy kl ku ql qu := by
  obtain ⟨hkmin, hkmax⟩ := hk.corners
  obtain ⟨hqmin, hqmax⟩ := hq.corners
  have hrange : List.range 1 = [0] := rfl
  unfold cubeOperator intervalOperator
  split_ifs
  · simp [cubeContainsV0, hk.dim_eq, hq.dim_eq, hrange, hkmin, hkmax, hqmin, hqmax]
  · simp [cubeContainsV0, hk.dim_eq, hq.dim_eq, hrange, hkmin, hkmax, hqmin, hqmax]
  · simp [cubeOverlapV0, cubeOverlapOrdered, hk.dim_eq, hq.dim_eq, hrange, hkmin, hkmax, hqmin, hqmax]

/-- The index compares the rounded ends, and the starts for equality. -/
theorem matches_interval_iff :
    rtreeBoxMatchesStrategy (rtreeCubeToBox k) (rtreeCubeToBox q) strategy = true ↔
      intervalOperator strategy (roundHalfAway kl) (roundHalfAway ku) (roundHalfAway ql) (roundHalfAway qu) ∧
        roundHalfAway kl = roundHalfAway ql := by
  rw [hk.box_eq, hq.box_eq]
  by_cases hcontains : strategy = trtreeStrategyContains
  · rw [hcontains, rtreeBoxMatchesStrategy_contains, rtreeBoxContains_iff, intervalOperator, if_pos rfl]
    constructor
    · rintro ⟨-, -, -, hupper, hlower, hstart⟩
      exact ⟨⟨hlower, hupper⟩, le_antisymm hlower hstart⟩
    · rintro ⟨⟨hlower, hupper⟩, hstart⟩
      exact ⟨rfl, rfl, hlower, hupper, hlower, hstart.ge⟩
  · by_cases hcontained : strategy = trtreeStrategyContained
    · rw [hcontained, rtreeBoxMatchesStrategy_contained, rtreeBoxContains_iff, intervalOperator,
        if_neg (by decide), if_pos rfl]
      constructor
      · rintro ⟨-, -, -, hupper, hlower, hstart⟩
        exact ⟨⟨hlower, hupper⟩, le_antisymm hstart hlower⟩
      · rintro ⟨⟨hlower, hupper⟩, hstart⟩
        exact ⟨rfl, rfl, hlower, hupper, hlower, hstart.le⟩
    · rw [rtreeBoxMatchesStrategy_overlap _ _ hcontains hcontained, rtreeBoxOverlaps_iff, intervalOperator,
        if_neg hcontains, if_neg hcontained]
      constructor
      · rintro ⟨-, -, hkey, hquery, hstart, hstart'⟩
        exact ⟨⟨hquery, hkey⟩, le_antisymm hstart' hstart⟩
      · rintro ⟨⟨hquery, hkey⟩, hstart⟩
        exact ⟨rfl, rfl, hkey, hquery, hstart.ge, hstart.le⟩

/-- **A match of the operator is one of the index exactly if both intervals start at the same integer.** -/
theorem interval_match_iff :
    (cubeOperator strategy k q = true →
        rtreeBoxMatchesStrategy (rtreeCubeToBox k) (rtreeCubeToBox q) strategy = true) ↔
      (intervalOperator strategy kl ku ql qu → roundHalfAway kl = roundHalfAway ql) := by
  rw [cubeOperator_interval_iff hk hq, matches_interval_iff hk hq]
  constructor
  · intro h hop
    exact (h hop).2
  · intro h hop
    exact ⟨hop.round, h hop⟩

end Pair

/-- The one-dimensional cube `[lo, hi]`. -/
def intervalKey (lo hi : ℚ) : NDBOX where
  dim := 1
  isPoint := false
  x := [.fin lo, .fin hi]
  dim_le := by decide
  x_length := rfl

theorem intervalKey_intervalCube {lo hi : ℚ} (h1 : (pgInt32Min : ℚ) ≤ lo) (h2 : lo ≤ hi)
    (h3 : hi ≤ pgInt32Max) : IntervalCube (intervalKey lo hi) lo hi := ⟨rfl, rfl, rfl, h2, h1, h3⟩

/-- Intervals that start at 5/2 and at 3, which both round to 3. -/
theorem interval_match_same_start :
    rtreeBoxMatchesStrategy (rtreeCubeToBox (intervalKey (5 / 2) 7)) (rtreeCubeToBox (intervalKey 3 4))
      trtreeStrategyContains = true := by
  have hk : IntervalCube (intervalKey (5 / 2) 7) (5 / 2) 7 :=
    intervalKey_intervalCube (by norm_num [pgInt32Min]) (by norm_num) (by norm_num [pgInt32Max])
  have hq : IntervalCube (intervalKey 3 4) 3 4 :=
    intervalKey_intervalCube (by norm_num [pgInt32Min]) (by norm_num) (by norm_num [pgInt32Max])
  exact (interval_match_iff hk hq trtreeStrategyContains).mpr (fun _ => by decide +kernel) (by decide +kernel)

/-! ## Scans -/

/-- **A scan of an index on intervals returns every row the operator accepts exactly if each of these starts at
    the same integer as the query.** -/
theorem interval_scan_complete_iff {pages : List Page} {q : NDBOX} {ql qu : ℚ} {strategy : StrategyNumber}
    (hsupported : ScanKey.Supported { strategy := strategy, argument := some q }) (hq : IntervalCube q ql qu)
    (hkeys : ∀ t ∈ contents pages, ∃ k kl ku, t.key = some k ∧ IntervalCube k kl ku) :
    (∀ t ∈ contents pages, ∀ k, t.key = some k → cubeOperator strategy k q = true →
        t ∈ scanHits pages [{ strategy := strategy, argument := some q }]) ↔
      ∀ t ∈ contents pages, ∀ k kl ku, t.key = some k → IntervalCube k kl ku →
        intervalOperator strategy kl ku ql qu → roundHalfAway kl = roundHalfAway ql := by
  have hmem : ∀ t k, t.key = some k → (t ∈ scanHits pages [{ strategy := strategy, argument := some q }] ↔
      t ∈ contents pages ∧
        rtreeBoxMatchesStrategy (rtreeCubeToBox k) (rtreeCubeToBox q) strategy = true) := by
    intro t k hkey
    have hparse : rtreeParseQuery [{ strategy := strategy, argument := some q }] =
        some (rtreeCubeToBox q, strategy) := by
      rw [rtreeParseQuery, List.findSome?_cons, parseKey_of_supported hsupported]
      rfl
    rw [scanHits, hparse, List.mem_filter, contents, Multiset.mem_coe, tupleMatches, rtreeIndexTupleBox, hkey]
    rfl
  constructor
  · intro h t ht k kl ku hkey hk hop
    have hhit := h t ht k hkey ((cubeOperator_interval_iff hk hq strategy).mpr hop)
    exact ((matches_interval_iff hk hq strategy).mp ((hmem t k hkey).mp hhit).2).2
  · intro h t ht k hkey hop
    obtain ⟨k', kl, ku, hkey', hk⟩ := hkeys t ht
    obtain rfl : k' = k := Option.some.inj (hkey'.symm.trans hkey)
    have hop' := (cubeOperator_interval_iff hk hq strategy).mp hop
    exact (hmem t k' hkey).mpr ⟨ht,
      (matches_interval_iff hk hq strategy).mpr ⟨hop'.round, h t ht k' kl ku hkey hk hop'⟩⟩

/-- A row from 0 to 10 and a query from 5 to 6: the operator accepts the row, and the scan of an index with
    nothing else in it ends without returning it. -/
theorem interval_scan_misses_row :
    let k := intervalKey 0 10
    let q := intervalKey 5 6
    IntervalCube k 0 10 ∧ IntervalCube q 5 6 ∧ cubeOperator trtreeStrategyOverlap k q = true ∧
      rtreeBoxMatchesStrategy (rtreeCubeToBox k) (rtreeCubeToBox q) trtreeStrategyOverlap = false ∧
      (scanAll 4 1 (temporalRtreeBeginscan 1) [{ strategy := trtreeStrategyOverlap, argument := some q }]).run'
        { pages := leafIndex [{ tTid := { blkno := 0, offnum := 1 }, key := some k }] } = some [] := by
  refine ⟨intervalKey_intervalCube ?_ (by norm_num) ?_, intervalKey_intervalCube ?_ (by norm_num) ?_,
    by decide +kernel, by decide +kernel, by decide +kernel⟩
  · norm_num [pgInt32Min]
  · norm_num [pgInt32Max]
  · norm_num [pgInt32Min]
  · norm_num [pgInt32Max]

end TemporalRTree
