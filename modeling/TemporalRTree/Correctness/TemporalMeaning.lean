import TemporalRTree.Model.TsRange
import TemporalRTree.Correctness.Strategy

/-!
# `Correctness.TemporalMeaning` — what the cubes of `contrib/temporalbox` say about periods

The cube operators compare closed boxes, the range operators take the inclusivity of the bounds into account.
Both are brought to conditions on the end points (`OrderedCube` and `cubeOperator_iff` on one side,
`rangeOverlapsInternal_iff` and `rangeContainsElemInternal_iff` on the other). They differ exactly where two
periods, or a period and a point in time, touch at an end that one of them does not include.
-/

namespace TemporalRTree
open Binary64

/-! ## The cubes -/

theorem extractEpoch_le {t t' : Timestamp} : extractEpoch t ≤ extractEpoch t' ↔ t ≤ t' := by
  unfold extractEpoch
  rw [div_le_div_iff_of_pos_right (by norm_num), Int.cast_le, sub_le_sub_iff_right]

/-- The end of a period as a coordinate. -/
def upperCoord : Option Timestamp → Double
  | none => .posInf
  | some u => .fin (extractEpoch u)

/-- A cube that stands for the time from `l` to `u` at the attribute value `a`. -/
structure StandsFor (c : NDBOX) (a : ℤ) (l : Timestamp) (u : Option Timestamp) : Prop where
  dim_eq : c.dim = 2
  attr_lo : c.llCoord 0 = .fin a
  attr_hi : c.urCoord 0 = .fin a
  lower : c.llCoord 1 = .fin (extractEpoch l)
  upper : c.urCoord 1 = upperCoord u
  le : ∀ v ∈ u, l ≤ v

theorem StandsFor.ordered {c : NDBOX} {a : ℤ} {l : Timestamp} {u : Option Timestamp} (h : StandsFor c a l u) :
    OrderedCube c := by
  refine OrderedCube.of_coords h.dim_eq h.attr_lo h.attr_hi le_rfl h.lower ?_
  cases u with
  | none => exact Or.inl h.upper
  | some v => exact Or.inr ⟨_, h.upper, extractEpoch_le.mpr (h.le v rfl)⟩

theorem cubeAF8F8_standsFor (a : ℤ) {l : Timestamp} {u : Option Timestamp} (hle : ∀ v ∈ u, l ≤ v) :
    ∃ c, cubeAF8F8 [.fin a, .fin (extractEpoch l)] [.fin a, upperCoord u] = some c ∧ StandsFor c a l u := by
  unfold cubeAF8F8
  rw [dif_pos ⟨by simp [cubeMaxDim], rfl⟩]
  split
  case isTrue => exact ⟨_, rfl, rfl, rfl, rfl, rfl, rfl, hle⟩
  case isFalse hne =>
      -- the corners are equal: the cube is kept as a point
      have heq : Double.fin (extractEpoch l) = upperCoord u := by
        cases u with
        | none => exact absurd (by simp [upperCoord, Double.ne]) hne
        | some v => simpa [upperCoord, Double.ne] using hne
      exact ⟨_, rfl, rfl, rfl, rfl, rfl, heq, hle⟩

theorem TsRange.lower_le {p : TsRange} {l u : Timestamp} (hl : p.lower.val = some l) (hu : u ∈ p.upper.val) :
    l ≤ u :=
  (p.nonempty l hl u hu).elim le_of_lt fun h => h.1.le

theorem temporalbox_standsFor (a : ℤ) {p : TsRange} {l : Timestamp} (hl : p.lower.val = some l) :
    ∃ c, temporalbox a p = some c ∧ StandsFor c a l p.upper.val := by
  obtain ⟨c, hc, hstands⟩ := cubeAF8F8_standsFor a fun v hv => TsRange.lower_le hl hv
  refine ⟨c, ?_, hstands⟩
  rw [← hc, temporalbox, hl]
  rfl

theorem temporalboxRange_standsFor (a : ℤ) {t1 t2 : Timestamp} (h : t1 < t2) :
    ∃ c, temporalboxRange a t1 t2 = some c ∧ StandsFor c a t1 (some t2) :=
  cubeAF8F8_standsFor a (u := some t2) (by simpa using h.le)

theorem temporalboxPoint_standsFor (a : ℤ) (t : Timestamp) :
    ∃ c, temporalboxPoint a t = some c ∧ StandsFor c a t (some t) :=
  ⟨_, rfl, rfl, rfl, rfl, rfl, rfl, by simp⟩

theorem comparedPairs_overlap (k q : NDBOX) :
    comparedPairs trtreeStrategyOverlap k q =
      [(k.llCoord 0, q.urCoord 0), (q.llCoord 0, k.urCoord 0), (k.llCoord 1, q.urCoord 1),
        (q.llCoord 1, k.urCoord 1)] := rfl

theorem comparedPairs_contains (k q : NDBOX) :
    comparedPairs trtreeStrategyContains k q =
      [(k.llCoord 0, q.llCoord 0), (q.urCoord 0, k.urCoord 0), (k.llCoord 1, q.llCoord 1),
        (q.urCoord 1, k.urCoord 1)] := rfl

theorem not_lt_fin {x y : ℚ} : (Double.fin y).lt (.fin x) = false ↔ x ≤ y := by
  rw [Double.lt_fin_fin, decide_eq_false_iff_not, not_lt]

theorem eq_iff_not_lt_fin {a b : ℤ} :
    (Double.fin b).lt (.fin a) = false ∧ (Double.fin a).lt (.fin b) = false ↔ a = b := by
  rw [not_lt_fin, not_lt_fin, Int.cast_le, Int.cast_le, le_antisymm_iff]

section Operators
variable {k q : NDBOX} {a b : ℤ} {l t1 t2 : Timestamp} {u : Option Timestamp}

theorem upperCoord_lt {t : Timestamp} :
    (upperCoord u).lt (.fin (extractEpoch t)) = false ↔ ∀ v ∈ u, t ≤ v := by
  cases u with
  | none => simp [upperCoord]
  | some v => simp [upperCoord, extractEpoch_le]

/-- `&&` compares the attribute values and the closed periods. -/
theorem StandsFor.overlap_iff (hk : StandsFor k a l u) (hq : StandsFor q b t1 (some t2)) :
    cubeOverlapV0 k q = true ↔ a = b ∧ l ≤ t2 ∧ ∀ v ∈ u, t1 ≤ v := by
  have h := cubeOperator_iff hk.ordered hq.ordered trtreeStrategyOverlap
  rw [comparedPairs_overlap, hk.attr_lo, hk.attr_hi, hk.lower, hk.upper, hq.attr_lo, hq.attr_hi, hq.lower,
    hq.upper] at h
  refine Iff.trans h ?_
  simp only [List.forall_mem_cons, List.not_mem_nil, IsEmpty.forall_iff, implies_true, and_true, ← and_assoc,
    eq_iff_not_lt_fin]
  rw [upperCoord_lt, upperCoord_lt]
  simp [and_assoc]

/-- `@>` of a point in time, likewise. -/
theorem StandsFor.contains_iff {t : Timestamp} (hk : StandsFor k a l u) (hq : StandsFor q b t (some t)) :
    cubeContainsV0 k q = true ↔ a = b ∧ l ≤ t ∧ ∀ v ∈ u, t ≤ v := by
  have h := cubeOperator_iff hk.ordered hq.ordered trtreeStrategyContains
  rw [comparedPairs_contains, hk.attr_lo, hk.attr_hi, hk.lower, hk.upper, hq.attr_lo, hq.attr_hi, hq.lower,
    hq.upper] at h
  refine Iff.trans h ?_
  simp only [List.forall_mem_cons, List.not_mem_nil, IsEmpty.forall_iff, implies_true, and_true, ← and_assoc,
    eq_iff_not_lt_fin]
  rw [not_lt_fin, extractEpoch_le, show upperCoord (some t) = .fin (extractEpoch t) from rfl, upperCoord_lt]

end Operators

/-! ## The ranges -/

section Bounds
variable {b1 b2 : RangeBound} {v1 : Timestamp} (h1 : b1.val = some v1) (hlower : b1.lower = true)
include h1 hlower

/-- A lower bound against an upper one. -/
theorem rangeCmpBounds_isLE_iff (hupper : b2.lower = false) :
    (rangeCmpBounds b1 b2).isLE = true ↔
      ∀ v2 ∈ b2.val, v1 < v2 ∨ (v1 = v2 ∧ b1.inclusive = true ∧ b2.inclusive = true) := by
  unfold rangeCmpBounds
  cases h2 : b2.val with
  | none => simp [h1, hupper]
  | some v2 =>
      simp only [h1, hlower, hupper, Option.mem_def, Option.some.injEq, forall_eq']
      rcases lt_trichotomy v1 v2 with hlt | rfl | hgt
      · simp [compare_lt_iff_lt.mpr hlt, hlt]
      · cases b1.inclusive <;> cases b2.inclusive <;> simp
      · simp [compare_gt_iff_gt.mpr hgt, hgt.le.not_gt, hgt.ne']

/-- Two lower bounds. -/
theorem rangeCmpBounds_isGE_iff {v2 : Timestamp} (h2 : b2.val = some v2) (hlower2 : b2.lower = true) :
    (rangeCmpBounds b1 b2).isGE = true ↔
      v2 < v1 ∨ (v1 = v2 ∧ (b1.inclusive = true → b2.inclusive = true)) := by
  unfold rangeCmpBounds
  simp only [h1, h2, hlower, hlower2]
  rcases lt_trichotomy v1 v2 with hlt | rfl | hgt
  · simp [compare_lt_iff_lt.mpr hlt, hlt.le.not_gt, hlt.ne]
  · cases b1.inclusive <;> cases b2.inclusive <;> simp
  · simp [compare_gt_iff_gt.mpr hgt, hgt]

end Bounds

section Ranges
variable {p : TsRange} {l : Timestamp} (hl : p.lower.val = some l)
include hl

/-- A range overlaps a half-open one if it starts before its end and does not end before its start. -/
theorem rangeOverlapsInternal_iff {t1 t2 : Timestamp} (ht : t1 < t2) :
    rangeOverlapsInternal p (tsrangeHalfOpen ht) = true ↔
      l < t2 ∧ ∀ u ∈ p.upper.val, t1 < u ∨ (t1 = u ∧ p.upper.inclusive = true) := by
  have hp := p.lower_lower
  have hu := p.upper_lower
  have h1 : (rangeCmpBounds p.lower (tsrangeHalfOpen ht).lower).isGE = true ↔ _ :=
    rangeCmpBounds_isGE_iff hl hp rfl rfl
  have h2 : (rangeCmpBounds p.lower (tsrangeHalfOpen ht).upper).isLE = true ↔ _ :=
    rangeCmpBounds_isLE_iff hl hp rfl
  have h3 : (rangeCmpBounds (tsrangeHalfOpen ht).lower p.lower).isGE = true ↔ _ :=
    rangeCmpBounds_isGE_iff rfl rfl hl hp
  have h4 : (rangeCmpBounds (tsrangeHalfOpen ht).lower p.upper).isLE = true ↔ _ :=
    rangeCmpBounds_isLE_iff rfl rfl hu
  unfold rangeOverlapsInternal
  rw [Bool.or_eq_true, Bool.and_eq_true, Bool.and_eq_true, h1, h2, h3, h4]
  simp only [tsrangeHalfOpen, Option.mem_def, Option.some.injEq, forall_eq', implies_true, and_true,
    Bool.false_eq_true, and_false, or_false, true_implies, true_and]
  constructor
  · rintro (⟨hstart, hlt⟩ | ⟨hstart, hend⟩)
    · -- `p` starts inside the other range, and is not empty
      refine ⟨hlt, ?_⟩
      intro u hu
      rcases p.nonempty l hl u hu with hlu | ⟨rfl, -, hinc⟩
      · exact Or.inl (hstart.elim (fun h => h.trans hlu) fun h => h ▸ hlu)
      · exact hstart.imp id fun h => ⟨h.symm, hinc⟩
    · exact ⟨hstart.elim (fun h => h.trans ht) fun h => h.1 ▸ ht, hend⟩
  · rintro ⟨hlt, hend⟩
    rcases lt_or_ge l t1 with hbefore | hinside
    · exact Or.inr ⟨Or.inl hbefore, hend⟩
    · exact Or.inl ⟨hinside.lt_or_eq.imp id Eq.symm, hlt⟩

theorem rangeContainsElemInternal_iff (t : Timestamp) :
    rangeContainsElemInternal p t = true ↔
      (l < t ∨ (l = t ∧ p.lower.inclusive = true)) ∧
        ∀ u ∈ p.upper.val, t < u ∨ (t = u ∧ p.upper.inclusive = true) := by
  unfold rangeContainsElemInternal
  rw [hl]
  cases p.upper.val with
  | none =>
      simp
      grind
  | some u =>
      simp
      grind

end Ranges

/-! ## Cubes against ranges -/

section Touching
variable {p : TsRange} {l : Timestamp} (hl : p.lower.val = some l)
include hl

/-- Closed and half-open periods overlap alike unless they touch. -/
theorem closed_overlap_iff {t1 t2 : Timestamp} (ht : t1 < t2) :
    ((l ≤ t2 ∧ ∀ u ∈ p.upper.val, t1 ≤ u) ↔
        (l < t2 ∧ ∀ u ∈ p.upper.val, t1 < u ∨ (t1 = u ∧ p.upper.inclusive = true))) ↔
      (l ≠ t2 ∧ (p.upper.val = some t1 → p.upper.inclusive = true)) := by
  constructor
  · intro h
    constructor
    · rintro rfl
      exact lt_irrefl _ (h.mp ⟨le_rfl, fun u hu => ht.le.trans (TsRange.lower_le hl hu)⟩).1
    · intro hu
      have hclosed : ∀ u ∈ p.upper.val, t1 ≤ u := fun u hu' => (Option.mem_unique hu hu').le
      have hend := (h.mp ⟨(TsRange.lower_le hl hu).trans ht.le, hclosed⟩).2 t1 hu
      exact (hend.resolve_left (lt_irrefl _)).2
  · rintro ⟨hne, hinc⟩
    constructor
    · rintro ⟨hle, hend⟩
      refine ⟨lt_of_le_of_ne hle hne, ?_⟩
      intro u hu
      rcases (hend u hu).lt_or_eq with hlt | rfl
      · exact Or.inl hlt
      · exact Or.inr ⟨rfl, hinc hu⟩
    · rintro ⟨hlt, hend⟩
      exact ⟨hlt.le, fun u hu => (hend u hu).elim le_of_lt fun h => h.1.le⟩

/-- A period and its closure contain the same points in time unless one of them is an end it does not
    include. -/
theorem closed_contains_iff (t : Timestamp) :
    ((l ≤ t ∧ ∀ u ∈ p.upper.val, t ≤ u) ↔
        ((l < t ∨ (l = t ∧ p.lower.inclusive = true)) ∧
          ∀ u ∈ p.upper.val, t < u ∨ (t = u ∧ p.upper.inclusive = true))) ↔
      ((l = t → p.lower.inclusive = true) ∧ (p.upper.val = some t → p.upper.inclusive = true)) := by
  constructor
  · intro h
    constructor
    · rintro rfl
      have hstart := (h.mp ⟨le_rfl, fun u hu => TsRange.lower_le hl hu⟩).1
      exact (hstart.resolve_left (lt_irrefl _)).2
    · intro hu
      have hclosed : ∀ u ∈ p.upper.val, t ≤ u := fun u hu' => (Option.mem_unique hu hu').le
      have hend := (h.mp ⟨TsRange.lower_le hl hu, hclosed⟩).2 t hu
      exact (hend.resolve_left (lt_irrefl _)).2
  · rintro ⟨hstart, hinc⟩
    constructor
    · rintro ⟨hle, hend⟩
      refine ⟨hle.lt_or_eq.imp id fun heq => ⟨heq, hstart heq⟩, ?_⟩
      intro u hu
      rcases (hend u hu).lt_or_eq with hlt | rfl
      · exact Or.inl hlt
      · exact Or.inr ⟨rfl, hinc hu⟩
    · rintro ⟨hle, hend⟩
      exact ⟨hle.elim le_of_lt fun h => h.1.le, fun u hu => (hend u hu).elim le_of_lt fun h => h.1.le⟩

end Touching

/-- **The cubes mean the periods they were built from, exactly if the periods compared touch only at ends they
    include.** -/
theorem temporalbox_meaning_iff (a b : ℤ) {p : TsRange} {l : Timestamp} (hl : p.lower.val = some l)
    {t1 t2 : Timestamp} (ht : t1 < t2) (t : Timestamp) :
    ∃ k q r, temporalbox a p = some k ∧ temporalboxRange b t1 t2 = some q ∧ temporalboxPoint b t = some r ∧
      ((cubeOverlapV0 k q = true ↔ a = b ∧ rangeOverlapsInternal p (tsrangeHalfOpen ht) = true) ↔
        (a = b → l ≠ t2 ∧ (p.upper.val = some t1 → p.upper.inclusive = true))) ∧
      ((cubeContainsV0 k r = true ↔ a = b ∧ rangeContainsElemInternal p t = true) ↔
        (a = b → (l = t → p.lower.inclusive = true) ∧ (p.upper.val = some t → p.upper.inclusive = true))) := by
  obtain ⟨k, hk, hkp⟩ := temporalbox_standsFor a hl
  obtain ⟨q, hq, hqp⟩ := temporalboxRange_standsFor b ht
  obtain ⟨r, hr, hrp⟩ := temporalboxPoint_standsFor b t
  refine ⟨k, q, r, hk, hq, hr, ?_, ?_⟩
  · rw [hkp.overlap_iff hqp, rangeOverlapsInternal_iff hl ht, and_congr_right_iff, closed_overlap_iff hl ht]
  · rw [hkp.contains_iff hrp, rangeContainsElemInternal_iff hl t, and_congr_right_iff, closed_contains_iff hl t]

/-- Days 1 to 3 against days 2 to 4, and a point in time on day 2. -/
theorem temporalbox_meaning_days :
    let day : Timestamp := 86400000000
    let p := tsrangeHalfOpen (show day < 3 * day by decide)
    ∃ k q r, temporalbox 10 p = some k ∧ temporalboxRange 10 (2 * day) (4 * day) = some q ∧
      temporalboxPoint 10 (2 * day) = some r ∧
      (cubeOverlapV0 k q = true ↔ rangeOverlapsInternal p (tsrangeHalfOpen (show 2 * day < 4 * day by decide))) ∧
      (cubeContainsV0 k r = true ↔ rangeContainsElemInternal p (2 * day) = true) := by
  intro day p
  obtain ⟨k, q, r, hk, hq, hr, hoverlap, hcontains⟩ :=
    temporalbox_meaning_iff 10 10 (p := p) (l := day) rfl (show 2 * day < 4 * day by decide) (2 * day)
  refine ⟨k, q, r, hk, hq, hr, ?_, ?_⟩
  · simpa using hoverlap.mpr (by decide)
  · simpa using hcontains.mpr (by decide)

/-- Two half-open days that follow one another do not overlap and the first does not contain the instant at
    which it ends, but the cubes do. -/
theorem touching_cubes_overlap :
    let day : Timestamp := 86400000000
    let p := tsrangeHalfOpen (show 0 < day by decide)
    let p' := tsrangeHalfOpen (show day < 2 * day by decide)
    ∃ k q r, temporalbox 10 p = some k ∧ temporalboxRange 10 day (2 * day) = some q ∧
      temporalboxPoint 10 day = some r ∧
      cubeOverlapV0 k q = true ∧ rangeOverlapsInternal p p' = false ∧
      cubeContainsV0 k r = true ∧ rangeContainsElemInternal p day = false := by
  intro day p p'
  obtain ⟨k, hk, hkp⟩ := temporalbox_standsFor 10 (p := p) (l := 0) rfl
  obtain ⟨q, hq, hqp⟩ := temporalboxRange_standsFor 10 (show day < 2 * day by decide)
  obtain ⟨r, hr, hrp⟩ := temporalboxPoint_standsFor 10 day
  have hclosed : ∀ v ∈ p.upper.val, day ≤ v := by
    rintro v ⟨⟩
    exact le_rfl
  refine ⟨k, q, r, hk, hq, hr, ?_, by decide, ?_, by decide⟩
  · exact (hkp.overlap_iff hqp).mpr ⟨rfl, by decide, hclosed⟩
  · exact (hkp.contains_iff hrp).mpr ⟨rfl, by decide, hclosed⟩

end TemporalRTree
