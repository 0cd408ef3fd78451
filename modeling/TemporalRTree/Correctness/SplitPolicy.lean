import TemporalRTree.Correctness.Picksplit
import Mathlib.Order.Bounds.Basic
import Mathlib.Order.OrderDual
import Mathlib.Tactic.MkIffOfInductiveProp

/-!
# `Correctness.SplitPolicy` — the midpoint cut and the enlargement penalty

What the split and the choice of a subtree rest on, and how far machine arithmetic lets it hold.

- **The cut.** `tr_split_current_only` divides at the midpoint `(min + max) / 2` of the lower bounds. The
  sum wraps and the division truncates toward zero, so all items can land on one side. Repairing an empty
  left side keeps the cut; repairing an empty right side moves whichever item comes last
  (`currentOnly_timeCut_iff`).
- **The penalty.** Widths are differences of full-range integers, which wrap, and an open-ended box is
  taken to end at a cap below the end of time. The results read the doubles as exact rationals
  (`rnd := id`) and compare the widths the code computes with the extents without wrap-around
  (`penalty_nonneg_iff`).
-/

namespace TemporalRTree

/-! ## What a scan finds -/

/-- The scan keeps the smallest value it has met, with a position where it stands. -/
theorem scan_least {α : Type} [LinearOrder α] (field : RTreeTemporalBox → α) :
    ∀ (rest : List RTreeTemporalBox) (k : Nat) (acc : α × Nat),
      let res := (rest.zipIdx k).foldl
        (fun acc p => if field p.1 < acc.1 then (field p.1, p.2) else acc) acc
      res.1 ≤ acc.1 ∧ (∀ b ∈ rest, res.1 ≤ field b) ∧
        (res = acc ∨ ∃ i b, rest[i]? = some b ∧ res = (field b, k + i)) := by
  intro rest
  induction rest with
  | nil => intro k acc; simp
  | cons b rest ih =>
      intro k acc
      obtain ⟨hacc, hrest, hfrom⟩ := ih (k + 1) (if field b < acc.1 then (field b, k) else acc)
      simp only [List.zipIdx_cons, List.foldl_cons]
      -- the accumulator after `b` is below both the old one and `b` itself
      have hboth : (if field b < acc.1 then (field b, k) else acc).1 ≤ acc.1 ∧
          (if field b < acc.1 then (field b, k) else acc).1 ≤ field b := by
        split
        · exact ⟨le_of_lt ‹_›, le_refl _⟩
        · exact ⟨le_refl _, le_of_not_gt ‹_›⟩
      refine ⟨hacc.trans hboth.1, ?_, ?_⟩
      · intro c hc
        rcases List.mem_cons.mp hc with rfl | hc
        · exact hacc.trans hboth.2
        · exact hrest c hc
      · rcases hfrom with hsame | ⟨i, c, hc, hres⟩
        · rw [hsame]
          split
          · exact Or.inr ⟨0, b, rfl, rfl⟩
          · exact Or.inl rfl
        · refine Or.inr ⟨i + 1, c, hc, ?_⟩
          rw [hres, Nat.add_right_comm, Nat.add_assoc]

/-- The lower bounds of an array of boxes. -/
def lowers (items : List RTreeTemporalBox) : Set Int := {t | ∃ b ∈ items, b.lowerUs = t}

theorem scanMin_isLeast (first : RTreeTemporalBox) (rest : List RTreeTemporalBox) :
    IsLeast (lowers (first :: rest)) (scanMin (·.lowerUs) first.lowerUs rest).1 ∧
      ∃ b, (first :: rest)[(scanMin (·.lowerUs) first.lowerUs rest).2]? = some b ∧
        b.lowerUs = (scanMin (·.lowerUs) first.lowerUs rest).1 := by
  obtain ⟨hinit, hrest, hfrom⟩ := scan_least (·.lowerUs) rest 1 (first.lowerUs, 0)
  have hat : ∃ b, (first :: rest)[(scanMin (·.lowerUs) first.lowerUs rest).2]? = some b ∧
      b.lowerUs = (scanMin (·.lowerUs) first.lowerUs rest).1 := by
    rcases hfrom with hsame | ⟨i, b, hb, hres⟩
    · exact ⟨first, by rw [scanMin, hsame]; rfl, by rw [scanMin, hsame]⟩
    · refine ⟨b, ?_, by rw [scanMin, hres]⟩
      rw [scanMin, hres, Nat.add_comm, List.getElem?_cons_succ, hb]
  obtain ⟨b, hb, hval⟩ := hat
  refine ⟨⟨⟨b, List.mem_of_getElem? hb, hval⟩, ?_⟩, b, hb, hval⟩
  rintro t ⟨c, hc, rfl⟩
  rcases List.mem_cons.mp hc with rfl | hc
  · exact hinit
  · exact hrest c hc

theorem scanMax_isGreatest (first : RTreeTemporalBox) (rest : List RTreeTemporalBox) :
    IsGreatest (lowers (first :: rest)) (scanMax (·.lowerUs) first.lowerUs rest).1 := by
  -- the greatest is the least of the reversed order
  obtain ⟨hinit, hrest, hfrom⟩ := @scan_least Intᵒᵈ _ (·.lowerUs) rest 1 (first.lowerUs, 0)
  constructor
  · rcases hfrom with hsame | ⟨i, b, hb, hres⟩
    · exact ⟨first, List.mem_cons_self, (congrArg Prod.fst hsame).symm⟩
    · exact ⟨b, List.mem_cons_of_mem _ (List.mem_of_getElem? hb), (congrArg Prod.fst hres).symm⟩
  · rintro t ⟨c, hc, rfl⟩
    rcases List.mem_cons.mp hc with rfl | hc
    · exact hinit
    · exact hrest c hc

/-! ## The midpoint -/

/-- `(min_lower + max_lower) / 2` with wrapping addition and truncating division. -/
def midpoint (lo hi : Int) : Int := (wrap64 (lo + hi)).tdiv 2

/-- C's division by two: down from above, up from below. -/
theorem tdiv_two (n : Int) : n.tdiv 2 = if 0 ≤ n then n / 2 else -(-n / 2) := by
  split
  · exact Int.tdiv_eq_ediv_of_nonneg ‹_›
  · rw [← Int.tdiv_eq_ediv_of_nonneg (by omega), Int.neg_tdiv, Int.neg_neg]

/-- The midpoint formula is sound at `lo`, `hi`: the sum does not wrap around from below, and the two are
    not neighbours up to zero, whose midpoint is rounded up to `hi`. -/
def MidpointOk (lo hi : Int) : Prop := pgInt64Min ≤ lo + hi ∧ (hi = lo + 1 → 0 < hi)

instance (lo hi : Int) : Decidable (MidpointOk lo hi) := inferInstanceAs (Decidable (_ ∧ _))

section Midpoint
variable {lo hi : Int}

theorem midpoint_lt (hhi : hi ≤ pgInt64Max) (hlt : lo < hi) (hok : MidpointOk lo hi) :
    midpoint lo hi < hi := by
  obtain ⟨hsum, hnear⟩ := hok
  unfold midpoint
  rw [tdiv_two]
  by_cases htop : lo + hi ≤ pgInt64Max
  · rw [wrap64_of_range hsum htop]
    split <;> omega
  · rw [wrap64_of_gt (by omega) (by unfold pgInt64Max at *; omega)]
    unfold pgInt64Max at *
    split <;> omega

theorem midpointOk_of_lt (hlo : pgInt64Min ≤ lo) (hle : lo ≤ hi) (hmid : midpoint lo hi < hi) :
    MidpointOk lo hi := by
  unfold midpoint at hmid
  rw [tdiv_two] at hmid
  constructor
  · -- a sum that wraps from below has a midpoint of zero or more, above both
    by_contra hsum
    rw [wrap64_of_lt (by unfold pgInt64Min at *; omega) (by omega)] at hmid
    unfold pgInt64Min at *
    split at hmid <;> omega
  · intro hnear
    by_contra hneg
    by_cases hsum : pgInt64Min ≤ lo + hi
    · rw [wrap64_of_range hsum (by unfold pgInt64Max; omega)] at hmid
      split at hmid <;> omega
    · rw [wrap64_of_lt (by unfold pgInt64Min at *; omega) (by omega)] at hmid
      unfold pgInt64Min at *
      split at hmid <;> omega

end Midpoint

/-! ## The cut -/

/-- Every lower bound on the left is at most every lower bound on the right. -/
def TimeCut (items : List RTreeTemporalBox) (sides : List Nat × List Nat) : Prop :=
  ∀ i ∈ sides.1, ∀ j ∈ sides.2, ∀ a b, items[i]? = some a → items[j]? = some b → a.lowerUs ≤ b.lowerUs

section Cut
variable {first : RTreeTemporalBox} {rest : List RTreeTemporalBox} {m : Int}

theorem getD_eq_of_getElem? {items : List RTreeTemporalBox} {i : Nat} {a d : RTreeTemporalBox}
    (h : items[i]? = some a) : items.getD i d = a := by
  rw [List.getD_eq_getElem?_getD, h, Option.getD_some]

/-- The positions up to the cut `m`. -/
def below (first : RTreeTemporalBox) (rest : List RTreeTemporalBox) (m : Int) (i : Nat) : Bool :=
  decide (((first :: rest).getD i first).lowerUs ≤ m)

/-- A cut by value is a cut in time. -/
theorem timeCut_filter (is : List Nat) :
    TimeCut (first :: rest) (is.filter (below first rest m), is.filter (fun i => !below first rest m i)) := by
  intro i hi j hj a b ha hb
  obtain ⟨-, hle⟩ := List.mem_filter.mp hi
  obtain ⟨-, hgt⟩ := List.mem_filter.mp hj
  simp only [below, getD_eq_of_getElem? ha, decide_eq_true_eq] at hle
  simp only [below, getD_eq_of_getElem? hb, Bool.not_eq_true', decide_eq_false_iff_not, not_le] at hgt
  exact hle.trans hgt.le

/-- The smallest item alone on the left is a cut in time, whatever is on the right. -/
theorem timeCut_min (js : List Nat) :
    TimeCut (first :: rest) ([(scanMin (·.lowerUs) first.lowerUs rest).2], js) := by
  intro i hi j _ a b ha hb
  obtain ⟨⟨-, hleast⟩, c, hc, hval⟩ := scanMin_isLeast first rest
  rw [List.mem_singleton.mp hi, hc] at ha
  cases ha
  rw [hval]
  exact hleast ⟨b, List.mem_of_getElem? hb, rfl⟩

/-- The last item alone on the right is a cut in time exactly if none comes later. -/
theorem timeCut_last_iff {hi : Int} (hhi : IsGreatest (lowers (first :: rest)) hi) :
    TimeCut (first :: rest) (List.range rest.length, [rest.length]) ↔
      ((first :: rest).getLast (List.cons_ne_nil _ _)).lowerUs = hi := by
  have hlast : (first :: rest)[rest.length]? = some ((first :: rest).getLast (List.cons_ne_nil _ _)) := by
    rw [List.getLast_eq_getElem, List.getElem?_eq_getElem (by simp)]
    rfl
  constructor
  · intro hcut
    obtain ⟨⟨a, ha, rfl⟩, hub⟩ := hhi
    obtain ⟨i, hi⟩ := List.mem_iff_getElem?.mp ha
    have hle : ((first :: rest).getLast (List.cons_ne_nil _ _)).lowerUs ≤ a.lowerUs :=
      hub ⟨_, List.getLast_mem _, rfl⟩
    have hlt : i < rest.length + 1 := (List.getElem?_eq_some_iff.mp hi).1
    -- the greatest is the last one itself or on the left
    rcases Nat.lt_succ_iff_lt_or_eq.mp hlt with hlt | rfl
    · exact le_antisymm hle
        (hcut i (List.mem_range.mpr hlt) rest.length (List.mem_singleton.mpr rfl) a _ hi hlast)
    · rw [hlast] at hi
      cases hi
      rfl
  · intro heq i _ j hj a b ha hb
    rw [List.mem_singleton.mp hj, hlast] at hb
    cases hb
    rw [heq]
    exact hhi.2 ⟨a, List.mem_of_getElem? ha, rfl⟩

/-- The branches of `tr_split_current_only`: all above the midpoint, all up to it, or a cut by value. -/
theorem trSplitCurrentOnly_cases (first : RTreeTemporalBox) (rest : List RTreeTemporalBox) :
    let lo := (scanMin (·.lowerUs) first.lowerUs rest).1
    let hi := (scanMax (·.lowerUs) first.lowerUs rest).1
    (hi ≤ midpoint lo hi ∧ trSplitCurrentOnly first rest = (List.range rest.length, [rest.length])) ∨
      (midpoint lo hi < hi ∧ TimeCut (first :: rest) (trSplitCurrentOnly first rest)) := by
  intro lo hi
  obtain ⟨⟨a, ha, halo⟩, hub⟩ := scanMax_isGreatest first rest
  set m := midpoint lo hi with hm
  have hsplit : trSplitCurrentOnly first rest =
      if (List.range (rest.length + 1)).filter (below first rest m) = [] then
        ([(scanMin (·.lowerUs) first.lowerUs rest).2],
          (List.range (rest.length + 1)).filter (fun i => i != (scanMin (·.lowerUs) first.lowerUs rest).2))
      else if (List.range (rest.length + 1)).filter (fun i => !below first rest m i) = [] then
        (((List.range (rest.length + 1)).filter (below first rest m)).dropLast,
          [((List.range (rest.length + 1)).filter (below first rest m)).getLastD 0])
      else ((List.range (rest.length + 1)).filter (below first rest m),
        (List.range (rest.length + 1)).filter (fun i => !below first rest m i)) := rfl
  by_cases hle : hi ≤ m
  · left
    refine ⟨hle, ?_⟩
    have hall : ∀ i ∈ List.range (rest.length + 1), below first rest m i = true := by
      intro i hi'
      have hlen : i < (first :: rest).length := List.mem_range.mp hi'
      have hget := List.getElem?_eq_getElem hlen
      simp only [below, getD_eq_of_getElem? hget, decide_eq_true_eq]
      exact (hub ⟨_, List.mem_of_getElem? hget, rfl⟩).trans hle
    have hleft : (List.range (rest.length + 1)).filter (below first rest m)
        = List.range (rest.length + 1) := List.filter_eq_self.mpr hall
    have hright : (List.range (rest.length + 1)).filter (fun i => !below first rest m i) = [] := by
      rw [List.filter_eq_nil_iff]
      intro i hi'
      simp [hall i hi']
    rw [hsplit, hleft, hright, if_neg (by simp), if_pos rfl, List.range_succ, List.dropLast_concat]
    simp [List.getLastD_eq_getLast?]
  · right
    refine ⟨lt_of_not_ge hle, ?_⟩
    rw [hsplit]
    split
    · exact timeCut_min _
    · rw [if_neg]
      · exact timeCut_filter _
      · -- the largest item is on the right
        obtain ⟨i, hi'⟩ := List.mem_iff_getElem?.mp ha
        rw [List.filter_eq_nil_iff]
        intro hnone
        have hlt : i < rest.length + 1 := (List.getElem?_eq_some_iff.mp hi').1
        have hbelow := hnone i (List.mem_range.mpr hlt)
        simp only [below, getD_eq_of_getElem? hi', Bool.not_eq_true', decide_eq_false_iff_not, not_not] at hbelow
        exact hle (halo.symm.trans_le hbelow)

end Cut

/-- **The current-only split is a cut in time exactly if the midpoint formula is sound or the last item is a
    latest one.** When all items are up to the "midpoint", the item moved to the right is the last one. -/
theorem currentOnly_timeCut_iff (first second : RTreeTemporalBox) (rest : List RTreeTemporalBox)
    {lo hi : Int}
    (hrange : ∀ b ∈ first :: second :: rest, pgInt64Min ≤ b.lowerUs ∧ b.lowerUs ≤ pgInt64Max)
    (hlo : IsLeast (lowers (first :: second :: rest)) lo)
    (hhi : IsGreatest (lowers (first :: second :: rest)) hi) :
    TimeCut (first :: second :: rest) (trSplitCurrentOnly first (second :: rest)) ↔
      MidpointOk lo hi ∨
        ((first :: second :: rest).getLast (List.cons_ne_nil _ _)).lowerUs = hi := by
  have hcases := trSplitCurrentOnly_cases first (second :: rest)
  rw [(scanMin_isLeast first (second :: rest)).1.unique hlo,
    (scanMax_isGreatest first (second :: rest)).unique hhi] at hcases
  have hlohi : lo ≤ hi := hlo.2 hhi.1
  obtain ⟨a, ha, rfl⟩ := hlo.1
  obtain ⟨b, hb, rfl⟩ := hhi.1
  rcases hcases with ⟨hmid, hsplit⟩ | ⟨hmid, hcut⟩
  · rw [hsplit]
    show TimeCut _ (List.range (second :: rest).length, [(second :: rest).length]) ↔ _
    rw [timeCut_last_iff hhi]
    refine ⟨Or.inr, ?_⟩
    rintro (hok | hlast)
    · -- a sound midpoint is below the largest item unless all items are equal
      have heq : a.lowerUs = b.lowerUs := by
        by_contra hne
        have hlt := midpoint_lt (hrange b hb).2 (lt_of_le_of_ne hlohi hne) hok
        omega
      apply le_antisymm
      · exact hhi.2 ⟨_, List.getLast_mem _, rfl⟩
      · rw [← heq]
        exact hlo.2 ⟨_, List.getLast_mem _, rfl⟩
    · exact hlast
  · exact ⟨fun _ => Or.inl (midpointOk_of_lt (hrange a ha).1 hlohi hmid), fun _ => hcut⟩

/-- The box of a current row with attribute value 10 from time `t` on. -/
def currentSince (t : Int) : RTreeTemporalBox :=
  { lowerUs := t, upperUs := pgInt64Max, attrLo := 10, attrHi := 10, dims := 2
    flags := { upperInf := true } }

/-- Two rows of 0 and 10 are cut in between. -/
theorem currentOnly_timeCut_since_zero :
    TimeCut [currentSince 0, currentSince 10] (trSplitCurrentOnly (currentSince 0) [currentSince 10]) :=
  (currentOnly_timeCut_iff (currentSince 0) (currentSince 10) []
    (by decide) (scanMin_isLeast _ _).1 (scanMax_isGreatest _ _)).mpr (Or.inl (by decide))

/-- Rows of -2 and -3, in this order: the midpoint of -3 and -2 is -2, so both are up to it, and the repair
    moves the earlier one to the right. -/
theorem currentOnly_split_no_timeCut :
    trPicksplit [currentSince (-2), currentSince (-3)] = ([0], [1]) ∧
      trSplitCurrentOnly (currentSince (-2)) [currentSince (-3)] = ([0], [1]) ∧
      ¬ TimeCut [currentSince (-2), currentSince (-3)]
        (trSplitCurrentOnly (currentSince (-2)) [currentSince (-3)]) := by
  refine ⟨by decide, by decide, ?_⟩
  intro hcut
  have hle := hcut 0 (by decide) 1 (by decide) _ _ rfl rfl
  exact absurd hle (by decide)

/-! ## Extents -/

/-- A box as decoded from a stored two-dimensional key: the fields of their machine types, the bounds in
    order, and `UPPER_INF` exactly at the end of time. -/
structure PlaneBox (b : RTreeTemporalBox) : Prop where
  nonempty : b.flags.empty = false
  dims : b.dims = 2
  lower : pgInt64Min ≤ b.lowerUs
  time : b.lowerUs ≤ b.upperUs
  upper : b.upperUs ≤ pgInt64Max
  attrLo : pgInt32Min ≤ b.attrLo
  attr : b.attrLo ≤ b.attrHi
  attrHi : b.attrHi ≤ pgInt32Max
  openEnded : b.flags.upperInf = true ↔ b.upperUs = pgInt64Max

/-- `(int64) (RTREE_COORD_NORM_TIME_MAX * 0.9)`, where an open-ended box is taken to end. -/
def timeCap : Int := 8301034833169298226

/-- The end the width of a box is measured to. -/
def timeEnd (b : RTreeTemporalBox) : Int :=
  if b.flags.upperInf then (if b.lowerUs > timeCap then b.lowerUs + 1 else timeCap) else b.upperUs

/-- The extent in time, without wrap-around. -/
def timeExtent (b : RTreeTemporalBox) : Int := timeEnd b - b.lowerUs

/-- The extent in the attribute, without wrap-around. -/
def attrExtent (b : RTreeTemporalBox) : Int := b.attrHi - b.attrLo

section Extents
variable {b c : RTreeTemporalBox}

/-- The union of two such boxes is one. -/
theorem PlaneBox.union (hc : PlaneBox c) (hb : PlaneBox b) : PlaneBox (trUnion c b) := by
  have hcu := hc.upper
  have hbu := hb.upper
  rw [trUnion_of_nonempty hc.nonempty hb.nonempty]
  refine ⟨rfl, ?_, le_min hc.lower hb.lower, ?_, max_le hcu hbu, le_min hc.attrLo hb.attrLo, ?_,
    max_le hc.attrHi hb.attrHi, ?_⟩
  · show max c.dims b.dims = 2
    rw [hc.dims, hb.dims, max_self]
  · exact (min_le_left _ _).trans (hc.time.trans (le_max_left _ _))
  · exact (min_le_left _ _).trans (hc.attr.trans (le_max_left _ _))
  · show (c.flags.upperInf || b.flags.upperInf) = true ↔ max c.upperUs b.upperUs = pgInt64Max
    rw [Bool.or_eq_true, hc.openEnded, hb.openEnded]
    omega

theorem effectiveUpper_id (l : Int) :
    effectiveUpper id l = if l > timeCap then wrap64 (l + 1) else timeCap := by
  have hcap : ⌊id (coordNormTimeMax id * id (9 / 10))⌋ = timeCap := by
    rw [Int.floor_eq_iff]
    norm_num [coordNormTimeMax, timeCap]
  unfold effectiveUpper
  rw [hcap]

/-- What a subtraction of fields gives: the extent, or something negative if it does not fit. -/
theorem wrap64_extent {e : Int} (hpos : 0 ≤ e) (hlt : e < 2 ^ 64) :
    max (wrap64 e) 0 = if e ≤ pgInt64Max then e else 0 := by
  split
  · rw [wrap64_of_range (by unfold pgInt64Min; omega) ‹_›, max_eq_left hpos]
  · rw [wrap64_of_gt (by omega) (by unfold pgInt64Max; omega), max_eq_right (by omega)]

theorem normalizeTime_id {t : Int} (h : t ≤ pgInt64Max) :
    normalizeTime id t = ((max t 0 : Int) : ℚ) / pgInt64Max := by
  unfold normalizeTime
  split
  · rw [max_eq_right (by omega)]
    simp
  · rw [if_neg (by omega), max_eq_left (by omega)]
    simp [coordNormTimeMax, pgInt64Max]

theorem timeExtent_nonneg (hb : PlaneBox b) : 0 ≤ timeExtent b := by
  have htime := hb.time
  unfold timeExtent timeEnd
  split_ifs <;> omega

theorem timeExtent_lt (hb : PlaneBox b) : timeExtent b < 2 ^ 64 := by
  have hlower := hb.lower
  have hupper := hb.upper
  unfold timeExtent timeEnd timeCap
  unfold pgInt64Min at hlower
  unfold pgInt64Max at hupper
  split_ifs <;> omega

/-- The subtraction of `width_time_normalized` wraps the extent. -/
theorem widthTime_eq_normalizeTime (hb : PlaneBox b) :
    widthTimeNormalized id b = normalizeTime id (wrap64 (timeExtent b)) := by
  unfold widthTimeNormalized timeExtent timeEnd
  rw [hb.nonempty, if_neg (by decide)]
  split
  · rw [effectiveUpper_id]
    split
    · -- past the cap the end is one further, which itself may wrap
      congr 1
      unfold wrap64
      rw [Int.bmod_sub_bmod]
    · rfl
  · rfl

/-- The extent that `width_time_normalized` sees: nothing when it does not fit. -/
def seenTime (b : RTreeTemporalBox) : Int := if timeExtent b ≤ pgInt64Max then timeExtent b else 0

theorem wrap64_le (n : Int) : wrap64 n ≤ pgInt64Max := by
  have h := Int.bmod_lt (x := n) (m := 2 ^ 64) (by decide)
  unfold wrap64 pgInt64Max
  omega

theorem widthTime_eq (hb : PlaneBox b) : widthTimeNormalized id b = (seenTime b : ℚ) / pgInt64Max := by
  rw [widthTime_eq_normalizeTime hb, normalizeTime_id (wrap64_le _),
    wrap64_extent (timeExtent_nonneg hb) (timeExtent_lt hb)]
  rfl

theorem widthTime_le_iff (hc : PlaneBox c) (hb : PlaneBox b) :
    widthTimeNormalized id c ≤ widthTimeNormalized id b ↔ seenTime c ≤ seenTime b := by
  have hpos : (0 : ℚ) < pgInt64Max := by norm_num [pgInt64Max]
  rw [widthTime_eq hc, widthTime_eq hb, div_le_div_iff_of_pos_right hpos]
  exact Int.cast_le

/-- `normalize_attr` cuts to 1..100 and scales. -/
theorem normalizeAttr_id (a : Int) : normalizeAttr id a = (((max 1 (min a 100) : Int) : ℚ) - 1) / 99 := by
  unfold normalizeAttr
  split_ifs with hlow hhigh
  · rw [min_eq_left (by omega), max_eq_left hlow]
    norm_num
  · rw [min_eq_right hhigh, max_eq_right (by decide)]
    norm_num
  · rw [min_eq_left (by omega), max_eq_right (by omega)]
    norm_num

/-- The extent that `width_attr_normalized` sees. -/
def seenAttr (b : RTreeTemporalBox) : Int :=
  if attrExtent b ≤ pgInt32Max then max 1 (min (attrExtent b) 100) else 1

theorem widthAttr_eq (hb : PlaneBox b) : widthAttrNormalized id b = ((seenAttr b : ℚ) - 1) / 99 := by
  have hattr := hb.attr
  have hlo := hb.attrLo
  have hhi := hb.attrHi
  unfold widthAttrNormalized seenAttr attrExtent
  rw [hb.dims, if_neg (by decide), normalizeAttr_id]
  unfold pgInt32Min pgInt32Max at *
  split
  · rw [wrap32_of_range (by unfold pgInt32Min; omega) ‹_›]
  · -- a difference that does not fit comes out negative
    rw [wrap32_of_gt (by unfold pgInt32Max; omega) (by unfold pgInt32Max; omega), max_eq_left (by omega)]

theorem widthAttr_le_iff (hc : PlaneBox c) (hb : PlaneBox b) :
    widthAttrNormalized id c ≤ widthAttrNormalized id b ↔ seenAttr c ≤ seenAttr b := by
  rw [widthAttr_eq hc, widthAttr_eq hb, div_le_div_iff_of_pos_right (by norm_num), sub_le_sub_iff_right]
  exact Int.cast_le

theorem widthTime_nonneg (hb : PlaneBox b) : 0 ≤ widthTimeNormalized id b := by
  have hpos := timeExtent_nonneg hb
  have hseen : 0 ≤ seenTime b := by
    unfold seenTime
    split <;> omega
  rw [widthTime_eq hb]
  exact div_nonneg (by exact_mod_cast hseen) (by norm_num [pgInt64Max])

theorem widthAttr_nonneg (hb : PlaneBox b) : 0 ≤ widthAttrNormalized id b := by
  have hseen : 1 ≤ seenAttr b := by
    unfold seenAttr
    split <;> omega
  rw [widthAttr_eq hb]
  exact div_nonneg (sub_nonneg.mpr (by exact_mod_cast hseen)) (by norm_num)

end Extents

/-! ## The penalty -/

/-- When a box does not shrink in either direction by taking in another: the extents of the union fit the
    machine integers and the cap of open-ended boxes leaves it the extent in time it had, unless the width
    of the box itself is taken for 0. -/
@[mk_iff] structure KeepsWidth (c b : RTreeTemporalBox) : Prop where
  time : timeExtent c = 0 ∨ pgInt64Max < timeExtent c ∨
    timeExtent (trUnion c b) ≤ pgInt64Max ∧ timeExtent c ≤ timeExtent (trUnion c b)
  attr : attrExtent c ≤ 1 ∨ pgInt32Max < attrExtent c ∨ attrExtent (trUnion c b) ≤ pgInt32Max

section Penalty
variable {b c : RTreeTemporalBox}

theorem seenTime_le_iff (hc : PlaneBox c) (hu : PlaneBox b) :
    seenTime c ≤ seenTime b ↔ timeExtent c = 0 ∨ pgInt64Max < timeExtent c ∨
      timeExtent b ≤ pgInt64Max ∧ timeExtent c ≤ timeExtent b := by
  have hcpos := timeExtent_nonneg hc
  have hupos := timeExtent_nonneg hu
  unfold seenTime
  split_ifs <;> omega

theorem seenAttr_union_le_iff (hc : PlaneBox c) (hb : PlaneBox b) :
    seenAttr c ≤ seenAttr (trUnion c b) ↔
      attrExtent c ≤ 1 ∨ pgInt32Max < attrExtent c ∨ attrExtent (trUnion c b) ≤ pgInt32Max := by
  have hgrow : attrExtent c ≤ attrExtent (trUnion c b) := by
    rw [trUnion_of_nonempty hc.nonempty hb.nonempty]
    show c.attrHi - c.attrLo ≤ max c.attrHi b.attrHi - min c.attrLo b.attrLo
    omega
  unfold seenAttr
  split_ifs <;> omega

/-- **The widths of the union are at least those of the box exactly if it keeps its width.** -/
theorem widths_union_iff (hc : PlaneBox c) (hb : PlaneBox b) :
    widthTimeNormalized id c ≤ widthTimeNormalized id (trUnion c b) ∧
      widthAttrNormalized id c ≤ widthAttrNormalized id (trUnion c b) ↔ KeepsWidth c b := by
  rw [widthTime_le_iff hc (hc.union hb), widthAttr_le_iff hc (hc.union hb),
    seenTime_le_iff hc (hc.union hb), seenAttr_union_le_iff hc hb, keepsWidth_iff]

theorem area_le_of_widths (hc : PlaneBox c)
    (htime : widthTimeNormalized id c ≤ widthTimeNormalized id b)
    (hattr : widthAttrNormalized id c ≤ widthAttrNormalized id b) :
    areaNormalized id c ≤ areaNormalized id b := by
  unfold areaNormalized
  exact mul_le_mul htime hattr (widthAttr_nonneg hc) ((widthTime_nonneg hc).trans htime)

/-- The penalty is the growth of the area, up to a positive factor. -/
theorem penalty_eq (c b : RTreeTemporalBox) : ∃ factor : ℚ, 0 < factor ∧
    trPenaltyNormalized id c b
      = (areaNormalized id (trUnion c b) - areaNormalized id c) * factor := by
  unfold trPenaltyNormalized
  simp only [id]
  split_ifs
  · exact ⟨1 / 2, by norm_num, rfl⟩
  · exact ⟨2, by norm_num, rfl⟩
  · exact ⟨1, by norm_num, (mul_one _).symm⟩

/-- Taking in what it contains changes neither extent. -/
theorem extents_union_of_contains (hc : PlaneBox c) (hb : PlaneBox b) (h : rtreeBoxContains c b = true) :
    timeExtent (trUnion c b) = timeExtent c ∧ attrExtent (trUnion c b) = attrExtent c := by
  obtain ⟨-, -, hlo, hhi, hlower, hupper⟩ := rtreeBoxContains_iff.mp h
  -- an open end inside an open end
  have hinf : (c.flags.upperInf || b.flags.upperInf) = c.flags.upperInf := by
    cases hbinf : b.flags.upperInf with
    | false => exact Bool.or_false _
    | true =>
        have hend := hb.openEnded.mp hbinf
        have hcinf := hc.openEnded.mpr (le_antisymm hc.upper (hend ▸ hupper))
        rw [hcinf]
        rfl
  rw [trUnion_of_nonempty hc.nonempty hb.nonempty]
  unfold timeExtent timeEnd attrExtent
  simp only [hinf, min_eq_left hlower, max_eq_left hupper, min_eq_left hlo, max_eq_left hhi, and_self]

theorem penalty_eq_zero_of_contains (hc : PlaneBox c) (hb : PlaneBox b)
    (h : rtreeBoxContains c b = true) : trPenaltyNormalized id c b = 0 := by
  obtain ⟨htime, hattr⟩ := extents_union_of_contains hc hb h
  obtain ⟨factor, -, heq⟩ := penalty_eq c b
  have harea : areaNormalized id (trUnion c b) = areaNormalized id c := by
    unfold areaNormalized
    rw [widthTime_eq (hc.union hb), widthTime_eq hc, widthAttr_eq (hc.union hb), widthAttr_eq hc]
    unfold seenTime seenAttr
    rw [htime, hattr]
  rw [heq, harea, sub_self, zero_mul]

/-- After the epoch, with attribute values from 0 on, nothing wraps: a box that starts and ends by the cap
    keeps its width. -/
theorem KeepsWidth.of_after_epoch (hc : PlaneBox c) (hb : PlaneBox b) (hlower : 0 ≤ c.lowerUs ∧ 0 ≤ b.lowerUs)
    (hcap : c.lowerUs < timeCap ∧ timeEnd c ≤ timeCap) (hattr : 0 ≤ c.attrLo ∧ 0 ≤ b.attrLo) :
    KeepsWidth c b := by
  obtain ⟨hstart, hend⟩ := hcap
  have hcu := hc.upper
  have hbu := hb.upper
  have hch := hc.attrHi
  have hbh := hb.attrHi
  have hcapmax : timeCap ≤ pgInt64Max := by decide
  rw [keepsWidth_iff, trUnion_of_nonempty hc.nonempty hb.nonempty]
  unfold timeExtent timeEnd attrExtent at *
  dsimp only
  refine ⟨Or.inr (Or.inr ?_), Or.inr (Or.inr (by omega))⟩
  -- the end of the union is the cap if either box is open-ended, and the later end otherwise
  cases hcinf : c.flags.upperInf with
  | true =>
      simp only [hcinf, Bool.true_or, if_true] at hend ⊢
      split_ifs at hend ⊢ <;> omega
  | false =>
      simp only [hcinf, Bool.false_or, Bool.false_eq_true, if_false] at hend ⊢
      split_ifs <;> omega

end Penalty

/-- **Enlargement never shrinks a box, and the penalty is never negative, exactly for the boxes that keep
    their width**; the penalty of a box it already contains is 0 in any case. -/
theorem penalty_nonneg_iff {c b : RTreeTemporalBox} (hc : PlaneBox c) (hb : PlaneBox b) :
    (widthTimeNormalized id c ≤ widthTimeNormalized id (trUnion c b) ∧
      widthAttrNormalized id c ≤ widthAttrNormalized id (trUnion c b) ∧
      areaNormalized id c ≤ areaNormalized id (trUnion c b) ∧
      0 ≤ trPenaltyNormalized id c b ∧
      (rtreeBoxContains c b = true → trPenaltyNormalized id c b = 0)) ↔ KeepsWidth c b := by
  constructor
  · rintro ⟨htime, hattr, -⟩
    exact (widths_union_iff hc hb).mp ⟨htime, hattr⟩
  · intro hkeeps
    obtain ⟨htime, hattr⟩ := (widths_union_iff hc hb).mpr hkeeps
    have harea := area_le_of_widths hc htime hattr
    obtain ⟨factor, hpos, heq⟩ := penalty_eq c b
    refine ⟨htime, hattr, harea, ?_, penalty_eq_zero_of_contains hc hb⟩
    rw [heq]
    exact mul_nonneg (sub_nonneg.mpr harea) hpos.le

/-- A closed box over the attribute values `lo..hi` and the times 0 to `upper`. -/
def closedBox (lo hi upper : Int) : RTreeTemporalBox :=
  { lowerUs := 0, upperUs := upper, attrLo := lo, attrHi := hi, dims := 2, flags := {} }

/-- Two current rows. -/
theorem penalty_nonneg_current :
    0 ≤ trPenaltyNormalized id (currentSince 10) (currentSince 0) ∧
      areaNormalized id (currentSince 10)
        ≤ areaNormalized id (trUnion (currentSince 10) (currentSince 0)) := by
  have hten : PlaneBox (currentSince 10) := by constructor <;> decide
  have hzero : PlaneBox (currentSince 0) := by constructor <;> decide
  have h := (penalty_nonneg_iff hten hzero).mpr
    (KeepsWidth.of_after_epoch hten hzero (by decide) (by decide) (by decide))
  exact ⟨h.2.2.2.1, h.2.2.1⟩

/-- Attribute values from -2000000000 to 2000000000 are too far apart for `int32`, and a closed box that
    ends past the cap is wider than its union with a current row: both enlargements have a negative
    penalty. -/
theorem penalty_negative :
    (PlaneBox (closedBox 0 2000000000 1000) ∧ PlaneBox (closedBox (-2000000000) 0 1000) ∧
      trPenaltyNormalized id (closedBox 0 2000000000 1000) (closedBox (-2000000000) 0 1000) < 0) ∧
    (PlaneBox (closedBox 0 50 9000000000000000000) ∧ PlaneBox (currentSince 0) ∧
      trPenaltyNormalized id (closedBox 0 50 9000000000000000000) (currentSince 0) < 0) := by
  refine ⟨⟨?_, ?_, by decide +kernel⟩, ?_, ?_, by decide +kernel⟩
  all_goals constructor <;> decide

end TemporalRTree
