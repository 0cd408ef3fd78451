import TemporalRTree.Model.Split

/-!
# `Correctness.Picksplit` — `tr_picksplit` partitions the items

Both algorithms, the midpoint cut of current-only pages with its two repairs and the linear split with its
greedy loop, put every index on exactly one side: the two index lists together are a permutation of
`0 .. n-1` (`trPicksplit_perm`). With two items or more neither side is empty (`trPicksplit_ne_nil`).
Nothing is assumed about the boxes, and nothing about the penalties the greedy loop compares: the results
are proved for `trPicksplitBy`, in which the outcome of each comparison is a parameter.
-/

namespace TemporalRTree

/-! ## The scans stay in range -/

/-- A scan that only ever moves to a position it visits ends in range. -/
theorem scan_idx_lt (better : RTreeTemporalBox → Int → Bool) (field : RTreeTemporalBox → Int) :
    ∀ (rest : List RTreeTemporalBox) (k : Nat) (acc : Int × Nat), acc.2 < k →
      ((rest.zipIdx k).foldl
        (fun acc p => if better p.1 acc.1 then (field p.1, p.2) else acc) acc).2 < k + rest.length := by
  intro rest
  induction rest with
  | nil => intro k acc h; simpa using h
  | cons b rest ih =>
      intro k acc h
      rw [List.zipIdx_cons, List.foldl_cons, List.length_cons, ← Nat.add_assoc, Nat.add_right_comm]
      apply ih
      split
      · exact Nat.lt_succ_self k
      · exact Nat.lt_succ_of_lt h

theorem scanMin_idx_lt (field : RTreeTemporalBox → Int) (init : Int) (rest : List RTreeTemporalBox) :
    (scanMin field init rest).2 < rest.length + 1 := by
  have h := scan_idx_lt (fun b m => decide (field b < m)) field rest 1 (init, 0) Nat.zero_lt_one
  simpa [scanMin, Nat.add_comm] using h

theorem scanMax_idx_lt (field : RTreeTemporalBox → Int) (init : Int) (rest : List RTreeTemporalBox) :
    (scanMax field init rest).2 < rest.length + 1 := by
  have h := scan_idx_lt (fun b m => decide (field b > m)) field rest 1 (init, 0) Nat.zero_lt_one
  simpa [scanMax, Nat.add_comm] using h

/-! ## Current-only pages -/

/-- One index and the others are all of them. -/
theorem perm_range_of_lt {m n : Nat} (h : m < n) :
    (m :: (List.range n).filter (fun i => i != m)).Perm (List.range n) := by
  rw [← List.nodup_range.erase_eq_filter]
  exact (List.perm_cons_erase (List.mem_range.mpr h)).symm

/-- **The midpoint cut partitions**, whichever repair was needed. -/
theorem trSplitCurrentOnly_perm (first : RTreeTemporalBox) (rest : List RTreeTemporalBox) :
    ((trSplitCurrentOnly first rest).1 ++ (trSplitCurrentOnly first rest).2).Perm
      (List.range (rest.length + 1)) := by
  simp only [trSplitCurrentOnly]
  split
  · exact perm_range_of_lt (scanMin_idx_lt _ _ _)
  · split
    · -- nothing on the right: the left side was everything, and its last item moves over
      next hleft hright =>
      rw [List.getLastD_eq_getLast?, List.getLast?_eq_getLast_of_ne_nil hleft, Option.getD_some,
        List.dropLast_append_getLast hleft]
      have hall := List.filter_append_perm
        (fun i => decide (((first :: rest).getD i first).lowerUs ≤
          (wrap64 ((scanMin (·.lowerUs) first.lowerUs rest).1 +
            (scanMax (·.lowerUs) first.lowerUs rest).1)).tdiv 2)) (List.range (rest.length + 1))
      rwa [hright, List.append_nil] at hall
    · exact List.filter_append_perm _ _

theorem trSplitCurrentOnly_ne_nil (first second : RTreeTemporalBox) (rest : List RTreeTemporalBox) :
    (trSplitCurrentOnly first (second :: rest)).1 ≠ [] ∧
      (trSplitCurrentOnly first (second :: rest)).2 ≠ [] := by
  have hperm := trSplitCurrentOnly_perm first (second :: rest)
  have hlen := hperm.length_eq
  simp only [List.length_append, List.length_range, List.length_cons] at hlen
  simp only [trSplitCurrentOnly] at hlen ⊢
  split
  · refine ⟨by simp, fun h => ?_⟩
    rw [if_pos (by assumption), h] at hlen
    simp at hlen
  · split
    · refine ⟨fun h => ?_, by simp⟩
      rw [if_neg (by assumption), if_pos (by assumption), h] at hlen
      simp at hlen
    · exact ⟨by assumption, by assumption⟩

/-! ## The linear split -/

/-- The two seeds are different positions of the array. -/
theorem pickSeeds_spec (first second : RTreeTemporalBox) (rest : List RTreeTemporalBox) :
    (pickSeeds first (second :: rest)).1 < rest.length + 2 ∧
    (pickSeeds first (second :: rest)).2 < rest.length + 2 ∧
    (pickSeeds first (second :: rest)).1 ≠ (pickSeeds first (second :: rest)).2 := by
  have hlt : ∀ seeds : Nat × Nat, seeds.1 < rest.length + 2 → seeds.2 < rest.length + 2 →
      (if seeds.1 = seeds.2 then (seeds.1, (seeds.1 + 1) % (rest.length + 2)) else seeds).1
          < rest.length + 2 ∧
      (if seeds.1 = seeds.2 then (seeds.1, (seeds.1 + 1) % (rest.length + 2)) else seeds).2
          < rest.length + 2 ∧
      (if seeds.1 = seeds.2 then (seeds.1, (seeds.1 + 1) % (rest.length + 2)) else seeds).1 ≠
        (if seeds.1 = seeds.2 then (seeds.1, (seeds.1 + 1) % (rest.length + 2)) else seeds).2 := by
    intro seeds h1 h2
    split
    · refine ⟨h1, Nat.mod_lt _ (by omega), ?_⟩
      rcases Nat.lt_or_ge (seeds.1 + 1) (rest.length + 2) with h | h
      · rw [Nat.mod_eq_of_lt h]; simp
      · have : seeds.1 + 1 = rest.length + 2 := by omega
        rw [this, Nat.mod_self]
        simp; omega
    · exact ⟨h1, h2, by assumption⟩
  have hmin := fun f i => scanMin_idx_lt f i (second :: rest)
  have hmax := fun f i => scanMax_idx_lt f i (second :: rest)
  simp only [List.length_cons] at hmin hmax
  simp only [pickSeeds, List.length_cons]
  -- the seeds come from the attribute scans, from the time scans, or are the positions 0 and 1
  apply hlt
  · split_ifs
    · exact hmin _ _
    · exact hmin _ _
    · exact hmin _ _
    · simp
  · split_ifs
    · exact hmax _ _
    · exact hmax _ _
    · exact hmax _ _
    · simp

/-- A turn of the greedy loop after its comparison: `toLeft` is the outcome of `pen_left < pen_right`. -/
def placeItem (toLeft : Bool) (box : RTreeTemporalBox) (i : Nat) (s : SplitSides) : SplitSides :=
  if toLeft then { s with left := s.left ++ [i], leftUnion := trUnion s.leftUnion box }
  else { s with right := s.right ++ [i], rightUnion := trUnion s.rightUnion box }

/-- `pen_left < pen_right` as the code computes it. -/
def penaltyLess (s : SplitSides) (box : RTreeTemporalBox) : Bool :=
  decide (trPenaltyNormalized Binary64.round s.leftUnion box
    < trPenaltyNormalized Binary64.round s.rightUnion box)

theorem assignItem_eq_placeItem (box : RTreeTemporalBox) (i : Nat) (s : SplitSides) :
    assignItem box i s = placeItem (penaltyLess s box) box i s := by
  unfold assignItem placeItem penaltyLess
  simp only [decide_eq_true_eq]

/-- One turn of the greedy loop adds the item to exactly one side. -/
theorem placeItem_perm (toLeft : Bool) (box : RTreeTemporalBox) (i : Nat) (s : SplitSides) :
    ((placeItem toLeft box i s).left ++ (placeItem toLeft box i s).right).Perm
      (i :: (s.left ++ s.right)) := by
  unfold placeItem
  split
  · simp only [List.append_assoc, List.singleton_append]
    exact List.perm_middle
  · simp only [← List.append_assoc]
    exact List.perm_append_singleton _ _

/-- The sides only grow. -/
theorem placeItem_ne_nil {toLeft : Bool} {box : RTreeTemporalBox} {i : Nat} {s : SplitSides}
    (hl : s.left ≠ []) (hr : s.right ≠ []) :
    (placeItem toLeft box i s).left ≠ [] ∧ (placeItem toLeft box i s).right ≠ [] := by
  unfold placeItem
  split <;> simp [hl, hr]

/-- The greedy loop over the items `is`, where `toLeft` gives the outcome of the comparison in each turn. -/
def greedy (toLeft : SplitSides → Nat → Bool) (boxAt : Nat → RTreeTemporalBox) (s1 s2 : Nat)
    (is : List Nat) (s : SplitSides) : SplitSides :=
  is.foldl (fun s i => if i = s1 ∨ i = s2 then s else placeItem (toLeft s i) (boxAt i) i s) s

/-- The greedy loop over `is` adds exactly the items of `is` that are no seeds. -/
theorem greedy_perm (toLeft : SplitSides → Nat → Bool) (boxAt : Nat → RTreeTemporalBox) (s1 s2 : Nat) :
    ∀ (is : List Nat) (s : SplitSides),
      ((greedy toLeft boxAt s1 s2 is s).left ++ (greedy toLeft boxAt s1 s2 is s).right).Perm
        (is.filter (fun i => !decide (i = s1 ∨ i = s2)) ++ (s.left ++ s.right)) := by
  intro is
  induction is with
  | nil => intro s; exact List.Perm.refl _
  | cons i is ih =>
      intro s
      simp only [greedy, List.foldl_cons]
      by_cases h : i = s1 ∨ i = s2
      · rw [if_pos h, List.filter_cons_of_neg (by simp only [h, decide_true, Bool.not_true]; decide)]
        exact ih s
      · rw [if_neg h, List.filter_cons_of_pos (by simpa using h)]
        refine (ih _).trans ?_
        refine ((placeItem_perm (toLeft s i) (boxAt i) i s).append_left _).trans ?_
        exact List.perm_middle

theorem greedy_ne_nil (toLeft : SplitSides → Nat → Bool) (boxAt : Nat → RTreeTemporalBox) (s1 s2 : Nat) :
    ∀ (is : List Nat) (s : SplitSides), s.left ≠ [] → s.right ≠ [] →
      (greedy toLeft boxAt s1 s2 is s).left ≠ [] ∧ (greedy toLeft boxAt s1 s2 is s).right ≠ [] := by
  intro is
  induction is with
  | nil => intro s hl hr; exact ⟨hl, hr⟩
  | cons i is ih =>
      intro s hl hr
      simp only [greedy, List.foldl_cons]
      split
      · exact ih s hl hr
      · obtain ⟨hl', hr'⟩ := @placeItem_ne_nil (toLeft s i) (boxAt i) i s hl hr
        exact ih _ hl' hr'

/-- `linearSplit` with the outcomes of its comparisons given by `toLeft`. -/
def linearSplitBy (toLeft : SplitSides → Nat → Bool) (first : RTreeTemporalBox)
    (rest : List RTreeTemporalBox) : List Nat × List Nat :=
  let items := first :: rest
  let seeds := pickSeeds first rest
  let start : SplitSides :=
    { left := [seeds.1], right := [seeds.2],
      leftUnion := items.getD seeds.1 first, rightUnion := items.getD seeds.2 first }
  let sides := greedy toLeft (fun i => items.getD i first) seeds.1 seeds.2 (List.range items.length) start
  (sides.left, sides.right)

theorem linearSplit_eq_by (first : RTreeTemporalBox) (rest : List RTreeTemporalBox) :
    linearSplit first rest
      = linearSplitBy (fun s i => penaltyLess s ((first :: rest).getD i first)) first rest := by
  simp only [linearSplit, linearSplitBy, greedy, assignItem_eq_placeItem]

/-- Two different positions and the others are all of them. -/
theorem perm_range_of_seeds {s1 s2 n : Nat} (h1 : s1 < n) (h2 : s2 < n) (hne : s1 ≠ s2) :
    ((List.range n).filter (fun i => !decide (i = s1 ∨ i = s2)) ++ ([s1] ++ [s2])).Perm
      (List.range n) := by
  have hseeds : ([s1] ++ [s2]).Perm ((List.range n).filter (fun i => decide (i = s1 ∨ i = s2))) := by
    rw [List.perm_ext_iff_of_nodup (by simp [hne]) (List.nodup_range.filter _)]
    intro a
    simp only [List.cons_append, List.nil_append, List.mem_cons, List.not_mem_nil, or_false,
      List.mem_filter, List.mem_range, decide_eq_true_eq]
    constructor
    · rintro (rfl | rfl)
      · exact ⟨h1, Or.inl rfl⟩
      · exact ⟨h2, Or.inr rfl⟩
    · exact fun h => h.2
  exact ((hseeds.append_left _).trans List.perm_append_comm).trans (List.filter_append_perm _ _)

/-- **The linear split partitions**, whatever its comparisons say. -/
theorem linearSplitBy_perm (toLeft : SplitSides → Nat → Bool) (first second : RTreeTemporalBox)
    (rest : List RTreeTemporalBox) :
    ((linearSplitBy toLeft first (second :: rest)).1 ++
      (linearSplitBy toLeft first (second :: rest)).2).Perm (List.range (rest.length + 2)) := by
  obtain ⟨h1, h2, hne⟩ := pickSeeds_spec first second rest
  exact (greedy_perm _ _ _ _ _ _).trans (perm_range_of_seeds h1 h2 hne)

/-! ## Dispatch -/

/-- `tr_picksplit` with the outcomes of the penalty comparisons given by `toLeft`. -/
def trPicksplitBy (toLeft : SplitSides → Nat → Bool) (items : List RTreeTemporalBox) :
    List Nat × List Nat :=
  match items with
  | [] => ([], [])
  | [_] => ([0], [])
  | first :: second :: rest =>
      if classifyPageType items = .currentOnly then trSplitCurrentOnly first (second :: rest)
      else linearSplitBy toLeft first (second :: rest)

/-- The code's own comparisons are one choice. -/
theorem exists_trPicksplit_eq_by (items : List RTreeTemporalBox) :
    ∃ toLeft, trPicksplit items = trPicksplitBy toLeft items := by
  match items with
  | [] => exact ⟨fun _ _ => true, rfl⟩
  | [_] => exact ⟨fun _ _ => true, rfl⟩
  | first :: second :: rest =>
      refine ⟨fun s i => penaltyLess s ((first :: second :: rest).getD i first), ?_⟩
      simp only [trPicksplit, trPicksplitBy, linearSplit_eq_by]

theorem trPicksplitBy_perm (toLeft : SplitSides → Nat → Bool) (items : List RTreeTemporalBox) :
    ((trPicksplitBy toLeft items).1 ++ (trPicksplitBy toLeft items).2).Perm
      (List.range items.length) := by
  match items with
  | [] => exact List.Perm.refl _
  | [_] => exact List.Perm.refl _
  | first :: second :: rest =>
      simp only [trPicksplitBy]
      split
      · exact trSplitCurrentOnly_perm first (second :: rest)
      · exact linearSplitBy_perm toLeft first second rest

theorem trPicksplitBy_ne_nil (toLeft : SplitSides → Nat → Bool) {items : List RTreeTemporalBox}
    (h : 2 ≤ items.length) :
    (trPicksplitBy toLeft items).1 ≠ [] ∧ (trPicksplitBy toLeft items).2 ≠ [] := by
  match items, h with
  | first :: second :: rest, _ =>
      simp only [trPicksplitBy]
      split
      · exact trSplitCurrentOnly_ne_nil first second rest
      · exact greedy_ne_nil _ _ _ _ _ _ (by simp) (by simp)

/-- **`tr_picksplit` partitions the indices of its items.** -/
theorem trPicksplit_perm (items : List RTreeTemporalBox) :
    ((trPicksplit items).1 ++ (trPicksplit items).2).Perm (List.range items.length) := by
  obtain ⟨toLeft, heq⟩ := exists_trPicksplit_eq_by items
  rw [heq]
  exact trPicksplitBy_perm toLeft items

/-- Two items or more leave neither side empty. -/
theorem trPicksplit_ne_nil {items : List RTreeTemporalBox} (h : 2 ≤ items.length) :
    (trPicksplit items).1 ≠ [] ∧ (trPicksplit items).2 ≠ [] := by
  obtain ⟨toLeft, heq⟩ := exists_trPicksplit_eq_by items
  rw [heq]
  exact trPicksplitBy_ne_nil toLeft h

/-- The index lists of a split of `n` items: a proper partition of the positions. -/
structure ProperPartition (n : Nat) (sides : List Nat × List Nat) : Prop where
  left_ne_nil : sides.1 ≠ []
  right_ne_nil : sides.2 ≠ []
  left_nodup : sides.1.Nodup
  right_nodup : sides.2.Nodup
  disjoint : sides.1.Disjoint sides.2
  mem_iff : ∀ i, i < n ↔ i ∈ sides.1 ∨ i ∈ sides.2

theorem ProperPartition.of_perm {n : Nat} {sides : List Nat × List Nat}
    (hperm : (sides.1 ++ sides.2).Perm (List.range n)) (hne : sides.1 ≠ [] ∧ sides.2 ≠ []) :
    ProperPartition n sides := by
  have hnodup : (sides.1 ++ sides.2).Nodup := hperm.nodup_iff.mpr List.nodup_range
  obtain ⟨hleft, hright, hdisj⟩ := List.nodup_append'.mp hnodup
  refine ⟨hne.1, hne.2, hleft, hright, hdisj, ?_⟩
  intro i
  rw [← List.mem_range, ← hperm.mem_iff, List.mem_append]

/-- **`tr_picksplit` is a proper partition** of two items or more: whatever the penalty comparisons of the
    greedy loop say in each turn, in particular as the code computes them. -/
theorem trPicksplit_properPartition (items : List RTreeTemporalBox) (h : 2 ≤ items.length) :
    (∀ toLeft, ProperPartition items.length (trPicksplitBy toLeft items)) ∧
      ProperPartition items.length (trPicksplit items) := by
  constructor
  · intro toLeft
    exact .of_perm (trPicksplitBy_perm toLeft items) (trPicksplitBy_ne_nil toLeft h)
  · exact .of_perm (trPicksplit_perm items) (trPicksplit_ne_nil h)

/-- Two open periods and three closed ones, two of them equal, and an empty box. -/
def mixedBoxes : List RTreeTemporalBox :=
  [{ lowerUs := 10, upperUs := 20, attrLo := 1, attrHi := 1, dims := 2, flags := {} },
    { lowerUs := 80, upperUs := pgInt64Max, attrLo := 9, attrHi := 9, dims := 2, flags := { upperInf := true } },
    emptyBox,
    { lowerUs := 85, upperUs := pgInt64Max, attrLo := 8, attrHi := 8, dims := 2, flags := { upperInf := true } },
    { lowerUs := 15, upperUs := 15, attrLo := 2, attrHi := 2, dims := 2, flags := {} },
    { lowerUs := 10, upperUs := 20, attrLo := 1, attrHi := 1, dims := 2, flags := {} }]

/-- The greedy loop has four turns on them. -/
theorem trPicksplit_properPartition_mixed :
    classifyPageType mixedBoxes = .mixed ∧ trPicksplit mixedBoxes = ([2, 0, 4, 5], [3, 1]) ∧
      ProperPartition 6 (trPicksplit mixedBoxes) :=
  ⟨by decide, by decide +kernel, (trPicksplit_properPartition mixedBoxes (by decide)).2⟩

end TemporalRTree
