import TemporalRTree.Model.Planner
import TemporalRTree.Correctness.ScanVisits

/-!
# `Correctness.CostEstimate` — what the planner may rely on

The estimate grows with the share of rows a query asks for (`costestimate_mono`), also where the pages of repeated scans
are counted by the Mackert and Lohman formula, which is monotone across its three pieces (`mackertLohman_mono`). There
is one exception: a scan of a single page is priced as if it found nothing in the cache, however often it is repeated,
so it may cost more than a scan of two. Costs are exact here; the doubles of the source may round two estimates past
each other.

The pages of the estimate are compared with those a scan locks (`estimated_pages_le_locks`): the estimate supposes that
a scan skips subtrees, which it does not do.
-/

namespace TemporalRTree
open EStateM Binary64 Layout

/-! ## The Mackert and Lohman formula -/

section Formula
variable {T b N N' : ℚ}

/-- The first piece of the formula. -/
theorem fetched_mono (hT : 0 < T) (hN : 0 ≤ N) (h : N ≤ N') :
    (2 * T * N) / (2 * T + N) ≤ (2 * T * N') / (2 * T + N') := by
  rw [div_le_div_iff₀ (by linarith) (by linarith)]
  nlinarith [mul_nonneg hT.le (mul_nonneg hT.le (sub_nonneg.mpr h))]

/-- Where the first piece ends, it has filled the cache. -/
theorem fetched_lim (hT : 0 < T) (hlt : b < T) :
    (2 * T * ((2 * T * b) / (2 * T - b))) / (2 * T + (2 * T * b) / (2 * T - b)) = b := by
  have hpos : 2 * T - b ≠ 0 := by linarith
  have hT' : T ≠ 0 := hT.ne'
  field_simp
  ring_nf

theorem fetched_le_self (hT : 0 < T) (hN : 0 ≤ N) : (2 * T * N) / (2 * T + N) ≤ N := by
  rw [div_le_iff₀ (by linarith)]
  nlinarith [mul_nonneg hN hN]

/-- **The formula is monotone in the number of fetches.** -/
theorem mackertLohman_mono {pages : Nat} (hpages : 0 < pages) (hN : 0 ≤ N) (h : N ≤ N') :
    mackertLohman pages b N ≤ mackertLohman pages b N' := by
  have hT : (0 : ℚ) < pages := Nat.cast_pos.mpr hpages
  have hfetched := fetched_mono hT hN h
  unfold mackertLohman
  by_cases hTb : (pages : ℚ) ≤ b
  · rw [if_pos hTb, if_pos hTb]
    dsimp only
    split_ifs with h1 h2 h2
    · exact le_rfl
    · exact absurd (h1.trans hfetched) h2
    · exact_mod_cast Int.ceil_le.mpr (lt_of_not_ge h1).le
    · exact Int.cast_le.mpr (Int.ceil_mono hfetched)
  · rw [if_neg hTb, if_neg hTb]
    have hlt : b < pages := lt_of_not_ge hTb
    dsimp only
    split_ifs with h1 h2 h2
    · exact Int.cast_le.mpr (Int.ceil_mono hfetched)
    · -- the pieces meet at the size of the cache
      have hjoin := fetched_mono hT hN h1
      rw [fetched_lim hT hlt] at hjoin
      have hmore : 0 ≤ (N' - (2 * pages * b) / (2 * pages - b)) * (pages - b) / pages :=
        div_nonneg (mul_nonneg (by linarith) (by linarith)) hT.le
      exact Int.cast_le.mpr (Int.ceil_mono (by linarith))
    · exact absurd (h.trans h2) h1
    · have hmore : (N - (2 * pages * b) / (2 * pages - b)) * (pages - b) / pages ≤
          (N' - (2 * pages * b) / (2 * pages - b)) * (pages - b) / pages := by
        refine div_le_div_of_nonneg_right (mul_le_mul_of_nonneg_right ?_ ?_) hT.le
        · linarith
        · linarith
      exact Int.cast_le.mpr (Int.ceil_mono (by linarith))

/-- No more pages are read than there are fetches. -/
theorem mackertLohman_le (n : Nat) (hT : 0 < T) (hb : 0 ≤ b) : mackertLohman T b n ≤ n := by
  have hself : (2 * T * n) / (2 * T + n) ≤ n := fetched_le_self hT (Nat.cast_nonneg n)
  have hceil : ((⌈(2 * T * n) / (2 * T + n)⌉ : ℤ) : ℚ) ≤ n := by
    exact_mod_cast Int.ceil_le.mpr (by exact_mod_cast hself)
  unfold mackertLohman
  dsimp only
  split_ifs with h1 h2 h3
  · exact h2.trans hself
  · exact hceil
  · exact hceil
  · have hlim : b ≤ (2 * T * b) / (2 * T - b) := by
      rw [le_div_iff₀ (by linarith)]
      nlinarith [mul_nonneg hb hb]
    have hshare : (n - (2 * T * b) / (2 * T - b)) * (T - b) / T ≤ n - (2 * T * b) / (2 * T - b) := by
      rw [div_le_iff₀ hT]
      exact mul_le_mul_of_nonneg_left (by linarith) (by linarith)
    exact_mod_cast Int.ceil_le.mpr (by push_cast; linarith)

end Formula

/-! ## Tuples and pages -/

section Estimate
variable {cost : CostSettings} {index : IndexOptInfo} {x y : ℚ}

theorem clampSelectivity_mono (h : x ≤ y) : clampSelectivity x ≤ clampSelectivity y :=
  max_le_max_left _ (min_le_min_right _ h)

theorem one_le_someTuples : 1 ≤ index.someTuples := le_max_right _ _

theorem numIndexTuples_eq (index : IndexOptInfo) (x : ℚ) : numIndexTuples index x =
    min (max ((roundHalfEven (index.someTuples * x) : ℤ) : ℚ) 1) index.someTuples := by
  unfold numIndexTuples
  dsimp only
  rw [← max_def_lt, min_comm, min_def_lt]

theorem numIndexTuples_mono (h : x ≤ y) : numIndexTuples index x ≤ numIndexTuples index y := by
  have hround : roundHalfEven (index.someTuples * x) ≤ roundHalfEven (index.someTuples * y) :=
    roundHalfEven_mono (mul_le_mul_of_nonneg_left h (zero_le_one.trans one_le_someTuples))
  rw [numIndexTuples_eq, numIndexTuples_eq]
  exact min_le_min_right _ (max_le_max_right _ (Int.cast_le.mpr hround))

theorem one_le_numIndexTuples (x : ℚ) : 1 ≤ numIndexTuples index x := by
  rw [numIndexTuples_eq]
  exact le_min (le_max_right _ _) one_le_someTuples

theorem numIndexTuples_le (x : ℚ) : numIndexTuples index x ≤ index.someTuples := by
  rw [numIndexTuples_eq]
  exact min_le_right _ _

theorem numIndexPages_mono (index : IndexOptInfo) (h : x ≤ y) : numIndexPages index x ≤ numIndexPages index y := by
  unfold numIndexPages
  dsimp only
  split_ifs with hmany
  · refine max_le_max_left _ (min_le_min_right _ (Int.cast_le.mpr (Int.ceil_mono ?_)))
    have htuples : (0 : ℚ) ≤ index.someTuples := zero_le_one.trans one_le_someTuples
    exact div_le_div_of_nonneg_right (mul_le_mul_of_nonneg_right (numIndexTuples_mono h) (Nat.cast_nonneg _)) htuples
  · exact le_rfl

theorem one_le_numIndexPages (x : ℚ) : 1 ≤ numIndexPages index x := le_max_left _ _

theorem numIndexPages_le (x : ℚ) : numIndexPages index x ≤ max (index.pages : ℚ) 1 :=
  max_le (le_max_right _ _) (min_le_right _ _)

/-- A page count is a whole number. -/
theorem exists_numIndexPages (index : IndexOptInfo) (x : ℚ) : ∃ n : Nat, numIndexPages index x = n := by
  have hint : ∃ k : ℤ, numIndexPages index x = k := by
    refine ⟨max 1 (min (if 1 < index.pages ∧ 1 < index.someTuples then
      ⌈numIndexTuples index x * index.pages / index.someTuples⌉ else 1) (max index.pages 1)), ?_⟩
    unfold numIndexPages
    push_cast
    rfl
  obtain ⟨k, hk⟩ := hint
  have hpos : (0 : ℚ) ≤ k := by
    rw [← hk]
    exact zero_le_one.trans (one_le_numIndexPages x)
  lift k to ℕ using Int.cast_nonneg_iff.mp hpos
  exact ⟨k, by simpa using hk⟩

/-! ## The cost of the pages -/

/-- The pages that `index_pages_fetched` counts with are a positive whole number. -/
theorem exists_tablePages (pages : Nat) : ∃ n : Nat, 0 < n ∧ tablePages pages = n := by
  by_cases h : 1 < pages
  · exact ⟨pages, by omega, if_pos h⟩
  · exact ⟨1, by decide, by simp [tablePages, h]⟩

theorem cacheShare_nonneg {pages : Nat} {indexPages : ℚ} : 0 ≤ cacheShare cost pages indexPages := by
  unfold cacheShare
  dsimp only
  split_ifs with hsmall
  · exact zero_le_one
  · exact_mod_cast Int.ceil_nonneg (zero_le_one.trans (lt_of_not_ge hsmall).le)

theorem indexPagesFetched_mono (cost : CostSettings) (pages : Nat) (indexPages : ℚ) (hx : 0 ≤ x) (h : x ≤ y) :
    indexPagesFetched cost x pages indexPages ≤ indexPagesFetched cost y pages indexPages := by
  obtain ⟨n, hn, hpages⟩ := exists_tablePages pages
  unfold indexPagesFetched
  rw [hpages]
  exact mackertLohman_mono hn hx h

theorem indexPagesFetched_le (cost : CostSettings) (pages : Nat) (indexPages : ℚ) (n : Nat) :
    indexPagesFetched cost n pages indexPages ≤ n := by
  obtain ⟨k, hk, hpages⟩ := exists_tablePages pages
  unfold indexPagesFetched
  rw [hpages]
  exact mackertLohman_le n (Nat.cast_pos.mpr hk) cacheShare_nonneg

/-- A scan that is not repeated pays for each of its pages. -/
theorem pageCost_lone {loopCount : ℚ} (h : loopCount ≤ 1) :
    pageCost cost index x loopCount = numIndexPages index x * cost.randomPageCost := by
  unfold pageCost
  exact if_neg fun hloop => absurd hloop.1 (not_lt.mpr h)

/-- Both scans are repeated and counted by the formula, or neither is. -/
theorem pageCost_mono (cost : CostSettings) {loopCount : ℚ} (hrepeat : loopCount ≤ 1 ∨ 1 < numIndexPages index x)
    (h : x ≤ y) : pageCost cost index x loopCount ≤ pageCost cost index y loopCount := by
  have hpages := numIndexPages_mono index h
  by_cases hone : loopCount ≤ 1
  · rw [pageCost_lone hone, pageCost_lone hone]
    exact mul_le_mul_of_nonneg_right hpages cost.page_nonneg
  · have hmany : 1 < numIndexPages index x := hrepeat.resolve_left hone
    have hloop : 1 < loopCount := lt_of_not_ge hone
    have hpos : 0 ≤ loopCount := zero_le_one.trans hloop.le
    have hfetched := indexPagesFetched_mono cost index.pages index.pages
      (mul_nonneg (zero_le_one.trans hmany.le) hpos) (mul_le_mul_of_nonneg_right hpages hpos)
    unfold pageCost
    dsimp only
    rw [if_pos ⟨hloop, hmany⟩, if_pos ⟨hloop, hmany.trans_le hpages⟩]
    exact div_le_div_of_nonneg_right (mul_le_mul_of_nonneg_right hfetched cost.page_nonneg) hpos

/-- What the cache saves is never negative. -/
theorem pageCost_le (loops : Nat) :
    pageCost cost index x loops ≤ numIndexPages index x * cost.randomPageCost := by
  obtain ⟨n, hn⟩ := exists_numIndexPages index x
  unfold pageCost
  dsimp only
  split_ifs with hloop
  · have hpos : (0 : ℚ) < loops := zero_lt_one.trans hloop.1
    have hfetched := indexPagesFetched_le cost index.pages index.pages (n * loops)
    push_cast at hfetched
    rw [div_le_iff₀ hpos, hn]
    calc indexPagesFetched cost (n * loops) index.pages index.pages * cost.randomPageCost
        ≤ n * loops * cost.randomPageCost := mul_le_mul_of_nonneg_right hfetched cost.page_nonneg
      _ = n * cost.randomPageCost * loops := by ring
  · exact le_rfl

/-! ## The estimate -/

variable {quals quals' : IndexQuals} {loopCount : ℚ}

/-- The part of the cost that is paid for every tuple. -/
theorem tupleCost_mono (hlength : quals.length ≤ quals'.length) (h : x ≤ y) :
    numIndexTuples index x * (cost.cpuIndexTupleCost + cost.cpuOperatorCost * quals.length) ≤
      numIndexTuples index y * (cost.cpuIndexTupleCost + cost.cpuOperatorCost * quals'.length) := by
  have hop : cost.cpuOperatorCost * quals.length ≤ cost.cpuOperatorCost * quals'.length :=
    mul_le_mul_of_nonneg_left (Nat.cast_le.mpr hlength) cost.operator_nonneg
  refine mul_le_mul (numIndexTuples_mono h) (by linarith) ?_ (zero_le_one.trans (one_le_numIndexTuples y))
  exact add_nonneg cost.tuple_nonneg (mul_nonneg cost.operator_nonneg (Nat.cast_nonneg _))

/-- **A query that asks for more is not estimated to cost less**, computed exactly, unless the cheaper scan is one of a
    single page that is repeated: that one is not counted by the formula. -/
theorem costestimate_mono (hlength : quals.length ≤ quals'.length) (harg : quals.argCost ≤ quals'.argCost)
    (hsel : quals.selectivity ≤ quals'.selectivity)
    (hrepeat : loopCount ≤ 1 ∨ 1 < (temporalRtreeCostestimate cost index quals loopCount).pages) :
    (temporalRtreeCostestimate cost index quals loopCount).pages ≤
        (temporalRtreeCostestimate cost index quals' loopCount).pages ∧
      (temporalRtreeCostestimate cost index quals loopCount).totalCost ≤
        (temporalRtreeCostestimate cost index quals' loopCount).totalCost := by
  have hclamp := clampSelectivity_mono hsel
  refine ⟨numIndexPages_mono index hclamp, ?_⟩
  have hpage := pageCost_mono cost hrepeat hclamp
  exact add_le_add (add_le_add harg hpage) (tupleCost_mono hlength hclamp)

/-- The server's default settings, for a query of one table of 1000 pages. -/
def defaultSettings : CostSettings where
  randomPageCost := 4
  cpuIndexTupleCost := 1 / 200
  cpuOperatorCost := 1 / 400
  effectiveCacheSize := 524288
  totalTablePages := 1000
  page_nonneg := by norm_num
  tuple_nonneg := by norm_num
  operator_nonneg := by norm_num

/-- One condition that a given share of the rows meets. -/
def oneQual (selectivity : ℚ) : IndexQuals := ⟨1, selectivity, 0⟩

/-- Ten scans for a twentieth of the rows, and ten for all of them. -/
theorem costestimate_mono_ten_scans :
    (temporalRtreeCostestimate defaultSettings ⟨100, 10000⟩ (oneQual (1 / 20)) 10).totalCost ≤
      (temporalRtreeCostestimate defaultSettings ⟨100, 10000⟩ (oneQual 1) 10).totalCost := by
  have hlength : (oneQual (1 / 20)).length ≤ (oneQual 1).length := Nat.le_refl 1
  have harg : (oneQual (1 / 20)).argCost ≤ (oneQual 1).argCost := le_refl 0
  have hsel : (oneQual (1 / 20)).selectivity ≤ (oneQual 1).selectivity := by norm_num [oneQual]
  have hpages : 1 < (temporalRtreeCostestimate defaultSettings ⟨100, 10000⟩ (oneQual (1 / 20)) 10).pages := by
    decide +kernel
  exact (costestimate_mono hlength harg hsel (Or.inr hpages)).2

/-- The exception is real: of a thousand scans of two pages, those for a hundredth of the rows cost more. -/
example : (temporalRtreeCostestimate defaultSettings ⟨2, 100⟩ (oneQual 1) 1000).totalCost <
    (temporalRtreeCostestimate defaultSettings ⟨2, 100⟩ (oneQual (1 / 100)) 1000).totalCost := by decide +kernel

/-- **Repeating a scan never makes it dearer**, and no scan is estimated to cost more than reading the whole index, both
    computed exactly. -/
theorem costestimate_repeated (loops : Nat) :
    (temporalRtreeCostestimate cost index quals loops).totalCost ≤
        (temporalRtreeCostestimate cost index quals 1).totalCost ∧
      (temporalRtreeCostestimate cost index quals 1).totalCost ≤
        quals.argCost + max (index.pages : ℚ) 1 * cost.randomPageCost +
          index.someTuples * (cost.cpuIndexTupleCost + cost.cpuOperatorCost * quals.length) := by
  have hper : 0 ≤ cost.cpuIndexTupleCost + cost.cpuOperatorCost * quals.length :=
    add_nonneg cost.tuple_nonneg (mul_nonneg cost.operator_nonneg (Nat.cast_nonneg _))
  constructor
  · refine add_le_add_left (add_le_add_right ?_ _) _
    rw [pageCost_lone le_rfl]
    exact pageCost_le loops
  · refine add_le_add (add_le_add_right ?_ _) (mul_le_mul_of_nonneg_right (numIndexTuples_le _) hper)
    rw [pageCost_lone le_rfl]
    exact mul_le_mul_of_nonneg_right (numIndexPages_le _) cost.page_nonneg

end Estimate

/-! ## The pages a scan reads -/

section Pages
variable {s : Rel} {scan : IndexScanDesc} {keys : List ScanKey} {query : RTreeTemporalBox × StrategyNumber}

/-- If no block is lost, the tree holds every block but that of the metapage. -/
theorem length_blocks (hwf : WF s.pages) (hall : ∀ b, ¬ Unlinked s.pages b) :
    (nodes.blocks (pageAt s.pages) (metaAt s.pages).rootLevel (metaAt s.pages).root).length + 1 = s.pages.length := by
  have hnodup : (nodes.blocks (pageAt s.pages) (metaAt s.pages).rootLevel (metaAt s.pages).root).Nodup := by
    simpa [forestBlocks] using hwf.tree.nodup
  have hrange : ∀ b : Nat, b ∈ List.range' 1 (s.pages.length - 1) ↔ 0 < b ∧ b < s.pages.length := by
    intro b
    rw [List.mem_range'_1]
    omega
  have hperm : (nodes.blocks (pageAt s.pages) (metaAt s.pages).rootLevel (metaAt s.pages).root).Perm
      (List.range' 1 (s.pages.length - 1)) := by
    refine (List.perm_ext_iff_of_nodup hnodup List.nodup_range').mpr fun b => ?_
    refine Iff.trans ⟨hwf.range b, fun hb => ?_⟩ (hrange b).symm
    by_contra hnot
    exact hall b ⟨hb.1, hb.2, fun hlinked => hnot ((linked_iff hwf).mp hlinked)⟩
  have hpos := hwf.two_le_length
  have hlength := hperm.length_eq
  rw [List.length_range'] at hlength
  omega

/-- **The planner counts no page that a scan does not read.** In an index with no lost block, whatever share of the rows
    the conditions are estimated to meet, a scan locks pages at least as often as the estimate says, and always twice
    for every page but the metapage. -/
theorem estimated_pages_le_locks (cost : CostSettings) (index : IndexOptInfo) (quals : IndexQuals) (loopCount : ℚ)
    (hwf : WF s.pages) (hall : ∀ b, ¬ Unlinked s.pages b) (hindex : index.pages = s.pages.length)
    (hquery : rtreeParseQuery keys = some query) (hspace : scan.keySpace ≠ 0) :
    ∃ bound, ∀ fuel n, bound ≤ fuel → bound ≤ n →
      ∃ evs, scanAll fuel n scan keys s =
          .ok ((scanHits s.pages keys).map IndexTuple.tTid) { s with trace := s.trace ++ evs } ∧
        (lockedBlocks evs).length = 2 * (index.pages - 1) ∧
        (temporalRtreeCostestimate cost index quals loopCount).pages ≤ (lockedBlocks evs).length := by
  have hne : keys ≠ [] := by
    rintro rfl
    cases hquery
  obtain ⟨bound, hbound⟩ := scanAll_run scan hwf hne hspace
  refine ⟨bound, fun fuel n hfuel hn => ?_⟩
  obtain ⟨evs, hrun⟩ := hbound fuel n hfuel hn
  have hlocks : (lockedBlocks evs).length = 2 * (index.pages - 1) := by
    rw [lockedBlocks_scanAll hwf hne hspace hquery hrun, List.length_cons, length_visits, hindex,
      ← length_blocks hwf hall, Nat.add_sub_cancel]
  have htwo := hwf.two_le_length
  have hpages : max (index.pages : ℚ) 1 ≤ (lockedBlocks evs).length := by
    have hle : max index.pages 1 ≤ (lockedBlocks evs).length := by omega
    exact_mod_cast hle
  exact ⟨evs, hrun, hlocks, (numIndexPages_le _).trans hpages⟩

/-- An index of four pages, and a condition that no row is expected to meet: one page is estimated, and six locks are
    taken. -/
theorem estimated_pages_le_locks_one_of_six :
    ∃ s fuel n evs, runOps roomyEnv ((stairRows 6).map Op.insert) { pages := [] } = .ok () s ∧
      (temporalRtreeCostestimate defaultSettings ⟨4, 6⟩ (oneQual 0) 1).pages = 1 ∧
      scanAll fuel n (temporalRtreeBeginscan 1) [longAgo] s =
        .ok ((scanHits s.pages [longAgo]).map IndexTuple.tTid) { s with trace := s.trace ++ evs } ∧
      (lockedBlocks evs).length = 6 := by
  have hok : okWith (fun _ s => decide (s.pages.length = 4 ∧ ∀ b ∈ [1, 2, 3],
      b ∈ nodes.blocks (pageAt s.pages) (metaAt s.pages).rootLevel (metaAt s.pages).root))
      (runOps roomyEnv ((stairRows 6).map Op.insert) { pages := [] }) = true := by decide +kernel
  obtain ⟨u, s, hrun, hs⟩ := exists_of_okWith hok
  obtain ⟨hlen, hblocks⟩ := of_decide_eq_true hs
  have hwf : WF s.pages := (runOps_valid (Or.inl rfl) hrun).resolve_left fun hnil => by simp [hnil] at hlen
  have hall : ∀ b, ¬ Unlinked s.pages b := by
    intro b hb
    have hmem : b ∈ [1, 2, 3] := by
      have hpos := hb.pos
      have hlt := hb.lt
      rw [hlen] at hlt
      interval_cases b <;> decide
    exact hb.not_linked ((linked_iff hwf).mpr (hblocks b hmem))
  have hquery : rtreeParseQuery [longAgo] =
      some (rtreeCubeToBox (rowCube 0 (-10) (.fin (-5))), trtreeStrategyOverlap) := rfl
  have hspace : (temporalRtreeBeginscan 1).keySpace ≠ 0 := Nat.one_ne_zero
  obtain ⟨bound, hscan⟩ :=
    estimated_pages_le_locks defaultSettings ⟨4, 6⟩ (oneQual 0) 1 hwf hall hlen.symm hquery hspace
  obtain ⟨evs, hrun', hlocks, -⟩ := hscan bound bound (Nat.le_refl _) (Nat.le_refl _)
  exact ⟨s, bound, bound, evs, hrun, by decide +kernel, hrun', hlocks⟩

end Pages

end TemporalRTree
