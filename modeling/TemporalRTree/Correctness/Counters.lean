import TemporalRTree.Correctness.TreeShape

/-!
# `Correctness.Counters` — the tuple counts that bulk deletion and build report

`rtree_vacuum_page` threads one pair of counters through its recursion and adds one to `num_index_tuples` for every
tuple that it keeps on a page. On a leaf that is a leaf tuple, on an inner page a downlink; so the count is that of
the leaf tuples only when no downlink is kept, while `tuples_removed` grows on leaves alone. A build counts the rows
for which `temporal_rtree_insert` returns true, which it does for a NULL key that it does not store. And it counts a
row before a later split may lose it: a descent in which a `PageAddItem` fails leaves a leaf tuple less
(`Inserts.leaves_lt`), since every page below the root has a tuple.
-/

namespace TemporalRTree
open EStateM Layout

variable {env : Env} {callback : IndexBulkDeleteCallback}

/-! ## Bulk deletion -/

/-- The counters after a walk over the leaf tuples `leaves`; `linked` says that downlinks lead to those it keeps. -/
structure Counted (callback : IndexBulkDeleteCallback) (leaves : List IndexTuple) (linked : Prop)
    (stats stats' : IndexBulkDeleteResult) : Prop where
  removed : stats'.tuplesRemoved = stats.tuplesRemoved + leaves.countP fun t => isDead callback t.tTid
  counted : ∃ downlinks, stats'.numIndexTuples =
      stats.numIndexTuples + leaves.countP (isAlive callback) + downlinks ∧
    (downlinks = 0 ↔ (linked → leaves.countP (isAlive callback) = 0))

section Sequence
variable {leaves leaves' : List IndexTuple} {linked : Prop} {stats stats₁ stats' : IndexBulkDeleteResult}

theorem Counted.of_iff {linked' : Prop} (h : Counted callback leaves linked stats stats')
    (hiff : linked ↔ linked') : Counted callback leaves linked' stats stats' :=
  propext hiff ▸ h

/-- A tree that is emptied gets no downlink. -/
theorem Counted.skip (h : Counted callback leaves linked stats stats₁)
    (hnone : leaves.countP (isAlive callback) = 0) (h' : Counted callback leaves' True stats₁ stats') :
    Counted callback (leaves ++ leaves') True stats stats' := by
  obtain ⟨hremoved, links, hcounted, hlinks⟩ := h
  obtain ⟨hremoved', links', hcounted', hlinks'⟩ := h'
  refine ⟨?_, links + links', ?_, ?_⟩
  · rw [hremoved', hremoved, List.countP_append, Nat.add_assoc]
  · rw [hcounted', hcounted, List.countP_append]
    omega
  · have hzero : links = 0 := hlinks.mpr fun _ => hnone
    rw [List.countP_append, hnone, hzero, Nat.zero_add, Nat.zero_add]
    exact hlinks'

/-- A tree that is kept gets one. -/
theorem Counted.link (h : Counted callback leaves linked stats stats₁)
    (hsome : leaves.countP (isAlive callback) ≠ 0)
    (h' : Counted callback leaves' True { stats₁ with numIndexTuples := stats₁.numIndexTuples + 1 } stats') :
    Counted callback (leaves ++ leaves') True stats stats' := by
  obtain ⟨hremoved, links, hcounted, -⟩ := h
  obtain ⟨hremoved', links', hcounted', -⟩ := h'
  dsimp only at hremoved' hcounted'
  refine ⟨?_, links + 1 + links', ?_, ?_⟩
  · rw [hremoved', hremoved, List.countP_append, Nat.add_assoc]
  · rw [hcounted', hcounted, List.countP_append]
    omega
  · rw [List.countP_append, true_imp_iff]
    omega

end Sequence

/-- The leaf loop. -/
theorem vacuumLeafItems_counted (callback : IndexBulkDeleteCallback) {items : List IndexTuple} (acc : VacuumItems)
    (hkeys : ∀ t ∈ items, t.key.isSome = true) :
    Counted callback items False acc.stats (items.foldl (vacuumLeafItem callback) acc).stats := by
  suffices h : (items.foldl (vacuumLeafItem callback) acc).stats.tuplesRemoved =
        acc.stats.tuplesRemoved + items.countP (fun t => isDead callback t.tTid) ∧
      (items.foldl (vacuumLeafItem callback) acc).stats.numIndexTuples =
        acc.stats.numIndexTuples + items.countP (isAlive callback) from
    ⟨h.1, 0, h.2, by simp⟩
  induction items generalizing acc with
  | nil => exact ⟨rfl, rfl⟩
  | cons t rest ih =>
      obtain ⟨cube, hcube⟩ := Option.isSome_iff_exists.mp (hkeys t List.mem_cons_self)
      obtain ⟨hremoved, hcounted⟩ := ih (vacuumLeafItem callback acc t) fun t ht =>
        hkeys t (List.mem_cons_of_mem _ ht)
      rw [List.foldl_cons, hremoved, hcounted, List.countP_cons, List.countP_cons]
      have halive : isAlive callback t = !isDead callback t.tTid := rfl
      cases hd : isDead callback t.tTid with
      | true =>
          simp only [vacuumLeafItem, hd, halive, if_true, Bool.not_true, Bool.false_eq_true, if_false]
          omega
      | false =>
          simp only [vacuumLeafItem, hd, halive, Bool.not_false, if_true, Bool.false_eq_true, if_false,
            rtreeIndexTupleBox, hcube, Option.map_some, VacuumItems.keep]
          omega

/-- A page is rebuilt from what was collected. -/
theorem rebuildPage_result {blk : BlockNumber} {page : DataPage} {kept : VacuumItems} {pages : List Page}
    {trace : List Event} {s' : Rel} {res : Option RTreeTemporalBox × IndexBulkDeleteResult}
    (hblk : blk < pages.length) (h : rebuildPage env blk page kept ⟨pages, trace⟩ = .ok res s') :
    (res.1.isSome = true ↔ kept.tuples ≠ []) ∧ res.2.tuplesRemoved = kept.stats.tuplesRemoved ∧
      res.2.numIndexTuples = kept.stats.numIndexTuples := by
  cases hadd : (addTupleCopies (emptiedPage page) kept.tuples).2 with
  | false =>
      rw [rebuildPage_run_of_fail hadd] at h
      exact absurd h (by simp)
  | true =>
      rw [rebuildPage_run_of_ok hblk hadd] at h
      injection h with h
      rw [← h]
      refine ⟨rebuildResult_isSome, ?_⟩
      unfold rebuildResult
      split <;> exact ⟨rfl, rfl⟩

/-- What a walk over the tree of level `level` at a block does: it counts its leaf tuples, and returns a box
    exactly if it leaves some. -/
def WalkCounts (callback : IndexBulkDeleteCallback) (level : Nat)
    (walk : BlockNumber → IndexBulkDeleteResult → IndexM (Option RTreeTemporalBox × IndexBulkDeleteResult)) :
    Prop :=
  ∀ {c stats res} {s s' : Rel}, nodes.Forest NodeOk (pageAt s.pages) level [c] →
    (∀ x ∈ nodes.forestBlocks (pageAt s.pages) level [c], x ∈ allocated s.pages) →
    walk c stats s = .ok res s' →
    VacuumSpec callback s.pages c level (if res.1.isSome then [c] else []) s'.pages ∧
      Counted callback (nodes.leaves (pageAt s.pages) level c) (level ≠ 0) stats res.2 ∧
      (res.1.isSome = true ↔ (nodes.leaves (pageAt s.pages) level c).countP (isAlive callback) ≠ 0)

/-- The loop over the downlinks, given what the recursive call does. -/
theorem vacuumChildren_counted {level : Nat}
    {vacuumChild : BlockNumber → IndexBulkDeleteResult →
      IndexM (Option RTreeTemporalBox × IndexBulkDeleteResult)}
    (hvac : WalkCounts callback level vacuumChild)
    {items : List IndexTuple} {acc kept : VacuumItems} {s s' : Rel}
    (hf : nodes.Forest NodeOk (pageAt s.pages) level (items.map fun t => t.tTid.blkno))
    (halloc : ∀ x ∈ nodes.forestBlocks (pageAt s.pages) level (items.map fun t => t.tTid.blkno),
      x ∈ allocated s.pages)
    (h : vacuumChildren vacuumChild items acc s = .ok kept s') :
    s'.pages.length = s.pages.length ∧
      Counted callback (nodes.forestLeaves (pageAt s.pages) level (items.map fun t => t.tTid.blkno)) True
        acc.stats kept.stats ∧
      (kept.tuples ≠ [] ↔ acc.tuples ≠ [] ∨
        (nodes.forestLeaves (pageAt s.pages) level (items.map fun t => t.tTid.blkno)).countP
          (isAlive callback) ≠ 0) := by
  induction items generalizing acc s with
  | nil =>
      cases h
      exact ⟨rfl, ⟨rfl, 0, rfl, by simp⟩, by simp⟩
  | cons itup rest ih =>
      obtain ⟨⟨box, stats⟩, s₁, hchild, h⟩ := bind_eq_ok.mp h
      obtain ⟨hspec, hcounted, hsome⟩ := hvac
        (hf.subperm (List.sublist_append_left [_] _).subperm)
        (fun x hx => halloc x (List.mem_append_left _ (by simpa using hx))) hchild
      -- the trees still to be walked are as they were
      obtain ⟨hsame, hf₁, hin₁⟩ := hspec.rest_forest hf halloc
      rw [List.map_cons, forestLeaves_cons, List.countP_append]
      cases box with
      | none =>
          have hnone : (nodes.leaves (pageAt s.pages) level itup.tTid.blkno).countP (isAlive callback) = 0 := by
            simpa using hsome
          obtain ⟨hlen, hrest, hkept⟩ := ih hf₁ hin₁ h
          rw [forestLeaves_congr hsame] at hrest hkept
          rw [hkept, hnone, Nat.zero_add]
          exact ⟨hlen.trans hspec.length_eq, hcounted.skip hnone hrest, Iff.rfl⟩
      | some box =>
          have hsome : (nodes.leaves (pageAt s.pages) level itup.tTid.blkno).countP (isAlive callback) ≠ 0 :=
            hsome.mp rfl
          obtain ⟨hlen, hrest, hkept⟩ := ih hf₁ hin₁ h
          rw [forestLeaves_congr hsame] at hrest hkept
          refine ⟨hlen.trans hspec.length_eq, hcounted.link hsome hrest, ?_⟩
          rw [hkept]
          constructor
          · exact fun _ => Or.inr (by omega)
          · exact fun _ => Or.inl (by simp [VacuumItems.keep])

section Walk
variable {blk : BlockNumber} {stats : IndexBulkDeleteResult} {s s' : Rel} {fuel level : Nat}
  {res : Option RTreeTemporalBox × IndexBulkDeleteResult}

/-- The walk of a leaf. -/
theorem rtreeVacuumPage_leaf_counted (hblk : blk < s.pages.length) (hp : NodeOk 0 (pageAt s.pages blk))
    (h : rtreeVacuumPage env callback (fuel + 1) blk stats s = .ok res s') :
    Counted callback (pageAt s.pages blk).items False stats res.2 ∧
      (res.1.isSome = true ↔ (pageAt s.pages blk).items.countP (isAlive callback) ≠ 0) := by
  rw [rtreeVacuumPage, bind_of_ok (readBuffer_run_of_lt hblk), bind_of_ok (lockBuffer_run _ _ _),
    bind_of_ok (bufferGetPage_run _ _), if_pos (hp.leaf_iff.mpr rfl)] at h
  obtain ⟨hsome, hremoved, hcounted⟩ := rebuildPage_result hblk h
  obtain ⟨hr, links, hc, hl⟩ := vacuumLeafItems_counted callback
    { tuples := [], boxes := [], stats := stats } hp.keys
  have htuples := vacuumLeafItems_tuples callback (pageAt s.pages blk).items
    { tuples := [], boxes := [], stats := stats } hp.keys
  refine ⟨⟨hremoved.trans hr, links, hcounted.trans hc, hl⟩, ?_⟩
  rw [hsome, htuples, List.nil_append, ← List.length_pos_iff, ← List.countP_eq_length_filter]
  exact Nat.pos_iff_ne_zero

/-- The walk of an inner page, given the walks of its kids. -/
theorem rtreeVacuumPage_inner_counted (hvac : WalkCounts callback level (rtreeVacuumPage env callback fuel))
    (hf : nodes.Forest NodeOk (pageAt s.pages) (level + 1) [blk])
    (halloc : ∀ x ∈ nodes.forestBlocks (pageAt s.pages) (level + 1) [blk], x ∈ allocated s.pages)
    (h : rtreeVacuumPage env callback (fuel + 1) blk stats s = .ok res s') :
    Counted callback (nodes.leaves (pageAt s.pages) (level + 1) blk) True stats res.2 ∧
      (res.1.isSome = true ↔
        (nodes.leaves (pageAt s.pages) (level + 1) blk).countP (isAlive callback) ≠ 0) := by
  have hblk : blk < s.pages.length := halloc blk (by simp [self_mem_blocks])
  obtain ⟨hp, hkf, -⟩ := hf.kids
  have hinner : ¬ (pageAt s.pages blk).special.flags.leaf = true :=
    mt hp.leaf_iff.mp (Nat.succ_ne_zero level)
  have hin : ∀ x ∈ nodes.forestBlocks (pageAt s.pages) level (nodes.kids (pageAt s.pages blk)),
      x ∈ allocated s.pages := fun x hx =>
    halloc x (by simpa [blocks_succ] using Or.inr hx)
  rw [rtreeVacuumPage, bind_of_ok (readBuffer_run_of_lt hblk), bind_of_ok (lockBuffer_run _ _ _),
    bind_of_ok (bufferGetPage_run _ _), if_neg hinner] at h
  obtain ⟨kept, s₁, hkids, h⟩ := bind_eq_ok.mp h
  obtain ⟨hlen, ⟨hr, links, hc, hl⟩, hne⟩ := vacuumChildren_counted
    (s := ⟨s.pages, s.trace ++ [Event.lock blk .exclusive]⟩) hvac hkf hin hkids
  obtain ⟨hsome, hremoved, hcounted⟩ := rebuildPage_result (Nat.lt_of_lt_of_eq hblk hlen.symm) h
  refine ⟨⟨hremoved.trans hr, links, hcounted.trans hc, hl⟩, ?_⟩
  rw [hsome, hne]
  exact or_iff_right fun h => h rfl

/-- **The counters of a walk over a tree.** -/
theorem rtreeVacuumPage_counted (hfuel : level < fuel) :
    WalkCounts callback level (rtreeVacuumPage env callback fuel) := by
  induction level generalizing fuel with
  | zero =>
      intro c stats res s s' hf halloc h
      have hspec : VacuumRun s _ (rtreeVacuumPage env callback fuel c stats s) :=
        rtreeVacuumPage_spec hfuel hf halloc
      rw [h] at hspec
      obtain ⟨fuel, rfl⟩ : ∃ n, fuel = n + 1 := ⟨fuel - 1, by omega⟩
      obtain ⟨hcounted, hsome⟩ := rtreeVacuumPage_leaf_counted (halloc c (by simp)) (hf.holds c (by simp)) h
      exact ⟨hspec.1, hcounted.of_iff (by simp), hsome⟩
  | succ level ih =>
      intro c stats res s s' hf halloc h
      have hspec : VacuumRun s _ (rtreeVacuumPage env callback fuel c stats s) :=
        rtreeVacuumPage_spec hfuel hf halloc
      rw [h] at hspec
      obtain ⟨fuel, rfl⟩ : ∃ n, fuel = n + 1 := ⟨fuel - 1, by omega⟩
      obtain ⟨hcounted, hsome⟩ :=
        rtreeVacuumPage_inner_counted (ih (Nat.lt_of_succ_lt_succ hfuel)) hf halloc h
      exact ⟨hspec.1, hcounted.of_iff (by simp), hsome⟩

end Walk

/-- **The counters that `temporal_rtree_bulkdelete` returns**: the leaf tuples that are left and the downlinks to
    them, and the leaf tuples removed. -/
theorem temporalRtreeBulkdelete_counted {stats : Option IndexBulkDeleteResult} {res : IndexBulkDeleteResult}
    {s s' : Rel} (hwf : WF s.pages) (h : temporalRtreeBulkdelete env stats callback s = .ok res s') :
    contents s'.pages = (contents s.pages).filter (fun t => isAlive callback t = true) ∧
      Counted callback (nodes.leaves (pageAt s.pages) (metaAt s.pages).rootLevel (metaAt s.pages).root)
        ((metaAt s.pages).rootLevel ≠ 0) (bulkdeleteStats s.pages.length stats) res := by
  obtain ⟨r, s₁, b, hwalk, hspec, hshrink, hres⟩ := temporalRtreeBulkdelete_parts hwf h
  obtain ⟨hv, hcont, hmeta⟩ := hspec.root hwf
  obtain ⟨b', s₂, evs, hrun, -, hcont', -⟩ := rtreeVacuumShrinkRoot_spec env hv
  rw [hmeta] at hrun
  obtain rfl : s₂ = s' := by
    injection hrun.symm.trans hshrink
  rw [hcont', hcont, ← hres]
  let s₀ : Rel := { s with trace := s.trace ++ [Event.lock 0 .share, Event.unlock 0] }
  exact ⟨rfl, (rtreeVacuumPage_counted hwf.rootLevel_lt (s := s₀) hwf.tree hwf.halloc hwalk).2.1⟩

/-- The count of the tuples that are left is right exactly if no downlink is left. -/
theorem Counted.eq_iff {leaves : List IndexTuple} {linked : Prop} {stats stats' : IndexBulkDeleteResult}
    (h : Counted callback leaves linked stats stats') :
    stats'.numIndexTuples = stats.numIndexTuples + leaves.countP (isAlive callback) ↔
      ¬ linked ∨ ∀ t ∈ leaves, isDead callback t.tTid = true := by
  obtain ⟨-, links, hcounted, hlinks⟩ := h
  have hnone : leaves.countP (isAlive callback) = 0 ↔ ∀ t ∈ leaves, isDead callback t.tTid = true := by
    rw [List.countP_eq_zero]
    simp [isAlive]
  rw [← hnone, ← imp_iff_not_or, ← hlinks]
  omega

/-! ## Build -/

section Insert
variable {itup : IndexTuple} {box : RTreeTemporalBox} {pages pages' : List Page} {evs : List Event}

/-- The trees below an inner page after the recursive call have leaf tuples if those before had. -/
theorem InsertSpec.leaves_ne {blk c : BlockNumber} {level : Nat} {new rest : List BlockNumber} {pages₁ : List Page}
    (hspec : InsertSpec itup pages c level (c :: new) pages₁ evs) (htouched : Touched pages pages₁)
    (hf : nodes.Forest NodeOk (pageAt pages) (level + 1) [blk])
    (halloc : ∀ x ∈ nodes.forestBlocks (pageAt pages) (level + 1) [blk], x ∈ allocated pages)
    (hrest : (c :: rest).Perm (nodes.kids (pageAt pages blk)))
    (hne : ∀ x ∈ nodes.forestBlocks (pageAt pages) level (nodes.kids (pageAt pages blk)),
      (pageAt pages x).items ≠ []) :
    ∀ t ∈ (c :: new) ++ rest, nodes.leaves (pageAt pages₁) level t ≠ [] := by
  obtain ⟨-, -, hupd⟩ := hspec.siblings hf halloc hrest
  intro t ht
  apply leaves_ne_nil
  intro x hx
  have hitems : (pageAt pages₁ x).items ≠ [] := by
    rcases hupd.mem x (blocks_subset_forest ht hx) with hold | ⟨hnew, hfresh⟩
    · -- an old page: as it was, or written with a tuple
      have hx₁ : x < pages₁.length := hspec.update.alloc_le (halloc x (by simpa [blocks_succ] using Or.inr hold))
      rcases htouched.nonempty x hx₁ with ⟨-, hsame⟩ | hwritten
      · rw [hsame]
        exact hne x hold
      · exact hwritten
    · exact (htouched.nonempty x hnew).resolve_left fun h => hfresh h.1
  exact ⟨by simpa [nodes] using hitems, hitems⟩

/-- **A descent in which a `PageAddItem` fails loses a leaf tuple.** -/
theorem Inserts.leaves_lt {blk : BlockNumber} {level : Nat} {res : RTreeInsertResult}
    (h : Inserts env itup box pages blk level res pages' evs) (hkey : itup.key.isSome = true)
    (hf : nodes.Forest NodeOk (pageAt pages) level [blk])
    (halloc : ∀ x ∈ nodes.forestBlocks (pageAt pages) level [blk], x ∈ allocated pages)
    (hne : ∀ x ∈ nodes.blocks (pageAt pages) level blk, x ≠ blk → (pageAt pages x).items ≠ [])
    (hbad : ¬ AddsOk evs) :
    (nodes.forestLeaves (pageAt pages') level (resultBlocks blk res)).length <
      (nodes.leaves (pageAt pages) level blk).length + 1 := by
  induction level generalizing blk res pages' evs with
  | zero =>
      obtain ⟨-, -, hle, hiff⟩ := h.leaf_tops hkey (hf.holds blk (by simp)).node
      have hlt := mt hle.perm_of_length_le (mt hiff.mpr hbad)
      rw [List.length_append, List.length_singleton] at hlt
      exact Nat.lt_of_not_le hlt
  | succ level ih =>
      obtain ⟨c, new, rest, pages₁, evs₁, childres, hrec, hres, hrest, hspec, htops, hle, hiff⟩ :=
        h.inner_tops hf halloc fun hrec => hrec.spec hkey
      have hkids := @kids_perm_siblings pages blk new rest c hrest
      have hk := hle.trans hkids.subperm
      obtain ⟨hbefore, hleaves, hafter⟩ := hspec.inner_leaves hf halloc hrest htops hk
      have hlen := congrArg List.length hafter
      have hbefore := hbefore.length_eq
      have hchild := hspec.leaves_le.length_le
      rw [List.length_append] at hlen hbefore
      rw [List.length_cons] at hchild
      have hbelow : ∀ x ∈ nodes.forestBlocks (pageAt pages) level (nodes.kids (pageAt pages blk)),
          (pageAt pages x).items ≠ [] := fun x hx =>
        hne x (List.mem_cons_of_mem _ hx) fun he => hf.kids.2.2 (he ▸ hx)
      rw [hleaves]
      by_cases hok : AddsOk evs₁
      · -- a downlink is lost, and there are leaf tuples below it
        have hlost := mt hle.perm_of_length_le fun hp => hbad (hiff.mpr ⟨hok, hp⟩)
        have hlt := forestLeaves_length_lt hk (by rw [← hkids.length_eq]; exact Nat.lt_of_not_le hlost)
          (hspec.leaves_ne hrec.touched hf halloc hrest hbelow)
        omega
      · -- the loss is below the child
        have hc : c ∈ nodes.kids (pageAt pages blk) := hrest.subset List.mem_cons_self
        have hsub : [c].Subperm (nodes.kids (pageAt pages blk)) := (List.singleton_sublist.mpr hc).subperm
        have hlt := ih hrec (hf.kids.2.1.subperm hsub)
          (fun x hx => halloc x (by simpa [blocks_succ] using Or.inr ((forestBlocks_subperm hsub).subset hx)))
          (fun x hx _ => hbelow x (blocks_subset_forest hc hx)) hok
        rw [hres] at hlt
        have hle' : (nodes.forestLeaves (pageAt pages₁) level _).length ≤ _ := (forestLeaves_subperm hk).length_le
        omega

/-- **An insert stores its tuple and loses none exactly if no `PageAddItem` fails.** -/
theorem InsertsTuple.card_contents (h : InsertsTuple env itup box pages pages' evs)
    (hkey : itup.key.isSome = true) (hwf : WF pages) (hs : Shaped pages) :
    (contents pages').card ≤ (contents pages).card + 1 ∧
      ((contents pages').card = (contents pages).card + 1 ↔ AddsOk evs) := by
  obtain ⟨-, hle, hok⟩ := h.wf hkey hwf
  have hcard := Multiset.card_le_card hle
  rw [Multiset.card_cons] at hcard
  refine ⟨hcard, fun heq => ?_, fun hok' => by rw [hok hok', Multiset.card_cons]⟩
  by_contra hbad
  have hne : ∀ x ∈ nodes.blocks (pageAt pages) (metaAt pages).rootLevel (metaAt pages).root,
      x ≠ (metaAt pages).root → (pageAt pages x).items ≠ [] := fun x hx hx' => (hs.others x hx hx').1
  cases h with
  | @keep _ leftBox evs hlen hmagic hins =>
      have hlt := hins.leaves_lt hkey hwf.tree hwf.halloc hne (by simpa using hbad)
      rw [show resultBlocks (metaAt pages).root { leftBox := leftBox, split := none } = [(metaAt pages).root]
        from rfl, forestLeaves_singleton] at hlt
      rw [contents, contents, hins.metaAt_eq hwf.zero_notMem, Multiset.coe_card, Multiset.coe_card] at heq
      exact Nat.ne_of_lt hlt heq
  | @promote pages₁ leftBox right evs hlen hmagic hins hext =>
      have hlt := hins.leaves_lt hkey hwf.tree hwf.halloc hne (by simpa using hbad)
      rw [(hins.promoted_wf hext hkey hwf).2, contents, Multiset.coe_card, Multiset.coe_card] at heq
      exact Nat.ne_of_lt hlt heq

end Insert

/-- `temporal_rtree_insert` returns true whether or not it stores the row. -/
theorem temporalRtreeInsert_true {row : HeapRow} {b : Bool} {s s' : Rel} (hlen : 2 ≤ s.pages.length)
    (h : temporalRtreeInsert env row.key row.tid s = .ok b s') : b = true := by
  cases hkey : row.key with
  | none =>
      rw [hkey, temporalRtreeInsert_run_of_none hlen] at h
      injection h with h
      exact h.symm
  | some cube =>
      rw [hkey, temporalRtreeInsert_run_of_some hlen] at h
      obtain ⟨u, s₁, -, h⟩ := bind_eq_ok.mp h
      injection h with h
      exact h.symm

/-- The rows with a key. -/
def keyedRows (rows : List HeapRow) : Nat := rows.countP fun row => row.key.isSome

/-- One row of a build. -/
theorem temporalRtreeInsert_counted {row : HeapRow} {b : Bool} {s s' : Rel} (hwf : WF s.pages) (hs : Shaped s.pages)
    (h : temporalRtreeInsert env row.key row.tid s = .ok b s') :
    ∃ evs, s'.trace = s.trace ++ evs ∧
      (contents s'.pages).card ≤ (contents s.pages).card + keyedRows [row] ∧
      ((contents s'.pages).card = (contents s.pages).card + keyedRows [row] ↔ AddsOk evs) := by
  rcases temporalRtreeInsert_eq_ok hwf.two_le_length h with ⟨hkey, rfl⟩ | ⟨box, evs, hkey, -, htrace, hins⟩
  · exact ⟨[], by simp, by simp, by simp [keyedRows, hkey]⟩
  · have hone : keyedRows [row] = 1 := by simp [keyedRows, hkey]
    rw [hone]
    exact ⟨evs, htrace, hins.card_contents hkey hwf hs⟩

/-- **The rows of a build.** Each is counted; stored are at most those with a key, and these if no `PageAddItem`
    fails. -/
theorem rtreeBuildCallback_counted {rows : List HeapRow} {n n' : Nat} {s s' : Rel} (hwf : WF s.pages)
    (hs : Shaped s.pages) (h : rtreeBuildCallback env rows n s = .ok n' s') :
    n' = n + rows.length ∧ ∃ evs, s'.trace = s.trace ++ evs ∧
      (contents s'.pages).card ≤ (contents s.pages).card + keyedRows rows ∧
      ((contents s'.pages).card = (contents s.pages).card + keyedRows rows ↔ AddsOk evs) := by
  induction rows generalizing n s with
  | nil =>
      cases h
      exact ⟨rfl, [], by simp, Nat.le_refl _, by simp [keyedRows]⟩
  | cons row rest ih =>
      obtain ⟨b, s₁, hins, h⟩ := bind_eq_ok.mp h
      rw [temporalRtreeInsert_true hwf.two_le_length hins, if_pos rfl] at h
      obtain ⟨hwf₁, hs₁⟩ := (shaped_opInvariant env).temporalRtreeInsert (fun _ => trivial) (Or.inr ⟨hwf, hs⟩) hins
      obtain ⟨evs, htrace, hle, hiff⟩ := temporalRtreeInsert_counted hwf hs hins
      obtain ⟨hn, evs', htrace', hle', hiff'⟩ := ih hwf₁ hs₁ h
      have hcons : keyedRows (row :: rest) = keyedRows [row] + keyedRows rest :=
        @List.countP_append _ _ [row] rest
      refine ⟨by rw [hn, List.length_cons]; omega, evs ++ evs', ?_, ?_, ?_⟩
      · rw [htrace', htrace, List.append_assoc]
      · omega
      · rw [addsOk_append, ← hiff, ← hiff']
        omega

/-! ## What is reported -/

/-- The counts a bulk deletion is to report, given the pages before and after. -/
structure DeletionCounts (stats : Option IndexBulkDeleteResult) (before after : List Page)
    (res : IndexBulkDeleteResult) : Prop where
  remaining : res.numIndexTuples = (contents after).card
  removed : res.tuplesRemoved = (stats.getD {}).tuplesRemoved + (contents before - contents after).card
  total : res.tuplesRemoved + res.numIndexTuples = (stats.getD {}).tuplesRemoved + (contents before).card

/-- The leaf tuples left and removed, as counts over the leaves before. -/
theorem card_filter_isAlive (callback : IndexBulkDeleteCallback) (leaves : List IndexTuple) :
    ((leaves : Multiset IndexTuple).filter fun t => isAlive callback t = true).card =
        leaves.countP (isAlive callback) ∧
      ((leaves : Multiset IndexTuple) - (leaves : Multiset IndexTuple).filter fun t => isAlive callback t = true).card
        = leaves.countP (fun t => isDead callback t.tTid) ∧
      leaves.length = leaves.countP (isAlive callback) + leaves.countP (fun t => isDead callback t.tTid) := by
  have hleft : ((leaves : Multiset IndexTuple).filter fun t => isAlive callback t = true).card =
      leaves.countP (isAlive callback) := by
    rw [Multiset.filter_coe, Multiset.coe_card, List.countP_eq_length_filter]
    simp
  have htotal : leaves.length = leaves.countP (isAlive callback) + leaves.countP (fun t => isDead callback t.tTid) := by
    rw [List.length_eq_countP_add_countP (isAlive callback)]
    congr 2
    funext t
    simp [isAlive]
  refine ⟨hleft, ?_, htotal⟩
  rw [Multiset.card_sub (Multiset.filter_le _ _), hleft, Multiset.coe_card, htotal, Nat.add_sub_cancel_left]

/-- The leaf tuples before a bulk deletion. -/
theorem temporalRtreeBulkdelete_counts_iff {stats : Option IndexBulkDeleteResult} {res : IndexBulkDeleteResult}
    {s s' : Rel} (hvalid : Valid s.pages) (h : temporalRtreeBulkdelete env stats callback s = .ok res s') :
    DeletionCounts stats s.pages s'.pages res ↔
      (metaAt s.pages).rootLevel = 0 ∨ ∀ t ∈ contents s.pages, isDead callback t.tTid = true := by
  rcases hvalid with hpages | hwf
  · -- no index yet: nothing to count
    rw [temporalRtreeBulkdelete, bind_of_ok (get_apply s), if_pos (by simp [hpages])] at h
    injection h with hres hs
    rw [← hres, ← hs, hpages, contents_nil]
    exact iff_of_true ⟨rfl, rfl, rfl⟩ (Or.inl rfl)
  · obtain ⟨hcont, hcounted⟩ := temporalRtreeBulkdelete_counted hwf h
    obtain ⟨hleft, hgone, htotal⟩ := card_filter_isAlive callback
      (nodes.leaves (pageAt s.pages) (metaAt s.pages).rootLevel (metaAt s.pages).root)
    have hremoved : res.tuplesRemoved = (stats.getD {}).tuplesRemoved + _ := hcounted.removed
    have hiff := hcounted.eq_iff
    rw [show (bulkdeleteStats s.pages.length stats).numIndexTuples = 0 from rfl, Nat.zero_add, not_not] at hiff
    show _ ↔ _ ∨ ∀ t ∈ nodes.leaves (pageAt s.pages) (metaAt s.pages).rootLevel (metaAt s.pages).root, _
    rw [← hiff]
    constructor
    · intro hcounts
      rw [hcounts.remaining, hcont]
      exact hleft
    · intro heq
      refine ⟨?_, ?_, ?_⟩
      · rw [heq, hcont]
        exact hleft.symm
      · rw [hremoved, hcont]
        exact congrArg _ hgone.symm
      · rw [hremoved, heq, contents, Multiset.coe_card]
        omega

/-- The rows of a build. -/
theorem temporalRtreeBuild_counts_iff {rows : List HeapRow} {res : IndexBuildResult} {s s' : Rel}
    (hpages : s.pages = []) (h : temporalRtreeBuild env rows s = .ok res s') :
    ∃ evs, s'.trace = s.trace ++ evs ∧
      (res.indexTuples = (contents s'.pages).card ↔ (∀ row ∈ rows, row.key.isSome = true) ∧ AddsOk evs) := by
  obtain ⟨u, s₁, hinit, h⟩ := bind_eq_ok.mp h
  obtain ⟨n, s₂, hrows, h⟩ := bind_eq_ok.mp h
  injection h with hres hs
  subst hs
  have hpages₁ := rtreeMetaAndRootInit_eq_ok hpages hinit
  -- the initialisation adds no tuple
  obtain ⟨evs₀, htrace₀, hok₀⟩ : ∃ evs₀, s₁.trace = s.trace ++ evs₀ ∧ AddsOk evs₀ := by
    by_cases hext : canExtend env s.pages.length ∧ canExtend env (s.pages.length + 1)
    · rw [rtreeMetaAndRootInit_run hext.1 hext.2] at hinit
      injection hinit with _ hs₁
      exact ⟨_, by rw [← hs₁], by simp⟩
    · obtain ⟨s₂, evs, hrun, -⟩ := rtreeMetaAndRootInit_eq_error hext
      rw [hrun] at hinit
      exact absurd hinit (by simp)
  obtain ⟨hn, evs, htrace, hle, hiff⟩ := rtreeBuildCallback_counted (hpages₁ ▸ initPages_wf.1)
    (hpages₁ ▸ (shaped_opInvariant env).init) hrows
  rw [hpages₁, initPages_wf.2, Multiset.card_zero, Nat.zero_add] at hle hiff
  have hkeyed : keyedRows rows ≤ rows.length := List.countP_le_length
  have hall : keyedRows rows = rows.length ↔ ∀ row ∈ rows, row.key.isSome = true := List.countP_eq_length
  refine ⟨evs₀ ++ evs, by rw [htrace, htrace₀, List.append_assoc], ?_⟩
  rw [← hres, addsOk_append, and_iff_right hok₀, ← hall, ← hiff, hn]
  dsimp only
  omega

/-- **The reported counts.** A completed bulk deletion reports the leaf tuples left and removed exactly if the root
    is a leaf or nothing is left; a completed build reports the leaf tuples stored exactly if no key is NULL and
    no `PageAddItem` fails. Pages with more tuples than the work arrays hold are treated like any other here. -/
theorem reported_counts_iff (env : Env) :
    (∀ (stats : Option IndexBulkDeleteResult) (callback : IndexBulkDeleteCallback) (res : IndexBulkDeleteResult)
      (s s' : Rel), Valid s.pages → temporalRtreeBulkdelete env stats callback s = .ok res s' →
        (DeletionCounts stats s.pages s'.pages res ↔
          (metaAt s.pages).rootLevel = 0 ∨ ∀ t ∈ contents s.pages, isDead callback t.tTid = true)) ∧
    ∀ (rows : List HeapRow) (res : IndexBuildResult) (s s' : Rel), s.pages = [] →
      temporalRtreeBuild env rows s = .ok res s' →
        ∃ evs, s'.trace = s.trace ++ evs ∧
          (res.indexTuples = (contents s'.pages).card ↔
            (∀ row ∈ rows, row.key.isSome = true) ∧ AddsOk evs) := by
  refine ⟨?_, ?_⟩
  · intro stats callback res s s' hvalid h
    exact temporalRtreeBulkdelete_counts_iff hvalid h
  · intro rows res s s' hpages h
    exact temporalRtreeBuild_counts_iff hpages h

/-- One leaf with three tuples, of which one is removed, and a build that splits its root. -/
theorem reported_counts_stairs :
    (∃ res s', temporalRtreeBulkdelete roomyEnv none (some fun tid => tid == (stair 1).tTid) (stairs 3) = .ok res s' ∧
      (contents s'.pages).card = 2 ∧ DeletionCounts none (stairs 3).pages s'.pages res) ∧
    ∃ res s', temporalRtreeBuild roomyEnv (stairRows 6) { pages := [] } = .ok res s' ∧
      (metaAt s'.pages).rootLevel = 1 ∧ res.indexTuples = (contents s'.pages).card := by
  constructor
  · have hok : okWith (fun _ s' => decide ((contents s'.pages).card = 2))
        (temporalRtreeBulkdelete roomyEnv none (some fun tid => tid == (stair 1).tTid) (stairs 3)) = true := by
      decide +kernel
    obtain ⟨res, s', hrun, hcard⟩ := exists_of_okWith hok
    exact ⟨res, s', hrun, of_decide_eq_true hcard,
      ((reported_counts_iff roomyEnv).1 _ _ _ _ _ (Or.inr (stairs_wf 3)) hrun).mpr (Or.inl rfl)⟩
  · have hok : okWith (fun _ s' => decide ((metaAt s'.pages).rootLevel = 1) && decide (AddsOk s'.trace))
        (temporalRtreeBuild roomyEnv (stairRows 6) { pages := [] }) = true := by decide +kernel
    obtain ⟨res, s', hrun, hcheck⟩ := exists_of_okWith hok
    rw [Bool.and_eq_true, decide_eq_true_eq, decide_eq_true_eq] at hcheck
    obtain ⟨evs, htrace, hiff⟩ := (reported_counts_iff roomyEnv).2 _ _ _ _ rfl hrun
    rw [htrace, List.nil_append] at hcheck
    exact ⟨res, s', hrun, hcheck.1, hiff.mpr ⟨by simp [stairRows, stair], hcheck.2⟩⟩

/-- A bulk deletion that removes nothing from an index of two levels reports the two downlinks of its root as well,
    and a build over a row without a key reports it. -/
theorem reported_counts_wrong :
    (∃ s res s', runOps roomyEnv [.build (stairRows 6)] { pages := [] } = .ok () s ∧
      temporalRtreeBulkdelete roomyEnv none none s = .ok res s' ∧
      res.numIndexTuples = 8 ∧ (contents s'.pages).card = 6) ∧
    ∃ res s', temporalRtreeBuild roomyEnv [⟨{ blkno := 0, offnum := 1 }, none⟩] { pages := [] } = .ok res s' ∧
      res.indexTuples = 1 ∧ (contents s'.pages).card = 0 := by
  constructor
  · have hok : okWith (fun _ s =>
        okWith (fun res s' => decide (res.numIndexTuples = 8 ∧ (contents s'.pages).card = 6))
          (temporalRtreeBulkdelete roomyEnv none none s))
        (runOps roomyEnv [.build (stairRows 6)] { pages := [] }) = true := by decide +kernel
    obtain ⟨u, s, hbuild, hok⟩ := exists_of_okWith hok
    obtain ⟨res, s', hrun, hcounts⟩ := exists_of_okWith hok
    exact ⟨s, res, s', hbuild, hrun, of_decide_eq_true hcounts⟩
  · have hok : okWith (fun res s' => decide (res.indexTuples = 1 ∧ (contents s'.pages).card = 0))
        (temporalRtreeBuild roomyEnv [⟨{ blkno := 0, offnum := 1 }, none⟩] { pages := [] }) = true := by
      decide +kernel
    obtain ⟨res, s', hrun, hcounts⟩ := exists_of_okWith hok
    exact ⟨res, s', hrun, of_decide_eq_true hcounts⟩

end TemporalRTree
