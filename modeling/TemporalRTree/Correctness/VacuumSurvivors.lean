import TemporalRTree.Correctness.ExactBoxes
import TemporalRTree.Correctness.PageLife
import TemporalRTree.Lib.Pruning

/-!
# `Correctness.VacuumSurvivors` — which pages a bulk deletion drops

A walk reports to its caller the trees that have a live tuple (`Vacuums.walked_eq`), and what it leaves of them are
their survivors in the sense of `Lib.Pruning` (`Vacuums.survivors`). Then the root is shrunk by one level at most. So a
bulk deletion drops exactly the pages without a surviving tuple below them, and the page whose tuples move up into the
root (`bulkdelete_unlinks_iff`).
-/

namespace TemporalRTree
open EStateM Layout

/-! ## The walk -/

section Walk
variable {env : Env} {callback : IndexBulkDeleteCallback} {pages pages' : List Page} {cs : List BlockNumber}
  {walked : List (BlockNumber × RTreeTemporalBox)} {evs : List Event} {level : Nat}

/-- There is a live tuple in the tree of level `l` at `c`. -/
def hasLive (callback : IndexBulkDeleteCallback) (pages : List Page) (l : Nat) (c : BlockNumber) : Bool :=
  (nodes.leaves (pageAt pages) l c).any (isAlive callback)

theorem hasLive_congr {pages₁ : List Page} {c : BlockNumber}
    (h : ∀ x ∈ nodes.blocks (pageAt pages) level c, pageAt pages₁ x = pageAt pages x) :
    hasLive callback pages₁ level c = hasLive callback pages level c := by
  rw [hasLive, hasLive, leaves_congr h]

/-- A walk reports the trees with a live tuple. -/
theorem Vacuums.walked_eq (h : Vacuums env callback pages cs walked pages' evs)
    (hf : nodes.Forest NodeOk (pageAt pages) level cs)
    (halloc : ∀ x ∈ nodes.forestBlocks (pageAt pages) level cs, x ∈ allocated pages) :
    walked.map Prod.fst = cs.filter (hasLive callback pages level) := by
  -- one page, and the walk over the others
  have hcons : ∀ {pages pages₁ : List Page} {blk : BlockNumber} {rest : List BlockNumber}
      {kept : List (IndexTuple × RTreeTemporalBox)} {walked : List (BlockNumber × RTreeTemporalBox)} {level : Nat},
      ((!kept.isEmpty) = hasLive callback pages level blk) →
      (∀ x ∈ nodes.forestBlocks (pageAt pages) level rest, pageAt pages₁ x = pageAt pages x) →
      walked.map Prod.fst = rest.filter (hasLive callback pages₁ level) →
      (reported blk kept ++ walked).map Prod.fst = (blk :: rest).filter (hasLive callback pages level) := by
    intro pages pages₁ blk rest kept walked level hkept hframe hwalked
    have hrest : rest.filter (hasLive callback pages₁ level) = rest.filter (hasLive callback pages level) :=
      List.filter_congr fun c hc => hasLive_congr fun x hx => hframe x (blocks_subset_forest hc hx)
    rw [List.map_append, reported_fst, hkept, hwalked, hrest, List.filter_cons]
    split
    · rfl
    · rfl
  induction h generalizing level with
  | nil => rfl
  | @leaf pages pages' blk rest page' walked evs hblk hleaf hpage hrest ih =>
      have hp := (hf.holds _ List.mem_cons_self).node
      obtain rfl := hp.leaf_iff.mp hleaf
      have hhead := hpage.leaf_spec hp hblk
      obtain ⟨hframe, hf₁, hin₁⟩ := hhead.rest_forest hf halloc
      refine hcons ?_ hframe (ih hf₁ hin₁)
      rw [Bool.eq_iff_iff, hasLive, List.any_eq_true, hpage.isEmpty_iff, hpage.page.1, leafKept_fst hp.keys, ne_eq,
        List.filter_eq_nil_iff]
      simp [nodes]
  | @inner pages pages₁ pages' blk rest page' kids walked evs evs' hblk hinner hkids hpage hrest ihkids ih =>
      have hp := (hf.holds _ List.mem_cons_self).node
      obtain ⟨l, rfl⟩ := hp.level_of_inner hinner
      obtain ⟨hfblk, hinblk, hfkids, hinkids⟩ := head_kids hf halloc
      have hhead := hpage.inner_spec hfblk hinblk (hkids.forest hfkids hinkids)
      obtain ⟨hframe, hf₁, hin₁⟩ := hhead.rest_forest hf halloc
      refine hcons ?_ hframe (ih hf₁ hin₁)
      have hreported := ihkids hfkids hinkids
      have hempty : (downlinksTo kids).isEmpty = (kids.map Prod.fst).isEmpty := by
        cases kids with
        | nil => rfl
        | cons => rfl
      rw [hempty, hreported, hasLive, leaves_succ, forestLeaves, List.any_flatMap, Bool.eq_iff_iff]
      simp [hasLive, nodes]

/-- A page that is rebuilt over the survivors of its children. -/
theorem survivors_eq {l : Nat} {blk : BlockNumber} (hlive : hasLive callback pages (l + 1) blk = true) :
    nodes.survivors (isAlive callback) (pageAt pages) (l + 1) blk =
      blk :: (nodes.kids (pageAt pages blk)).flatMap (nodes.survivors (isAlive callback) (pageAt pages) l) :=
  if_pos hlive

/-- **A walk leaves the survivors of its trees.** -/
theorem Vacuums.survivors (h : Vacuums env callback pages cs walked pages' evs)
    (hf : nodes.Forest NodeOk (pageAt pages) level cs)
    (halloc : ∀ x ∈ nodes.forestBlocks (pageAt pages) level cs, x ∈ allocated pages) :
    nodes.forestBlocks (pageAt pages') level (walked.map Prod.fst) =
      cs.flatMap (nodes.survivors (isAlive callback) (pageAt pages) level) := by
  induction h generalizing level with
  | nil => rfl
  | @leaf pages pages' blk rest page' walked evs hblk hleaf hpage hrest ih =>
      have hp := (hf.holds _ List.mem_cons_self).node
      obtain rfl := hp.leaf_iff.mp hleaf
      have hwalked := (Vacuums.leaf hblk hleaf hpage hrest).walked_eq hf halloc
      rw [forestBlocks_zero, hwalked]
      -- at level 0 a tree is its top
      have hfilter : ∀ cs : List BlockNumber, cs.filter (hasLive callback pages 0) =
          cs.flatMap (nodes.survivors (isAlive callback) (pageAt pages) 0) := by
        intro cs
        induction cs with
        | nil => rfl
        | cons c cs ih =>
            rw [List.filter_cons, List.flatMap_cons, ← ih]
            show (if hasLive callback pages 0 c = true then _ else _) =
              (if hasLive callback pages 0 c = true then _ else _) ++ _
            split
            · rfl
            · rfl
      exact hfilter _
  | @inner pages pages₁ pages' blk rest page' kids walked evs evs' hblk hinner hkids hpage hrest ihkids ih =>
      have hp := (hf.holds _ List.mem_cons_self).node
      obtain ⟨l, rfl⟩ := hp.level_of_inner hinner
      obtain ⟨hfblk, hinblk, hfkids, hinkids⟩ := head_kids hf halloc
      have hwalk := hkids.forest hfkids hinkids
      have hhead := hpage.inner_spec hfblk hinblk hwalk
      obtain ⟨hframe, hf₁, hin₁⟩ := hhead.rest_forest hf halloc
      have hblk₁ : blk < pages₁.length := hkids.length_eq.symm ▸ hblk
      have hself : pageAt (pages₁.set blk (.data page')) blk = page' := pageAt_set_self hblk₁
      have hlinks : nodes.kids page' = kids.map Prod.fst := by
        simp [nodes, hpage.page.1, downlinksTo, rtreeFormTuple, childTid]
      -- the walk over the other pages
      have hothers : nodes.forestBlocks (pageAt pages') (l + 1) (walked.map Prod.fst) =
          rest.flatMap (nodes.survivors (isAlive callback) (pageAt pages) (l + 1)) := by
        rw [ih hf₁ hin₁]
        exact List.flatMap_congr fun c hc => survivors_congr fun x hx => hframe x (blocks_subset_forest hc hx)
      rw [List.map_append, forestBlocks_append, hothers, List.flatMap_cons]
      congr 1
      have hreported := (Vacuums.inner hblk hinner hkids hpage .nil).walked_eq hfblk hinblk
      rw [List.append_nil] at hreported
      rw [hreported]
      cases hlive : hasLive callback pages (l + 1) blk with
      | false =>
          rw [List.filter_cons_of_neg (by simp [hlive]), survivors_eq_nil hlive]
          rfl
      | true =>
          have hne : downlinksTo kids ≠ [] := by
            intro hnil
            rw [hnil, reported, if_pos rfl, List.filter_cons_of_pos hlive] at hreported
            exact absurd hreported (by simp)
          have hkept := hhead.reported_frame hf halloc (hrest.forest hf₁ hin₁) hne
          have hbelow : nodes.forestBlocks (pageAt pages₁) l (kids.map Prod.fst) =
            (nodes.kids (pageAt pages blk)).flatMap (nodes.survivors (isAlive callback) (pageAt pages) l) :=
              ihkids hfkids hinkids
          rw [List.filter_cons_of_pos hlive, List.filter_nil, forestBlocks_singleton, blocks_congr hkept,
            survivors_eq hlive, blocks_succ, hself, hlinks, ← hbelow]
          congr 1
          refine forestBlocks_congr fun x hx => pageAt_set_ne ?_
          rintro rfl
          exact hwalk.update.top_notMem hfblk hblk hx

end Walk

/-! ## The whole call -/

/-- A tuple below `b` survives. -/
def Outlives (callback : IndexBulkDeleteCallback) (pages : List Page) (b : BlockNumber) : Prop :=
  ∃ u, LeafBelow pages u b ∧ isDead callback u.tTid = false

/-- Of the children of the root, `b` alone has a surviving tuple below it, so that it moves up into the root. -/
def MovesUp (callback : IndexBulkDeleteCallback) (pages : List Page) (b : BlockNumber) : Prop :=
  (∃ i, Downlink pages (metaAt pages).root i b) ∧
    ∀ i c, Downlink pages (metaAt pages).root i c → Outlives callback pages c → c = b

section Delete
variable {env : Env} {callback : IndexBulkDeleteCallback} {pages pages₁ pages' : List Page} {b : BlockNumber}
  {walked : List (BlockNumber × RTreeTemporalBox)} {evs evs' : List Event} {l m : Nat}

theorem outlives_iff (h : nodes.Holds NodeOk (pageAt pages) m b) :
    Outlives callback pages b ↔ hasLive callback pages m b = true := by
  rw [hasLive, List.any_eq_true]
  refine exists_congr fun u => and_congr (leafBelow_iff h) ?_
  rw [isAlive, Bool.not_eq_true']

theorem exists_downlink_iff (hinner : (pageAt pages (metaAt pages).root).special.flags.leaf = false) :
    (∃ i, Downlink pages (metaAt pages).root i b) ↔ b ∈ nodes.kids (pageAt pages (metaAt pages).root) := by
  rw [List.mem_iff_getElem?]
  refine exists_congr fun i => ?_
  rw [Downlink, and_iff_right hinner, nodes, List.getElem?_map]

/-- The tree after the walk from an inner root. -/
theorem Vacuums.inner_root (hwf : WF pages) (hl : (metaAt pages).rootLevel = l + 1)
    (h : Vacuums env callback pages [(metaAt pages).root] walked pages₁ evs) :
    nodes.kids (pageAt pages₁ (metaAt pages).root) =
        (nodes.kids (pageAt pages (metaAt pages).root)).filter (hasLive callback pages l) ∧
      nodes.blocks (pageAt pages₁) (l + 1) (metaAt pages).root =
        (metaAt pages).root :: (nodes.kids (pageAt pages (metaAt pages).root)).flatMap
          (nodes.survivors (isAlive callback) (pageAt pages) l) := by
  have hf := hwf.tree
  have halloc := hwf.halloc
  rw [hl] at hf halloc
  have hp := (hf.holds _ (List.mem_singleton.mpr rfl)).node
  generalize hroot : (metaAt pages).root = root at h hf halloc hp
  cases h with
  | leaf hblk hleaf => exact absurd (hp.leaf_iff.mp hleaf) (Nat.succ_ne_zero l)
  | @inner _ pages₂ _ _ _ page' kids walked evs evs' hblk hinner hkids hpage hrest =>
      cases hrest
      obtain ⟨hfblk, hinblk, hfkids, hinkids⟩ := head_kids hf halloc
      have hself : pageAt (pages₂.set root (.data page')) root = page' :=
        pageAt_set_self (hkids.length_eq.symm ▸ hblk)
      have hlinks : nodes.kids page' = kids.map Prod.fst := by
        simp [nodes, hpage.page.1, downlinksTo, rtreeFormTuple, childTid]
      have hwalked : kids.map Prod.fst =
          (nodes.kids (pageAt pages root)).filter (hasLive callback pages l) := hkids.walked_eq hfkids hinkids
      have hbelow : nodes.forestBlocks (pageAt pages₂) l (kids.map Prod.fst) =
          (nodes.kids (pageAt pages root)).flatMap (nodes.survivors (isAlive callback) (pageAt pages) l) :=
        hkids.survivors hfkids hinkids
      refine ⟨by rw [hself, hlinks, hwalked], ?_⟩
      rw [blocks_succ, hself, hlinks, ← hbelow]
      refine congrArg (root :: ·) (forestBlocks_congr fun x hx => pageAt_set_ne ?_)
      rintro rfl
      exact (hkids.forest hfkids hinkids).update.top_notMem hfblk hblk hx

/-- A page of the tree below the root is in it after the walk if a tuple below it survives. -/
theorem mem_flatMap_survivors_iff (hwf : WF pages) (hl : (metaAt pages).rootLevel = l + 1)
    (hb : Linked pages b) (hne : b ≠ (metaAt pages).root) :
    b ∈ (nodes.kids (pageAt pages (metaAt pages).root)).flatMap
      (nodes.survivors (isAlive callback) (pageAt pages) l) ↔ Outlives callback pages b := by
  have hroot := hwf.tree.holds _ (List.mem_singleton.mpr rfl)
  rw [hl] at hroot
  constructor
  · intro hmem
    obtain ⟨k, hk, hmem⟩ := List.mem_flatMap.mp hmem
    obtain ⟨m, hbel, hlive⟩ := mem_survivors.mp hmem
    exact (outlives_iff (hbel.holds (hroot.2 k hk))).mpr hlive
  · intro hout
    rw [linked_iff hwf, hl, blocks_succ, List.mem_cons] at hb
    obtain ⟨k, hk, hmem⟩ := mem_forestBlocks.mp (hb.resolve_left hne)
    obtain ⟨m, hbel⟩ := exists_below hmem
    refine List.mem_flatMap.mpr ⟨k, hk, mem_survivors.mpr ⟨m, hbel, ?_⟩⟩
    exact (outlives_iff (hbel.holds (hroot.2 k hk))).mp hout

/-- **A bulk deletion unlinks the pages without a surviving tuple below them, and the page that moves up into the
    root.** -/
theorem Vacuums.linked_iff (hwf : WF pages) (h : Vacuums env callback pages [(metaAt pages).root] walked pages₁ evs)
    (hv : WF pages₁ ∨ Emptied pages₁) (hmeta : metaAt pages₁ = metaAt pages)
    (hshrinks : ShrinksRoot env pages₁ pages' evs') (hb : Linked pages b) (hne : b ≠ (metaAt pages).root) :
    Linked pages' b ↔ Outlives callback pages b ∧ ¬ MovesUp callback pages b := by
  obtain ⟨l, hl⟩ : ∃ l, (metaAt pages).rootLevel = l + 1 := by
    refine Nat.exists_eq_succ_of_ne_zero fun h0 => hne ?_
    rw [TemporalRTree.linked_iff hwf, h0] at hb
    exact List.mem_singleton.mp hb
  have hroot := hwf.tree.holds _ (List.mem_singleton.mpr rfl)
  rw [hl] at hroot
  have hinner : (pageAt pages (metaAt pages).root).special.flags.leaf = false := by
    have hiff := hroot.1.leaf_iff
    simpa using hiff
  obtain ⟨hkids₁, hblocks₁⟩ := h.inner_root hwf hl
  have hmem : b ∈ (nodes.kids (pageAt pages (metaAt pages).root)).flatMap
      (nodes.survivors (isAlive callback) (pageAt pages) l) ↔ Outlives callback pages b :=
    mem_flatMap_survivors_iff hwf hl hb hne
  -- the children of the root that are left are those with a survivor
  have hleft : ∀ c, c ∈ nodes.kids (pageAt pages₁ (metaAt pages).root) ↔
      (∃ i, Downlink pages (metaAt pages).root i c) ∧ Outlives callback pages c := by
    intro c
    rw [hkids₁, List.mem_filter, exists_downlink_iff hinner]
    exact and_congr_right fun hc => (outlives_iff (hroot.2 c hc)).symm
  rw [TemporalRTree.linked_iff (hshrinks.wf hv).1]
  cases hshrinks with
  | stay hstay =>
      rw [hmeta, hl] at hstay
      have htwo := hstay.resolve_left (Nat.succ_ne_zero l)
      rw [hmeta, hl, hblocks₁, List.mem_cons, or_iff_right hne, hmem]
      refine ⟨fun hout => ⟨hout, fun hup => ?_⟩, And.left⟩
      -- two children are left, so `b` is not the only one
      have hnodup : (nodes.kids (pageAt pages₁ (metaAt pages).root)).Nodup := by
        rw [hkids₁]
        exact (Forest.nodup_tops (hl ▸ hwf.tree).kids.2.1).filter _
      have hall : ∀ c ∈ nodes.kids (pageAt pages₁ (metaAt pages).root), c = b := by
        intro c hc
        obtain ⟨⟨i, hdown⟩, hout'⟩ := (hleft c).mp hc
        exact hup.2 i c hdown hout'
      have hle : (nodes.kids (pageAt pages₁ (metaAt pages).root)).length ≤ 1 := by
        have hsub : (nodes.kids (pageAt pages₁ (metaAt pages).root)).Subperm [b] :=
          List.subperm_of_subset hnodup fun c hc => List.mem_singleton.mpr (hall c hc)
        exact hsub.length_le
      rw [nodes, List.length_map] at hle
      exact absurd htwo (by omega)
  | emptied hl' hitems =>
      rw [hmeta] at hitems
      have hnone : ¬ Outlives callback pages b := by
        rw [← hmem]
        intro hsurv
        have hlink : b ∈ nodes.blocks (pageAt pages₁) (l + 1) (metaAt pages).root := by
          rw [hblocks₁]
          exact List.mem_cons_of_mem _ hsurv
        rw [blocks_succ, List.mem_cons] at hlink
        exact absurd (hlink.resolve_left hne) (by simp [nodes, hitems])
      refine iff_of_false (fun hlink => hne ?_) fun hand => hnone hand.1
      have hrange : 0 < (metaAt pages₁).root ∧ (metaAt pages₁).root < pages₁.length := by
        rw [hmeta, (h.forest hwf.tree hwf.halloc).length_eq]
        exact hwf.root_range
      rw [emptyRootPages, blocks_metaPages (by simpa using hrange), hmeta] at hlink
      exact List.mem_singleton.mp hlink
  | @collapsed l' childitup hl' hitems =>
      have hwf₁ : WF pages₁ := hv.resolve_right fun hv => by simp [hv.items] at hitems
      obtain rfl : l' = l := by
        rw [hmeta, hl] at hl'
        exact (Nat.succ.inj hl').symm
      obtain ⟨hlevel, hself, -, -, hsub⟩ := hwf₁.hoist hl' hitems
      have hrange := hwf₁.range
      have hf := hwf₁.tree
      rw [hl'] at hrange hf
      have hkid : nodes.kids (pageAt pages₁ (metaAt pages₁).root) = [childitup.tTid.blkno] := by
        simp [nodes, hitems]
      have hhoist := hf.hoist_blocks
        (pageAt (pages₁.set (metaAt pages₁).root (.data (collapsedRoot (pageAt pages₁ childitup.tTid.blkno)))))
        hkid (by rw [hself]; rfl) fun x hx => pageAt_set_ne hx
      rw [collapsedPages, hlevel, blocks_metaPages fun x hx => by rw [List.length_set]; exact hrange x (hsub hx)]
      generalize pageAt (pages₁.set (metaAt pages₁).root (.data (collapsedRoot (pageAt pages₁ childitup.tTid.blkno))))
        = st' at hhoist
      have hhead : nodes.blocks st' l' (metaAt pages₁).root =
          (metaAt pages₁).root :: (nodes.blocks st' l' (metaAt pages₁).root).tail := by
        cases l' with
        | zero => rfl
        | succ l => rfl
      have hnodup := hf.nodup
      rw [forestBlocks_singleton, hhoist] at hnodup
      rw [hhead, hmeta, List.mem_cons, or_iff_right hne]
      rw [hmeta] at hhoist hkid hnodup
      rw [hblocks₁] at hhoist
      rw [(List.cons.inj hhoist).2, List.mem_cons] at hmem
      -- the child that is left is the one that moves up
      have hup : Outlives callback pages b → (MovesUp callback pages b ↔ b = childitup.tTid.blkno) := by
        intro hout
        rw [hkid] at hleft
        constructor
        · intro hup
          exact List.mem_singleton.mp ((hleft b).mpr ⟨hup.1, hout⟩)
        · rintro rfl
          refine ⟨((hleft _).mp (List.mem_singleton.mpr rfl)).1, fun i c hdown hc => ?_⟩
          exact List.mem_singleton.mp ((hleft c).mpr ⟨⟨i, hdown⟩, hc⟩)
      constructor
      · intro hlink
        have hout := hmem.mp (Or.inr hlink)
        refine ⟨hout, fun hmoves => ?_⟩
        rw [(hup hout).mp hmoves] at hlink
        exact (List.nodup_cons.mp (List.nodup_cons.mp hnodup).2).1 hlink
      · rintro ⟨hout, hnot⟩
        exact (hmem.mpr hout).resolve_left fun he => hnot ((hup hout).mpr he)

/-- The root stays in its block. -/
theorem ShrinksRoot.root_eq (h : ShrinksRoot env pages pages' evs') (hlen : 0 < pages.length) :
    (metaAt pages').root = (metaAt pages).root := by
  cases h with
  | stay => rfl
  | emptied hl hitems =>
      rw [emptyRootPages, metaPages, metaAt_set_zero (by rwa [List.length_set])]
  | collapsed hl hitems =>
      rw [collapsedPages, metaPages, metaAt_set_zero (by rwa [List.length_set])]

end Delete

/-- **What a bulk deletion unlinks.** After a completed bulk deletion on any index that a run of completed operations
    has reached, a page of the tree is still in it exactly if it is the root or a tuple below it survives; except for a
    child of the root below which alone there are survivors, whose tuples the root takes over. -/
theorem bulkdelete_unlinks_iff {env : Env} {ops : List Op} {s s' : Rel} {stats : Option IndexBulkDeleteResult}
    {callback : IndexBulkDeleteCallback} {res : IndexBulkDeleteResult} {b : BlockNumber}
    (hreached : runOps env ops { pages := [] } = .ok () s)
    (hrun : temporalRtreeBulkdelete env stats callback s = .ok res s') (hb : Linked s.pages b) :
    Linked s'.pages b ↔
      b = (metaAt s.pages).root ∨ (Outlives callback s.pages b ∧ ¬ MovesUp callback s.pages b) := by
  rcases runOps_valid (Or.inl rfl) hreached with hnil | hwf
  · rw [temporalRtreeBulkdelete, bind_of_ok (get_apply s), if_pos (by simp [hnil])] at hrun
    injection hrun with _ hrun
    subst hrun
    obtain ⟨d, hd⟩ := hb
    cases hd with
    | root => exact iff_of_true ⟨0, .root⟩ (Or.inl rfl)
    | down hd hinner ht => simp [hnil, pageAt, Page.asData] at ht
  · obtain ⟨walked, pages₁, evs, evs', hvac, hv, hmeta, hshrinks, -⟩ := temporalRtreeBulkdelete_eq_ok hwf hrun
    rcases eq_or_ne b (metaAt s.pages).root with rfl | hne
    · refine iff_of_true ?_ (Or.inl rfl)
      have hlen : 0 < pages₁.length := by
        rw [(hvac.forest hwf.tree hwf.halloc).length_eq]
        exact Nat.zero_lt_of_lt hwf.root_range.2
      rw [← hmeta, ← hshrinks.root_eq hlen]
      exact ⟨0, .root⟩
    · rw [hvac.linked_iff hwf hv hmeta hshrinks hb hne, or_iff_right hne]

/-- The first leaf is dropped since none of its tuples survives. -/
theorem bulkdelete_unlinks_first_leaf :
    ∃ s res s', runOps roomyEnv [.build (stairRows 6)] { pages := [] } = .ok () s ∧
      temporalRtreeBulkdelete roomyEnv none (some fun tid => decide (tid.offnum ≤ 3)) s = .ok res s' ∧
      Linked s.pages 1 ∧ ¬ Outlives (some fun tid => decide (tid.offnum ≤ 3)) s.pages 1 ∧ ¬ Linked s'.pages 1 := by
  have hok : okWith (fun _ s => decide (s.pages.length = 4 ∧ (metaAt s.pages).root = 3 ∧
      1 ∈ nodes.blocks (pageAt s.pages) (metaAt s.pages).rootLevel (metaAt s.pages).root ∧
      (pageAt s.pages 1).special.flags.leaf = true ∧ ∀ t ∈ (pageAt s.pages 1).items, t.tTid.offnum ≤ 3) &&
      okWith (fun _ _ => true) (temporalRtreeBulkdelete roomyEnv none (some fun tid => decide (tid.offnum ≤ 3)) s))
      (runOps roomyEnv [.build (stairRows 6)] { pages := [] }) = true := by decide +kernel
  obtain ⟨u, s, hrun, hs⟩ := exists_of_okWith hok
  obtain ⟨hshape, hdelete⟩ := Bool.and_eq_true_iff.mp hs
  obtain ⟨hlen, hroot, hmem, hleaf, hdead⟩ := of_decide_eq_true hshape
  obtain ⟨res, s', hrun', -⟩ := exists_of_okWith hdelete
  have hwf : WF s.pages := (runOps_valid (Or.inl rfl) hrun).resolve_left fun hnil => by simp [hnil] at hlen
  have hlinked : Linked s.pages 1 := (linked_iff hwf).mpr hmem
  have hnone : ¬ Outlives (some fun tid => decide (tid.offnum ≤ 3)) s.pages 1 := by
    rintro ⟨u, hbelow, halive⟩
    cases hbelow with
    | leaf _ hu =>
        have hle := hdead u hu
        simp [isDead, hle] at halive
    | down hinner => simp [hleaf] at hinner
  refine ⟨s, res, s', hrun, hrun', hlinked, hnone, ?_⟩
  rw [bulkdelete_unlinks_iff hrun hrun' hlinked, hroot, not_or]
  exact ⟨by decide, fun hand => hnone hand.1⟩

/-! ## The boxes -/

/-- A downlink of an exact index. -/
theorem ExactIndex.isLeastBox {pages : List Page} {d : Nat} {b : BlockNumber} {t : IndexTuple}
    (hexact : ExactIndex pages) (hwf : WF pages) (hb : Reachable pages d b)
    (hinner : (pageAt pages b).special.flags.leaf = false) (ht : t ∈ (pageAt pages b).items) :
    ∃ box, rtreeIndexTupleBox t = some box ∧
      IsLeastBox {c | ∃ u, LeafBelow pages u t.tTid.blkno ∧ rtreeIndexTupleBox u = some c} box := by
  obtain ⟨m, -, hbel⟩ := hb.below_root hwf
  have hholds := hbel.holds (hwf.tree.holds _ (List.mem_singleton.mpr rfl))
  obtain ⟨l, rfl⟩ := hholds.node.level_of_inner hinner
  obtain ⟨box, hbox, hboxed⟩ := exact_succ.mp (hexact.below hbel) t ht
  refine ⟨box, hbox, ?_⟩
  have hleast := hboxed.isLeastBox.1
  rw [itemBoxes] at hleast
  simp only [leafBelow_iff (hholds.2 _ (List.mem_map_of_mem ht))]
  exact hleast

/-- **A bulk deletion makes the boxes exact.** Whatever boxes the downlinks of a well-formed index have, if its leaf
    tuples have bounded keys, then after a completed bulk deletion every downlink reachable from the root decodes to
    the least box over the leaf tuples below it. -/
theorem bulkdelete_makes_exact {env : Env} {s s' : Rel} {stats : Option IndexBulkDeleteResult}
    {callback : IndexBulkDeleteCallback} {res : IndexBulkDeleteResult} (hwf : WF s.pages)
    (hkeys : ∀ u ∈ contents s.pages, BoundedTuple u)
    (hrun : temporalRtreeBulkdelete env stats callback s = .ok res s') {d : Nat} {b : BlockNumber} {t : IndexTuple}
    (hb : Reachable s'.pages d b) (hinner : (pageAt s'.pages b).special.flags.leaf = false)
    (ht : t ∈ (pageAt s'.pages b).items) :
    ∃ box, rtreeIndexTupleBox t = some box ∧
      IsLeastBox {c | ∃ u, LeafBelow s'.pages u t.tTid.blkno ∧ rtreeIndexTupleBox u = some c} box := by
  obtain ⟨walked, pages₁, evs, evs', hvac, hv, hmeta, hshrinks, -⟩ := temporalRtreeBulkdelete_eq_ok hwf hrun
  have hexact₁ : ExactIndex pages₁ := hvac.exactIndex_of_bounded hwf hkeys hmeta
  exact (hshrinks.exactIndex hexact₁ hv).isLeastBox (hshrinks.wf hv).1 hb hinner ht

/-- Two leaves under a root whose downlinks have the box of neither. -/
def damaged : Rel where
  pages := [.metapage (rtreeInitMetapage 2 1),
    .data (addItems (rtreeInitDatapage { leaf := true } 0) [(periodRow 0).tuple]).1,
    .data (addItems (rtreeInitDatapage { root := true } 1)
      [rtreeFormTuple emptyBox (childTid 1), rtreeFormTuple emptyBox (childTid 3)]).1,
    .data (addItems (rtreeInitDatapage { leaf := true } 0) [(periodRow 1).tuple]).1]

theorem damaged_wf : WF damaged.pages := by
  have hroot : NodeOk 1 (pageAt damaged.pages 2) := ⟨rfl, by decide +kernel, by decide +kernel, fun _ => by decide +kernel⟩
  have hleaf : ∀ c ∈ [1, 3], NodeOk 0 (pageAt damaged.pages c) := by
    intro c hc
    rcases List.mem_pair.mp hc with rfl | rfl
    · exact ⟨rfl, by decide +kernel, by decide +kernel, fun h => absurd rfl h⟩
    · exact ⟨rfl, by decide +kernel, by decide +kernel, fun h => absurd rfl h⟩
  have hkids : nodes.kids (pageAt damaged.pages 2) = [1, 3] := by decide +kernel
  refine ⟨rfl, by decide, ⟨fun c hc => ?_, by decide +kernel⟩, by decide +kernel⟩
  rw [List.mem_singleton.mp hc]
  exact ⟨hroot, fun c hc => hleaf c (hkids ▸ hc)⟩

/-- A bulk deletion without a dead tuple mends them. -/
theorem bulkdelete_makes_exact_damaged :
    ∃ res s', temporalRtreeBulkdelete roomyEnv none none damaged = .ok res s' ∧
      (pageAt s'.pages 2).items.length = 2 ∧ ∀ t ∈ (pageAt s'.pages 2).items, ∃ box, rtreeIndexTupleBox t = some box ∧
        IsLeastBox {c | ∃ u, LeafBelow s'.pages u t.tTid.blkno ∧ rtreeIndexTupleBox u = some c} box := by
  have hok : okWith (fun _ s => decide ((metaAt s.pages).root = 2 ∧ (pageAt s.pages 2).items.length = 2 ∧
      (pageAt s.pages 2).special.flags.leaf = false)) (temporalRtreeBulkdelete roomyEnv none none damaged) = true := by
    decide +kernel
  obtain ⟨res, s', hrun, hs⟩ := exists_of_okWith hok
  obtain ⟨hroot, hlen, hinner⟩ := of_decide_eq_true hs
  have hkeys : ∀ u ∈ contents damaged.pages, BoundedTuple u := by
    have hcontents : contents damaged.pages = ↑[(periodRow 0).tuple, (periodRow 1).tuple] := by decide +kernel
    have hbounded : ∀ i < 157, BoundedTuple (periodRow i).tuple := fun i hi =>
      ⟨_, rfl, (periodRow_bounded hi _ rfl).boundedBox⟩
    rw [hcontents]
    intro u hu
    rcases List.mem_pair.mp hu with rfl | rfl
    · exact hbounded 0 (by decide)
    · exact hbounded 1 (by decide)
  have hreach : Reachable s'.pages 0 2 := by
    rw [← hroot]
    exact .root
  exact ⟨res, s', hrun, hlen, fun t ht => bulkdelete_makes_exact damaged_wf hkeys hrun hreach hinner ht⟩

end TemporalRTree
