import TemporalRTree.Correctness.TreeShape

/-!
# `Correctness.PageLife` — blocks of the relation that the tree no longer uses

New pages always come from the end of the relation, and nothing records a page that a bulk deletion has dropped. So a
block that is no longer reachable stays as it is for good: no later operation links it again or writes to it
(`unlinked_stays`). Inserts are not where such blocks come from: with all its `PageAddItem` calls succeeding, an insert
links every page it found linked and every page it allocated (`inserts_unlink_nothing`).
-/

namespace TemporalRTree
open EStateM Layout

/-! ## Linked blocks -/

/-- The block holds a page of the tree. -/
def Linked (pages : List Page) (b : BlockNumber) : Prop := ∃ d, Reachable pages d b

/-- A data block that holds none. -/
structure Unlinked (pages : List Page) (b : BlockNumber) : Prop where
  pos : 0 < b
  lt : b < pages.length
  not_linked : ¬ Linked pages b

section Blocks
variable {pages : List Page} {b : BlockNumber}

/-- What is below a linked page is linked. -/
theorem linked_of_below {m l d : Nat} {c : BlockNumber} (h : nodes.Below (pageAt pages) m c l b)
    (hb : nodes.Holds NodeOk (pageAt pages) l b) (hreach : Reachable pages d b) : Linked pages c := by
  induction h generalizing d with
  | here => exact ⟨d, hreach⟩
  | @down l b k hk _ ih =>
      obtain ⟨t, ht, rfl⟩ := List.mem_map.mp hk
      have hinner : (pageAt pages b).special.flags.leaf = false := by
        have hiff := hb.1.leaf_iff
        simpa using hiff
      exact ih (hb.2 _ hk) (.down hreach hinner ht)

theorem linked_iff (hwf : WF pages) : Linked pages b ↔
    b ∈ nodes.blocks (pageAt pages) (metaAt pages).rootLevel (metaAt pages).root := by
  constructor
  · rintro ⟨d, hd⟩
    obtain ⟨m, -, hbel⟩ := hd.below_root hwf
    exact hbel.blocks_subperm.subset self_mem_blocks
  · intro hb
    obtain ⟨m, hbel⟩ := exists_below hb
    exact linked_of_below hbel (hwf.tree.holds _ (List.mem_singleton.mpr rfl)) .root

/-- The blocks of a tree that the meta page comes to name. -/
theorem blocks_metaPages {root : BlockNumber} {level : Nat}
    (hrange : ∀ x ∈ nodes.blocks (pageAt pages) level root, 0 < x ∧ x < pages.length) :
    nodes.blocks (pageAt (metaPages pages root level)) (metaAt (metaPages pages root level)).rootLevel
      (metaAt (metaPages pages root level)).root = nodes.blocks (pageAt pages) level root := by
  have hpos : 0 < pages.length := Nat.lt_of_le_of_lt (Nat.zero_le _) (hrange root self_mem_blocks).2
  have hmeta : metaAt (metaPages pages root level) =
      { metaAt pages with root := root, rootLevel := level } := metaAt_set_zero hpos
  rw [hmeta]
  exact blocks_congr fun x hx => pageAt_set_ne (Nat.pos_iff_ne_zero.mp (hrange x hx).1)

end Blocks

/-! ## Unlinked blocks stay -/

/-- The relation does not shrink, and what is unlinked stays so and as it is. -/
structure Retires (pages pages' : List Page) : Prop where
  length_le : pages.length ≤ pages'.length
  stays : ∀ b, Unlinked pages b → Unlinked pages' b ∧ pageAt pages' b = pageAt pages b

section Retires
variable {env : Env} {itup : IndexTuple} {box : RTreeTemporalBox} {pages pages₁ pages' : List Page}
  {evs evs' : List Event}

theorem Retires.trans (h : Retires pages pages₁) (h' : Retires pages₁ pages') : Retires pages pages' where
  length_le := h.length_le.trans h'.length_le
  stays b hb := by
    obtain ⟨hb₁, hsame⟩ := h.stays b hb
    obtain ⟨hb', hsame'⟩ := h'.stays b hb₁
    exact ⟨hb', hsame'.trans hsame⟩

/-- A step that writes to pages of the tree and to new ones, and links no other. -/
theorem Retires.of_frame (hwf : WF pages) (hwf' : WF pages') (hlen : pages.length ≤ pages'.length)
    (hmem : ∀ x ∈ nodes.blocks (pageAt pages') (metaAt pages').rootLevel (metaAt pages').root, x < pages.length →
      x ∈ nodes.blocks (pageAt pages) (metaAt pages).rootLevel (metaAt pages).root)
    (hframe : ∀ x < pages.length, 0 < x →
      x ∉ nodes.blocks (pageAt pages) (metaAt pages).rootLevel (metaAt pages).root →
      pageAt pages' x = pageAt pages x) : Retires pages pages' where
  length_le := hlen
  stays b hb := by
    have hnot := hb.not_linked
    rw [linked_iff hwf] at hnot
    refine ⟨⟨hb.pos, Nat.lt_of_lt_of_le hb.lt hlen, ?_⟩, hframe b hb.lt hb.pos hnot⟩
    rw [linked_iff hwf']
    exact fun hmem' => hnot (hmem b hmem' hb.lt)

/-- An insert. -/
theorem InsertsTuple.retires (h : InsertsTuple env itup box pages pages' evs) (hkey : itup.key.isSome = true)
    (hwf : WF pages) : Retires pages pages' := by
  have hwf' := (h.wf hkey hwf).1
  cases h with
  | keep hlen hmagic hins =>
      have hspec := hins.spec hkey hwf.tree hwf.halloc
      have hmeta := hins.metaAt_eq hwf.zero_notMem
      refine Retires.of_frame hwf hwf' hins.length_le ?_ ?_
      · rw [hmeta]
        intro x hx hlt
        rcases hspec.update.mem x (by simpa [resultBlocks] using hx) with hx | hx
        · simpa using hx
        · exact absurd hlt hx.2
      · intro x hlt _ hnot
        exact hspec.update.frame x hlt (by simpa using hnot)
  | @promote pages₁ leftBox right evs hlen hmagic hins hext =>
      obtain ⟨hspec, -, -, hblocks, hrange₁, hrange⟩ := hins.promoted hkey hwf
      refine Retires.of_frame hwf hwf' ?_ ?_ ?_
      · rw [metaPages, List.length_set, length_promotedPages]
        exact Nat.le_succ_of_le hins.length_le
      · rw [blocks_metaPages hrange, hblocks]
        intro x hx hlt
        rw [List.mem_cons] at hx
        rcases hx with rfl | hx
        · exact absurd hlt (Nat.not_lt.mpr hins.length_le)
        · rcases hspec.update.mem x hx with hx | hx
          · simpa using hx
          · exact absurd hlt hx.2
      · intro x hlt h0 hnot
        have hne : x ≠ (metaAt pages).root := fun he => hnot (he ▸ self_mem_blocks)
        rw [metaPages, pageAt_set_ne (Nat.pos_iff_ne_zero.mp h0), promotedPages,
          pageAt_append_of_lt (by rw [List.length_set]; exact Nat.lt_of_lt_of_le hlt hins.length_le),
          pageAt_set_ne hne]
        exact hspec.update.frame x hlt (by simpa using hnot)

/-! ### Bulk deletion -/

section Delete
variable {callback : IndexBulkDeleteCallback} {walked : List (BlockNumber × RTreeTemporalBox)}

/-- The tree that is left when the root is shrunk. -/
theorem ShrinksRoot.blocks_subset (h : ShrinksRoot env pages pages' evs') (hv : WF pages ∨ Emptied pages) :
    nodes.blocks (pageAt pages') (metaAt pages').rootLevel (metaAt pages').root ⊆
      nodes.blocks (pageAt pages) (metaAt pages).rootLevel (metaAt pages).root := by
  cases h with
  | stay => exact List.Subset.refl _
  | emptied hl hitems =>
      have hrange : 0 < (metaAt pages).root ∧ (metaAt pages).root < pages.length := by
        rcases hv with hv | hv
        · exact hv.root_range
        · exact ⟨hv.root_pos, hv.root_lt⟩
      rw [emptyRootPages, blocks_metaPages (by simpa using hrange)]
      intro x hx
      rw [List.mem_singleton.mp hx]
      exact self_mem_blocks
  | @collapsed l childitup hl hitems =>
      have hwf : WF pages := hv.resolve_right fun hv => by simp [hv.items] at hitems
      obtain ⟨hlevel, -, -, -, hblocks⟩ := hwf.hoist hl hitems
      have hrange := hwf.range
      rw [hl] at hrange ⊢
      rw [collapsedPages, hlevel, blocks_metaPages]
      · exact hblocks
      · intro x hx
        rw [List.length_set]
        exact hrange x (hblocks hx)

/-- It is the root page and the meta page that are written then. -/
theorem ShrinksRoot.frame (h : ShrinksRoot env pages pages' evs') {x : BlockNumber} (h0 : 0 < x)
    (hx : x ≠ (metaAt pages).root) : pages'.length = pages.length ∧ pageAt pages' x = pageAt pages x := by
  have h0 : x ≠ 0 := Nat.pos_iff_ne_zero.mp h0
  cases h with
  | stay => exact ⟨rfl, rfl⟩
  | emptied hl hitems =>
      rw [emptyRootPages, metaPages, pageAt_set_ne h0, pageAt_set_ne hx, List.length_set, List.length_set]
      exact ⟨rfl, rfl⟩
  | collapsed hl hitems =>
      rw [collapsedPages, metaPages, pageAt_set_ne h0, pageAt_set_ne hx, List.length_set, List.length_set]
      exact ⟨rfl, rfl⟩

/-- The tree after a walk from the root is made of pages of the tree before. -/
theorem Vacuums.blocks_subset (hwf : WF pages)
    (h : Vacuums env callback pages [(metaAt pages).root] walked pages' evs) :
    nodes.blocks (pageAt pages') (metaAt pages).rootLevel (metaAt pages).root ⊆
      nodes.blocks (pageAt pages) (metaAt pages).rootLevel (metaAt pages).root := by
  have hforest := h.forest hwf.tree hwf.halloc
  intro x hx
  rcases h.single with ⟨-, hitems⟩ | ⟨box, rfl⟩
  · -- an emptied root is alone
    have hx : x = (metaAt pages).root := by
      cases hl : (metaAt pages).rootLevel with
      | zero =>
          rw [hl] at hx
          exact List.mem_singleton.mp hx
      | succ l =>
          rw [hl, blocks_succ] at hx
          simpa [nodes, hitems] using hx
    rw [hx]
    exact self_mem_blocks
  · rcases hforest.update.mem x (by simpa using hx) with hx | hx
    · simpa using hx
    · exact absurd hx.1 hx.2

/-- A bulk deletion. -/
theorem Vacuums.retires (hwf : WF pages) (h : Vacuums env callback pages [(metaAt pages).root] walked pages₁ evs)
    (hv : WF pages₁ ∨ Emptied pages₁) (hmeta : metaAt pages₁ = metaAt pages)
    (hshrinks : ShrinksRoot env pages₁ pages' evs') : Retires pages pages' := by
  have hforest := h.forest hwf.tree hwf.halloc
  have hlen₁ : pages₁.length = pages.length := hforest.length_eq
  have hlen : pages'.length = pages₁.length := by
    have hne : (metaAt pages₁).root + 1 ≠ (metaAt pages₁).root := Nat.succ_ne_self _
    exact (hshrinks.frame (Nat.succ_pos _) hne).1
  refine Retires.of_frame hwf (hshrinks.wf hv).1 (Nat.le_of_eq (hlen.trans hlen₁).symm) ?_ ?_
  · intro x hx _
    have hx := hshrinks.blocks_subset hv hx
    rw [hmeta] at hx
    exact h.blocks_subset hwf hx
  · intro x hlt h0 hnot
    have hne : x ≠ (metaAt pages₁).root := by
      rw [hmeta]
      exact fun he => hnot (he ▸ self_mem_blocks)
    rw [(hshrinks.frame h0 hne).2]
    exact hforest.update.frame x hlt (by simpa using hnot)

end Delete

end Retires

theorem retires_opRel (env : Env) : OpRel env Retires where
  refl _ := ⟨Nat.le_refl _, fun _ hb => ⟨hb, rfl⟩⟩
  trans h h' := h.trans h'
  insert hwf hkey hins := hins.retires hkey hwf
  delete hwf hvac hv hmeta hshrinks := hvac.retires hwf hv hmeta hshrinks

/-- **What is unlinked stays unlinked and unchanged.** Take any index that a run of completed operations has reached,
    and any further run of completed operations that does not build it anew. The relation has not become shorter; a data
    block that was not reachable from the root before the run is not reachable after it, and its page is the same. -/
theorem unlinked_stays {env : Env} {ops ops' : List Op} {s s' : Rel} {b : BlockNumber}
    (hreached : runOps env ops { pages := [] } = .ok () s) (hrun : runOps env ops' s = .ok () s')
    (hops' : ∀ op ∈ ops', ∀ rows, op ≠ .build rows) (hb : Unlinked s.pages b) :
    s.pages.length ≤ s'.pages.length ∧ Unlinked s'.pages b ∧ pageAt s'.pages b = pageAt s.pages b := by
  have hwf : WF s.pages := by
    refine (runOps_valid (Or.inl rfl) hreached).resolve_left fun hnil => ?_
    have hlt := hb.lt
    rw [hnil] at hlt
    exact Nat.not_lt_zero b hlt
  obtain ⟨-, hretires⟩ := (retires_opRel env).runOps hops' hwf hrun
  exact ⟨hretires.length_le, hretires.stays b hb⟩

/-- Six rows on two leaves, of which those on the first are deleted. -/
def halfDeleted : List Op :=
  [.build (stairRows 6), .bulkdelete none (some fun tid => decide (tid.offnum ≤ 3))]

/-- Blocks 1 and 2 of the leaves are given up, and a later insert does not touch them. -/
theorem unlinked_stays_half_deleted :
    ∃ s s', runOps roomyEnv halfDeleted { pages := [] } = .ok () s ∧
      runOps roomyEnv [.insert ⟨(stair 6).tTid, (stair 6).key⟩] s = .ok () s' ∧
      ∀ b ∈ [1, 2], Unlinked s.pages b ∧ Unlinked s'.pages b ∧ pageAt s'.pages b = pageAt s.pages b := by
  have hok : okWith (fun _ s => decide (s.pages.length = 4 ∧ (metaAt s.pages).rootLevel = 0 ∧ (metaAt s.pages).root = 3) &&
      okWith (fun _ _ => true) (runOps roomyEnv [.insert ⟨(stair 6).tTid, (stair 6).key⟩] s))
      (runOps roomyEnv halfDeleted { pages := [] }) = true := by decide +kernel
  obtain ⟨u, s, hrun, hs⟩ := exists_of_okWith hok
  obtain ⟨hshape, hlater⟩ := Bool.and_eq_true_iff.mp hs
  obtain ⟨hlen, hlevel, hroot⟩ := of_decide_eq_true hshape
  obtain ⟨u', s', hrun', -⟩ := exists_of_okWith hlater
  refine ⟨s, s', hrun, hrun', fun b hb => ?_⟩
  have hwf : WF s.pages := (runOps_valid (Or.inl rfl) hrun).resolve_left fun hnil => by simp [hnil] at hlen
  have hbounds : 0 < b ∧ b < 3 := by
    rcases List.mem_pair.mp hb with rfl | rfl
    · exact ⟨by decide, by decide⟩
    · exact ⟨by decide, by decide⟩
  have hunlinked : Unlinked s.pages b := by
    refine ⟨hbounds.1, by rw [hlen]; exact Nat.lt_succ_of_lt hbounds.2, ?_⟩
    rw [linked_iff hwf, hlevel, hroot]
    intro hmem
    exact absurd (List.mem_singleton.mp hmem) (Nat.ne_of_lt hbounds.2)
  exact ⟨hunlinked, (unlinked_stays hrun hrun' (by simp) hunlinked).2⟩

/-! ## Inserts unlink nothing -/

section Insert
variable {env : Env} {itup : IndexTuple} {box : RTreeTemporalBox} {pages pages₁ pages' : List Page}
  {blk : BlockNumber} {level : Nat} {res : RTreeInsertResult} {evs : List Event}

/-- A descent allocates at most one page on each level it goes through, and none on the level it started at unless it
    reports a split. -/
theorem Inserts.length_le_add (h : Inserts env itup box pages blk level res pages' evs) :
    pages'.length ≤ pages.length + level + res.split.toList.length := by
  induction h with
  | leafAdd =>
      rw [List.length_set]
      exact Nat.le_add_right _ _
  | leafSplit =>
      rw [splitPages_length]
      exact Nat.succ_le_succ (Nat.le_add_right _ _)
  | innerKeep _ _ _ _ ih =>
      rw [List.length_set]
      exact Nat.le_succ_of_le ih
  | innerAdd _ _ _ _ _ _ ih =>
      rw [List.length_set]
      exact ih
  | innerSplit _ _ _ _ _ _ ih =>
      rw [splitPages_length, List.length_set]
      exact Nat.succ_le_succ ih

/-- What is below the trees a descent made of a child is below the pages its parent is rewritten over. -/
theorem InsertSpec.lift_linked {ts new rest : List BlockNumber} {c x : BlockNumber}
    (ih : InsertSpec itup pages c level (c :: new) pages₁ evs)
    (hf : nodes.Forest NodeOk (pageAt pages) (level + 1) [blk])
    (halloc : ∀ x ∈ nodes.forestBlocks (pageAt pages) (level + 1) [blk], x ∈ allocated pages)
    (hrest : (c :: rest).Perm (nodes.kids (pageAt pages blk))) (htops : Tops (level + 1) pages₁ blk ts pages')
    (hshared : (ts.flatMap fun t => nodes.kids (pageAt pages' t)).Perm (nodes.kids (pageAt pages blk) ++ new))
    (hx : x ∈ nodes.forestBlocks (pageAt pages₁) level (c :: new)) :
    x ∈ nodes.forestBlocks (pageAt pages') (level + 1) ts := by
  have hkids := hshared.trans (kids_perm_siblings hrest)
  obtain ⟨-, -, hupd⟩ := ih.siblings hf halloc hrest
  have hframe := hupd.tops_frame hf halloc htops.new_alloc htops.frame
  refine (forestBlocks_succ_perm ts).mem_iff.mpr (List.mem_append_right _ ?_)
  rw [forestBlocks_congr (tops_congr hkids.subperm hframe)]
  refine (hkids.flatMap_right (nodes.blocks (pageAt pages₁) level)).mem_iff.mpr ?_
  rw [List.flatMap_append]
  exact List.mem_append_left _ hx

variable (hkey : itup.key.isSome = true)
include hkey

/-- **Every page a descent allocates is linked.** -/
theorem Inserts.links_new (h : Inserts env itup box pages blk level res pages' evs)
    (hf : nodes.Forest NodeOk (pageAt pages) level [blk])
    (halloc : ∀ x ∈ nodes.forestBlocks (pageAt pages) level [blk], x ∈ allocated pages) (hok : AddsOk evs) :
    ∀ x, pages.length ≤ x → x < pages'.length →
      x ∈ nodes.forestBlocks (pageAt pages') level (resultBlocks blk res) := by
  induction h with
  | leafAdd =>
      intro x hx hlt
      rw [List.length_set] at hlt
      exact absurd hlt (Nat.not_lt.mpr hx)
  | leafSplit hblk _ _ _ =>
      intro x hx hlt
      rw [splitPages_length] at hlt
      obtain rfl : x = _ := Nat.le_antisymm (Nat.le_of_lt_succ hlt) hx
      exact blocks_subset_forest (by simp [resultBlocks, splitResult]) self_mem_blocks
  | @innerKeep pages₁ blk level pos childitup childBox page₂ evs hblk hchild hrec hrep ih =>
      obtain ⟨hf', halloc'⟩ := hchild.forest hf halloc
      obtain ⟨rest, hrest⟩ := hchild.kids_perm
      obtain ⟨hspec, hp₂, hkids⟩ := hchild.refreshed hf halloc (hrec.spec hkey) hrep
      have hblk₁ : blk < pages₁.length := Nat.lt_of_lt_of_le hblk hrec.length_le
      simp only [addsOk_append] at hok
      intro x hx hlt
      rw [List.length_set] at hlt
      refine InsertSpec.lift_linked hspec hf halloc hrest (Tops.set hblk₁ hp₂) ?_
        (ih hf' halloc' hok.1.1.1.2 x hx hlt)
      simp [resultBlocks, pageAt_set_self hblk₁, hkids]
  | @innerAdd pages₁ blk level pos childitup childBox right page₂ page₃ evs hblk hchild hrec hrep hroom hadd ih =>
      obtain ⟨hf', halloc'⟩ := hchild.forest hf halloc
      obtain ⟨rest, hrest⟩ := hchild.kids_perm
      obtain ⟨hspec, hp₂, hkids⟩ := hchild.refreshed hf halloc (hrec.spec hkey) hrep
      obtain ⟨hp₃, hkids₃⟩ := hp₂.addLink hadd
      have hblk₁ : blk < pages₁.length := Nat.lt_of_lt_of_le hblk hrec.length_le
      simp only [addsOk_append] at hok
      intro x hx hlt
      rw [List.length_set] at hlt
      refine InsertSpec.lift_linked hspec hf halloc hrest (Tops.set hblk₁ hp₃) ?_
        (ih hf' halloc' hok.1.1.1.2 x hx hlt)
      simp [resultBlocks, pageAt_set_self hblk₁, hkids₃, hkids]
  | @innerSplit pages₁ blk level pos childitup childBox right page₂ evs hblk hchild hrec hrep hfull hext ih =>
      obtain ⟨hf', halloc'⟩ := hchild.forest hf halloc
      obtain ⟨rest, hrest⟩ := hchild.kids_perm
      obtain ⟨hspec, hp₂, hkids⟩ := hchild.refreshed hf halloc (hrec.spec hkey) hrep
      have hblk₁ : blk < pages₁.length := Nat.lt_of_lt_of_le hblk hrec.length_le
      obtain ⟨htops, -, hiff⟩ := splitPages_kids env pages₁ right hblk₁ hp₂
      simp only [addsOk_append] at hok
      have hts : resultBlocks blk (splitResult (pages₁.set blk (.data page₂)) blk (rightTuple right)
          right.rightBox (level + 1) page₂.special.flags) = [blk, pages₁.length] := by
        simp [resultBlocks, splitResult]
      rw [hts]
      intro x hx hlt
      rw [splitPages_length, List.length_set] at hlt
      -- the page the child's call allocated last, or one allocated below
      rcases Nat.lt_succ_iff_lt_or_eq.mp hlt with hlt | rfl
      · refine InsertSpec.lift_linked hspec hf halloc hrest htops ?_ (ih hf' halloc' hok.1.1.1.2 x hx hlt)
        rw [← hkids]
        exact hiff.mp hok.1.2
      · exact blocks_subset_forest (by simp) self_mem_blocks

/-- An insert links what was linked and what it allocated. -/
theorem InsertsTuple.links (h : InsertsTuple env itup box pages pages' evs) (hwf : WF pages) (hok : AddsOk evs)
    {x : BlockNumber} (hx : Linked pages x ∨ (pages.length ≤ x ∧ x < pages'.length)) : Linked pages' x := by
  rw [linked_iff (h.wf hkey hwf).1]
  rw [linked_iff hwf] at hx
  cases h with
  | keep hlen hmagic hins =>
      have hok := (addsOk_append.mp hok).2
      have hmem : x ∈ nodes.forestBlocks (pageAt pages') (metaAt pages).rootLevel [(metaAt pages).root] := by
        rcases hx with hx | ⟨hx, hlt⟩
        · exact (hins.spec hkey hwf.tree hwf.halloc).blocks_subset hok hx
        · exact hins.links_new hkey hwf.tree hwf.halloc hok x hx hlt
      rw [hins.metaAt_eq hwf.zero_notMem]
      simpa using hmem
  | @promote pages₁ leftBox right evs hlen hmagic hins hext =>
      obtain ⟨hspec, -, -, hblocks, -, hrange⟩ := hins.promoted hkey hwf
      have hok := (addsOk_append.mp (addsOk_append.mp (addsOk_append.mp hok).1).1).2
      rw [blocks_metaPages hrange, hblocks, List.mem_cons]
      rcases hx with hx | ⟨hx, hlt⟩
      · exact Or.inr (hspec.blocks_subset hok hx)
      · rw [metaPages, List.length_set, length_promotedPages] at hlt
        rcases Nat.lt_succ_iff_lt_or_eq.mp hlt with hlt | heq
        · exact Or.inr (hins.links_new hkey hwf.tree hwf.halloc hok x hx hlt)
        · exact Or.inl heq

omit hkey in
/-- An insert into an index of that many levels. -/
theorem InsertsTuple.length_le_add (h : InsertsTuple env itup box pages pages' evs) (hwf : WF pages) :
    (metaAt pages).rootLevel ≤ (metaAt pages').rootLevel ∧
      pages'.length ≤ pages.length + ((metaAt pages').rootLevel + 1) := by
  cases h with
  | keep hlen hmagic hins =>
      rw [hins.metaAt_eq hwf.zero_notMem]
      exact ⟨Nat.le_refl _, Nat.le_succ_of_le hins.length_le_add⟩
  | @promote pages₁ leftBox right evs hlen hmagic hins hext =>
      have hmeta : (metaAt (metaPages (promotedPages pages₁ (metaAt pages).root leftBox right (metaAt pages).rootLevel)
          pages₁.length ((metaAt pages).rootLevel + 1))).rootLevel = (metaAt pages).rootLevel + 1 := by
        rw [metaPages, metaAt_set_zero (by rw [length_promotedPages]; exact Nat.succ_pos _)]
      have hlen := hins.length_le_add
      rw [hmeta, metaPages, List.length_set, length_promotedPages]
      exact ⟨Nat.le_succ _, Nat.succ_le_succ hlen⟩

end Insert

/-- What a run of inserts does to the blocks. -/
structure Grows (pages pages' : List Page) (n : Nat) : Prop where
  unlinked : ∀ b, Unlinked pages' b ↔ Unlinked pages b
  level_le : (metaAt pages).rootLevel ≤ (metaAt pages').rootLevel
  length_le : pages'.length ≤ pages.length + n * ((metaAt pages').rootLevel + 1)

theorem InsertsTuple.grows {env : Env} {itup : IndexTuple} {box : RTreeTemporalBox} {pages pages' : List Page}
    {evs : List Event} (h : InsertsTuple env itup box pages pages' evs) (hkey : itup.key.isSome = true)
    (hwf : WF pages) (hok : AddsOk evs) : Grows pages pages' 1 := by
  obtain ⟨hlevel, hlen⟩ := h.length_le_add hwf
  refine ⟨fun b => ⟨fun hb => ?_, fun hb => ((h.retires hkey hwf).stays b hb).1⟩, hlevel, ?_⟩
  · have hnot : ¬ (Linked pages b ∨ (pages.length ≤ b ∧ b < pages'.length)) := fun hx =>
      hb.not_linked (h.links hkey hwf hok hx)
    rw [not_or] at hnot
    refine ⟨hb.pos, ?_, hnot.1⟩
    by_contra hge
    exact hnot.2 ⟨Nat.not_lt.mp hge, hb.lt⟩
  · rwa [Nat.one_mul]

theorem Grows.trans {pages pages₁ pages' : List Page} {n n' : Nat} (h : Grows pages pages₁ n)
    (h' : Grows pages₁ pages' n') : Grows pages pages' (n + n') where
  unlinked b := (h'.unlinked b).trans (h.unlinked b)
  level_le := h.level_le.trans h'.level_le
  length_le := by
    have hmul : n * ((metaAt pages₁).rootLevel + 1) ≤ n * ((metaAt pages').rootLevel + 1) :=
      Nat.mul_le_mul_left n (Nat.succ_le_succ h'.level_le)
    have hlen := h.length_le
    have hlen' := h'.length_le
    rw [Nat.add_mul]
    omega

section Runs
variable {env : Env} {s s' : Rel}

/-- A run of inserts. -/
theorem insertRows_grows {rows : List HeapRow} {u : Unit} (hwf : WF s.pages)
    (hrun : runOps env (rows.map Op.insert) s = .ok u s') :
    ∃ evs, s'.trace = s.trace ++ evs ∧ (AddsOk evs → Grows s.pages s'.pages rows.length) := by
  induction rows generalizing s with
  | nil =>
      cases hrun
      refine ⟨[], (List.append_nil _).symm, fun _ => ⟨fun _ => Iff.rfl, Nat.le_refl _, ?_⟩⟩
      exact Nat.le_add_right _ _
  | cons row rest ih =>
      obtain ⟨u', s₁, hop, hrest⟩ := bind_eq_ok.mp hrun
      obtain ⟨b, s₂, hins, hop⟩ := bind_eq_ok.mp hop
      cases hop
      have hlength : (row :: rest).length = 1 + rest.length := Nat.add_comm _ _
      rw [hlength]
      rcases temporalRtreeInsert_eq_ok hwf.two_le_length hins with ⟨-, rfl⟩ | ⟨box, evs, hsome, -, htrace, hins⟩
      · -- a NULL key is not stored
        obtain ⟨evs, htrace, hgrows⟩ := ih hwf hrest
        refine ⟨evs, htrace, fun hok => ?_⟩
        have hnone : Grows s₁.pages s₁.pages 1 := ⟨fun _ => Iff.rfl, Nat.le_refl _, Nat.le_add_right _ _⟩
        exact hnone.trans (hgrows hok)
      · obtain ⟨evs', htrace', hgrows⟩ := ih (hins.wf hsome hwf).1 hrest
        refine ⟨evs ++ evs', ?_, fun hok => ?_⟩
        · rw [htrace', htrace, List.append_assoc]
        · rw [addsOk_append] at hok
          exact (hins.grows hsome hwf hok.1).trans (hgrows hok.2)

/-- The data block of an initialised index is its root. -/
theorem not_unlinked_initPages (b : BlockNumber) : ¬ Unlinked (initPages 0) b := by
  rintro ⟨h0, hlt, hnot⟩
  obtain rfl : b = 1 := Nat.le_antisymm (Nat.le_of_lt_succ hlt) h0
  exact hnot ⟨0, .root⟩

/-- **Inserts unlink nothing.** Take any index that a run of completed operations has reached, and a run of completed
    inserts in which every `PageAddItem` succeeds. The blocks that are unlinked after it are those that were unlinked
    before, so that every page it allocated is in use; and each insert has allocated at most one page for each level. -/
theorem inserts_unlink_nothing {ops : List Op} {rows : List HeapRow}
    (hreached : runOps env ops { pages := [] } = .ok () s) (hrun : runOps env (rows.map Op.insert) s = .ok () s')
    (hok : AddsOk s'.trace) :
    (∀ b, Unlinked s'.pages b ↔ Unlinked s.pages b) ∧
      s'.pages.length ≤ max s.pages.length 2 + rows.length * ((metaAt s'.pages).rootLevel + 1) := by
  rcases runOps_valid (Or.inl rfl) hreached with hnil | hwf
  · have hempty : ∀ b, ¬ Unlinked s.pages b := by
      intro b hb
      have hlt := hb.lt
      rw [hnil] at hlt
      exact Nat.not_lt_zero b hlt
    cases rows with
    | nil =>
        cases hrun
        exact ⟨fun _ => Iff.rfl, Nat.le_add_right_of_le (Nat.le_max_left _ _)⟩
    | cons row rest =>
        -- the first insert initialises the index
        obtain ⟨u', s₁, hop, hrest⟩ := bind_eq_ok.mp hrun
        obtain ⟨b, s₂, hins, hop⟩ := bind_eq_ok.mp hop
        obtain ⟨s₀, hpages, hins⟩ := temporalRtreeInsert_of_nil hnil hins
        have hrun₀ : runOps env ((row :: rest).map Op.insert) s₀ = .ok () s' :=
          bind_eq_ok.mpr ⟨u', s₁, bind_eq_ok.mpr ⟨b, s₂, hins, hop⟩, hrest⟩
        obtain ⟨evs, htrace, hgrows⟩ := insertRows_grows (hpages ▸ initPages_wf.1) hrun₀
        rw [htrace, addsOk_append] at hok
        have hgrows := hgrows hok.2
        rw [hpages] at hgrows
        refine ⟨fun b => ?_, ?_⟩
        · rw [hgrows.unlinked b]
          exact iff_of_false (not_unlinked_initPages b) (hempty b)
        · refine hgrows.length_le.trans (Nat.add_le_add_right ?_ _)
          exact Nat.le_max_right _ _
  · obtain ⟨evs, htrace, hgrows⟩ := insertRows_grows hwf hrun
    rw [htrace, addsOk_append] at hok
    have hgrows := hgrows hok.2
    exact ⟨hgrows.unlinked, hgrows.length_le.trans (Nat.add_le_add_right (Nat.le_max_left _ _) _)⟩

/-- Six inserts into a relation without blocks leave no data block unlinked. -/
theorem inserts_unlink_nothing_stairs :
    ∃ s', runOps roomyEnv ((stairRows 6).map Op.insert) { pages := [] } = .ok () s' ∧ s'.pages.length = 4 ∧
      ∀ b, ¬ Unlinked s'.pages b := by
  have hok : okWith (fun _ s => decide (s.pages.length = 4 ∧ AddsOk s.trace))
      (runOps roomyEnv ((stairRows 6).map Op.insert) { pages := [] }) = true := by decide +kernel
  obtain ⟨u, s', hrun, hs⟩ := exists_of_okWith hok
  obtain ⟨hlen, hadds⟩ := of_decide_eq_true hs
  have hstart : runOps roomyEnv [] { pages := [] } = .ok () { pages := [] } := rfl
  refine ⟨s', hrun, hlen, fun b hb => ?_⟩
  have hbefore := ((inserts_unlink_nothing hstart hrun hadds).1 b).mp hb
  exact Nat.not_lt_zero b hbefore.lt

end Runs

end TemporalRTree
