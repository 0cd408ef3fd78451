import TemporalRTree.Correctness.TreeShape

/-!
# `Correctness.Levels` — levels of pages and of the pages below them

`Leveled` is a condition on every data page by itself, reachable or not: the LEAF flag is on the pages of level 0,
and the downlinks of the others lead to pages one level lower. It needs no tree, so the big steps keep it also
where the pages are not one: a descent as long as it carries the level of the page it starts at, a walk always,
and a shrinking of the root as long as no page has a downlink to the root. `LevelsAgree` is what it says about
the pages reachable from the root.

`Leveled` is stated for downlinks to blocks that meet a condition `A`. With the blocks other than the root it says
that the root is no page's child.
-/

namespace TemporalRTree
open EStateM Layout

/-! ## Pages one by one -/

/-- A page whose level goes with its flag and with the pages its downlinks lead to. -/
structure PageLeveled (A : BlockNumber → Prop) (pages : List Page) (page : DataPage) : Prop where
  leaf_iff : page.special.flags.leaf = true ↔ page.special.level = 0
  down : page.special.flags.leaf = false → ∀ t ∈ page.items, A t.tTid.blkno ∧ 0 < t.tTid.blkno ∧
    t.tTid.blkno < pages.length ∧ (pageAt pages t.tTid.blkno).special.level + 1 = page.special.level

/-- Every data page is. -/
def Leveled (A : BlockNumber → Prop) (pages : List Page) : Prop :=
  ∀ b, 0 < b → b < pages.length → PageLeveled A pages (pageAt pages b)

/-- `pages'` is leveled, and the levels of the blocks of `pages` are as they were. -/
structure KeepsLevels (A : BlockNumber → Prop) (pages pages' : List Page) : Prop where
  length_le : pages.length ≤ pages'.length
  meta_eq : metaAt pages' = metaAt pages
  level_eq : ∀ b < pages.length, (pageAt pages' b).special.level = (pageAt pages b).special.level
  leveled : Leveled A pages'

section Pages
variable {A B : BlockNumber → Prop} {pages pages₁ pages' : List Page} {blk : BlockNumber} {page page' : DataPage}

theorem Leveled.mono (h : Leveled A pages) (hAB : ∀ c < pages.length, A c → B c) : Leveled B pages := by
  intro b h0 hb
  refine ⟨(h b h0 hb).leaf_iff, fun hinner t ht => ?_⟩
  obtain ⟨hA, hc0, hc, hdown⟩ := (h b h0 hb).down hinner t ht
  exact ⟨hAB _ hc hA, hc0, hc, hdown⟩

theorem KeepsLevels.refl (h : Leveled A pages) : KeepsLevels A pages pages :=
  ⟨Nat.le_refl _, rfl, fun _ _ => rfl, h⟩

theorem KeepsLevels.trans (h : KeepsLevels A pages pages₁) (h' : KeepsLevels A pages₁ pages') :
    KeepsLevels A pages pages' where
  length_le := Nat.le_trans h.length_le h'.length_le
  meta_eq := h'.meta_eq.trans h.meta_eq
  level_eq b hb := (h'.level_eq b (Nat.lt_of_lt_of_le hb h.length_le)).trans (h.level_eq b hb)
  leveled := h'.leveled

/-- A page stays leveled while the levels of the others stay. -/
theorem PageLeveled.congr (h : PageLeveled A pages page) (hlen : pages.length ≤ pages'.length)
    (hlevel : ∀ b < pages.length, (pageAt pages' b).special.level = (pageAt pages b).special.level) :
    PageLeveled A pages' page := by
  refine ⟨h.leaf_iff, fun hinner t ht => ?_⟩
  obtain ⟨hA, h0, hlt, hdown⟩ := h.down hinner t ht
  exact ⟨hA, h0, Nat.lt_of_lt_of_le hlt hlen, by rw [hlevel _ hlt]; exact hdown⟩

/-- One page is rewritten with its level. -/
theorem Leveled.set (h : Leveled A pages) (h0 : 0 < blk) (hblk : blk < pages.length)
    (hpage : PageLeveled A pages page') (hlevel : page'.special.level = (pageAt pages blk).special.level) :
    KeepsLevels A pages (pages.set blk (.data page')) := by
  have hlen : pages.length ≤ (pages.set blk (.data page')).length := by rw [List.length_set]
  have hlevels : ∀ b < pages.length,
      (pageAt (pages.set blk (.data page')) b).special.level = (pageAt pages b).special.level := by
    intro b _
    by_cases he : b = blk
    · rw [he, pageAt_set_self hblk, hlevel]
    · rw [pageAt_set_ne he]
  refine ⟨hlen, metaAt_set_ne (Nat.pos_iff_ne_zero.mp h0), hlevels, fun b hb0 hb => ?_⟩
  rw [List.length_set] at hb
  by_cases he : b = blk
  · rw [he, pageAt_set_self hblk]
    exact hpage.congr hlen hlevels
  · rw [pageAt_set_ne he]
    exact (h b hb0 hb).congr hlen hlevels

/-- A page is added. -/
theorem Leveled.append (h : Leveled A pages) (hpos : 0 < pages.length) (hpage : PageLeveled A pages page') :
    KeepsLevels A pages (pages ++ [.data page']) := by
  have hlen : pages.length ≤ (pages ++ [Page.data page']).length := by simp
  have hlevels : ∀ b < pages.length,
      (pageAt (pages ++ [.data page']) b).special.level = (pageAt pages b).special.level := fun b hb => by
    rw [pageAt_append_of_lt hb]
  refine ⟨hlen, metaAt_append hpos, hlevels, fun b hb0 hb => ?_⟩
  rw [List.length_append, List.length_singleton] at hb
  rcases Nat.lt_succ_iff_lt_or_eq.mp hb with hb | rfl
  · rw [pageAt_append_of_lt hb]
    exact (h b hb0 hb).congr hlen hlevels
  · rw [pageAt_append_self]
    exact hpage.congr hlen hlevels

/-- The tuples of a page are replaced by some of them and others that fit. -/
theorem PageLeveled.items (h : PageLeveled A pages page) (hleaf : page'.special.flags.leaf = page.special.flags.leaf)
    (hlevel : page'.special.level = page.special.level)
    (hitems : page.special.flags.leaf = false → ∀ t ∈ page'.items, t ∈ page.items ∨
      (A t.tTid.blkno ∧ 0 < t.tTid.blkno ∧ t.tTid.blkno < pages.length ∧
        (pageAt pages t.tTid.blkno).special.level + 1 = page.special.level)) :
    PageLeveled A pages page' := by
  refine ⟨by rw [hleaf, hlevel]; exact h.leaf_iff, fun hinner t ht => ?_⟩
  rw [hleaf] at hinner
  rw [hlevel]
  rcases hitems hinner t ht with hold | hnew
  · exact h.down hinner t hold
  · exact hnew

/-- A page is split, its halves tagged with its level. -/
theorem Leveled.split {newitup : IndexTuple} {newbox : RTreeTemporalBox} {level : Nat} {flags : PageFlags}
    (h : Leveled A pages) (h0 : 0 < blk) (hblk : blk < pages.length)
    (hlevel : level = (pageAt pages blk).special.level)
    (hleaf : flags.leaf = (pageAt pages blk).special.flags.leaf)
    (hnew : (pageAt pages blk).special.flags.leaf = false → A newitup.tTid.blkno ∧ 0 < newitup.tTid.blkno ∧
      newitup.tTid.blkno < pages.length ∧
      (pageAt pages newitup.tTid.blkno).special.level + 1 = (pageAt pages blk).special.level) :
    KeepsLevels A pages (splitPages pages blk newitup newbox level flags) ∧
      (pageAt (splitPages pages blk newitup newbox level flags) pages.length).special.level = level := by
  have hspec := split_spec (pageAt pages blk) newitup newbox level flags pages.length
  -- both halves hold tuples of the page and the new one
  have hhalf : ∀ {half : DataPage}, half.special.flags.leaf = flags.leaf → half.special.level = level →
      (∀ t ∈ half.items, t ∈ (pageAt pages blk).items ++ [newitup]) → PageLeveled A pages half := by
    intro half hl hv hsub
    refine (h blk h0 hblk).items (hl.trans hleaf) (hv.trans hlevel) fun hinner t ht => ?_
    rcases List.mem_append.mp (hsub t ht) with hold | hmem
    · exact Or.inl hold
    · rw [List.mem_singleton.mp hmem]
      exact Or.inr (hnew hinner)
  have hleft := hhalf hspec.leaf_left hspec.level_left
    fun t ht => hspec.items_le.subset (List.mem_append_left _ ht)
  have hright := hhalf hspec.leaf_right hspec.level_right
    fun t ht => hspec.items_le.subset (List.mem_append_right _ ht)
  have hset := h.set h0 hblk hleft (hspec.level_left.trans hlevel)
  have happ := hset.leveled.append (Nat.lt_of_lt_of_le (Nat.zero_lt_of_lt hblk) hset.length_le)
    (hright.congr hset.length_le hset.level_eq)
  exact ⟨hset.trans happ, by rw [pageAt_splitPages_right, hspec.level_right]⟩

end Pages

/-- The meta page names a page of the index, with its level. -/
structure RootLevel (pages : List Page) : Prop where
  pos : 0 < (metaAt pages).root
  lt : (metaAt pages).root < pages.length
  level_eq : (pageAt pages (metaAt pages).root).special.level = (metaAt pages).rootLevel

theorem KeepsLevels.rootLevel {A : BlockNumber → Prop} {pages pages' : List Page} (h : KeepsLevels A pages pages')
    (hroot : RootLevel pages) : RootLevel pages' := by
  refine ⟨?_, ?_, ?_⟩
  · rw [h.meta_eq]
    exact hroot.pos
  · rw [h.meta_eq]
    exact Nat.lt_of_lt_of_le hroot.lt h.length_le
  · rw [h.meta_eq, h.level_eq _ hroot.lt]
    exact hroot.level_eq

/-! ## Insertion -/

/-- `rtree_replace_tuple` brings in one tuple. -/
theorem mem_of_rtreeReplaceTuple {page page' : DataPage} {offnum : OffsetNumber} {itup t : IndexTuple}
    (h : rtreeReplaceTuple page offnum itup = some page') (ht : t ∈ page'.items) : t ∈ page.items ∨ t = itup := by
  unfold rtreeReplaceTuple pageAddItem at h
  obtain ⟨hfits, h⟩ := Option.dite_none_right_eq_some.mp h
  obtain rfl := Option.some.inj h
  rcases List.eq_or_mem_of_mem_insertIdx ht with rfl | ht
  · exact Or.inr rfl
  · exact Or.inl (List.mem_of_mem_eraseIdx ht)

section Insert
variable {A : BlockNumber → Prop} {env : Env} {itup : IndexTuple} {box : RTreeTemporalBox}
  {pages pages' : List Page} {blk : BlockNumber} {level : Nat} {res : RTreeInsertResult} {evs : List Event}

/-- A page that `rtree_insert_page` takes for a leaf is one, unless the level counter ran ahead. -/
theorem Leveled.leaf_of_taken (hl : Leveled A pages) (h0 : 0 < blk) (hblk : blk < pages.length)
    (hle : (pageAt pages blk).special.level ≤ level)
    (hleaf : level = 0 ∨ (pageAt pages blk).special.flags.leaf = true) :
    (pageAt pages blk).special.flags.leaf = true := by
  rcases hleaf with rfl | hleaf
  · exact (hl blk h0 hblk).leaf_iff.mpr (Nat.le_zero.mp hle)
  · exact hleaf

/-- The child a descent goes on to. -/
theorem ChoosesChild.leveled {pos : Nat} {childitup : IndexTuple}
    (h : ChoosesChild (pageAt pages blk) box pos childitup) (hl : Leveled A pages) (h0 : 0 < blk)
    (hblk : blk < pages.length) :
    A childitup.tTid.blkno ∧ 0 < childitup.tTid.blkno ∧ childitup.tTid.blkno < pages.length ∧
      (pageAt pages childitup.tTid.blkno).special.level + 1 = (pageAt pages blk).special.level :=
  (hl blk h0 hblk).down h.inner childitup (List.mem_of_getElem? h.item)

/-- The page above that child, with the downlink to the child refreshed. -/
theorem ChoosesChild.replaced {pages₁ : List Page} {pos : Nat} {childitup : IndexTuple}
    {childBox : RTreeTemporalBox} {page₂ : DataPage} (h : ChoosesChild (pageAt pages blk) box pos childitup)
    (hl : Leveled A pages) (h0 : 0 < blk) (hblk : blk < pages.length) (hk : KeepsLevels A pages pages₁)
    (hrep : rtreeReplaceTuple (pageAt pages₁ blk) (pos + 1) (rtreeFormTuple childBox childitup.tTid) =
      some page₂) :
    PageLeveled A pages₁ page₂ ∧ page₂.special = (pageAt pages₁ blk).special := by
  have hspecial := (rtreeReplaceTuple_ne_nil hrep).2
  refine ⟨(hk.leveled blk h0 (Nat.lt_of_lt_of_le hblk hk.length_le)).items (by rw [hspecial])
    (by rw [hspecial]) fun _ t ht => ?_, hspecial⟩
  rcases mem_of_rtreeReplaceTuple hrep ht with hold | rfl
  · exact Or.inl hold
  · obtain ⟨hA, hc0, hc, hdown⟩ := h.leveled hl h0 hblk
    refine Or.inr ⟨hA, hc0, Nat.lt_of_lt_of_le hc hk.length_le, ?_⟩
    show (pageAt pages₁ childitup.tTid.blkno).special.level + 1 = _
    rw [hk.level_eq _ hc, hk.level_eq _ hblk, hdown]

/-- What a descent from `blk` does to the levels. -/
structure InsertLevels (A : BlockNumber → Prop) (pages : List Page) (blk : BlockNumber) (res : RTreeInsertResult)
    (pages' : List Page) : Prop where
  keeps : KeepsLevels A pages pages'
  right : ∀ right, res.split = some right → pages.length ≤ right.rightBlkno ∧
    right.rightBlkno < pages'.length ∧
    (pageAt pages' right.rightBlkno).special.level = (pageAt pages blk).special.level

/-- The downlink to the right half of a split child, on the page above it. -/
theorem InsertLevels.downlink {pages₁ : List Page} {child : BlockNumber} {childBox : RTreeTemporalBox}
    {right : SplitRight} (h : InsertLevels A pages child { leftBox := childBox, split := some right } pages₁)
    (hA : ∀ c, pages.length ≤ c → A c) (hblk : blk < pages.length)
    (hdown : (pageAt pages child).special.level + 1 = (pageAt pages blk).special.level) :
    A right.rightBlkno ∧ 0 < right.rightBlkno ∧ right.rightBlkno < pages₁.length ∧
      (pageAt pages₁ right.rightBlkno).special.level + 1 = (pageAt pages₁ blk).special.level := by
  obtain ⟨hnew, hlt, hlevel⟩ := h.right right rfl
  refine ⟨hA _ hnew, Nat.lt_of_lt_of_le (Nat.zero_lt_of_lt hblk) hnew, hlt, ?_⟩
  rw [hlevel, h.keeps.level_eq _ hblk, hdown]

/-- **A descent keeps the levels** if the level it was called with is the level of its start page, or higher and
    no page is split: a leaf is recognised by its flag, but an inner page is split under the level called with. -/
theorem Inserts.levels (h : Inserts env itup box pages blk level res pages' evs) (hl : Leveled A pages)
    (hA : ∀ c, pages.length ≤ c → A c) (h0 : 0 < blk) (hle : (pageAt pages blk).special.level ≤ level)
    (hsplit : (pageAt pages blk).special.level = level ∨ ∀ l r, Event.split l r ∉ evs) :
    InsertLevels A pages blk res pages' := by
  induction h with
  | leafAdd hblk hleaf _ hadd =>
      have hlf := hl.leaf_of_taken h0 hblk hle hleaf
      obtain ⟨-, hspecial⟩ := pageAddItem_items hadd
      have hpage := (hl _ h0 hblk).items (by rw [hspecial]) (by rw [hspecial]) fun hinner => by
        simp [hlf] at hinner
      exact ⟨hl.set h0 hblk hpage (by rw [hspecial]), by simp⟩
  | leafSplit hblk hleaf _ _ =>
      have hlf := hl.leaf_of_taken h0 hblk hle hleaf
      obtain ⟨hk, hright⟩ := hl.split h0 hblk rfl rfl fun hinner => by simp [hlf] at hinner
      refine ⟨hk, fun right hres => ?_⟩
      obtain rfl := Option.some.inj hres
      exact ⟨Nat.le_refl _, by rw [splitPages_length]; exact Nat.lt_succ_self _, hright⟩
  | @innerKeep _ blk level _ _ _ _ evs hblk hchild hrec hrep ih =>
      obtain ⟨-, hc0, hc, hdown⟩ := hchild.leveled hl h0 hblk
      have hk := (ih hc0 (by omega) (hsplit.imp (by omega) fun h l r hmem => h l r (by simp [hmem]))).keeps
      obtain ⟨hpage, hspecial⟩ := hchild.replaced hl h0 hblk hk hrep
      exact ⟨hk.trans (hk.leveled.set h0 (Nat.lt_of_lt_of_le hblk hk.length_le) hpage (by rw [hspecial])),
        by simp⟩
  | @innerAdd _ blk level _ _ _ right page₂ page₃ evs hblk hchild hrec hrep _ hadd ih =>
      obtain ⟨-, hc0, hc, hdown⟩ := hchild.leveled hl h0 hblk
      have hins := ih hc0 (by omega) (hsplit.imp (by omega) fun h l r hmem => h l r (by simp [hmem]))
      obtain ⟨hpage, hspecial⟩ := hchild.replaced hl h0 hblk hins.keeps hrep
      obtain ⟨hitems, hspecial'⟩ := pageAddItem_items hadd
      have hpage' : PageLeveled A _ page₃ :=
        hpage.items (by rw [hspecial']) (by rw [hspecial']) fun _ t ht => by
          rw [hitems] at ht
          refine (List.mem_append.mp ht).imp_right fun ht => ?_
          rw [List.mem_singleton.mp ht, hspecial]
          exact hins.downlink hA hblk hdown
      exact ⟨hins.keeps.trans (hins.keeps.leveled.set h0 (Nat.lt_of_lt_of_le hblk hins.keeps.length_le) hpage'
        (by rw [hspecial', hspecial])), by simp⟩
  | @innerSplit pages₁ blk level _ _ _ right page₂ evs hblk hchild hrec hrep _ _ ih =>
      obtain ⟨-, hc0, hc, hdown⟩ := hchild.leveled hl h0 hblk
      have hins := ih hc0 (by omega) (hsplit.imp (by omega) fun h l r hmem => h l r (by simp [hmem]))
      obtain ⟨hpage, hspecial⟩ := hchild.replaced hl h0 hblk hins.keeps hrep
      have hblk₁ := Nat.lt_of_lt_of_le hblk hins.keeps.length_le
      have hset := hins.keeps.leveled.set h0 hblk₁ hpage (by rw [hspecial])
      -- here the level called with becomes the level of the halves
      have hlabel : level + 1 = (pageAt pages blk).special.level :=
        (hsplit.resolve_right fun h => h blk (pages₁.set blk (.data page₂)).length (by simp [splitTrace])).symm
      have hlevel : level + 1 = page₂.special.level := by
        rw [hspecial, hins.keeps.level_eq _ hblk, hlabel]
      obtain ⟨hk, hright⟩ : KeepsLevels A _ (splitPages (pages₁.set blk (.data page₂)) blk (rightTuple right)
          right.rightBox (level + 1) page₂.special.flags) ∧ _ := by
        refine hset.leveled.split h0 (by rwa [List.length_set]) (by rwa [pageAt_set_self hblk₁])
          (by rw [pageAt_set_self hblk₁]) fun _ => ?_
        obtain ⟨hA', hr0, hr, hrdown⟩ := hins.downlink hA hblk hdown
        refine ⟨hA', hr0, by rwa [List.length_set], ?_⟩
        rw [pageAt_set_self hblk₁, hspecial]
        exact (congrArg (· + 1) (hset.level_eq _ hr)).trans hrdown
      refine ⟨(hins.keeps.trans hset).trans hk, fun right' hres => ?_⟩
      obtain rfl := Option.some.inj hres
      dsimp only
      refine ⟨by rw [List.length_set]; exact hins.keeps.length_le, ?_, ?_⟩
      · rw [splitPages_length]
        exact Nat.lt_succ_self _
      · exact hright.trans hlabel

/-- **Promotion** over a page and its other half. -/
theorem Leveled.promote {right : SplitRight} (hl : Leveled A pages) (leftBox : RTreeTemporalBox) (h0 : 0 < blk)
    (hblk : blk < pages.length) (hr0 : 0 < right.rightBlkno) (hr : right.rightBlkno < pages.length)
    (hA : A blk ∧ A right.rightBlkno) (hlevel : (pageAt pages blk).special.level = level)
    (hright : (pageAt pages right.rightBlkno).special.level = level) :
    KeepsLevels A pages (promotedPages pages blk leftBox right level) ∧
      (pageAt (promotedPages pages blk leftBox right level) pages.length).special.level = level + 1 := by
  obtain ⟨added, hsub, hitems, hspecial, -⟩ := addItems_items (rtreeInitDatapage { root := true } (level + 1))
    [rtreeFormTuple leftBox (childTid blk), rtreeFormTuple right.rightBox (childTid right.rightBlkno)]
  have hset : KeepsLevels A pages (pages.set blk (.data (clearRootFlag (pageAt pages blk)))) :=
    hl.set h0 hblk ((hl blk h0 hblk).items rfl rfl fun _ t ht => Or.inl ht) rfl
  have hpage : PageLeveled A pages (promotedRoot blk leftBox right level).1 := by
    rw [promotedRoot]
    refine ⟨by rw [hspecial]; simp [rtreeInitDatapage], fun _ t ht => ?_⟩
    rw [hspecial]
    rw [hitems] at ht
    have hmem : t ∈ [rtreeFormTuple leftBox (childTid blk),
        rtreeFormTuple right.rightBox (childTid right.rightBlkno)] :=
      hsub.subset (by simpa [rtreeInitDatapage] using ht)
    rcases List.mem_cons.mp hmem with rfl | hmem
    · exact ⟨hA.1, h0, hblk, congrArg (· + 1) hlevel⟩
    · rw [List.mem_singleton.mp hmem]
      exact ⟨hA.2, hr0, hr, congrArg (· + 1) hright⟩
  refine ⟨hset.trans (hset.leveled.append (Nat.lt_of_lt_of_le (Nat.zero_lt_of_lt hblk) hset.length_le)
    (hpage.congr hset.length_le hset.level_eq)), ?_⟩
  rw [pageAt_promotedPages_self, promotedRoot, hspecial]
  rfl

end Insert

/-! ## Bulk deletion -/

section Delete
variable {A : BlockNumber → Prop} {env : Env} {callback : IndexBulkDeleteCallback} {pages pages' : List Page}
  {cs : List BlockNumber} {walked : List (BlockNumber × RTreeTemporalBox)} {evs : List Event}

/-- A walk reports pages it was started at. -/
theorem Vacuums.mem_walked (h : Vacuums env callback pages cs walked pages' evs) :
    ∀ w ∈ walked, w.1 ∈ cs := by
  have hhead : ∀ {blk : BlockNumber} {rest : List BlockNumber} {kept : List (IndexTuple × RTreeTemporalBox)}
      {walked : List (BlockNumber × RTreeTemporalBox)}, (∀ w ∈ walked, w.1 ∈ rest) →
      ∀ w ∈ reported blk kept ++ walked, w.1 ∈ blk :: rest := by
    intro blk rest kept walked ih w hw
    rcases List.mem_append.mp hw with hw | hw
    · rw [(mem_reported hw).2]
      exact List.mem_cons_self
    · exact List.mem_cons_of_mem _ (ih w hw)
  induction h with
  | nil => simp
  | leaf _ _ _ _ ih => exact hhead ih
  | inner _ _ _ _ _ _ ih => exact hhead ih

/-- **A walk keeps the levels.** -/
theorem Vacuums.levels (h : Vacuums env callback pages cs walked pages' evs) (hl : Leveled A pages)
    (hcs : ∀ c ∈ cs, 0 < c) : KeepsLevels A pages pages' := by
  induction h with
  | nil => exact .refl hl
  | @leaf pages pages' blk rest page' walked evs hblk hleaf hpage hrest ih =>
      have h0 := hcs blk List.mem_cons_self
      obtain ⟨-, hspecial⟩ := hpage.page
      have hset := hl.set h0 hblk ((hl blk h0 hblk).items (by rw [hspecial]) (by rw [hspecial])
        fun hinner => by simp [hleaf] at hinner) (by rw [hspecial])
      exact hset.trans (ih hset.leveled fun c hc => hcs c (List.mem_cons_of_mem _ hc))
  | @inner pages pages₁ pages' blk rest page' kids walked evs evs' hblk hinner hkids hpage hrest ihkids ih =>
      have h0 := hcs blk List.mem_cons_self
      obtain ⟨hitems, hspecial⟩ := hpage.page
      have hdown := (hl blk h0 hblk).down hinner
      have hk := ihkids hl fun c hc => by
        obtain ⟨t, ht, rfl⟩ := List.mem_map.mp hc
        exact (hdown t ht).2.1
      -- the downlinks left are some of those the page had
      have hpage' : PageLeveled A pages page' := by
        refine (hl blk h0 hblk).items (by rw [hspecial]) (by rw [hspecial]) fun _ t ht => Or.inr ?_
        rw [hitems, downlinksTo, List.map_map] at ht
        obtain ⟨w, hw, rfl⟩ := List.mem_map.mp ht
        obtain ⟨t, ht, hblkno⟩ := List.mem_map.mp (hkids.mem_walked w hw)
        have := hdown t ht
        rwa [hblkno] at this
      have hset := hk.leveled.set h0 (Nat.lt_of_lt_of_le hblk hk.length_le)
        (hpage'.congr hk.length_le hk.level_eq) (by rw [hspecial, hk.level_eq _ hblk])
      exact (hk.trans hset).trans (ih hset.leveled fun c hc => hcs c (List.mem_cons_of_mem _ hc))

/-- A new meta page. -/
theorem Leveled.ofMeta {root : BlockNumber} {level : Nat} (hl : Leveled A pages) (h0 : 0 < root)
    (hlt : root < pages.length) (hlevel : (pageAt pages root).special.level = level) :
    Leveled A (metaPages pages root level) ∧ RootLevel (metaPages pages root level) := by
  have hlen : (metaPages pages root level).length = pages.length := List.length_set
  have hpage : ∀ b, 0 < b → pageAt (metaPages pages root level) b = pageAt pages b := fun b hb =>
    pageAt_set_ne (Nat.pos_iff_ne_zero.mp hb)
  have hmeta : metaAt (metaPages pages root level) =
      { metaAt pages with root := root, rootLevel := level } := metaAt_set_zero (Nat.zero_lt_of_lt hlt)
  refine ⟨fun b hb0 hb => ?_, by rw [hmeta]; exact h0, by rw [hmeta, hlen]; exact hlt, ?_⟩
  · rw [hpage b hb0]
    refine ⟨(hl b hb0 (hlen ▸ hb)).leaf_iff, fun hinner t ht => ?_⟩
    obtain ⟨hA, hc0, hc, hdown⟩ := (hl b hb0 (hlen ▸ hb)).down hinner t ht
    exact ⟨hA, hc0, hlen ▸ hc, by rw [hpage _ hc0]; exact hdown⟩
  · rw [hmeta]
    exact (congrArg (·.special.level) (hpage root h0)).trans hlevel

/-- A page that is nobody's child may change its level. -/
theorem Leveled.setTop {blk : BlockNumber} {page' : DataPage} (hl : Leveled (· ≠ blk) pages)
    (hblk : blk < pages.length) (hpage : PageLeveled (· ≠ blk) pages page') :
    Leveled (· ≠ blk) (pages.set blk (.data page')) := by
  have hcongr : ∀ {page : DataPage}, PageLeveled (· ≠ blk) pages page →
      PageLeveled (· ≠ blk) (pages.set blk (.data page')) page := by
    intro page h
    refine ⟨h.leaf_iff, fun hinner t ht => ?_⟩
    obtain ⟨hne, hc0, hc, hdown⟩ := h.down hinner t ht
    exact ⟨hne, hc0, by rwa [List.length_set], by rw [pageAt_set_ne hne]; exact hdown⟩
  intro b hb0 hb
  rw [List.length_set] at hb
  by_cases he : b = blk
  · rw [he, pageAt_set_self hblk]
    exact hcongr hpage
  · rw [pageAt_set_ne he]
    exact hcongr (hl b hb0 hb)

/-- **An emptied root becomes a leaf.** -/
theorem Leveled.emptyRoot {blk : BlockNumber} (hl : Leveled (· ≠ blk) pages) (h0 : 0 < blk)
    (hblk : blk < pages.length) :
    Leveled (· ≠ blk) (emptyRootPages pages blk) ∧ RootLevel (emptyRootPages pages blk) := by
  have hpage : PageLeveled (· ≠ blk) pages (rtreeInitDatapage { leaf := true, root := true } 0) :=
    ⟨by simp [rtreeInitDatapage], by simp [rtreeInitDatapage]⟩
  exact (hl.setTop hblk hpage).ofMeta h0 (by rwa [List.length_set]) (by rw [pageAt_set_self hblk]; rfl)

/-- **An only child moves up into the root's block.** -/
theorem Leveled.collapse {blk childblk : BlockNumber} (hl : Leveled (· ≠ blk) pages) (h0 : 0 < blk)
    (hblk : blk < pages.length) (hc0 : 0 < childblk) (hc : childblk < pages.length) :
    Leveled (· ≠ blk) (collapsedPages pages blk childblk) ∧ RootLevel (collapsedPages pages blk childblk) := by
  have hpage : PageLeveled (· ≠ blk) pages (collapsedRoot (pageAt pages childblk)) :=
    (hl childblk hc0 hc).items rfl rfl fun _ t ht => Or.inl ht
  exact (hl.setTop hblk hpage).ofMeta h0 (by rwa [List.length_set]) (by rw [pageAt_set_self hblk]; rfl)

end Delete

/-! ## The operations one after the other -/

/-- Levels in order, and no page above the root. -/
def LeveledIndex (pages : List Page) : Prop := Leveled (· ≠ (metaAt pages).root) pages ∧ RootLevel pages

theorem RootLevel.of_wf {pages : List Page} (h : WF pages) : RootLevel pages :=
  ⟨h.root_range.1, h.root_range.2, (h.tree.holds _ (List.mem_singleton.mpr rfl)).node.level_eq⟩

/-- An insert. -/
theorem InsertsTuple.leveled {env : Env} {itup : IndexTuple} {box : RTreeTemporalBox} {pages pages' : List Page}
    {evs : List Event} (h : InsertsTuple env itup box pages pages' evs) (hl : LeveledIndex pages) :
    LeveledIndex pages' := by
  obtain ⟨hl, hroot⟩ := hl
  cases h with
  | keep hlen hmagic hins =>
      have hk := (hins.levels hl (fun c hc => Nat.ne_of_gt (Nat.lt_of_lt_of_le hroot.lt hc)) hroot.pos
        (Nat.le_of_eq hroot.level_eq) (Or.inl hroot.level_eq)).keeps
      exact ⟨by rw [hk.meta_eq]; exact hk.leveled, hk.rootLevel hroot⟩
  | @promote pages₁ leftBox right evs hlen hmagic hins hext =>
      have hins := hins.levels (hl.mono (B := fun _ => True) fun _ _ _ => trivial) (fun _ _ => trivial) hroot.pos
        (Nat.le_of_eq hroot.level_eq) (Or.inl hroot.level_eq)
      obtain ⟨hnew, hr, hlevel⟩ := hins.right right rfl
      have hlt := Nat.lt_of_lt_of_le hroot.lt hins.keeps.length_le
      -- the new root is past every block there was
      have hl₁ : Leveled (· ≠ pages₁.length) pages₁ := hins.keeps.leveled.mono fun c hc _ => Nat.ne_of_lt hc
      obtain ⟨hk, hself⟩ := hl₁.promote leftBox hroot.pos hlt
        (Nat.lt_of_lt_of_le (Nat.zero_lt_of_lt hroot.lt) hnew) hr ⟨Nat.ne_of_lt hlt, Nat.ne_of_lt hr⟩
        (by rw [hins.keeps.level_eq _ hroot.lt]; exact hroot.level_eq) (hlevel.trans hroot.level_eq)
      have hmeta := hk.leveled.ofMeta (Nat.zero_lt_of_lt hlt) (by simp [promotedPages]) hself
      refine ⟨?_, hmeta.2⟩
      rw [show (metaAt (metaPages _ _ _)).root = pages₁.length from
        congrArg (·.root) (metaAt_set_zero (by simp [promotedPages]))]
      exact hmeta.1

/-- A bulk deletion. -/
theorem ShrinksRoot.leveled {env : Env} {callback : IndexBulkDeleteCallback} {pages pages₁ pages' : List Page}
    {walked : List (BlockNumber × RTreeTemporalBox)} {evs evs' : List Event}
    (h : ShrinksRoot env pages₁ pages' evs') (hl : LeveledIndex pages)
    (hvac : Vacuums env callback pages [(metaAt pages).root] walked pages₁ evs) : LeveledIndex pages' := by
  obtain ⟨hl, hroot⟩ := hl
  have hk := hvac.levels hl fun c hc => by
    rw [List.mem_singleton.mp hc]
    exact hroot.pos
  have hroot₁ := hk.rootLevel hroot
  have hl₁ : Leveled (· ≠ (metaAt pages₁).root) pages₁ := by
    rw [hk.meta_eq]
    exact hk.leveled
  have hmeta : ∀ {pages : List Page} {level : Nat}, pages.length = pages₁.length →
      (metaAt (metaPages pages (metaAt pages₁).root level)).root = (metaAt pages₁).root := by
    intro pages level hlen
    exact congrArg (·.root) (metaAt_set_zero (hlen ▸ Nat.zero_lt_of_lt hroot₁.lt))
  cases h with
  | stay => exact ⟨hl₁, hroot₁⟩
  | emptied _ _ =>
      obtain ⟨hl', hroot'⟩ := hl₁.emptyRoot hroot₁.pos hroot₁.lt
      refine ⟨?_, hroot'⟩
      rw [emptyRootPages, hmeta List.length_set]
      exact hl'
  | @collapsed l childitup hlevel hitems =>
      have hinner : (pageAt pages₁ (metaAt pages₁).root).special.flags.leaf = false := by
        rw [Bool.eq_false_iff, ne_eq, (hl₁ _ hroot₁.pos hroot₁.lt).leaf_iff, hroot₁.level_eq, hlevel]
        exact Nat.succ_ne_zero l
      obtain ⟨-, hc0, hc, -⟩ := (hl₁ _ hroot₁.pos hroot₁.lt).down hinner childitup (by simp [hitems])
      obtain ⟨hl', hroot'⟩ := hl₁.collapse hroot₁.pos hroot₁.lt hc0 hc
      refine ⟨?_, hroot'⟩
      rw [collapsedPages, hmeta List.length_set]
      exact hl'

/-- The levels are an invariant of the operations. -/
theorem leveledIndex_opInvariant (env : Env) : OpInvariant env (fun _ => True) LeveledIndex where
  init := by
    refine ⟨fun b h0 hb => ?_, .of_wf initPages_wf.1⟩
    obtain rfl : b = 1 := by
      simp only [initPages, List.length_cons, List.length_nil] at hb
      omega
    exact ⟨by decide, by decide⟩
  insert _ hl _ _ hins := hins.leveled hl
  delete _ hl hvac _ _ hshrinks := hshrinks.leveled hl hvac

/-! ## The pages reachable from the root -/

/-- The levels of the pages reachable from the root agree with the root's level in the meta page. -/
structure LevelsAgree (pages : List Page) : Prop where
  root : (pageAt pages (metaAt pages).root).special.level = (metaAt pages).rootLevel
  child : ∀ {d i : Nat} {b c : BlockNumber}, Reachable pages d b → Downlink pages b i c →
    (pageAt pages c).special.level + 1 = (pageAt pages b).special.level
  /-- A path of as many downlinks as the root's level ends at a leaf, and no shorter one does. -/
  leaf_iff : ∀ {d : Nat} {b : BlockNumber}, Reachable pages d b →
    ((pageAt pages b).special.flags.leaf = true ↔ d = (metaAt pages).rootLevel)

theorem Leveled.reachable {A : BlockNumber → Prop} {pages : List Page} (hl : Leveled A pages)
    (hroot : RootLevel pages) {d : Nat} {b : BlockNumber} (h : Reachable pages d b) :
    0 < b ∧ b < pages.length ∧ (pageAt pages b).special.level + d = (metaAt pages).rootLevel := by
  induction h with
  | root => exact ⟨hroot.pos, hroot.lt, hroot.level_eq⟩
  | down _ hinner ht ih =>
      obtain ⟨h0, hlt, hlevel⟩ := ih
      obtain ⟨-, hc0, hc, hdown⟩ := (hl _ h0 hlt).down hinner _ ht
      exact ⟨hc0, hc, by omega⟩

/-- **Leveled pages agree with the meta page.** -/
theorem Leveled.agree {A : BlockNumber → Prop} {pages : List Page} (hl : Leveled A pages) (hroot : RootLevel pages) :
    LevelsAgree pages where
  root := hroot.level_eq
  child hb hlink := by
    obtain ⟨h0, hlt, -⟩ := hl.reachable hroot hb
    obtain ⟨hinner, hitem⟩ := hlink
    obtain ⟨t, ht, rfl⟩ := Option.map_eq_some_iff.mp hitem
    exact ((hl _ h0 hlt).down hinner t (List.mem_of_getElem? ht)).2.2.2
  leaf_iff hb := by
    obtain ⟨h0, hlt, hlevel⟩ := hl.reachable hroot hb
    rw [(hl _ h0 hlt).leaf_iff]
    omega

end TemporalRTree
